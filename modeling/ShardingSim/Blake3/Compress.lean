import ShardingSim.Library.ByteBuffer
import ShardingSim.Library.LittleEndian

/-! The compression function of `src/blake3.c`: little-endian words, the quarter round `g`, a round
driven by the table `MSG_SCHEDULE`, and `compress`. The five arguments of a call to `compress` are
one value (`CompressInput`), so that the calls a computation makes can be listed and compared.

Below it the compression function as the BLAKE3 specification defines it: the message is permuted between
rounds, where the source reads it through a table. `compress_eq` identifies the two over the words that the
source loads, and `compress_eq_compression` over bytes and numbers. -/
namespace ShardingSim.Blake3
open ByteBuffer
set_option autoImplicit false

abbrev Cv := Vector UInt32 8

def iv : Cv := #v[0x6A09E667, 0xBB67AE85, 0x3C6EF372, 0xA54FF53A,
  0x510E527F, 0x9B05688C, 0x1F83D9AB, 0x5BE0CD19]

namespace Flag
def chunkStart : UInt8 := (1 : UInt8) <<< 0
def chunkEnd : UInt8 := (1 : UInt8) <<< 1
def parent : UInt8 := (1 : UInt8) <<< 2
def root : UInt8 := (1 : UInt8) <<< 3
def keyedHash : UInt8 := (1 : UInt8) <<< 4
end Flag

def msgSchedule : Vector (Vector (Fin 16) 16) 7 := #v[
  #v[0, 1, 2, 3, 4, 5, 6, 7, 8, 9, 10, 11, 12, 13, 14, 15],
  #v[2, 6, 3, 10, 7, 0, 4, 13, 1, 11, 12, 5, 9, 14, 15, 8],
  #v[3, 4, 10, 12, 13, 2, 7, 14, 6, 5, 9, 0, 11, 15, 8, 1],
  #v[10, 7, 12, 9, 14, 3, 13, 15, 4, 0, 11, 2, 5, 8, 1, 6],
  #v[12, 13, 9, 11, 15, 10, 14, 8, 7, 2, 5, 3, 0, 1, 6, 4],
  #v[9, 14, 11, 5, 8, 12, 15, 1, 13, 3, 0, 10, 2, 6, 4, 7],
  #v[11, 15, 5, 0, 1, 9, 8, 6, 14, 10, 2, 12, 3, 4, 7, 13]]

/-! ## Words and bytes -/

def rotr32 (x n : UInt32) : UInt32 := (x >>> n) ||| (x <<< (32 - n))

/-- `load32_le` on the four bytes of `p` from offset `off` on. -/
def load32Le {n : ℕ} (p : Vector UInt8 n) (off : ℕ) : UInt32 :=
  (p[off]?.getD 0).toUInt32 ||| ((p[off + 1]?.getD 0).toUInt32 <<< 8) |||
    ((p[off + 2]?.getD 0).toUInt32 <<< 16) ||| ((p[off + 3]?.getD 0).toUInt32 <<< 24)

def store32Le (x : UInt32) : List UInt8 :=
  [x.toUInt8, (x >>> 8).toUInt8, (x >>> 16).toUInt8, (x >>> 24).toUInt8]

/-- The bytes written by a loop of `store32_le` over the words of a chaining value. -/
def storeCv (cv : Cv) : List UInt8 := cv.toList.flatMap store32Le

@[simp] theorem store32Le_length (x : UInt32) : (store32Le x).length = 4 := rfl

@[simp] theorem storeCv_length (cv : Cv) : (storeCv cv).length = 32 := by
  simp [storeCv, List.length_flatMap, List.map_const', Vector.length_toList]

theorem word_of_bytes (x : UInt32) :
    x.toUInt8.toUInt32 ||| ((x >>> 8).toUInt8.toUInt32 <<< 8) |||
      ((x >>> 16).toUInt8.toUInt32 <<< 16) ||| ((x >>> 24).toUInt8.toUInt32 <<< 24) = x := by
  apply UInt32.toBitVec_inj.mp
  simp only [UInt32.toBitVec_or, UInt32.toBitVec_shiftLeft, UInt8.toBitVec_toUInt32,
    UInt32.toBitVec_toUInt8, UInt32.toBitVec_shiftRight]
  have h8 : (8#32 % 32).toNat = 8 := rfl
  have h16 : (16#32 % 32).toNat = 16 := rfl
  have h24 : (24#32 % 32).toNat = 24 := rfl
  refine BitVec.eq_of_getLsbD_eq fun i hi => ?_
  simp only [BitVec.getLsbD_or, BitVec.getLsbD_setWidth, UInt32.toBitVec_ofNat,
    BitVec.shiftLeft_eq', BitVec.ushiftRight_eq', BitVec.getLsbD_shiftLeft,
    BitVec.getLsbD_ushiftRight, h8, h16, h24]
  -- bit `i` comes from the byte it lies in
  have hcases : i < 8 ∨ (8 ≤ i ∧ i < 16) ∨ (16 ≤ i ∧ i < 24) ∨ 24 ≤ i := by omega
  rcases hcases with h | h | h | h
  · simp [h, hi, show i < 16 by omega, show i < 24 by omega]
  · simp [hi, show ¬ i < 8 by omega, show i < 16 by omega, show i < 24 by omega,
      show i - 8 < 8 by omega, show i - 8 < 32 by omega, show 8 + (i - 8) = i by omega]
  · simp [hi, show ¬ i < 8 by omega, show ¬ i < 16 by omega, show i < 24 by omega,
      show ¬ i - 8 < 8 by omega, show i - 16 < 8 by omega, show i - 16 < 32 by omega,
      show 16 + (i - 16) = i by omega]
  · simp [hi, show ¬ i < 8 by omega, show ¬ i < 16 by omega, show ¬ i < 24 by omega,
      show ¬ i - 8 < 8 by omega, show ¬ i - 16 < 8 by omega, show i - 24 < 8 by omega,
      show i - 24 < 32 by omega, show 24 + (i - 24) = i by omega]

theorem store32Le_injective : Function.Injective store32Le := by
  intro x y h
  simp only [store32Le, List.cons.injEq, and_true] at h
  rw [← word_of_bytes x, ← word_of_bytes y, h.1, h.2.1, h.2.2.1, h.2.2.2]

theorem load32Le_of_bytes {n : ℕ} {p : Vector UInt8 n} {off : ℕ} {x : UInt32}
    (h : ∀ j < 4, p[off + j]? = (store32Le x)[j]?) : load32Le p off = x := by
  have h0 : p[off]? = some x.toUInt8 := h 0 (by decide)
  have h1 : p[off + 1]? = some (x >>> 8).toUInt8 := h 1 (by decide)
  have h2 : p[off + 2]? = some (x >>> 16).toUInt8 := h 2 (by decide)
  have h3 : p[off + 3]? = some (x >>> 24).toUInt8 := h 3 (by decide)
  rw [load32Le, h0, h1, h2, h3]
  exact word_of_bytes x

theorem loadCv_of_read {n : ℕ} {p : Vector UInt8 n} {off : ℕ} {cv : Cv}
    (h : read p off 32 = storeCv cv) :
    (Vector.ofFn fun i : Fin 8 => load32Le p (off + i.val * 4)) = cv := by
  refine Vector.ext fun i hi => ?_
  rw [Vector.getElem_ofFn]
  refine load32Le_of_bytes fun j hj => ?_
  have hread : (read p off 32)[i * 4 + j]? = p[off + i * 4 + j]? := by
    rw [getElem?_read _ _ _ _ (by omega), Nat.add_assoc]
  have hstore : (storeCv cv)[i * 4 + j]? = (store32Le cv[i])[j]? := by
    rw [storeCv, getElem?_flatMap_length store32Le 4 store32Le_length _ i j (by simpa using hi) hj,
      Vector.getElem_toList]
  rw [← hread, h, hstore]

/-! ## Rounds -/

def g (state : Vector UInt32 16) (a b c d : Fin 16) (mx my : UInt32) : Vector UInt32 16 :=
  let state := state.set a (state[a] + state[b] + mx)
  let state := state.set d (rotr32 (state[d] ^^^ state[a]) 16)
  let state := state.set c (state[c] + state[d])
  let state := state.set b (rotr32 (state[b] ^^^ state[c]) 12)
  let state := state.set a (state[a] + state[b] + my)
  let state := state.set d (rotr32 (state[d] ^^^ state[a]) 8)
  let state := state.set c (state[c] + state[d])
  state.set b (rotr32 (state[b] ^^^ state[c]) 7)

def roundFn (state msg : Vector UInt32 16) (round : Fin 7) : Vector UInt32 16 :=
  let schedule := msgSchedule[round]
  -- column step
  let state := g state 0 4 8 12 msg[schedule[0]] msg[schedule[1]]
  let state := g state 1 5 9 13 msg[schedule[2]] msg[schedule[3]]
  let state := g state 2 6 10 14 msg[schedule[4]] msg[schedule[5]]
  let state := g state 3 7 11 15 msg[schedule[6]] msg[schedule[7]]
  -- diagonal step
  let state := g state 0 5 10 15 msg[schedule[8]] msg[schedule[9]]
  let state := g state 1 6 11 12 msg[schedule[10]] msg[schedule[11]]
  let state := g state 2 7 8 13 msg[schedule[12]] msg[schedule[13]]
  g state 3 4 9 14 msg[schedule[14]] msg[schedule[15]]

structure CompressInput where
  cv : Cv
  block : Vector UInt8 64
  blockLen : UInt8
  counter : UInt64
  flags : UInt8
deriving DecidableEq

def initialState (x : CompressInput) : Vector UInt32 16 :=
  #v[x.cv[0], x.cv[1], x.cv[2], x.cv[3], x.cv[4], x.cv[5], x.cv[6], x.cv[7],
    iv[0], iv[1], iv[2], iv[3],
    x.counter.toUInt32, (x.counter >>> 32).toUInt32, x.blockLen.toUInt32, x.flags.toUInt32]

def blockWords (block : Vector UInt8 64) : Vector UInt32 16 :=
  Vector.ofFn fun i => load32Le block (i.val * 4)

@[irreducible] def compress (x : CompressInput) : Vector UInt32 16 :=
  let msg := blockWords x.block
  let state := (List.finRange 7).foldl (fun state r => roundFn state msg r) (initialState x)
  Vector.ofFn fun i =>
    if h : i.val < 8 then state[i] ^^^ state[i.val + 8] else state[i] ^^^ x.cv[i.val - 8]

/-- `memcpy(cv, full, 32)`: the first eight words of an output. -/
def firstWords (full : Vector UInt32 16) : Cv := Vector.ofFn fun i => full[i.val]

/-- The chaining value a call leaves, as `compress_in_place` stores it. -/
def compressCv (x : CompressInput) : Cv := firstWords (compress x)

/-! ## The specification -/

namespace Spec

def rotr (x : UInt32) (n : ℕ) : UInt32 := ⟨x.toBitVec.rotateRight n⟩

def quarter (a b c d mx my : UInt32) : UInt32 × UInt32 × UInt32 × UInt32 :=
  let a := a + b + mx
  let d := rotr (d ^^^ a) 16
  let c := c + d
  let b := rotr (b ^^^ c) 12
  let a := a + b + my
  let d := rotr (d ^^^ a) 8
  let c := c + d
  let b := rotr (b ^^^ c) 7
  (a, b, c, d)

def mix (v : Vector UInt32 16) (i j k l : Fin 16) (mx my : UInt32) : Vector UInt32 16 :=
  let q := quarter v[i] v[j] v[k] v[l] mx my
  (((v.set i q.1).set j q.2.1).set k q.2.2.1).set l q.2.2.2

def round (v m : Vector UInt32 16) : Vector UInt32 16 :=
  let v := mix v 0 4 8 12 m[0] m[1]
  let v := mix v 1 5 9 13 m[2] m[3]
  let v := mix v 2 6 10 14 m[4] m[5]
  let v := mix v 3 7 11 15 m[6] m[7]
  let v := mix v 0 5 10 15 m[8] m[9]
  let v := mix v 1 6 11 12 m[10] m[11]
  let v := mix v 2 7 8 13 m[12] m[13]
  mix v 3 4 9 14 m[14] m[15]

def permutation : Vector (Fin 16) 16 := #v[2, 6, 3, 10, 7, 0, 4, 13, 1, 11, 12, 5, 9, 14, 15, 8]

def permute (m : Vector UInt32 16) : Vector UInt32 16 := Vector.ofFn fun i => m[permutation[i]]

def rounds : ℕ → Vector UInt32 16 → Vector UInt32 16 → Vector UInt32 16
  | 0, v, _ => v
  | n + 1, v, m => rounds n (round v m) (permute m)

def compress (x : CompressInput) : Vector UInt32 16 :=
  let v := rounds 7 (initialState x) (blockWords x.block)
  Vector.ofFn fun i =>
    if h : i.val < 8 then v[i] ^^^ v[i.val + 8] else v[i] ^^^ x.cv[i.val - 8]

end Spec

/-! ## The source's compression function is the specified one -/

theorem rotr32_eq (x : UInt32) (n : ℕ) (h0 : 0 < n) (h : n < 32) :
    rotr32 x (UInt32.ofNat n) = Spec.rotr x n := by
  have hn : (UInt32.ofNat n).toNat = n := UInt32.toNat_ofNat_of_lt' (by simpa using (by omega : n < 2 ^ 32))
  have hsub : ((32 : UInt32) - UInt32.ofNat n).toNat = 32 - n := by
    rw [UInt32.toNat_sub_of_le _ _ (UInt32.le_iff_toNat_le.mpr (by rw [hn]; exact h.le)), hn]
    rfl
  apply UInt32.toBitVec_inj.mp
  have hr : Spec.rotr x n = ⟨x.toBitVec.rotateRight n⟩ := rfl
  rw [rotr32, hr, UInt32.toBitVec_or, UInt32.toBitVec_shiftRight, UInt32.toBitVec_shiftLeft,
    BitVec.rotateRight_def, Nat.mod_eq_of_lt h]
  have hn' : (UInt32.ofNat n).toBitVec.toNat = n := hn
  have hsub' : ((32 : UInt32) - UInt32.ofNat n).toBitVec.toNat = 32 - n := hsub
  simp only [BitVec.ushiftRight_eq', BitVec.shiftLeft_eq', BitVec.toNat_umod, hn', hsub']
  have h32 : BitVec.toNat (32 : BitVec 32) = 32 := rfl
  rw [h32, Nat.mod_eq_of_lt h, Nat.mod_eq_of_lt (by omega : 32 - n < 32)]

section Quarter
variable {i j k l : Fin 16}

def setFour (v : Vector UInt32 16) (i j k l : Fin 16) (a b c d : UInt32) : Vector UInt32 16 :=
  (((v.set i a).set j b).set k c).set l d

/-- One half of the quarter round `g`, with its two rotations. -/
def halfQuarter (v : Vector UInt32 16) (i j k l : Fin 16) (m r s : UInt32) : Vector UInt32 16 :=
  let v := v.set i (v[i] + v[j] + m)
  let v := v.set l (rotr32 (v[l] ^^^ v[i]) r)
  let v := v.set k (v[k] + v[l])
  v.set j (rotr32 (v[j] ^^^ v[k]) s)

theorem g_eq_halves (v : Vector UInt32 16) (i j k l : Fin 16) (mx my : UInt32) :
    g v i j k l mx my = halfQuarter (halfQuarter v i j k l mx 16 12) i j k l my 8 7 := rfl

variable (hij : i ≠ j) (hik : i ≠ k) (hil : i ≠ l) (hjk : j ≠ k) (hjl : j ≠ l) (hkl : k ≠ l)
include hij hik hil hjk hjl hkl

theorem getElem_setFour (v : Vector UInt32 16) (a b c d : UInt32) :
    (setFour v i j k l a b c d)[i] = a ∧ (setFour v i j k l a b c d)[j] = b ∧
      (setFour v i j k l a b c d)[k] = c ∧ (setFour v i j k l a b c d)[l] = d := by
  simp only [ne_eq, Fin.ext_iff] at hij hik hil hjk hjl hkl
  simp [setFour, Ne.symm hij, Ne.symm hik, Ne.symm hil, Ne.symm hjk, Ne.symm hjl, Ne.symm hkl]

omit hij hik hil hjk hjl hkl in
theorem setFour_setFour (v : Vector UInt32 16) (a b c d a' b' c' d' : UInt32) :
    setFour (setFour v i j k l a b c d) i j k l a' b' c' d' = setFour v i j k l a' b' c' d' := by
  ext p hp
  simp only [setFour, Vector.getElem_set]
  split_ifs <;> rfl

theorem halfQuarter_eq (v : Vector UInt32 16) (m r s : UInt32) : halfQuarter v i j k l m r s =
    setFour v i j k l (v[i] + v[j] + m)
      (rotr32 (v[j] ^^^ (v[k] + rotr32 (v[l] ^^^ (v[i] + v[j] + m)) r)) s)
      (v[k] + rotr32 (v[l] ^^^ (v[i] + v[j] + m)) r) (rotr32 (v[l] ^^^ (v[i] + v[j] + m)) r) := by
  simp only [ne_eq, Fin.ext_iff] at hij hik hil hjk hjl hkl
  simp only [halfQuarter, setFour, Fin.getElem_fin, Vector.getElem_set, if_true, if_neg hij, if_neg hik, if_neg hil,
    if_neg (Ne.symm hjk), if_neg (Ne.symm hjl), if_neg (Ne.symm hkl)]
  -- the stores at distinct indices change places
  rw [Vector.set_comm _ _ (Ne.symm hjk), Vector.set_comm _ _ (Ne.symm hjl), Vector.set_comm _ _ (Ne.symm hkl)]

theorem g_eq_mix (v : Vector UInt32 16) (mx my : UInt32) :
    g v i j k l mx my = Spec.mix v i j k l mx my := by
  have h16 (x : UInt32) : rotr32 x 16 = Spec.rotr x 16 := rotr32_eq x 16 (by omega) (by omega)
  have h12 (x : UInt32) : rotr32 x 12 = Spec.rotr x 12 := rotr32_eq x 12 (by omega) (by omega)
  have h8 (x : UInt32) : rotr32 x 8 = Spec.rotr x 8 := rotr32_eq x 8 (by omega) (by omega)
  have h7 (x : UInt32) : rotr32 x 7 = Spec.rotr x 7 := rotr32_eq x 7 (by omega) (by omega)
  have hget := getElem_setFour hij hik hil hjk hjl hkl v
  rw [g_eq_halves, halfQuarter_eq hij hik hil hjk hjl hkl, halfQuarter_eq hij hik hil hjk hjl hkl, setFour_setFour]
  simp only [hget, h16, h12, h8, h7]
  rfl

end Quarter

/-- The message in the order in which round `r` of the source reads it. -/
def scheduled (msg : Vector UInt32 16) (r : Fin 7) : Vector UInt32 16 :=
  Vector.ofFn fun i => msg[msgSchedule[r][i]]

theorem scheduled_zero (msg : Vector UInt32 16) : scheduled msg 0 = msg := by
  have hid : ∀ i : Fin 16, msgSchedule[(0 : Fin 7)][i] = i := by decide
  ext i hi
  simp only [scheduled, Vector.getElem_ofFn, hid]
  rfl

/-- Row `r + 1` of the table reads row `r` through the permutation. -/
theorem scheduled_succ (msg : Vector UInt32 16) (r : Fin 6) :
    scheduled msg r.succ = Spec.permute (scheduled msg r.castSucc) := by
  have hrow : ∀ (r : Fin 6) (i : Fin 16),
      msgSchedule[r.succ][i] = msgSchedule[r.castSucc][Spec.permutation[i]] := by decide
  ext i hi
  simp only [scheduled, Spec.permute, Vector.getElem_ofFn, hrow]
  simp

theorem roundFn_eq (v msg : Vector UInt32 16) (r : Fin 7) :
    roundFn v msg r = Spec.round v (scheduled msg r) := by
  have c0 (v mx my) : g v 0 4 8 12 mx my = Spec.mix v 0 4 8 12 mx my := by apply g_eq_mix <;> decide
  have c1 (v mx my) : g v 1 5 9 13 mx my = Spec.mix v 1 5 9 13 mx my := by apply g_eq_mix <;> decide
  have c2 (v mx my) : g v 2 6 10 14 mx my = Spec.mix v 2 6 10 14 mx my := by apply g_eq_mix <;> decide
  have c3 (v mx my) : g v 3 7 11 15 mx my = Spec.mix v 3 7 11 15 mx my := by apply g_eq_mix <;> decide
  have d0 (v mx my) : g v 0 5 10 15 mx my = Spec.mix v 0 5 10 15 mx my := by apply g_eq_mix <;> decide
  have d1 (v mx my) : g v 1 6 11 12 mx my = Spec.mix v 1 6 11 12 mx my := by apply g_eq_mix <;> decide
  have d2 (v mx my) : g v 2 7 8 13 mx my = Spec.mix v 2 7 8 13 mx my := by apply g_eq_mix <;> decide
  have d3 (v mx my) : g v 3 4 9 14 mx my = Spec.mix v 3 4 9 14 mx my := by apply g_eq_mix <;> decide
  simp only [roundFn, c0, c1, c2, c3, d0, d1, d2, d3]
  simp [Spec.round, scheduled]

theorem foldl_roundFn_eq (v msg : Vector UInt32 16) :
    (List.finRange 7).foldl (fun state r => roundFn state msg r) v = Spec.rounds 7 v msg := by
  have h0 : scheduled msg 0 = msg := scheduled_zero msg
  have h1 : scheduled msg 1 = Spec.permute (scheduled msg 0) := scheduled_succ msg 0
  have h2 : scheduled msg 2 = Spec.permute (scheduled msg 1) := scheduled_succ msg 1
  have h3 : scheduled msg 3 = Spec.permute (scheduled msg 2) := scheduled_succ msg 2
  have h4 : scheduled msg 4 = Spec.permute (scheduled msg 3) := scheduled_succ msg 3
  have h5 : scheduled msg 5 = Spec.permute (scheduled msg 4) := scheduled_succ msg 4
  have h6 : scheduled msg 6 = Spec.permute (scheduled msg 5) := scheduled_succ msg 5
  have hlist : List.finRange 7 = [0, 1, 2, 3, 4, 5, 6] := by decide
  simp only [hlist, List.foldl_cons, List.foldl_nil, roundFn_eq, h6, h5, h4, h3, h2, h1, h0]
  rfl

theorem compress_eq (x : CompressInput) : compress x = Spec.compress x := by
  rw [compress, Spec.compress, foldl_roundFn_eq]

/-! ## From bytes and numbers -/

namespace Spec

/-- The message: sixteen numbers of four bytes, lowest first. -/
def words (block : Vector UInt8 64) : Vector UInt32 16 :=
  Vector.ofFn fun i => UInt32.ofNat (LittleEndian.value (read block (i.val * 4) 4))

/-- The counter takes two words, its low half first. -/
def start (cv : Cv) (blockLen counter flags : ℕ) : Vector UInt32 16 :=
  cv ++ #v[iv[0], iv[1], iv[2], iv[3], UInt32.ofNat (counter % 2 ^ 32), UInt32.ofNat (counter / 2 ^ 32),
    UInt32.ofNat blockLen, UInt32.ofNat flags]

/-- Both halves of the state after the rounds are fed forward, the lower with the upper and the upper with
the chaining value. -/
def compression (cv : Cv) (block : Vector UInt8 64) (blockLen counter flags : ℕ) : Vector UInt32 16 :=
  let v := rounds 7 (start cv blockLen counter flags) (words block)
  (Vector.ofFn fun i : Fin 8 => v[i.val] ^^^ v[i.val + 8]) ++ Vector.ofFn fun i : Fin 8 => v[i.val + 8] ^^^ cv[i]

end Spec

theorem store32Le_eq (x : UInt32) : store32Le x = LittleEndian.bytes 4 x.toNat := by
  have hbyte : ∀ k : ℕ, k < 32 → (x >>> UInt32.ofNat k).toUInt8 = UInt8.ofNat (x.toNat / 2 ^ k) := by
    intro k hk
    have hk' : (UInt32.ofNat k).toNat = k := UInt32.toNat_ofNat_of_lt' (by simpa using hk.trans (by decide))
    apply UInt8.toNat_inj.mp
    rw [UInt32.toNat_toUInt8, UInt32.toNat_shiftRight, hk', Nat.mod_eq_of_lt hk, Nat.shiftRight_eq_div_pow,
      UInt8.toNat_ofNat']
  have h0 : (x >>> (UInt32.ofNat 0)).toUInt8 = x.toUInt8 := by simp
  simp only [LittleEndian.bytes, Nat.div_div_eq_div_mul]
  calc store32Le x = [0, 8, 16, 24].map fun k => (x >>> UInt32.ofNat k).toUInt8 := by
        simp only [List.map_cons, List.map_nil, h0]
        rfl
    _ = [0, 8, 16, 24].map fun k => UInt8.ofNat (x.toNat / 2 ^ k) := by
        refine List.map_congr_left fun k hk => hbyte k ?_
        revert k
        decide
    _ = _ := by simp

theorem load32Le_eq {n : ℕ} (p : Vector UInt8 n) {off : ℕ} (h : off + 4 ≤ n) :
    load32Le p off = UInt32.ofNat (LittleEndian.value (read p off 4)) := by
  have hlen : (read p off 4).length = 4 := length_read p h
  have hlt : LittleEndian.value (read p off 4) < 2 ^ 32 := by
    have hvalue := LittleEndian.value_lt (read p off 4)
    rwa [hlen] at hvalue
  have hbytes : store32Le (UInt32.ofNat (LittleEndian.value (read p off 4))) = read p off 4 := by
    have hread := LittleEndian.bytes_value (read p off 4)
    rwa [hlen, ← UInt32.toNat_ofNat_of_lt' hlt, ← store32Le_eq] at hread
  apply load32Le_of_bytes
  intro j hj
  rw [hbytes, getElem?_read p off 4 j hj]

theorem blockWords_eq (block : Vector UInt8 64) : blockWords block = Spec.words block := by
  refine Vector.ext fun i hi => ?_
  simp only [blockWords, Spec.words, Vector.getElem_ofFn]
  exact load32Le_eq block (by omega)

theorem initialState_eq (x : CompressInput) :
    initialState x = Spec.start x.cv x.blockLen.toNat x.counter.toNat x.flags.toNat := by
  have hcv : #v[x.cv[0], x.cv[1], x.cv[2], x.cv[3], x.cv[4], x.cv[5], x.cv[6], x.cv[7]] = x.cv := by
    refine Vector.ext fun i hi => ?_
    interval_cases i <;> rfl
  have hlow : x.counter.toUInt32 = UInt32.ofNat (x.counter.toNat % 2 ^ 32) := by
    apply UInt32.toNat_inj.mp
    rw [UInt64.toNat_toUInt32, UInt32.toNat_ofNat', Nat.mod_mod]
  have hhigh : (x.counter >>> 32).toUInt32 = UInt32.ofNat (x.counter.toNat / 2 ^ 32) := by
    apply UInt32.toNat_inj.mp
    rw [UInt64.toNat_toUInt32, UInt32.toNat_ofNat', UInt64.toNat_shiftRight, Nat.shiftRight_eq_div_pow]
    rfl
  have hlen : x.blockLen.toUInt32 = UInt32.ofNat x.blockLen.toNat := by
    apply UInt32.toNat_inj.mp
    simp
  have hflags : x.flags.toUInt32 = UInt32.ofNat x.flags.toNat := by
    apply UInt32.toNat_inj.mp
    simp
  calc initialState x = #v[x.cv[0], x.cv[1], x.cv[2], x.cv[3], x.cv[4], x.cv[5], x.cv[6], x.cv[7]] ++
        #v[iv[0], iv[1], iv[2], iv[3], x.counter.toUInt32, (x.counter >>> 32).toUInt32, x.blockLen.toUInt32,
          x.flags.toUInt32] := rfl
    _ = Spec.start x.cv x.blockLen.toNat x.counter.toNat x.flags.toNat := by
        rw [hcv, hlow, hhigh, hlen, hflags, Spec.start]

theorem specCompress_eq (x : CompressInput) : Spec.compress x =
    Spec.compression x.cv x.block x.blockLen.toNat x.counter.toNat x.flags.toNat := by
  unfold Spec.compress Spec.compression
  rw [initialState_eq, blockWords_eq]
  refine Vector.ext fun i hi => ?_
  rw [Vector.getElem_ofFn]
  by_cases h : i < 8
  · rw [dif_pos h]
    refine Eq.trans ?_ (Vector.getElem_append_left h).symm
    rw [Vector.getElem_ofFn]
    rfl
  · have hsub : i - 8 + 8 = i := by omega
    rw [dif_neg h]
    refine Eq.trans ?_ (Vector.getElem_append_right hi (by omega)).symm
    simp only [Vector.getElem_ofFn, hsub]
    rfl

/-- **The compression function.** The sixteen words are those of the specification, for every chaining value,
block, length, counter and flags. -/
theorem compress_eq_compression (cv : Cv) (block : Vector UInt8 64) (blockLen : UInt8) (counter : UInt64)
    (flags : UInt8) : compress ⟨cv, block, blockLen, counter, flags⟩ =
      Spec.compression cv block blockLen.toNat counter.toNat flags.toNat := by
  rw [compress_eq, specCompress_eq]

end ShardingSim.Blake3
