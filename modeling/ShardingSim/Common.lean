import ShardingSim.Library.ByteBuffer
import ShardingSim.Library.Decimal
import ShardingSim.Library.Trim

/-! The utilities of `src/common.c` that the other modules use. A C string is the list of its bytes
without the terminator; a `char` array that holds one is a `CharArray`, which keeps the bound of the
array and the absence of inner zeros. -/
namespace ShardingSim
open ByteBuffer Decimal
set_option autoImplicit false

/-! ## Characters and strings -/

def ch (c : Char) : UInt8 := UInt8.ofNat c.toNat

def ascii (s : String) : List UInt8 := s.toList.map ch

/-- The string at the start of a byte sequence: what stands before the first zero. -/
def cstr (bytes : List UInt8) : List UInt8 := bytes.takeWhile (· ≠ 0)

theorem cstr_of_notMem {s : List UInt8} (h : 0 ∉ s) : cstr s = s := by
  rw [cstr, List.takeWhile_eq_self_iff]
  intro x hx
  refine decide_eq_true fun h0 => h (h0 ▸ hx)

theorem cstr_terminated {s : List UInt8} (h : 0 ∉ s) (rest : List UInt8) : cstr (s ++ 0 :: rest) = s := by
  have hall : ∀ c ∈ s, decide (c ≠ 0) = true := fun c hc => decide_eq_true fun h0 => h (h0 ▸ hc)
  rw [cstr, List.takeWhile_append_of_pos hall]
  exact List.append_nil s

theorem notMem_cstr (bytes : List UInt8) : 0 ∉ cstr bytes := by
  intro h
  have h0 := List.mem_takeWhile_imp h
  simp at h0

theorem cstr_cons_ne_nil {c : UInt8} (hc : c ≠ 0) (rest : List UInt8) : cstr (c :: rest) ≠ [] := by
  have hpos : decide (c ≠ 0) = true := decide_eq_true hc
  rw [cstr, List.takeWhile_cons, if_pos hpos]
  exact List.cons_ne_nil _ _

/-- The string kept in a `char` array of size `n`. -/
@[ext] structure CharArray (n : ℕ) where
  chars : List UInt8
  length_lt : chars.length < n
  noZero : 0 ∉ chars

def CharArray.empty (n : ℕ) (h : 0 < n) : CharArray n := ⟨[], h, List.not_mem_nil⟩

/-- `safe_strcpy` into an array of `n + 1` bytes. -/
def safeStrcpy (n : ℕ) (src : List UInt8) : CharArray (n + 1) where
  chars := (cstr src).take n
  length_lt := Nat.lt_succ_of_le (List.length_take_le n _)
  noZero := fun h => notMem_cstr src (List.mem_of_mem_take h)

theorem safeStrcpy_chars {n : ℕ} {src : List UInt8} (h0 : 0 ∉ src) (hlen : src.length ≤ n) :
    (safeStrcpy n src).chars = src := by
  have htake : (safeStrcpy n src).chars = (cstr src).take n := rfl
  rw [htake, cstr_of_notMem h0, List.take_of_length_le hlen]

/-- `starts_with`, and the comparisons `strncmp(str, prefix, strlen(prefix)) == 0`. -/
def startsWith (str pre : List UInt8) : Bool := str.take pre.length = pre

theorem safeStrcpy_self {n : ℕ} (a : CharArray (n + 1)) : safeStrcpy n a.chars = a :=
  CharArray.ext (safeStrcpy_chars a.noZero (Nat.le_of_lt_succ a.length_lt))

theorem startsWith_iff {str pre : List UInt8} : startsWith str pre = true ↔ pre <+: str := by
  rw [startsWith, decide_eq_true_iff, List.prefix_iff_eq_take]
  exact eq_comm

/-- `strstr(haystack, needle) != NULL`. -/
def strstr (haystack needle : List UInt8) : Bool := needle <:+: haystack

/-- `strcat`; `none` where the array is overrun. -/
def CharArray.strcat {n : ℕ} (dest : CharArray n) (src : List UInt8) : Option (CharArray n) :=
  if h : (dest.chars ++ cstr src).length < n then
    some ⟨dest.chars ++ cstr src, h, by
      rw [List.mem_append, not_or]
      exact ⟨dest.noZero, notMem_cstr src⟩⟩
  else none

theorem CharArray.strcat_eq_some {n : ℕ} {dest dest' : CharArray n} {src : List UInt8} :
    dest.strcat src = some dest' ↔ dest'.chars = dest.chars ++ cstr src := by
  rw [CharArray.strcat]
  split
  · rw [Option.some_inj, CharArray.ext_iff]
    exact eq_comm
  · next h => exact iff_of_false (Option.some_ne_none _).symm fun heq => h (heq ▸ dest'.length_lt)

theorem CharArray.strcat_isSome {n : ℕ} (dest : CharArray n) {src : List UInt8} (h0 : 0 ∉ src) :
    (dest.strcat src).isSome = true ↔ dest.chars.length + src.length < n := by
  have hlen : dest.chars.length + src.length = (dest.chars ++ cstr src).length := by
    rw [List.length_append, cstr_of_notMem h0]
  rw [CharArray.strcat, hlen]
  split
  · next h => exact iff_of_true rfl h
  · next h => exact iff_of_false Bool.false_ne_true h

theorem CharArray.strcat_nil {n : ℕ} (dest : CharArray n) : dest.strcat [] = some dest :=
  CharArray.strcat_eq_some.mpr (List.append_nil _).symm

theorem CharArray.empty_strcat {n : ℕ} (h : 0 < n) (src : CharArray n) :
    (CharArray.empty n h).strcat src.chars = some src :=
  CharArray.strcat_eq_some.mpr (cstr_of_notMem src.noZero).symm

theorem CharArray.strcat_append {n : ℕ} (dest : CharArray n) {s : List UInt8} (h0 : 0 ∉ s) (t : List UInt8) :
    dest.strcat (s ++ t) = (dest.strcat s).bind fun mid => mid.strcat t := by
  have hall : ∀ c ∈ s, decide (c ≠ 0) = true := fun c hc => decide_eq_true fun h => h0 (h ▸ hc)
  have hcstr : cstr (s ++ t) = cstr s ++ cstr t := by
    rw [cstr_of_notMem h0, cstr, List.takeWhile_append_of_pos hall]
    rfl
  ext dest'
  rw [Option.bind_eq_some_iff, CharArray.strcat_eq_some, hcstr, ← List.append_assoc]
  constructor
  · intro h
    have hlt : (dest.chars ++ cstr s).length < n := by
      refine lt_of_le_of_lt ?_ dest'.length_lt
      rw [h, List.append_assoc, List.length_append, List.length_append, List.length_append]
      omega
    refine ⟨_, dif_pos hlt, CharArray.strcat_eq_some.mpr h⟩
  · rintro ⟨mid, hmid, h⟩
    rw [CharArray.strcat_eq_some] at hmid h
    rw [h, hmid]

/-! ## Trimming -/

def isBlank (c : UInt8) : Bool := c = ch ' ' || c = ch '\t' || c = ch '\n'

/-- `trim`: the first loop moves the start, the second one cuts the end. -/
def trim (str : List UInt8) : List UInt8 := (str.dropWhile isBlank).rdropWhile isBlank

theorem trim_newline {s : List UInt8} (hhead : ∀ c, s.head? = some c → isBlank c = false)
    (hlast : ∀ c, s.getLast? = some c → isBlank c = false) : trim (s ++ [ch '\n']) = s := by
  have hnewline : isBlank (ch '\n') = true := by decide
  exact Trim.IsTrimmed.eq ⟨⟨[], [ch '\n'], rfl, nofun, List.forall_mem_singleton.mpr hnewline⟩, hhead, hlast⟩

/-! ## Numbers -/

/-- `strtol` with base 10, which saturates. -/
def strtol (text : List UInt8) : ℤ := max (-2 ^ 63) (min (scanInteger text) (2 ^ 63 - 1))

/-- `strtoull` with base 10: it saturates too, and a minus negates modulo 2^64. -/
def strtoull (text : List UInt8) : UInt64 :=
  if 2 ^ 64 ≤ (scanInteger text).natAbs then UInt64.ofNat (2 ^ 64 - 1)
  else UInt64.ofInt (scanInteger text)

/-- `atoi` casts the `long` to `int`. -/
def atoi (text : List UInt8) : ℤ := (strtol text).bmod (2 ^ 32)

def atoll (text : List UInt8) : ℤ := strtol text

theorem strtoull_decimal (n : UInt64) {text : List UInt8}
    (h : ∀ c, text.head? = some c → isDigit c = false) : strtoull (decimal n.toNat ++ text) = n := by
  have hlt : n.toNat < 2 ^ 64 := n.toNat_lt
  have hmod : (n.toNat : ℤ) % 2 ^ 64 = n.toNat := Int.emod_eq_of_lt (Int.natCast_nonneg _) (by exact_mod_cast hlt)
  rw [strtoull, scanInteger_decimal n.toNat h, Int.natAbs_natCast, if_neg (not_le.mpr hlt), UInt64.ofInt, hmod,
    Int.toNat_natCast]
  exact UInt64.ofNat_toNat

/-! ## Zero bytes -/

def isZero (data : List UInt8) : Bool := data.all (· = 0)

theorem isZero_iff (data : List UInt8) : isZero data = true ↔ ∀ b ∈ data, b = 0 := by
  simp [isZero]

theorem isZero_toList {n : ℕ} (v : Vector UInt8 n) : isZero v.toList = true ↔ v = Vector.replicate n 0 := by
  rw [isZero_iff]
  constructor
  · intro h
    refine Vector.ext fun i hi => ?_
    rw [Vector.getElem_replicate]
    exact h _ (by rw [Vector.mem_toList_iff]; exact Vector.getElem_mem hi)
  · rintro rfl b hb
    rw [Vector.toList_replicate] at hb
    exact List.eq_of_mem_replicate hb

/-! ## Hex -/

def hexChars : Vector UInt8 16 := ⟨(ascii "0123456789abcdef").toArray, rfl⟩

def hexChar (d : UInt8) : UInt8 := hexChars[(d &&& 0x0F).toNat]?.getD 0

def bytesToHexBuf (bytes : List UInt8) : List UInt8 :=
  bytes.flatMap fun (b : UInt8) => [hexChar (b >>> 4), hexChar b]

def hexCharValue (c : UInt8) : Option UInt8 :=
  if ch '0' ≤ c ∧ c ≤ ch '9' then some (c - ch '0')
  else if ch 'a' ≤ c ∧ c ≤ ch 'f' then some (c - ch 'a' + 10)
  else if ch 'A' ≤ c ∧ c ≤ ch 'F' then some (c - ch 'A' + 10)
  else none

/-- The loop of `hex_to_bytes_buf` from index `i` on, over a string with its terminator: it stops at the
first pair that is not two digits, and leaves the bytes before it written. -/
def hexToBytesFrom {n : ℕ} (hex : List UInt8) (bytes : Vector UInt8 n) (i : ℕ) : ℕ → Bool × Vector UInt8 n
  | 0 => (true, bytes)
  | k + 1 =>
    match hexCharValue (hex.getD (i * 2) 0), hexCharValue (hex.getD (i * 2 + 1) 0) with
    | some high, some low =>
      hexToBytesFrom hex (write bytes i [(high <<< 4) ||| low]) (i + 1) k
    | _, _ => (false, bytes)

def hexToBytesBuf {n : ℕ} (hex : List UInt8) (bytes : Vector UInt8 n) : Bool × Vector UInt8 n :=
  hexToBytesFrom hex bytes 0 n

theorem bytesToHexBuf_length (bytes : List UInt8) : (bytesToHexBuf bytes).length = bytes.length * 2 := by
  simp [bytesToHexBuf, List.length_flatMap, List.map_const']

theorem hexCharValue_hexChar (d : UInt8) : hexCharValue (hexChar d) = some (d &&& 0x0F) := by
  have hdigits : ∀ k : Fin 16, hexCharValue (hexChars[k.val]?.getD 0) = some (UInt8.ofNat k.val) := by
    decide
  have hlt : (d &&& 0x0F).toNat < 16 := by
    have hmask : (0x0F : UInt8).toNat = 2 ^ 4 - 1 := rfl
    rw [UInt8.toNat_and, hmask, Nat.and_two_pow_sub_one_eq_mod]
    exact Nat.mod_lt _ (by decide)
  rw [hexChar, hdigits ⟨_, hlt⟩, UInt8.ofNat_toNat]

theorem join_digits (b : UInt8) : ((b >>> 4 &&& 0x0F) <<< 4) ||| (b &&& 0x0F) = b := by
  have hbits : ∀ x : BitVec 8, ((x >>> 4 &&& 0x0F#8) <<< 4) ||| (x &&& 0x0F#8) = x := by decide
  exact UInt8.toBitVec_inj.mp (hbits b.toBitVec)

theorem hexToBytesFrom_bytesToHexBuf {n : ℕ} (bytes : List UInt8) (dst : Vector UInt8 n) (i k : ℕ)
    (h : i + k = bytes.length) :
    hexToBytesFrom (bytesToHexBuf bytes) dst i k = (true, write dst i (bytes.drop i)) := by
  induction k generalizing i dst with
  | zero =>
    rw [hexToBytesFrom, List.drop_of_length_le (by omega), write_nil]
  | succ k ih =>
    have hi : i < bytes.length := by omega
    have hhigh : (bytesToHexBuf bytes).getD (i * 2) 0 = hexChar (bytes[i] >>> 4) := by
      rw [List.getD_eq_getElem?_getD, bytesToHexBuf, ← Nat.add_zero (i * 2),
        getElem?_flatMap_length _ 2 (fun _ => rfl) _ _ _ hi (by decide)]
      rfl
    have hlow : (bytesToHexBuf bytes).getD (i * 2 + 1) 0 = hexChar bytes[i] := by
      rw [List.getD_eq_getElem?_getD, bytesToHexBuf,
        getElem?_flatMap_length _ 2 (fun _ => rfl) _ _ _ hi (by decide)]
      rfl
    have hjoin := write_write dst i [bytes[i]] (bytes.drop (i + 1))
    rw [List.length_singleton, List.singleton_append, ← List.drop_eq_getElem_cons hi] at hjoin
    rw [hexToBytesFrom, hhigh, hlow, hexCharValue_hexChar, hexCharValue_hexChar]
    simp only [join_digits]
    rw [ih _ _ (by omega), hjoin]

theorem write_toList {n : ℕ} (dst v : Vector UInt8 n) : write dst 0 v.toList = v := by
  refine Vector.ext fun i hi => ?_
  rw [getElem_write_inside _ _ _ _ _ (Nat.zero_le _) (by simpa using hi), Vector.getElem_toList]
  rfl

/-- **The hex form of a byte array is decoded to it.** -/
theorem hexToBytesBuf_bytesToHexBuf {n : ℕ} (dst v : Vector UInt8 n) :
    hexToBytesBuf (bytesToHexBuf v.toList) dst = (true, v) := by
  rw [hexToBytesBuf, hexToBytesFrom_bytesToHexBuf _ _ _ _ (by simp), List.drop_zero, write_toList]

/-! ## Hex digits -/

def IsHexDigit (c : UInt8) : Prop :=
  (ch '0' ≤ c ∧ c ≤ ch '9') ∨ (ch 'a' ≤ c ∧ c ≤ ch 'f') ∨ (ch 'A' ≤ c ∧ c ≤ ch 'F')

instance (c : UInt8) : Decidable (IsHexDigit c) := inferInstanceAs (Decidable (_ ∨ _))

def lowerCase (c : UInt8) : UInt8 := if ch 'A' ≤ c ∧ c ≤ ch 'Z' then c + 32 else c

theorem hexCharValue_isSome (c : UInt8) : (hexCharValue c).isSome = true ↔ IsHexDigit c := by
  rw [hexCharValue, IsHexDigit]
  split
  · rename_i h
    exact iff_of_true rfl (Or.inl h)
  · rename_i h0
    split
    · rename_i h
      exact iff_of_true rfl (Or.inr (Or.inl h))
    · rename_i ha
      split
      · rename_i h
        exact iff_of_true rfl (Or.inr (Or.inr h))
      · rename_i hA
        refine iff_of_false Bool.false_ne_true ?_
        rintro (h | h | h)
        · exact h0 h
        · exact ha h
        · exact hA h

theorem hexCharValue_lowerCase (c : UInt8) : hexCharValue (lowerCase c) = hexCharValue c := by
  have hall : ∀ k : Fin 256, hexCharValue (lowerCase (UInt8.ofNat k.val)) =
      hexCharValue (UInt8.ofNat k.val) := by
    decide +kernel
  have h := hall ⟨c.toNat, c.toNat_lt⟩
  rwa [UInt8.ofNat_toNat] at h

theorem exists_hexChar {c : UInt8} (h : IsHexDigit c) : ∃ d : Fin 16, hexChar (UInt8.ofNat d.val) = lowerCase c := by
  have hall : ∀ k : Fin 256, IsHexDigit (UInt8.ofNat k.val) →
      ∃ d : Fin 16, hexChar (UInt8.ofNat d.val) = lowerCase (UInt8.ofNat k.val) := by
    decide +kernel
  have hc := hall ⟨c.toNat, c.toNat_lt⟩
  rw [UInt8.ofNat_toNat] at hc
  exact hc h

theorem hexChar_join (a b : Fin 16) :
    hexChar (((UInt8.ofNat a.val <<< 4) ||| UInt8.ofNat b.val) >>> 4) = hexChar (UInt8.ofNat a.val) ∧
      hexChar ((UInt8.ofNat a.val <<< 4) ||| UInt8.ofNat b.val) = hexChar (UInt8.ofNat b.val) := by
  revert a b
  decide

theorem exists_bytesToHexBuf (n : ℕ) (hex : List UInt8) (hlen : hex.length = n * 2)
    (h : ∀ c ∈ hex, IsHexDigit c) : ∃ bytes, bytes.length = n ∧ bytesToHexBuf bytes = hex.map lowerCase := by
  induction n generalizing hex with
  | zero =>
    rw [Nat.zero_mul, List.length_eq_zero_iff] at hlen
    exact ⟨[], rfl, by rw [hlen]; rfl⟩
  | succ n ih =>
    obtain _ | ⟨a, _ | ⟨b, hex⟩⟩ := hex
    · rw [List.length_nil] at hlen
      omega
    · rw [List.length_singleton] at hlen
      omega
    · rw [List.length_cons, List.length_cons] at hlen
      obtain ⟨bytes, hbytes, hrest⟩ := ih hex (by omega) fun c hc =>
        h c (List.mem_cons_of_mem _ (List.mem_cons_of_mem _ hc))
      obtain ⟨x, hx⟩ := exists_hexChar (h a List.mem_cons_self)
      obtain ⟨y, hy⟩ := exists_hexChar (h b (List.mem_cons_of_mem _ List.mem_cons_self))
      have hjoin := hexChar_join x y
      refine ⟨((UInt8.ofNat x.val <<< 4) ||| UInt8.ofNat y.val) :: bytes, ?_, ?_⟩
      · rw [List.length_cons, hbytes]
      · rw [bytesToHexBuf] at hrest ⊢
        rw [List.flatMap_cons, hrest, hjoin.1, hjoin.2, hx, hy]
        rfl

theorem getD_map_lowerCase (hex : List UInt8) (i : ℕ) :
    (hex.map lowerCase).getD i 0 = lowerCase (hex.getD i 0) := by
  rw [List.getD_eq_getElem?_getD, List.getD_eq_getElem?_getD, List.getElem?_map]
  cases hex[i]? with
  | none => rfl
  | some c => rfl

theorem hexToBytesFrom_lowerCase {n : ℕ} (hex : List UInt8) (bytes : Vector UInt8 n) (i k : ℕ) :
    hexToBytesFrom (hex.map lowerCase) bytes i k = hexToBytesFrom hex bytes i k := by
  induction k generalizing bytes i with
  | zero => rfl
  | succ k ih =>
    rw [hexToBytesFrom, hexToBytesFrom]
    simp only [getD_map_lowerCase, hexCharValue_lowerCase, ih]

theorem isHexDigit_of_hexToBytesFrom {n : ℕ} {hex : List UInt8} {bytes : Vector UInt8 n} {i k : ℕ}
    (h : (hexToBytesFrom hex bytes i k).1 = true) :
    ∀ j, i * 2 ≤ j → j < (i + k) * 2 → IsHexDigit (hex.getD j 0) := by
  induction k generalizing bytes i with
  | zero =>
    intro j hge hlt
    omega
  | succ k ih =>
    rw [hexToBytesFrom] at h
    split at h
    · rename_i high low hhigh hlow
      intro j hge hlt
      by_cases hfirst : j = i * 2
      · rw [hfirst, ← hexCharValue_isSome, hhigh]
        rfl
      · by_cases hsecond : j = i * 2 + 1
        · rw [hsecond, ← hexCharValue_isSome, hlow]
          rfl
        · exact ih h j (by omega) (by omega)
    · cases h

theorem hexToBytesBuf_of_digits {n : ℕ} {hex : List UInt8} (hlen : hex.length = n * 2)
    (h : ∀ c ∈ hex, IsHexDigit c) : ∃ v : Vector UInt8 n, bytesToHexBuf v.toList = hex.map lowerCase ∧
      ∀ dst, hexToBytesBuf hex dst = (true, v) := by
  obtain ⟨bytes, hbytes, hhex⟩ := exists_bytesToHexBuf n hex hlen h
  have hvector : bytes = (Vector.mk bytes.toArray hbytes).toList := rfl
  refine ⟨Vector.mk bytes.toArray hbytes, hhex, fun dst => ?_⟩
  have hread := hexToBytesBuf_bytesToHexBuf dst (Vector.mk bytes.toArray hbytes)
  rwa [← hvector, hhex, hexToBytesBuf, hexToBytesFrom_lowerCase] at hread

/-- **A string of the right length is decoded exactly if it is made of digits.** -/
theorem hexToBytesBuf_iff {n : ℕ} {hex : List UInt8} (hlen : hex.length = n * 2) (dst : Vector UInt8 n) :
    (hexToBytesBuf hex dst).1 = true ↔ ∀ c ∈ hex, IsHexDigit c := by
  constructor
  · intro h c hc
    obtain ⟨j, hj, rfl⟩ := List.mem_iff_getElem.mp hc
    have hdigit := isHexDigit_of_hexToBytesFrom h j (by omega) (by omega)
    rwa [List.getD_eq_getElem?_getD, List.getElem?_eq_getElem hj, Option.getD_some] at hdigit
  · intro h
    obtain ⟨v, -, hread⟩ := hexToBytesBuf_of_digits hlen h
    rw [hread]

end ShardingSim
