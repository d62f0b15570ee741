import Mathlib.Tactic

/-! Writing a list into a fixed-size buffer at an offset, the effect of a bounded `memcpy`. What
does not fit is dropped, so a caller that stays inside the buffer has to say so
(`take_write`, `read_write_same`). -/
namespace ByteBuffer
set_option autoImplicit false

variable {α : Type*} {n : ℕ}

/-- `dst` with the elements of `src` stored from index `off` on. -/
@[irreducible] def write (dst : Vector α n) (off : ℕ) (src : List α) : Vector α n :=
  Vector.ofFn fun i => if off ≤ i.val then (src[i.val - off]?).getD dst[i] else dst[i]

/-- The `len` elements of `buf` from index `off` on. -/
def read (buf : Vector α n) (off len : ℕ) : List α := (buf.toList.drop off).take len

theorem getElem?_read (buf : Vector α n) (off len i : ℕ) (h : i < len) :
    (read buf off len)[i]? = buf[off + i]? := by
  rw [read, List.getElem?_take_of_lt h, List.getElem?_drop, Vector.getElem?_toList]

theorem length_read (buf : Vector α n) {off len : ℕ} (h : off + len ≤ n) : (read buf off len).length = len := by
  rw [read, List.length_take, List.length_drop, Vector.length_toList]
  omega

theorem read_append_read (buf : Vector α n) (off a b : ℕ) :
    read buf off a ++ read buf (off + a) b = read buf off (a + b) := by
  rw [read, read, read, List.take_add, List.drop_drop]

theorem read_all (buf : Vector α n) : read buf 0 n = buf.toList := by
  rw [read, List.drop_zero, List.take_of_length_le Vector.length_toList.le]

theorem read_of_drop {buf : Vector α n} {off len : ℕ} {part rest : List α} (hlen : part.length = len)
    (h : buf.toList.drop off = part ++ rest) :
    read buf off len = part ∧ buf.toList.drop (off + len) = rest := by
  subst hlen
  rw [read, ← List.drop_drop, h, List.take_left, List.drop_left]
  exact ⟨rfl, rfl⟩

def slice (buf : Vector α n) (off len : ℕ) (h : off + len ≤ n) : Vector α len :=
  ⟨(read buf off len).toArray, length_read buf h⟩

theorem toList_slice (buf : Vector α n) (off len : ℕ) (h : off + len ≤ n) :
    (slice buf off len h).toList = read buf off len := rfl

theorem getElem_write (dst : Vector α n) (off : ℕ) (src : List α) (i : ℕ) (hi : i < n) :
    (write dst off src)[i] = if off ≤ i then (src[i - off]?).getD dst[i] else dst[i] := by
  simp [write]

theorem getElem_write_of_lt (dst : Vector α n) (off : ℕ) (src : List α) (i : ℕ) (hi : i < n)
    (h : i < off) : (write dst off src)[i] = dst[i] := by
  rw [getElem_write, if_neg (by omega)]

theorem getElem_write_of_ge (dst : Vector α n) (off : ℕ) (src : List α) (i : ℕ) (hi : i < n)
    (h : off + src.length ≤ i) : (write dst off src)[i] = dst[i] := by
  rw [getElem_write, if_pos (by omega), List.getElem?_eq_none (by omega), Option.getD_none]

theorem getElem_write_inside (dst : Vector α n) (off : ℕ) (src : List α) (i : ℕ) (hi : i < n)
    (h : off ≤ i) (h' : i - off < src.length) : (write dst off src)[i] = src[i - off] := by
  rw [getElem_write, if_pos h, List.getElem?_eq_getElem h', Option.getD_some]

@[simp] theorem write_nil (dst : Vector α n) (off : ℕ) : write dst off [] = dst := by
  ext i hi
  simp [getElem_write]

theorem write_write (dst : Vector α n) (off : ℕ) (xs ys : List α) :
    write (write dst off xs) (off + xs.length) ys = write dst off (xs ++ ys) := by
  ext i hi
  by_cases h : i < off
  · rw [getElem_write_of_lt _ _ _ _ _ (by omega), getElem_write_of_lt _ _ _ _ _ h,
      getElem_write_of_lt _ _ _ _ _ h]
  · by_cases hx : i < off + xs.length
    · rw [getElem_write_of_lt _ _ _ _ _ hx, getElem_write_inside _ _ _ _ _ (by omega) (by omega),
        getElem_write_inside _ _ _ _ _ (by omega) (by simp; omega), List.getElem_append_left]
    · have hsub : i - off - xs.length = i - (off + xs.length) := by omega
      rw [getElem_write, if_pos (by omega), getElem_write_of_ge _ _ _ _ _ (by omega),
        getElem_write dst, if_pos (by omega), List.getElem?_append_right (by omega), hsub]

theorem toList_write (dst : Vector α n) (off : ℕ) (src : List α) (h : off + src.length ≤ n) :
    (write dst off src).toList = dst.toList.take off ++ (src ++ dst.toList.drop (off + src.length)) := by
  have hlen : (dst.toList.take off).length = off := by simp; omega
  apply List.ext_getElem
  · simp; omega
  · intro i h1 h2
    have hi : i < n := by simpa using h1
    rw [Vector.getElem_toList]
    by_cases hlt : i < off
    · rw [getElem_write_of_lt _ _ _ _ hi hlt, List.getElem_append_left (by omega),
        List.getElem_take, Vector.getElem_toList]
    · rw [List.getElem_append_right (by omega)]
      by_cases hin : i < off + src.length
      · rw [getElem_write_inside _ _ _ _ hi (by omega) (by omega), List.getElem_append_left (by omega)]
        simp only [hlen]
      · rw [getElem_write_of_ge _ _ _ _ hi (by omega), List.getElem_append_right (by omega),
          List.getElem_drop, Vector.getElem_toList]
        congr 1
        omega

theorem toList_write_zero (dst : Vector α n) {src : List α} (h : src.length ≤ n) :
    (write dst 0 src).toList = src ++ dst.toList.drop src.length := by
  rw [toList_write dst 0 src (by omega), List.take_zero, List.nil_append, Nat.zero_add]

/-! ## Several writes -/

/-- Pieces stored one after the other, each with its offset. -/
def writes (dst : Vector α n) (pieces : List (ℕ × List α)) : Vector α n :=
  pieces.foldl (fun buf piece => write buf piece.1 piece.2) dst

/-- Each piece begins where the one before it ends, from `off` to `stop`. -/
def Tiles (off : ℕ) : List (ℕ × List α) → ℕ → Prop
  | [], stop => off = stop
  | piece :: rest, stop => piece.1 = off ∧ Tiles (off + piece.2.length) rest stop

theorem writes_of_tiles (dst : Vector α n) {pieces : List (ℕ × List α)} {off stop : ℕ}
    (h : Tiles off pieces stop) :
    writes dst pieces = write dst off (pieces.flatMap Prod.snd) ∧
      off + (pieces.flatMap Prod.snd).length = stop := by
  induction pieces generalizing dst off with
  | nil => exact ⟨(write_nil dst off).symm, h⟩
  | cons piece rest ih =>
    obtain ⟨hoff, hrest⟩ := h
    obtain ⟨hwrites, hstop⟩ := ih (write dst piece.1 piece.2) hrest
    rw [List.flatMap_cons, List.length_append, ← Nat.add_assoc, ← write_write]
    subst hoff
    exact ⟨hwrites, hstop⟩

theorem toList_writes (dst : Vector α n) {pieces : List (ℕ × List α)} (h : Tiles 0 pieces n) :
    (writes dst pieces).toList = pieces.flatMap Prod.snd := by
  obtain ⟨hwrites, hlen⟩ := writes_of_tiles dst h
  rw [hwrites, toList_write_zero dst (by omega), List.drop_of_length_le, List.append_nil]
  rw [Vector.length_toList]
  omega

/-! ## Reading back -/

theorem take_write (dst : Vector α n) (off : ℕ) (src : List α) (h : off + src.length ≤ n) :
    (write dst off src).toList.take (off + src.length) = dst.toList.take off ++ src := by
  have hlen : (dst.toList.take off ++ src).length = off + src.length := by simp; omega
  rw [toList_write dst off src h, ← hlen, ← List.append_assoc, List.take_left]

theorem read_write_same (dst : Vector α n) (off : ℕ) (src : List α) (h : off + src.length ≤ n) :
    read (write dst off src) off src.length = src := by
  have hlen : (dst.toList.take off).length = off := by simp; omega
  have hdrop : (write dst off src).toList.drop off = src ++ dst.toList.drop (off + src.length) := by
    rw [toList_write dst off src h, List.drop_append_of_le_length (by omega), ← hlen]
    simp
  rw [read, hdrop, List.take_left]

theorem read_write_before (dst : Vector α n) (off : ℕ) (src : List α) (o len : ℕ)
    (h : o + len ≤ off) : read (write dst off src) o len = read dst o len := by
  apply List.ext_getElem
  · simp [read]
  · intro i h1 h2
    simp only [read, List.length_take, List.length_drop, Vector.length_toList] at h1
    simp only [read, List.getElem_take, List.getElem_drop, Vector.getElem_toList]
    exact getElem_write_of_lt _ _ _ _ _ (by omega)

/-- Entry `j` of the `i`-th piece of a list made of pieces of one length. -/
theorem getElem?_flatMap_length {α β : Type*} (f : α → List β) (n : ℕ) (hf : ∀ a, (f a).length = n)
    (l : List α) (i j : ℕ) (hi : i < l.length) (hj : j < n) :
    (l.flatMap f)[i * n + j]? = (f l[i])[j]? := by
  induction l generalizing i with
  | nil => exact absurd hi (Nat.not_lt_zero i)
  | cons a l ih =>
    rw [List.flatMap_cons]
    cases i with
    | zero =>
      have hlt : 0 * n + j < (f a).length := by rw [hf]; omega
      rw [List.getElem?_append_left hlt, Nat.zero_mul, Nat.zero_add]
      rfl
    | succ i =>
      have hge : (f a).length ≤ (i + 1) * n + j := by rw [hf, Nat.succ_mul]; omega
      have hsub : (i + 1) * n + j - (f a).length = i * n + j := by rw [hf, Nat.succ_mul]; omega
      rw [List.getElem?_append_right hge, hsub, ih i (by simpa using hi)]
      rfl

end ByteBuffer
