import ShardingSim.Common
import ShardingSim.Library.Trim

/-! `trim` in the memory of its string: the forward scan, the `memmove` of the rest with its terminator, and the
backward scan that writes zeros. An index outside the memory makes the run fail, which none does for a string with
its terminator (`trimMemory_eq`), and what it leaves is the string that `trim` returns. -/
namespace ShardingSim
open Trim
set_option autoImplicit false

/-! ## The loops -/

/-- The first loop, which also stops at the terminator. -/
def skipBlanks (mem : List UInt8) (start : ℕ) : Option ℕ :=
  if h : start < mem.length then
    if mem[start] ≠ 0 ∧ isBlank mem[start] = true then skipBlanks mem (start + 1) else some start
  else none
termination_by mem.length - start

/-- `strlen` of the string at an index; `none` where it runs off the memory. -/
def strlenAt (mem : List UInt8) (start : ℕ) : Option ℕ := (mem.drop start).findIdx? (· = 0)

/-- `memmove` to the beginning of the memory. -/
def memmoveFront (mem : List UInt8) (src n : ℕ) : Option (List UInt8) :=
  if src + n ≤ mem.length then some ((mem.drop src).take n ++ mem.drop n) else none

/-- The second loop. -/
def cutBlanks (mem : List UInt8) : ℕ → Option (List UInt8)
  | 0 => some mem
  | len + 1 =>
    if h : len < mem.length then
      if isBlank mem[len] = true then cutBlanks (mem.set len 0) len else some mem
    else none

/-- `if (start != str)` with its `memmove`. -/
def moveString (mem : List UInt8) (start : ℕ) : Option (List UInt8) :=
  if start ≠ 0 then (strlenAt mem start).bind fun len => memmoveFront mem start (len + 1) else some mem

def trimMemory (mem : List UInt8) : Option (List UInt8) := do
  let start ← skipBlanks mem 0
  let moved ← moveString mem start
  let len ← strlenAt moved 0
  cutBlanks moved len

/-! ## What they do -/

theorem skipBlanks_cons (pre : List UInt8) (c : UInt8) (tail : List UInt8) : skipBlanks (pre ++ c :: tail) pre.length =
    if isBlank c = true then skipBlanks (pre ++ c :: tail) (pre.length + 1) else some pre.length := by
  have hzero : isBlank 0 = false := by decide
  have hstay : (c ≠ 0 ∧ isBlank c = true) ↔ isBlank c = true := by
    refine and_iff_right_of_imp ?_
    rintro hblank rfl
    rw [hzero] at hblank
    cases hblank
  rw [skipBlanks, dif_pos (by simp)]
  simp only [List.getElem_append_right (le_refl pre.length), Nat.sub_self, List.getElem_cons_zero, hstay]

/-- The forward scan stops at the first character that stays, or at the terminator. -/
theorem skipBlanks_eq (pre s rest : List UInt8) :
    skipBlanks (pre ++ (s ++ 0 :: rest)) pre.length = some (pre.length + (s.takeWhile isBlank).length) := by
  induction s generalizing pre with
  | nil =>
    rw [List.nil_append, skipBlanks_cons, if_neg (by decide)]
    rfl
  | cons c s ih =>
    rw [List.cons_append, skipBlanks_cons, List.takeWhile_cons]
    split
    · have hnext := ih (pre ++ [c])
      rw [List.append_assoc, List.singleton_append, List.length_append, List.length_singleton] at hnext
      rw [hnext, List.length_cons, Nat.add_assoc, Nat.add_comm 1]
    · rfl

theorem strlenAt_eq (pre : List UInt8) {s : List UInt8} (h0 : 0 ∉ s) (rest : List UInt8) :
    strlenAt (pre ++ (s ++ 0 :: rest)) pre.length = some s.length := by
  have hne : ∀ c ∈ s, decide (c = 0) = false := fun c hc => decide_eq_false fun h => h0 (h ▸ hc)
  rw [strlenAt, List.drop_left, List.findIdx?_append, List.findIdx?_eq_none_iff.mpr hne]
  simp [List.findIdx?_cons]

theorem memmoveFront_eq (pre s rest : List UInt8) : memmoveFront (pre ++ (s ++ rest)) pre.length s.length =
    some (s ++ (pre ++ (s ++ rest)).drop s.length) := by
  have hroom : pre.length + s.length ≤ (pre ++ (s ++ rest)).length := by
    simp only [List.length_append]
    omega
  rw [memmoveFront, if_pos hroom, List.drop_left, List.take_left]

/-- The backward scan cuts the blanks at the end and leaves zeros. -/
theorem cutBlanks_eq (s rest : List UInt8) : ∃ zeros, cutBlanks (s ++ 0 :: rest) s.length =
      some (s.rdropWhile isBlank ++ 0 :: (zeros ++ rest)) ∧
    (s.rdropWhile isBlank).length + zeros.length = s.length := by
  induction s using List.reverseRecOn generalizing rest with
  | nil => exact ⟨[], rfl, rfl⟩
  | append_singleton s c ih =>
    have hlt : s.length < (s ++ [c] ++ 0 :: rest).length := by simp
    have hlast : (s ++ [c] ++ 0 :: rest)[s.length] = c := by simp
    rw [List.length_append, List.length_singleton, cutBlanks, dif_pos hlt, hlast]
    split
    · rename_i hblank
      have hset : (s ++ [c] ++ 0 :: rest).set s.length 0 = s ++ 0 :: (0 :: rest) := by simp
      obtain ⟨zeros, hcut, hlen⟩ := ih (0 :: rest)
      rw [hset, List.rdropWhile_concat_pos _ _ _ hblank]
      exact ⟨zeros ++ [0], by simpa using hcut, by rw [List.length_append, ← Nat.add_assoc, hlen]; rfl⟩
    · rename_i hstay
      rw [List.rdropWhile_concat_neg _ _ _ hstay]
      exact ⟨[], rfl, by simp⟩

theorem moveString_eq (blanks : List UInt8) {t : List UInt8} (h0 : 0 ∉ t) (rest : List UInt8) :
    moveString (blanks ++ (t ++ 0 :: rest)) blanks.length =
      some (t ++ 0 :: ((blanks ++ (t ++ [0])).drop (t.length + 1) ++ rest)) := by
  have hlen : (t ++ [0]).length = t.length + 1 := by rw [List.length_append, List.length_singleton]
  have hstring : t ++ 0 :: rest = (t ++ [0]) ++ rest := by rw [List.append_assoc, List.singleton_append]
  rw [moveString]
  split
  · have hmove := memmoveFront_eq blanks (t ++ [0]) rest
    have hle : t.length + 1 ≤ (blanks ++ (t ++ [0])).length := by
      rw [List.length_append, hlen]
      exact Nat.le_add_left _ _
    rw [hlen, ← hstring] at hmove
    rw [strlenAt_eq blanks h0, Option.bind_some, hmove, hstring, ← List.append_assoc,
      List.drop_append_of_le_length hle, List.append_assoc, List.singleton_append]
  · rename_i hnone
    obtain rfl := List.length_eq_zero_iff.mp (not_not.mp hnone)
    rw [List.nil_append, List.nil_append, ← hlen, List.drop_length]
    rfl

/-- The run stays in the memory of the string and leaves what `trim` returns, and what is behind the terminator. -/
theorem trimMemory_eq {s : List UInt8} (h0 : 0 ∉ s) (rest : List UInt8) : ∃ junk,
    trimMemory (s ++ 0 :: rest) = some (trim s ++ 0 :: (junk ++ rest)) ∧
      (trim s).length + junk.length = s.length := by
  have hsplit : s.takeWhile isBlank ++ s.dropWhile isBlank = s := List.takeWhile_append_dropWhile
  have hskip := skipBlanks_eq [] s rest
  rw [List.length_nil, Nat.zero_add, List.nil_append] at hskip
  have htrim : trim s = (s.dropWhile isBlank).rdropWhile isBlank := rfl
  rw [htrim]
  generalize s.takeWhile isBlank = blanks at *
  generalize s.dropWhile isBlank = t at *
  subst hsplit
  have ht0 : 0 ∉ t := fun h => h0 (List.mem_append_right _ h)
  have hmove := moveString_eq blanks ht0 rest
  rw [List.append_assoc] at hskip ⊢
  obtain ⟨zeros, hcut, hlen⟩ := cutBlanks_eq t ((blanks ++ (t ++ [0])).drop (t.length + 1) ++ rest)
  refine ⟨zeros ++ (blanks ++ (t ++ [0])).drop (t.length + 1), ?_, ?_⟩
  · have hstrlen := strlenAt_eq [] ht0 ((blanks ++ (t ++ [0])).drop (t.length + 1) ++ rest)
    rw [List.length_nil, List.nil_append] at hstrlen
    simp only [trimMemory, hskip, Option.bind_eq_bind, Option.bind_some, hmove, hstrlen, hcut,
      List.append_assoc]
  · simp only [List.length_append, List.length_drop, List.length_singleton]
    omega

/-! ## The string -/

theorem notMem_trim {s : List UInt8} (h0 : 0 ∉ s) : 0 ∉ trim s := by
  obtain ⟨pre, post, hs, -, -⟩ := (isTrimmed_trimmed (p := isBlank) s).inside
  intro h
  rw [hs] at h0
  exact h0 (List.mem_append_right _ (List.mem_append_left _ h))

/-- In any memory the string afterwards is what `trim` makes of the string before. -/
theorem cstr_trimMemory {mem : List UInt8} (h : 0 ∈ mem) : (trimMemory mem).map cstr = some (trim (cstr mem)) := by
  obtain ⟨s, rest, rfl, h0⟩ := List.eq_append_cons_of_mem h
  obtain ⟨junk, htrim, -⟩ := trimMemory_eq h0 rest
  rw [htrim, Option.map_some, cstr_terminated (notMem_trim h0), cstr_terminated h0]

/-- **Trimming.** In the memory of a string with its terminator the loops end and leave the one list inside it
without blanks at its ends; it is empty exactly for blanks alone, and trimming it again changes nothing. -/
theorem trim_spec {s : List UInt8} (h0 : 0 ∉ s) :
    (∃ junk, trimMemory (s ++ [0]) = some (trim s ++ 0 :: junk) ∧
        (trim s).length + junk.length = s.length) ∧
      (∀ t, IsTrimmed isBlank s t ↔ t = trim s) ∧
      (trim s = [] ↔ ∀ c ∈ s, isBlank c = true) ∧
      trim (trim s) = trim s ∧
      ∀ mem, trimMemory (s ++ [0]) = some mem → trimMemory mem = some mem := by
  obtain ⟨junk, htrim, hlen⟩ := trimMemory_eq h0 []
  rw [List.append_nil] at htrim
  refine ⟨⟨junk, htrim, hlen⟩, isTrimmed_iff s, trimmed_eq_nil_iff s, trimmed_trimmed s, fun mem hmem => ?_⟩
  rw [htrim] at hmem
  obtain rfl := Option.some.inj hmem
  obtain ⟨junk', hagain, hlen'⟩ := trimMemory_eq (notMem_trim h0) junk
  have hsame : trim (trim s) = trim s := trimmed_trimmed s
  rw [hsame] at hagain hlen'
  obtain rfl := List.length_eq_zero_iff.mp (by omega : junk'.length = 0)
  exact hagain

/-- The name moves to the front, its terminator behind it. -/
theorem trim_spec_name : (∃ junk, trimMemory (ascii " alice\t\n" ++ [0]) = some (ascii "alice" ++ 0 :: junk)) ∧
    IsTrimmed isBlank (ascii " alice\t\n") (ascii "alice") := by
  obtain ⟨⟨junk, htrim, -⟩, hunique, -⟩ := trim_spec (s := ascii " alice\t\n") (by decide)
  exact ⟨⟨junk, htrim⟩, (hunique _).mpr (by decide)⟩

end ShardingSim
