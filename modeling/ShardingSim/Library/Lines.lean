import Mathlib.Data.List.Infix
import Mathlib.Tactic

/-! Texts as lines, and the loop that reads them with a bounded `fgets`. `fgetsAll_eq_lines`: a buffer that
holds every line splits nothing. `prefix_tail_lines_iff`: what the lines after the first begin with, said of
the text. -/
namespace Lines
set_option autoImplicit false

variable {α : Type*} {nl : α}

theorem headD_cons_tail {ls : List (List α)} (h : ls ≠ []) : ls.headD [] :: ls.tail = ls := by
  cases ls with
  | nil => exact absurd rfl h
  | cons l ls => rfl

theorem infix_append_iff {p a : List α} (ha : nl ∉ a) (text : List α) :
    nl :: p <:+: a ++ text ↔ nl :: p <:+: text := by
  induction a with
  | nil => exact Iff.rfl
  | cons c a ih =>
    rw [List.mem_cons, not_or] at ha
    rw [List.cons_append, List.infix_cons_iff, List.cons_prefix_cons, ih ha.2]
    exact or_iff_right fun h => ha.1 h.1

theorem infix_append_newline_iff {p : List α} (hp : nl ∉ p) (hne : p ≠ []) (text : List α) :
    nl :: p <:+: text ++ [nl] ↔ nl :: p <:+: text := by
  refine ⟨?_, fun h => h.trans (List.infix_append' [] text [nl])⟩
  rintro ⟨u, v, h⟩
  rcases v.eq_nil_or_concat with rfl | ⟨v, d, rfl⟩
  · obtain ⟨q, d, rfl⟩ := (List.eq_nil_or_concat p).resolve_left hne
    rw [List.append_nil, List.concat_eq_append, ← List.cons_append, ← List.append_assoc] at h
    have hlast : d = nl := by simpa using (List.append_inj' h rfl).2
    exact absurd (by simp [hlast]) hp
  · rw [List.concat_eq_append, ← List.append_assoc] at h
    exact ⟨u, v, (List.append_inj' h rfl).1⟩

theorem flatten_length_lt {a b : List (List α)} (h : a.Sublist b) (hne : a ≠ b) (hb : ∀ l ∈ b, l ≠ []) :
    a.flatten.length < b.flatten.length := by
  induction h with
  | slnil => exact absurd rfl hne
  | @cons a b l hsub ih =>
    have hpos := List.length_pos_iff.mpr (hb l List.mem_cons_self)
    have hle := hsub.flatten.length_le
    rw [List.flatten_cons, List.length_append]
    omega
  | @cons_cons a b l hsub ih =>
    have hlt := ih (fun heq => hne (congrArg (l :: ·) heq)) fun x hx => hb x (List.mem_cons_of_mem _ hx)
    rw [List.flatten_cons, List.flatten_cons, List.length_append, List.length_append]
    omega

variable [DecidableEq α]

/-- The lines of a text, each with its newline; the last one may lack it. -/
def lines (nl : α) : List α → List (List α)
  | [] => []
  | c :: text =>
    if c = nl then [c] :: lines nl text
    else match lines nl text with
      | [] => [[c]]
      | line :: rest => (c :: line) :: rest

/-- One `fgets` into a buffer for `limit` characters and the terminator: the line and what is left. -/
def fgets (nl : α) : ℕ → List α → List α × List α
  | 0, text => ([], text)
  | _ + 1, [] => ([], [])
  | limit + 1, c :: text =>
    if c = nl then ([c], text) else (c :: (fgets nl limit text).1, (fgets nl limit text).2)

theorem fgets_rest_length_le (limit : ℕ) (text : List α) : (fgets nl limit text).2.length ≤ text.length := by
  induction limit generalizing text with
  | zero => exact le_rfl
  | succ limit ih =>
    cases text with
    | nil => exact le_rfl
    | cons c text =>
      rw [fgets]
      split
      · exact Nat.le_succ _
      · exact (ih text).trans (Nat.le_succ _)

theorem fgets_rest_length_lt {limit : ℕ} (h : 0 < limit) (c : α) (text : List α) :
    (fgets nl limit (c :: text)).2.length < (c :: text).length := by
  obtain ⟨limit, rfl⟩ := Nat.exists_eq_succ_of_ne_zero h.ne'
  rw [fgets]
  split
  · exact Nat.lt_succ_self _
  · exact Nat.lt_succ_of_le (fgets_rest_length_le limit text)

/-- The lines that a loop of `fgets` gets until the end of the text. -/
def fgetsAll (nl : α) (limit : ℕ) (h : 0 < limit) : List α → List (List α)
  | [] => []
  | c :: text => (fgets nl limit (c :: text)).1 :: fgetsAll nl limit h (fgets nl limit (c :: text)).2
termination_by text => text.length
decreasing_by exact fgets_rest_length_lt h c text

/-! ## Lines -/

theorem lines_newline (text : List α) : lines nl (nl :: text) = [nl] :: lines nl text := if_pos rfl

theorem lines_cons {c : α} (hc : c ≠ nl) (text : List α) :
    lines nl (c :: text) = (c :: (lines nl text).headD []) :: (lines nl text).tail := by
  rw [lines, if_neg hc]
  cases lines nl text <;> rfl

theorem lines_eq_nil_iff (text : List α) : lines nl text = [] ↔ text = [] := by
  cases text with
  | nil => exact iff_of_true rfl rfl
  | cons c text =>
    refine iff_of_false ?_ (List.cons_ne_nil _ _)
    by_cases hc : c = nl
    · rw [hc, lines_newline]
      exact List.cons_ne_nil _ _
    · rw [lines_cons hc]
      exact List.cons_ne_nil _ _

theorem lines_flatten (text : List α) : (lines nl text).flatten = text := by
  induction text with
  | nil => rfl
  | cons c text ih =>
    by_cases hc : c = nl
    · rw [hc, lines_newline, List.flatten_cons, ih, List.singleton_append]
    · rw [lines_cons hc, List.flatten_cons, List.cons_append]
      congr 1
      cases hl : lines nl text with
      | nil => rw [← ih, hl]; rfl
      | cons line rest => rw [← ih, hl]; rfl

theorem ne_nil_of_mem_lines {text line : List α} (h : line ∈ lines nl text) : line ≠ [] := by
  induction text generalizing line with
  | nil => exact absurd h List.not_mem_nil
  | cons c text ih =>
    by_cases hc : c = nl
    · rw [hc, lines_newline] at h
      cases h with
      | head => exact List.cons_ne_nil _ _
      | tail _ h => exact ih h
    · rw [lines_cons hc] at h
      cases h with
      | head => exact List.cons_ne_nil _ _
      | tail _ h => exact ih (List.mem_of_mem_tail h)

theorem sublist_of_mem_lines {text line : List α} (h : line ∈ lines nl text) : line.Sublist text := by
  have hsub := List.sublist_flatten_of_mem h
  rwa [lines_flatten] at hsub

theorem lines_append (a b : List α) :
    lines nl (a ++ [nl] ++ b) = lines nl (a ++ [nl]) ++ lines nl b := by
  induction a with
  | nil => rw [List.nil_append, List.singleton_append, lines_newline, lines_newline, lines, List.singleton_append]
  | cons c a ih =>
    by_cases hc : c = nl
    · rw [hc, List.cons_append, List.cons_append, lines_newline, lines_newline, ih, List.cons_append]
    · have hne : lines nl (a ++ [nl]) ≠ [] := by
        rw [ne_eq, lines_eq_nil_iff]
        exact List.append_ne_nil_of_right_ne_nil _ (List.cons_ne_nil _ _)
      rw [List.cons_append, List.cons_append, lines_cons hc, lines_cons hc, ih]
      cases hl : lines nl (a ++ [nl]) with
      | nil => exact absurd hl hne
      | cons line rest => rfl

theorem lines_line {a : List α} (h : nl ∉ a) : lines nl (a ++ [nl]) = [a ++ [nl]] := by
  induction a with
  | nil => exact lines_newline []
  | cons c a ih =>
    rw [List.mem_cons, not_or] at h
    rw [List.cons_append, lines_cons (Ne.symm h.1), ih h.2]
    rfl

theorem lines_line_append {a : List α} (h : nl ∉ a) (b : List α) :
    lines nl (a ++ [nl] ++ b) = (a ++ [nl]) :: lines nl b := by
  rw [lines_append, lines_line h, List.singleton_append]

/-! ## Reading with a bounded buffer -/

theorem lines_eq_fgets (limit : ℕ) {text : List α} (hne : text ≠ [])
    (h : ((lines nl text).headD []).length ≤ limit) :
    lines nl text = (fgets nl limit text).1 :: lines nl (fgets nl limit text).2 := by
  induction text generalizing limit with
  | nil => exact absurd rfl hne
  | cons c text ih =>
    by_cases hc : c = nl
    · rw [hc, lines_newline] at h ⊢
      obtain ⟨limit, rfl⟩ := Nat.exists_eq_succ_of_ne_zero (Nat.one_le_iff_ne_zero.mp h)
      rw [fgets, if_pos rfl]
    · rw [lines_cons hc, List.headD_cons, List.length_cons] at h
      obtain ⟨limit, rfl⟩ := Nat.exists_eq_succ_of_ne_zero (by omega : limit ≠ 0)
      rw [lines_cons hc, fgets, if_neg hc]
      cases text with
      | nil => cases limit <;> rfl
      | cons d text =>
        have hrest := ih limit (List.cons_ne_nil _ _) (by omega)
        rw [hrest]
        rfl

/-- **No line is split** where each fits the buffer. -/
theorem fgetsAll_eq_lines {limit : ℕ} (hpos : 0 < limit) {text : List α}
    (h : ∀ line ∈ lines nl text, line.length ≤ limit) : fgetsAll nl limit hpos text = lines nl text := by
  induction text using fgetsAll.induct nl limit hpos with
  | case1 => rw [fgetsAll]; rfl
  | case2 c text ih =>
    have hne : lines nl (c :: text) ≠ [] := by
      rw [ne_eq, lines_eq_nil_iff]
      exact List.cons_ne_nil _ _
    have hhead : ((lines nl (c :: text)).headD []).length ≤ limit := by
      refine h _ ?_
      rw [← headD_cons_tail hne]
      exact List.mem_cons_self
    have hread := lines_eq_fgets limit (List.cons_ne_nil c text) hhead
    rw [hread] at h
    rw [fgetsAll, ih fun line hl => h line (List.mem_cons_of_mem _ hl), ← hread]

theorem notMem_dropLast_fgets (limit : ℕ) (text : List α) : nl ∉ (fgets nl limit text).1.dropLast := by
  induction limit generalizing text with
  | zero => exact List.not_mem_nil
  | succ limit ih =>
    cases text with
    | nil => exact List.not_mem_nil
    | cons c text =>
      rw [fgets]
      split
      · exact List.not_mem_nil
      · rename_i hc
        have hrest := ih text
        cases hread : (fgets nl limit text).1 with
        | nil => exact List.not_mem_nil
        | cons d line =>
          rw [hread] at hrest
          rw [List.dropLast_cons_cons, List.mem_cons, not_or]
          exact ⟨Ne.symm hc, hrest⟩

/-- What is read at once ends with its newline. -/
theorem notMem_dropLast_of_mem_fgetsAll {limit : ℕ} (hpos : 0 < limit) {text line : List α}
    (h : line ∈ fgetsAll nl limit hpos text) : nl ∉ line.dropLast := by
  induction text using fgetsAll.induct nl limit hpos with
  | case1 =>
    rw [fgetsAll] at h
    exact absurd h List.not_mem_nil
  | case2 c text ih =>
    rw [fgetsAll, List.mem_cons] at h
    rcases h with rfl | h
    · exact notMem_dropLast_fgets limit (c :: text)
    · exact ih h

/-! ## How lines begin -/

theorem prefix_head_lines_iff {p : List α} (hp : nl ∉ p) (text : List α) :
    p <+: (lines nl text).headD [] ↔ p <+: text := by
  induction text generalizing p with
  | nil => exact Iff.rfl
  | cons c text ih =>
    cases p with
    | nil => exact iff_of_true List.nil_prefix List.nil_prefix
    | cons d p =>
      rw [List.mem_cons, not_or] at hp
      by_cases hc : c = nl
      · rw [hc, lines_newline, List.headD_cons, List.cons_prefix_cons, List.cons_prefix_cons]
        exact iff_of_false (fun h => hp.1 h.1.symm) (fun h => hp.1 h.1.symm)
      · rw [lines_cons hc, List.headD_cons, List.cons_prefix_cons, List.cons_prefix_cons, ih hp.2]

/-- **A line after the first begins with `p`** iff the text has `p` behind a newline. -/
theorem prefix_tail_lines_iff {p : List α} (hp : nl ∉ p) (hne : p ≠ []) (text : List α) :
    (∃ line ∈ (lines nl text).tail, p <+: line) ↔ nl :: p <:+: text := by
  induction text with
  | nil =>
    refine iff_of_false ?_ ?_
    · rintro ⟨line, hl, -⟩
      exact absurd hl List.not_mem_nil
    · intro h
      exact absurd (List.infix_nil.mp h) (List.cons_ne_nil _ _)
  | cons c text ih =>
    rw [List.infix_cons_iff, List.cons_prefix_cons, ← ih]
    by_cases hc : c = nl
    · rw [hc, lines_newline, List.tail_cons, ← prefix_head_lines_iff hp text]
      cases lines nl text with
      | nil =>
        refine iff_of_false ?_ ?_
        · rintro ⟨line, hl, -⟩
          exact absurd hl List.not_mem_nil
        · rintro (⟨-, h⟩ | ⟨line, hl, -⟩)
          · exact hne (List.prefix_nil.mp h)
          · exact absurd hl List.not_mem_nil
      | cons line rest =>
        rw [List.exists_mem_cons_iff, List.headD_cons, List.tail_cons]
        exact or_congr_left (and_iff_right rfl).symm
    · rw [lines_cons hc, List.tail_cons]
      exact (or_iff_right fun h => hc h.1.symm).symm

end Lines
