import Mathlib.Data.List.DropRight
import Mathlib.Data.List.TakeWhile

/-! Lists without the elements at both ends that meet a test. What is left is the one list inside that neither begins
nor ends with such an element (`isTrimmed_iff`). -/
namespace Trim
set_option autoImplicit false

variable {α : Type*} (p : α → Bool)

def trimmed (s : List α) : List α := (s.dropWhile p).rdropWhile p

/-- `t` is `s` without what meets the test before and behind it. -/
structure IsTrimmed (s t : List α) : Prop where
  inside : ∃ pre post, s = pre ++ (t ++ post) ∧ (∀ a ∈ pre, p a = true) ∧ ∀ a ∈ post, p a = true
  head : ∀ a, t.head? = some a → p a = false
  last : ∀ a, t.getLast? = some a → p a = false

variable {p}

theorem rdropWhile_append_of_all (l : List α) {post : List α} (h : ∀ a ∈ post, p a = true) :
    (l ++ post).rdropWhile p = l.rdropWhile p := by
  have hreverse : ∀ a ∈ post.reverse, p a = true := fun a ha => h a (List.mem_reverse.mp ha)
  rw [List.rdropWhile, List.reverse_append, List.dropWhile_append_of_pos hreverse]
  rfl

theorem dropWhile_eq_self {t : List α} (h : ∀ a, t.head? = some a → p a = false) : t.dropWhile p = t := by
  cases t with
  | nil => rfl
  | cons a t => exact List.dropWhile_cons_of_neg (by simp [h a rfl])

theorem rdropWhile_eq_self {t : List α} (h : ∀ a, t.getLast? = some a → p a = false) :
    t.rdropWhile p = t := by
  rw [List.rdropWhile_eq_self_iff]
  intro hne
  rw [h _ (List.getLast?_eq_some_getLast hne)]
  exact Bool.false_ne_true

theorem trimmed_eq_nil_iff (s : List α) : trimmed p s = [] ↔ ∀ a ∈ s, p a = true := by
  rw [trimmed, List.rdropWhile_eq_nil_iff]
  constructor
  · intro h a ha
    rw [← List.takeWhile_append_dropWhile (p := p) (l := s)] at ha
    rcases List.mem_append.mp ha with ha | ha
    · exact List.mem_takeWhile_imp ha
    · exact h a ha
  · exact fun h a ha => h a (List.dropWhile_subset p ha)

theorem isTrimmed_trimmed (s : List α) : IsTrimmed p s (trimmed p s) where
  inside := by
    refine ⟨s.takeWhile p, (s.dropWhile p).rtakeWhile p, ?_, fun a => List.mem_takeWhile_imp,
      fun a => List.mem_rtakeWhile_imp⟩
    rw [trimmed, List.rdropWhile_append_rtakeWhile, List.takeWhile_append_dropWhile]
  head := by
    intro a ha
    have hhead := List.head?_dropWhile_not p s
    obtain ⟨rest, hrest⟩ := List.rdropWhile_prefix p (l := s.dropWhile p)
    rw [← hrest, List.head?_append, show ((s.dropWhile p).rdropWhile p).head? = some a from ha] at hhead
    simpa using hhead
  last := by
    intro a ha
    have hne : trimmed p s ≠ [] := by
      intro h
      rw [h] at ha
      cases ha
    rw [List.getLast?_eq_some_getLast hne] at ha
    rw [← Option.some.inj ha]
    exact Bool.eq_false_iff.mpr (List.rdropWhile_last_not p _ hne)

theorem IsTrimmed.eq {s t : List α} (h : IsTrimmed p s t) : trimmed p s = t := by
  obtain ⟨pre, post, rfl, hpre, hpost⟩ := h.inside
  cases t with
  | nil =>
    rw [trimmed_eq_nil_iff]
    intro a ha
    rcases List.mem_append.mp ha with ha | ha
    · exact hpre a ha
    · exact hpost a ha
  | cons a t =>
    have hfront : (a :: t ++ post).dropWhile p = a :: t ++ post := dropWhile_eq_self h.head
    rw [trimmed, List.dropWhile_append_of_pos hpre, hfront, rdropWhile_append_of_all _ hpost,
      rdropWhile_eq_self h.last]

/-- **What is left is the only such list.** -/
theorem isTrimmed_iff (s t : List α) : IsTrimmed p s t ↔ t = trimmed p s :=
  ⟨fun h => h.eq.symm, fun h => h ▸ isTrimmed_trimmed s⟩

theorem trimmed_trimmed (s : List α) : trimmed p (trimmed p s) = trimmed p s := by
  obtain ⟨-, hhead, hlast⟩ := isTrimmed_trimmed (p := p) s
  exact IsTrimmed.eq ⟨⟨[], [], (List.append_nil _).symm, nofun, nofun⟩, hhead, hlast⟩

end Trim
