import Mathlib.Tactic

/-! Records that are read item by item. Each item updates the fields it has a value for, so that every field is the
fold of its own values, mostly the last of them (`get_foldl`). Where a text has sections, in which another reader has
the lines, both have read their part by itself (`foldlM_readLine`). -/
namespace Fields
set_option autoImplicit false

variable {Item σ β V : Type*}

/-! ## One field -/

section Fold
variable {apply : σ → Item → σ} (get : σ → β)

theorem get_foldl_update (value : Item → Option V) (update : β → V → β)
    (h : ∀ o item, get (apply o item) = (value item).elim (get o) (update (get o))) (o : σ) (l : List Item) :
    get (l.foldl apply o) = (l.filterMap value).foldl update (get o) := by
  induction l generalizing o with
  | nil => rfl
  | cons item l ih =>
    rw [List.foldl_cons, ih, h, List.filterMap_cons]
    cases value item with
    | none => rfl
    | some v => rfl

theorem foldl_last (b : β) (l : List β) : l.foldl (fun _ v => v) b = l.getLastD b := by
  induction l generalizing b with
  | nil => rfl
  | cons v l ih => rw [List.foldl_cons, ih, List.getLastD_cons]

/-- **The last value counts.** -/
theorem get_foldl (value : Item → Option β) (h : ∀ o item, get (apply o item) = (value item).getD (get o)) (o : σ)
    (l : List Item) : get (l.foldl apply o) = (l.filterMap value).getLastD (get o) := by
  rw [← foldl_last]
  refine get_foldl_update get value _ (fun o item => ?_) o l
  rw [h]
  cases value item with
  | none => rfl
  | some v => rfl

/-- A field that no item is for. -/
theorem get_foldl_of_unset (h : ∀ o item, get (apply o item) = get o) (o : σ) (l : List Item) :
    get (l.foldl apply o) = get o := by
  induction l generalizing o with
  | nil => rfl
  | cons item l ih => rw [List.foldl_cons, ih, h]

end Fold

/-! ## Sections -/

section Sections
variable {Line F G S T : Type*} (next : Bool → Line → Bool)

/-- The lines within the sections. `inside` tells whether the first line is, and `next` whether the line after one. -/
def within (inside : Bool) : List Line → List Line
  | [] => []
  | line :: rest => if inside then line :: within (next inside line) rest else within (next inside line) rest

def outside (inside : Bool) : List Line → List Line
  | [] => []
  | line :: rest => if inside then outside (next inside line) rest else line :: outside (next inside line) rest

section Parts
variable {next}

theorem within_sublist (inside : Bool) (text : List Line) : (within next inside text).Sublist text := by
  induction text generalizing inside with
  | nil => exact List.Sublist.slnil
  | cons line rest ih =>
    rw [within]
    split
    · exact (ih _).cons_cons line
    · exact (ih _).cons line

theorem outside_sublist (inside : Bool) (text : List Line) : (outside next inside text).Sublist text := by
  induction text generalizing inside with
  | nil => exact List.Sublist.slnil
  | cons line rest ih =>
    rw [outside]
    split
    · exact (ih _).cons line
    · exact (ih _).cons_cons line

/-- A text that is all in one section: none of its lines but the last may end it. -/
theorem within_eq_self_iff (text : List Line) :
    within next true text = text ↔ ∀ line ∈ text.dropLast, next true line = true := by
  induction text with
  | nil => exact iff_of_true rfl nofun
  | cons line rest ih =>
    rw [within, if_pos rfl, List.cons.injEq, and_iff_right rfl]
    cases rest with
    | nil => exact iff_of_true (by cases next true line <;> rfl) nofun
    | cons second rest =>
      rw [List.dropLast_cons_cons, List.forall_mem_cons]
      cases hnext : next true line with
      | true => exact ih.trans (and_iff_right rfl).symm
      | false =>
        refine iff_of_false (fun h => ?_) fun h => Bool.false_ne_true h.1
        -- the second line is outside
        have hshort : (within next (next false second) rest).length ≤ rest.length := (within_sublist _ rest).length_le
        have hlength := congrArg List.length h
        rw [within, if_neg Bool.false_ne_true, List.length_cons] at hlength
        omega

theorem outside_eq_nil {text : List Line} (h : ∀ line ∈ text.dropLast, next true line = true) :
    outside next true text = [] := by
  induction text with
  | nil => rfl
  | cons line rest ih =>
    rw [outside, if_pos rfl]
    cases rest with
    | nil => rfl
    | cons second rest =>
      rw [List.dropLast_cons_cons, List.forall_mem_cons] at h
      rw [h.1]
      exact ih h.2

end Parts

variable (f : F → Line → F) (g : G → Line → Option G)

/-- A line within goes to the second state, which can fail, and a line outside to the first. -/
def readLine (s : F × Bool × G) (line : Line) : Option (F × Bool × G) :=
  if s.2.1 then (g s.2.2 line).map fun b => (s.1, next s.2.1 line, b)
  else some (f s.1 line, next s.2.1 line, s.2.2)

/-- **Each part is read by itself.** -/
theorem foldlM_readLine (a : F) (inside : Bool) (b : G) (text : List Line) :
    text.foldlM (readLine next f g) (a, inside, b) =
      ((within next inside text).foldlM g b).map fun b' =>
        ((outside next inside text).foldl f a, text.foldl next inside, b') := by
  induction text generalizing a inside b with
  | nil => rfl
  | cons line rest ih =>
    rw [List.foldlM_cons, List.foldl_cons]
    cases inside with
    | true =>
      show ((g b line).map fun b' => (a, next true line, b')).bind _ =
        ((g b line).bind fun b' => (within next (next true line) rest).foldlM g b').map _
      cases g b line with
      | none => rfl
      | some b' => exact ih a (next true line) b'
    | false => exact ih (f a line) (next false line) b

/-- A reader whose state is made of the parts. -/
theorem foldlM_map {step : S → Line → Option S} {step' : T → Line → Option T} {toState : T → S}
    (h : ∀ t line, step (toState t) line = (step' t line).map toState) (t : T) (text : List Line) :
    text.foldlM step (toState t) = (text.foldlM step' t).map toState := by
  induction text generalizing t with
  | nil => rfl
  | cons line rest ih =>
    rw [List.foldlM_cons, List.foldlM_cons, h]
    cases step' t line with
    | none => rfl
    | some t' => exact ih t'

end Sections

end Fields
