import Mathlib.Tactic

/-! The options of a program, read in a loop over its arguments: a flag stands alone, an option that takes a value
stands before it, and what is neither is skipped. An option at the end whose value is missing is skipped as well.
Settings that are written are read back (`read_flatMap`). -/
namespace OptionLoop
set_option autoImplicit false

variable {Arg S : Type*}

/-- An option: a flag with its setting, or the settings that its values make. -/
inductive Kind (Arg S : Type*) where
  | flag (s : S)
  | value (f : Arg → S)

/-- The settings in the order of the arguments. -/
def read (kind : Arg → Option (Kind Arg S)) : List Arg → List S
  | [] => []
  | [arg] =>
    match kind arg with
    | some (.flag s) => [s]
    | _ => []
  | arg :: value :: rest =>
    match kind arg with
    | some (.flag s) => s :: read kind (value :: rest)
    | some (.value f) => f value :: read kind rest
    | none => read kind (value :: rest)

/-- The arguments that write a setting. -/
inductive Writes (kind : Arg → Option (Kind Arg S)) : S → List Arg → Prop where
  | flag {s : S} {name : Arg} (h : kind name = some (.flag s)) : Writes kind s [name]
  | value {f : Arg → S} {name : Arg} (h : kind name = some (.value f)) (value : Arg) :
    Writes kind (f value) [name, value]

section Read
variable {kind : Arg → Option (Kind Arg S)} {name : Arg}

theorem read_flag {s : S} (h : kind name = some (.flag s)) (rest : List Arg) :
    read kind (name :: rest) = s :: read kind rest := by
  cases rest with
  | nil => simp [read, h]
  | cons value rest => simp [read, h]

theorem read_value {f : Arg → S} (h : kind name = some (.value f)) (value : Arg) (rest : List Arg) :
    read kind (name :: value :: rest) = f value :: read kind rest := by
  simp [read, h]

theorem read_other (h : kind name = none) (rest : List Arg) : read kind (name :: rest) = read kind rest := by
  cases rest with
  | nil => simp [read, h]
  | cons value rest => simp [read, h]

/-- The last argument has no value. -/
theorem read_last (h : ∀ s, kind name ≠ some (.flag s)) : read kind [name] = [] := by
  rw [read]
  split
  · rename_i s hflag
    exact absurd hflag (h s)
  · rfl

theorem read_of_writes {s : S} {args : List Arg} (h : Writes kind s args) (rest : List Arg) :
    read kind (args ++ rest) = s :: read kind rest := by
  cases h with
  | flag h => exact read_flag h rest
  | value h value => exact read_value h value rest

/-- **Settings are read back** from the arguments that write them. -/
theorem read_flatMap {args : S → List Arg} (h : ∀ s, Writes kind s (args s)) (l : List S) :
    read kind (l.flatMap args) = l := by
  induction l with
  | nil => rfl
  | cons s l ih => rw [List.flatMap_cons, read_of_writes (h s), ih]

end Read

end OptionLoop
