import Mathlib.Tactic

/-! Hash chains and binary hash trees over an arbitrary compression function `F : I → V`. Both are
injective up to a collision of `F` among the inputs they compress (`chain_injective`,
`Scheme.leaves_injective`), provided the inputs of the different kinds of calls are told apart. -/
namespace HashTree
set_option autoImplicit false

variable {I V α β γ : Type*}

/-! ## Collisions -/

/-- Distinct inputs, one from each list of calls, with the same value. -/
def Collision (F : I → V) (xs ys : List I) : Prop := ∃ x ∈ xs, ∃ y ∈ ys, x ≠ y ∧ F x = F y

theorem Collision.mono {F : I → V} {xs ys xs' ys' : List I} (h : Collision F xs ys)
    (hx : xs ⊆ xs') (hy : ys ⊆ ys') : Collision F xs' ys' := by
  obtain ⟨x, hxm, y, hym, hne, he⟩ := h
  exact ⟨x, hx hxm, y, hy hym, hne, he⟩

theorem eq_or_collision {F : I → V} {x y : I} {xs ys : List I} (h : F x = F y) (hx : x ∈ xs)
    (hy : y ∈ ys) : x = y ∨ Collision F xs ys := by
  by_cases he : x = y
  · exact Or.inl he
  · exact Or.inr ⟨x, hx, y, hy, he, h⟩

/-! ## Chains -/

section Chain
variable (F : I → V) (input : V → β → Bool → Bool → I) (v₀ : V)

/-- The chaining value after the given blocks, latest block first. A call gets the previous value,
its block, whether the block is the first one, and that it is not the last one. -/
def absorb : List β → V
  | [] => v₀
  | b :: bs => F (input (absorb bs) b bs.isEmpty false)

def absorbCalls : List β → List I
  | [] => []
  | b :: bs => input (absorb F input v₀ bs) b bs.isEmpty false :: absorbCalls bs

/-- The input of the closing call of a chain with last block `b` after the blocks `bs`. -/
def closing (b : β) (bs : List β) : I := input (absorb F input v₀ bs) b bs.isEmpty true

def chainCalls (b : β) (bs : List β) : List I :=
  closing F input v₀ b bs :: absorbCalls F input v₀ bs

variable {F input v₀} {P : β → Prop}
  (hinj : ∀ v b f l v' b' f' l', P b → P b' → input v b f l = input v' b' f' l' →
    v = v' ∧ b = b' ∧ f = f' ∧ l = l')
include hinj

theorem absorb_injective {bs cs : List β} (hb : ∀ b ∈ bs, P b) (hc : ∀ c ∈ cs, P c)
    (hempty : bs.isEmpty = cs.isEmpty) (h : absorb F input v₀ bs = absorb F input v₀ cs) :
    bs = cs ∨ Collision F (absorbCalls F input v₀ bs) (absorbCalls F input v₀ cs) := by
  induction bs generalizing cs with
  | nil => exact Or.inl (List.isEmpty_iff.mp hempty.symm).symm
  | cons b bs ih =>
    cases cs with
    | nil => simp at hempty
    | cons c cs =>
      have hcall : input (absorb F input v₀ bs) b bs.isEmpty false =
            input (absorb F input v₀ cs) c cs.isEmpty false ∨
          Collision F (absorbCalls F input v₀ (b :: bs)) (absorbCalls F input v₀ (c :: cs)) :=
        eq_or_collision h List.mem_cons_self List.mem_cons_self
      rcases hcall with he | hcol
      · obtain ⟨hv, rfl, hf, -⟩ := hinj _ _ _ _ _ _ _ _ (hb b List.mem_cons_self)
          (hc c List.mem_cons_self) he
        rcases ih (fun x hx => hb x (List.mem_cons_of_mem _ hx))
          (fun x hx => hc x (List.mem_cons_of_mem _ hx)) hf hv with rfl | hcol
        · exact Or.inl rfl
        · exact Or.inr (hcol.mono (List.subset_cons_self _ _) (List.subset_cons_self _ _))
      · exact Or.inr hcol

/-- **Chains with the same final value have the same blocks, or their calls collide.** -/
theorem chain_injective {b c : β} {bs cs : List β} (hb : ∀ x ∈ b :: bs, P x) (hc : ∀ x ∈ c :: cs, P x)
    (h : F (closing F input v₀ b bs) = F (closing F input v₀ c cs)) :
    b :: bs = c :: cs ∨ Collision F (chainCalls F input v₀ b bs) (chainCalls F input v₀ c cs) := by
  rcases eq_or_collision h List.mem_cons_self List.mem_cons_self with he | hcol
  · obtain ⟨hv, rfl, hf, -⟩ := hinj _ _ _ _ _ _ _ _ (hb b List.mem_cons_self)
      (hc c List.mem_cons_self) he
    rcases absorb_injective hinj (fun x hx => hb x (List.mem_cons_of_mem _ hx))
      (fun x hx => hc x (List.mem_cons_of_mem _ hx)) hf hv with rfl | hcol
    · exact Or.inl rfl
    · exact Or.inr (hcol.mono (List.subset_cons_self _ _) (List.subset_cons_self _ _))
  · exact Or.inr hcol

end Chain

/-! ## Trees -/

inductive LeafTree (α : Type*) where
  | leaf (a : α)
  | node (left right : LeafTree α)
deriving DecidableEq

namespace LeafTree

def leaves : LeafTree α → List α
  | leaf a => [a]
  | node l r => l.leaves ++ r.leaves

def eval (leafValue : α → V) (nodeValue : V → V → V) : LeafTree α → V
  | leaf a => leafValue a
  | node l r => nodeValue (l.eval leafValue nodeValue) (r.eval leafValue nodeValue)

end LeafTree

/-- How a tree is hashed: a leaf by a list of calls that ends in `leafInput`, a node by one call on
the values of its two subtrees. -/
structure Scheme (α I V : Type*) where
  compress : I → V
  leafInput : α → I
  leafCalls : α → List I
  leafInput_mem : ∀ a, leafInput a ∈ leafCalls a
  nodeInput : V → V → I

namespace Scheme
variable (S : Scheme α I V)

def hash : LeafTree α → V :=
  LeafTree.eval (fun a => S.compress (S.leafInput a)) (fun l r => S.compress (S.nodeInput l r))

def calls : LeafTree α → List I
  | .leaf a => S.leafCalls a
  | .node l r => S.nodeInput (S.hash l) (S.hash r) :: (calls l ++ calls r)

def rootInput : LeafTree α → I
  | .leaf a => S.leafInput a
  | .node l r => S.nodeInput (S.hash l) (S.hash r)

@[simp] theorem hash_node (l r : LeafTree α) :
    S.hash (.node l r) = S.compress (S.nodeInput (S.hash l) (S.hash r)) := rfl

/-- Node inputs determine the two values, differ from every leaf input, and leaves with equal values
have equal contents up to a collision. -/
structure Separated (content : α → γ) : Prop where
  node_injective : ∀ l r l' r', S.nodeInput l r = S.nodeInput l' r' → l = l' ∧ r = r'
  leaf_ne_node : ∀ a l r, S.leafInput a ≠ S.nodeInput l r
  leaf_injective : ∀ a b, S.compress (S.leafInput a) = S.compress (S.leafInput b) →
    content a = content b ∨ Collision S.compress (S.leafCalls a) (S.leafCalls b)

/-- **Trees with the same hash have the same leaf contents in order, or their calls collide**,
whatever the two shapes are. -/
theorem leaves_injective {content : α → γ} (hS : S.Separated content) (t u : LeafTree α)
    (h : S.hash t = S.hash u) :
    t.leaves.map content = u.leaves.map content ∨ Collision S.compress (S.calls t) (S.calls u) := by
  induction t generalizing u with
  | leaf a =>
    cases u with
    | leaf b =>
      rcases hS.leaf_injective a b h with he | hcol
      · exact Or.inl (by simp [LeafTree.leaves, he])
      · exact Or.inr hcol
    | node l r =>
      exact Or.inr ⟨_, S.leafInput_mem a, _, List.mem_cons_self, hS.leaf_ne_node a _ _, h⟩
  | node l r ihl ihr =>
    cases u with
    | leaf b =>
      exact Or.inr ⟨_, List.mem_cons_self, _, S.leafInput_mem b,
        (hS.leaf_ne_node b _ _).symm, h⟩
    | node l' r' =>
      have hroot : S.nodeInput (S.hash l) (S.hash r) = S.nodeInput (S.hash l') (S.hash r') ∨
          Collision S.compress (S.calls (.node l r)) (S.calls (.node l' r')) :=
        eq_or_collision h List.mem_cons_self List.mem_cons_self
      rcases hroot with he | hcol
      · obtain ⟨hl, hr⟩ := hS.node_injective _ _ _ _ he
        rcases ihl l' hl with hl | hcol
        · rcases ihr r' hr with hr | hcol
          · exact Or.inl (by simp only [LeafTree.leaves, List.map_append, hl, hr])
          · refine Or.inr (hcol.mono ?_ ?_) <;>
              exact fun x hx => List.mem_cons_of_mem _ (List.mem_append_right _ hx)
        · refine Or.inr (hcol.mono ?_ ?_) <;>
            exact fun x hx => List.mem_cons_of_mem _ (List.mem_append_left _ hx)
      · exact Or.inr hcol

end Scheme

end HashTree
