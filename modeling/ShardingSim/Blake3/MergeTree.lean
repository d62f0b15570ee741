import ShardingSim.Blake3.Hasher

/-! The stack of `add_chunk_cv` as a stack of trees. `addTree` merges as the code does, by the index of
the new chunk and the depth of the stack; `codeStack` is the stack after the first `k` chunks and
`codeTree` what `finalize` makes of it. The bytes of `cv_stack` hold the hashes of these trees
(`Stored`), through the merge loops of `add_chunk_cv` (`addChunkCv_represents`) and of `finalize`
(`mergeStack_represents`). -/
namespace ShardingSim.Blake3
open ByteBuffer HashTree
set_option autoImplicit false

/-! ## The stack of trees -/

section Stack
variable {α : Type} (leaf : ℕ → α)

/-- The merge loop and the push of `add_chunk_cv`, on the stack top first: chunk number `k` is merged
while its index has a bit below the depth of the stack. -/
def addTree (k : ℕ) : List (LeafTree α) → LeafTree α → List (LeafTree α)
  | [], t => [t]
  | s :: stack, t => if k % 2 ^ (stack.length + 1) ≠ 0 then addTree k stack (.node s t) else t :: s :: stack

def codeStack : ℕ → List (LeafTree α)
  | 0 => []
  | k + 1 => addTree k (codeStack k) (.leaf (leaf k))

/-- The merge loop of `finalize`. -/
def joinStack (stack : List (LeafTree α)) (t : LeafTree α) : LeafTree α :=
  stack.foldl (fun acc s => .node s acc) t

/-- The tree hashed for the chunks `0` to `k`, of which `k` is in the buffer. -/
def codeTree (k : ℕ) : LeafTree α := joinStack (codeStack leaf k) (.leaf (leaf k))

theorem addTree_cons_of_ne {k : ℕ} {s : LeafTree α} {stack : List (LeafTree α)} (t : LeafTree α)
    (h : k % 2 ^ (stack.length + 1) ≠ 0) : addTree k (s :: stack) t = addTree k stack (.node s t) := by
  rw [addTree, if_pos h]

theorem addTree_cons_of_eq {k : ℕ} {s : LeafTree α} {stack : List (LeafTree α)} (t : LeafTree α)
    (h : k % 2 ^ (stack.length + 1) = 0) : addTree k (s :: stack) t = t :: s :: stack := by
  rw [addTree, if_neg (by omega)]

def stackLeaves : List (LeafTree α) → List α
  | [] => []
  | s :: stack => stackLeaves stack ++ s.leaves

theorem stackLeaves_addTree (k : ℕ) (stack : List (LeafTree α)) (t : LeafTree α) :
    stackLeaves (addTree k stack t) = stackLeaves stack ++ t.leaves := by
  induction stack generalizing t with
  | nil => rfl
  | cons s stack ih =>
    by_cases h : k % 2 ^ (stack.length + 1) = 0
    · rw [addTree_cons_of_eq t h]
      rfl
    · rw [addTree_cons_of_ne t h, ih, stackLeaves, LeafTree.leaves, List.append_assoc]

theorem stackLeaves_codeStack (k : ℕ) : stackLeaves (codeStack leaf k) = (List.range k).map leaf := by
  induction k with
  | zero => rfl
  | succ k ih =>
    rw [codeStack, stackLeaves_addTree, ih, List.range_succ, List.map_append]
    rfl

theorem leaves_joinStack (stack : List (LeafTree α)) (t : LeafTree α) :
    (joinStack stack t).leaves = stackLeaves stack ++ t.leaves := by
  induction stack generalizing t with
  | nil => rfl
  | cons s stack ih =>
    have hstep : joinStack (s :: stack) t = joinStack stack (.node s t) := rfl
    rw [hstep, ih, LeafTree.leaves, stackLeaves, List.append_assoc]

theorem leaves_codeTree (k : ℕ) : (codeTree leaf k).leaves = (List.range (k + 1)).map leaf := by
  rw [codeTree, leaves_joinStack, stackLeaves_codeStack, List.range_succ, List.map_append]
  rfl

/-! ## The shape of the stack -/

/-- The tree on the stack after an even number of chunks: the pairs are hung one by one to the right. -/
def pairTree : ℕ → LeafTree α
  | 0 => .node (.leaf (leaf 0)) (.leaf (leaf 1))
  | j + 1 => .node (pairTree j) (.node (.leaf (leaf (2 * j + 2))) (.leaf (leaf (2 * j + 3))))

theorem codeStack_push {j : ℕ} {t : LeafTree α} (h : codeStack leaf (2 * j + 2) = [t]) :
    codeStack leaf (2 * j + 3) = [.leaf (leaf (2 * j + 2)), t] := by
  have hmod : (2 * j + 2) % 2 = 0 := by omega
  rw [codeStack, h, addTree_cons_of_eq _ hmod]

theorem codeStack_merge {j : ℕ} {t : LeafTree α} (h : codeStack leaf (2 * j + 2) = [t]) :
    codeStack leaf (2 * j + 4) =
      [.node t (.node (.leaf (leaf (2 * j + 2))) (.leaf (leaf (2 * j + 3))))] := by
  have hmod4 : (2 * j + 3) % 4 ≠ 0 := by omega
  have hmod2 : (2 * j + 3) % 2 ≠ 0 := by omega
  rw [codeStack, codeStack_push leaf h, addTree_cons_of_ne _ hmod4, addTree_cons_of_ne _ hmod2]
  rfl

theorem codeStack_even (j : ℕ) : codeStack leaf (2 * j + 2) = [pairTree leaf j] := by
  induction j with
  | zero => simp [codeStack, addTree, pairTree]
  | succ j ih => exact codeStack_merge leaf ih

theorem codeTree_even (j : ℕ) :
    codeTree leaf (2 * j + 2) = .node (pairTree leaf j) (.leaf (leaf (2 * j + 2))) := by
  rw [codeTree, codeStack_even]
  rfl

theorem codeTree_odd (j : ℕ) : codeTree leaf (2 * j + 3) = pairTree leaf (j + 1) := by
  rw [codeTree, codeStack_push leaf (codeStack_even leaf j)]
  rfl

theorem codeStack_length_le (k : ℕ) : (codeStack leaf k).length ≤ 2 := by
  obtain ⟨j, rfl | rfl⟩ := Nat.even_or_odd' k
  · cases j with
    | zero => exact Nat.zero_le _
    | succ j =>
      have hk : 2 * (j + 1) = 2 * j + 2 := by omega
      rw [hk, codeStack_even]
      exact Nat.le_succ 1
  · cases j with
    | zero => exact Nat.le_succ 1
    | succ j =>
      have hk : 2 * (j + 1) + 1 = 2 * j + 3 := by omega
      rw [hk, codeStack_push leaf (codeStack_even leaf j)]
      exact le_refl 2

end Stack

/-! ## The bytes of the stack -/

theorem mustMerge_iff {self : Blake3Hasher} (hlen : self.cvStackLen.toNat < 64) (k : ℕ) :
    mustMerge self (UInt64.ofNat k) ↔
      0 < self.cvStackLen.toNat ∧ k % 2 ^ self.cvStackLen.toNat ≠ 0 := by
  have hshift : (((1 : UInt64) <<< self.cvStackLen.toUInt64) - 1).toNat =
      2 ^ self.cvStackLen.toNat - 1 := by
    have hpow : 2 ^ self.cvStackLen.toNat < 2 ^ 64 := Nat.pow_lt_pow_right (by decide) hlen
    have hone : ((1 : UInt64) <<< self.cvStackLen.toUInt64).toNat = 2 ^ self.cvStackLen.toNat := by
      rw [UInt64.toNat_shiftLeft, UInt8.toNat_toUInt64, Nat.mod_eq_of_lt hlen, UInt64.toNat_one,
        Nat.shiftLeft_eq, Nat.one_mul, Nat.mod_eq_of_lt hpow]
    have hle : (1 : UInt64) ≤ (1 : UInt64) <<< self.cvStackLen.toUInt64 := by
      rw [UInt64.le_iff_toNat_le, hone]
      exact Nat.one_le_two_pow
    rw [UInt64.toNat_sub_of_le _ _ hle, hone]
    rfl
  have hand : (UInt64.ofNat k &&& (((1 : UInt64) <<< self.cvStackLen.toUInt64) - 1)).toNat =
      k % 2 ^ self.cvStackLen.toNat := by
    rw [UInt64.toNat_and, hshift, Nat.and_two_pow_sub_one_eq_mod, UInt64.toNat_ofNat',
      Nat.mod_mod_of_dvd _ (Nat.pow_dvd_pow 2 hlen.le)]
  rw [mustMerge, UInt8.lt_iff_toNat_lt, ← hand, Ne, ← UInt64.toNat_inj]
  rfl

theorem parentInput_eq (left right key : Cv) (flags : UInt8) :
    parentInput left right key flags = Spec.parentNode key flags left right := by
  have hblock : write (write (Vector.replicate 64 0) 0 (storeCv left)) 32 (storeCv right) =
      padBlock (storeCv left ++ storeCv right) := by
    have hoff : 0 + (storeCv left).length = 32 := by rw [storeCv_length]
    rw [← write_replicate, ← write_write, hoff]
  rw [parentInput, hblock]
  rfl

/-- The scheme the hasher follows: the key words of its chunks and parents are always `IV`. -/
def codeMode (flags : UInt8) : Scheme Chunk CompressInput Cv := Spec.mode compress iv flags

theorem codeMode_node (flags : UInt8) (t u : LeafTree Chunk) :
    (codeMode flags).hash (.node t u) =
      parentCv ((codeMode flags).hash t) ((codeMode flags).hash u) iv flags := by
  rw [Scheme.hash_node, parentCv, parentInput_eq]
  rfl

/-- The slots of a stack, top first, hold the hashes of its trees. -/
def Stored (S : Scheme Chunk CompressInput Cv) (mem : Vector UInt8 (54 * 32)) :
    List (LeafTree Chunk) → Prop
  | [] => True
  | t :: stack => read mem (stack.length * 32) 32 = storeCv (S.hash t) ∧ Stored S mem stack

theorem Stored.write {S : Scheme Chunk CompressInput Cv} {mem : Vector UInt8 (54 * 32)}
    {stack : List (LeafTree Chunk)} (h : Stored S mem stack) (off : ℕ) (src : List UInt8)
    (hoff : stack.length * 32 ≤ off) : Stored S (ByteBuffer.write mem off src) stack := by
  induction stack with
  | nil => trivial
  | cons t stack ih =>
    rw [List.length_cons, Nat.succ_mul] at hoff
    refine ⟨?_, ih h.2 (by omega)⟩
    rw [read_write_before _ _ _ _ _ hoff]
    exact h.1

/-- The stack of the hasher is the given stack of trees, which has room for one more. -/
structure Represents (flags : UInt8) (hasher : Blake3Hasher) (stack : List (LeafTree Chunk)) : Prop where
  flags_eq : hasher.flags = flags
  length_eq : hasher.cvStackLen.toNat = stack.length
  room : stack.length < 54
  stored : Stored (codeMode flags) hasher.cvStack stack

section Represents
variable {flags : UInt8} {self : Blake3Hasher} {stack : List (LeafTree Chunk)} {t s : LeafTree Chunk}

theorem Represents.push (h : Represents flags self stack) (ht : stack.length + 1 < 54) :
    Represents flags (pushCv self ((codeMode flags).hash t)) (t :: stack) where
  flags_eq := by rw [pushCv, setStack_flags, h.flags_eq]
  length_eq := by
    have hlen := h.length_eq
    rw [pushCv_len (by omega), hlen]
    rfl
  room := ht
  stored := by
    have hmem := storeCv_length ((codeMode flags).hash t)
    have hread := read_write_same self.cvStack (stack.length * 32)
      (storeCv ((codeMode flags).hash t)) (by omega)
    rw [hmem] at hread
    rw [pushCv, setStack_cvStack, h.length_eq]
    exact ⟨hread, h.stored.write _ _ (le_refl _)⟩

theorem Represents.pos (h : Represents flags self (s :: stack)) : 0 < self.cvStackLen := by
  rw [UInt8.lt_iff_toNat_lt, h.length_eq]
  exact Nat.succ_pos _

theorem Represents.top (h : Represents flags self (s :: stack)) :
    (self.cvStackLen - 1).toNat = stack.length := by
  rw [toNat_sub_one h.pos, h.length_eq]
  rfl

theorem Represents.pop (h : Represents flags self (s :: stack)) :
    Represents flags (popCv self).1 stack where
  flags_eq := h.flags_eq
  length_eq := h.top
  room := Nat.lt_of_succ_lt h.room
  stored := h.stored.2

theorem Represents.popCv_snd (h : Represents flags self (s :: stack)) :
    (popCv self).2 = (codeMode flags).hash s := by
  rw [popCv, h.top]
  exact loadCv_of_read h.stored.1

theorem Represents.parentCv (h : Represents flags self (s :: stack)) :
    Blake3.parentCv (popCv self).2 ((codeMode flags).hash t) iv self.flags =
      (codeMode flags).hash (.node s t) := by
  rw [h.popCv_snd, h.flags_eq, codeMode_node]

theorem Represents.parentInput (h : Represents flags self (s :: stack)) :
    Blake3.parentInput (popCv self).2 ((codeMode flags).hash t) iv self.flags =
      (codeMode flags).rootInput (.node s t) := by
  rw [h.popCv_snd, h.flags_eq, parentInput_eq]
  rfl

end Represents

def stackCalls (flags : UInt8) (stack : List (LeafTree Chunk)) : List CompressInput :=
  stack.flatMap (codeMode flags).calls

theorem stackCalls_push_subset (flags : UInt8) (t : LeafTree Chunk) (stack : List (LeafTree Chunk))
    (rest : List CompressInput) :
    stackCalls flags (t :: stack) ⊆ stackCalls flags stack ++ ((codeMode flags).calls t ++ rest) := by
  intro x hx
  rw [stackCalls, List.flatMap_cons] at hx
  rcases List.mem_append.mp hx with hx | hx
  · exact List.mem_append_right _ (List.mem_append_left _ hx)
  · exact List.mem_append_left _ hx

theorem stackCalls_node_subset (flags : UInt8) (s t : LeafTree Chunk) (stack : List (LeafTree Chunk))
    (rest : List CompressInput) :
    stackCalls flags stack ++ ((codeMode flags).calls (.node s t) ++ rest) ⊆
      stackCalls flags (s :: stack) ++ ((codeMode flags).calls t ++
        ((codeMode flags).rootInput (.node s t) :: rest)) := by
  intro x hx
  simp only [stackCalls, List.flatMap_cons, Scheme.calls, Scheme.rootInput, List.mem_append,
    List.mem_cons] at hx ⊢
  tauto

/-- **`add_chunk_cv` adds a tree to the stack**, and has made all calls of the new stack if those of
the old stack and of the tree were made. -/
theorem addChunkCv_represents {flags : UInt8} {self : Blake3Hasher} {stack : List (LeafTree Chunk)}
    (h : Represents flags self stack) (hroom : stack.length + 1 < 54) (t : LeafTree Chunk) (k : ℕ) :
    Represents flags (addChunkCv self ((codeMode flags).hash t) (UInt64.ofNat k)) (addTree k stack t) ∧
      stackCalls flags (addTree k stack t) ⊆ stackCalls flags stack ++ ((codeMode flags).calls t ++
        addChunkCvCalls self ((codeMode flags).hash t) (UInt64.ofNat k)) := by
  induction stack generalizing self t with
  | nil =>
    have hnot : ¬ mustMerge self (UInt64.ofNat k) := by
      intro hm
      have hpos := UInt8.lt_iff_toNat_lt.mp hm.1
      rw [h.length_eq] at hpos
      exact Nat.lt_irrefl 0 hpos
    rw [addChunkCv_of_not_merge hnot, addTree]
    exact ⟨h.push hroom, stackCalls_push_subset flags t [] _⟩
  | cons s stack ih =>
    have hlen : self.cvStackLen.toNat = stack.length + 1 := h.length_eq
    have hdepth : self.cvStackLen.toNat < 64 := by
      rw [hlen]
      exact Nat.lt_trans h.room (by decide)
    have hiff := mustMerge_iff hdepth k
    rw [hlen] at hiff
    by_cases hm : k % 2 ^ (stack.length + 1) = 0
    · have hnot : ¬ mustMerge self (UInt64.ofNat k) := fun hmm => (hiff.mp hmm).2 hm
      rw [addChunkCv_of_not_merge hnot, addTree_cons_of_eq t hm]
      exact ⟨h.push hroom, stackCalls_push_subset flags t (s :: stack) _⟩
    · have hmerge : mustMerge self (UInt64.ofNat k) := hiff.mpr ⟨Nat.succ_pos _, hm⟩
      have hrest := ih h.pop (Nat.lt_of_succ_lt hroom) (.node s t)
      rw [addChunkCv_of_merge hmerge, addTree_cons_of_ne t hm, h.parentCv, addChunkCvCalls, dif_pos hmerge,
        h.parentCv, h.parentInput]
      exact ⟨hrest.1, List.Subset.trans hrest.2 (stackCalls_node_subset flags s t stack _)⟩

/-- **The merge loop of `finalize`** joins the stack of trees. -/
theorem mergeStack_represents {flags : UInt8} {self : Blake3Hasher} {stack : List (LeafTree Chunk)}
    (h : Represents flags self stack) (t : LeafTree Chunk) :
    mergeStack self ((codeMode flags).hash t) = (codeMode flags).hash (joinStack stack t) ∧
      (codeMode flags).calls (joinStack stack t) ⊆ stackCalls flags stack ++ ((codeMode flags).calls t ++
        mergeStackCalls self ((codeMode flags).hash t)) := by
  induction stack generalizing self t with
  | nil =>
    have hnot : ¬ 0 < self.cvStackLen := by
      rw [UInt8.lt_iff_toNat_lt, h.length_eq]
      exact Nat.lt_irrefl 0
    rw [mergeStack, dif_neg hnot]
    exact ⟨rfl, fun x hx => List.mem_append_right _ (List.mem_append_left _ hx)⟩
  | cons s stack ih =>
    have hrest := ih h.pop (.node s t)
    have hjoin : joinStack (s :: stack) t = joinStack stack (.node s t) := rfl
    rw [mergeStack, dif_pos h.pos, mergeStackCalls, dif_pos h.pos, h.parentCv, h.parentInput, hjoin]
    exact ⟨hrest.1, List.Subset.trans hrest.2 (stackCalls_node_subset flags s t stack _)⟩

end ShardingSim.Blake3
