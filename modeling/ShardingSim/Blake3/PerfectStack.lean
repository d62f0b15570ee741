import ShardingSim.Blake3.MessageTree
import Mathlib.Data.Nat.Digits.Defs

/-! The stack that the tree of BLAKE3 asks for: `perfectStack` holds a perfect tree for each 1-bit of the
number of chunks, and closing it with the next chunk gives the specified tree (`joinStack_perfectStack`). The
code's stack is this one up to five chunks; at six it has lost an entry (`stackIsTree_iff`). -/
namespace ShardingSim.Blake3
open HashTree
set_option autoImplicit false

/-! ## The specified tree -/

section Tree
variable {α : Type} (leaf : ℕ → α)

theorem tree_one (start : ℕ) : Spec.tree leaf start 1 = .leaf (leaf start) := by
  rw [Spec.tree, dif_pos (le_refl 1)]

theorem tree_split (start j : ℕ) {n : ℕ} (hlt : 2 ^ j < n) (hle : n ≤ 2 ^ (j + 1)) :
    Spec.tree leaf start n =
      .node (Spec.tree leaf start (2 ^ j)) (Spec.tree leaf (start + 2 ^ j) (n - 2 ^ j)) := by
  have hpos := Nat.one_le_two_pow (n := j)
  have hlog : (n - 1).log2 = j := by
    rw [Nat.log2_eq_iff (by omega)]
    omega
  rw [Spec.tree, dif_neg (by omega), hlog]

/-- The perfect tree over the `2 ^ j` leaves from number `start` on. -/
def perfectTree (start : ℕ) : ℕ → LeafTree α
  | 0 => .leaf (leaf start)
  | j + 1 => .node (perfectTree start j) (perfectTree (start + 2 ^ j) j)

theorem tree_two_pow (start j : ℕ) : Spec.tree leaf start (2 ^ j) = perfectTree leaf start j := by
  induction j generalizing start with
  | zero => exact tree_one leaf start
  | succ j ih =>
    have hpos := Nat.one_le_two_pow (n := j)
    have hhalf : 2 ^ (j + 1) - 2 ^ j = 2 ^ j := by omega
    rw [tree_split leaf start j (by omega) (le_refl _), hhalf, ih, ih, perfectTree]

/-! ## Its stack -/

/-- The stack after `k` chunks from number `start` on, top first: the largest block is at the bottom. -/
def perfectStack (start k : ℕ) : List (LeafTree α) :=
  if _h : k = 0 then []
  else perfectStack (start + 2 ^ k.log2) (k - 2 ^ k.log2) ++ [perfectTree leaf start k.log2]
termination_by k
decreasing_by
  have := Nat.one_le_two_pow (n := k.log2)
  omega

theorem perfectStack_zero (start : ℕ) : perfectStack leaf start 0 = [] := by
  rw [perfectStack, dif_pos rfl]

theorem perfectStack_add (start : ℕ) {j r : ℕ} (hr : r < 2 ^ j) :
    perfectStack leaf start (2 ^ j + r) =
      perfectStack leaf (start + 2 ^ j) r ++ [perfectTree leaf start j] := by
  have hpos := Nat.one_le_two_pow (n := j)
  have hlog : (2 ^ j + r).log2 = j := by
    rw [Nat.log2_eq_iff (by omega), Nat.pow_succ]
    omega
  rw [perfectStack, dif_neg (by omega), hlog, Nat.add_sub_cancel_left]

theorem exists_two_pow_add {k : ℕ} (hk : k ≠ 0) : ∃ j r, r < 2 ^ j ∧ k = 2 ^ j + r := by
  have hle := Nat.log2_self_le hk
  have hlt := Nat.lt_log2_self (n := k)
  rw [Nat.pow_succ] at hlt
  exact ⟨k.log2, k - 2 ^ k.log2, by omega, by omega⟩

def popcount (k : ℕ) : ℕ := (Nat.digits 2 k).sum

theorem popcount_bit (n : ℕ) : popcount n = n % 2 + popcount (n / 2) := by
  by_cases hn : n = 0
  · rw [hn]
    rfl
  · rw [popcount, Nat.digits_def' (by decide) (Nat.pos_of_ne_zero hn), List.sum_cons, popcount]

theorem popcount_add {j r : ℕ} (hr : r < 2 ^ j) : popcount (2 ^ j + r) = popcount r + 1 := by
  induction j generalizing r with
  | zero =>
    have hzero : r = 0 := Nat.lt_one_iff.mp hr
    rw [hzero, popcount_bit]
    rfl
  | succ j ih =>
    rw [Nat.pow_succ] at hr
    have hhalf : (2 ^ (j + 1) + r) / 2 = 2 ^ j + r / 2 := by omega
    have hbit : (2 ^ (j + 1) + r) % 2 = r % 2 := by omega
    rw [popcount_bit, hhalf, hbit, ih (by omega), popcount_bit r, Nat.add_assoc]

theorem perfectStack_length (start k : ℕ) : (perfectStack leaf start k).length = popcount k := by
  induction k using Nat.strong_induction_on generalizing start with
  | _ k ih =>
    by_cases hk : k = 0
    · rw [hk, perfectStack_zero]
      rfl
    · obtain ⟨j, r, hr, rfl⟩ := exists_two_pow_add hk
      have hpos := Nat.one_le_two_pow (n := j)
      rw [perfectStack_add leaf start hr, List.length_append, ih r (by omega), popcount_add hr,
        List.length_singleton]

theorem joinStack_concat (stack : List (LeafTree α)) (s t : LeafTree α) :
    joinStack (stack ++ [s]) t = .node s (joinStack stack t) := List.foldl_concat _ _ _ _

/-- **Closing the stack of `k` chunks with the next one gives the specified tree.** -/
theorem joinStack_perfectStack (start k : ℕ) :
    joinStack (perfectStack leaf start k) (.leaf (leaf (start + k))) = Spec.tree leaf start (k + 1) := by
  induction k using Nat.strong_induction_on generalizing start with
  | _ k ih =>
    by_cases hk : k = 0
    · rw [hk, perfectStack_zero, tree_one]
      rfl
    · obtain ⟨j, r, hr, rfl⟩ := exists_two_pow_add hk
      have hpos := Nat.one_le_two_pow (n := j)
      have hrest := ih r (by omega) (start + 2 ^ j)
      have hsub : 2 ^ j + r + 1 - 2 ^ j = r + 1 := by omega
      rw [Nat.add_assoc] at hrest
      rw [perfectStack_add leaf start hr, joinStack_concat, hrest,
        tree_split leaf start j (by omega) (by rw [Nat.pow_succ]; omega), hsub, tree_two_pow]

/-! ## The stack of the code -/

/-- **Up to five chunks the code keeps the stack of the specified tree.** -/
theorem codeStack_eq_perfectStack {k : ℕ} (hk : k ≤ 5) : codeStack leaf k = perfectStack leaf 0 k := by
  have h0 := perfectStack_zero leaf
  have h1 : ∀ start, perfectStack leaf start 1 = [perfectTree leaf start 0] := fun start =>
    (perfectStack_add leaf start (j := 0) (r := 0) (by decide)).trans (by rw [h0]; rfl)
  have h2 : perfectStack leaf 0 2 = [perfectTree leaf 0 1] :=
    (perfectStack_add leaf 0 (j := 1) (r := 0) (by decide)).trans (by rw [h0]; rfl)
  have h3 : perfectStack leaf 0 3 = [perfectTree leaf 2 0, perfectTree leaf 0 1] :=
    (perfectStack_add leaf 0 (j := 1) (r := 1) (by decide)).trans (by rw [h1]; rfl)
  have h4 : perfectStack leaf 0 4 = [perfectTree leaf 0 2] :=
    (perfectStack_add leaf 0 (j := 2) (r := 0) (by decide)).trans (by rw [h0]; rfl)
  have h5 : perfectStack leaf 0 5 = [perfectTree leaf 4 0, perfectTree leaf 0 2] :=
    (perfectStack_add leaf 0 (j := 2) (r := 1) (by decide)).trans (by rw [h1]; rfl)
  interval_cases k
  · exact (h0 0).symm
  · exact (h1 0).symm
  · rw [h2, codeStack_even leaf 0]
    rfl
  · rw [h3, codeStack_push leaf (codeStack_even leaf 0)]
    rfl
  · rw [h4, codeStack_even leaf 1]
    rfl
  · rw [h5, codeStack_push leaf (codeStack_even leaf 1)]
    rfl

theorem codeTree_eq_tree {k : ℕ} (hk : k ≤ 5) : codeTree leaf k = Spec.tree leaf 0 (k + 1) := by
  have hjoin := joinStack_perfectStack leaf 0 k
  rwa [Nat.zero_add, ← codeStack_eq_perfectStack leaf hk] at hjoin

end Tree

/-- **Up to six chunks the code builds the tree of BLAKE3.** -/
theorem messageCodeTree_eq {m : List UInt8} (h : m.length ≤ 6144) :
    messageCodeTree m = Spec.messageTree m :=
  codeTree_eq_tree (chunkAt m) (by unfold lastChunk; omega)

/-! ## Hashers -/

/-- After the complete chunks of `m` the stack has an entry for each 1-bit of their number, the hash of a
perfect tree, and `finalize` merges it to the hash of the specified tree. -/
structure StackIsTree (flags : UInt8) (m : List UInt8) (hasher : Blake3Hasher) : Prop where
  chunkCounter_eq : hasher.chunkCounter = UInt64.ofNat (lastChunk m)
  cvStackLen_eq : hasher.cvStackLen.toNat = popcount (lastChunk m)
  stored : Stored (codeMode flags) hasher.cvStack (perfectStack (chunkAt m) 0 (lastChunk m))
  finalCv_eq : finalCv hasher = (codeMode flags).hash (Spec.messageTree m)

theorem stackIsTree_of_le {flags : UInt8} {m : List UInt8} {self : Blake3Hasher}
    (h : Absorbed flags (chunkAt m) 0 self) (hempty : self.bufLen = 0) (hle : m.length ≤ 6144) :
    StackIsTree flags m (blake3HasherUpdate self m) := by
  obtain ⟨hcounter, hstack⟩ := (absorb_message flags m self h hempty).1
  have hfinal := (finalCv_message flags m self h hempty).1
  have hk : lastChunk m ≤ 5 := by
    unfold lastChunk
    omega
  rw [codeStack_eq_perfectStack (chunkAt m) hk] at hstack
  rw [messageCodeTree_eq hle] at hfinal
  exact ⟨hcounter, hstack.length_eq.trans (perfectStack_length _ _ _), hstack.stored, hfinal⟩

theorem not_stackIsTree_six {flags : UInt8} {m : List UInt8} {self : Blake3Hasher}
    (h : Absorbed flags (chunkAt m) 0 self) (hempty : self.bufLen = 0) (hlast : lastChunk m = 6) :
    ¬ StackIsTree flags m (blake3HasherUpdate self m) := by
  intro htree
  have hlen := (absorb_message flags m self h hempty).1.represents.length_eq
  have hsix : codeStack (chunkAt m) 6 = [pairTree (chunkAt m) 2] := codeStack_even (chunkAt m) 2
  have hbits : popcount 6 = 2 := by norm_num [popcount]
  rw [htree.cvStackLen_eq, hlast, hbits, hsix] at hlen
  cases hlen

/-- **The stack is that of the tree, at every moment of a run, exactly if the message is no longer than six
chunks.** The states a run passes through are those after the beginnings of its message, cut in any way. -/
theorem stackIsTree_iff (start : Start) (memory : Blake3Hasher) (m : List UInt8) :
    (∀ fragments : List (List UInt8), fragments.flatten <+: m →
      StackIsTree start.flags fragments.flatten (fragments.foldl blake3HasherUpdate (start.init memory))) ↔
      m.length ≤ 6144 := by
  constructor
  · intro h
    by_contra hgt
    have hlen : (m.take 6145).length = 6145 := by
      rw [List.length_take]
      omega
    have hcut : [m.take 6145].flatten = m.take 6145 := List.flatten_singleton
    have hpre : [m.take 6145].flatten <+: m := by
      rw [hcut]
      exact List.take_prefix _ _
    have htree := h [m.take 6145] hpre
    rw [foldl_update, hcut] at htree
    refine not_stackIsTree_six (start.absorbed _ memory) (start.bufLen memory) ?_ htree
    rw [lastChunk, hlen]
  · intro hle fragments hcut
    rw [foldl_update]
    exact stackIsTree_of_le (start.absorbed _ memory) (start.bufLen memory) (hcut.length_le.trans hle)

/-- Seven chunks, of which six are complete before the last byte. -/
theorem stack_not_tree : ¬ ∀ (start : Start) (memory : Blake3Hasher) (fragments : List (List UInt8)),
    StackIsTree start.flags fragments.flatten (fragments.foldl blake3HasherUpdate (start.init memory)) := by
  intro h
  have htree := h .plain uninitialised [List.replicate 6145 0]
  rw [foldl_update] at htree
  refine not_stackIsTree_six (Start.absorbed .plain _ uninitialised) rfl ?_ htree
  rw [List.flatten_singleton, lastChunk, List.length_replicate]

end ShardingSim.Blake3
