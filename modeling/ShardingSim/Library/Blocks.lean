import Mathlib.Tactic

/-! Cutting `0, .., total - 1` into consecutive blocks of one size, the last one clipped, and summing
counters that a run of steps increases one at a time. The blocks in order list every index once
(`flatMap_blocks`), so in any order they list a permutation of the indices. -/
namespace Blocks
set_option autoImplicit false

variable {α : Type*}

/-- The number of blocks: the quotient rounded up. -/
def blockCount (total size : ℕ) : ℕ := (total + size - 1) / size

def blockLength (total size b : ℕ) : ℕ := min size (total - b * size)

theorem lt_blockCount_iff {total size : ℕ} (hsize : 0 < size) (b : ℕ) :
    b < blockCount total size ↔ b * size < total := by
  have hiff := Nat.lt_div_iff_mul_lt (x := b) (y := total + size - 1) hsize
  rw [blockCount, hiff, Nat.mul_comm]
  omega

theorem blockLength_pos {total size b : ℕ} (hsize : 0 < size) (hb : b * size < total) :
    0 < blockLength total size b := by
  rw [blockLength]
  omega

theorem mem_block_iff (total : ℕ) {size : ℕ} (hsize : 0 < size) (b i : ℕ) :
    (b * size ≤ i ∧ i < b * size + blockLength total size b) ↔ i < total ∧ i / size = b := by
  have hquot : i / size = b ↔ b * size ≤ i ∧ i < (b + 1) * size := by
    rw [Nat.div_eq_iff hsize, Nat.succ_mul]
    omega
  rw [hquot, blockLength, Nat.succ_mul]
  omega

theorem flatMap_blocks_lt (f : ℕ → α) (total size n : ℕ) :
    (List.range n).flatMap (fun b => (List.range (blockLength total size b)).map fun j => f (b * size + j)) =
      (List.range (min (n * size) total)).map f := by
  induction n with
  | zero => simp
  | succ n ih =>
    have hsplit : min ((n + 1) * size) total = min (n * size) total + blockLength total size n := by
      rw [blockLength, Nat.succ_mul]
      omega
    rw [List.range_succ, List.flatMap_append, List.flatMap_singleton, ih, hsplit, List.range_add,
      List.map_append, List.map_map]
    congr 1
    refine List.map_congr_left fun j hj => ?_
    have hlt : j < blockLength total size n := List.mem_range.mp hj
    have hstart : min (n * size) total = n * size := by
      rw [blockLength] at hlt
      omega
    rw [Function.comp_apply, hstart]

/-- **The blocks in order list every index once.** -/
theorem flatMap_blocks (f : ℕ → α) {total size : ℕ} (hsize : 0 < size) :
    (List.range (blockCount total size)).flatMap
        (fun b => (List.range (blockLength total size b)).map fun j => f (b * size + j)) =
      (List.range total).map f := by
  have hcover : min (blockCount total size * size) total = total := by
    refine min_eq_right (Nat.not_lt.mp fun h => ?_)
    exact Nat.lt_irrefl _ ((lt_blockCount_iff hsize _).mpr h)
  rw [flatMap_blocks_lt, hcover]

theorem flatMap_blocks_perm (f : ℕ → α) {total size : ℕ} (hsize : 0 < size) {order : List ℕ}
    (h : order.Perm (List.range (blockCount total size))) :
    (order.flatMap
        fun b => (List.range (blockLength total size b)).map fun j => f (b * size + j)).Perm
      ((List.range total).map f) := by
  rw [← flatMap_blocks f hsize]
  exact h.flatMap_right _

theorem sum_blockLength {total size : ℕ} (hsize : 0 < size) {order : List ℕ}
    (h : order.Perm (List.range (blockCount total size))) :
    (order.map (blockLength total size)).sum = total := by
  have hlength := (flatMap_blocks_perm (fun i => i) hsize h).length_eq
  simpa [List.length_flatMap] using hlength

/-! ## Some of the blocks -/

section Some
variable {total size : ℕ} (hsize : 0 < size)
include hsize

theorem flatMap_blocks_subperm (f : ℕ → α) {order : List ℕ} (hnodup : order.Nodup)
    (hlt : ∀ b ∈ order, b < blockCount total size) :
    (order.flatMap fun b => (List.range (blockLength total size b)).map fun j => f (b * size + j)).Subperm
      ((List.range total).map f) := by
  have hsub : order ⊆ List.range (blockCount total size) := fun b hb => List.mem_range.mpr (hlt b hb)
  obtain ⟨l, hperm, hl⟩ := hnodup.subperm hsub
  rw [← flatMap_blocks f hsize]
  exact ((hperm.flatMap_right _).symm.subperm).trans (hl.flatMap _).subperm

theorem sum_blockLength_le {order : List ℕ} (hnodup : order.Nodup)
    (hlt : ∀ b ∈ order, b < blockCount total size) : (order.map (blockLength total size)).sum ≤ total := by
  have hlength := (flatMap_blocks_subperm hsize (fun i => i) hnodup hlt).length_le
  simpa [List.length_flatMap] using hlength

/-- Only the last block is shorter than the others. -/
theorem blockLength_le_add {a b : ℕ} (hb : b < blockCount total size) :
    blockLength total size a ≤ blockLength total size b + if b + 1 = blockCount total size then size - 1 else 0 := by
  have hlt := (lt_blockCount_iff hsize b).mp hb
  split
  · rw [blockLength, blockLength]
    omega
  · have hnext : (b + 1) * size < total := (lt_blockCount_iff hsize (b + 1)).mp (by omega)
    rw [Nat.succ_mul] at hnext
    rw [blockLength, blockLength]
    omega

/-- Exchanging blocks for others, each at most once, loses less than a block. -/
theorem sum_blockLength_exchange {pairs : List (ℕ × ℕ)} (hnodup : (pairs.map Prod.snd).Nodup)
    (hlt : ∀ p ∈ pairs, p.2 < blockCount total size) :
    (pairs.map fun p => blockLength total size p.1).sum ≤
      ((pairs.map Prod.snd).map (blockLength total size)).sum + (size - 1) := by
  have hlast : ∀ l : List ℕ, l.Nodup →
      (l.map fun b => if b + 1 = blockCount total size then size - 1 else 0).sum ≤ size - 1 := by
    intro l hl
    rw [← List.sum_toFinset _ hl, Finset.sum_ite, Finset.sum_const_zero, add_zero, Finset.sum_const, smul_eq_mul]
    have hcard : (l.toFinset.filter fun b => b + 1 = blockCount total size).card ≤ 1 := by
      rw [Finset.card_le_one]
      intro a ha b hb
      have ha' := (Finset.mem_filter.mp ha).2
      have hb' := (Finset.mem_filter.mp hb).2
      omega
    exact (Nat.mul_le_mul_right _ hcard).trans (Nat.one_mul _).le
  have hsum : ∀ l : List (ℕ × ℕ), (∀ p ∈ l, p.2 < blockCount total size) →
      (l.map fun p => blockLength total size p.1).sum ≤ ((l.map Prod.snd).map (blockLength total size)).sum +
        ((l.map Prod.snd).map fun b => if b + 1 = blockCount total size then size - 1 else 0).sum := by
    intro l
    induction l with
    | nil => exact fun _ => le_refl _
    | cons p l ih =>
      intro hl
      have hhead := blockLength_le_add hsize (a := p.1) (hl p List.mem_cons_self)
      have htail := ih fun q hq => hl q (List.mem_cons_of_mem _ hq)
      simp only [List.map_cons, List.sum_cons]
      omega
  have hbound := hlast _ hnodup
  have hall := hsum pairs hlt
  omega

theorem sum_blockLength_exchange_of_dvd {pairs : List (ℕ × ℕ)} (hdvd : size ∣ total)
    (hlt : ∀ p ∈ pairs, p.2 < blockCount total size) :
    (pairs.map fun p => blockLength total size p.1).sum ≤ ((pairs.map Prod.snd).map (blockLength total size)).sum := by
  rw [List.map_map]
  refine List.sum_le_sum fun p hp => ?_
  obtain ⟨n, rfl⟩ := hdvd
  have hstart := (lt_blockCount_iff hsize p.2).mp (hlt p hp)
  have hlast : p.2 < n := Nat.lt_of_mul_lt_mul_right ((Nat.mul_comm size n) ▸ hstart)
  have hfull := Nat.mul_le_mul_right size hlast
  rw [Nat.succ_mul, Nat.mul_comm n size] at hfull
  rw [Function.comp_apply, blockLength, blockLength]
  omega

end Some

theorem sum_map_le_of_subset {l l' : List ℕ} (f : ℕ → ℕ) (hnodup : l.Nodup) (hsub : l ⊆ l') :
    (l.map f).sum ≤ (l'.map f).sum := by
  obtain ⟨k, hperm, hk⟩ := hnodup.subperm hsub
  rw [← (hperm.map f).sum_eq]
  exact (hk.map f).sum_le_sum fun _ _ => Nat.zero_le _

/-! ## Counters -/

theorem sum_update (counter : ℕ → ℤ) {n t : ℕ} (ht : t < n) (d : ℤ) :
    ((List.range n).map (Function.update counter t (counter t + d))).sum =
      ((List.range n).map counter).sum + d := by
  have hbelow : ∀ m ≤ t, (List.range m).map (Function.update counter t (counter t + d)) =
      (List.range m).map counter := by
    intro m hm
    refine List.map_congr_left fun i hi => ?_
    have hne : i ≠ t := by
      have := List.mem_range.mp hi
      omega
    exact Function.update_of_ne hne _ _
  induction n with
  | zero => exact absurd ht (Nat.not_lt_zero t)
  | succ n ih =>
    rw [List.range_succ, List.map_append, List.map_append, List.sum_append, List.sum_append,
      List.map_singleton, List.map_singleton, List.sum_singleton, List.sum_singleton]
    by_cases hn : t = n
    · rw [← hn, hbelow t (le_refl t), Function.update_self]
      ring
    · have hne : n ≠ t := Ne.symm hn
      rw [ih (by omega), Function.update_of_ne hne]
      ring

end Blocks
