import Mathlib.Tactic

/-! Lazily flushed buffers. A buffer of fixed capacity is flushed only when an element arrives
while it is full, so a full buffer can stay unflushed at the end of the input. `feed` is the block
copying loop over such a buffer. Cutting the input anywhere gives the same final state
(`feed_append`), and from an empty buffer the loop works on the input capacity by capacity
(`feed_of_le`, `feed_of_gt`), the last piece staying in the buffer. -/
namespace LazyBuffer
set_option autoImplicit false

/-! ## Cutting a list into pieces -/

/-- The consecutive pieces of length `n` of a list; the last piece is the shorter rest, which is
empty for the empty list only. -/
def pieces {α : Type*} (n : ℕ) (xs : List α) : List (List α) :=
  if _h : 0 < n ∧ n < xs.length then xs.take n :: pieces n (xs.drop n) else [xs]
termination_by xs.length
decreasing_by simp only [List.length_drop]; omega

theorem pieces_of_le {α : Type*} {n : ℕ} {xs : List α} (h : xs.length ≤ n) : pieces n xs = [xs] := by
  rw [pieces, dif_neg (by omega)]

theorem pieces_of_gt {α : Type*} {n : ℕ} {xs : List α} (hn : 0 < n) (h : n < xs.length) :
    pieces n xs = xs.take n :: pieces n (xs.drop n) := by
  rw [pieces, dif_pos ⟨hn, h⟩]

theorem pieces_ne_nil {α : Type*} (n : ℕ) (xs : List α) : pieces n xs ≠ [] := by
  rw [pieces]
  split <;> simp

@[simp] theorem pieces_flatten {α : Type*} (n : ℕ) (xs : List α) : (pieces n xs).flatten = xs := by
  induction xs using pieces.induct n with
  | case1 xs h ih => rw [pieces_of_gt h.1 h.2, List.flatten_cons, ih, List.take_append_drop]
  | case2 xs h => rw [pieces, dif_neg h]; simp

theorem length_le_of_mem_pieces {α : Type*} {n : ℕ} (hn : 0 < n) {xs p : List α} (h : p ∈ pieces n xs) :
    p.length ≤ n := by
  induction xs using pieces.induct n with
  | case1 xs hgt ih =>
    rw [pieces_of_gt hgt.1 hgt.2] at h
    cases h with
    | head => exact List.length_take_le _ _
    | tail _ h => exact ih h
  | case2 xs hle =>
    rw [pieces, dif_neg hle] at h
    have hlen : xs.length ≤ n := by omega
    rwa [List.mem_singleton.mp h]

theorem pieces_injective {α : Type*} (n : ℕ) : Function.Injective (pieces (α := α) n) := by
  intro xs ys h
  rw [← pieces_flatten n xs, h, pieces_flatten]

end LazyBuffer

/-- A buffer with its operations: `put` copies as much of a list behind the buffered elements as
there is room for, `flush` empties the buffer into the rest of the state. -/
structure LazyBuffer (σ α : Type*) where
  cap : ℕ
  cap_pos : 0 < cap
  len : σ → ℕ
  len_le : ∀ s, len s ≤ cap
  flush : σ → σ
  len_flush : ∀ s, len (flush s) = 0
  put : σ → List α → σ
  len_put : ∀ s xs, len (put s xs) = len s + min xs.length (cap - len s)
  put_nil : ∀ s, put s [] = s
  put_take : ∀ s xs, put s (xs.take (cap - len s)) = put s xs
  put_put : ∀ s xs ys, xs.length ≤ cap - len s → put (put s xs) ys = put s (xs ++ ys)

namespace LazyBuffer
variable {σ α : Type*} (B : LazyBuffer σ α)

/-! ## The loop -/

/-- The state in which the loop body copies: a full buffer is flushed first. -/
def ready (s : σ) : σ := if B.len s = B.cap then B.flush s else s

theorem len_ready_lt (s : σ) : B.len (B.ready s) < B.cap := by
  have hpos := B.cap_pos
  have hle := B.len_le s
  unfold ready
  split
  · rw [B.len_flush]; exact hpos
  · omega

theorem ready_of_lt {s : σ} (h : B.len s < B.cap) : B.ready s = s := by
  rw [ready, if_neg (by omega)]

/-- `while (len > 0) { if (full) flush; take = min(len, room); copy take; }` -/
def feed (s : σ) (input : List α) : σ :=
  if input = [] then s
  else feed (B.put (B.ready s) input) (input.drop (min input.length (B.cap - B.len (B.ready s))))
termination_by input.length
decreasing_by
  have hlt := B.len_ready_lt s
  have hpos : 0 < input.length := List.length_pos_iff.mpr (by assumption)
  simp only [List.length_drop]
  omega

def flushes (s : σ) (input : List α) : List σ :=
  if input = [] then []
  else (if B.len s = B.cap then [s] else []) ++
    flushes (B.put (B.ready s) input) (input.drop (min input.length (B.cap - B.len (B.ready s))))
termination_by input.length
decreasing_by
  have hlt := B.len_ready_lt s
  have hpos : 0 < input.length := List.length_pos_iff.mpr (by assumption)
  simp only [List.length_drop]
  omega

@[simp] theorem feed_nil (s : σ) : B.feed s [] = s := by rw [feed, if_pos rfl]

@[simp] theorem flushes_nil (s : σ) : B.flushes s [] = [] := by rw [flushes, if_pos rfl]

theorem feed_step (s : σ) {input : List α} (h : input ≠ []) :
    B.feed s input =
      B.feed (B.put (B.ready s) input) (input.drop (min input.length (B.cap - B.len (B.ready s)))) := by
  rw [feed, if_neg h]

theorem flushes_step (s : σ) {input : List α} (h : input ≠ []) :
    B.flushes s input = (if B.len s = B.cap then [s] else []) ++
      B.flushes (B.put (B.ready s) input)
        (input.drop (min input.length (B.cap - B.len (B.ready s)))) := by
  rw [flushes, if_neg h]

/-! ## Cutting the input -/

theorem feed_of_fits (s : σ) {xs : List α} (hne : xs ≠ [])
    (hfit : xs.length ≤ B.cap - B.len (B.ready s)) : B.feed s xs = B.put (B.ready s) xs := by
  rw [B.feed_step s hne, min_eq_left hfit, List.drop_length, feed_nil]

theorem feed_append_of_fills (s : σ) {xs ys : List α}
    (hfill : xs.length = B.cap - B.len (B.ready s)) :
    B.feed s (xs ++ ys) = B.feed (B.put (B.ready s) xs) ys := by
  have hlt := B.len_ready_lt s
  have hne : xs ++ ys ≠ [] := by
    intro h
    have := congrArg List.length h
    simp only [List.length_append, List.length_nil] at this
    omega
  have hput : B.put (B.ready s) (xs ++ ys) = B.put (B.ready s) xs := by
    rw [← B.put_take, ← hfill, List.take_left]
  rw [B.feed_step s hne, hput, ← hfill, List.length_append, min_eq_right (by omega), List.drop_left]

theorem feed_append_of_fits (s : σ) {xs : List α} (ys : List α) (hne : xs ≠ [])
    (hfit : xs.length ≤ B.cap - B.len (B.ready s)) :
    B.feed s (xs ++ ys) = B.feed (B.put (B.ready s) xs) ys := by
  by_cases hfill : xs.length = B.cap - B.len (B.ready s)
  · exact B.feed_append_of_fills s hfill
  · by_cases hys : ys = []
    · subst hys
      rw [List.append_nil, feed_nil, B.feed_of_fits s hne hfit]
    · have hlt := B.len_ready_lt s
      have hlen : B.len (B.put (B.ready s) xs) = B.len (B.ready s) + xs.length := by
        rw [B.len_put, min_eq_left hfit]
      have hready : B.ready (B.put (B.ready s) xs) = B.put (B.ready s) xs :=
        B.ready_of_lt (by omega)
      rw [B.feed_step s (by simp [hne]), B.feed_step _ hys, hready, hlen, B.put_put _ _ _ hfit]
      congr 1
      have hmin : min (xs ++ ys).length (B.cap - B.len (B.ready s)) =
          xs.length + min ys.length (B.cap - (B.len (B.ready s) + xs.length)) := by
        rw [List.length_append]; omega
      rw [hmin, List.drop_append]
      simp

/-- **Feeding a list in two parts is feeding it at once.** -/
theorem feed_append (s : σ) (xs ys : List α) : B.feed (B.feed s xs) ys = B.feed s (xs ++ ys) := by
  induction s, xs using feed.induct B with
  | case1 s => simp
  | case2 s xs hne ih =>
    by_cases hfit : xs.length ≤ B.cap - B.len (B.ready s)
    · rw [B.feed_of_fits s hne hfit, B.feed_append_of_fits s ys hne hfit]
    · -- the first pass fills the buffer from `xs` alone
      have hroom : min xs.length (B.cap - B.len (B.ready s)) = B.cap - B.len (B.ready s) := by omega
      have hsplit : xs ++ ys = xs.take (B.cap - B.len (B.ready s)) ++
          (xs.drop (B.cap - B.len (B.ready s)) ++ ys) := by
        rw [← List.append_assoc, List.take_append_drop]
      rw [B.feed_step s hne, ih, hroom, hsplit, B.feed_append_of_fills s (by simp; omega), B.put_take]

theorem foldl_feed (s : σ) (parts : List (List α)) :
    parts.foldl B.feed s = B.feed s parts.flatten := by
  induction parts generalizing s with
  | nil => simp
  | cons xs parts ih => rw [List.foldl_cons, ih, List.flatten_cons, B.feed_append]

/-! ## Invariants -/

/-- One pass of the loop, on the state and the input that is left. -/
def pass (p : σ × List α) : σ × List α :=
  (B.put (B.ready p.1) p.2, p.2.drop (min p.2.length (B.cap - B.len (B.ready p.1))))

/-- The states inside the loop, before and after the copy of each pass. -/
def states (s : σ) (input : List α) : List σ :=
  if input = [] then []
  else B.ready s :: B.put (B.ready s) input ::
    states (B.put (B.ready s) input) (input.drop (min input.length (B.cap - B.len (B.ready s))))
termination_by input.length
decreasing_by
  have hlt := B.len_ready_lt s
  have hpos : 0 < input.length := List.length_pos_iff.mpr (by assumption)
  simp only [List.length_drop]
  omega

/-- **The loop ends**, after as many passes as there are elements at most. -/
theorem exists_iterate_pass (s : σ) (input : List α) :
    ∃ k ≤ input.length, B.pass^[k] (s, input) = (B.feed s input, []) := by
  induction s, input using feed.induct B with
  | case1 s => exact ⟨0, le_refl 0, by rw [feed_nil]; rfl⟩
  | case2 s input hne ih =>
    obtain ⟨k, hk, hrest⟩ := ih
    have hlt := B.len_ready_lt s
    have hpos := List.length_pos_iff.mpr hne
    rw [List.length_drop] at hk
    refine ⟨k + 1, by omega, ?_⟩
    rw [Function.iterate_succ_apply, B.feed_step s hne]
    exact hrest

section Invariant
variable {B} {I : ℕ → σ → Prop}
  (hready : ∀ n s, 0 < n → B.len s = B.cap → I n s → I n (B.flush s))
  (hput : ∀ s input, 0 < input.length → B.len s < B.cap → I input.length s →
    I (input.length - min input.length (B.cap - B.len s)) (B.put s input))
include hready hput

/-- **The rule for the loop.** `I n` is an invariant of the states with `n` elements still to come: it holds
inside the loop, where the buffer is flushed with more to come, and after it. -/
theorem feed_invariant {s : σ} {input : List α} (h : I input.length s) :
    I 0 (B.feed s input) ∧ (∀ s' ∈ B.states s input, ∃ n, I n s') ∧
      ∀ s' ∈ B.flushes s input, B.len s' = B.cap ∧ ∃ n, 0 < n ∧ I n s' := by
  induction s, input using feed.induct B with
  | case1 s =>
    rw [feed_nil, states, if_pos rfl, flushes_nil]
    exact ⟨h, fun s' hs' => absurd hs' List.not_mem_nil, fun s' hs' => absurd hs' List.not_mem_nil⟩
  | case2 s input hne ih =>
    have hpos := List.length_pos_iff.mpr hne
    have hI : I input.length (B.ready s) := by
      unfold ready
      split
      · rename_i hfull
        exact hready _ s hpos hfull h
      · exact h
    have hnext := hput (B.ready s) input hpos (B.len_ready_lt s) hI
    rw [← List.length_drop] at hnext
    obtain ⟨hfinal, hstates, hflushes⟩ := ih hnext
    rw [B.feed_step s hne, states, if_neg hne, B.flushes_step s hne]
    refine ⟨hfinal, ?_, ?_⟩
    · intro s' hs'
      rcases List.mem_cons.mp hs' with rfl | hs'
      · exact ⟨_, hI⟩
      · rcases List.mem_cons.mp hs' with rfl | hs'
        · exact ⟨_, hnext⟩
        · exact hstates s' hs'
    · intro s' hs'
      rcases List.mem_append.mp hs' with hs' | hs'
      · split at hs'
        · rename_i hfull
          rw [List.mem_singleton.mp hs']
          exact ⟨hfull, _, hpos, h⟩
        · exact absurd hs' List.not_mem_nil
      · exact hflushes s' hs'

end Invariant

/-! ## From an empty buffer -/

theorem feed_of_le {s : σ} {xs : List α} (h0 : B.len s = 0) (h : xs.length ≤ B.cap) :
    B.feed s xs = B.put s xs := by
  have hpos := B.cap_pos
  by_cases hne : xs = []
  · rw [hne, feed_nil, B.put_nil]
  · have hready : B.ready s = s := B.ready_of_lt (by omega)
    rw [B.feed_of_fits s hne (by rw [hready]; omega), hready]

theorem feed_of_gt {s : σ} {xs : List α} (h0 : B.len s = 0) (h : B.cap < xs.length) :
    B.feed s xs = B.feed (B.flush (B.put s (xs.take B.cap))) (xs.drop B.cap) := by
  have hpos := B.cap_pos
  have hready : B.ready s = s := B.ready_of_lt (by omega)
  have hlen : B.len (B.put s (xs.take B.cap)) = B.cap := by
    rw [B.len_put, List.length_take]; omega
  have hfull : B.ready (B.put s (xs.take B.cap)) = B.flush (B.put s (xs.take B.cap)) := by
    rw [ready, if_pos hlen]
  have hempty : B.ready (B.flush (B.put s (xs.take B.cap))) = B.flush (B.put s (xs.take B.cap)) :=
    B.ready_of_lt (by rw [B.len_flush]; exact hpos)
  have hdrop : xs.drop B.cap ≠ [] := by simp; omega
  calc B.feed s xs = B.feed s (xs.take B.cap ++ xs.drop B.cap) := by rw [List.take_append_drop]
    _ = B.feed (B.put s (xs.take B.cap)) (xs.drop B.cap) := by
        rw [B.feed_append_of_fills s (by rw [hready, List.length_take]; omega), hready]
    _ = B.feed (B.flush (B.put s (xs.take B.cap))) (xs.drop B.cap) := by
        rw [B.feed_step _ hdrop, B.feed_step (B.flush _) hdrop, hfull, hempty]

theorem flushes_of_le {s : σ} {xs : List α} (h0 : B.len s = 0) (h : xs.length ≤ B.cap) :
    B.flushes s xs = [] := by
  have hpos := B.cap_pos
  by_cases hne : xs = []
  · rw [hne, flushes_nil]
  · have hready : B.ready s = s := B.ready_of_lt (by omega)
    rw [B.flushes_step s hne, if_neg (by omega), hready, h0, min_eq_left (by omega), List.drop_length,
      flushes_nil, List.append_nil]

theorem flushes_of_gt {s : σ} {xs : List α} (h0 : B.len s = 0) (h : B.cap < xs.length) :
    B.flushes s xs = B.put s (xs.take B.cap) ::
      B.flushes (B.flush (B.put s (xs.take B.cap))) (xs.drop B.cap) := by
  have hpos := B.cap_pos
  have hne : xs ≠ [] := by intro hx; rw [hx] at h; simp at h
  have hready : B.ready s = s := B.ready_of_lt (by omega)
  have hput : B.put s (xs.take B.cap) = B.put s xs := by
    have := B.put_take s xs
    rwa [h0, Nat.sub_zero] at this
  have hlen : B.len (B.put s xs) = B.cap := by rw [B.len_put]; omega
  have hdrop : xs.drop B.cap ≠ [] := by simp; omega
  have hempty : B.ready (B.flush (B.put s xs)) = B.flush (B.put s xs) :=
    B.ready_of_lt (by rw [B.len_flush]; exact hpos)
  have hfull : B.ready (B.put s xs) = B.flush (B.put s xs) := by rw [ready, if_pos hlen]
  rw [hput, B.flushes_step s hne, if_neg (by omega), hready, h0, Nat.sub_zero,
    min_eq_right (by omega), B.flushes_step _ hdrop, if_pos hlen, hfull,
    B.flushes_step (B.flush _) hdrop, if_neg (by rw [B.len_flush]; omega), hempty]
  simp

end LazyBuffer
