import ShardingSim.Blake3.MessageTree

/-! The mode adds no collisions of its own. The last block of a chunk, its other blocks, the parents and
the root are told apart by their flags, a block by its padded bytes and its length, so that equal
digests come from equal messages or from two distinct calls to `compress` with the same first eight words
(`blake3_collision`). -/
namespace ShardingSim.Blake3
open ByteBuffer HashTree LazyBuffer
set_option autoImplicit false

/-! ## Blocks -/

theorem padBlock_getElem (b : List UInt8) (i : ℕ) (hi : i < 64) : (padBlock b)[i] = b.getD i 0 := by
  rw [padBlock, Vector.getElem_ofFn]

theorem padBlock_injective {b c : List UInt8} (hb : b.length ≤ 64) (hlen : b.length = c.length)
    (h : padBlock b = padBlock c) : b = c := by
  refine List.ext_getElem hlen fun i h1 h2 => ?_
  have hi : i < 64 := by omega
  have hget : (padBlock b)[i] = (padBlock c)[i] := by rw [h]
  rw [padBlock_getElem b i hi, padBlock_getElem c i hi] at hget
  simpa [h1, h2] using hget

theorem storeCv_injective : Function.Injective storeCv := by
  intro v w h
  refine Vector.ext fun i hi => store32Le_injective (List.ext_getElem? fun j => ?_)
  by_cases hj : j < 4
  · have hv : ∀ u : Cv, (storeCv u)[i * 4 + j]? = (store32Le u[i])[j]? := by
      intro u
      rw [storeCv, getElem?_flatMap_length store32Le 4 store32Le_length _ i j (by simpa using hi) hj,
        Vector.getElem_toList]
    rw [← hv v, ← hv w, h]
  · rw [List.getElem?_eq_none (by simpa using hj), List.getElem?_eq_none (by simpa using hj)]

theorem blockInput_injective (counter : UInt64) {v v' : Cv} {b b' : List UInt8} {f l f' l' : Bool}
    (hb : b.length ≤ 64) (hb' : b'.length ≤ 64)
    (h : Spec.blockInput counter 0 v b f l = Spec.blockInput counter 0 v' b' f' l') :
    v = v' ∧ b = b' ∧ f = f' ∧ l = l' := by
  simp only [Spec.blockInput, CompressInput.mk.injEq, true_and] at h
  obtain ⟨hv, hpad, hlen, hflags⟩ := h
  have hlength : b.length = b'.length := by
    have hnat := congrArg UInt8.toNat hlen
    rw [UInt8.toNat_ofNat', UInt8.toNat_ofNat', Nat.mod_eq_of_lt (by omega),
      Nat.mod_eq_of_lt (by omega)] at hnat
    exact hnat
  have hbits : f = f' ∧ l = l' := by
    revert hflags
    cases f <;> cases f' <;> cases l <;> cases l' <;> decide
  exact ⟨hv, padBlock_injective hb hlength hpad, hbits⟩

/-! ## Chunks as chains -/

section Chain
variable (counter : UInt64)

def chunkCv (blocks : List (List UInt8)) : Cv :=
  absorb compressCv (Spec.blockInput counter 0) iv blocks

/-- A chunk is a chain over its 64-byte pieces: its last call closes the chain, and its calls contain
those of the chain. -/
theorem chunkNode_chain (bytes : List UInt8) (before : List (List UInt8)) (b : List UInt8)
    (bs : List (List UInt8)) (hb : (pieces 64 bytes).reverse ++ before = b :: bs) :
    Spec.chunkNode compress counter 0 before.isEmpty (chunkCv counter before) bytes =
        closing compressCv (Spec.blockInput counter 0) iv b bs ∧
      chainCalls compressCv (Spec.blockInput counter 0) iv b bs ⊆
        absorbCalls compressCv (Spec.blockInput counter 0) iv before ++
          Spec.chunkCalls compress counter 0 before.isEmpty (chunkCv counter before) bytes := by
  induction hn : bytes.length using Nat.strong_induction_on generalizing bytes before with
  | _ n ih =>
    subst hn
    by_cases hle : bytes.length ≤ 64
    · rw [pieces_of_le hle, List.reverse_singleton, List.singleton_append, List.cons.injEq] at hb
      obtain ⟨rfl, rfl⟩ := hb
      rw [Spec.chunkNode_of_le _ hle, Spec.chunkCalls_of_le _ hle, chainCalls]
      refine ⟨rfl, fun x hx => ?_⟩
      rcases List.mem_cons.mp hx with rfl | hx
      · exact List.mem_append_right _ (List.mem_singleton_self _)
      · exact List.mem_append_left _ hx
    · have hgt : 64 < bytes.length := by omega
      rw [pieces_of_gt (by decide) hgt, List.reverse_cons, List.append_assoc, List.singleton_append] at hb
      have hnext := ih (bytes.drop 64).length (by rw [List.length_drop]; omega) (bytes.drop 64)
        (bytes.take 64 :: before) hb rfl
      rw [Spec.chunkNode_of_gt _ hgt, Spec.chunkCalls_of_gt _ hgt]
      refine ⟨hnext.1, fun x hx => ?_⟩
      have hin := hnext.2 hx
      simp only [absorbCalls, List.mem_append, List.mem_cons] at hin ⊢
      rcases hin with (rfl | hin) | hin
      · exact Or.inr (Or.inl rfl)
      · exact Or.inl hin
      · exact Or.inr (Or.inr hin)

theorem chunkNode_counter (first : Bool) (cv : Cv) (bytes : List UInt8) :
    (Spec.chunkNode compress counter 0 first cv bytes).counter = counter := by
  induction first, cv, bytes using Spec.chunkNode.induct compress counter 0 with
  | case1 first cv bytes h =>
    rw [Spec.chunkNode_of_le _ h]
    rfl
  | case2 first cv bytes h ih => rwa [Spec.chunkNode_of_gt _ (by omega)]

theorem chunkNode_flags (first : Bool) (cv : Cv) (bytes : List UInt8) :
    ∃ f : Bool, (Spec.chunkNode compress counter 0 first cv bytes).flags =
      0 ||| (if f then Flag.chunkStart else 0) ||| Flag.chunkEnd := by
  induction first, cv, bytes using Spec.chunkNode.induct compress counter 0 with
  | case1 first cv bytes h =>
    rw [Spec.chunkNode_of_le _ h]
    exact ⟨first, rfl⟩
  | case2 first cv bytes h ih => rwa [Spec.chunkNode_of_gt _ (by omega)]

end Chain

/-- Chunks with the same chaining value have the same bytes, or their calls collide: calls with
different counters differ, and with one counter the two chunks are chains. -/
theorem leaf_injective (a b : Chunk) (h : (codeMode 0).compress ((codeMode 0).leafInput a) =
      (codeMode 0).compress ((codeMode 0).leafInput b)) :
    a.bytes = b.bytes ∨
      Collision (codeMode 0).compress ((codeMode 0).leafCalls a) ((codeMode 0).leafCalls b) := by
  by_cases hcounter : a.counter = b.counter
  · obtain ⟨counter, as, has⟩ := a
    obtain ⟨counter', bs, hbs⟩ := b
    obtain rfl : counter = counter' := hcounter
    have hcons : ∀ bytes : List UInt8, ∃ x xs, (pieces 64 bytes).reverse ++ [] = x :: xs := by
      intro bytes
      rw [List.append_nil]
      exact List.exists_cons_of_ne_nil (by simpa using pieces_ne_nil 64 bytes)
    have hle : ∀ (bytes x : List UInt8) (xs : List (List UInt8)),
        (pieces 64 bytes).reverse ++ [] = x :: xs → ∀ y ∈ x :: xs, y.length ≤ 64 := by
      intro bytes x xs hx y hy
      rw [← hx, List.append_nil, List.mem_reverse] at hy
      exact length_le_of_mem_pieces (by decide) hy
    obtain ⟨x, xs, hx⟩ := hcons as
    obtain ⟨y, ys, hy⟩ := hcons bs
    have hchain := chunkNode_chain counter as [] x xs hx
    have hchain' := chunkNode_chain counter bs [] y ys hy
    have hvalue : compressCv (closing compressCv (Spec.blockInput counter 0) iv x xs) =
        compressCv (closing compressCv (Spec.blockInput counter 0) iv y ys) := by
      rw [← hchain.1, ← hchain'.1]
      exact h
    rcases chain_injective (P := fun c => c.length ≤ 64)
        (fun v c f l v' c' f' l' hc hc' => blockInput_injective counter hc hc')
        (hle as x xs hx) (hle bs y ys hy) hvalue with heq | hcol
    · rw [← hx, ← hy, List.append_nil, List.append_nil] at heq
      exact Or.inl (pieces_injective 64 (List.reverse_injective heq))
    · exact Or.inr (hcol.mono hchain.2 hchain'.2)
  · refine Or.inr ⟨_, (codeMode 0).leafInput_mem a, _, (codeMode 0).leafInput_mem b, fun he => ?_, h⟩
    have hsame := congrArg CompressInput.counter he
    exact hcounter (by rwa [codeMode, Spec.mode, chunkNode_counter, chunkNode_counter] at hsame)

/-! ## Trees and digests -/

theorem parentNode_injective {l r l' r' : Cv} (h : Spec.parentNode iv 0 l r = Spec.parentNode iv 0 l' r') :
    l = l' ∧ r = r' := by
  have hpad := congrArg CompressInput.block h
  have hlen : ∀ u v : Cv, (storeCv u ++ storeCv v).length = 64 := by
    intro u v
    rw [List.length_append, storeCv_length, storeCv_length]
  have hbytes := padBlock_injective (hlen l r).le ((hlen l r).trans (hlen l' r').symm) hpad
  have hparts := List.append_inj hbytes ((storeCv_length l).trans (storeCv_length l').symm)
  exact ⟨storeCv_injective hparts.1, storeCv_injective hparts.2⟩

theorem codeMode_separated : (codeMode 0).Separated Chunk.bytes where
  node_injective := fun _ _ _ _ => parentNode_injective
  leaf_ne_node := by
    intro c l r h
    obtain ⟨f, hf⟩ := chunkNode_flags c.counter true iv c.bytes
    have hflags : (Spec.chunkNode compress c.counter 0 true iv c.bytes).flags = 0 ||| Flag.parent :=
      congrArg CompressInput.flags h
    rw [hf] at hflags
    revert hflags
    cases f <;> decide
  leaf_injective := leaf_injective

theorem firstWords_of_bytes {w w' : Vector UInt32 16}
    (h : (List.range 32).map (wordsByte w) = (List.range 32).map (wordsByte w')) :
    firstWords w = firstWords w' := by
  have hbyte : ∀ j < 32, wordsByte w j = wordsByte w' j := fun j hj =>
    List.map_inj_left.mp h j (List.mem_range.mpr hj)
  refine Vector.ext fun i hi => store32Le_injective ?_
  have hword : ∀ u : Vector UInt32 16, store32Le (firstWords u)[i] =
      [wordsByte u (4 * i), wordsByte u (4 * i + 1), wordsByte u (4 * i + 2), wordsByte u (4 * i + 3)] := by
    intro u
    interval_cases i <;> simp [store32Le, firstWords, wordsByte]
  rw [hword, hword, hbyte _ (by omega), hbyte _ (by omega), hbyte _ (by omega), hbyte _ (by omega)]

theorem flatten_chunks (m : List UInt8) :
    ((List.range (chunkCount m)).map fun i => (chunkAt m i).bytes).flatten = m := by
  have htake : ∀ k, ((List.range k).map fun i => (chunkAt m i).bytes).flatten = m.take (1024 * k) := by
    intro k
    induction k with
    | zero => rfl
    | succ k ih =>
      rw [List.range_succ, List.map_append, List.flatten_append, ih, Nat.mul_succ, List.take_add]
      simp [chunkAt]
  rw [htake, List.take_of_length_le]
  unfold chunkCount
  omega

theorem blake3_calls (m : List UInt8) :
    rootInput 0 ((codeMode 0).hash (messageCodeTree m)) ∈ blake3Calls m ∧
      (codeMode 0).calls (messageCodeTree m) ⊆ blake3Calls m ∧
      blake3 m = (List.range 32).map (wordsByte
        (compress (rootInput 0 ((codeMode 0).hash (messageCodeTree m))))) := by
  have hinit := absorbed_init (chunkAt m) uninitialised
  have hcv := finalCv_message 0 m _ hinit rfl
  have hflags := (absorb_message 0 m _ hinit rfl).1.represents.flags_eq
  refine ⟨?_, hcv.2, finalize_message 0 m _ 32 hinit rfl⟩
  rw [blake3Calls, blake3HasherFinalizeCalls, hcv.1, hflags]
  exact List.mem_append_right _ (List.mem_append_right _ (List.mem_singleton_self _))

/-- **Equal digests of distinct messages are a collision of `compress`** between a call made for the one
and a call made for the other. -/
theorem blake3_collision (m₁ m₂ : List UInt8) :
    blake3 m₁ ≠ blake3 m₂ ∨ m₁ = m₂ ∨ ∃ c₁ ∈ blake3Calls m₁, ∃ c₂ ∈ blake3Calls m₂,
      c₁ ≠ c₂ ∧ firstWords (compress c₁) = firstWords (compress c₂) := by
  by_cases hdigest : blake3 m₁ = blake3 m₂
  · obtain ⟨hroot₁, hcalls₁, hout₁⟩ := blake3_calls m₁
    obtain ⟨hroot₂, hcalls₂, hout₂⟩ := blake3_calls m₂
    have hwords := firstWords_of_bytes (hout₁.symm.trans (hdigest.trans hout₂))
    refine Or.inr ?_
    rcases eq_or_collision (F := compressCv) hwords hroot₁ hroot₂ with heq | hcol
    · have hpad := congrArg CompressInput.block heq
      rw [rootInput, rootInput, write_replicate, write_replicate] at hpad
      have hstore := padBlock_injective ((storeCv_length _).trans_le (by decide))
        ((storeCv_length _).trans (storeCv_length _).symm) hpad
      rcases (codeMode 0).leaves_injective codeMode_separated _ _ (storeCv_injective hstore) with hleaves | hcol
      · rw [leaves_messageCodeTree, leaves_messageCodeTree, List.map_map, List.map_map] at hleaves
        exact Or.inl ((flatten_chunks m₁).symm.trans ((congrArg List.flatten hleaves).trans
          (flatten_chunks m₂)))
      · exact Or.inr (hcol.mono hcalls₁ hcalls₂)
    · exact Or.inr hcol
  · exact Or.inl hdigest

end ShardingSim.Blake3
