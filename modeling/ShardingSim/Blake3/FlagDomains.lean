import ShardingSim.Blake3.KeyedHash

/-! The flags of the calls to `compress`. All calls of a hasher carry its mode, only the last one carries `ROOT`, and
what else they carry says whether they are made for a chunk or a parent. So the call behind a digest never computes a
chaining value of another, and a keyed hasher shares no call with a plain one (`flags_separate`). -/
namespace ShardingSim.Blake3
open HashTree LazyBuffer
set_option autoImplicit false

/-- The calls that a hasher makes for fragments of a message and its digest. -/
def hasherCalls (self : Blake3Hasher) : List (List UInt8) → List CompressInput
  | [] => blake3HasherFinalizeCalls self
  | input :: rest => blake3HasherUpdateCalls self input ++ hasherCalls (blake3HasherUpdate self input) rest

/-- The digest of these fragments. -/
def hasherDigest (self : Blake3Hasher) (fragments : List (List UInt8)) (n : ℕ) : List UInt8 :=
  blake3HasherFinalize (fragments.foldl blake3HasherUpdate self) n

/-- The flags of a call for a block of a chunk, or for a parent. -/
def innerFlags : List UInt8 :=
  [0, Flag.chunkStart, Flag.chunkEnd, Flag.chunkStart ||| Flag.chunkEnd, Flag.parent]

def IsInner (flags : UInt8) (c : CompressInput) : Prop := ∃ kind ∈ innerFlags, c.flags = flags ||| kind

/-! ## Chunks -/

section Chunk
variable (s : ChunkState)

theorem isInner_block : IsInner s.flags (chunkStateBlock s) := by
  refine ⟨chunkStateStartFlag s, ?_, rfl⟩
  unfold chunkStateStartFlag
  split <;> decide

theorem isInner_output : IsInner s.flags (chunkStateOutputInput s) := by
  refine ⟨chunkStateStartFlag s ||| Flag.chunkEnd, ?_, UInt8.or_assoc _ _ _⟩
  unfold chunkStateStartFlag
  split <;> decide

theorem flags_chunkStateUpdate (bytes : List UInt8) : (chunkStateUpdate s bytes).flags = s.flags ∧
    ∀ c ∈ chunkStateUpdateCalls s bytes, IsInner s.flags c := by
  have hrun := @feed_invariant _ _ chunkBuffer (fun _ cs => cs.flags = s.flags) (fun _ _ _ _ h => h)
    (fun _ _ _ _ h => h) s bytes rfl
  refine ⟨hrun.1, fun c hc => ?_⟩
  obtain ⟨cs, hcs, rfl⟩ := List.mem_map.mp hc
  obtain ⟨-, -, -, hflags⟩ := hrun.2.2 cs hcs
  exact hflags ▸ isInner_block cs

end Chunk

/-! ## Hashers -/

section Hasher
variable (self : Blake3Hasher)

theorem isInner_bufferedChunk (len : ℕ) {c : CompressInput} (hc : c ∈ bufferedChunkCalls self len) :
    IsInner self.flags c := by
  obtain ⟨hflags, hcalls⟩ := flags_chunkStateUpdate (chunkStateInit iv self.chunkCounter self.flags)
    (self.chunkBuf.toList.take len)
  rcases List.mem_append.mp hc with hc | hc
  · exact hcalls c hc
  · rw [List.mem_singleton.mp hc]
    have houtput := isInner_output (bufferedChunk self len)
    rwa [show (bufferedChunk self len).flags = self.flags from hflags] at houtput

theorem isInner_parent (left right key : Cv) (flags : UInt8) : IsInner flags (parentInput left right key flags) :=
  ⟨Flag.parent, by decide, rfl⟩

theorem isInner_addChunkCv (newCv : Cv) (chunkCounter : UInt64) {c : CompressInput}
    (hc : c ∈ addChunkCvCalls self newCv chunkCounter) : IsInner self.flags c := by
  induction self, newCv using addChunkCv.induct chunkCounter with
  | case1 self newCv h ih =>
    rw [addChunkCvCalls, dif_pos h, List.mem_cons] at hc
    rcases hc with rfl | hc
    · exact isInner_parent _ _ _ _
    · exact ih hc
  | case2 self newCv h =>
    rw [addChunkCvCalls, dif_neg h] at hc
    exact absurd hc List.not_mem_nil

theorem isInner_mergeStack (finalCv : Cv) {c : CompressInput} (hc : c ∈ mergeStackCalls self finalCv) :
    IsInner self.flags c := by
  induction self, finalCv using mergeStack.induct with
  | case1 self finalCv h ih =>
    rw [mergeStackCalls, dif_pos h, List.mem_cons] at hc
    rcases hc with rfl | hc
    · exact isInner_parent _ _ _ _
    · exact ih hc
  | case2 self finalCv h =>
    rw [mergeStackCalls, dif_neg h] at hc
    exact absurd hc List.not_mem_nil

theorem flags_flushChunk : (flushChunk self).flags = self.flags := by
  show (addChunkCv self _ _).flags = self.flags
  rw [addChunkCv_eq_setStack, setStack_flags]

theorem flags_update (input : List UInt8) : (blake3HasherUpdate self input).flags = self.flags ∧
    ∀ c ∈ blake3HasherUpdateCalls self input, IsInner self.flags c := by
  have hrun := @feed_invariant _ _ hasherBuffer (fun _ s => s.flags = self.flags)
    (fun _ s _ _ h => (flags_flushChunk s).trans h) (fun s _ _ _ h => (hasherCopy_flags s _).trans h) self input rfl
  refine ⟨hrun.1, fun c hc => ?_⟩
  obtain ⟨s, hs, hc⟩ := List.mem_flatMap.mp hc
  obtain ⟨-, -, -, hflags⟩ := hrun.2.2 s hs
  rw [← hflags]
  rcases List.mem_append.mp hc with hc | hc
  · exact isInner_bufferedChunk s 1024 hc
  · exact isInner_addChunkCv s _ _ hc

/-- The last call is the one of the root. -/
theorem hasherCalls_eq (fragments : List (List UInt8)) : ∃ before,
    hasherCalls self fragments =
        before ++ [rootInput self.flags (finalCv (fragments.foldl blake3HasherUpdate self))] ∧
      (fragments.foldl blake3HasherUpdate self).flags = self.flags ∧ ∀ c ∈ before, IsInner self.flags c := by
  induction fragments generalizing self with
  | nil =>
    refine ⟨_, rfl, rfl, fun c hc => ?_⟩
    rcases List.mem_append.mp hc with hc | hc
    · exact isInner_bufferedChunk self _ hc
    · exact isInner_mergeStack self _ hc
  | cons input rest ih =>
    obtain ⟨hflags, hcalls⟩ := flags_update self input
    obtain ⟨before, heq, hlast, hinner⟩ := ih (blake3HasherUpdate self input)
    rw [hflags] at heq hlast hinner
    refine ⟨blake3HasherUpdateCalls self input ++ before, ?_, hlast, fun c hc => ?_⟩
    · rw [hasherCalls, heq, List.append_assoc]
      rfl
    · exact (List.mem_append.mp hc).elim (hcalls c) (hinner c)

end Hasher

/-! ## Modes -/

theorem Start.flags_init (start : Start) (memory : Blake3Hasher) : (start.init memory).flags = start.flags := by
  cases start <;> rfl

theorem Start.flags_cases (start : Start) : start.flags = 0 ∨ start.flags = Flag.keyedHash := by
  cases start with
  | plain => exact Or.inl rfl
  | keyed key => exact Or.inr rfl

/-- The mode is in the flags of every call. -/
theorem and_keyedHash (start : Start) {kind : UInt8} (h : kind = Flag.root ∨ kind ∈ innerFlags) :
    (start.flags ||| kind) &&& Flag.keyedHash = start.flags := by
  simp only [innerFlags, List.mem_cons, List.not_mem_nil, or_false] at h
  rcases start.flags_cases with hmode | hmode <;> rw [hmode] <;>
    rcases h with rfl | rfl | rfl | rfl | rfl | rfl <;> decide

/-- Chunks and parents never look like a root, in whatever mode. -/
theorem and_root (start : Start) {kind : UInt8} (h : kind ∈ innerFlags) :
    (start.flags ||| kind) &&& Flag.root = 0 ∧ (start.flags ||| Flag.root) &&& Flag.root = Flag.root := by
  simp only [innerFlags, List.mem_cons, List.not_mem_nil, or_false] at h
  rcases start.flags_cases with hmode | hmode <;> rw [hmode] <;>
    rcases h with rfl | rfl | rfl | rfl | rfl <;> decide

theorem flags_of_mem_hasherCalls (start : Start) (memory : Blake3Hasher) (fragments : List (List UInt8))
    {c : CompressInput} (hc : c ∈ hasherCalls (start.init memory) fragments) :
    ∃ kind, (kind = Flag.root ∨ kind ∈ innerFlags) ∧ c.flags = start.flags ||| kind := by
  obtain ⟨before, heq, -, hinner⟩ := hasherCalls_eq (start.init memory) fragments
  rw [start.flags_init] at heq hinner
  rw [heq, List.mem_append, List.mem_singleton] at hc
  rcases hc with hc | rfl
  · obtain ⟨kind, hkind, hflags⟩ := hinner c hc
    exact ⟨kind, Or.inr hkind, hflags⟩
  · exact ⟨Flag.root, Or.inl rfl, rfl⟩

/-- **Separation by flags.** For any two hashers, however they were started and fed: no call of the first but its last
one is the last call of the second; and if only one is keyed, they have no call in common, and equal digests of 32
bytes or more are a collision of their last calls. -/
theorem flags_separate (start start' : Start) (memory memory' : Blake3Hasher)
    (fragments fragments' : List (List UInt8)) :
    (∀ c ∈ (hasherCalls (start.init memory) fragments).dropLast,
        (hasherCalls (start'.init memory') fragments').getLast? ≠ some c) ∧
      (start.flags ≠ start'.flags →
        (hasherCalls (start.init memory) fragments).Disjoint (hasherCalls (start'.init memory') fragments') ∧
        ∀ n ≥ 32, hasherDigest (start.init memory) fragments n = hasherDigest (start'.init memory') fragments' n →
          ∃ c ∈ (hasherCalls (start.init memory) fragments).getLast?,
            ∃ c' ∈ (hasherCalls (start'.init memory') fragments').getLast?, c ≠ c' ∧ compressCv c = compressCv c') := by
  obtain ⟨before, heq, hlast, hinner⟩ := hasherCalls_eq (start.init memory) fragments
  obtain ⟨before', heq', hlast', -⟩ := hasherCalls_eq (start'.init memory') fragments'
  have hdisjoint : start.flags ≠ start'.flags →
      (hasherCalls (start.init memory) fragments).Disjoint (hasherCalls (start'.init memory') fragments') := by
    intro hmode c hc hc'
    obtain ⟨kind, hkind, hflags⟩ := flags_of_mem_hasherCalls start memory fragments hc
    obtain ⟨kind', hkind', hflags'⟩ := flags_of_mem_hasherCalls start' memory' fragments' hc'
    refine hmode ?_
    rw [← and_keyedHash start hkind, ← and_keyedHash start' hkind', ← hflags, hflags']
  refine ⟨fun c hc hroot => ?_, fun hmode => ⟨hdisjoint hmode, fun n hn hdigest => ?_⟩⟩
  · rw [heq, List.dropLast_concat] at hc
    rw [heq', List.getLast?_concat] at hroot
    obtain ⟨kind, hkind, hflags⟩ := hinner c hc
    rw [← Option.some.inj hroot, start.flags_init, start'.flags_init] at hflags
    have hinside := (and_root start hkind).1
    rw [← hflags] at hinside
    exact absurd ((and_root start' hkind).2.symm.trans hinside) (by decide)
  · rw [hasherDigest, hasherDigest, blake3HasherFinalize, blake3HasherFinalize, hlast, hlast'] at hdigest
    have hdistinct := hdisjoint hmode
    rw [heq, heq'] at hdistinct ⊢
    rw [List.getLast?_concat, List.getLast?_concat]
    refine ⟨_, rfl, _, rfl, fun hsame => ?_, firstWords_of_writeOutput hn hdigest⟩
    exact hdistinct (List.mem_append_right _ (List.mem_singleton_self _))
      (List.mem_append_right _ (List.mem_singleton.mpr hsame))

theorem flags_separate_keyed :
    (hasherCalls (blake3HasherInit uninitialised) [[1]]).Disjoint
      (hasherCalls (blake3HasherInitKeyed uninitialised (Vector.replicate 32 7)) [[1]]) :=
  ((flags_separate .plain (.keyed (Vector.replicate 32 7)) uninitialised uninitialised [[1]] [[1]]).2 (by decide)).1

end ShardingSim.Blake3
