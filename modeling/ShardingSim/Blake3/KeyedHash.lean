import ShardingSim.Blake3.Collisions
import ShardingSim.Blake3.Conformance

/-! Keyed hashing. `digestUnder` is the algorithm with a key in the place of `IV`; the hasher stores the key
words in `cv`, which nothing reads again, so that its keyed digest is `digestUnder iv` for every key
(`keyedHash_eq`). -/
namespace ShardingSim.Blake3
open HashTree
set_option autoImplicit false

/-- The last call under a key: `rootInput` with the key words as its chaining value. -/
def rootUnder (key : Cv) (flags : UInt8) (m : List UInt8) : CompressInput :=
  { rootInput flags ((Spec.mode compress key flags).hash (messageCodeTree m)) with cv := key }

theorem rootUnder_cv (key : Cv) (flags : UInt8) (m : List UInt8) : (rootUnder key flags m).cv = key := rfl

/-- The digest with the key words as chaining value of every chunk, every parent and the root. -/
def digestUnder (key : Cv) (flags : UInt8) (m : List UInt8) (n : ℕ) : List UInt8 :=
  writeOutput (compress (rootUnder key flags m)) n

def keyWords (key : Vector UInt8 32) : Cv := Vector.ofFn fun i => load32Le key (i.val * 4)

/-- The digest of a message fed in fragments to a keyed hasher. -/
def keyedHash (memory : Blake3Hasher) (key : Vector UInt8 32) (fragments : List (List UInt8)) (n : ℕ) :
    List UInt8 :=
  blake3HasherFinalize (fragments.foldl blake3HasherUpdate (blake3HasherInitKeyed memory key)) n

theorem keyedHash_eq (memory : Blake3Hasher) (key : Vector UInt8 32) (fragments : List (List UInt8)) (n : ℕ) :
    keyedHash memory key fragments n = digestUnder iv Flag.keyedHash fragments.flatten n := by
  rw [keyedHash, foldl_update, finalize_message _ _ _ _ (absorbed_initKeyed _ memory key) rfl]
  rfl

/-! ## The key -/

/-- **The key has no effect.** All keys give one digest of a message; it is the one under the key if the key
words are those of `IV`, and otherwise, for outputs of 32 bytes or more, only if the two last calls
collide. -/
theorem keyedHash_iff (memory : Blake3Hasher) (key : Vector UInt8 32) (fragments : List (List UInt8))
    (n : ℕ) :
    (∀ memory' key', keyedHash memory' key' fragments n = keyedHash memory key fragments n) ∧
      (keyWords key = iv ∨ n = 0 →
        keyedHash memory key fragments n = digestUnder (keyWords key) Flag.keyedHash fragments.flatten n) ∧
      (32 ≤ n →
        (keyedHash memory key fragments n = digestUnder (keyWords key) Flag.keyedHash fragments.flatten n ↔
          keyWords key = iv ∨ Collision compressCv [rootUnder iv Flag.keyedHash fragments.flatten]
            [rootUnder (keyWords key) Flag.keyedHash fragments.flatten])) := by
  refine ⟨fun memory' key' => ?_, ?_, fun hn => ?_⟩
  · rw [keyedHash_eq, keyedHash_eq]
  · rintro (hiv | rfl)
    · rw [keyedHash_eq, hiv]
    · rw [keyedHash_eq, digestUnder, digestUnder, writeOutput_eq, writeOutput_eq, List.range_zero,
        List.map_nil, List.map_nil]
  · rw [keyedHash_eq]
    constructor
    · intro h
      have hwords := firstWords_of_writeOutput hn h
      refine or_iff_not_imp_left.mpr fun hne => ?_
      refine ⟨_, List.mem_singleton_self _, _, List.mem_singleton_self _, fun heq => ?_, hwords⟩
      have hcv := congrArg CompressInput.cv heq
      rw [rootUnder_cv, rootUnder_cv] at hcv
      exact hne hcv.symm
    · rintro (hiv | ⟨x, hx, y, hy, -, hwords⟩)
      · rw [hiv]
      · rw [List.mem_singleton.mp hx, List.mem_singleton.mp hy] at hwords
        exact writeOutput_congr hwords n

/-- Under the key of zeros the first byte of the digest of the empty message should be another one. -/
theorem keyedHash_ne : ¬ ∀ (memory : Blake3Hasher) (key : Vector UInt8 32) (fragments : List (List UInt8))
    (n : ℕ), keyedHash memory key fragments n =
      digestUnder (keyWords key) Flag.keyedHash fragments.flatten n := by
  intro h
  have hempty := h uninitialised (Vector.replicate 32 0) [] 1
  have hroot : ∀ key : Cv, rootUnder key Flag.keyedHash [] = { rootInput Flag.keyedHash (firstWords (compress
      (Spec.blockInput 0 Flag.keyedHash key [] true true))) with cv := key } := by
    intro key
    have hchunk : Spec.chunkNode compress 0 Flag.keyedHash true key [] =
        Spec.blockInput 0 Flag.keyedHash key [] true true := Spec.chunkNode_of_le _ (Nat.zero_le _)
    rw [← hchunk]
    rfl
  rw [keyedHash_eq, List.flatten_nil, digestUnder, digestUnder, hroot, hroot] at hempty
  revert hempty
  decide +kernel

end ShardingSim.Blake3
