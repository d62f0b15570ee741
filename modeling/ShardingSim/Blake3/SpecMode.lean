import ShardingSim.Blake3.Compress
import ShardingSim.Library.HashTree

/-! The mode of BLAKE3 as its specification defines it, over any compression function `F`: a chunk is
a chain of 64-byte blocks, the chunks of a message are the leaves of a binary tree whose left subtrees
are the largest powers of two, and the output is read off the root node, compressed with the flag
`ROOT` and an output block counter. -/
namespace ShardingSim.Blake3
open HashTree
set_option autoImplicit false

def padBlock (b : List UInt8) : Vector UInt8 64 := Vector.ofFn fun i => b.getD i.val 0

/-- Byte `j` of sixteen little-endian words. -/
def wordsByte (words : Vector UInt32 16) (j : ℕ) : UInt8 :=
  ((words[j / 4]?.getD 0) >>> UInt32.ofNat (8 * (j % 4))).toUInt8

structure Chunk where
  counter : UInt64
  bytes : List UInt8
  length_le : bytes.length ≤ 1024

def chunkAt (m : List UInt8) (i : ℕ) : Chunk where
  counter := UInt64.ofNat i
  bytes := (m.drop (1024 * i)).take 1024
  length_le := List.length_take_le _ _

/-- The empty message has one chunk, any other as many as its bytes need. -/
def chunkCount (m : List UInt8) : ℕ := (m.length - 1) / 1024 + 1

namespace Spec
section
variable (F : CompressInput → Vector UInt32 16)

/-- A call on a block of a chunk, which may be the first and may be the last one. -/
def blockInput (counter : UInt64) (flags : UInt8) (cv : Cv) (b : List UInt8) (first last : Bool) :
    CompressInput where
  cv := cv
  block := padBlock b
  blockLen := UInt8.ofNat b.length
  counter := counter
  flags := flags ||| (if first then Flag.chunkStart else 0) ||| (if last then Flag.chunkEnd else 0)

/-- The last call of a chunk, reached from `cv` after the blocks before `bytes`. -/
def chunkNode (counter : UInt64) (flags : UInt8) (first : Bool) (cv : Cv) (bytes : List UInt8) :
    CompressInput :=
  if _h : bytes.length ≤ 64 then blockInput counter flags cv bytes first true
  else chunkNode counter flags false
    (firstWords (F (blockInput counter flags cv (bytes.take 64) first false))) (bytes.drop 64)
termination_by bytes.length
decreasing_by simp only [List.length_drop]; omega

def chunkCalls (counter : UInt64) (flags : UInt8) (first : Bool) (cv : Cv) (bytes : List UInt8) :
    List CompressInput :=
  if _h : bytes.length ≤ 64 then [blockInput counter flags cv bytes first true]
  else blockInput counter flags cv (bytes.take 64) first false :: chunkCalls counter flags false
    (firstWords (F (blockInput counter flags cv (bytes.take 64) first false))) (bytes.drop 64)
termination_by bytes.length
decreasing_by simp only [List.length_drop]; omega

def parentNode (key : Cv) (flags : UInt8) (left right : Cv) : CompressInput where
  cv := key
  block := padBlock (storeCv left ++ storeCv right)
  blockLen := 64
  counter := 0
  flags := flags ||| Flag.parent

theorem chunkNode_of_le {counter : UInt64} {flags : UInt8} {first : Bool} {cv : Cv} {bytes : List UInt8}
    (h : bytes.length ≤ 64) :
    chunkNode F counter flags first cv bytes = blockInput counter flags cv bytes first true := by
  rw [chunkNode, dif_pos h]

theorem chunkNode_of_gt {counter : UInt64} {flags : UInt8} {first : Bool} {cv : Cv} {bytes : List UInt8}
    (h : 64 < bytes.length) :
    chunkNode F counter flags first cv bytes = chunkNode F counter flags false
      (firstWords (F (blockInput counter flags cv (bytes.take 64) first false))) (bytes.drop 64) := by
  rw [chunkNode, dif_neg (by omega)]

theorem chunkCalls_of_le {counter : UInt64} {flags : UInt8} {first : Bool} {cv : Cv} {bytes : List UInt8}
    (h : bytes.length ≤ 64) :
    chunkCalls F counter flags first cv bytes = [blockInput counter flags cv bytes first true] := by
  rw [chunkCalls, dif_pos h]

theorem chunkCalls_of_gt {counter : UInt64} {flags : UInt8} {first : Bool} {cv : Cv} {bytes : List UInt8}
    (h : 64 < bytes.length) :
    chunkCalls F counter flags first cv bytes =
      blockInput counter flags cv (bytes.take 64) first false :: chunkCalls F counter flags false
        (firstWords (F (blockInput counter flags cv (bytes.take 64) first false))) (bytes.drop 64) := by
  rw [chunkCalls, dif_neg (by omega)]

theorem chunkNode_mem (counter : UInt64) (flags : UInt8) (first : Bool) (cv : Cv) (bytes : List UInt8) :
    chunkNode F counter flags first cv bytes ∈ chunkCalls F counter flags first cv bytes := by
  induction first, cv, bytes using chunkNode.induct F counter flags with
  | case1 first cv bytes h =>
    rw [chunkNode_of_le F h, chunkCalls_of_le F h]
    exact List.mem_singleton_self _
  | case2 first cv bytes h ih =>
    rw [chunkNode_of_gt F (by omega), chunkCalls_of_gt F (by omega)]
    exact List.mem_cons_of_mem _ ih

/-- The hash scheme of BLAKE3 under a key and the flags common to all its calls. -/
def mode (key : Cv) (flags : UInt8) : Scheme Chunk CompressInput Cv where
  compress := fun x => firstWords (F x)
  leafInput := fun c => chunkNode F c.counter flags true key c.bytes
  leafCalls := fun c => chunkCalls F c.counter flags true key c.bytes
  leafInput_mem := fun c => chunkNode_mem F c.counter flags true key c.bytes
  nodeInput := parentNode key flags

end

/-- The tree over the `n` leaves from number `start` on: the left subtree has the largest power of
two of leaves below `n`. -/
def tree {α : Type} (leaf : ℕ → α) (start n : ℕ) : LeafTree α :=
  if _h : n ≤ 1 then .leaf (leaf start)
  else .node (tree leaf start (2 ^ (n - 1).log2)) (tree leaf (start + 2 ^ (n - 1).log2) (n - 2 ^ (n - 1).log2))
termination_by n
decreasing_by
  · have := Nat.log2_self_le (n := n - 1) (by omega)
    omega
  · have := Nat.one_le_two_pow (n := (n - 1).log2)
    omega

def messageTree (m : List UInt8) : LeafTree Chunk := tree (chunkAt m) 0 (chunkCount m)

/-- Byte `i` of the output: the root node is compressed with `ROOT` and the number of the 64-byte
output block. -/
def outputByte (F : CompressInput → Vector UInt32 16) (x : CompressInput) (i : ℕ) : UInt8 :=
  wordsByte (F { x with counter := UInt64.ofNat (i / 64), flags := x.flags ||| Flag.root }) (i % 64)

def hash (F : CompressInput → Vector UInt32 16) (m : List UInt8) (n : ℕ) : List UInt8 :=
  (List.range n).map (outputByte F ((mode F iv 0).rootInput (messageTree m)))

end Spec
end ShardingSim.Blake3
