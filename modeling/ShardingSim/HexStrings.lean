import ShardingSim.HexCodec

/-! `bytes_to_hex` and `hex_to_bytes`, the codec of hex strings in memory of their own. Encoder and decoder are those
with a buffer of the caller, so that they are inverse to each other up to the case of the digits
(`hexStrings_codec`). -/
namespace ShardingSim
open ByteBuffer
set_option autoImplicit false

/-! ## Encoder -/

/-- What the loop of the encoders stores from index `i` on, with the terminator behind it. -/
def hexStores (i : ℕ) : List UInt8 → List (ℕ × List UInt8)
  | [] => [(i * 2, [0])]
  | b :: rest => (i * 2, [hexChar (b >>> 4)]) :: (i * 2 + 1, [hexChar b]) :: hexStores (i + 1) rest

/-- The memory `hex` after `bytes_to_hex_buf`, or that of `bytes_to_hex` where `hex` is what `malloc` returns. -/
def bytesToHexInto {n : ℕ} (bytes : List UInt8) (hex : Vector UInt8 n) : Vector UInt8 n :=
  writes hex (hexStores 0 bytes)

theorem hexStores_eq (i : ℕ) (bytes : List UInt8) :
    (hexStores i bytes).flatMap Prod.snd = bytesToHexBuf bytes ++ [0] := by
  induction bytes generalizing i with
  | nil => rfl
  | cons b rest ih =>
    rw [hexStores, List.flatMap_cons, List.flatMap_cons, ih]
    rfl

theorem hexStores_tiles (i : ℕ) (bytes : List UInt8) :
    Tiles (i * 2) (hexStores i bytes) ((i + bytes.length) * 2 + 1) := by
  induction bytes generalizing i with
  | nil => exact ⟨rfl, rfl⟩
  | cons b rest ih =>
    have hnext := ih (i + 1)
    rw [Nat.succ_mul, Nat.add_assoc, Nat.add_comm 1] at hnext
    exact ⟨rfl, rfl, hnext⟩

theorem bytesToHexInto_eq {n : ℕ} (bytes : List UInt8) (hex : Vector UInt8 n) :
    bytesToHexInto bytes hex = write hex 0 (bytesToHexBuf bytes ++ [0]) := by
  have htiles := hexStores_tiles 0 bytes
  rw [Nat.zero_mul] at htiles
  rw [bytesToHexInto, (writes_of_tiles hex htiles).1, hexStores_eq]

theorem cstr_bytesToHexInto {n : ℕ} (bytes : List UInt8) (hex : Vector UInt8 n)
    (hroom : bytes.length * 2 + 1 ≤ n) : cstr (bytesToHexInto bytes hex).toList = bytesToHexBuf bytes := by
  have hlen : (bytesToHexBuf bytes ++ [0]).length ≤ n := by
    rwa [List.length_append, bytesToHexBuf_length, List.length_singleton]
  have h0 : 0 ∉ bytesToHexBuf bytes := notMem_bytesToHexBuf (by decide) bytes
  rw [bytesToHexInto_eq, toList_write_zero hex hlen, List.append_assoc, List.singleton_append]
  exact cstr_terminated h0 _

/-! ## Decoder -/

/-- The loop of `hex_to_bytes`, which returns no bytes where one pair is not two digits. -/
def hexToBytesLoop {n : ℕ} (hex : List UInt8) (bytes : Vector UInt8 n) (i : ℕ) : ℕ → Option (Vector UInt8 n)
  | 0 => some bytes
  | k + 1 =>
    match hexCharValue (hex.getD (i * 2) 0), hexCharValue (hex.getD (i * 2 + 1) 0) with
    | some high, some low => hexToBytesLoop hex (write bytes i [(high <<< 4) ||| low]) (i + 1) k
    | _, _ => none

/-- `hex_to_bytes`: the bytes and `*out_len`. -/
def hexToBytes (malloc : (n : ℕ) → Vector UInt8 n) (hex : List UInt8) : Option (List UInt8 × ℕ) :=
  if hex.length % 2 ≠ 0 then none
  else
    let byteLen := hex.length / 2
    (hexToBytesLoop hex (malloc byteLen) 0 byteLen).map fun bytes => (bytes.toList, byteLen)

theorem hexToBytesLoop_eq {n : ℕ} (hex : List UInt8) (bytes : Vector UInt8 n) (i k : ℕ) :
    hexToBytesLoop hex bytes i k =
      if (hexToBytesFrom hex bytes i k).1 then some (hexToBytesFrom hex bytes i k).2 else none := by
  induction k generalizing bytes i with
  | zero => rfl
  | succ k ih =>
    rw [hexToBytesLoop, hexToBytesFrom]
    cases hexCharValue (hex.getD (i * 2) 0) with
    | none => rfl
    | some high =>
      cases hexCharValue (hex.getD (i * 2 + 1) 0) with
      | none => rfl
      | some low => exact ih _ _

section Decoder
variable (malloc : (n : ℕ) → Vector UInt8 n) {n : ℕ} {hex : List UInt8}

theorem hexToBytes_even (hlen : hex.length = n * 2) : hexToBytes malloc hex =
    if (hexToBytesBuf hex (malloc n)).1 then some ((hexToBytesBuf hex (malloc n)).2.toList, n) else none := by
  have hodd : ¬ hex.length % 2 ≠ 0 := by omega
  have hhalf : hex.length / 2 = n := by omega
  rw [hexToBytes, if_neg hodd, hhalf]
  dsimp only
  rw [hexToBytesLoop_eq, hexToBytesBuf]
  split <;> rfl

theorem hexToBytes_of_digits (hlen : hex.length = n * 2) (h : ∀ c ∈ hex, IsHexDigit c) :
    ∃ v : Vector UInt8 n, bytesToHex v.toList = hex.map lowerCase ∧ hexToBytes malloc hex = some (v.toList, n) ∧
      ∀ dst, hexToBytesBuf hex dst = (true, v) := by
  obtain ⟨v, hhex, hread⟩ := hexToBytesBuf_of_digits hlen h
  refine ⟨v, hhex, ?_, hread⟩
  rw [hexToBytes_even malloc hlen, hread]
  rfl

theorem hexToBytes_isSome_iff (hex : List UInt8) :
    (hexToBytes malloc hex).isSome = true ↔ hex.length % 2 = 0 ∧ ∀ c ∈ hex, IsHexDigit c := by
  by_cases heven : hex.length % 2 = 0
  · have hlen : hex.length = hex.length / 2 * 2 := by omega
    rw [and_iff_right heven, ← hexToBytesBuf_iff hlen (malloc _), hexToBytes_even malloc hlen]
    cases (hexToBytesBuf hex (malloc (hex.length / 2))).1 <;> simp
  · rw [hexToBytes, if_pos heven]
    exact iff_of_false Bool.false_ne_true fun h => heven h.1

theorem hexToBytes_bytesToHex (bytes : List UInt8) :
    hexToBytes malloc (bytesToHex bytes) = some (bytes, bytes.length) := by
  have hlen : (bytesToHex bytes).length = bytes.length * 2 := bytesToHexBuf_length bytes
  have hvector : (Vector.mk bytes.toArray rfl : Vector UInt8 bytes.length).toList = bytes := rfl
  have hread := hexToBytesBuf_bytesToHexBuf (malloc bytes.length) (Vector.mk bytes.toArray rfl)
  rw [hvector] at hread
  rw [hexToBytes_even malloc hlen, bytesToHex, hread]
  rfl

theorem bytesToHex_of_hexToBytes {bytes : List UInt8} {len : ℕ} (h : hexToBytes malloc hex = some (bytes, len)) :
    len = bytes.length ∧ bytesToHex bytes = hex.map lowerCase := by
  have hsome : (hexToBytes malloc hex).isSome = true := by
    rw [h]
    rfl
  obtain ⟨heven, hdigits⟩ := (hexToBytes_isSome_iff malloc hex).mp hsome
  have hlen : hex.length = hex.length / 2 * 2 := by omega
  obtain ⟨v, hhex, hread, -⟩ := hexToBytes_of_digits malloc hlen hdigits
  rw [h] at hread
  obtain ⟨rfl, rfl⟩ := Prod.mk.inj (Option.some.inj hread)
  exact ⟨Vector.length_toList.symm, hhex⟩

theorem hexToBytesBuf_agrees (hlen : hex.length = n * 2) (dst : Vector UInt8 n) :
    hexToBytes malloc hex =
      if (hexToBytesBuf hex dst).1 then some ((hexToBytesBuf hex dst).2.toList, n) else none := by
  by_cases hdigits : ∀ c ∈ hex, IsHexDigit c
  · obtain ⟨v, -, hread, hbuf⟩ := hexToBytes_of_digits malloc hlen hdigits
    rw [hread, hbuf]
    rfl
  · have hmalloc := mt (hexToBytesBuf_iff hlen (malloc n)).mp hdigits
    have hdst := mt (hexToBytesBuf_iff hlen dst).mp hdigits
    rw [hexToBytes_even malloc hlen, if_neg hmalloc, if_neg hdst]

end Decoder

/-- **The codec of hex strings.** Both encoders leave the hex string in memory with its terminator; what they wrote
is read back; exactly an even number of digits is read, as what is in lower case written for it; and both decoders
agree. -/
theorem hexStrings_codec (malloc : (n : ℕ) → Vector UInt8 n) :
    (∀ (bytes : List UInt8) (n : ℕ) (hex : Vector UInt8 n), bytes.length * 2 + 1 ≤ n →
        cstr (bytesToHexInto bytes hex).toList = bytesToHex bytes) ∧
      (∀ bytes, hexToBytes malloc (bytesToHex bytes) = some (bytes, bytes.length)) ∧
      (∀ hex : List UInt8, ((hexToBytes malloc hex).isSome = true ↔
          hex.length % 2 = 0 ∧ ∀ c ∈ hex, IsHexDigit c) ∧
        ∀ bytes len, hexToBytes malloc hex = some (bytes, len) →
          len = bytes.length ∧ bytesToHex bytes = hex.map lowerCase) ∧
      ∀ (n : ℕ) (hex : List UInt8) (dst : Vector UInt8 n), hex.length = n * 2 →
        ((hexToBytesBuf hex dst).1 = true ↔ (hexToBytes malloc hex).isSome = true) ∧
          ∀ bytes len, hexToBytes malloc hex = some (bytes, len) →
            (hexToBytesBuf hex dst).2.toList = bytes ∧ len = n := by
  refine ⟨fun bytes n hex => cstr_bytesToHexInto bytes hex, hexToBytes_bytesToHex malloc,
    fun hex => ⟨hexToBytes_isSome_iff malloc hex, fun bytes len => bytesToHex_of_hexToBytes malloc⟩,
    fun n hex dst hlen => ⟨?_, fun bytes len h => ?_⟩⟩
  · rw [hexToBytesBuf_agrees malloc hlen dst]
    cases (hexToBytesBuf hex dst).1 <;> simp
  · rw [hexToBytesBuf_agrees malloc hlen dst] at h
    split at h
    · obtain ⟨rfl, rfl⟩ := Prod.mk.inj (Option.some.inj h)
      exact ⟨rfl, rfl⟩
    · cases h

/-- Upper case is read by both decoders. -/
theorem hexStrings_codec_upper : (hexToBytesBuf (ascii "BEEF") (Vector.replicate 2 0)).1 = true ↔
    (hexToBytes (fun n => Vector.replicate n 0) (ascii "BEEF")).isSome = true :=
  ((hexStrings_codec fun n => Vector.replicate n 0).2.2.2 2 (ascii "BEEF") (Vector.replicate 2 0) (by decide)).1

end ShardingSim
