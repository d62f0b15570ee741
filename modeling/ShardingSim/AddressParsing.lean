import ShardingSim.Wallet

/-! `wallet_parse_address`. The test for a hex address and its decoder accept the same strings, so that every
string is read, as the address it spells in either case or as a name (`walletParseAddress_spec`). -/
namespace ShardingSim
set_option autoImplicit false

theorem isHexDigit_lowerCase (c : UInt8) : IsHexDigit (lowerCase c) ↔ IsHexDigit c := by
  rw [← hexCharValue_isSome, ← hexCharValue_isSome, hexCharValue_lowerCase]

/-! ## Recognisers -/

theorem walletIsHexAddress_iff (str : List UInt8) :
    walletIsHexAddress str = true ↔ str.length = 40 ∧ ∀ c ∈ str, IsHexDigit c := by
  unfold walletIsHexAddress
  split
  · rename_i hlen
    exact iff_of_false Bool.false_ne_true fun h => hlen h.1
  · rename_i hlen
    rw [and_iff_right (not_not.mp hlen)]
    simp [IsHexDigit, or_assoc]

theorem hexToAddress_of_digits {hex : List UInt8} (hlen : hex.length = 40) (h : ∀ c ∈ hex, IsHexDigit c) :
    ∃ a, (addressToHex a).chars = hex.map lowerCase ∧ ∀ address, hexToAddress hex address = (true, a) := by
  obtain ⟨a, hspelled, hread⟩ := hexToBytesBuf_of_digits (n := 20) hlen h
  refine ⟨a, hspelled, fun address => ?_⟩
  rw [hexToAddress, if_neg (not_not.mpr hlen), hread]

theorem hexToAddress_iff (hex : List UInt8) (address : Vector UInt8 20) :
    (hexToAddress hex address).1 = true ↔ hex.length = 40 ∧ ∀ c ∈ hex, IsHexDigit c := by
  unfold hexToAddress
  split
  · rename_i hlen
    exact iff_of_false Bool.false_ne_true fun h => hlen h.1
  · rename_i hlen
    rw [and_iff_right (not_not.mp hlen)]
    exact hexToBytesBuf_iff (n := 20) (not_not.mp hlen) address

theorem walletIsHexAddress_congr {str str' : List UInt8} (h : str'.map lowerCase = str.map lowerCase)
    (hhex : walletIsHexAddress str = true) : walletIsHexAddress str' = true := by
  obtain ⟨hlen, hdigits⟩ := (walletIsHexAddress_iff str).mp hhex
  refine (walletIsHexAddress_iff str').mpr ⟨?_, fun c hc => ?_⟩
  · rw [← hlen, ← List.length_map lowerCase, h, List.length_map]
  · have hmem : lowerCase c ∈ str.map lowerCase := h ▸ List.mem_map_of_mem hc
    obtain ⟨d, hd, hcase⟩ := List.mem_map.mp hmem
    rw [← isHexDigit_lowerCase, ← hcase, isHexDigit_lowerCase]
    exact hdigits d hd

/-! ## Parsing -/

theorem walletParseAddress_name (D : Digests) {str : List UInt8} (h : walletIsHexAddress str = false)
    (address : Vector UInt8 20) : walletParseAddress D str address = (true, hash160 D str) := by
  rw [walletParseAddress, h]
  rfl

theorem walletParseAddress_hex {str : List UInt8} (h : walletIsHexAddress str = true) :
    ∃ a, (addressToHex a).chars = str.map lowerCase ∧
      ∀ D address, walletParseAddress D str address = (true, a) := by
  obtain ⟨hlen, hdigits⟩ := (walletIsHexAddress_iff str).mp h
  obtain ⟨a, hspelled, hread⟩ := hexToAddress_of_digits hlen hdigits
  refine ⟨a, hspelled, fun D address => ?_⟩
  rw [walletParseAddress, if_pos h, hread]

theorem addressToHex_injective {a b : Vector UInt8 20} (h : (addressToHex a).chars = (addressToHex b).chars) :
    a = b := by
  have hread := hexToAddress_addressToHex a a
  rw [h, hexToAddress_addressToHex] at hread
  exact (Prod.mk.inj hread).2.symm

theorem walletIsHexAddress_addressToHex (a : Vector UInt8 20) :
    walletIsHexAddress (addressToHex a).chars = true := by
  rw [walletIsHexAddress_iff, ← hexToAddress_iff _ a, hexToAddress_addressToHex]

theorem walletParseAddress_addressToHex (D : Digests) (a address : Vector UInt8 20) :
    walletParseAddress D (addressToHex a).chars address = (true, a) := by
  rw [walletParseAddress, if_pos (walletIsHexAddress_addressToHex a), hexToAddress_addressToHex]

/-- **Addresses are recognised and read alike.** Every string is read; all spellings of an address are read as
the address, and any other string as a name. -/
theorem walletParseAddress_spec (D : Digests) (str : List UInt8) (address : Vector UInt8 20) :
    (walletIsHexAddress str = true ↔ (hexToAddress str address).1 = true) ∧
      (walletParseAddress D str address).1 = true ∧
      (walletIsHexAddress str = true → ∃ a, (addressToHex a).chars = str.map lowerCase ∧
        ∀ str' address', str'.map lowerCase = str.map lowerCase →
          walletParseAddress D str' address' = (true, a)) ∧
      (walletIsHexAddress str = false → walletParseAddress D str address = (true, hash160 D str)) ∧
      ∀ a, walletParseAddress D (addressToHex a).chars address = (true, a) := by
  refine ⟨by rw [walletIsHexAddress_iff, hexToAddress_iff], ?_, fun h => ?_,
    fun h => walletParseAddress_name D h address, fun a => walletParseAddress_addressToHex D a address⟩
  · cases h : walletIsHexAddress str with
    | true =>
      obtain ⟨a, -, hread⟩ := walletParseAddress_hex h
      rw [hread]
    | false => rw [walletParseAddress_name D h]
  · obtain ⟨a, hspelled, -⟩ := walletParseAddress_hex h
    refine ⟨a, hspelled, fun str' address' hcase => ?_⟩
    obtain ⟨a', hspelled', hread'⟩ := walletParseAddress_hex (walletIsHexAddress_congr hcase h)
    rw [hread', addressToHex_injective (hspelled'.trans (hcase.trans hspelled.symm))]

end ShardingSim
