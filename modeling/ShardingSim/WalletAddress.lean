import ShardingSim.AddressParsing
import ShardingSim.WalletFile

/-! The two forms of a wallet's address. A created wallet has the hex form of its address; a loaded one has
the first 40 characters of the last `ADDRESS:` value, and as address whatever decoding one such value after
the other leaves, the result of `hex_to_address` being ignored. `walletAddress_iff` says for which files the
two agree. -/
namespace ShardingSim
open Lines
set_option autoImplicit false

variable {Key : Type}

/-! ## Consistency -/

/-- `address_hex` is 40 hex digits that decode to `address`. -/
structure AddressConsistent (wallet : Wallet Key) : Prop where
  length : wallet.addressHex.chars.length = 40
  digits : ∀ c ∈ wallet.addressHex.chars, IsHexDigit c
  decodes : ∀ dst, hexToAddress wallet.addressHex.chars dst = (true, wallet.address)

theorem addressConsistent_of_addressToHex {wallet : Wallet Key}
    (h : wallet.addressHex = addressToHex wallet.address) : AddressConsistent wallet := by
  have hdecodes : ∀ dst, hexToAddress wallet.addressHex.chars dst = (true, wallet.address) := fun dst =>
    h ▸ hexToAddress_addressToHex wallet.address dst
  have hlength : wallet.addressHex.chars.length = 40 := h ▸ addressToHex_length wallet.address
  have hdigits := (hexToAddress_iff wallet.addressHex.chars wallet.address).mp (by rw [hdecodes])
  exact ⟨hlength, hdigits.2, hdecodes⟩

/-! ## Created wallets -/

theorem walletCreate_consistent {D : Digests} {calls : KeyCalls Key} {pub : PublicKeyCall} {wallet : Wallet Key}
    (h : walletCreate D calls pub = some wallet) : AddressConsistent wallet := by
  unfold walletCreate at h
  split at h
  · cases h
  · obtain rfl := Option.some.inj h
    exact addressConsistent_of_addressToHex rfl

theorem walletCreateNamed_consistent {D : Digests} {calls : KeyCalls Key} {name : List UInt8}
    {wallet : Wallet Key} (h : walletCreateNamed D calls name = some wallet) : AddressConsistent wallet :=
  addressConsistent_of_addressToHex (walletCreateNamed_eq h).2.2.1

/-! ## Lines of a file -/

def nextMode (readingKey : Bool) (line : List UInt8) : Bool :=
  if readingKey then !strstr line (ascii "-----END") else startsWith line (ascii "PRIVATE_KEY:")

/-- The text of the key sections, which goes to `pem_buffer`. -/
def keyText (readingKey : Bool) : List (List UInt8) → List UInt8
  | [] => []
  | line :: rest => (if readingKey then line else []) ++ keyText (nextMode readingKey line) rest

/-- The values of the `ADDRESS:` lines outside the key sections. -/
def addressValues (readingKey : Bool) : List (List UInt8) → List (List UInt8)
  | [] => []
  | line :: rest =>
    (if !readingKey && startsWith line (ascii "ADDRESS:") then [trim (line.drop 8)] else []) ++
      addressValues (nextMode readingKey line) rest

/-- The address after values were decoded over each other. -/
def addressAfter (address : Vector UInt8 20) (values : List (List UInt8)) : Vector UInt8 20 :=
  values.foldl (fun address value => (hexToAddress value address).2) address

theorem mode_loadLine {s s' : LoadState Key} {line : List UInt8} (h : loadLine s line = some s') :
    s'.readingKey = nextMode s.readingKey line := by
  obtain ⟨-, ⟨hmode, -, hnext⟩ | ⟨hmode, -, hnext⟩⟩ := loadLine_cases h
  · rw [hnext, nextMode, if_pos hmode]
  · rw [hnext, nextMode, hmode, if_neg Bool.false_ne_true]

theorem address_loadLine {s s' : LoadState Key} {line : List UInt8} (h : loadLine s line = some s') :
    if (!s.readingKey && startsWith line (ascii "ADDRESS:")) = true then
      s'.wallet.address = (hexToAddress (trim (line.drop 8)) s.wallet.address).2 ∧
        s'.wallet.addressHex = safeStrcpy 40 (trim (line.drop 8))
    else s'.wallet.address = s.wallet.address ∧ s'.wallet.addressHex = s.wallet.addressHex := by
  unfold loadLine at h
  cases hmode : s.readingKey with
  | true =>
    rw [hmode, if_pos rfl] at h
    obtain ⟨pem, -, rfl⟩ := Option.map_eq_some_iff.mp h
    exact ⟨rfl, rfl⟩
  | false =>
    rw [hmode, if_neg Bool.false_ne_true] at h
    rw [Bool.not_false, Bool.true_and]
    split at h
    · rename_i hname
      have haddress : ¬ startsWith line (ascii "ADDRESS:") = true := by
        intro haddress
        exact absurd ((head?_of_startsWith hname).symm.trans (head?_of_startsWith haddress)) (by decide)
      cases h
      rw [if_neg haddress]
      exact ⟨rfl, rfl⟩
    · split at h
      · rename_i haddress
        cases h
        rw [if_pos haddress]
        exact ⟨rfl, rfl⟩
      · rename_i haddress
        rw [if_neg haddress]
        split at h
        · cases h
          exact ⟨rfl, rfl⟩
        split at h
        · cases h
          exact ⟨rfl, rfl⟩
        · cases h
          exact ⟨rfl, rfl⟩

theorem address_loadLines {s s' : LoadState Key} {text : List (List UInt8)} (h : loadLines s text = some s') :
    s'.wallet.address = addressAfter s.wallet.address (addressValues s.readingKey text) ∧
      s'.wallet.addressHex =
        (addressValues s.readingKey text).foldl (fun _ value => safeStrcpy 40 value) s.wallet.addressHex := by
  induction text generalizing s with
  | nil =>
    obtain rfl := Option.some.inj h
    exact ⟨rfl, rfl⟩
  | cons line rest ih =>
    rw [loadLines_cons] at h
    obtain ⟨s₁, hline, hrest⟩ := Option.bind_eq_some_iff.mp h
    have hfirst := address_loadLine hline
    obtain ⟨haddress, hhex⟩ := ih hrest
    rw [haddress, hhex, mode_loadLine hline, addressValues, addressAfter, addressAfter, List.foldl_append,
      List.foldl_append]
    split at hfirst
    · rename_i hvalue
      rw [if_pos hvalue, hfirst.1, hfirst.2]
      exact ⟨rfl, rfl⟩
    · rename_i hvalue
      rw [if_neg hvalue, hfirst.1, hfirst.2]
      exact ⟨rfl, rfl⟩

/-- The buffer is overrun exactly by key sections of 2048 characters or more. -/
theorem loadLines_isSome {s : LoadState Key} {text : List (List UInt8)} (h0 : ∀ line ∈ text, 0 ∉ line) :
    (loadLines s text).isSome = true ↔
      s.pemBuffer.chars.length + (keyText s.readingKey text).length < 2048 := by
  induction text generalizing s with
  | nil => exact iff_of_true rfl s.pemBuffer.length_lt
  | cons line rest ih =>
    have hline0 := h0 line List.mem_cons_self
    have hrest := fun s : LoadState Key => ih (s := s) fun l hl => h0 l (List.mem_cons_of_mem _ hl)
    have hpass : ∀ s₁, loadLine s line = some s₁ →
        ((loadLines s (line :: rest)).isSome = true ↔
          s₁.pemBuffer.chars.length + (keyText (nextMode s.readingKey line) rest).length < 2048) := by
      intro s₁ hs₁
      rw [loadLines_cons, hs₁, Option.bind_some, hrest, mode_loadLine hs₁]
    rw [keyText, List.length_append]
    cases hmode : s.readingKey with
    | true =>
      rw [if_pos rfl]
      cases hstep : loadLine s line with
      | none =>
        have hnone : ¬ (s.pemBuffer.strcat line).isSome = true := by
          rw [loadLine_reading hmode] at hstep
          rw [Option.map_eq_none_iff.mp hstep]
          exact Bool.false_ne_true
        rw [CharArray.strcat_isSome _ hline0] at hnone
        rw [loadLines_cons, hstep]
        exact iff_of_false Bool.false_ne_true (by omega)
      | some s₁ =>
        obtain ⟨-, ⟨-, hbuffer, -⟩ | ⟨hno, -⟩⟩ := loadLine_cases hstep
        · rw [hpass s₁ hstep, hbuffer, cstr_of_notMem hline0, List.length_append, hmode, Nat.add_assoc]
        · rw [hmode] at hno
          cases hno
    | false =>
      rw [if_neg Bool.false_ne_true, List.length_nil, Nat.zero_add]
      obtain ⟨s₁, hstep⟩ := loadLine_isSome hmode line
      obtain ⟨-, ⟨hno, -⟩ | ⟨-, hbuffer, -⟩⟩ := loadLine_cases hstep
      · rw [hmode] at hno
        cases hno
      · rw [hpass s₁ hstep, hbuffer, hmode]

theorem noZero_of_mem_addressValues {readingKey : Bool} {text : List (List UInt8)}
    (h0 : ∀ line ∈ text, 0 ∉ line) : ∀ value ∈ addressValues readingKey text, 0 ∉ value := by
  induction text generalizing readingKey with
  | nil => exact fun value h => absurd h List.not_mem_nil
  | cons line rest ih =>
    intro value h
    rw [addressValues, List.mem_append] at h
    rcases h with h | h
    · split at h
      · rw [List.mem_singleton.mp h]
        intro hzero
        have hsub : (trim (line.drop 8)).Sublist line :=
          ((List.rdropWhile_prefix _ _).sublist.trans (List.dropWhile_suffix _).sublist).trans
            (List.drop_sublist 8 line)
        exact h0 line List.mem_cons_self (hsub.mem hzero)
      · exact absurd h List.not_mem_nil
    · exact ih (fun l hl => h0 l (List.mem_cons_of_mem _ hl)) value h

/-! ## Loaded wallets -/

/-- The strings that `fgets` finds in a file. -/
def fileLines (file : List UInt8) : List (List UInt8) :=
  (fgetsAll (ch '\n') 2047 lineSize_pos file).map cstr

theorem noZero_fileLines (file : List UInt8) : ∀ line ∈ fileLines file, 0 ∉ line := by
  intro line h
  obtain ⟨bytes, -, rfl⟩ := List.mem_map.mp h
  exact notMem_cstr bytes

/-- The last value decides: 40 digits, or more characters of which the first 40 are digits of the address
that the earlier values leave. -/
def GoodValues (values : List (List UInt8)) : Prop :=
  ∃ earlier last, values = earlier ++ [last] ∧ 40 ≤ last.length ∧ (∀ c ∈ last.take 40, IsHexDigit c) ∧
    (40 < last.length → (hexToAddress (last.take 40) (addressAfter (Vector.replicate 20 0) earlier)).2 =
      addressAfter (Vector.replicate 20 0) earlier)

theorem addressConsistent_iff_goodValues {wallet : Wallet Key} {values : List (List UInt8)}
    (h0 : ∀ value ∈ values, 0 ∉ value) (haddress : wallet.address = addressAfter (Vector.replicate 20 0) values)
    (hhex : wallet.addressHex =
      values.foldl (fun _ value => safeStrcpy 40 value) (CharArray.empty 41 addressHexSize_pos)) :
    AddressConsistent wallet ↔ GoodValues values := by
  rcases values.eq_nil_or_concat' with rfl | ⟨earlier, last, rfl⟩
  · refine iff_of_false (fun h => ?_) ?_
    · have hlength := h.length
      rw [hhex] at hlength
      cases hlength
    · rintro ⟨earlier, last, hnil, -⟩
      exact List.append_ne_nil_of_right_ne_nil _ (List.cons_ne_nil _ _) hnil.symm
  · have hlast : 0 ∉ last := h0 last (List.mem_append_right _ (List.mem_singleton_self _))
    have hchars : wallet.addressHex.chars = last.take 40 := by
      rw [hhex, List.foldl_append]
      exact congrArg (List.take 40) (cstr_of_notMem hlast)
    have hfinal : wallet.address = (hexToAddress last (addressAfter (Vector.replicate 20 0) earlier)).2 := by
      rw [haddress, addressAfter, List.foldl_append]
      rfl
    have hlong : 40 < last.length → wallet.address = addressAfter (Vector.replicate 20 0) earlier := by
      intro hlt
      rw [hfinal, hexToAddress, if_pos hlt.ne']
    constructor
    · intro h
      have hlength := h.length
      have hdigits := h.digits
      have hdecodes := h.decodes (addressAfter (Vector.replicate 20 0) earlier)
      rw [hchars] at hlength hdigits hdecodes
      rw [List.length_take] at hlength
      refine ⟨earlier, last, rfl, by omega, hdigits, fun hlt => ?_⟩
      rw [hdecodes, hlong hlt]
    · rintro ⟨earlier', last', heq, hge, hdigits, hrest⟩
      obtain ⟨rfl, hsingle⟩ := List.append_inj' heq rfl
      obtain rfl := List.singleton_inj.mp hsingle
      have hlength : (last.take 40).length = 40 := List.length_take_of_le hge
      obtain ⟨address, -, hread⟩ := hexToAddress_of_digits hlength hdigits
      have hsame : wallet.address = address := by
        by_cases hlt : 40 < last.length
        · rw [hlong hlt, ← hrest hlt, hread]
        · have hall := hread (addressAfter (Vector.replicate 20 0) earlier)
          rw [List.take_of_length_le (by omega)] at hall
          rw [hfinal, hall]
      refine ⟨hchars ▸ hlength, fun c hc => hdigits c (hchars ▸ hc), fun dst => ?_⟩
      rw [hchars, hread, hsame]

/-- The files that load with a consistent address. -/
def GoodFile (file : List UInt8) : Prop :=
  (keyText false (fileLines file)).length < 2048 ∧ GoodValues (addressValues false (fileLines file))

theorem walletLoad_consistent_iff (readKey : List UInt8 → Option Key) (file : List UInt8) :
    (∃ wallet, walletLoad readKey file = some wallet ∧ AddressConsistent wallet) ↔ GoodFile file := by
  have h0 := noZero_fileLines file
  have hsome := loadLines_isSome (s := (loadStart : LoadState Key)) h0
  have hstart : (loadStart : LoadState Key).pemBuffer.chars.length = 0 := rfl
  rw [hstart, Nat.zero_add, Option.isSome_iff_exists] at hsome
  have hiff : ∀ s : LoadState Key, loadLines loadStart (fileLines file) = some s →
      (AddressConsistent (loadKey readKey s) ↔ GoodValues (addressValues false (fileLines file))) := by
    intro s hs
    obtain ⟨haddress, hhex⟩ := address_loadLines hs
    obtain ⟨-, haddress', hhex', -⟩ := loadKey_fields readKey s
    exact addressConsistent_iff_goodValues (noZero_of_mem_addressValues h0) (haddress'.trans haddress)
      (hhex'.trans hhex)
  constructor
  · rintro ⟨wallet, hload, hconsistent⟩
    obtain ⟨s, hs, rfl⟩ := Option.map_eq_some_iff.mp hload
    exact ⟨hsome.mp ⟨s, hs⟩, (hiff s hs).mp hconsistent⟩
  · rintro ⟨hshort, hgood⟩
    obtain ⟨s, hs⟩ := hsome.mpr hshort
    exact ⟨loadKey readKey s, Option.map_eq_some_iff.mpr ⟨s, hs, rfl⟩, (hiff s hs).mpr hgood⟩

/-! ## Wallets in use -/

inductive NonceOp where
  | getNext
  | set (nonce : UInt64)

def nonceOp (wallet : Wallet Key) : NonceOp → Wallet Key
  | .getNext => (walletGetNextNonce wallet).2
  | .set nonce => walletSetNonce wallet nonce

/-- Where a wallet comes from; a file that cannot be opened is `none`. -/
inductive WalletSource (Key : Type) where
  | create (calls : KeyCalls Key) (pub : PublicKeyCall)
  | createNamed (calls : KeyCalls Key) (name : List UInt8)
  | load (file : Option (List UInt8))

inductive Obtained (Key : Type) where
  | null
  | overrun
  | wallet (wallet : Wallet Key)

def obtain (D : Digests) (readKey : List UInt8 → Option Key) : WalletSource Key → Obtained Key
  | .create calls pub => (walletCreate D calls pub).elim .null .wallet
  | .createNamed calls name => (walletCreateNamed D calls name).elim .null .wallet
  | .load none => .null
  | .load (some file) => (walletLoad readKey file).elim .overrun .wallet

/-- No wallet, or one whose address stays consistent whatever is done with its nonce. -/
def KeepsAddress : Obtained Key → Prop
  | .null => True
  | .overrun => False
  | .wallet wallet => ∀ ops : List NonceOp, AddressConsistent (ops.foldl nonceOp wallet)

def GoodSource : WalletSource Key → Prop
  | .load (some file) => GoodFile file
  | _ => True

theorem AddressConsistent.nonceOp {wallet : Wallet Key} (h : AddressConsistent wallet) (op : NonceOp) :
    AddressConsistent (nonceOp wallet op) := by
  cases op with
  | getNext => exact ⟨h.length, h.digits, h.decodes⟩
  | set nonce => exact ⟨h.length, h.digits, h.decodes⟩

theorem keepsAddress_wallet (wallet : Wallet Key) :
    KeepsAddress (.wallet wallet) ↔ AddressConsistent wallet := by
  refine ⟨fun h => h [], fun h ops => ?_⟩
  induction ops generalizing wallet with
  | nil => exact h
  | cons op ops ih => exact ih _ (h.nonceOp op)

theorem keepsAddress_created {created : Option (Wallet Key)}
    (h : ∀ wallet, created = some wallet → AddressConsistent wallet) :
    KeepsAddress (created.elim .null .wallet) := by
  cases created with
  | none => exact trivial
  | some wallet => exact (keepsAddress_wallet wallet).mpr (h wallet rfl)

theorem keepsAddress_load (D : Digests) (readKey : List UInt8 → Option Key) (file : List UInt8) :
    KeepsAddress (obtain D readKey (.load (some file))) ↔ GoodFile file := by
  rw [← walletLoad_consistent_iff readKey, ShardingSim.obtain]
  cases walletLoad readKey file with
  | none =>
    refine iff_of_false id ?_
    rintro ⟨wallet, hnone, -⟩
    cases hnone
  | some wallet =>
    rw [Option.elim_some, keepsAddress_wallet]
    simp only [Option.some.injEq, exists_eq_left']

/-- **The two forms of the address agree**, in every wallet that is created and in those loaded from a good
file, whatever is done with the nonce. -/
theorem walletAddress_iff (D : Digests) (readKey : List UInt8 → Option Key) (source : WalletSource Key) :
    KeepsAddress (obtain D readKey source) ↔ GoodSource source := by
  cases source with
  | create calls pub => exact iff_of_true (keepsAddress_created fun _ h => walletCreate_consistent h) trivial
  | createNamed calls name =>
    exact iff_of_true (keepsAddress_created fun _ h => walletCreateNamed_consistent h) trivial
  | load file =>
    cases file with
    | none => exact iff_of_true trivial trivial
    | some file => exact keepsAddress_load D readKey file

/-- A wallet whose address line holds a name shows that name and has the zero address. -/
theorem walletLoad_address_differs : ¬ ∀ (D : Digests) (readKey : List UInt8 → Option Unit)
    (source : WalletSource Unit), KeepsAddress (obtain D readKey source) := by
  intro h
  have hgood := (keepsAddress_load nonceLineDigests (fun _ => some ()) (ascii "ADDRESS:alice\n")).mp (h _ _ _)
  have hvalues : addressValues false (fileLines (ascii "ADDRESS:alice\n")) = [ascii "alice"] := by
    decide +kernel
  obtain ⟨earlier, last, heq, hge, -⟩ := hvalues ▸ hgood.2
  obtain ⟨-, hsingle⟩ := List.append_inj' (show [] ++ [ascii "alice"] = earlier ++ [last] from heq) rfl
  rw [← List.singleton_inj.mp hsingle] at hge
  exact absurd hge (by decide)

end ShardingSim
