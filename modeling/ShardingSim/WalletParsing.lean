import ShardingSim.KeyBuffer
import ShardingSim.Library.Fields

/-! What `wallet_load` makes of a file, whatever the file is. Its lines are those of the fields and those of the key
sections; each field has the last value that its lines give, only the address is decoded over the earlier ones
(`walletLoad_eq`). -/
namespace ShardingSim
open Fields
set_option autoImplicit false

variable {Key : Type}

/-! ## The lines of the fields -/

/-- A line outside the key sections. -/
def loadField (wallet : Wallet Key) (line : List UInt8) : Wallet Key :=
  if startsWith line (ascii "NAME:") then { wallet with name := safeStrcpy 63 (trim (line.drop 5)) }
  else if startsWith line (ascii "ADDRESS:") then
    { wallet with
      addressHex := safeStrcpy 40 (trim (line.drop 8))
      address := (hexToAddress (trim (line.drop 8)) wallet.address).2 }
  else if startsWith line (ascii "NONCE:") then { wallet with nonce := strtoull (line.drop 6) }
  else wallet

/-- What stands behind the name of a field. -/
def fieldValue (field : List UInt8) (line : List UInt8) : Option (List UInt8) :=
  if startsWith line field then some (line.drop field.length) else none

def nameValue (line : List UInt8) : Option (CharArray 64) :=
  (fieldValue (ascii "NAME:") line).map fun value => safeStrcpy 63 (trim value)

def addressValue (line : List UInt8) : Option (List UInt8) := (fieldValue (ascii "ADDRESS:") line).map trim

def addressHexValue (line : List UInt8) : Option (CharArray 41) := (addressValue line).map (safeStrcpy 40)

def nonceValue (line : List UInt8) : Option UInt64 := (fieldValue (ascii "NONCE:") line).map strtoull

/-- No line is for two fields. -/
theorem startsWith_eq_false {field field' line : List UInt8} (h : startsWith line field = true)
    (hne : ¬ (field <+: field' ∨ field' <+: field)) : startsWith line field' = false := by
  refine Bool.eq_false_iff.mpr fun h' => hne ?_
  exact List.prefix_or_prefix_of_prefix (startsWith_iff.mp h) (startsWith_iff.mp h')

theorem fieldValue_eq_none {field field' line : List UInt8} (h : startsWith line field = true)
    (hne : ¬ (field <+: field' ∨ field' <+: field)) : fieldValue field' line = none :=
  if_neg fun h' => Bool.false_ne_true ((startsWith_eq_false h hne).symm.trans h')

theorem fieldValue_eq_some {field line : List UInt8} (h : startsWith line field = true) :
    fieldValue field line = some (line.drop field.length) := if_pos h

section Values
variable (wallet : Wallet Key) (line : List UInt8)

theorem loadField_name : (loadField wallet line).name = (nameValue line).getD wallet.name := by
  unfold loadField nameValue
  split_ifs with hname haddress hnonce
  · rw [fieldValue_eq_some hname]
    rfl
  all_goals
    rw [fieldValue, if_neg hname]
    rfl

theorem loadField_nonce : (loadField wallet line).nonce = (nonceValue line).getD wallet.nonce := by
  unfold loadField nonceValue
  split_ifs with hname haddress hnonce
  · rw [fieldValue_eq_none hname (by decide)]
    rfl
  · rw [fieldValue_eq_none haddress (by decide)]
    rfl
  · rw [fieldValue_eq_some hnonce]
    rfl
  · rw [fieldValue, if_neg hnonce]
    rfl

theorem loadField_address : (loadField wallet line).address =
      (addressValue line).elim wallet.address (fun value => (hexToAddress value wallet.address).2) ∧
    (loadField wallet line).addressHex = (addressHexValue line).getD wallet.addressHex := by
  unfold loadField addressHexValue addressValue
  split_ifs with hname haddress hnonce
  · rw [fieldValue_eq_none hname (by decide)]
    exact ⟨rfl, rfl⟩
  · rw [fieldValue_eq_some haddress]
    exact ⟨rfl, rfl⟩
  all_goals
    rw [fieldValue, if_neg haddress]
    exact ⟨rfl, rfl⟩

/-- The other fields come from no line. -/
theorem loadField_others : (loadField wallet line).publicKey = wallet.publicKey ∧
    (loadField wallet line).publicKeyLen = wallet.publicKeyLen ∧
    (loadField wallet line).evpKey = wallet.evpKey ∧ (loadField wallet line).privateKeyPem = wallet.privateKeyPem := by
  unfold loadField
  split_ifs <;> exact ⟨rfl, rfl, rfl, rfl⟩

end Values

/-! ## The parts of a file -/

def ofParts (s : Wallet Key × Bool × CharArray 2048) : LoadState Key := ⟨s.1, s.2.1, s.2.2⟩

theorem loadLine_ofParts (s : Wallet Key × Bool × CharArray 2048) (line : List UInt8) :
    loadLine (ofParts s) line = (readLine nextMode loadField CharArray.strcat s line).map ofParts := by
  obtain ⟨wallet, readingKey, pemBuffer⟩ := s
  cases readingKey with
  | true =>
    show ((pemBuffer.strcat line).map _) = ((pemBuffer.strcat line).map _).map _
    rw [Option.map_map]
    rfl
  | false =>
    show loadLine ⟨wallet, false, pemBuffer⟩ line =
      some ⟨loadField wallet line, startsWith line (ascii "PRIVATE_KEY:"), pemBuffer⟩
    unfold loadLine loadField
    rw [if_neg Bool.false_ne_true]
    split_ifs with hname haddress hnonce hkey
    · rw [startsWith_eq_false hname (by decide)]
    · rw [startsWith_eq_false haddress (by decide)]
    · rw [startsWith_eq_false hnonce (by decide)]
    · rw [hkey]
    · rw [Bool.eq_false_iff.mpr hkey]

theorem keyText_eq_within (readingKey : Bool) (text : List (List UInt8)) :
    keyText readingKey text = (within nextMode readingKey text).flatten := by
  induction text generalizing readingKey with
  | nil => rfl
  | cons line rest ih =>
    rw [keyText, within, ih]
    cases readingKey <;> rfl

/-- The wallet of a file: what its lines outside the key sections say, and the text within. -/
def walletOfFile (readKey : List UInt8 → Option Key) (file : List UInt8) : Wallet Key :=
  let fields := outside nextMode false (fileLines file)
  let key := keyText false (fileLines file)
  { name := (fields.filterMap nameValue).getLastD (CharArray.empty 64 nameSize_pos)
    address := addressAfter (Vector.replicate 20 0) (fields.filterMap addressValue)
    addressHex := (fields.filterMap addressHexValue).getLastD (CharArray.empty 41 addressHexSize_pos)
    publicKey := Vector.replicate 65 0
    publicKeyLen := 0
    evpKey := if key = [] then none else readKey key
    privateKeyPem := safeStrcpy 2047 key
    nonce := (fields.filterMap nonceValue).getLastD 0 }

theorem foldlM_strcat {n : ℕ} (dest : CharArray n) {text : List (List UInt8)} (h0 : ∀ line ∈ text, 0 ∉ line) :
    text.foldlM CharArray.strcat dest = dest.strcat text.flatten := by
  induction text generalizing dest with
  | nil => exact (CharArray.strcat_nil dest).symm
  | cons line rest ih =>
    rw [List.flatten_cons, CharArray.strcat_append dest (h0 line List.mem_cons_self), List.foldlM_cons]
    exact congrArg _ (funext fun mid => ih mid fun l hl => h0 l (List.mem_cons_of_mem _ hl))

/-- The fields and the key text after all lines. -/
theorem walletLoad_parts (readKey : List UInt8 → Option Key) (file : List UInt8) :
    walletLoad readKey file = ((CharArray.empty 2048 pemSize_pos).strcat (keyText false (fileLines file))).map
      fun pem => loadKey readKey (ofParts ((outside nextMode false (fileLines file)).foldl loadField zeroWallet,
        (fileLines file).foldl nextMode false, pem)) := by
  have h0 : ∀ line ∈ within nextMode false (fileLines file), 0 ∉ line := fun line hline =>
    noZero_fileLines file line ((within_sublist _ _).mem hline)
  have hread := foldlM_map loadLine_ofParts ((zeroWallet : Wallet Key), false, CharArray.empty 2048 pemSize_pos)
    (fileLines file)
  rw [foldlM_readLine, foldlM_strcat _ h0, ← keyText_eq_within, Option.map_map] at hread
  show ((fileLines file).foldlM loadLine (ofParts (zeroWallet, false, CharArray.empty 2048 pemSize_pos))).map _ = _
  rw [hread, Option.map_map]
  rfl

theorem loadKey_foldl (readKey : List UInt8 → Option Key) {file : List UInt8} {mode : Bool} {pem : CharArray 2048}
    (hpem : pem.chars = keyText false (fileLines file)) :
    loadKey readKey (ofParts ((outside nextMode false (fileLines file)).foldl loadField zeroWallet, mode, pem)) =
      walletOfFile readKey file := by
  have hname := get_foldl Wallet.name nameValue loadField_name (zeroWallet : Wallet Key)
    (outside nextMode false (fileLines file))
  have hnonce := get_foldl Wallet.nonce nonceValue loadField_nonce (zeroWallet : Wallet Key)
    (outside nextMode false (fileLines file))
  have haddress := get_foldl_update Wallet.address addressValue (fun address value => (hexToAddress value address).2)
    (fun w line => (loadField_address w line).1) (zeroWallet : Wallet Key) (outside nextMode false (fileLines file))
  have hhex := get_foldl Wallet.addressHex addressHexValue (fun w line => (loadField_address w line).2)
    (zeroWallet : Wallet Key) (outside nextMode false (fileLines file))
  have hothers : ∀ {β : Type} (get : Wallet Key → β), (∀ w line, get (loadField w line) = get w) →
      get ((outside nextMode false (fileLines file)).foldl loadField zeroWallet) = get zeroWallet :=
    fun get h => get_foldl_of_unset get h _ _
  have hpublic := hothers Wallet.publicKey fun w line => (loadField_others w line).1
  have hlen := hothers Wallet.publicKeyLen fun w line => (loadField_others w line).2.1
  have hkey := hothers Wallet.evpKey fun w line => (loadField_others w line).2.2.1
  have htext := hothers Wallet.privateKeyPem fun w line => (loadField_others w line).2.2.2
  generalize (outside nextMode false (fileLines file)).foldl loadField zeroWallet = w at *
  obtain ⟨name, address, addressHex, publicKey, publicKeyLen, evpKey, privateKeyPem, nonce⟩ := w
  dsimp only at hname hnonce haddress hhex hpublic hlen hkey htext
  subst hname hnonce haddress hhex hpublic hlen hkey htext
  unfold loadKey walletOfFile ofParts
  dsimp only
  rw [hpem]
  by_cases hempty : keyText false (fileLines file) = []
  · rw [hempty]
    rfl
  · rw [if_pos (List.length_pos_iff.mpr hempty), if_neg hempty]
    rfl

theorem noZero_keyText (file : List UInt8) : 0 ∉ keyText false (fileLines file) := by
  rw [keyText_eq_within]
  intro hmem
  obtain ⟨line, hline, hzero⟩ := List.mem_flatten.mp hmem
  exact noZero_fileLines file line ((within_sublist _ _).mem hline) hzero

theorem walletLoad_eq (readKey : List UInt8 → Option Key) (file : List UInt8) :
    walletLoad readKey file =
      if (keyText false (fileLines file)).length ≤ 2047 then some (walletOfFile readKey file) else none := by
  have h0 := noZero_keyText file
  rw [walletLoad_parts]
  split_ifs with hlen
  · have hchars : (safeStrcpy 2047 (keyText false (fileLines file))).chars = keyText false (fileLines file) :=
      safeStrcpy_chars h0 hlen
    have hpem := CharArray.empty_strcat pemSize_pos (safeStrcpy 2047 (keyText false (fileLines file)))
    rw [hchars] at hpem
    rw [hpem, Option.map_some, loadKey_foldl readKey hchars]
  · have hnone : ¬ ((CharArray.empty 2048 pemSize_pos).strcat (keyText false (fileLines file))).isSome = true := by
      rw [CharArray.strcat_isSome _ h0]
      show ¬ 0 + _ < 2048
      omega
    rw [Option.not_isSome_iff_eq_none.mp hnone]
    rfl

/-- **What `wallet_load` makes of a file.** -/
theorem walletLoad_iff (readKey : List UInt8 → Option Key) (file : List UInt8) (wallet : Wallet Key) :
    walletLoad readKey file = some wallet ↔
      (keyText false (fileLines file)).length ≤ 2047 ∧ wallet = walletOfFile readKey file := by
  rw [walletLoad_eq]
  split_ifs with hlen
  · rw [Option.some_inj, and_iff_right hlen]
    exact eq_comm
  · exact iff_of_false id fun h => hlen h.1

/-! ## Loaded wallets -/

/-- What every loaded wallet has: a name and an address of one line, no public key, and the key of its text. -/
structure IsLoaded (readKey : List UInt8 → Option Key) (wallet : Wallet Key) : Prop where
  name : ch '\n' ∉ wallet.name.chars
  addressHex : ch '\n' ∉ wallet.addressHex.chars
  publicKey : wallet.publicKey = Vector.replicate 65 0
  publicKeyLen : wallet.publicKeyLen = 0
  evpKey : wallet.evpKey = if wallet.privateKeyPem.chars = [] then none else readKey wallet.privateKeyPem.chars

theorem newline_notMem_trim {s : List UInt8} (h : ch '\n' ∉ s.dropLast) : ch '\n' ∉ trim s := by
  obtain ⟨⟨pre, post, hs, -, -⟩, -, hlast⟩ := Trim.isTrimmed_trimmed (p := isBlank) s
  intro hmem
  have hmem' : ch '\n' ∈ (Trim.trimmed isBlank s).dropLast := by
    refine List.mem_dropLast_of_mem_of_ne_getLast? hmem fun hnl => ?_
    exact absurd (hlast _ hnl.symm) (by decide)
  refine h ?_
  rw [hs]
  rcases (Trim.trimmed isBlank s).eq_nil_or_concat with hnil | ⟨u, c, hc⟩
  · rw [hnil] at hmem'
    cases hmem'
  · rw [hc, List.concat_eq_append] at hmem' ⊢
    rw [List.dropLast_concat] at hmem'
    rw [List.append_assoc, List.singleton_append, ← List.append_assoc,
      List.dropLast_append_of_ne_nil (List.cons_ne_nil _ _)]
    exact List.mem_append_left _ (List.mem_append_right _ hmem')

theorem newline_notMem_fileLines {file line : List UInt8} (h : line ∈ fileLines file) : ch '\n' ∉ line.dropLast := by
  obtain ⟨bytes, hbytes, rfl⟩ := List.mem_map.mp h
  have hline := Lines.notMem_dropLast_of_mem_fgetsAll lineSize_pos hbytes
  obtain ⟨rest, hrest⟩ := List.takeWhile_prefix (p := (· ≠ 0)) (l := bytes)
  intro hmem
  refine hline ?_
  rw [← hrest]
  by_cases hnil : rest = []
  · rw [hnil, List.append_nil]
    exact hmem
  · rw [List.dropLast_append_of_ne_nil hnil]
    exact List.mem_append_left _ (List.mem_of_mem_dropLast hmem)

/-- A value has its newline at its end, where `trim` takes it away. -/
theorem newline_notMem_fieldValue {field line value : List UInt8} {n : ℕ} (hline : ch '\n' ∉ line.dropLast)
    (h : fieldValue field line = some value) : ch '\n' ∉ (safeStrcpy n (trim value)).chars := by
  unfold fieldValue at h
  split at h
  · obtain rfl := Option.some.inj h
    have hvalue : ch '\n' ∉ (line.drop field.length).dropLast := by
      rw [List.dropLast_drop_eq_drop_dropLast]
      exact fun hmem => hline (List.mem_of_mem_drop hmem)
    exact fun hmem => newline_notMem_trim hvalue ((List.takeWhile_sublist _).mem (List.mem_of_mem_take hmem))
  · cases h

theorem newline_notMem_getLastD {n : ℕ} {hn : 0 < n} {values : List (CharArray n)}
    (h : ∀ value ∈ values, ch '\n' ∉ value.chars) : ch '\n' ∉ (values.getLastD (CharArray.empty n hn)).chars := by
  rcases List.mem_cons.mp (List.getLastD_mem_cons : values.getLastD (CharArray.empty n hn) ∈ _) with hempty | hmem
  · rw [hempty]
    exact List.not_mem_nil
  · exact h _ hmem

theorem isLoaded_of_walletLoad {readKey : List UInt8 → Option Key} {file : List UInt8} {wallet : Wallet Key}
    (h : walletLoad readKey file = some wallet) : IsLoaded readKey wallet := by
  rw [walletLoad_eq] at h
  split at h
  · rename_i hlen
    obtain rfl := Option.some.inj h
    have hline : ∀ line ∈ outside nextMode false (fileLines file), ch '\n' ∉ line.dropLast := fun line hline =>
      newline_notMem_fileLines ((outside_sublist _ _).mem hline)
    have hkey : (walletOfFile readKey file).privateKeyPem.chars = keyText false (fileLines file) :=
      safeStrcpy_chars (noZero_keyText file) hlen
    refine ⟨newline_notMem_getLastD fun name hname => ?_, newline_notMem_getLastD fun hex hhex => ?_, rfl, rfl, ?_⟩
    · obtain ⟨line, hmem, hvalue⟩ := List.mem_filterMap.mp hname
      obtain ⟨value, hfield, rfl⟩ := Option.map_eq_some_iff.mp hvalue
      exact newline_notMem_fieldValue (hline line hmem) hfield
    · obtain ⟨line, hmem, hvalue⟩ := List.mem_filterMap.mp hhex
      rw [addressHexValue, addressValue, Option.map_map] at hvalue
      obtain ⟨value, hfield, rfl⟩ := Option.map_eq_some_iff.mp hvalue
      exact newline_notMem_fieldValue (hline line hmem) hfield
    · rw [hkey]
      rfl
  · cases h

end ShardingSim
