import ShardingSim.Library.Run
import ShardingSim.WalletParsing

/-! Wallets that are loaded from any file, and then saved and loaded again, over and over. A round shortens the key
text until it ends with its first end mark, and one more round cuts the blanks behind the name and the address and
decodes the address anew; then nothing changes any more (`walletReload`). -/
namespace ShardingSim
open Decimal Fields Lines Run
set_option autoImplicit false

variable {Key : Type}

/-! ## The lines of a saved wallet -/

theorem trim_concat_newline (s : List UInt8) : trim (s ++ [ch '\n']) = trim s := by
  obtain ⟨⟨pre, post, hs, hpre, hpost⟩, hhead, hlast⟩ := Trim.isTrimmed_trimmed (p := isBlank) s
  refine Trim.IsTrimmed.eq ⟨⟨pre, post ++ [ch '\n'], ?_, hpre, ?_⟩, hhead, hlast⟩
  · show s ++ [ch '\n'] = pre ++ (Trim.trimmed isBlank s ++ (post ++ [ch '\n']))
    rw [← List.append_assoc (Trim.trimmed isBlank s), ← List.append_assoc pre, ← hs]
  · rw [List.forall_mem_append, List.forall_mem_singleton]
    exact ⟨hpost, by decide⟩

theorem trim_trim (s : List UInt8) : trim (trim s) = trim s := Trim.trimmed_trimmed s

/-- The four lines before the key text. -/
def headLines (wallet : Wallet Key) : List (List UInt8) :=
  [nameLine wallet.name.chars, addressLine wallet.addressHex.chars, nonceLine wallet.nonce, privateKeyLine]

section Saved
variable {readKey : List UInt8 → Option Key} {wallet : Wallet Key} (hw : IsLoaded readKey wallet)
include hw

theorem lines_walletSave_loaded :
    lines (ch '\n') (walletSave wallet) = headLines wallet ++ lines (ch '\n') wallet.privateKeyPem.chars := by
  have hname : ch '\n' ∉ ascii "NAME:" ++ wallet.name.chars := by
    rw [List.mem_append, not_or]
    exact ⟨by decide, hw.name⟩
  have haddress : ch '\n' ∉ ascii "ADDRESS:" ++ wallet.addressHex.chars := by
    rw [List.mem_append, not_or]
    exact ⟨by decide, hw.addressHex⟩
  have hnonce : ch '\n' ∉ ascii "NONCE:" ++ decimal wallet.nonce.toNat := by
    rw [List.mem_append, not_or]
    exact ⟨by decide, newline_notMem_decimal _⟩
  rw [walletSave, List.append_assoc, List.append_assoc, List.append_assoc, nameLine, lines_line_append hname,
    addressLine, lines_line_append haddress, nonceLine, lines_line_append hnonce, privateKeyLine,
    lines_line_append (by decide)]
  rfl

theorem fileLines_walletSave :
    fileLines (walletSave wallet) = headLines wallet ++ lines (ch '\n') wallet.privateKeyPem.chars := by
  have hfits : ∀ line ∈ lines (ch '\n') (walletSave wallet), Fits line := by
    intro line hline
    rw [lines_walletSave_loaded hw, List.mem_append] at hline
    rcases hline with hline | hline
    · simp only [headLines, List.mem_cons, List.not_mem_nil, or_false] at hline
      obtain rfl | rfl | rfl | rfl := hline
      · exact CharArray.fits wallet.name (by decide) (by decide)
      · exact CharArray.fits wallet.addressHex (by decide) (by decide)
      · exact fits_nonceLine _
      · exact ⟨by decide, by decide⟩
    · exact Fits.line ⟨Nat.le_of_lt_succ wallet.privateKeyPem.length_lt, wallet.privateKeyPem.noZero⟩ hline
  have hcstr : (lines (ch '\n') (walletSave wallet)).map cstr = lines (ch '\n') (walletSave wallet) :=
    (List.map_congr_left fun line hline => cstr_of_notMem (hfits line hline).2).trans (List.map_id _)
  rw [fileLines, fgetsAll_eq_lines _ fun line hline => (hfits line hline).1, hcstr, lines_walletSave_loaded hw]

end Saved

section HeadLines
variable (wallet : Wallet Key)

theorem startsWith_nameLine : startsWith (nameLine wallet.name.chars) (ascii "NAME:") = true :=
  startsWith_iff.mpr ⟨wallet.name.chars ++ [ch '\n'], (List.append_assoc _ _ _).symm⟩

theorem startsWith_addressLine : startsWith (addressLine wallet.addressHex.chars) (ascii "ADDRESS:") = true :=
  startsWith_iff.mpr ⟨wallet.addressHex.chars ++ [ch '\n'], (List.append_assoc _ _ _).symm⟩

theorem startsWith_nonceLine : startsWith (nonceLine wallet.nonce) (ascii "NONCE:") = true :=
  startsWith_iff.mpr ⟨decimal wallet.nonce.toNat ++ [ch '\n'], (List.append_assoc _ _ _).symm⟩

theorem startsWith_privateKeyLine : startsWith privateKeyLine (ascii "PRIVATE_KEY:") = true := by decide

theorem nextMode_of_startsWith {field line : List UInt8} (h : startsWith line field = true)
    (hne : ¬ (field <+: ascii "PRIVATE_KEY:" ∨ ascii "PRIVATE_KEY:" <+: field)) : nextMode false line = false :=
  @startsWith_eq_false field (ascii "PRIVATE_KEY:") line h hne

/-- The key text begins behind the four lines. -/
theorem parts_headLines (text : List (List UInt8)) :
    outside nextMode false (headLines wallet ++ text) = headLines wallet ++ outside nextMode true text ∧
      keyText false (headLines wallet ++ text) = keyText true text := by
  have hname := nextMode_of_startsWith (startsWith_nameLine wallet) (by decide)
  have haddress := nextMode_of_startsWith (startsWith_addressLine wallet) (by decide)
  have hnonce := nextMode_of_startsWith (startsWith_nonceLine wallet) (by decide)
  have hkey : nextMode false privateKeyLine = true := startsWith_privateKeyLine
  constructor
  · simp only [headLines, List.cons_append, List.nil_append, outside, hname, haddress, hnonce, hkey,
      Bool.false_eq_true, if_false]
  · simp only [headLines, List.cons_append, List.nil_append, keyText, hname, haddress, hnonce, hkey,
      Bool.false_eq_true, if_false]

/-- Each field has one line. -/
theorem filterMap_fieldValue :
    (headLines wallet).filterMap (fieldValue (ascii "NAME:")) = [wallet.name.chars ++ [ch '\n']] ∧
      (headLines wallet).filterMap (fieldValue (ascii "ADDRESS:")) = [wallet.addressHex.chars ++ [ch '\n']] ∧
      (headLines wallet).filterMap (fieldValue (ascii "NONCE:")) = [decimal wallet.nonce.toNat ++ [ch '\n']] := by
  have hname := startsWith_nameLine wallet
  have haddress := startsWith_addressLine wallet
  have hnonce := startsWith_nonceLine wallet
  have hkey := startsWith_privateKeyLine
  refine ⟨?_, ?_, ?_⟩
  · rw [headLines, List.filterMap_cons_some (fieldValue_eq_some hname),
      List.filterMap_cons_none (fieldValue_eq_none haddress (by decide)),
      List.filterMap_cons_none (fieldValue_eq_none hnonce (by decide)),
      List.filterMap_cons_none (fieldValue_eq_none hkey (by decide))]
    rfl
  · rw [headLines, List.filterMap_cons_none (fieldValue_eq_none hname (by decide)),
      List.filterMap_cons_some (fieldValue_eq_some haddress),
      List.filterMap_cons_none (fieldValue_eq_none hnonce (by decide)),
      List.filterMap_cons_none (fieldValue_eq_none hkey (by decide))]
    rfl
  · rw [headLines, List.filterMap_cons_none (fieldValue_eq_none hname (by decide)),
      List.filterMap_cons_none (fieldValue_eq_none haddress (by decide)),
      List.filterMap_cons_some (fieldValue_eq_some hnonce),
      List.filterMap_cons_none (fieldValue_eq_none hkey (by decide))]
    rfl

theorem filterMap_nameValue : (headLines wallet).filterMap nameValue = [safeStrcpy 63 (trim wallet.name.chars)] := by
  show (headLines wallet).filterMap (fun line => (fieldValue (ascii "NAME:") line).map _) = _
  rw [← List.map_filterMap, (filterMap_fieldValue wallet).1, List.map_singleton, trim_concat_newline]

theorem filterMap_addressValue : (headLines wallet).filterMap addressValue = [trim wallet.addressHex.chars] := by
  show (headLines wallet).filterMap (fun line => (fieldValue (ascii "ADDRESS:") line).map _) = _
  rw [← List.map_filterMap, (filterMap_fieldValue wallet).2.1, List.map_singleton, trim_concat_newline]

theorem filterMap_addressHexValue :
    (headLines wallet).filterMap addressHexValue = [safeStrcpy 40 (trim wallet.addressHex.chars)] := by
  show (headLines wallet).filterMap (fun line => (addressValue line).map _) = _
  rw [← List.map_filterMap, filterMap_addressValue, List.map_singleton]

theorem filterMap_nonceValue : (headLines wallet).filterMap nonceValue = [wallet.nonce] := by
  have hend : ∀ c, [ch '\n'].head? = some c → isDigit c = false := by
    intro c hc
    rw [← Option.some.inj hc]
    decide
  show (headLines wallet).filterMap (fun line => (fieldValue (ascii "NONCE:") line).map _) = _
  rw [← List.map_filterMap, (filterMap_fieldValue wallet).2.2, List.map_singleton, strtoull_decimal _ hend]

end HeadLines

/-! ## One round -/

def reload (readKey : List UInt8 → Option Key) (wallet : Wallet Key) (_ : Unit) : Option (Wallet Key) :=
  walletLoad readKey (walletSave wallet)

/-- What a round makes of a wallet whose key text comes back. -/
def renew (wallet : Wallet Key) : Wallet Key :=
  { wallet with
    name := safeStrcpy 63 (trim wallet.name.chars)
    address := (hexToAddress (trim wallet.addressHex.chars) (Vector.replicate 20 0)).2
    addressHex := safeStrcpy 40 (trim wallet.addressHex.chars) }

/-- The wallets that a round leaves as they are: nothing follows the first end mark of the key, the name and the address
end with no blank, where they were cut, and the address is the one that this text alone makes. -/
structure Reloads (wallet : Wallet Key) : Prop where
  key : PemText wallet.privateKeyPem.chars
  name : trim wallet.name.chars = wallet.name.chars
  addressHex : trim wallet.addressHex.chars = wallet.addressHex.chars
  address : (hexToAddress wallet.addressHex.chars (Vector.replicate 20 0)).2 = wallet.address

theorem pemText_iff (pem : List UInt8) :
    PemText pem ↔ ∀ line ∈ (lines (ch '\n') pem).dropLast, nextMode true line = true := by
  refine forall₂_congr fun line _ => ?_
  show _ ↔ (!strstr line (ascii "-----END")) = true
  rw [Bool.not_eq_true', strstr, decide_eq_false_iff_not]

section Round
variable {readKey : List UInt8 → Option Key} {wallet : Wallet Key} (hw : IsLoaded readKey wallet)

theorem keyText_sublist (pem : List UInt8) : (keyText true (lines (ch '\n') pem)).Sublist pem := by
  have hsub := (@within_sublist _ nextMode true (lines (ch '\n') pem)).flatten
  rwa [lines_flatten, ← keyText_eq_within] at hsub

theorem keyText_lines (pem : List UInt8) : (keyText true (lines (ch '\n') pem) = pem ↔ PemText pem) ∧
    (keyText true (lines (ch '\n') pem)).length ≤ pem.length := by
  have hsub : (within nextMode true (lines (ch '\n') pem)).Sublist (lines (ch '\n') pem) := within_sublist _ _
  have hle := hsub.flatten.length_le
  rw [lines_flatten] at hle
  rw [keyText_eq_within, pemText_iff, ← within_eq_self_iff]
  refine ⟨⟨fun heq => ?_, fun heq => ?_⟩, hle⟩
  · by_contra hne
    have hlt := flatten_length_lt hsub hne fun line hline => ne_nil_of_mem_lines hline
    rw [heq, lines_flatten] at hlt
    exact lt_irrefl _ hlt
  · rw [heq, lines_flatten]

include hw

theorem keyText_walletSave : keyText false (fileLines (walletSave wallet)) =
    keyText true (lines (ch '\n') wallet.privateKeyPem.chars) := by
  rw [fileLines_walletSave hw, (parts_headLines wallet _).2]

/-- A loaded wallet can always be loaded again. -/
theorem reload_eq : reload readKey wallet () = some (walletOfFile readKey (walletSave wallet)) := by
  have hlen := wallet.privateKeyPem.length_lt
  have hle := (keyText_lines wallet.privateKeyPem.chars).2
  rw [reload, walletLoad_eq, keyText_walletSave hw, if_pos (by omega)]

theorem walletOfFile_pem : (walletOfFile readKey (walletSave wallet)).privateKeyPem.chars =
    keyText true (lines (ch '\n') wallet.privateKeyPem.chars) := by
  have hlen := wallet.privateKeyPem.length_lt
  have hle := (keyText_lines wallet.privateKeyPem.chars).2
  have h0 := noZero_keyText (walletSave wallet)
  rw [keyText_walletSave hw] at h0
  show (safeStrcpy 2047 (keyText false (fileLines (walletSave wallet)))).chars = _
  rw [keyText_walletSave hw, safeStrcpy_chars h0 (by omega)]

theorem walletOfFile_walletSave (hpem : PemText wallet.privateKeyPem.chars) :
    walletOfFile readKey (walletSave wallet) = renew wallet := by
  have hkey := (keyText_lines wallet.privateKeyPem.chars).1.mpr hpem
  have hfields : outside nextMode false (fileLines (walletSave wallet)) = headLines wallet := by
    rw [fileLines_walletSave hw, (parts_headLines wallet _).1, outside_eq_nil ((pemText_iff _).mp hpem),
      List.append_nil]
  have hevp : wallet.evpKey = if wallet.privateKeyPem.chars = [] then none
      else readKey wallet.privateKeyPem.chars := hw.evpKey
  unfold walletOfFile renew
  rw [keyText_walletSave hw, hkey, hfields, hw.publicKey, hw.publicKeyLen, hevp]
  dsimp only
  rw [filterMap_nameValue, filterMap_addressValue, filterMap_addressHexValue, filterMap_nonceValue, safeStrcpy_self]
  rfl

omit hw

theorem safeStrcpy_trim_chars {n : ℕ} (a : CharArray (n + 1)) : (safeStrcpy n (trim a.chars)).chars = trim a.chars := by
  have hsub : (trim a.chars).Sublist a.chars :=
    (List.rdropWhile_prefix _ _).sublist.trans (List.dropWhile_suffix _).sublist
  have hlt := a.length_lt
  have hle := hsub.length_le
  exact safeStrcpy_chars (fun h0 => a.noZero (hsub.mem h0)) (by omega)

theorem reloads_renew (hpem : PemText wallet.privateKeyPem.chars) : Reloads (renew wallet) := by
  have hname : (renew wallet).name.chars = trim wallet.name.chars := safeStrcpy_trim_chars wallet.name
  have hhex : (renew wallet).addressHex.chars = trim wallet.addressHex.chars := safeStrcpy_trim_chars wallet.addressHex
  refine ⟨hpem, ?_, ?_, ?_⟩
  · rw [hname, trim_trim]
  · rw [hhex, trim_trim]
  · rw [hhex]
    rfl

theorem renew_eq_iff (hpem : PemText wallet.privateKeyPem.chars) : renew wallet = wallet ↔ Reloads wallet := by
  refine ⟨fun h => h ▸ reloads_renew hpem, fun h => ?_⟩
  have hname : safeStrcpy 63 (trim wallet.name.chars) = wallet.name := by rw [h.name, safeStrcpy_self]
  have hhex : safeStrcpy 40 (trim wallet.addressHex.chars) = wallet.addressHex := by rw [h.addressHex, safeStrcpy_self]
  rw [renew, hname, hhex, h.addressHex, h.address]

include hw

theorem reload_eq_self_iff : reload readKey wallet () = some wallet ↔ Reloads wallet := by
  rw [reload_eq hw, Option.some_inj]
  by_cases hpem : PemText wallet.privateKeyPem.chars
  · rw [walletOfFile_walletSave hw hpem, renew_eq_iff hpem]
  · refine iff_of_false (fun heq => hpem ?_) fun h => hpem h.key
    rw [← (keyText_lines _).1, ← walletOfFile_pem hw, heq]

/-- One round more ends it, or the key text gets shorter. -/
theorem reload_cases : ∃ wallet', reload readKey wallet () = some wallet' ∧ IsLoaded readKey wallet' ∧
    (reload readKey wallet' () = some wallet' ∨
      wallet'.privateKeyPem.chars.length < wallet.privateKeyPem.chars.length) := by
  have hload := reload_eq hw
  have hw' := isLoaded_of_walletLoad hload
  refine ⟨_, hload, hw', ?_⟩
  by_cases hpem : PemText wallet.privateKeyPem.chars
  · refine Or.inl ((reload_eq_self_iff hw').mpr ?_)
    rw [walletOfFile_walletSave hw hpem]
    exact reloads_renew hpem
  · refine Or.inr ?_
    obtain ⟨hkept, hle⟩ := keyText_lines wallet.privateKeyPem.chars
    rw [walletOfFile_pem hw]
    refine lt_of_le_of_ne hle fun hlength => hpem (hkept.mp ?_)
    exact (keyText_sublist _).eq_of_length hlength

end Round

/-- **Rounds through the file**, from whatever file the wallet was loaded. -/
theorem walletReload (readKey : List UInt8 → Option Key) {file : List UInt8} {wallet : Wallet Key}
    (h : walletLoad readKey file = some wallet) :
    (walletLoad readKey (walletSave wallet) = some wallet ↔ Reloads wallet) ∧
      (PemText wallet.privateKeyPem.chars → ∀ n, run (reload readKey) wallet (List.replicate (n + 1) ()) =
        some (renew wallet)) ∧
      ∀ n > wallet.privateKeyPem.chars.length, ∃ wallet',
        run (reload readKey) wallet (List.replicate n ()) = some wallet' ∧ Reloads wallet' := by
  have hw := isLoaded_of_walletLoad h
  refine ⟨reload_eq_self_iff hw, fun hpem n => ?_, fun n hn => ?_⟩
  · have hfirst : reload readKey wallet () = some (renew wallet) := by
      rw [reload_eq hw, walletOfFile_walletSave hw hpem]
    have hfixed := (reload_eq_self_iff (isLoaded_of_walletLoad hfirst)).mpr (reloads_renew hpem)
    rw [List.replicate_succ, run, hfirst]
    exact run_replicate_of_fixed hfixed n
  · obtain ⟨wallet', hrun, hw', hfixed⟩ := run_replicate_fixed (fun w : Wallet Key => w.privateKeyPem.chars.length)
      (fun w hw => reload_cases hw) hw hn
    exact ⟨wallet', hrun, (reload_eq_self_iff hw').mp hfixed⟩

/-- The second key section is not read again, so that its end mark is lost. -/
def twoKeysFile : List UInt8 := ascii "PRIVATE_KEY:\nA-----END\nPRIVATE_KEY:\nNONCE:7-----END\n"

theorem keyText_twoKeysFile :
    keyText false (fileLines twoKeysFile) = ascii "A-----END\nNONCE:7-----END\n" := by
  have hshort : ∀ line ∈ lines (ch '\n') twoKeysFile, line.length ≤ 2047 := by decide
  rw [fileLines, fgetsAll_eq_lines _ hshort]
  decide

theorem walletReload_twoKeys :
    walletLoad (fun _ => some ()) (walletSave (walletOfFile (fun _ => some ()) twoKeysFile)) ≠
      some (walletOfFile (fun _ => some ()) twoKeysFile) := by
  have hload : walletLoad (fun _ => some ()) twoKeysFile = some (walletOfFile (fun _ => some ()) twoKeysFile) := by
    rw [walletLoad_eq, keyText_twoKeysFile]
    rfl
  intro h
  have hpem := ((walletReload (fun _ => some ()) hload).1.mp h).key
  have hchars : (walletOfFile (fun _ => some ()) twoKeysFile).privateKeyPem.chars =
      ascii "A-----END\nNONCE:7-----END\n" := by
    show (safeStrcpy 2047 (keyText false (fileLines twoKeysFile))).chars = _
    rw [keyText_twoKeysFile]
    decide
  rw [hchars] at hpem
  exact absurd hpem (by decide)

end ShardingSim
