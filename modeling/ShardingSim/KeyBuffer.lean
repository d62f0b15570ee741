import ShardingSim.WalletAddress

/-! The buffer of 2048 bytes in which `wallet_load` collects the key. Nothing in the reading loop bounds what is
appended to it; `keyBuffer_fits_iff` says which files it holds. -/
namespace ShardingSim
open Lines
set_option autoImplicit false

variable {Key : Type}

/-! ## The text in the buffer -/

theorem pemBuffer_loadLines {s s' : LoadState Key} {text : List (List UInt8)} (h0 : ∀ line ∈ text, 0 ∉ line)
    (h : loadLines s text = some s') :
    s'.pemBuffer.chars = s.pemBuffer.chars ++ keyText s.readingKey text ∧
      s'.wallet.privateKeyPem = s.wallet.privateKeyPem := by
  induction text generalizing s with
  | nil =>
    obtain rfl := Option.some.inj h
    exact ⟨(List.append_nil _).symm, rfl⟩
  | cons line rest ih =>
    rw [loadLines_cons] at h
    obtain ⟨s₁, hline, hrest⟩ := Option.bind_eq_some_iff.mp h
    obtain ⟨hbuffer, hkept⟩ := ih (fun l hl => h0 l (List.mem_cons_of_mem _ hl)) hrest
    rw [hbuffer, hkept, mode_loadLine hline, keyText]
    obtain ⟨hpem, ⟨hmode, hnext, -⟩ | ⟨hmode, hnext, -⟩⟩ := loadLine_cases hline
    · rw [hnext, cstr_of_notMem (h0 line List.mem_cons_self), hmode, if_pos rfl, List.append_assoc]
      exact ⟨rfl, hpem⟩
    · rw [hnext, hmode, if_neg Bool.false_ne_true, List.nil_append]
      exact ⟨rfl, hpem⟩

theorem length_le_of_loadLines {s s' : LoadState Key} {line : List UInt8} {after : List (List UInt8)}
    (h0 : ∀ l ∈ line :: after, 0 ∉ l) (hmode : s.readingKey = true)
    (h : loadLines s (line :: after) = some s') : s.pemBuffer.chars.length + line.length ≤ 2047 := by
  have hbuffer := (pemBuffer_loadLines h0 h).1
  have hlt := s'.pemBuffer.length_lt
  rw [hbuffer, keyText, hmode, if_pos rfl, List.length_append, List.length_append] at hlt
  omega

/-! ## Bounds -/

/-- Each line that is read as part of the key fits the buffer behind the text before it, with a terminator, and
the wallet has the whole text. -/
structure KeyBufferFits (readKey : List UInt8 → Option Key) (file : List UInt8) : Prop where
  appends : ∀ (before after : List (List UInt8)) (line : List UInt8) (s : LoadState Key),
    fileLines file = before ++ line :: after → loadLines loadStart before = some s → s.readingKey = true →
      s.pemBuffer.chars.length + line.length ≤ 2047
  copies : ∃ wallet, walletLoad readKey file = some wallet ∧
    wallet.privateKeyPem.chars = keyText false (fileLines file)

theorem walletLoad_isSome_iff (readKey : List UInt8 → Option Key) (file : List UInt8) :
    (walletLoad readKey file).isSome = true ↔ (keyText false (fileLines file)).length ≤ 2047 := by
  have hsome := loadLines_isSome (s := (loadStart : LoadState Key)) (noZero_fileLines file)
  have hstart : (loadStart : LoadState Key).pemBuffer.chars.length = 0 := rfl
  rw [hstart, Nat.zero_add] at hsome
  rw [walletLoad, Option.isSome_map]
  exact hsome.trans Nat.lt_succ_iff

/-- **The key buffer.** It is never overrun and loses nothing exactly if the key sections of the file have at
most 2047 characters. -/
theorem keyBuffer_fits_iff (readKey : List UInt8 → Option Key) (file : List UInt8) :
    KeyBufferFits readKey file ↔ (keyText false (fileLines file)).length ≤ 2047 := by
  have h0 := noZero_fileLines file
  constructor
  · rintro ⟨-, wallet, hload, -⟩
    rw [← walletLoad_isSome_iff readKey, hload]
    rfl
  · intro hlen
    obtain ⟨wallet, hload⟩ := Option.isSome_iff_exists.mp ((walletLoad_isSome_iff readKey file).mpr hlen)
    obtain ⟨s', hs', hwallet⟩ := Option.map_eq_some_iff.mp hload
    obtain ⟨hbuffer, hkept⟩ := pemBuffer_loadLines h0 hs'
    refine ⟨fun before after line s hfile hs hmode => ?_, wallet, hload, ?_⟩
    · rw [show fileLines file = before ++ line :: after from hfile] at h0
      have hall : loadLines loadStart (before ++ line :: after) = some s' := hfile ▸ hs'
      rw [loadLines_append, hs, Option.bind_some] at hall
      exact length_le_of_loadLines (fun l hl => h0 l (List.mem_append_right _ hl)) hmode hall
    · have hcopy : (loadKey readKey s').privateKeyPem = s'.pemBuffer := by
        refine loadKey_privateKeyPem readKey fun hempty => ?_
        rw [hkept]
        exact CharArray.ext hempty.symm
      rw [← hwallet, hcopy, hbuffer]
      rfl

/-! ## A key section that never ends -/

/-- 32 lines of 64 characters behind `PRIVATE_KEY:`. -/
def longKeyFile : List UInt8 :=
  ascii "PRIVATE_KEY:\n" ++ (List.replicate 32 (List.replicate 63 (ch 'A') ++ [ch '\n'])).flatten

theorem keyText_longKeyFile : (keyText false (fileLines longKeyFile)).length = 2048 := by
  have hshort : ∀ line ∈ lines (ch '\n') longKeyFile, line.length ≤ 2047 := by
    decide +kernel
  rw [fileLines, fgetsAll_eq_lines _ hshort]
  decide +kernel

theorem keyBuffer_overrun : ¬ ∀ (readKey : List UInt8 → Option Unit) (file : List UInt8),
    KeyBufferFits readKey file := by
  intro h
  obtain ⟨wallet, hload, -⟩ := (h (fun _ => none) longKeyFile).copies
  have hlen := (walletLoad_isSome_iff (fun _ => none) longKeyFile).mp (Option.isSome_iff_exists.mpr ⟨wallet, hload⟩)
  rw [keyText_longKeyFile] at hlen
  exact absurd hlen (by decide)

end ShardingSim
