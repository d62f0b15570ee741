import Mathlib.Tactic

/-! The protobuf wire format, as far as messages of variable-length integers and length-delimited fields
need it: a message is a sequence of entries, each a field number with its payload. The reader is a partial
specification: it says nothing (`none`) about malformed input and about the other wire types.
`decode_encode`: what was written is read back. -/
namespace ProtoWire
set_option autoImplicit false

/-! ## Variable-length integers -/

/-- Seven bits a byte, the lowest first, with the high bit set on every byte but the last. -/
def varint (n : ℕ) : List UInt8 :=
  if n < 128 then [UInt8.ofNat n] else UInt8.ofNat (n % 128 + 128) :: varint (n / 128)

def readVarint : ℕ → List UInt8 → Option (ℕ × List UInt8)
  | 0, _ => none
  | _ + 1, [] => none
  | limit + 1, b :: rest =>
    if b.toNat < 128 then some (b.toNat, rest)
    else (readVarint limit rest).map fun p => (b.toNat - 128 + 128 * p.1, p.2)

theorem varint_ne_nil (n : ℕ) : varint n ≠ [] := by
  rw [varint]
  split <;> exact List.cons_ne_nil _ _

theorem readVarint_varint {limit n : ℕ} (hpos : 0 < limit) (h : n < 128 ^ limit) (rest : List UInt8) :
    readVarint limit (varint n ++ rest) = some (n, rest) := by
  induction limit generalizing n with
  | zero => exact absurd hpos (Nat.lt_irrefl 0)
  | succ limit ih =>
    rw [Nat.pow_succ] at h
    rw [varint]
    by_cases hn : n < 128
    · have hbyte : (UInt8.ofNat n).toNat = n := by
        rw [UInt8.toNat_ofNat', Nat.mod_eq_of_lt (by omega)]
      rw [if_pos hn, List.singleton_append, readVarint, hbyte, if_pos hn]
    · have hbyte : (UInt8.ofNat (n % 128 + 128)).toNat = n % 128 + 128 := by
        rw [UInt8.toNat_ofNat', Nat.mod_eq_of_lt (by omega)]
      have hquot : n / 128 < 128 ^ limit := by omega
      have hlimit : 0 < limit := by
        refine Nat.pos_of_ne_zero fun h0 => ?_
        rw [h0, Nat.pow_zero] at hquot
        omega
      rw [if_neg hn, List.cons_append, readVarint, hbyte, if_neg (by omega), ih hlimit hquot,
        Option.map_some]
      simp only [Option.some.injEq, Prod.mk.injEq, and_true]
      omega

theorem varint_length_le (limit n : ℕ) (hpos : 0 < limit) (h : n < 128 ^ limit) :
    (varint n).length ≤ limit := by
  induction limit generalizing n with
  | zero => exact absurd hpos (Nat.lt_irrefl 0)
  | succ limit ih =>
    rw [Nat.pow_succ] at h
    rw [varint]
    by_cases hn : n < 128
    · rw [if_pos hn]
      exact Nat.succ_le_succ (Nat.zero_le _)
    · have hquot : n / 128 < 128 ^ limit := by omega
      have hlimit : 0 < limit := by
        refine Nat.pos_of_ne_zero fun h0 => ?_
        rw [h0, Nat.pow_zero] at hquot
        omega
      rw [if_neg hn, List.length_cons]
      exact Nat.succ_le_succ (ih _ hlimit hquot)

theorem readVarint_length {limit : ℕ} {bytes rest : List UInt8} {n : ℕ}
    (h : readVarint limit bytes = some (n, rest)) : rest.length < bytes.length := by
  induction limit generalizing bytes n with
  | zero => cases h
  | succ limit ih =>
    cases bytes with
    | nil => cases h
    | cons b bytes =>
      rw [readVarint] at h
      split at h
      · cases h
        exact Nat.lt_succ_self _
      · obtain ⟨p, hp, he⟩ := Option.map_eq_some_iff.mp h
        cases he
        exact Nat.lt_succ_of_lt (ih hp)

/-! ## Entries -/

inductive Payload where
  | varint (n : ℕ)
  | bytes (b : List UInt8)
deriving DecidableEq

structure Entry where
  number : ℕ
  payload : Payload
deriving DecidableEq

/-- What fits the format: field numbers below 2^29, integers below 2^64, lengths below 2^31. -/
def Entry.Valid (e : Entry) : Prop :=
  0 < e.number ∧ e.number < 2 ^ 29 ∧
    match e.payload with
    | .varint n => n < 2 ^ 64
    | .bytes b => b.length < 2 ^ 31

def encodeEntry (e : Entry) : List UInt8 :=
  match e.payload with
  | .varint n => varint (e.number * 8) ++ varint n
  | .bytes b => varint (e.number * 8 + 2) ++ (varint b.length ++ b)

def encode (es : List Entry) : List UInt8 := es.flatMap encodeEntry

def readEntry (bytes : List UInt8) : Option (Entry × List UInt8) :=
  match readVarint 5 bytes with
  | none => none
  | some (tag, rest) =>
    if 0 < tag / 8 ∧ tag / 8 < 2 ^ 29 then
      match tag % 8 with
      | 0 =>
        match readVarint 10 rest with
        | none => none
        | some (n, rest) => if n < 2 ^ 64 then some (⟨tag / 8, .varint n⟩, rest) else none
      | 2 =>
        match readVarint 5 rest with
        | none => none
        | some (len, rest) =>
          if len < 2 ^ 31 ∧ len ≤ rest.length then some (⟨tag / 8, .bytes (rest.take len)⟩, rest.drop len)
          else none
      | _ => none
    else none

/-- An entry takes two bytes at least, one for the tag and one for the integer or the length. -/
theorem readEntry_length_add {bytes rest : List UInt8} {e : Entry} (h : readEntry bytes = some (e, rest)) :
    rest.length + 2 ≤ bytes.length := by
  unfold readEntry at h
  split at h
  · cases h
  · rename_i tag after htag
    have hafter := readVarint_length htag
    split at h
    · split at h
      · split at h
        · cases h
        · rename_i n tail hn
          have htail := readVarint_length hn
          split at h
          · cases h
            omega
          · cases h
      · split at h
        · cases h
        · rename_i len tail hlen
          have htail := readVarint_length hlen
          split at h
          · cases h
            rw [List.length_drop]
            omega
          · cases h
      · cases h
    · cases h

theorem readEntry_length {bytes rest : List UInt8} {e : Entry} (h : readEntry bytes = some (e, rest)) :
    rest.length < bytes.length := by
  have := readEntry_length_add h
  omega

theorem readEntry_encode {e : Entry} (he : e.Valid) (rest : List UInt8) :
    readEntry (encodeEntry e ++ rest) = some (e, rest) := by
  obtain ⟨number, payload⟩ := e
  have hpos : 0 < number := he.1
  have hlt : number < 2 ^ 29 := he.2.1
  have hpayload := he.2.2
  cases payload with
  | varint n =>
    have htag : readVarint 5 (varint (number * 8) ++ (varint n ++ rest)) =
        some (number * 8, varint n ++ rest) := readVarint_varint (by decide) (by omega) _
    have hdiv : number * 8 / 8 = number := Nat.mul_div_cancel _ (by decide)
    have hmod : number * 8 % 8 = 0 := Nat.mul_mod_left _ _
    have hvalue : readVarint 10 (varint n ++ rest) = some (n, rest) :=
      readVarint_varint (by decide) (Nat.lt_trans hpayload (by decide)) _
    rw [encodeEntry, List.append_assoc, readEntry, htag]
    simp only [hdiv, hmod, hvalue]
    rw [if_pos ⟨hpos, hlt⟩, if_pos hpayload]
  | bytes b =>
    have htag : readVarint 5 (varint (number * 8 + 2) ++ (varint b.length ++ (b ++ rest))) =
        some (number * 8 + 2, varint b.length ++ (b ++ rest)) :=
      readVarint_varint (by decide) (by omega) _
    have hdiv : (number * 8 + 2) / 8 = number := by omega
    have hmod : (number * 8 + 2) % 8 = 2 := by omega
    have hlen : readVarint 5 (varint b.length ++ (b ++ rest)) = some (b.length, b ++ rest) :=
      readVarint_varint (by decide) (Nat.lt_trans hpayload (by decide)) _
    have hfits : b.length ≤ (b ++ rest).length := by
      rw [List.length_append]
      exact Nat.le_add_right _ _
    rw [encodeEntry, List.append_assoc, List.append_assoc, readEntry, htag]
    simp only [hdiv, hmod, hlen]
    rw [if_pos ⟨hpos, hlt⟩, if_pos ⟨hpayload, hfits⟩, List.take_left, List.drop_left]

/-! ## Messages -/

def decode (bytes : List UInt8) : Option (List Entry) :=
  if bytes = [] then some []
  else
    match _h : readEntry bytes with
    | none => none
    | some (e, rest) => (decode rest).map (e :: ·)
termination_by bytes.length
decreasing_by exact readEntry_length _h

theorem encodeEntry_ne_nil (e : Entry) : encodeEntry e ≠ [] := by
  unfold encodeEntry
  cases e.payload <;> exact List.append_ne_nil_of_left_ne_nil (varint_ne_nil _) _

/-- **Entries that were written are read back.** -/
theorem decode_encode (es : List Entry) (h : ∀ e ∈ es, e.Valid) : decode (encode es) = some es := by
  induction es with
  | nil => rw [encode, List.flatMap_nil, decode, if_pos rfl]
  | cons e es ih =>
    have hne : encodeEntry e ++ encode es ≠ [] :=
      List.append_ne_nil_of_left_ne_nil (encodeEntry_ne_nil e) _
    have hread := readEntry_encode (h e List.mem_cons_self) (encode es)
    have hrest := ih fun x hx => h x (List.mem_cons_of_mem _ hx)
    rw [encode, List.flatMap_cons, ← encode, decode, if_neg hne]
    split
    · rename_i hnone
      rw [hnone] at hread
      cases hread
    · rename_i e' rest hsome
      rw [hsome] at hread
      cases hread
      rw [hrest, Option.map_some]

theorem decode_length {bytes : List UInt8} {es : List Entry} (h : decode bytes = some es) :
    2 * es.length ≤ bytes.length := by
  induction hn : bytes.length using Nat.strong_induction_on generalizing bytes es with
  | _ n ih =>
    rw [decode] at h
    split at h
    · cases h
      exact Nat.zero_le _
    · split at h
      · cases h
      · rename_i e rest hread
        have htwo := readEntry_length_add hread
        obtain ⟨fs, hfs, rfl⟩ := Option.map_eq_some_iff.mp h
        have hrest := ih rest.length (by omega) hfs rfl
        rw [List.length_cons]
        omega

/-! ## Fields without presence -/

/-- An integer field, which is omitted when it is zero. -/
def scalarField (number n : ℕ) : List Entry := if n = 0 then [] else [⟨number, .varint n⟩]

/-- A bytes field, which is omitted when it is empty. -/
def bytesField (number : ℕ) (b : List UInt8) : List Entry := if b = [] then [] else [⟨number, .bytes b⟩]

theorem scalarField_valid {number n : ℕ} (hpos : 0 < number) (hlt : number < 2 ^ 29) (hn : n < 2 ^ 64) :
    ∀ e ∈ scalarField number n, e.Valid := by
  intro e he
  unfold scalarField at he
  split at he
  · cases he
  · rw [List.mem_singleton.mp he]
    exact ⟨hpos, hlt, hn⟩

theorem bytesField_valid {number : ℕ} {b : List UInt8} (hpos : 0 < number) (hlt : number < 2 ^ 29)
    (hb : b.length < 2 ^ 31) : ∀ e ∈ bytesField number b, e.Valid := by
  intro e he
  unfold bytesField at he
  split at he
  · cases he
  · rw [List.mem_singleton.mp he]
    exact ⟨hpos, hlt, hb⟩

theorem encode_append (es fs : List Entry) : encode (es ++ fs) = encode es ++ encode fs :=
  List.flatMap_append

theorem tag_length (number wireType : ℕ) (h : number * 8 + wireType < 128) :
    (varint (number * 8 + wireType)).length = 1 := by
  rw [varint, if_pos h]
  rfl

theorem scalarField_length_le (number n limit : ℕ) (hnumber : number < 16) (hpos : 0 < limit)
    (hn : n < 128 ^ limit) : (encode (scalarField number n)).length ≤ 1 + limit := by
  unfold scalarField
  split
  · exact Nat.zero_le _
  · have htag := tag_length number 0 (by omega)
    have hvalue := varint_length_le limit n hpos hn
    rw [encode, List.flatMap_singleton, encodeEntry, List.length_append, ← Nat.add_zero (number * 8), htag]
    omega

theorem bytesField_length_le (number limit : ℕ) (b : List UInt8) (hnumber : number < 15) (hpos : 0 < limit)
    (hb : b.length < 128 ^ limit) :
    (encode (bytesField number b)).length ≤ 1 + limit + b.length := by
  unfold bytesField
  split
  · exact Nat.zero_le _
  · have htag := tag_length number 2 (by omega)
    have hlen := varint_length_le limit b.length hpos hb
    rw [encode, List.flatMap_singleton, encodeEntry, List.length_append, List.length_append, htag]
    omega

end ProtoWire
