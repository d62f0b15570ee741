import Mathlib.Tactic

/-! Decimal text of numbers, and the number that a C scanner reads from text: blanks, a sign, then as many
digits as follow. `scanInteger_decimal`: a number written is read back whatever stands behind it, unless
that is a digit. -/
namespace Decimal
set_option autoImplicit false

def digit (d : ℕ) : UInt8 := UInt8.ofNat (48 + d)

def isDigit (c : UInt8) : Bool := 48 ≤ c.toNat && c.toNat ≤ 57

def decimal (n : ℕ) : List UInt8 :=
  if n < 10 then [digit n] else decimal (n / 10) ++ [digit (n % 10)]

/-- The number that the leading digits of a text write, behind those already read. -/
def scanDigits (acc : ℕ) : List UInt8 → ℕ
  | [] => acc
  | c :: text => if isDigit c then scanDigits (10 * acc + (c.toNat - 48)) text else acc

def isSpace (c : UInt8) : Bool := c.toNat = 32 || (9 ≤ c.toNat && c.toNat ≤ 13)

/-- The integer at the start of a text; zero if there is none. -/
def scanInteger (text : List UInt8) : ℤ :=
  match text.dropWhile isSpace with
  | [] => 0
  | c :: rest =>
    if c.toNat = 45 then -(scanDigits 0 rest : ℤ)
    else if c.toNat = 43 then scanDigits 0 rest
    else scanDigits 0 (c :: rest)

theorem digit_toNat {d : ℕ} (h : d < 10) : (digit d).toNat = 48 + d := by
  rw [digit, UInt8.toNat_ofNat', Nat.mod_eq_of_lt (by omega)]

theorem isDigit_digit {d : ℕ} (h : d < 10) : isDigit (digit d) = true := by
  rw [isDigit, digit_toNat h]
  simp only [Bool.and_eq_true, decide_eq_true_eq]
  omega

theorem decimal_ne_nil (n : ℕ) : decimal n ≠ [] := by
  rw [decimal]
  split <;> simp

theorem isDigit_of_mem_decimal {n : ℕ} {c : UInt8} (h : c ∈ decimal n) : isDigit c = true := by
  induction n using decimal.induct with
  | case1 n hn =>
    rw [decimal, if_pos hn] at h
    rw [List.mem_singleton.mp h]
    exact isDigit_digit hn
  | case2 n hn ih =>
    rw [decimal, if_neg hn] at h
    rcases List.mem_append.mp h with h | h
    · exact ih h
    · rw [List.mem_singleton.mp h]
      exact isDigit_digit (Nat.mod_lt n (by decide))

theorem decimal_length_le {n k : ℕ} (hk : 0 < k) (h : n < 10 ^ k) : (decimal n).length ≤ k := by
  induction n using decimal.induct generalizing k with
  | case1 n hn =>
    rw [decimal, if_pos hn]
    exact hk
  | case2 n hn ih =>
    obtain ⟨k, rfl⟩ := Nat.exists_eq_succ_of_ne_zero hk.ne'
    have hdiv : n / 10 < 10 ^ k := Nat.div_lt_of_lt_mul (by rwa [Nat.pow_succ, Nat.mul_comm] at h)
    have hk0 : 0 < k := by
      refine Nat.pos_of_ne_zero fun hzero => hn ?_
      rw [hzero] at h
      exact h
    rw [decimal, if_neg hn, List.length_append]
    exact Nat.succ_le_succ (ih hk0 hdiv)

theorem scanDigits_digit (acc : ℕ) {d : ℕ} (h : d < 10) (text : List UInt8) :
    scanDigits acc (digit d :: text) = scanDigits (10 * acc + d) text := by
  rw [scanDigits, isDigit_digit h, if_pos rfl, digit_toNat h, Nat.add_sub_cancel_left]

theorem scanDigits_decimal (n : ℕ) (text : List UInt8) :
    scanDigits 0 (decimal n ++ text) = scanDigits n text := by
  induction n using decimal.induct generalizing text with
  | case1 n hn => rw [decimal, if_pos hn, List.singleton_append, scanDigits_digit 0 hn, Nat.mul_zero,
      Nat.zero_add]
  | case2 n hn ih =>
    have hmod := Nat.mod_lt n (by decide : 10 > 0)
    have hval : 10 * (n / 10) + n % 10 = n := Nat.div_add_mod n 10
    rw [decimal, if_neg hn, List.append_assoc, ih, List.singleton_append, scanDigits_digit _ hmod, hval]

theorem scanDigits_stop (acc : ℕ) {text : List UInt8} (h : ∀ c, text.head? = some c → isDigit c = false) :
    scanDigits acc text = acc := by
  cases text with
  | nil => rfl
  | cons c text => rw [scanDigits, h c rfl, if_neg Bool.false_ne_true]

/-- **A number is read back.** -/
theorem scanInteger_decimal (n : ℕ) {text : List UInt8}
    (h : ∀ c, text.head? = some c → isDigit c = false) : scanInteger (decimal n ++ text) = n := by
  have hscan : scanDigits 0 (decimal n ++ text) = n := by
    rw [scanDigits_decimal, scanDigits_stop n h]
  cases hd : decimal n with
  | nil => exact absurd hd (decimal_ne_nil n)
  | cons c rest =>
    have hc := isDigit_of_mem_decimal (n := n) (c := c) (by rw [hd]; exact List.mem_cons_self)
    simp only [isDigit, Bool.and_eq_true, decide_eq_true_eq] at hc
    have hspace : isSpace c = false := by
      simp only [isSpace, Bool.or_eq_false_iff, Bool.and_eq_false_iff, decide_eq_false_iff_not]
      omega
    have hdrop : (c :: (rest ++ text)).dropWhile isSpace = c :: (rest ++ text) :=
      List.dropWhile_cons_of_neg (by rw [hspace]; exact Bool.false_ne_true)
    rw [hd, List.cons_append] at hscan
    rw [List.cons_append, scanInteger, hdrop]
    simp only [hscan, if_neg (show c.toNat ≠ 45 by omega), if_neg (show c.toNat ≠ 43 by omega)]

/-! ## Integers -/

/-- A minus is written, a plus is not. -/
def decimalInt (z : ℤ) : List UInt8 := if z < 0 then 45 :: decimal z.natAbs else decimal z.natAbs

theorem scanInteger_decimalInt (z : ℤ) : scanInteger (decimalInt z) = z := by
  unfold decimalInt
  split
  · rename_i hneg
    have hscan : scanDigits 0 (decimal z.natAbs) = z.natAbs := by
      have happend := scanDigits_decimal z.natAbs []
      rw [List.append_nil] at happend
      exact happend
    have hdrop : (45 :: decimal z.natAbs).dropWhile isSpace = 45 :: decimal z.natAbs :=
      List.dropWhile_cons_of_neg (by decide)
    rw [scanInteger, hdrop]
    show (if (45 : UInt8).toNat = 45 then -(scanDigits 0 (decimal z.natAbs) : ℤ) else _) = z
    rw [if_pos (by decide), hscan]
    omega
  · have hscan := @scanInteger_decimal z.natAbs [] (by simp)
    rw [List.append_nil] at hscan
    rw [hscan]
    omega

end Decimal
