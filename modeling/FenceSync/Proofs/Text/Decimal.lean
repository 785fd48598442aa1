import FenceSync.Text.Basic
import FenceSync.Text.Digit
import Mathlib.Data.List.Infix
/-!
# Numbers in decimal

A number is read back from the digits it is written with, zeros in front of them or not. Digits of
any script have a value; only on those of the ASCII block is it the value that `decimal` sees.
-/
namespace FenceSync.Text

theorem isAsciiDigit_of_mem_ofNat {n : Nat} {c : Char} (h : c ∈ ofNat n) :
    isAsciiDigit c = true := by
  have hdigit := Nat.isDigit_of_mem_toDigits (by decide) (by decide) h
  simpa [Char.isDigit, isAsciiDigit, Char.le_def] using hdigit

theorem exists_ofNat_eq_cons (n : Nat) :
    ∃ c t, ofNat n = c :: t ∧ isAsciiDigit c = true := by
  obtain ⟨c, t, h⟩ := List.exists_cons_of_ne_nil (Nat.toDigits_ne_nil (n := n) (b := 10))
  have hmem : c ∈ ofNat n := by
    rw [ofNat, h]
    exact List.mem_cons_self
  exact ⟨c, t, h, isAsciiDigit_of_mem_ofNat hmem⟩

theorem decimal_ofNat (n : Nat) : decimal (ofNat n) = n := by
  have h : decimal (ofNat n) = Nat.ofDigitChars 10 (Nat.toDigits 10 n) 0 := by
    rw [decimal, ofNat, Nat.ofDigitChars]
    simp only [Nat.mul_comm]
  rw [h, Nat.ofDigitChars_toDigits (by decide) (by decide)]

/-- Only zero is written with a zero in front. -/
theorem eq_zero_of_head?_ofNat {n : Nat} (h : (ofNat n).head? = some '0') : n = 0 := by
  induction n using Nat.strong_induction_on with
  | h n ih =>
    rw [ofNat, Nat.toDigits_eq_if (by decide)] at h
    split at h
    · next hn =>
      have hdigit : ∀ d < 10, [Nat.digitChar d].head? = some '0' → d = 0 := by decide
      exact hdigit n hn h
    · next hn =>
      rw [List.head?_append_of_ne_nil _ Nat.toDigits_ne_nil] at h
      have := ih (n / 10) (by omega) h
      omega

theorem isAsciiDigit_of_mem_spelled {i n : Nat} {c : Char}
    (h : c ∈ List.replicate i '0' ++ ofNat n) : isAsciiDigit c = true := by
  rcases List.mem_append.1 h with h | h
  · rw [List.eq_of_mem_replicate h]
    decide
  · exact isAsciiDigit_of_mem_ofNat h

/-- Zeros in front do not count. -/
theorem decimal_zeros_append (n : Nat) (t : Text) :
    decimal (List.replicate n '0' ++ t) = decimal t := by
  have hzero : 0 * 10 + ('0'.toNat - '0'.toNat) = 0 := by decide
  induction n with
  | zero => rfl
  | succ n ih =>
    rw [decimal, List.replicate_succ, List.cons_append, List.foldl_cons, hzero]
    exact ih

/-- The digits of a script follow its zero. -/
def digitValue (c : Char) : Nat :=
  match digitZeros.find? fun z => z ≤ c.toNat && c.toNat < z + 10 with
  | some z => c.toNat - z
  | none => 0

def digitsValue (t : Text) : Nat := t.foldl (fun n c => n * 10 + digitValue c) 0

theorem digitValue_of_isAsciiDigit {c : Char} (h : isAsciiDigit c = true) :
    digitValue c = c.toNat - '0'.toNat := by
  simp only [isAsciiDigit, Bool.and_eq_true, decide_eq_true_eq, Char.le_def, UInt32.le_iff_toNat_le]
    at h
  have h0 : 0x30 ≤ c.toNat := h.1
  have h9 : c.toNat < 0x30 + 10 := Nat.lt_succ_of_le h.2
  have hfind : (digitZeros.find? fun z => z ≤ c.toNat && c.toNat < z + 10) = some 0x30 := by
    rw [digitZeros, List.find?_cons_of_pos (by simp [h0, h9])]
  rw [digitValue, hfind]
  rfl

theorem digitsValue_eq_decimal {t : Text} (h : ∀ c ∈ t, isAsciiDigit c = true) :
    digitsValue t = decimal t := by
  have hstep : ∀ n : Nat, ∀ c ∈ t, n * 10 + digitValue c = n * 10 + (c.toNat - '0'.toNat) :=
    fun n c hc => by rw [digitValue_of_isAsciiDigit (h c hc)]
  exact List.foldl_ext _ _ _ hstep

/-- A number of three scripts. -/
example : digitsValue "1٢３".toList = 123 := by decide

end FenceSync.Text
