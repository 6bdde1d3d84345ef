import Mathlib.Tactic

/-!
# Decimal text

Numbers without leading zeros, filled up with blanks on either side. The
digits are those of the core library, and so is the reader.
-/

set_option autoImplicit false

namespace Wasabi.DecimalText

def decimal (n : ℕ) : List Char := Nat.toDigits 10 n

/-- The number and, behind it, blanks up to the width. -/
def leftAligned (width n : ℕ) : List Char :=
  decimal n++List.replicate (width-(decimal n).length) ' '

/-- Blanks up to the width and the number. -/
def rightAligned (width n : ℕ) : List Char :=
  List.replicate (width-(decimal n).length) ' '++decimal n

def fromDecimal (text : List Char) : ℕ := Nat.ofDigitChars 10 (text.filter (· ≠ ' ')) 0

/-- A digit or a blank. -/
def isDecimal (c : Char) : Bool := c.isDigit || c = ' '

theorem decimal_isDigit (n : ℕ) : ∀ c ∈ decimal n, c.isDigit = true := fun _ hc =>
  Nat.isDigit_of_mem_toDigits (by decide) (by decide) hc

theorem filter_decimal (n : ℕ) : (decimal n).filter (· ≠ ' ') = decimal n := by
  rw [List.filter_eq_self]
  intro c hc
  rw [decide_eq_true_eq]
  rintro rfl
  have h := decimal_isDigit n ' ' hc
  revert h
  decide

theorem filter_blanks (k : ℕ) : (List.replicate k ' ').filter (· ≠ ' ') = [] := by
  rw [List.filter_eq_nil_iff]
  intro c hc
  rw [List.eq_of_mem_replicate hc]
  decide

theorem fromDecimal_left (width n : ℕ) : fromDecimal (leftAligned width n) = n := by
  rw [fromDecimal, leftAligned, List.filter_append, filter_decimal, filter_blanks, List.append_nil,
    decimal, Nat.ofDigitChars_ten_toDigits]

theorem fromDecimal_right (width n : ℕ) : fromDecimal (rightAligned width n) = n := by
  rw [fromDecimal, rightAligned, List.filter_append, filter_decimal, filter_blanks,
    List.nil_append, decimal, Nat.ofDigitChars_ten_toDigits]

theorem blanks_isDecimal (k : ℕ) : ∀ c ∈ List.replicate k ' ', isDecimal c = true := by
  intro c hc
  rw [List.eq_of_mem_replicate hc]
  rfl

theorem decimal_isDecimal (n : ℕ) : ∀ c ∈ decimal n, isDecimal c = true := by
  intro c hc
  rw [isDecimal, decimal_isDigit n c hc, Bool.true_or]

theorem left_isDecimal (width n : ℕ) : ∀ c ∈ leftAligned width n, isDecimal c = true := by
  intro c hc
  rcases List.mem_append.mp hc with hc | hc
  · exact decimal_isDecimal n c hc
  · exact blanks_isDecimal _ c hc

theorem right_isDecimal (width n : ℕ) : ∀ c ∈ rightAligned width n, isDecimal c = true := by
  intro c hc
  rcases List.mem_append.mp hc with hc | hc
  · exact blanks_isDecimal _ c hc
  · exact decimal_isDecimal n c hc

end Wasabi.DecimalText
