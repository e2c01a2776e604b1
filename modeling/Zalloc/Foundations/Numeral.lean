import Mathlib.Data.List.Basic
import Mathlib.Data.Nat.Digits.Defs

/-!
# Numbers in texts

Numbers are printed in decimal. A number in a text ends in front of the first character that is not
a digit, so it can be read back when another character follows.

## Main definitions

* `decimal n`: the digits of a number.
* `readNumber text`: the number that a text starts with.
* `readNumbers text`: the numbers in a text, each with the character behind it.

## Main results

* `readNumber_decimal`: a number is read back.
* `readNumbers_decimal`: so is a number in a text.
-/

set_option autoImplicit false

namespace Numeral

/-- A number that is printed with `%ld`, `%d` or `%u`. -/
def decimal (n : ℕ) : List Char := Nat.toDigits 10 n

/-- The number that a text starts with. -/
def readNumber (text : List Char) : ℕ := Nat.ofDigitChars 10 (text.takeWhile Char.isDigit) 0

/-- The text starts with a digit. -/
def startsWithDigit : List Char → Bool
  | [] => false
  | c :: _ => c.isDigit

/-- The numbers in a text, each with the character behind it. A number starts behind a character
that is not a digit. -/
def readNumbers : List Char → List (ℕ × Option Char)
  | [] => []
  | c :: text =>
    if c.isDigit = false ∧ startsWithDigit text = true then
      (readNumber text, (text.dropWhile Char.isDigit).head?) :: readNumbers text
    else readNumbers text

section

variable {n : ℕ} {c d : Char} {cs text rest : List Char}

theorem isDigit_decimal : ∀ c ∈ decimal n, c.isDigit = true := fun _ hc =>
  Nat.isDigit_of_mem_toDigits (by decide) (by decide) hc

theorem takeWhile_decimal (hd : d.isDigit = false) :
    (decimal n ++ d :: rest).takeWhile Char.isDigit = decimal n := by
  rw [List.takeWhile_append_of_pos isDigit_decimal, List.takeWhile_cons_of_neg (by simp [hd]),
    List.append_nil]

theorem dropWhile_decimal (hd : d.isDigit = false) :
    (decimal n ++ d :: rest).dropWhile Char.isDigit = d :: rest := by
  rw [List.dropWhile_append_of_pos isDigit_decimal, List.dropWhile_cons_of_neg (by simp [hd])]

/-- A number is read back. -/
theorem readNumber_decimal (hd : d.isDigit = false) : readNumber (decimal n ++ d :: rest) = n := by
  rw [readNumber, takeWhile_decimal hd]
  exact Nat.ofDigitChars_ten_toDigits

theorem startsWithDigit_decimal : startsWithDigit (decimal n ++ rest) = true := by
  cases hn : decimal n with
  | nil => exact absurd hn Nat.toDigits_ne_nil
  | cons c cs => exact isDigit_decimal (n := n) c (hn ▸ List.mem_cons_self ..)

/-- Behind a digit no number starts. -/
theorem readNumbers_append_of_digit (h : ∀ c ∈ cs, c.isDigit = true) :
    readNumbers (cs ++ text) = readNumbers text := by
  induction cs with
  | nil => rfl
  | cons c cs ih =>
    have hc : c.isDigit = true := h c (List.mem_cons_self ..)
    rw [List.cons_append, readNumbers, if_neg fun hno => by simp [hc] at hno]
    exact ih fun c hc => h c (List.mem_cons_of_mem _ hc)

/-- Nor does one where there is no digit. -/
theorem readNumbers_cons_of_not (h : startsWithDigit text = false) :
    readNumbers (c :: text) = readNumbers text := by
  rw [readNumbers, if_neg fun hno => by rw [h] at hno; exact absurd hno.2 (by decide)]

/-- A text without digits. -/
theorem readNumbers_append_of_not (h : cs.any Char.isDigit = false) (hd : d.isDigit = false) :
    readNumbers (cs ++ d :: text) = readNumbers (d :: text) := by
  induction cs with
  | nil => rfl
  | cons c cs ih =>
    rw [List.any_cons, Bool.or_eq_false_iff] at h
    rw [List.cons_append, readNumbers_cons_of_not, ih h.2]
    -- the next character is not a digit either
    cases cs with
    | nil => exact hd
    | cons c' cs =>
      rw [List.any_cons, Bool.or_eq_false_iff] at h
      exact h.2.1

/-- A number in a text is read back. -/
theorem readNumbers_decimal (hc : c.isDigit = false) (hd : d.isDigit = false) :
    readNumbers (c :: (decimal n ++ d :: rest)) = (n, some d) :: readNumbers (d :: rest) := by
  rw [readNumbers, if_pos ⟨hc, startsWithDigit_decimal⟩, readNumber_decimal hd,
    dropWhile_decimal hd, readNumbers_append_of_digit isDigit_decimal]
  rfl

end

end Numeral
