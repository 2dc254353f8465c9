import Mathlib

/-!
# Strings and decimal numbers

The strings of the program are compared, concatenated and cut, never decoded: a
`GoString` is the list of its characters.  `formatInt` is the decimal notation of an
integer (`Sprintf("%d", _)`, `Itoa`, and the way a number is sent to Redis as an
argument), `parseInt` reads it back.

Numbers are parts of keys, so what matters about the notation is that different
numbers have different ones (`formatInt_injective`), and which characters it can
have (`isDigit_or_minus_of_mem_formatInt`).  Both are about all integers: a key with
a number that is negative is as good as any other.
-/

namespace Pdwfs

/-- A string of the program. -/
abbrev GoString := List Char

/-- The decimal notation of an integer. -/
def formatInt : ℤ → GoString
  | .ofNat n => Nat.toDigits 10 n
  | .negSucc n => '-' :: Nat.toDigits 10 (n + 1)

/-- The value of a non-empty string of digits. -/
def parseDigits (s : GoString) : Option ℕ :=
  if s ≠ [] ∧ s.all Char.isDigit then some (Nat.ofDigitChars 10 s 0) else none

/-- Read an integer in decimal notation, with an optional sign.  There is no bound
on the number; where there is one in the source, it is checked by the caller. -/
def parseInt : GoString → Option ℤ
  | '-' :: digits => (parseDigits digits).map fun n => -(n : ℤ)
  | '+' :: digits => (parseDigits digits).map fun n => (n : ℤ)
  | digits => (parseDigits digits).map fun n => (n : ℤ)

theorem isDigit_of_mem_toDigits {n : ℕ} {c : Char} (member : c ∈ Nat.toDigits 10 n) :
    c.isDigit = true :=
  Nat.isDigit_of_mem_toDigits (by decide) (by decide) member

theorem parseDigits_toDigits (n : ℕ) : parseDigits (Nat.toDigits 10 n) = some n := by
  have digits : (Nat.toDigits 10 n).all Char.isDigit = true :=
    List.all_eq_true.mpr fun c member => isDigit_of_mem_toDigits member
  rw [parseDigits, if_pos ⟨Nat.toDigits_ne_nil, digits⟩, Nat.ofDigitChars_ten_toDigits]

/-- A string of digits is read without a sign. -/
theorem parseInt_toDigits (n : ℕ) : parseInt (Nat.toDigits 10 n) = some (n : ℤ) := by
  have value := parseDigits_toDigits n
  have digits : ∀ c ∈ Nat.toDigits 10 n, c.isDigit = true :=
    fun c member => isDigit_of_mem_toDigits member
  generalize Nat.toDigits 10 n = s at value digits
  unfold parseInt
  split
  · exact absurd (digits '-' (by simp)) (by decide)
  · exact absurd (digits '+' (by simp)) (by decide)
  · rw [value]
    rfl

/-- **Round trip** of the decimal notation. -/
@[simp] theorem parseInt_formatInt (n : ℤ) : parseInt (formatInt n) = some n := by
  cases n with
  | ofNat n => exact parseInt_toDigits n
  | negSucc n =>
      simp only [formatInt, parseInt, parseDigits_toDigits]
      rfl

/-- **Different numbers have different notations.** -/
theorem formatInt_injective : Function.Injective formatInt := by
  intro m n same
  have read := congrArg parseInt same
  simpa using read

/-- The characters of a number. -/
theorem isDigit_or_minus_of_mem_formatInt {n : ℤ} {c : Char} (member : c ∈ formatInt n) :
    c.isDigit = true ∨ c = '-' := by
  cases n with
  | ofNat n => exact .inl (isDigit_of_mem_toDigits member)
  | negSucc n =>
      rw [formatInt, List.mem_cons] at member
      rcases member with rfl | member
      · exact .inr rfl
      · exact .inl (isDigit_of_mem_toDigits member)

end Pdwfs
