import Pdwfs.Util.Strconv
import Pdwfs.Util.Wrapping

/-!
# Commands on the wire

What a connection writes for a command: the number of its strings, and each string
behind its length.

* `writeLen`, `writeString`, `writeInt64`, `writeArg`, `writeCommand` — as the
  connection builds them.
* `decimal` — the decimal notation that all of them come down to.

## Bytes

The protocol is about bytes, and so are keys and values on the wire.  A string may
have any bytes in it, the ends of lines among them, since its length is in front of
it.

A length is put together from its last digit to its first, in a scratch space that
ends with the end of the line.  An integer as an argument goes another way, through
the standard library.  Both write the usual decimal notation (`putDigits_eq`), and
nothing in the modules that use this one depends on how it is computed.
-/

namespace Redigo

open Pdwfs Wrapping

/-- A string on the wire. -/
abbrev Bytes := List UInt8

/-- The byte of an ASCII character. -/
def byte (c : Char) : UInt8 := UInt8.ofNat c.toNat

/-- Carriage return. -/
def cr : UInt8 := 13

/-- Line feed. -/
def lf : UInt8 := 10

/-- The end of a line. -/
def crlf : Bytes := [cr, lf]

/-- Put the digits of `n` in front of the scratch space, the last one first. -/
def putDigits (n : ℕ) (scratch : Bytes) : Bytes :=
  let scratch := UInt8.ofNat ('0'.toNat + n % 10) :: scratch
  if n / 10 = 0 then scratch else putDigits (n / 10) scratch
termination_by n
decreasing_by omega

/-- A line with a length, behind the character that says what it is the length of.
-/
def writeLen (kind : UInt8) (n : ℕ) : Bytes := kind :: putDigits n crlf

/-- A string behind its length. -/
def writeString (s : Bytes) : Bytes := writeLen (byte '$') s.length ++ s ++ crlf

/-- The same for a slice of bytes. -/
def writeBytes (p : Bytes) : Bytes := writeLen (byte '$') p.length ++ p ++ crlf

/-- The decimal notation of an integer. -/
def decimal (n : ℤ) : Bytes := (formatInt n).map byte

/-- An integer, as a string with its digits. -/
def writeInt64 (n : ℤ) : Bytes := writeBytes (decimal n)

/-- An argument of a command, by its type.  Other types do not occur. -/
inductive Arg
  | string (s : Bytes)
  | bytes (p : Bytes)
  | int (n : ℤ)
  | int64 (n : ℤ)
  | bool (b : Bool)
  | nil
  deriving DecidableEq

/-- An argument of a command. -/
def writeArg : Arg → Bytes
  | .string s => writeString s
  | .bytes p => writeBytes p
  | .int n => writeInt64 n
  | .int64 n => writeInt64 n
  | .bool true => writeString [byte '1']
  | .bool false => writeString [byte '0']
  | .nil => writeString []

/-- A command and its arguments. -/
def writeCommand (cmd : Bytes) (args : List Arg) : Bytes :=
  writeLen (byte '*') (1 + args.length) ++ writeString cmd ++ args.flatMap writeArg

/-- The string that is sent for an argument. -/
def Arg.payload : Arg → Bytes
  | .string s => s
  | .bytes p => p
  | .int n => decimal n
  | .int64 n => decimal n
  | .bool true => [byte '1']
  | .bool false => [byte '0']
  | .nil => []

/-- Whatever its type, an argument is sent as a string. -/
theorem writeArg_eq (arg : Arg) : writeArg arg = writeString arg.payload := by
  cases arg with
  | string s => rfl
  | bytes p => rfl
  | int n => rfl
  | int64 n => rfl
  | bool b => cases b <;> rfl
  | nil => rfl

/-! ## Digits -/

theorem byte_digitChar {d : ℕ} (small : d < 10) :
    byte d.digitChar = UInt8.ofNat ('0'.toNat + d) := by
  interval_cases d <;> rfl

/-- The scratch space holds the decimal notation of the length. -/
theorem putDigits_eq (n : ℕ) (scratch : Bytes) : putDigits n scratch = decimal n ++ scratch := by
  -- The digits are put from the last to the first, `Nat.toDigits` is split the same way.
  induction n using Nat.strongRecOn generalizing scratch with
  | _ n ih =>
      have last : byte (n % 10).digitChar = UInt8.ofNat ('0'.toNat + n % 10) :=
        byte_digitChar (Nat.mod_lt _ (by decide))
      rw [putDigits]
      by_cases single : n < 10
      · have digit : n % 10 = n := Nat.mod_eq_of_lt single
        rw [digit] at last
        simp [Nat.div_eq_of_lt single, decimal, formatInt, Nat.toDigits_of_lt_base single, last,
          digit]
      · have more : n / 10 ≠ 0 := by omega
        simp only [more, ite_false]
        rw [ih (n / 10) (by omega)]
        simp [decimal, formatInt, Nat.toDigits_of_base_le (by decide : 1 < 10) (by omega : 10 ≤ n),
          last]

theorem writeLen_eq (kind : UInt8) (n : ℕ) : writeLen kind n = kind :: (decimal n ++ crlf) := by
  rw [writeLen, putDigits_eq]

theorem toNat_byte {c : Char} (small : c.toNat < 256) : (byte c).toNat = c.toNat := by
  simpa [byte] using Nat.mod_eq_of_lt small

theorem toNat_of_isDigit {c : Char} (digit : c.isDigit = true) : 48 ≤ c.toNat ∧ c.toNat ≤ 57 := by
  simp only [Char.isDigit, ge_iff_le, Bool.and_eq_true, decide_eq_true_eq] at digit
  exact digit

/-- A digit or a minus sign is none of the bytes that end a line. -/
theorem not_mem_decimal {b : UInt8} (control : b < 32) (n : ℤ) : b ∉ decimal n := by
  intro member
  obtain ⟨c, inDigits, rfl⟩ := List.mem_map.mp member
  have printable : 32 ≤ c.toNat ∧ c.toNat < 256 := by
    rcases isDigit_or_minus_of_mem_formatInt inDigits with digit | rfl
    · have bounds := toNat_of_isDigit digit
      omega
    · decide
  have small : (byte c).toNat < 32 := control
  rw [toNat_byte printable.2] at small
  omega

/-- No digit is a minus sign. -/
theorem minus_not_mem_digits (n : ℕ) : byte '-' ∉ (Nat.toDigits 10 n).map byte := by
  intro member
  obtain ⟨c, inDigits, same⟩ := List.mem_map.mp member
  have bounds := toNat_of_isDigit (isDigit_of_mem_toDigits inDigits)
  have value := toNat_byte (c := c) (by omega)
  have minus : (byte '-').toNat = 45 := rfl
  rw [same] at value
  omega

end Redigo
