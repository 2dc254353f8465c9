import Pdwfs.Redigo.Server

/-!
# Conversions of replies

The helpers that turn what `Do` returns into numbers.

* `strconvParseInt` — a number of 64 bits in decimal notation.
* `int`, `readBytes`, `int64s` — the helpers that the data store uses, by the type
  of the reply.
* `int64s_decimal` — the numbers that have been written are read back.

## Replies without a type

A reply is a value of an interface type, and an error beside it.  A helper takes
both, so that it can be wrapped around a call, and has a case for every type that
the value can have.  The cases that do not apply are errors with a text of their
own.  The model has them all, since which of them can occur is a matter of the
command that has been sent, and is decided where that is known.

A number can arrive as an integer or as a string.  A string is parsed by the
standard library, which is stricter than the parser of the protocol: it checks the
range, and that there are digits.  The members of a set are strings, so it is this
parser that the numbers of stripes go through.
-/

namespace Redigo

open Pdwfs Wrapping

/-- Why there is no result.  The texts of the standard library are not looked at. -/
inductive Failure
  | read (e : ReadError)
  /-- An error reply. -/
  | error (text : Bytes)
  | errNil
  | errSyntax
  | errRange
  | other (text : String)
  deriving DecidableEq

/-- What `Do` returns, as a reply and an error.  An error reply is returned as the
error, and as the reply as well. -/
def returned (outcome : Except ReadError (Value × Option Bytes)) : Value × Option Failure :=
  match outcome with
  | .error e => (.nil, some (.read e))
  | .ok (reply, err) => (reply, err.map .error)

/-- The type of a reply, as it is printed in the text of an error. -/
def Value.goType : Value → String
  | .status _ => "string"
  | .error _ => "redis.Error"
  | .int64 _ => "int64"
  | .bytes _ => "[]uint8"
  | .nil => "<nil>"
  | .array _ => "[]interface \x7b\x7d"
  | .read _ => "int"

/-- A reply of the wrong type. -/
def unexpectedType (name : String) (v : Value) : Failure :=
  .other ("redigo: unexpected type for " ++ name ++ ", got type " ++ v.goType)

/-- An element of the wrong type. -/
def unexpectedElement (name : String) (v : Value) : Failure :=
  .other ("redigo: unexpected element type for " ++ name ++ ", got type " ++ v.goType)

/-! ## Numbers -/

/-- One more digit of a number without a sign. -/
def uintStep (n : ℕ) (b : UInt8) : Except Failure ℕ :=
  if b < byte '0' ∨ byte '9' < b then .error .errSyntax
  else
    let n := n * 10 + (b.toNat - (byte '0').toNat)
    if 2 ^ 64 ≤ n then .error .errRange else .ok n

/-- `strconv.ParseUint(s, 10, 64)`. -/
def strconvParseUint (s : Bytes) : Except Failure ℕ :=
  if s = [] then .error .errSyntax else s.foldlM uintStep 0

/-- `strconv.ParseInt(s, 10, 64)`.  Out of the range, the end of the range is
returned along with the error. -/
def strconvParseInt (s : Bytes) : ℤ × Option Failure :=
  let neg := s.head? = some (byte '-')
  let digits := if neg ∨ s.head? = some (byte '+') then s.tail else s
  let limit : ℤ × Option Failure := (if neg then -2 ^ 63 else 2 ^ 63 - 1, some .errRange)
  match strconvParseUint digits with
  | .ok un =>
      if neg then if 2 ^ 63 < un then limit else (-un, none)
      else if 2 ^ 63 ≤ un then limit else (un, none)
  | .error .errRange => limit
  | .error err => (0, some err)

/-! ## Helpers -/

/-- `Int`.  An `int` has 64 bits. -/
def int (reply : Value) (err : Option Failure) : ℤ × Option Failure :=
  match err with
  | some e => (0, some e)
  | none =>
      match reply with
      | .int64 n => (n, none)
      | .bytes p => strconvParseInt p
      | .nil => (0, some .errNil)
      | .error text => (0, some (.error text))
      | v => (0, some (unexpectedType "Int" v))

/-- `ReadBytes`: the number of bytes, which may be in the destination buffer. -/
def readBytes (reply : Value) (err : Option Failure) : ℤ × Option Failure :=
  match err with
  | some e => (-1, some e)
  | none =>
      match reply with
      | .bytes p => (p.length, none)
      | .status s => (s.length, none)
      | .read p => (p.length, none)
      | .nil => (-1, some .errNil)
      | .error text => (-1, some (.error text))
      | v => (-1, some (unexpectedType "Bytes" v))

/-- The loop of `sliceHelper`.  Elements that are not assigned are `zero`, and the
first error ends it. -/
def assignEach {α : Type} (zero : α) (assign : Value → α × Option Failure) :
    List Value → List α × Option Failure
  | [] => ([], none)
  | .nil :: rest =>
      let (xs, err) := assignEach zero assign rest
      (zero :: xs, err)
  | v :: rest =>
      match assign v with
      | (x, some e) => (x :: List.replicate rest.length zero, some e)
      | (x, none) =>
          let (xs, err) := assignEach zero assign rest
          (x :: xs, err)

/-- `sliceHelper`. -/
def sliceHelper {α : Type} (name : String) (zero : α) (assign : Value → α × Option Failure)
    (reply : Value) (err : Option Failure) : List α × Option Failure :=
  match err with
  | some e => ([], some e)
  | none =>
      match reply with
      | .array values => assignEach zero assign values
      | .nil => ([], some .errNil)
      | .error text => ([], some (.error text))
      | v => ([], some (unexpectedType name v))

/-- `Int64s`. -/
def int64s (reply : Value) (err : Option Failure) : List ℤ × Option Failure :=
  sliceHelper "Int64s" 0
    (fun v =>
      match v with
      | .int64 n => (n, none)
      | .bytes p => strconvParseInt p
      | v => (0, some (unexpectedElement "Int64s" v)))
    reply err

/-! ## What is read back -/

/-- A digit of a number in range. -/
theorem uintStep_digit {m d : ℕ} (small : d < 10) (fits : m * 10 + d < 2 ^ 64) :
    uintStep m (byte d.digitChar) = .ok (m * 10 + d) := by
  have digit : ¬(byte d.digitChar < byte '0' ∨ byte '9' < byte d.digitChar) := by
    interval_cases d <;> decide
  have value : (byte d.digitChar).toNat - (byte '0').toNat = d := by
    interval_cases d <;> rfl
  rw [uintStep, if_neg digit, value]
  exact if_neg (by omega)

/-- All digits of a number in range. -/
theorem foldlM_uintStep {n : ℕ} (fits : n < 2 ^ 64) :
    ((Nat.toDigits 10 n).map byte).foldlM uintStep 0 = .ok n := by
  induction n using Nat.strongRecOn with
  | _ n ih =>
      by_cases single : n < 10
      · rw [Nat.toDigits_of_lt_base single]
        simpa using uintStep_digit (m := 0) single (by omega)
      · have value : n / 10 * 10 + n % 10 = n := by omega
        have last := uintStep_digit (Nat.mod_lt n (by decide : 0 < 10)) (by rwa [value])
        rw [value] at last
        rw [Nat.toDigits_of_base_le (by decide) (by omega), List.map_append, List.foldlM_append,
          ih (n / 10) (by omega) (by omega), List.map_singleton]
        simp only [bind, Except.bind, List.foldlM_cons, List.foldlM_nil, last]
        rfl

theorem strconvParseUint_digits {n : ℕ} (fits : n < 2 ^ 64) :
    strconvParseUint ((Nat.toDigits 10 n).map byte) = .ok n := by
  rw [strconvParseUint, if_neg (digits_ne_nil n), foldlM_uintStep fits]

/-- A number without a sign does not begin with one. -/
theorem head?_digits_ne {n : ℕ} {b : UInt8} (sign : b < 48) :
    ((Nat.toDigits 10 n).map byte).head? ≠ some b := by
  intro first
  obtain ⟨c, member, rfl⟩ := List.mem_map.mp (List.mem_of_mem_head? (Option.mem_def.mpr first))
  have bounds := toNat_of_isDigit (isDigit_of_mem_toDigits member)
  rw [UInt8.lt_iff_toNat_lt] at sign
  simp only [byte, UInt8.toNat_ofNat', UInt8.reduceToNat] at sign
  omega

/-- **The decimal notation of an integer of 64 bits is parsed as this integer**, the
smallest one among them. -/
theorem strconvParseInt_decimal {n : ℤ} (range : InRange n) :
    strconvParseInt (decimal n) = (n, none) := by
  obtain ⟨lower, upper⟩ := range
  cases n with
  | ofNat n =>
      have minus : ((Nat.toDigits 10 n).map byte).head? ≠ some (byte '-') :=
        head?_digits_ne (by decide)
      have plus : ((Nat.toDigits 10 n).map byte).head? ≠ some (byte '+') :=
        head?_digits_ne (by decide)
      simp only [Int.ofNat_eq_natCast] at upper
      have fits : ¬(2 ^ 63 : ℕ) ≤ n := by omega
      simp only [decimal, formatInt, strconvParseInt, minus, plus, or_self, ite_false,
        strconvParseUint_digits (show n < 2 ^ 64 by omega), if_neg fits]
      rfl
  | negSucc n =>
      have fits : ¬(2 ^ 63 : ℕ) < n + 1 := by omega
      simp only [decimal, formatInt, strconvParseInt, List.map_cons, List.head?_cons, true_or,
        ite_true, List.tail_cons, strconvParseUint_digits (show n + 1 < 2 ^ 64 by omega),
        if_neg fits]
      rfl

/-- **The numbers that have been written are read back.** -/
theorem int64s_decimal {ns : List ℤ} (range : ∀ n ∈ ns, InRange n) :
    int64s (.array (ns.map fun n => .bytes (decimal n))) none = (ns, none) := by
  simp only [int64s, sliceHelper]
  induction ns with
  | nil => rfl
  | cons n rest ih =>
      have first := strconvParseInt_decimal (range n (by simp))
      have others := ih fun m member => range m (.tail n member)
      rw [List.map_cons, assignEach]
      · simp only [first, others]
      · simp

end Redigo
