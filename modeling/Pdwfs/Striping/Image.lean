import Pdwfs.Redis.Bytes

/-!
# Byte sequences cut into stripes

A sequence of bytes stored in stripes of `S` bytes: the byte at position `p` is byte
`p % S` of stripe `p / S`.  A stripe may be shorter than `S`, and may be missing
(empty) between others; what is not stored counts as zero.

* `byteAt`, `Stored` — the byte at a position, and whether it is stored.
* `IsSize` — the position behind the last stored byte.
* `written`, `trimmed`, `cutAfter` — what overwriting a range of one stripe, cutting
  one stripe, and dropping the stripes behind it do to all of this.

## What is stored and what is there

Two readings of a stripe are kept apart.  `byteAt` treats what is not stored as
zero, and so does everything that is stated about contents.  `Stored` does not, and
decides what a read can deliver and where a sequence ends.  A short stripe in the
middle is the case where the two differ: its positions have the byte zero, are below
the size, and are not stored.

The size is a relation and not a function of the stripes.  There are infinitely many
stripes, so there is no maximum to compute, and `IsSize` says of a number what it
takes to be it: no stripe that is not empty ends behind it, and one of them ends
there.  It is unique (`IsSize.unique`), and each operation comes with the size that
it leaves.

`byteAt` is what the users compare contents with.  Each operation on one stripe has
a lemma that says what it does to `byteAt` at all positions, and after that the
stripes are not looked at any more.
-/

namespace Striping

open Redis

variable {S : ℤ} {m m' : ℤ → List UInt8}

/-- The byte at position `p`, zero if it is not stored. -/
def byteAt (S : ℤ) (m : ℤ → List UInt8) (p : ℤ) : UInt8 := (m (p / S)).getD (p % S).toNat 0

/-- The byte at position `p` is stored. -/
def Stored (S : ℤ) (m : ℤ → List UInt8) (p : ℤ) : Prop :=
  (p % S).toNat < (m (p / S)).length

instance (S : ℤ) (m : ℤ → List UInt8) (p : ℤ) : Decidable (Stored S m p) :=
  inferInstanceAs (Decidable ((p % S).toNat < (m (p / S)).length))

/-- The position behind the last byte of stripe `id`. -/
def stripeEnd (S : ℤ) (m : ℤ → List UInt8) (id : ℤ) : ℤ := id * S + (m id).length

/-- No stripe is longer than `S`, and the stripes with a negative number are empty.
This is what makes positions and pairs of a stripe and an offset in it the same. -/
structure WellFormed (S : ℤ) (m : ℤ → List UInt8) : Prop where
  positive : 0 < S
  length_le : ∀ id, ((m id).length : ℤ) ≤ S
  id_nonneg : ∀ id, m id ≠ [] → 0 ≤ id

/-- `n` is the largest end of a non-empty stripe, or zero when there is none.  Empty
stripes do not count, so a stripe that is there and has no bytes is as good as a
missing one. -/
structure IsSize (S : ℤ) (m : ℤ → List UInt8) (n : ℤ) : Prop where
  stripeEnd_le : ∀ id, m id ≠ [] → stripeEnd S m id ≤ n
  attained : (n = 0 ∧ ∀ id, m id = []) ∨ ∃ id, m id ≠ [] ∧ n = stripeEnd S m id

theorem byteAt_of_not_stored {p : ℤ} (missing : ¬Stored S m p) : byteAt S m p = 0 := by
  rw [byteAt, List.getD_eq_default _ _ (not_lt.mp missing)]

/-- A position inside of a range of stripe `id`. -/
theorem mem_range_iff (positive : 0 < S) {id off p : ℤ} {len : ℕ} (off_nonneg : 0 ≤ off)
    (inside : off + len ≤ S) :
    (id * S + off ≤ p ∧ p < id * S + off + len) ↔
      p / S = id ∧ off ≤ p % S ∧ p % S < off + len := by
  have split := Int.mul_ediv_add_emod p S
  constructor
  · rintro ⟨lower, upper⟩
    have quotient : p / S = id := by
      refine (Int.ediv_eq_iff_of_pos positive).mpr ⟨?_, ?_⟩
      · linarith
      · linarith
    rw [quotient] at split
    refine ⟨quotient, ?_, ?_⟩ <;> linarith [mul_comm S id]
  · rintro ⟨rfl, lower, upper⟩
    constructor <;> linarith [mul_comm S (p / S)]

namespace WellFormed

/-- The stored bytes are those below the end of their stripe. -/
theorem stored_iff (wf : WellFormed S m) {p : ℤ} :
    Stored S m p ↔ p < stripeEnd S m (p / S) := by
  have split := Int.mul_ediv_add_emod p S
  have lower := Int.emod_nonneg p wf.positive.ne'
  rw [Stored, stripeEnd, mul_comm (p / S) S]
  omega

/-- A stripe that is not empty ends behind all earlier ones, since these are not
longer than `S`. -/
theorem stripeEnd_lt (wf : WellFormed S m) {id id' : ℤ} (before : id < id')
    (nonempty : m id' ≠ []) : stripeEnd S m id < stripeEnd S m id' := by
  have fits := wf.length_le id
  have positive : 0 < (m id').length := List.length_pos_iff.mpr nonempty
  have next : (id + 1) * S ≤ id' * S :=
    mul_le_mul_of_nonneg_right (by omega) wf.positive.le
  rw [stripeEnd, stripeEnd]
  linarith [show (0 : ℤ) < (m id').length by omega]

/-- The end of the last non-empty stripe is the size. -/
theorem isSize_of_last (wf : WellFormed S m) {id : ℤ} (nonempty : m id ≠ [])
    (last : ∀ id', m id' ≠ [] → id' ≤ id) : IsSize S m (stripeEnd S m id) where
  stripeEnd_le id' stored := by
    rcases eq_or_lt_of_le (last id' stored) with rfl | before
    · exact le_rfl
    · exact (wf.stripeEnd_lt before nonempty).le
  attained := .inr ⟨id, nonempty, rfl⟩

/-- Without any byte the size is zero. -/
theorem isSize_zero (empty : ∀ id, m id = []) : IsSize S m 0 where
  stripeEnd_le id stored := absurd (empty id) stored
  attained := .inl ⟨rfl, empty⟩

end WellFormed

namespace IsSize

variable {n n' : ℤ}

/-- There is one size. -/
theorem unique (size : IsSize S m n) (size' : IsSize S m n') : n = n' := by
  rcases size.attained with ⟨zero, empty⟩ | ⟨id, nonempty, same⟩
  · rcases size'.attained with ⟨zero', -⟩ | ⟨id', nonempty', -⟩
    · rw [zero, zero']
    · exact absurd (empty id') nonempty'
  · rcases size'.attained with ⟨-, empty'⟩ | ⟨id', nonempty', same'⟩
    · exact absurd (empty' id) nonempty
    · have one := size.stripeEnd_le id' nonempty'
      have two := size'.stripeEnd_le id nonempty
      omega

/-- The size is not negative. -/
theorem nonneg (size : IsSize S m n) (wf : WellFormed S m) : 0 ≤ n := by
  rcases size.attained with ⟨zero, -⟩ | ⟨id, nonempty, rfl⟩
  · exact zero.ge
  · exact add_nonneg (mul_nonneg (wf.id_nonneg id nonempty) wf.positive.le) (Nat.cast_nonneg _)

/-- Nothing is stored in a file of size zero. -/
theorem eq_nil (size : IsSize S m 0) (wf : WellFormed S m) (id : ℤ) : m id = [] := by
  by_contra nonempty
  have below := size.stripeEnd_le id nonempty
  have lower := mul_nonneg (wf.id_nonneg id nonempty) wf.positive.le
  have positive : 0 < (m id).length := List.length_pos_iff.mpr nonempty
  rw [stripeEnd] at below
  omega

/-- Every stored byte is below the size. -/
theorem lt_of_stored (size : IsSize S m n) (wf : WellFormed S m) {p : ℤ}
    (stored : Stored S m p) : p < n := by
  have below := wf.stored_iff.mp stored
  have nonempty : m (p / S) ≠ [] := by
    rw [← List.length_pos_iff]
    exact lt_of_le_of_lt (Nat.zero_le _) stored
  exact lt_of_lt_of_le below (size.stripeEnd_le _ nonempty)

/-- The byte before the size is stored. -/
theorem stored_pred (size : IsSize S m n) (wf : WellFormed S m) (positive : 0 < n) :
    Stored S m (n - 1) := by
  rcases size.attained with ⟨zero, -⟩ | ⟨id, nonempty, rfl⟩
  · omega
  · have fits := wf.length_le id
    have count : 0 < (m id).length := List.length_pos_iff.mpr nonempty
    have inside : (id * S + 0 ≤ stripeEnd S m id - 1 ∧
        stripeEnd S m id - 1 < id * S + 0 + (m id).length) := by
      unfold stripeEnd
      omega
    obtain ⟨quotient, -, -⟩ := (mem_range_iff wf.positive le_rfl (by omega)).mp inside
    rw [wf.stored_iff, quotient]
    omega

/-- From the size on there are zeros. -/
theorem byteAt_eq_zero (size : IsSize S m n) (wf : WellFormed S m) {p : ℤ} (beyond : n ≤ p) :
    byteAt S m p = 0 :=
  byteAt_of_not_stored fun stored => absurd (size.lt_of_stored wf stored) (by omega)

/-- Whatever is stored at the position before `n`, with nothing behind it, makes `n`
the size. -/
theorem of_stored_pred (wf : WellFormed S m) (stored : Stored S m (n - 1))
    (beyond : ∀ p, n ≤ p → ¬Stored S m p) : IsSize S m n := by
  have nonempty : m ((n - 1) / S) ≠ [] := by
    rw [← List.length_pos_iff]
    exact lt_of_le_of_lt (Nat.zero_le _) stored
  -- A stripe that is not empty stores the byte before its end.
  have ends : ∀ id, m id ≠ [] → stripeEnd S m id ≤ n := by
    intro id nonempty'
    by_contra above
    have fits := wf.length_le id
    have count : 0 < (m id).length := List.length_pos_iff.mpr nonempty'
    have inside : (id * S + 0 ≤ stripeEnd S m id - 1 ∧
        stripeEnd S m id - 1 < id * S + 0 + (m id).length) := by
      unfold stripeEnd
      omega
    obtain ⟨quotient, -, -⟩ := (mem_range_iff wf.positive le_rfl (by omega)).mp inside
    refine beyond (stripeEnd S m id - 1) (by omega) (wf.stored_iff.mpr ?_)
    rw [quotient]
    omega
  have reached := wf.stored_iff.mp stored
  have bounded := ends _ nonempty
  exact ⟨ends, .inr ⟨(n - 1) / S, nonempty, by omega⟩⟩

end IsSize

/-! ## Writing into one stripe -/

section Write

variable {id off : ℤ} {bytes : List UInt8}

/-- **Writing a range of one stripe is an overlay** of the byte sequence. -/
theorem byteAt_written (positive : 0 < S) (off_nonneg : 0 ≤ off)
    (inside : off + bytes.length ≤ S)
    (written : ∀ id', m' id' = if id' = id then setRange (m id) off.toNat bytes else m id')
    (p : ℤ) :
    byteAt S m' p =
      if id * S + off ≤ p ∧ p < id * S + off + bytes.length then
        bytes.getD (p - (id * S + off)).toNat 0
      else byteAt S m p := by
  have lower := Int.emod_nonneg p positive.ne'
  have split := Int.mul_ediv_add_emod p S
  rw [byteAt, written]
  simp only [mem_range_iff positive off_nonneg inside]
  by_cases here : p / S = id
  · rw [if_pos here, getD_setRange]
    by_cases inRange : off ≤ p % S ∧ p % S < off + bytes.length
    · rw [if_pos (by omega), if_pos ⟨here, inRange⟩]
      rw [here] at split
      rw [show (p % S).toNat - off.toNat = (p - (id * S + off)).toNat by
        rw [mul_comm id S]; omega]
    · rw [if_neg (by omega), if_neg (fun h => inRange h.2), byteAt, here]
  · rw [if_neg here, if_neg (fun h => here h.1), byteAt]

/-- A write inside of a stripe leaves it no longer than a stripe may be. -/
theorem WellFormed.written (wf : WellFormed S m) (id_nonneg : 0 ≤ id) (off_nonneg : 0 ≤ off)
    (inside : off + bytes.length ≤ S)
    (written : ∀ id', m' id' = if id' = id then setRange (m id) off.toNat bytes else m id') :
    WellFormed S m' where
  positive := wf.positive
  length_le id' := by
    rw [written]
    split
    · have := wf.length_le id
      rw [length_setRange]
      push_cast
      omega
    · exact wf.length_le id'
  id_nonneg id' nonempty := by
    by_cases here : id' = id
    · rwa [here]
    · rw [written, if_neg here] at nonempty
      exact wf.id_nonneg id' nonempty

/-- **The size after a write** is the maximum of the old size and the end of what has
been written. -/
theorem IsSize.written {n : ℤ} (size : IsSize S m n) (wf : WellFormed S m)
    (id_nonneg : 0 ≤ id) (off_nonneg : 0 ≤ off) (inside : off + bytes.length ≤ S)
    (nonempty : bytes ≠ [])
    (written : ∀ id', m' id' = if id' = id then setRange (m id) off.toNat bytes else m id') :
    IsSize S m' (max n (id * S + off + bytes.length)) := by
  have wf' := wf.written id_nonneg off_nonneg inside written
  have here : stripeEnd S m' id = max (stripeEnd S m id) (id * S + off + bytes.length) := by
    rw [stripeEnd, written, if_pos rfl, length_setRange, stripeEnd]
    push_cast
    omega
  have elsewhere : ∀ id', id' ≠ id → m' id' = m id' := fun id' other => by
    rw [written, if_neg other]
  have nonempty' : m' id ≠ [] := by
    rw [written, if_pos rfl]
    exact setRange_ne_nil nonempty
  -- The end of the written range is above the start of its stripe.
  have behind : m id = [] → stripeEnd S m id ≤ id * S + off + bytes.length := by
    intro empty
    rw [stripeEnd, empty, List.length_nil]
    omega
  refine ⟨fun id' stored => ?_, .inr ?_⟩
  · by_cases same : id' = id
    · subst same
      rw [here]
      refine max_le ?_ (le_max_right _ _)
      by_cases empty : m id' = []
      · exact le_trans (behind empty) (le_max_right _ _)
      · exact le_trans (size.stripeEnd_le id' empty) (le_max_left _ _)
    · rw [elsewhere id' same] at stored
      rw [stripeEnd, elsewhere id' same]
      exact le_trans (size.stripeEnd_le id' stored) (le_max_left _ _)
  · rcases le_total n (id * S + off + bytes.length) with grown | kept
    · refine ⟨id, nonempty', ?_⟩
      rw [here, max_eq_right grown]
      refine (max_eq_right ?_).symm
      by_cases empty : m id = []
      · exact behind empty
      · exact le_trans (size.stripeEnd_le id empty) grown
    · rw [max_eq_left kept]
      have count : 0 < bytes.length := List.length_pos_iff.mpr nonempty
      have start : 0 ≤ id * S := mul_nonneg id_nonneg wf.positive.le
      rcases size.attained with ⟨zero, -⟩ | ⟨last, stored, atLast⟩
      · omega
      · by_cases same : last = id
        · subst same
          exact ⟨last, nonempty', by rw [here, ← atLast, max_eq_left kept]⟩
        · exact ⟨last, by rwa [elsewhere last same],
            by rw [atLast, stripeEnd, stripeEnd, elsewhere last same]⟩

end Write

/-! ## Cutting -/

/-- The stripes are cut at the position `n`: nothing is stored from it on, and what
is stored below is kept.  A gap below `n` stays a gap. -/
structure CutAt (S : ℤ) (m m' : ℤ → List UInt8) (n : ℤ) : Prop where
  stored_iff : ∀ p, Stored S m' p ↔ Stored S m p ∧ p < n
  byteAt_eq : ∀ p, p < n → byteAt S m' p = byteAt S m p

/-- Dropping the stripes behind stripe `id` and cutting that one to `len` bytes cuts
the sequence. -/
theorem CutAt.of_stripes (wf : WellFormed S m) {id len : ℤ} (len_pos : 0 < len) (len_le : len ≤ S)
    (behind : ∀ id', id < id' → m' id' = [])
    (cut : m' id = (m id).take len.toNat) (before : ∀ id', id' < id → m' id' = m id') :
    CutAt S m m' (id * S + len) := by
  have key : ∀ p : ℤ, p < id * S + len ↔ p / S < id ∨ (p / S = id ∧ p % S < len) := by
    intro p
    have split := Int.mul_ediv_add_emod p S
    have lower := Int.emod_nonneg p wf.positive.ne'
    have upper := Int.emod_lt_of_pos p wf.positive
    constructor
    · intro below
      rcases lt_trichotomy (p / S) id with less | same | more
      · exact .inl less
      · refine .inr ⟨same, ?_⟩
        rw [same, mul_comm] at split
        omega
      · exfalso
        have next : (id + 1) * S ≤ p / S * S :=
          mul_le_mul_of_nonneg_right (by omega) wf.positive.le
        nlinarith [mul_comm S (p / S)]
    · rintro (less | ⟨same, below⟩)
      · have next : (p / S + 1) * S ≤ id * S :=
          mul_le_mul_of_nonneg_right (by omega) wf.positive.le
        nlinarith [mul_comm S (p / S)]
      · rw [same, mul_comm] at split
        omega
  have lower : ∀ p : ℤ, 0 ≤ p % S := fun p => Int.emod_nonneg p wf.positive.ne'
  refine ⟨fun p => ?_, fun p below => ?_⟩
  · rw [key, Stored, Stored]
    rcases lt_trichotomy (p / S) id with less | same | more
    · rw [before _ less]
      simp [less]
    · have := lower p
      rw [same, cut, List.length_take]
      simp only [lt_irrefl, true_and, false_or]
      omega
    · rw [behind _ more]
      simp only [List.length_nil, Nat.not_lt_zero, false_iff]
      rintro ⟨-, less | ⟨same, -⟩⟩ <;> omega
  · have := lower p
    rw [byteAt, byteAt]
    rcases (key p).mp below with less | ⟨same, inside⟩
    · rw [before _ less]
    · rw [same, cut, List.getD_eq_getElem?_getD, List.getD_eq_getElem?_getD, List.getElem?_take,
        if_pos (by omega)]

end Striping
