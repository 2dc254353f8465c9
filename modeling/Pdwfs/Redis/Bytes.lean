import Mathlib

/-!
# Byte strings with ranges

The two range operations of Redis strings, as functions on lists of bytes.

* `setRange` — overwrite a range, after padding the string with zero bytes up to the
  offset if it is shorter.
* `getRange` — the bytes between two inclusive indices, where a negative index
  counts from the end of the string.

A string is read at an index with `List.getD _ _ 0`: a byte that is not stored
counts as zero.  Under this reading `setRange` is a plain overlay (`getD_setRange`),
and the padding need not be mentioned any more.

The inclusive end of `getRange` has a consequence that matters to its users: no pair
of indices that count from the start means an empty range at the start of the
string.  The end of a range of length zero at index 0 is the index `-1`, and that is
the last byte: `getRange_zero_neg_one` is the whole string.
-/

namespace Redis

/-- Overwrite `bytes` with `value` from `offset` on, zero padding as needed.  The
string is never cut: what is behind the range stays. -/
def setRange (bytes : List UInt8) (offset : ℕ) (value : List UInt8) : List UInt8 :=
  (bytes ++ List.replicate (offset - bytes.length) 0).take offset ++ value ++
    bytes.drop (offset + value.length)

/-- A write makes a string as long as its end, and never shorter. -/
theorem length_setRange (bytes : List UInt8) (offset : ℕ) (value : List UInt8) :
    (setRange bytes offset value).length = max bytes.length (offset + value.length) := by
  simp only [setRange, List.length_append, List.length_take, List.length_replicate,
    List.length_drop]
  omega

/-- What has been written is there, also if the string was empty. -/
theorem setRange_ne_nil {bytes value : List UInt8} {offset : ℕ} (nonempty : value ≠ []) :
    setRange bytes offset value ≠ [] := by
  intro empty
  have count := length_setRange bytes offset value
  rw [empty, List.length_nil] at count
  have := List.length_pos_iff.mpr nonempty
  omega

/-- The part before the overwritten range. -/
theorem getD_padded (bytes : List UInt8) (offset i : ℕ) (below : i < offset) :
    ((bytes ++ List.replicate (offset - bytes.length) 0).take offset).getD i 0 =
      bytes.getD i 0 := by
  simp only [List.getD_eq_getElem?_getD, List.getElem?_take, below, ite_true]
  by_cases stored : i < bytes.length
  · rw [List.getElem?_append_left stored]
  · rw [List.getElem?_append_right (by omega), List.getElem?_replicate]
    rw [List.getElem?_eq_none (by omega : bytes.length ≤ i)]
    split <;> rfl

/-- **`setRange` is an overlay**: inside the range the new bytes, elsewhere the old
ones, where bytes that are not stored count as zero. -/
theorem getD_setRange (bytes : List UInt8) (offset : ℕ) (value : List UInt8) (i : ℕ) :
    (setRange bytes offset value).getD i 0 =
      if offset ≤ i ∧ i < offset + value.length then value.getD (i - offset) 0
      else bytes.getD i 0 := by
  have padded : ((bytes ++ List.replicate (offset - bytes.length) 0).take offset).length
      = offset := by
    simp only [List.length_take, List.length_append, List.length_replicate]
    omega
  by_cases below : i < offset
  · have outside : ¬(offset ≤ i ∧ i < offset + value.length) := by omega
    rw [if_neg outside, setRange, List.append_assoc,
      List.getD_append _ _ _ _ (by omega), getD_padded bytes offset i below]
  · rw [setRange, List.append_assoc, List.getD_append_right _ _ _ _ (by omega), padded]
    by_cases inside : i < offset + value.length
    · rw [if_pos ⟨by omega, inside⟩, List.getD_append _ _ _ _ (by omega)]
    · rw [if_neg (by omega), List.getD_append_right _ _ _ _ (by omega)]
      simp only [List.getD_eq_getElem?_getD, List.getElem?_drop]
      congr 2
      omega

/-- A range that starts at the first byte and covers the string replaces it. -/
theorem setRange_zero_of_length_le {bytes value : List UInt8}
    (covers : bytes.length ≤ value.length) : setRange bytes 0 value = value := by
  simp [setRange, List.drop_eq_nil_of_le covers]

/-- The bytes from index `start` to index `stop`, both included.  Negative indices
count from the end; indices out of range are clipped. -/
def getRange (bytes : List UInt8) (start stop : ℤ) : List UInt8 :=
  let first := if start < 0 then max (bytes.length + start) 0 else start
  let last := if stop < 0 then max (bytes.length + stop) 0 else stop
  if start < 0 ∧ stop < 0 ∧ stop < start then []
  else if last < first then []
  else (bytes.drop first.toNat).take (last + 1 - first).toNat

/-- With indices counted from the start of the string, and at least one byte asked
for. -/
theorem getRange_natCast (bytes : List UInt8) (start count : ℕ) (nonempty : 0 < count) :
    getRange bytes start (start + count - 1) = (bytes.drop start).take count := by
  have forward : ¬((start : ℤ) < 0) := by omega
  have forward' : ¬((start : ℤ) + count - 1 < 0) := by omega
  have ordered : ¬((start : ℤ) + count - 1 < start) := by omega
  have width : ((start : ℤ) + count - 1 + 1 - start).toNat = count := by omega
  simp only [getRange, forward, forward', ordered, width, false_and, ite_false,
    Int.toNat_natCast]

/-- The whole string.  This is what a range of length zero at the start comes to. -/
theorem getRange_zero_neg_one (bytes : List UInt8) : getRange bytes 0 (-1) = bytes := by
  have ordered : ¬(max ((bytes.length : ℤ) + -1) 0 < 0) := by omega
  have all : bytes.length ≤ (max ((bytes.length : ℤ) + -1) 0 + 1).toNat := by omega
  simpa [getRange, ordered] using all

end Redis
