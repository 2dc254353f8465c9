import Mathlib

/-!
# The next point on a circle

Points on a circle, which is cut open somewhere: behind the last point comes the
first one.

* `Next` — the next point at or after a place.
* `Next.unique`, `exists_next` — there is one, if there are points, and only one.
* `Next.of_subset` — with fewer points the next one stays the same, unless it is
  taken away.

A search in a sorted list finds the next point, but which list it is does not
matter: `Next` is a relation between a set of points and a place.  This is what
makes the effect of further points a statement of one line.  If the next point of
the larger set is in the smaller one, it is the next one there; so either it is one
of the added points, or nothing has changed.
-/

namespace Circle

variable {α : Type*} [LinearOrder α] {points others : Set α} {x y z : α}

/-- `y` is the next point at or after `x`: the least of the points that are not
before `x`, or the least of all points if there are none of these. -/
def Next (points : Set α) (x y : α) : Prop :=
  y ∈ points ∧ (x ≤ y ∧ (∀ z ∈ points, x ≤ z → y ≤ z) ∨
    (∀ z ∈ points, z < x) ∧ ∀ z ∈ points, y ≤ z)

/-- There is only one next point. -/
theorem Next.unique (next : Next points x y) (next' : Next points x z) : y = z := by
  obtain ⟨here, ⟨above, first⟩ | ⟨none, first⟩⟩ := next <;>
    obtain ⟨here', ⟨above', first'⟩ | ⟨none', first'⟩⟩ := next'
  · exact le_antisymm (first z here' above') (first' y here above)
  · exact absurd (none' y here) (not_lt.mpr above)
  · exact absurd (none z here') (not_lt.mpr above')
  · exact le_antisymm (first z here') (first' y here)

/-- **Points that are not next do not matter.**  They can be taken away. -/
theorem Next.of_subset (next : Next points x y) (subset : others ⊆ points) (here : y ∈ others) :
    Next others x y := by
  obtain ⟨-, ⟨above, first⟩ | ⟨none, first⟩⟩ := next
  · exact ⟨here, .inl ⟨above, fun z member => first z (subset member)⟩⟩
  · exact ⟨here, .inr ⟨fun z member => none z (subset member),
      fun z member => first z (subset member)⟩⟩

/-- The first element of a sorted list at or after `x`, the first of all behind the
end. -/
def nextIdx (x : α) (sorted : List α) : ℕ :=
  let found := sorted.findIdx fun k => x ≤ k
  if found = sorted.length then 0 else found

/-- **Searching a sorted list** finds the next point. -/
theorem exists_next {sorted : List α} (ordered : sorted.Pairwise (· ≤ ·)) (nonempty : sorted ≠ [])
    (x : α) : ∃ y, sorted[nextIdx x sorted]? = some y ∧ Next {k | k ∈ sorted} x y := by
  have positive := List.length_pos_iff.mpr nonempty
  have below : ∀ i (inside : i < sorted.length), i < sorted.findIdx (fun k => x ≤ k) →
      sorted[i] < x := by
    intro i inside before
    simpa using List.not_of_lt_findIdx before
  have later : ∀ i j (inside : i < sorted.length) (inside' : j < sorted.length) (_ : i ≤ j),
      sorted[i] ≤ sorted[j] := by
    intro i j inside inside' before
    rcases Nat.eq_or_lt_of_le before with rfl | less
    · exact le_rfl
    · exact List.pairwise_iff_getElem.mp ordered i j inside inside' less
  by_cases ended : sorted.findIdx (fun k => x ≤ k) = sorted.length
  · refine ⟨sorted[0], by simp [nextIdx, ended], List.getElem_mem positive, .inr ⟨?_, ?_⟩⟩
    · intro z member
      obtain ⟨i, inside, rfl⟩ := List.mem_iff_getElem.mp member
      exact below i inside (by omega)
    · intro z member
      obtain ⟨i, inside, rfl⟩ := List.mem_iff_getElem.mp member
      exact later 0 i positive inside (Nat.zero_le i)
  · have inside : sorted.findIdx (fun k => x ≤ k) < sorted.length :=
      lt_of_le_of_ne List.findIdx_le_length ended
    have above : x ≤ sorted[sorted.findIdx fun k => x ≤ k] := by
      simpa using List.findIdx_getElem (p := fun k => decide (x ≤ k)) (w := inside)
    refine ⟨_, ?_, List.getElem_mem inside, .inl ⟨above, ?_⟩⟩
    · simp [nextIdx, ended, inside]
    · intro z member reached
      obtain ⟨i, inside', rfl⟩ := List.mem_iff_getElem.mp member
      by_cases before : i < sorted.findIdx fun k => x ≤ k
      · exact absurd (below i inside' before) (not_lt.mpr reached)
      · exact later _ i inside inside' (not_lt.mp before)

end Circle
