import Pdwfs.Util.Strconv

/-!
# Redis keys

The names under which the program stores things: the stripes of a file, the set of
its stripes, and the two metadata keys of an inode.

Every key ends in a `:` followed by a suffix without `:`.  The suffixes of the four
kinds are different from each other, so a key determines its kind and the string it
was made from, whatever characters that string contains.

A path may contain colons, braces and digits, so a key cannot be taken apart at the
first `:`.  It can at the last one, and `append_colon_inj` is that.  Everything else
follows from what the suffixes are: a number for a stripe, and three words that are
no numbers since they begin with a letter.

Two paths have no key in common then, and neither have a file and its own metadata.
All that is said later about one file leaving another one alone rests on the ten
lemmas at the end.
-/

namespace Pdwfs

/-- The key of a stripe, `name:id`. -/
def key (name : GoString) (id : ℤ) : GoString := name ++ ':' :: formatInt id

/-- The key of the set of stripes that an instance stores, `name:stripes`. -/
def stripesKey (name : GoString) : GoString :=
  name ++ ':' :: ['s', 't', 'r', 'i', 'p', 'e', 's']

/-- The prefix of the metadata keys, `{path}`: the braces put them on one instance. -/
def keyPrefix (path : GoString) : GoString := '{' :: (path ++ ['}'])

/-- The key whose existence is that of the inode, `{path}:mode`. -/
def modeKey (path : GoString) : GoString := keyPrefix path ++ ':' :: ['m', 'o', 'd', 'e']

/-- The key of the set of children of a directory, `{path}:children`. -/
def childrenKey (path : GoString) : GoString :=
  keyPrefix path ++ ':' :: ['c', 'h', 'i', 'l', 'd', 'r', 'e', 'n']

/-- A string is cut in only one way at its last `:`. -/
theorem append_colon_inj {a b s t : GoString} (hs : ':' ∉ s) (ht : ':' ∉ t)
    (same : a ++ ':' :: s = b ++ ':' :: t) : a = b ∧ s = t := by
  rcases List.append_eq_append_iff.mp same with ⟨c, rfl, split⟩ | ⟨c, rfl, split⟩
  · cases c with
    | nil => simpa using split
    | cons x rest =>
        have inside : s = rest ++ ':' :: t := by simpa using (List.cons.inj split).2
        exact absurd (by simp [inside]) hs
  · cases c with
    | nil => simpa using split.symm
    | cons x rest =>
        have inside : t = rest ++ ':' :: s := by simpa using (List.cons.inj split).2
        exact absurd (by simp [inside]) ht

/-- A number has no colon. -/
theorem colon_notMem_formatInt (id : ℤ) : ':' ∉ formatInt id := by
  intro member
  rcases isDigit_or_minus_of_mem_formatInt member with digit | minus
  · exact absurd digit (by decide)
  · exact absurd minus (by decide)

/-- A number is not a word that begins with a letter. -/
theorem formatInt_ne_of_mem {id : ℤ} {word : GoString} {c : Char} (member : c ∈ word)
    (letter : c.isDigit = false ∧ c ≠ '-') : formatInt id ≠ word := by
  rintro rfl
  rcases isDigit_or_minus_of_mem_formatInt member with digit | minus
  · simp [digit] at letter
  · exact letter.2 minus

/-- **A stripe key determines the file and the number of the stripe**, negative
numbers included. -/
theorem key_inj {name name' : GoString} {id id' : ℤ} :
    key name id = key name' id' ↔ name = name' ∧ id = id' := by
  constructor
  · intro same
    obtain ⟨sameName, sameId⟩ :=
      append_colon_inj (colon_notMem_formatInt id) (colon_notMem_formatInt id') same
    exact ⟨sameName, formatInt_injective sameId⟩
  · rintro ⟨rfl, rfl⟩
    rfl

theorem stripesKey_inj {name name' : GoString} :
    stripesKey name = stripesKey name' ↔ name = name' :=
  ⟨fun same => List.append_cancel_right same, congrArg _⟩

theorem keyPrefix_inj {path path' : GoString} :
    keyPrefix path = keyPrefix path' ↔ path = path' := by
  simp [keyPrefix]

theorem modeKey_inj {path path' : GoString} : modeKey path = modeKey path' ↔ path = path' :=
  ⟨fun same => keyPrefix_inj.mp (List.append_cancel_right same), congrArg _⟩

theorem childrenKey_inj {path path' : GoString} :
    childrenKey path = childrenKey path' ↔ path = path' :=
  ⟨fun same => keyPrefix_inj.mp (List.append_cancel_right same), congrArg _⟩

/-! ## The four kinds of keys are disjoint -/

/-- A stripe is not the set of the stripes, of whatever file. -/
theorem key_ne_stripesKey (name name' : GoString) (id : ℤ) : key name id ≠ stripesKey name' := by
  intro same
  exact formatInt_ne_of_mem (c := 's') (by simp) (by decide)
    (append_colon_inj (colon_notMem_formatInt id) (by decide) same).2

theorem key_ne_modeKey (name path : GoString) (id : ℤ) : key name id ≠ modeKey path := by
  intro same
  exact formatInt_ne_of_mem (c := 'm') (by simp) (by decide)
    (append_colon_inj (colon_notMem_formatInt id) (by decide) same).2

theorem key_ne_childrenKey (name path : GoString) (id : ℤ) : key name id ≠ childrenKey path := by
  intro same
  exact formatInt_ne_of_mem (c := 'c') (by simp) (by decide)
    (append_colon_inj (colon_notMem_formatInt id) (by decide) same).2

theorem stripesKey_ne_modeKey (name path : GoString) : stripesKey name ≠ modeKey path := by
  intro same
  exact absurd (append_colon_inj (by decide) (by decide) same).2 (by decide)

theorem stripesKey_ne_childrenKey (name path : GoString) :
    stripesKey name ≠ childrenKey path := by
  intro same
  exact absurd (append_colon_inj (by decide) (by decide) same).2 (by decide)

/-- The two metadata keys differ. -/
theorem modeKey_ne_childrenKey (path path' : GoString) : modeKey path ≠ childrenKey path' := by
  intro same
  exact absurd (append_colon_inj (by decide) (by decide) same).2 (by decide)

end Pdwfs
