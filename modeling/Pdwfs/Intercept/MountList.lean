import Pdwfs.Intercept.Mounts

/-!
# The list of the mounts

The C layer learns the mount paths from one string, in which a separator follows
each of them. The Go layer writes it with a `bytes.Buffer` made on an array of the C
layer, and has no other way to say that the array is too small, or that a path has
the separator in it.

* `writtenTo` — what a `bytes.Buffer` leaves in the array that it was made on.
* `mountsText`, `Transmitted` — the string that the C layer reads, and that its
  register has the mount paths in it and nothing else.
* `transmitted_iff` — when it does.

## A buffer that moves

A `bytes.Buffer` that is made on an array writes there as long as there is room.
Then it moves to an array of its own, which the C layer does not know of, and
everything from there on goes there, the zero at the end among it.  The C layer
reads on behind what has been written, up to a zero that happens to be in memory.

So what it reads depends on what is behind, and `Transmitted` asks for all
possibilities.  It fails as soon as there is one string in memory that would make a
path.  The loop over the mounts comes by them in any order, which does not matter to
whether the list fits, but to what is missing if it does not.
-/

namespace Pdwfs

/-- The strings that `InitPdwfs` writes, in the order in which it comes by the
mounts. -/
def mountWrites (order : List GoString) : List GoString :=
  order.flatMap (fun path => [path, ['@']]) ++ [[nul]]

/-- What is written into an array with `room` bytes.  At the first string that does
not fit the `bytes.Buffer` moves to an array of its own, and everything from there
on goes there. -/
def writtenTo : ℕ → List GoString → List Char
  | _, [] => []
  | room, s :: later =>
      if byteLength s ≤ room then s ++ writtenTo (room - byteLength s) later else []

/-- The string that the C layer reads.  Nothing else has been written into the array: `behind`
is what the memory has in it, behind what has been written. -/
def mountsText (order : List GoString) (behind : List Char) : List Char :=
  (writtenTo 1024 (mountWrites order) ++ behind).takeWhile (· ≠ nul)

/-- The mount register has the mount paths in it and nothing else, in whatever order
the loop comes by the mounts, and whatever is behind the list. -/
def Transmitted (paths : Finset GoString) : Prop :=
  ∀ (order : List GoString) (behind : List Char), order.Nodup → (∀ m, m ∈ order ↔ m ∈ paths) →
    ∀ m, m ∈ registerMounts (mountsText order behind) ↔ m ∈ paths

variable {paths : Finset GoString} {order : List GoString} {m : GoString}

/-! ## What is written -/

/-- All strings in one: the paths with their separators, and the zero. -/
theorem flatten_mountWrites (order : List GoString) :
    (mountWrites order).flatten = order.flatMap (· ++ ['@']) ++ [nul] := by
  rw [mountWrites, List.flatten_append, List.flatten_singleton]
  congr 1
  induction order with
  | nil => rfl
  | cons path rest ih =>
      rw [List.flatMap_cons, List.flatten_append, ih, List.flatMap_cons]
      simp

/-- What fits is written whole. -/
theorem writtenTo_of_fits {writes : List GoString} {room : ℕ}
    (fits : byteLength writes.flatten ≤ room) : writtenTo room writes = writes.flatten := by
  induction writes generalizing room with
  | nil => rfl
  | cons s later ih =>
      rw [List.flatten_cons, Mounts.byteLength_append] at fits
      rw [writtenTo, if_pos (le_trans (Nat.le_add_right _ _) fits), List.flatten_cons,
        ih (Nat.le_sub_of_add_le' fits)]

/-- What does not fit is not written whole: the last string is missing. -/
theorem exists_of_mem_writtenTo {writes : List GoString} {last : GoString} {room : ℕ} {c : Char}
    (long : room < byteLength (writes ++ [last]).flatten)
    (written : c ∈ writtenTo room (writes ++ [last])) : ∃ s ∈ writes, c ∈ s := by
  induction writes generalizing room with
  | nil =>
      have whole : ¬byteLength last ≤ room := by simpa using long
      rw [List.nil_append, writtenTo, if_neg whole] at written
      simp at written
  | cons s later ih =>
      rw [List.cons_append, List.flatten_cons, Mounts.byteLength_append] at long
      rw [List.cons_append, writtenTo] at written
      split at written
      · rcases List.mem_append.mp written with first | written
        · exact ⟨s, by simp, first⟩
        · obtain ⟨s', member, inside⟩ := ih (by omega) written
          exact ⟨s', by simp [member], inside⟩
      · simp at written

/-- The number of bytes of the list, with its separators and the zero at its end. -/
theorem byteLength_mountWrites (nodup : order.Nodup) (mem_iff : ∀ m, m ∈ order ↔ m ∈ paths) :
    byteLength (mountWrites order).flatten = ∑ m ∈ paths, (byteLength m + 1) + 1 := by
  have same : order.toFinset = paths := by
    ext m
    rw [List.mem_toFinset, mem_iff]
  have ended : byteLength [nul] = 1 := by decide
  rw [flatten_mountWrites, Mounts.byteLength_append, Mounts.byteLength_flatMap, ended, ← same,
    List.sum_toFinset _ nodup]

/-! ## What is read -/

/-- If the list fits, it does not matter what is behind it. -/
theorem mountsText_of_initPdwfs {text : List Char} (read : initPdwfs order = some text)
    (behind : List Char) : mountsText order behind = text := by
  rw [initPdwfs, ← flatten_mountWrites] at read
  split at read
  · rename_i fits
    obtain rfl := Option.some.inj read
    rw [mountsText, writtenTo_of_fits fits, flatten_mountWrites, List.append_assoc]
    -- The zero at the end of the list stops the reading.
    have stop : ∀ rest, (nul :: rest).takeWhile (· ≠ nul) = [] := fun rest =>
      List.takeWhile_cons_of_neg (by simp)
    rw [List.singleton_append, List.takeWhile_append, List.takeWhile_append, stop, stop]
  · simp at read

/-- A string in the register has no separator and no zero. -/
theorem clear_of_mem_registerMounts {text : List Char} (member : m ∈ registerMounts text) :
    '@' ∉ m ∧ ∀ c ∈ m, c ∈ text := by
  have piece := (List.mem_filter.mp member).1
  clear member
  induction text generalizing m with
  | nil =>
      obtain rfl : m = [] := by simpa [List.splitOn_nil] using piece
      simp
  | cons c rest ih =>
      rw [List.splitOn_cons_eq_if_modifyHead] at piece
      by_cases separator : c = '@'
      · rw [if_pos (by simp [separator]), List.mem_cons] at piece
        rcases piece with rfl | later
        · simp
        · exact ⟨(ih later).1, fun d inside => List.mem_cons_of_mem _ ((ih later).2 d inside)⟩
      · rw [if_neg (by simp [separator])] at piece
        obtain ⟨first, others, split⟩ := List.exists_cons_of_ne_nil (List.splitOn_ne_nil '@' rest)
        rw [split, List.modifyHead_cons, List.mem_cons] at piece
        rcases piece with rfl | later
        · have before := @ih first (by simp [split])
          refine ⟨by simp [Ne.symm separator, before.1], fun d inside => ?_⟩
          rcases List.mem_cons.mp inside with rfl | inside
          · exact List.mem_cons_self
          · exact List.mem_cons_of_mem _ (before.2 d inside)
        · have after := @ih m (by simp [split, later])
          exact ⟨after.1, fun d inside => List.mem_cons_of_mem _ (after.2 d inside)⟩

theorem nul_not_mem_mountsText (order : List GoString) (behind : List Char) :
    nul ∉ mountsText order behind := by
  intro member
  have := List.mem_takeWhile_imp member
  simp at this

/-- A mount path that is registered as it is has no separator and no zero. -/
theorem Transmitted.clear (transmitted : Transmitted paths) (member : m ∈ paths) :
    '@' ∉ m ∧ nul ∉ m := by
  have registered := (transmitted paths.toList [] (Finset.nodup_toList _)
    (fun _ => Finset.mem_toList) m).mpr member
  obtain ⟨noSeparator, inText⟩ := clear_of_mem_registerMounts registered
  exact ⟨noSeparator, fun zero => nul_not_mem_mountsText _ _ (inText nul zero)⟩

/-- If the list does not fit, the memory behind it may have a string for the register in it. -/
theorem Transmitted.fits (transmitted : Transmitted paths)
    (isClean : ∀ m ∈ paths, Filepath.IsCleanAbs m) :
    ∑ m ∈ paths, (byteLength m + 1) + 1 ≤ 1024 := by
  by_contra long
  have mem_iff : ∀ m, m ∈ paths.toList ↔ m ∈ paths := fun _ => Finset.mem_toList
  rw [← byteLength_mountWrites (Finset.nodup_toList _) mem_iff, not_le] at long
  -- Without the zero, a `?` follows what has been written.
  have open' : ∀ c ∈ writtenTo 1024 (mountWrites paths.toList) ++ ['@', '?'],
      decide (c ≠ nul) = true := by
    intro c inside
    rcases List.mem_append.mp inside with written | added
    · obtain ⟨s, member, inside⟩ := exists_of_mem_writtenTo long written
      obtain ⟨m, inOrder, isWrite⟩ := List.mem_flatMap.mp member
      rw [List.mem_pair] at isWrite
      rcases isWrite with rfl | rfl
      · have noNul := (transmitted.clear ((mem_iff s).mp inOrder)).2
        rw [decide_eq_true_eq]
        rintro rfl
        exact noNul inside
      · obtain rfl := List.mem_singleton.mp inside
        decide
    · rw [List.mem_pair] at added
      rcases added with rfl | rfl
      · decide
      · decide
  have registered : ['?'] ∈ registerMounts (mountsText paths.toList ['@', '?']) := by
    rw [mountsText, List.takeWhile_eq_self_iff.mpr open', registerMounts,
      List.splitOn_append_cons_self, List.mem_filter]
    exact ⟨List.mem_append_right _ (by decide), by decide⟩
  have member := (transmitted _ _ (Finset.nodup_toList _) mem_iff _).mp registered
  obtain ⟨names, -, same⟩ := isClean _ member
  rw [Filepath.render, List.cons.injEq] at same
  exact absurd same.1 (by decide)

/-- A list that fits is read back. -/
theorem transmitted_of_fits (isClean : ∀ m ∈ paths, Filepath.IsCleanAbs m)
    (fits : ∑ m ∈ paths, (byteLength m + 1) + 1 ≤ 1024)
    (clear : ∀ m ∈ paths, '@' ∉ m ∧ nul ∉ m) : Transmitted paths := by
  intro order behind nodup mem_iff m
  rw [← byteLength_mountWrites nodup mem_iff] at fits
  have noNul : ∀ c ∈ order.flatMap (· ++ ['@']), decide (c ≠ nul) = true := by
    intro c inside
    simp only [List.mem_flatMap, List.mem_append, List.mem_singleton] at inside
    obtain ⟨m, inOrder, inside | rfl⟩ := inside
    · have noNul := (clear m ((mem_iff m).mp inOrder)).2
      rw [decide_eq_true_eq]
      rintro rfl
      exact noNul inside
    · decide
  have read : initPdwfs order = some (order.flatMap (· ++ ['@'])) := by
    rw [flatten_mountWrites] at fits
    rw [initPdwfs, if_pos fits, List.takeWhile_append_of_pos noNul,
      List.takeWhile_cons_of_neg (by simp), List.append_nil]
  rw [mountsText_of_initPdwfs read behind, Mounts.mem_registerMounts_flatMap]
  have whole : ∀ m ∈ paths, m.splitOn '@' = [m] := fun m member =>
    List.splitOn_eq_singleton (clear m member).1
  constructor
  · rintro ⟨-, m', inOrder, piece⟩
    have member := (mem_iff m').mp inOrder
    rw [whole m' member, List.mem_singleton] at piece
    rwa [piece]
  · intro member
    refine ⟨Filepath.ne_nil_of_isCleanAbs (isClean m member), m, (mem_iff m).mpr member, ?_⟩
    rw [whole m member]
    exact List.mem_cons_self

/-- **When the mount paths arrive in the C layer**: there is room for the list, and
no path has the separator in it, or a zero.  The number is that of the bytes in the
list, with a separator behind each path and the zero at the end. -/
theorem transmitted_iff (isClean : ∀ m ∈ paths, Filepath.IsCleanAbs m) :
    Transmitted paths ↔
      ∑ m ∈ paths, (byteLength m + 1) + 1 ≤ 1024 ∧ ∀ m ∈ paths, '@' ∉ m ∧ nul ∉ m := by
  constructor
  · exact fun transmitted => ⟨transmitted.fits isClean, fun m => transmitted.clear⟩
  · exact fun ⟨fits, clear⟩ => transmitted_of_fits isClean fits clear

/-- The mounts `/a` and `/a/b` arrive. -/
theorem transmitted_nested : Transmitted {['/', 'a'], ['/', 'a', '/', 'b']} := by
  refine (transmitted_iff fun m member => ?_).mpr ⟨by decide, by decide⟩
  rcases Finset.mem_insert.mp member with rfl | inner
  · exact Mounts.isCleanAbs_a
  · obtain rfl := Finset.mem_singleton.mp inner
    exact Mounts.isCleanAbs_ab

/-- The mount path `/a@b` arrives as `/a` and `b`. -/
theorem not_transmitted_separator :
    ¬∀ paths : Finset GoString, (∀ m ∈ paths, Filepath.IsCleanAbs m) → Transmitted paths := by
  intro all
  have transmitted := all {['/', 'a', '@', 'b']} fun m member => by
    obtain rfl := Finset.mem_singleton.mp member
    refine ⟨[['a', '@', 'b']], fun name member => ?_, by decide⟩
    obtain rfl := List.mem_singleton.mp member
    exact ⟨by decide, by decide, by decide, by decide⟩
  exact absurd (transmitted.clear (Finset.mem_singleton_self _)).1 (by decide)

end Pdwfs
