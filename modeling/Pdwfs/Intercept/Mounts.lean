import Pdwfs.Filepath.Abspath
import Pdwfs.Redisfs.Client

/-!
# Which paths are managed

Three functions decide whether a path belongs to a mount: `contains_path` of the C
layer, `getMount`, which also says to which one, and `ValidatePath` of the file
system itself.  All of them ask for a mount path that is a prefix of the absolute
form of the path.

* `Mounts` — the mounts of a process.
* `Mounts.getMount`, `registerMounts`, `containsPath` — the functions.  The loops
  over the map of mounts come by them in any order.
* `Agrees` — the three functions give a path to the deepest mount that it is in.
* `Separate`, `agrees_iff_separate` — when they do.

## Prefixes and components

A prefix of a string need not end where a component does.  With a mount `/a`, the
path `/ab` has the mount path as a prefix and is not in the mount, and all three
functions accept it.  With a mount below another one, a path may have two prefixes,
and `getMount` takes the one that it comes by first, where the order of a map is not
determined.

`Agrees` is what one would like: a path is managed if it is in a mount at a
component boundary, and then it goes to the deepest one.  `Separate` is what the
functions need for it: at most one mount path is a prefix of the path, and at a
boundary.

## The register

The C layer has its mount paths from a list in one string.  If a mount path has the
separator in it, the register has the pieces instead, and a piece may be a prefix of
other paths; the condition covers this.  That the list has to fit into the array is
one more part of it.
-/

namespace Pdwfs

/-- The character that ends a string of C. -/
def nul : Char := Char.ofNat 0

/-- The number of bytes of a string. -/
def byteLength (s : GoString) : ℕ := (s.map Char.utf8Size).sum

/-- The mounts of a process, by their paths.  There is at least one, and their paths
are strings of C. -/
structure Mounts where
  paths : Finset GoString
  mount : GoString → RedisFS
  mountPath_eq : ∀ path ∈ paths, (mount path).mountPath = path
  nonempty : paths.Nonempty
  noNul : ∀ path ∈ paths, nul ∉ path

/-! ## The functions -/

/-- The list of the mount paths that `InitPdwfs` gives to the C layer, in the order in which it
came by them.  Past the end of the C buffer it is written elsewhere, and what the C layer reads
is not determined. -/
def initPdwfs (order : List GoString) : Option (List Char) :=
  let text := order.flatMap (· ++ ['@']) ++ [nul]
  if byteLength text ≤ 1024 then some (text.takeWhile (· ≠ nul)) else none

/-- The strings in the mount register of the C layer. -/
def registerMounts (text : List Char) : List GoString :=
  (text.splitOn '@').filter (· ≠ [])

/-- Whether a string in the register is a prefix of the absolute form of the path. -/
def containsPath (register : List GoString) (cwd : Filepath.WorkingDir) (path : GoString) :
    Bool :=
  match Filepath.abspath cwd path with
  | none => false
  | some apath => register.any fun mount => mount <+: apath

/-- What `contains_path` answers after the start of the program. -/
def isManaged (order : List GoString) (cwd : Filepath.WorkingDir) (path : GoString) :
    Option Bool :=
  (initPdwfs order).map fun text => containsPath (registerMounts text) cwd path

namespace Mounts

variable (mounts : Mounts) (order : List GoString) (cwd : Filepath.WorkingDir) (name : GoString)

/-- An order in which a loop over the map may come by the mounts. -/
structure Order : Prop where
  nodup : order.Nodup
  mem_iff : ∀ path, path ∈ order ↔ path ∈ mounts.paths

/-- The mount of a path, if it finds one. -/
def getMount : Option RedisFS :=
  if name = [] then none
  else (order.find? fun path => path <+: Filepath.abs cwd name).map mounts.mount

/-! ## Ownership -/

/-- The path is a mount path, or it is below one at a component boundary. -/
def Managed (path : GoString) : Prop := ∃ m ∈ mounts.paths, Filepath.Under m path

instance (path : GoString) : Decidable (mounts.Managed path) :=
  inferInstanceAs (Decidable (∃ m ∈ mounts.paths, _))

/-- The mount path `m` is the deepest one that the path is in. -/
structure Deepest (path m : GoString) : Prop where
  mem : m ∈ mounts.paths
  under : Filepath.Under m path
  deepest : ∀ m' ∈ mounts.paths, Filepath.Under m' path → Filepath.Under m' m

/-- The three functions accept the path exactly if it is managed, and the mount of
the path is the deepest one, in whatever order the loops come by the mounts. -/
structure Agrees : Prop where
  validatePath_iff : ∀ m ∈ mounts.paths,
    (mounts.mount m).validatePath cwd name = none ↔ Filepath.Under m (Filepath.abs cwd name)
  isManaged_eq : ∀ order, mounts.Order order →
    isManaged order cwd name = some (decide (mounts.Managed (Filepath.abs cwd name)))
  getMount_isSome : ∀ order, mounts.Order order →
    ((mounts.getMount order cwd name).isSome ↔ mounts.Managed (Filepath.abs cwd name))
  getMount_deepest : ∀ order fs, mounts.Order order → mounts.getMount order cwd name = some fs →
    mounts.Deepest (Filepath.abs cwd name) fs.mountPath
  getMount_order : ∀ order order', mounts.Order order → mounts.Order order' →
    mounts.getMount order cwd name = mounts.getMount order' cwd name

/-- The mount paths fit in the buffer of the C layer, at most one of them is a prefix of the
path, and it is so at a component boundary; what the C layer takes for a mount path, because
a mount path has an `@`, is no other prefix of the path. -/
structure Separate (path : GoString) : Prop where
  fits : ∑ m ∈ mounts.paths, (byteLength m + 1) + 1 ≤ 1024
  boundary : ∀ m ∈ mounts.paths, m <+: path → Filepath.Under m path
  alone : ∀ m ∈ mounts.paths, ∀ m' ∈ mounts.paths, m <+: path → m' <+: path → m = m'
  pieces : ∀ m ∈ mounts.paths, ∀ piece ∈ m.splitOn '@', piece ≠ [] → piece <+: path →
    mounts.Managed path

variable {mounts order cwd name} {path m m' : GoString}

theorem isClean (member : m ∈ mounts.paths) : Filepath.IsCleanAbs m := by
  rw [← mounts.mountPath_eq m member]
  exact (mounts.mount m).cleanMount

theorem validatePath_eq_none_iff (member : m ∈ mounts.paths) :
    (mounts.mount m).validatePath cwd name = none ↔ m <+: Filepath.abs cwd name := by
  rw [RedisFS.validatePath, mounts.mountPath_eq m member]
  split
  · exact iff_of_true rfl ‹_›
  · exact iff_of_false (by simp) ‹_›

/-! ## Orders -/

theorem order_toList : mounts.Order mounts.paths.toList :=
  ⟨Finset.nodup_toList _, fun _ => Finset.mem_toList⟩

/-- Any mount may come first. -/
theorem order_first (member : m ∈ mounts.paths) :
    mounts.Order (m :: (mounts.paths.erase m).toList) := by
  refine ⟨List.nodup_cons.mpr ⟨by simp, Finset.nodup_toList _⟩, fun path => ?_⟩
  rw [List.mem_cons, Finset.mem_toList, Finset.mem_erase]
  constructor
  · rintro (rfl | ⟨-, member⟩) <;> assumption
  · intro member
    by_cases same : path = m
    · exact .inl same
    · exact .inr ⟨same, member⟩

/-! ## `getMount` -/

theorem getMount_first (nonempty : name ≠ []) (isPrefix : m <+: Filepath.abs cwd name)
    (rest : List GoString) : mounts.getMount (m :: rest) cwd name = some (mounts.mount m) := by
  rw [getMount, if_neg nonempty, List.find?_cons_of_pos (by simpa using isPrefix),
    Option.map_some]

/-- What `getMount` finds is the mount of one of the prefixes of the path. -/
theorem exists_of_getMount {fs : RedisFS} (ordered : mounts.Order order)
    (found : mounts.getMount order cwd name = some fs) :
    ∃ m ∈ mounts.paths, m <+: Filepath.abs cwd name ∧ mounts.mount m = fs := by
  rw [getMount] at found
  split at found
  · simp at found
  · obtain ⟨m, first, same⟩ := Option.map_eq_some_iff.mp found
    exact ⟨m, (ordered.mem_iff m).mp (List.mem_of_find?_eq_some first),
      by simpa using List.find?_some first, same⟩

/-- The only mount path that is a prefix is found. -/
theorem getMount_of_alone (nonempty : name ≠ []) (ordered : mounts.Order order)
    (alone : ∀ m ∈ mounts.paths, ∀ m' ∈ mounts.paths, m <+: Filepath.abs cwd name →
      m' <+: Filepath.abs cwd name → m = m')
    (member : m ∈ mounts.paths) (isPrefix : m <+: Filepath.abs cwd name) :
    mounts.getMount order cwd name = some (mounts.mount m) := by
  cases found : mounts.getMount order cwd name with
  | none =>
      rw [getMount, if_neg nonempty, Option.map_eq_none_iff, List.find?_eq_none] at found
      exact absurd (by simpa using isPrefix) (found m ((ordered.mem_iff m).mpr member))
  | some fs =>
      obtain ⟨m', member', isPrefix', rfl⟩ := exists_of_getMount ordered found
      rw [alone m' member' m member isPrefix' isPrefix]

theorem Deepest.eq (deep : mounts.Deepest path m) (deep' : mounts.Deepest path m') : m = m' := by
  have forth := (deep'.deepest m deep.mem deep.under).isPrefix
  have back := (deep.deepest m' deep'.mem deep'.under).isPrefix
  exact forth.eq_of_length_le back.length_le

/-! ## The mount register -/

/-- The list, split at the separators: the pieces of all paths, and nothing behind
the last separator. -/
theorem splitOn_flatMap (order : List GoString) :
    (order.flatMap (· ++ ['@'])).splitOn '@' = order.flatMap (·.splitOn '@') ++ [[]] := by
  induction order with
  | nil => rfl
  | cons m rest ih =>
      rw [List.flatMap_cons, List.append_assoc, List.singleton_append,
        List.splitOn_append_cons_self, ih, List.flatMap_cons, List.append_assoc]

theorem byteLength_append (s t : GoString) : byteLength (s ++ t) = byteLength s + byteLength t := by
  simp [byteLength]

/-- A path and its separator. -/
theorem byteLength_flatMap (order : List GoString) :
    byteLength (order.flatMap (· ++ ['@'])) = (order.map fun m => byteLength m + 1).sum := by
  induction order with
  | nil => rfl
  | cons m rest ih =>
      have separator : byteLength ['@'] = 1 := by decide
      rw [List.flatMap_cons, byteLength_append, byteLength_append, ih, separator, List.map_cons,
        List.sum_cons]

/-- What the C layer reads. -/
theorem initPdwfs_eq (ordered : mounts.Order order) : initPdwfs order =
    if ∑ m ∈ mounts.paths, (byteLength m + 1) + 1 ≤ 1024 then
      some (order.flatMap (· ++ ['@'])) else none := by
  have total : ∑ m ∈ mounts.paths, (byteLength m + 1) =
      (order.map fun m => byteLength m + 1).sum := by
    have same : order.toFinset = mounts.paths := by
      ext path
      rw [List.mem_toFinset, ordered.mem_iff]
    rw [← same, List.sum_toFinset _ ordered.nodup]
  have ended : byteLength [nul] = 1 := by decide
  have clear : ∀ c ∈ order.flatMap (· ++ ['@']), decide (c ≠ nul) = true := by
    intro c member
    simp only [List.mem_flatMap, List.mem_append, List.mem_singleton] at member
    obtain ⟨m, inOrder, inside | rfl⟩ := member
    · have noNul := mounts.noNul m ((ordered.mem_iff m).mp inOrder)
      simp only [decide_eq_true_eq]
      rintro rfl
      exact noNul inside
    · decide
  rw [initPdwfs, byteLength_append, byteLength_flatMap, ended, total]
  rw [List.takeWhile_append_of_pos clear]
  simp

/-- The register has the pieces of the paths, but for the empty ones. -/
theorem mem_registerMounts_flatMap {piece : GoString} :
    piece ∈ registerMounts (order.flatMap (· ++ ['@'])) ↔
      piece ≠ [] ∧ ∃ m ∈ order, piece ∈ m.splitOn '@' := by
  rw [registerMounts, splitOn_flatMap, List.mem_filter, List.mem_append, List.mem_flatMap]
  simp only [List.mem_singleton, decide_eq_true_eq]
  constructor
  · rintro ⟨piece | empty, nonempty⟩
    · exact ⟨nonempty, piece⟩
    · exact absurd empty nonempty
  · exact fun ⟨nonempty, piece⟩ => ⟨.inl piece, nonempty⟩

/-- The strings in the register are the pieces of the mount paths. -/
theorem mem_registerMounts {piece : GoString} (ordered : mounts.Order order) :
    piece ∈ registerMounts (order.flatMap (· ++ ['@'])) ↔
      piece ≠ [] ∧ ∃ m ∈ mounts.paths, piece ∈ m.splitOn '@' := by
  simp only [mem_registerMounts_flatMap, ordered.mem_iff]

/-- A mount path begins with a piece that is not empty. -/
theorem exists_piece (isClean : Filepath.IsCleanAbs m) :
    ∃ piece ∈ m.splitOn '@', piece ≠ [] ∧ piece <+: m := by
  obtain ⟨names, -, rfl⟩ := isClean
  obtain ⟨piece, others, split⟩ :=
    List.exists_cons_of_ne_nil (List.splitOn_ne_nil '@' (['/'].intercalate names))
  refine ⟨'/' :: piece, ?_, by simp, ?_⟩
  · rw [Filepath.render, List.splitOn_cons_eq_if_modifyHead, if_neg (by simp), split]
    simp
  · rw [Filepath.render, List.cons_prefix_cons]
    refine ⟨rfl, ?_⟩
    have whole : ['@'].intercalate ((['/'].intercalate names).splitOn '@') =
        ['/'].intercalate names := List.intercalate_splitOn _
    rw [← whole, split]
    cases others with
    | nil => simp
    | cons next later =>
        rw [List.intercalate_cons_of_ne_nil (by simp)]
        exact ⟨_, (List.append_assoc _ _ _).symm⟩

/-- What the C layer answers: the list has been read whole, and a piece of a mount
path is a prefix. -/
theorem isManaged_eq_some_iff (isClean : Filepath.IsCleanAbs cwd.1) (nonempty : name ≠ [])
    (ordered : mounts.Order order) {answer : Bool} :
    isManaged order cwd name = some answer ↔
      ∑ m ∈ mounts.paths, (byteLength m + 1) + 1 ≤ 1024 ∧
      (answer = true ↔ ∃ m ∈ mounts.paths, ∃ piece ∈ m.splitOn '@', piece ≠ [] ∧
        piece <+: Filepath.abs cwd name) := by
  rw [isManaged, initPdwfs_eq ordered]
  split
  · rename_i fits
    simp only [Option.map_some, Option.some.injEq, fits, true_and, containsPath,
      Filepath.abspath_eq isClean nonempty]
    rw [eq_comm, Bool.eq_iff_iff, List.any_eq_true]
    simp only [mem_registerMounts ordered, decide_eq_true_eq]
    apply iff_congr Iff.rfl
    constructor
    · rintro ⟨piece, ⟨nonempty, m, member, inside⟩, isPrefix⟩
      exact ⟨m, member, piece, inside, nonempty, isPrefix⟩
    · rintro ⟨m, member, piece, inside, nonempty, isPrefix⟩
      exact ⟨piece, ⟨nonempty, m, member, inside⟩, isPrefix⟩
  · rename_i long
    simp [long]

/-! ## When they agree -/

/-- The condition is necessary: what agrees in every order of the loops leaves no
choice. -/
theorem separate_of_agrees (isClean : Filepath.IsCleanAbs cwd.1) (nonempty : name ≠ [])
    (agrees : mounts.Agrees cwd name) : mounts.Separate (Filepath.abs cwd name) := by
  have answered := (isManaged_eq_some_iff isClean nonempty order_toList).mp
    (agrees.isManaged_eq _ order_toList)
  rw [decide_eq_true_eq] at answered
  refine ⟨answered.1, ?_, ?_, ?_⟩
  · intro m member isPrefix
    exact (agrees.validatePath_iff m member).mp ((validatePath_eq_none_iff member).mpr isPrefix)
  · -- Each of the two is returned in an order in which it comes first.
    have deepest : ∀ m ∈ mounts.paths, m <+: Filepath.abs cwd name →
        mounts.Deepest (Filepath.abs cwd name) m := by
      intro m member isPrefix
      have deep := agrees.getMount_deepest _ _ (order_first member)
        (getMount_first nonempty isPrefix _)
      rwa [mounts.mountPath_eq m member] at deep
    intro m member m' member' isPrefix isPrefix'
    exact (deepest m member isPrefix).eq (deepest m' member' isPrefix')
  · intro m member piece inside nonempty isPrefix
    exact answered.2.mpr ⟨m, member, piece, inside, nonempty, isPrefix⟩

theorem Separate.deepest (separate : mounts.Separate path) (member : m ∈ mounts.paths)
    (isPrefix : m <+: path) : mounts.Deepest path m := by
  refine ⟨member, separate.boundary m member isPrefix, fun m' member' under => ?_⟩
  rw [separate.alone m' member' m member under.isPrefix isPrefix]
  exact .refl m

/-- And it is sufficient. -/
theorem Separate.agrees (isClean : Filepath.IsCleanAbs cwd.1) (nonempty : name ≠ [])
    (separate : mounts.Separate (Filepath.abs cwd name)) : mounts.Agrees cwd name where
  validatePath_iff m member := by
    rw [validatePath_eq_none_iff member]
    exact ⟨separate.boundary m member, fun under => under.isPrefix⟩
  isManaged_eq order ordered := by
    rw [isManaged_eq_some_iff isClean nonempty ordered, decide_eq_true_eq]
    refine ⟨separate.fits, ?_, ?_⟩
    · rintro ⟨m, member, under⟩
      obtain ⟨piece, inside, nonempty, isPrefix⟩ := exists_piece (Mounts.isClean member)
      exact ⟨m, member, piece, inside, nonempty, isPrefix.trans under.isPrefix⟩
    · rintro ⟨m, member, piece, inside, nonempty, isPrefix⟩
      exact separate.pieces m member piece inside nonempty isPrefix
  getMount_isSome order ordered := by
    constructor
    · intro found
      obtain ⟨fs, found⟩ := Option.isSome_iff_exists.mp found
      obtain ⟨m, member, isPrefix, -⟩ := exists_of_getMount ordered found
      exact ⟨m, member, separate.boundary m member isPrefix⟩
    · rintro ⟨m, member, under⟩
      rw [getMount_of_alone nonempty ordered separate.alone member under.isPrefix]
      rfl
  getMount_deepest order fs ordered found := by
    obtain ⟨m, member, isPrefix, rfl⟩ := exists_of_getMount ordered found
    rw [mounts.mountPath_eq m member]
    exact separate.deepest member isPrefix
  getMount_order order order' ordered ordered' := by
    have half : ∀ {order order' : List GoString} {fs : RedisFS}, mounts.Order order →
        mounts.Order order' → mounts.getMount order cwd name = some fs →
        mounts.getMount order' cwd name = some fs := by
      intro order order' fs ordered ordered' found
      obtain ⟨m, member, isPrefix, rfl⟩ := exists_of_getMount ordered found
      exact getMount_of_alone nonempty ordered' separate.alone member isPrefix
    exact Option.ext fun fs => ⟨half ordered ordered', half ordered' ordered⟩

/-- **When the layers agree on a path.**  The name may be relative, and is then
taken from the working directory.  That the condition is necessary comes from the
orders of the loops: a mount that is a prefix can be the first one that `getMount`
comes by. -/
theorem agrees_iff_separate (isClean : Filepath.IsCleanAbs cwd.1) (nonempty : name ≠ []) :
    mounts.Agrees cwd name ↔ mounts.Separate (Filepath.abs cwd name) :=
  ⟨separate_of_agrees isClean nonempty, Separate.agrees isClean nonempty⟩

/-! ## Mounts of a small file system -/

theorem isCleanAbs_a : Filepath.IsCleanAbs ['/', 'a'] := by
  refine ⟨[['a']], fun name member => ?_, by decide⟩
  obtain rfl := List.mem_singleton.mp member
  exact ⟨by decide, by decide, by decide, by decide⟩

theorem isCleanAbs_ab : Filepath.IsCleanAbs ['/', 'a', '/', 'b'] := by
  refine ⟨[['a'], ['b']], fun name member => ?_, by decide⟩
  rcases List.mem_pair.mp member with rfl | rfl
  · exact ⟨by decide, by decide, by decide, by decide⟩
  · exact ⟨by decide, by decide, by decide, by decide⟩

/-- The mount `/a`, alone. -/
def single : Mounts where
  paths := {['/', 'a']}
  mount _ := { RedisFS.small with mountPath := ['/', 'a'], cleanMount := isCleanAbs_a }
  mountPath_eq path member := (Finset.mem_singleton.mp member).symm
  nonempty := Finset.singleton_nonempty _
  noNul := by decide

/-- A mount below another one. -/
def nested : Mounts where
  paths := {['/', 'a'], ['/', 'a', '/', 'b']}
  mount path :=
    if path = ['/', 'a'] then
      { RedisFS.small with mountPath := ['/', 'a'], cleanMount := isCleanAbs_a }
    else { RedisFS.small with mountPath := ['/', 'a', '/', 'b'], cleanMount := isCleanAbs_ab }
  mountPath_eq path member := by
    rcases Finset.mem_insert.mp member with rfl | inner
    · rfl
    · obtain rfl := Finset.mem_singleton.mp inner
      rfl
  nonempty := Finset.insert_nonempty _ _
  noNul := by decide

/-- The path `/a/x` is in the outer mount only. -/
theorem agrees_inside : nested.Agrees RedisFS.small.home ['/', 'a', '/', 'x'] := by
  refine (agrees_iff_separate ⟨[], by simp, by decide⟩ (by simp)).mpr ⟨?_, ?_, ?_, ?_⟩
  · decide
  · decide
  · decide
  · decide

/-- The path `/ab` is not below `/a`, and `ValidatePath` accepts it. -/
theorem not_agrees_sibling : ¬nested.Agrees RedisFS.small.home ['/', 'a', 'b'] := by
  intro agrees
  have under := (agrees.validatePath_iff ['/', 'a'] (by decide)).mp (by decide)
  exact absurd under (by decide)

end Mounts

end Pdwfs
