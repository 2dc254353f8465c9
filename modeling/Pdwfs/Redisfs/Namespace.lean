import Pdwfs.Redisfs.Metadata

/-!
# The namespace

A namespace gives each path its entry.

* `Below` — the paths that are reached by listing directories.
* `deleted_of_exec_remove` — a removal that is completed has deleted the entries of
  the paths below the removed one, and no others.
* `WellFormed` — the tree that a namespace should be.  It is kept by the creation of
  a path in an existing directory (`WellFormed.create`) and by the removal of a path
  (`WellFormed.remove`).

## A tree that nobody builds

There is no tree in the instances.  There are sets of paths, and a path is what its
name says: its parent is computed from it.  So a tree means that the two agree,
which is the main part of `WellFormed`: a directory lists only paths whose names say
that they are in it, and a path that exists is listed in the directory that its name
says.

`Below` follows what is listed and not the names.  That is how a removal finds what
it deletes, and in a namespace that is not well formed the two need not have much to
do with each other.  The statements about removals are therefore made about `Below`,
for any namespace with values of the right types, and the names come in afterwards.

## One removal, two changes

A path that is removed is taken out of its parent, and what is below it is deleted.
`Deleted` is the second half, for any set of paths.  A recursion over the children
deletes what is below the first, then what is below the second in what is left, and
so on; `Deleted.trans` and `below_iff` put them together, for what is below two
children is deleted with the first.
-/

namespace Pdwfs

open Concurrency Redis

/-- The entries of all paths. -/
abbrev Namespace := GoString → Entry

/-- The directory `v` lists `x`.  The empty string is in each set, and is no child.
-/
def Lists (ns : Namespace) (v x : GoString) : Prop := x ∈ (ns v).members ∧ x ≠ []

/-- The path `v` is reached from `p` by listing directories. -/
abbrev Below (ns : Namespace) : GoString → GoString → Prop := Relation.ReflTransGen (Lists ns)

/-- The entries of the paths `gone` are deleted, the others are kept. -/
structure Deleted (ns ns' : Namespace) (gone : GoString → Prop) : Prop where
  missing : ∀ v, gone v → ns' v = .missing
  kept : ∀ v, ¬gone v → ns' v = ns v

namespace Deleted

variable {ns ns' ns'' : Namespace} {gone gone' : GoString → Prop}

theorem refl (ns : Namespace) : Deleted ns ns fun _ => False :=
  ⟨fun _ => False.elim, fun _ _ => rfl⟩

theorem eq_or_missing (deleted : Deleted ns ns' gone) (v : GoString) :
    ns' v = ns v ∨ ns' v = .missing := by
  by_cases inside : gone v
  · exact .inr (deleted.missing v inside)
  · exact .inl (deleted.kept v inside)

/-- What is deleted has no type at all. -/
theorem typed (deleted : Deleted ns ns' gone) (typed : ∀ v, (ns v).Typed) (v : GoString) :
    (ns' v).Typed := by
  rcases deleted.eq_or_missing v with same | same
  · rw [same]
    exact typed v
  · rw [same]
    exact Entry.typed_missing

theorem lists (deleted : Deleted ns ns' gone) {v x : GoString} (listed : Lists ns' v x) :
    Lists ns v x := by
  rcases deleted.eq_or_missing v with same | same
  · rwa [Lists, same] at listed
  · simp [Lists, same] at listed

/-- One deletion after the other. -/
theorem trans (first : Deleted ns ns' gone) (second : Deleted ns' ns'' gone') :
    Deleted ns ns'' fun v => gone v ∨ gone' v where
  missing v inside := by
    by_cases later : gone' v
    · exact second.missing v later
    · rw [second.kept v later, first.missing v (inside.resolve_right later)]
  kept v outside := by
    rw [second.kept v fun later => outside (.inr later),
      first.kept v fun earlier => outside (.inl earlier)]

theorem congr (deleted : Deleted ns ns' gone) (same : ∀ v, gone v ↔ gone' v) :
    Deleted ns ns' gone' where
  missing v inside := deleted.missing v ((same v).mpr inside)
  kept v outside := deleted.kept v fun inside => outside ((same v).mp inside)

/-- **Deleting what is below one path** leaves what is below another, apart from what
is below both. -/
theorem below_iff {p q v : GoString} (deleted : Deleted ns ns' (Below ns p)) :
    Below ns p v ∨ Below ns' q v ↔ Below ns p v ∨ Below ns q v := by
  constructor
  · exact Or.imp_right (Relation.ReflTransGen.mono (fun _ _ => deleted.lists) _ _)
  · rintro (first | below)
    · exact .inl first
    · induction below with
      | refl => exact .inr .refl
      | tail before listed ih =>
          rename_i u x
          rcases ih with first | second
          · exact .inl (first.tail listed)
          · by_cases first : Below ns p u
            · exact .inl (first.tail listed)
            · refine .inr (second.tail ?_)
              rwa [Lists, deleted.kept u first]

end Deleted

/-! ## Removal -/

section Removal

variable {s : DataStore}

/-- Removing inodes one after the other deletes what is below any of them, if removing
one inode deletes what is below it. -/
theorem deleted_of_exec_forM {remove : Inode → Prog Unit}
    (each : ∀ (i : Inode) (c c' : Cluster), (∀ v, (s.entry c v).Typed) → i.isDir? = none →
      Exec (remove i) c c' (some ()) →
      Deleted (s.entry c) (s.entry c') (Below (s.entry c) i.path))
    {inodes : List Inode} {c c' : Cluster} (typed : ∀ v, (s.entry c v).Typed)
    (fresh : ∀ i ∈ inodes, i.isDir? = none)
    (performed : Exec (inodes.forM remove) c c' (some ())) :
    Deleted (s.entry c) (s.entry c') fun v => ∃ i ∈ inodes, Below (s.entry c) i.path v := by
  induction inodes generalizing c with
  | nil =>
      obtain ⟨rfl, -⟩ := Program.exec_ret_iff.mp performed
      exact (Deleted.refl _).congr fun v => by simp
  | cons i rest ih =>
      change Exec (remove i >>= fun _ => rest.forM remove) c c' (some ()) at performed
      obtain ⟨_, middle, first, others⟩ := Program.exec_bind_some_iff.mp performed
      have one := each i c middle typed (fresh i (by simp)) first
      have more := ih (one.typed typed) (fun i' member => fresh i' (by simp [member])) others
      refine (one.trans more).congr fun v => ?_
      simp only [List.mem_cons, exists_eq_or_imp]
      constructor
      · rintro (first | ⟨i', member, below⟩)
        · exact .inl first
        · exact (one.below_iff.mp (.inr below)).imp_right fun below => ⟨i', member, below⟩
      · rintro (first | ⟨i', member, below⟩)
        · exact .inl first
        · exact (one.below_iff.mpr (.inr below)).imp_right fun below => ⟨i', member, below⟩

/-- A path is above those below its children, and itself. -/
theorem below_iff_children {ns : Namespace} {p v : GoString} :
    Below ns p v ↔ v = p ∨ ∃ x ∈ (ns p).members, x ≠ [] ∧ Below ns x v := by
  rw [Below, Relation.ReflTransGen.cases_head_iff]
  constructor
  · rintro (rfl | ⟨x, listed, below⟩)
    · exact .inl rfl
    · exact .inr ⟨x, listed.1, listed.2, below⟩
  · rintro (rfl | ⟨x, member, nonempty, below⟩)
    · exact .inl rfl
    · exact .inr ⟨x, ⟨member, nonempty⟩, below⟩

/-- The metadata of one path is deleted alone. -/
theorem deleted_of_exec_delMeta {i : Inode} {c c' : Cluster}
    (performed : Exec (i.delMeta s) c c' (some ())) :
    Deleted (s.entry c) (s.entry c') (· = i.path) := by
  rw [← Program.bind_ret (Inode.delMeta s _)] at performed
  obtain ⟨rfl, -⟩ := Program.exec_ret_iff.mp (Inode.exec_delMeta_bind.mp performed)
  rw [DataStore.entry_unlinkRequest]
  constructor
  · rintro v rfl
    exact Function.update_self _ _ _
  · exact fun v other => Function.update_of_ne other _ _

/-- **A removal that is completed** has deleted the entries of the paths below the
removed one, and no others.  The inode may remember whether it is a directory, if it
remembers this right. -/
theorem deleted_of_exec_remove {depth : ℕ} {i : Inode} {c c' : Cluster}
    (typed : ∀ v, (s.entry c v).Typed) (right : i.dirAt s c = (s.entry c i.path).isDir)
    (performed : Exec (i.remove s depth) c c' (some ())) :
    Deleted (s.entry c) (s.entry c') (Below (s.entry c) i.path) := by
  -- Induction on the depth of the recursion; the children are inodes of their own, about
  -- which nothing is known yet.
  induction depth generalizing i c c' with
  | zero =>
      obtain ⟨-, impossible⟩ := Program.exec_panic_iff.mp performed
      simp at impossible
  | succ depth ih =>
      rw [Inode.remove, Inode.exec_isDir_bind] at performed
      obtain ⟨_, middle, content, last⟩ := Program.exec_bind_some_iff.mp performed
      have inside : Deleted (s.entry c) (s.entry middle)
          fun v => ∃ x ∈ (s.entry c i.path).members, x ≠ [] ∧ Below (s.entry c) x v := by
        rw [Inode.removeContent, right] at content
        by_cases dir : (s.entry c i.path).isDir = true
        · rw [if_pos dir] at content
          replace content := (Inode.exec_getChildren_bind (typed _)).mp content
          rw [if_pos (by simpa [right] using dir)] at content
          split at content
          · simp at content
          · have all := deleted_of_exec_forM (fun i c c' typed unknown =>
              ih typed (by simp [Inode.dirAt, unknown])) typed
              (fun i member => Inode.isDir?_of_mem_listed member) content
            refine all.congr fun v => ?_
            simp [Inode.listed, and_assoc]
        · rw [if_neg dir] at content
          have same := DataStore.entry_of_issues (s := s) DataStore.issues_remove content
          rw [same, Entry.members_of_not_isDir (by simpa using dir)]
          exact (Deleted.refl _).congr fun v => by simp
      refine (inside.trans (deleted_of_exec_delMeta last)).congr fun v => ?_
      rw [below_iff_children, or_comm]
      rfl

end Removal

/-! ## Well-formed namespaces -/

/-- A tree of directories and files below `mount`, in which each path is listed in
its parent directory.  All keys have the type that the program expects, and a
directory has a mode. -/
structure WellFormed (mount : GoString) (ns : Namespace) : Prop where
  /-- No key holds a value of the wrong type. -/
  typed : ∀ p, (ns p).Typed
  nodup : ∀ p, (ns p).members.Nodup
  /-- The root is a directory. -/
  root : (ns mount).isDir = true
  /-- A directory exists, and its set holds the empty string. -/
  dirs : ∀ p, (ns p).isDir = true → (ns p).exists = true ∧ [] ∈ (ns p).members
  /-- What a directory lists exists and is in it. -/
  listed : ∀ d x, Lists ns d x → Filepath.dir x = d ∧ x ≠ mount ∧ (ns x).exists = true
  /-- What exists is in a directory, which lists it. -/
  parents : ∀ p, (ns p).exists = true → p ≠ mount →
    (ns (Filepath.dir p)).isDir = true ∧ Lists ns (Filepath.dir p) p
  /-- What exists has a clean name that begins like the root. -/
  inside : ∀ p, (ns p).exists = true → Filepath.IsCleanAbs p ∧ mount <+: p

/-- The namespace after the creation of `path`.  The entry of the path comes
first, which matters only for a path that is its own parent. -/
def Namespace.create (ns : Namespace) (path : GoString) (dir : Bool) (mode : FileMode) :
    Namespace := fun p =>
  if p = path then (ns path).created dir mode
  else if p = Filepath.dir path then (ns (Filepath.dir path)).withChild path
  else ns p

/-- The namespace after `path` has been taken out of its parent directory. -/
def Namespace.unlist (ns : Namespace) (path : GoString) : Namespace :=
  Function.update ns (Filepath.dir path) ((ns (Filepath.dir path)).withoutChild path)

namespace Namespace

variable {ns : Namespace} {path p : GoString} {dir : Bool} {mode : FileMode}

theorem create_self : ns.create path dir mode path = (ns path).created dir mode := if_pos rfl

theorem create_dir (other : Filepath.dir path ≠ path) :
    ns.create path dir mode (Filepath.dir path) = (ns (Filepath.dir path)).withChild path := by
  rw [create, if_neg other, if_pos rfl]

theorem create_of_ne (ne : p ≠ path) (ne' : p ≠ Filepath.dir path) :
    ns.create path dir mode p = ns p := by
  rw [create, if_neg ne, if_neg ne']

/-- A creation keeps what exists. -/
theorem exists_create (before : (ns p).exists = true) :
    (ns.create path dir mode p).exists = true := by
  unfold create
  split
  · exact Entry.exists_created
  · split
    · rename_i up
      rw [Entry.exists_withChild, ← up]
      exact before
    · exact before

theorem exists_create_of_ne (other : Filepath.dir path ≠ path) (ne : p ≠ path) :
    (ns.create path dir mode p).exists = (ns p).exists := by
  by_cases up : p = Filepath.dir path
  · rw [up, create_dir other, Entry.exists_withChild]
  · rw [create_of_ne ne up]

theorem isDir_create (other : Filepath.dir path ≠ path) (notDir : (ns path).isDir = false)
    (isDir : (ns p).isDir = true) : (ns.create path dir mode p).isDir = true := by
  by_cases up : p = Filepath.dir path
  · rw [up, create_dir other, Entry.isDir_withChild]
  · rw [create_of_ne (fun same => by rw [same, notDir] at isDir; simp at isDir) up]
    exact isDir

/-- The members of a directory after a creation in it: the new path, and the empty
string in a new directory. -/
theorem mem_create (typed : ∀ p, (ns p).Typed) (other : Filepath.dir path ≠ path) {x : GoString} :
    x ∈ (ns.create path dir mode p).members ↔ x ∈ (ns p).members ∨
      p = path ∧ dir = true ∧ x = [] ∨ p = Filepath.dir path ∧ x = path := by
  by_cases same : p = path
  · subst same
    rw [create_self, (typed p).mem_created]
    simp [Ne.symm other]
  · by_cases up : p = Filepath.dir path
    · rw [up, create_dir other, (typed _).mem_withChild]
      simp [other]
    · rw [create_of_ne same up]
      simp [same, up]

end Namespace

namespace WellFormed

variable {mount path : GoString} {ns ns' : Namespace}

/-- **At first** there is the root only. -/
theorem init (isClean : Filepath.IsCleanAbs mount) (mode : FileMode) : WellFormed mount
    (Function.update (fun _ => .missing) mount (Entry.missing.created true mode)) where
  typed p := by
    rw [Function.update_apply]
    split
    · exact Entry.typed_missing.created
    · exact Entry.typed_missing
  nodup p := by
    rw [Function.update_apply]
    split
    · exact Entry.typed_missing.nodup_created (by simp)
    · simp
  root := by simp [Entry.isDir_created]
  dirs p isDir := by
    rw [Function.update_apply] at isDir ⊢
    split at isDir
    · rw [if_pos ‹_›]
      exact ⟨Entry.exists_created, (Entry.typed_missing.mem_created).mpr (.inr ⟨rfl, rfl⟩)⟩
    · simp at isDir
  listed d x listed := by
    rw [Lists, Function.update_apply] at listed
    split at listed
    · obtain ⟨member, nonempty⟩ := listed
      rcases (Entry.typed_missing.mem_created).mp member with old | ⟨-, empty⟩
      · simp at old
      · exact absurd empty nonempty
    · simp at listed
  parents p existing notMount := by simp [notMount] at existing
  inside p existing := by
    rw [Function.update_apply] at existing
    split at existing
    · rename_i same
      rw [same]
      exact ⟨isClean, List.prefix_refl _⟩
    · simp at existing

/-- What does not exist is no directory. -/
theorem isDir_of_absent (wf : WellFormed mount ns) (absent : (ns path).exists = false) :
    (ns path).isDir = false := by
  by_contra isDir
  have present := (wf.dirs path (by simpa using isDir)).1
  rw [absent] at present
  simp at present

/-- **Creation.**  The new path is recorded in a directory.  It did not exist
before, and its name says that it is in this directory. -/
theorem create (wf : WellFormed mount ns) (isClean : Filepath.IsCleanAbs path)
    (inside : mount <+: path) (notRoot : path ≠ mount) (other : Filepath.dir path ≠ path)
    (absent : (ns path).exists = false) (parent : (ns (Filepath.dir path)).isDir = true)
    (dir : Bool) (mode : FileMode) : WellFormed mount (ns.create path dir mode) := by
  have notDir := wf.isDir_of_absent absent
  have stillDir : ∀ p, (ns p).isDir = true → (ns.create path dir mode p).isDir = true :=
    fun _ => Namespace.isDir_create other notDir
  exact {
    typed := by
      intro p
      unfold Namespace.create
      split
      · exact (wf.typed path).created
      · split
        · exact (wf.typed _).withChild
        · exact wf.typed p
    nodup := by
      intro p
      unfold Namespace.create
      split
      · exact (wf.typed path).nodup_created (wf.nodup path)
      · split
        · exact (wf.typed _).nodup_withChild (wf.nodup _)
        · exact wf.nodup p
    root := stillDir mount wf.root
    dirs := by
      intro p isDir
      -- The new path is an empty directory, or it is a file without children.
      by_cases same : p = path
      · subst same
        rw [Namespace.create_self] at isDir ⊢
        rw [Entry.isDir_created, notDir, Bool.or_false] at isDir
        exact ⟨Entry.exists_created, (wf.typed p).mem_created.mpr (.inr ⟨isDir, rfl⟩)⟩
      -- Another directory has been one before, for nothing else got a mode.
      · have old : (ns p).isDir = true := by
          by_cases up : p = Filepath.dir path
          · rw [up]
            exact parent
          · rwa [Namespace.create_of_ne same up] at isDir
        rw [Namespace.exists_create_of_ne other same, Namespace.mem_create wf.typed other]
        exact ⟨(wf.dirs p old).1, .inl (wf.dirs p old).2⟩
    listed := by
      rintro d x ⟨inMembers, some⟩
      rcases (Namespace.mem_create wf.typed other).mp inMembers with
        -- A listed path was listed before, or it is the new one in its directory.
        old | ⟨-, -, empty⟩ | ⟨rfl, rfl⟩
      · obtain ⟨up, notMount, existing⟩ := wf.listed d x ⟨old, some⟩
        exact ⟨up, notMount, Namespace.exists_create existing⟩
      · exact absurd empty some
      · refine ⟨rfl, notRoot, ?_⟩
        rw [Namespace.create_self, Entry.exists_created]
    parents := by
      intro p existing notMount
      by_cases same : p = path
      · subst same
        exact ⟨stillDir _ parent,
          (Namespace.mem_create wf.typed other).mpr (.inr (.inr ⟨rfl, rfl⟩)),
          Filepath.ne_nil_of_isCleanAbs isClean⟩
      · rw [Namespace.exists_create_of_ne other same] at existing
        obtain ⟨isDir, inMembers, some⟩ := wf.parents p existing notMount
        exact ⟨stillDir _ isDir, (Namespace.mem_create wf.typed other).mpr (.inl inMembers), some⟩
    inside := by
      intro p existing
      by_cases same : p = path
      · subst same
        exact ⟨isClean, inside⟩
      · rw [Namespace.exists_create_of_ne other same] at existing
        exact wf.inside p existing }

theorem unlist_self : ns.unlist path (Filepath.dir path) =
    (ns (Filepath.dir path)).withoutChild path := Function.update_self _ _ _

theorem unlist_of_ne {p : GoString} (other : p ≠ Filepath.dir path) : ns.unlist path p = ns p :=
  Function.update_of_ne other _ _

theorem exists_unlist (p : GoString) : (ns.unlist path p).exists = (ns p).exists := by
  by_cases up : p = Filepath.dir path
  · rw [up, unlist_self, Entry.exists_withoutChild]
  · rw [unlist_of_ne up]

/-- A path is taken out of its parent and of no other set. -/
theorem mem_unlist (wf : WellFormed mount ns) {p x : GoString} :
    x ∈ (ns.unlist path p).members ↔
      x ∈ (ns p).members ∧ ¬(p = Filepath.dir path ∧ x = path) := by
  by_cases up : p = Filepath.dir path
  · rw [up, unlist_self, (wf.typed _).mem_withoutChild]
    simp
  · rw [unlist_of_ne up]
    simp [up]

theorem lists_of_unlist (wf : WellFormed mount ns) {d x : GoString}
    (listed : Lists (ns.unlist path) d x) : Lists ns d x :=
  ⟨(wf.mem_unlist.mp listed.1).1, listed.2⟩

theorem typed_unlist (wf : WellFormed mount ns) (p : GoString) : (ns.unlist path p).Typed := by
  by_cases up : p = Filepath.dir path
  · rw [up, unlist_self]
    exact (wf.typed _).withoutChild
  · rw [unlist_of_ne up]
    exact wf.typed p

/-- A directory stays one, for the empty string stays in its set. -/
theorem isDir_unlist (wf : WellFormed mount ns) (nonempty : path ≠ []) (p : GoString) :
    (ns.unlist path p).isDir = (ns p).isDir := by
  by_cases isDir : (ns p).isDir = true
  · rw [isDir]
    refine Entry.isDir_of_mem_members (x := []) (wf.mem_unlist.mpr ⟨(wf.dirs p isDir).2, ?_⟩)
    exact fun same => nonempty same.2.symm
  · by_cases up : p = Filepath.dir path
    · rw [Bool.not_eq_true] at isDir
      rw [isDir, up, unlist_self]
      by_contra still
      have := Entry.isDir_of_isDir_withoutChild (by simpa using still)
      rw [← up, isDir] at this
      simp at this
    · rw [unlist_of_ne up]

/-- **Removal.**  The path is taken out of its parent directory, and everything
below it is deleted.  What is left is a tree, whatever was below. -/
theorem remove (wf : WellFormed mount ns) (nonempty : path ≠ []) (notRoot : path ≠ mount)
    (deleted : Deleted (ns.unlist path) ns' (Below (ns.unlist path) path)) :
    WellFormed mount ns' := by
  -- The root has no parent, so nothing leads to it from the removed path.
  have rootKept : ¬Below (ns.unlist path) path mount := by
    intro below
    rcases below.cases_tail with same | ⟨d, -, listed⟩
    · exact notRoot same.symm
    · exact (wf.listed d mount (wf.lists_of_unlist listed)).2.1 rfl
  have kept : ∀ p, (ns' p).exists = true →
      ¬Below (ns.unlist path) path p ∧ ns' p = ns.unlist path p := by
    intro p existing
    have outside : ¬Below (ns.unlist path) path p := by
      intro below
      rw [deleted.missing p below] at existing
      simp at existing
    exact ⟨outside, deleted.kept p outside⟩
  exact {
    typed := deleted.typed wf.typed_unlist
    nodup := by
      intro p
      rcases deleted.eq_or_missing p with same | same
      · rw [same]
        -- The parent has lost one child, and every other entry that is left is as it was.
        by_cases up : p = Filepath.dir path
        · rw [up, unlist_self]
          exact (wf.typed _).nodup_withoutChild (wf.nodup _)
        · rw [unlist_of_ne up]
          exact wf.nodup p
      · rw [same]
        exact List.nodup_nil
    root := by
      rw [deleted.kept mount rootKept, wf.isDir_unlist nonempty]
      exact wf.root
    dirs := by
      intro p isDir
      rcases deleted.eq_or_missing p with same | same
      · rw [same] at isDir ⊢
        rw [wf.isDir_unlist nonempty] at isDir
        obtain ⟨existing, member⟩ := wf.dirs p isDir
        rw [exists_unlist]
        exact ⟨existing, wf.mem_unlist.mpr ⟨member, fun same => nonempty same.2.symm⟩⟩
      · rw [same] at isDir
        simp at isDir
    listed := by
      intro d x listed
      obtain ⟨up, notMount, existing⟩ := wf.listed d x (wf.lists_of_unlist (deleted.lists listed))
      refine ⟨up, notMount, ?_⟩
      -- It is reached from the removed path through its parent only, which is kept.
      have outside : ¬Below (ns.unlist path) path x := by
        intro below
        rcases below.cases_tail with same | ⟨d', below', listed'⟩
        · have stays := (wf.mem_unlist.mp (deleted.lists listed).1).2
          exact stays ⟨by rw [← up, same], same⟩
        · have : d' = d := by rw [← up, (wf.listed d' x (wf.lists_of_unlist listed')).1]
          rw [Lists, deleted.missing d (this ▸ below')] at listed
          simp at listed
      rw [deleted.kept x outside, exists_unlist]
      exact existing
    parents := by
      intro p existing notMount
      obtain ⟨outside, same⟩ := kept p existing
      rw [same, exists_unlist] at existing
      obtain ⟨isDir, inMembers, some⟩ := wf.parents p existing notMount
      -- The parent is not deleted, for otherwise the path would have been.
      have stays : p ∈ (ns.unlist path (Filepath.dir p)).members := by
        refine wf.mem_unlist.mpr ⟨inMembers, fun same => outside ?_⟩
        rw [same.2]
      have parentKept : ¬Below (ns.unlist path) path (Filepath.dir p) :=
        fun below => outside (below.tail ⟨stays, some⟩)
      rw [Lists, deleted.kept _ parentKept, wf.isDir_unlist nonempty]
      exact ⟨isDir, stays, some⟩
    inside := by
      intro p existing
      rw [(kept p existing).2, exists_unlist] at existing
      exact wf.inside p existing }

end WellFormed

end Pdwfs
