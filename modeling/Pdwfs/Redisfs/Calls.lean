import Pdwfs.Redisfs.Namespace

/-!
# What a call does

The operations of a client, run on a store that nobody else uses meanwhile.

* `lookup`, `fileInfoAt` — what `getInode` and `fileInfo` answer, as functions of
  the inodes in memory and of the store.
* `Learns` — what lookups do to the inodes in memory.
* `Right` — what is in memory about a path is what Redis holds.
* `Completed`, `completed_of_exec` — everything that a call can have done when it
  returns: it has looked, it has created its path, or it has removed it.

## One description for all operations

There are six operations, each with several ways to fail, and every statement about
runs would have to go through all of them.  `Completed` says once what they have in
common: whatever the operation, it has done one of three things, and in each of the
three cases it is known which lookups have led to it.  All invariants of runs are
proved from `Completed` by three cases, and no operation is unfolded after this
module.

The lookups are recorded as they were answered, from memory or from Redis.  So
`Completed` assumes nothing about what is in memory.  It may be wrong, and then a
call does what it does on account of it: it opens a file that is not there, or finds
a directory where there is none.

## Learning

A lookup may add an inode to the memory, and asking an inode whether it is a
directory may add the answer.  `Learns` is the relation between the memory before
and after any number of these.  It is all that one needs to know: nothing is
forgotten, nothing is added that Redis does not say, and a later lookup finds the
same inode (`Finds`).
-/

namespace Pdwfs

open Concurrency Redis

namespace RedisFS

variable {fs : RedisFS} {inodes inodes' inodes'' : Inodes} {c c' : Cluster} {path : GoString}
  {α : Type} {outcome : Option α}

/-! ## Lookups -/

/-- What `getInode` finds. -/
def lookup (fs : RedisFS) (c : Cluster) (inodes : Inodes) (path : GoString) : Option Inode :=
  match inodes.get path with
  | some i => some i
  | none => if (fs.dataStore.entry c path).exists then some { path := path } else none

/-- The inodes in memory after that. -/
def loaded (fs : RedisFS) (c : Cluster) (inodes : Inodes) (path : GoString) : Inodes :=
  match fs.lookup c inodes path with
  | some i => inodes.set i
  | none => inodes

/-- What is found has the path that was looked for. -/
theorem path_of_lookup {i : Inode} (found : fs.lookup c inodes path = some i) :
    i.path = path := by
  rw [lookup] at found
  split at found
  · rename_i cached
    rw [← Option.some.inj found]
    exact inodes.path_eq cached
  · split at found
    · rw [← Option.some.inj found]
    · simp at found

theorem lookup_of_cached {i : Inode} (cached : inodes.get path = some i) :
    fs.lookup c inodes path = some i := by
  rw [lookup, cached]

theorem lookup_eq_none : fs.lookup c inodes path = none ↔
    inodes.get path = none ∧ (fs.dataStore.entry c path).exists = false := by
  unfold lookup
  cases cached : inodes.get path with
  | none => cases (fs.dataStore.entry c path).exists <;> simp
  | some i => simp

/-- What `getInode` does, in front of any continuation. -/
theorem exec_getInode_bind {f : Inodes × Option Inode → Prog α} :
    Exec (fs.getInode inodes path >>= f) c c' outcome ↔
      Exec (f (fs.loaded c inodes path, fs.lookup c inodes path)) c c' outcome := by
  rw [getInode, loaded, lookup]
  cases cached : inodes.get path with
  | some i =>
      have kept : inodes.set i = inodes := by
        ext1 path'
        rw [Inodes.get_set]
        split
        · rename_i same
          rw [same, inodes.path_eq cached, cached]
        · rfl
      simp only [kept]
      rfl
  | none =>
      simp only [Program.bind_assoc]
      rw [Inode.exec_exists_bind]
      cases (fs.dataStore.entry c path).exists <;> rfl

/-- What `fileInfo` answers, and the inodes in memory after it. -/
def fileInfoAt (fs : RedisFS) (c : Cluster) (inodes : Inodes) (abspath : GoString) :
    Inodes × Except FsError (Option Inode × Option Inode) :=
  if abspath = fs.mountPath then (inodes, .ok (none, some (fs.root inodes)))
  else
    match fs.lookup c inodes (Filepath.dir abspath) with
    | none => (inodes, .error .parentDirNotExist)
    | some fiParent =>
        let fiParent' := fiParent.seen fs.dataStore c
        let inodes := inodes.set fiParent'
        if fiParent.dirAt fs.dataStore c then
          (fs.loaded c inodes abspath, .ok (some fiParent', fs.lookup c inodes abspath))
        else (inodes, .error .parentDirNotExist)

/-- What `fileInfo` does, in front of any continuation. -/
theorem exec_fileInfo_bind
    {f : Inodes × Except FsError (Option Inode × Option Inode) → Prog α} :
    Exec (fs.fileInfo inodes path >>= f) c c' outcome ↔
      Exec (f (fs.fileInfoAt c inodes path)) c c' outcome := by
  rw [fileInfo, fileInfoAt]
  by_cases root : path = fs.mountPath
  · simp only [root, ite_true]
    rfl
  · simp only [root, ite_false, Program.bind_assoc]
    rw [exec_getInode_bind, loaded]
    cases found : fs.lookup c inodes (Filepath.dir path) with
    | none => rfl
    | some fiParent =>
        simp only [Program.bind_assoc]
        rw [Inode.exec_isDir_bind]
        have twice : (inodes.set fiParent).set (fiParent.seen fs.dataStore c) =
            inodes.set (fiParent.seen fs.dataStore c) := by
          ext1 path'
          simp only [Inodes.get_set, Inode.path_seen]
          by_cases same : path' = fiParent.path <;> simp [same]
        simp only [twice]
        by_cases dir : fiParent.dirAt fs.dataStore c = true
        · simp only [dir, ite_true, Program.bind_assoc]
          rw [exec_getInode_bind]
          rfl
        · simp only [dir]
          rfl

/-! ## What lookups do to the inodes in memory -/

/-- Lookups add what they find, and what they have asked about an inode. -/
def Learns (fs : RedisFS) (c : Cluster) (inodes inodes' : Inodes) : Prop :=
  ∀ path, inodes'.get path = inodes.get path ∨
    ∃ i, fs.lookup c inodes path = some i ∧
      (inodes'.get path = some i ∨ inodes'.get path = some (i.seen fs.dataStore c))

namespace Learns

theorem refl (fs : RedisFS) (c : Cluster) (inodes : Inodes) : fs.Learns c inodes inodes :=
  fun _ => .inl rfl

/-- A lookup finds the same inode afterwards, which may have been asked. -/
theorem lookup (learns : fs.Learns c inodes inodes') (path : GoString) :
    fs.lookup c inodes path = none ∧ fs.lookup c inodes' path = none ∨
      ∃ i, fs.lookup c inodes path = some i ∧
        (fs.lookup c inodes' path = some i ∨
          fs.lookup c inodes' path = some (i.seen fs.dataStore c)) := by
  rcases learns path with same | ⟨i, found, after | after⟩
  · have equal : fs.lookup c inodes' path = fs.lookup c inodes path := by
      rw [RedisFS.lookup, same, RedisFS.lookup]
    rw [equal]
    cases fs.lookup c inodes path with
    | none => exact .inl ⟨rfl, rfl⟩
    | some i => exact .inr ⟨i, rfl, .inl rfl⟩
  · exact .inr ⟨i, found, .inl (lookup_of_cached after)⟩
  · exact .inr ⟨i, found, .inr (lookup_of_cached after)⟩

/-- What has been found is still found when more is in memory. -/
theorem exists_lookup (learns : fs.Learns c inodes inodes') {i : Inode}
    (found : fs.lookup c inodes path = some i) :
    ∃ j, fs.lookup c inodes' path = some j ∧ j.dirAt fs.dataStore c = i.dirAt fs.dataStore c := by
  rcases learns.lookup path with ⟨missing, -⟩ | ⟨i', found', after | after⟩
  · rw [missing] at found
    simp at found
  · obtain rfl := Option.some.inj (found'.symm.trans found)
    exact ⟨_, after, rfl⟩
  · obtain rfl := Option.some.inj (found'.symm.trans found)
    exact ⟨_, after, Inode.dirAt_seen⟩

/-- Lookups after lookups. -/
theorem trans (first : fs.Learns c inodes inodes') (second : fs.Learns c inodes' inodes'') :
    fs.Learns c inodes inodes'' := by
  intro path
  rcases second path with same | ⟨i', found', after⟩
  · rw [same]
    exact first path
  · rcases first.lookup path with ⟨-, none⟩ | ⟨i, found, early | early⟩
    · rw [none] at found'
      simp at found'
    · rw [early] at found'
      obtain rfl := Option.some.inj found'
      exact .inr ⟨i, found, after⟩
    · rw [early] at found'
      obtain rfl := Option.some.inj found'
      exact .inr ⟨i, found, .inr (by simpa using after)⟩

/-- A lookup of one path learns that path at most. -/
theorem loaded (fs : RedisFS) (c : Cluster) (inodes : Inodes) (path : GoString) :
    fs.Learns c inodes (fs.loaded c inodes path) := by
  intro path'
  unfold RedisFS.loaded
  cases found : fs.lookup c inodes path with
  | none => exact .inl rfl
  | some i =>
      simp only [Inodes.get_set]
      split
      · rename_i same
        rw [same, path_of_lookup found]
        exact .inr ⟨i, found, .inl rfl⟩
      · exact .inl rfl

/-- Asking an inode that has been looked up. -/
theorem seen {i : Inode} (found : fs.lookup c inodes path = some i) :
    fs.Learns c inodes (inodes.set (i.seen fs.dataStore c)) := by
  intro path'
  rw [Inodes.get_set, Inode.path_seen]
  split
  · rename_i same
    rw [same, path_of_lookup found]
    exact .inr ⟨i, found, .inr rfl⟩
  · exact .inl rfl

/-- A lookup learns the directory and the path. -/
theorem fileInfoAt (fs : RedisFS) (c : Cluster) (inodes : Inodes) (path : GoString) :
    fs.Learns c inodes (fs.fileInfoAt c inodes path).1 := by
  unfold RedisFS.fileInfoAt
  split
  · exact refl fs c inodes
  · split
    · exact refl fs c inodes
    · rename_i fiParent found
      split
      · exact (seen found).trans (loaded fs c _ path)
      · exact seen found

end Learns

/-! ## What is in memory is right -/

/-- What is in memory about a path is what Redis holds: the inode exists, and if it
has been asked whether it is a directory, the answer is still the right one.
Nothing is said if there is nothing in memory. -/
def Right (fs : RedisFS) (c : Cluster) (inodes : Inodes) (path : GoString) : Prop :=
  ∀ i, inodes.get path = some i → (fs.dataStore.entry c path).exists = true ∧
    i.dirAt fs.dataStore c = (fs.dataStore.entry c path).isDir

namespace Right

/-- What is found is right. -/
theorem of_lookup (right : fs.Right c inodes path) {i : Inode}
    (found : fs.lookup c inodes path = some i) :
    (fs.dataStore.entry c path).exists = true ∧
      i.dirAt fs.dataStore c = (fs.dataStore.entry c path).isDir := by
  rw [lookup] at found
  split at found
  · rename_i cached
    rw [← Option.some.inj found]
    exact right _ cached
  · split at found
    · rename_i present
      rw [← Option.some.inj found]
      exact ⟨present, rfl⟩
    · simp at found

/-- What is right stays right, as long as only lookups are made. -/
theorem learns (right : fs.Right c inodes path) (learns : fs.Learns c inodes inodes') :
    fs.Right c inodes' path := by
  intro i' cached
  rcases learns path with same | ⟨i, found, after | after⟩
  · rw [same] at cached
    exact right i' cached
  · rw [after] at cached
    obtain rfl := Option.some.inj cached
    exact right.of_lookup found
  · rw [after] at cached
    obtain rfl := Option.some.inj cached
    exact (right.of_lookup found).imp_right (Inode.dirAt_seen (s := fs.dataStore)).trans

end Right

/-! ## The answers of `fileInfo` -/

/-- The inode object of the root is in memory. -/
def Rooted (fs : RedisFS) (inodes : Inodes) : Prop := (inodes.get fs.mountPath).isSome

theorem Rooted.lookup (rooted : fs.Rooted inodes) :
    fs.lookup c inodes fs.mountPath = some (fs.root inodes) := by
  obtain ⟨i, cached⟩ := Option.isSome_iff_exists.mp rooted
  rw [lookup_of_cached cached, root, cached]
  rfl

/-- The root stays in memory. -/
theorem Rooted.learns (rooted : fs.Rooted inodes) (learns : fs.Learns c inodes inodes') :
    fs.Rooted inodes' := by
  rcases learns fs.mountPath with same | ⟨i, -, after | after⟩
  · rwa [Rooted, same]
  · rw [Rooted, after]
    rfl
  · rw [Rooted, after]
    rfl

/-- The inode `node` is the one that a lookup of `path` finds, which may have been
asked since. -/
def Finds (fs : RedisFS) (c : Cluster) (inodes : Inodes) (path : GoString) (node : Inode) :
    Prop :=
  ∃ i, fs.lookup c inodes path = some i ∧ (node = i ∨ node = i.seen fs.dataStore c)

namespace Finds

variable {node : Inode}

theorem path_eq (finds : fs.Finds c inodes path node) : node.path = path := by
  obtain ⟨i, found, rfl | rfl⟩ := finds
  · exact path_of_lookup found
  · rw [Inode.path_seen]
    exact path_of_lookup found

theorem dirAt_eq (finds : fs.Finds c inodes path node) :
    ∃ i, fs.lookup c inodes path = some i ∧
      node.dirAt fs.dataStore c = i.dirAt fs.dataStore c := by
  obtain ⟨i, found, rfl | rfl⟩ := finds
  · exact ⟨_, found, rfl⟩
  · exact ⟨i, found, rfl⟩

theorem seen (finds : fs.Finds c inodes path node) :
    fs.Finds c inodes path (node.seen fs.dataStore c) := by
  obtain ⟨i, found, rfl | rfl⟩ := finds
  · exact ⟨_, found, .inr rfl⟩
  · exact ⟨i, found, .inr rfl⟩

/-- What is found with more in memory would have been found without it. -/
theorem of_learns (learns : fs.Learns c inodes inodes')
    (finds : fs.Finds c inodes' path node) : fs.Finds c inodes path node := by
  obtain ⟨i', found', same⟩ := finds
  rcases learns.lookup path with ⟨-, none⟩ | ⟨i, found, early | early⟩
  · rw [none] at found'
    simp at found'
  · rw [early] at found'
    obtain rfl := Option.some.inj found'
    exact ⟨i, found, same⟩
  · rw [early] at found'
    obtain rfl := Option.some.inj found'
    exact ⟨i, found, .inr (by simpa using same)⟩

theorem right (finds : fs.Finds c inodes path node) (right : fs.Right c inodes path) :
    (fs.dataStore.entry c path).exists = true ∧
      node.dirAt fs.dataStore c = (fs.dataStore.entry c path).isDir := by
  obtain ⟨i, found, same⟩ := finds.dirAt_eq
  rw [same]
  exact right.of_lookup found

end Finds

/-- What is not found with more in memory is not found with less. -/
theorem lookup_eq_none_of_learns (learns : fs.Learns c inodes inodes')
    (missing : fs.lookup c inodes' path = none) : fs.lookup c inodes path = none := by
  rcases learns.lookup path with ⟨early, -⟩ | ⟨i, -, found | found⟩
  · exact early
  · rw [missing] at found
    simp at found
  · rw [missing] at found
    simp at found

/-- What `fileInfo` can answer, and what is in memory afterwards.  The four cases
are those that the operations distinguish. -/
inductive Info (fs : RedisFS) (c : Cluster) (inodes : Inodes) (path : GoString) :
    Inodes × Except FsError (Option Inode × Option Inode) → Prop
  | root (isRoot : path = fs.mountPath) :
      Info fs c inodes path (inodes, .ok (none, some (fs.root inodes)))
  | noParent {inodes' : Inodes} (notRoot : path ≠ fs.mountPath)
      (learns : fs.Learns c inodes inodes')
      (noParent : ∀ parent, fs.Finds c inodes (Filepath.dir path) parent →
        parent.dirAt fs.dataStore c = false) :
      Info fs c inodes path (inodes', .error .parentDirNotExist)
  | absent {inodes' : Inodes} {parent : Inode} (notRoot : path ≠ fs.mountPath)
      (learns : fs.Learns c inodes inodes')
      (finds : fs.Finds c inodes (Filepath.dir path) parent)
      (isDir : parent.dirAt fs.dataStore c = true)
      (absent : fs.lookup c inodes path = none) :
      Info fs c inodes path (inodes', .ok (some parent, none))
  | present {inodes' : Inodes} {parent node : Inode} (notRoot : path ≠ fs.mountPath)
      (learns : fs.Learns c inodes inodes')
      (finds : fs.Finds c inodes (Filepath.dir path) parent)
      (isDir : parent.dirAt fs.dataStore c = true)
      (present : fs.Finds c inodes path node) (cached : inodes'.get path = some node) :
      Info fs c inodes path (inodes', .ok (some parent, some node))

/-- **The answer of `fileInfo`** is one of the four. -/
theorem info_fileInfoAt (fs : RedisFS) (c : Cluster) (inodes : Inodes) (path : GoString) :
    fs.Info c inodes path (fs.fileInfoAt c inodes path) := by
  by_cases isRoot : path = fs.mountPath
  · rw [fileInfoAt, if_pos isRoot]
    exact .root isRoot
  · have learns := Learns.fileInfoAt fs c inodes path
    rw [fileInfoAt, if_neg isRoot] at learns ⊢
    cases found : fs.lookup c inodes (Filepath.dir path) with
    | none =>
        simp only [found] at learns ⊢
        refine .noParent isRoot learns fun parent finds => ?_
        obtain ⟨i, found', -⟩ := finds
        rw [found] at found'
        simp at found'
    | some parent =>
        simp only [found] at learns ⊢
        by_cases dir : parent.dirAt fs.dataStore c = true
        · rw [if_pos dir] at learns ⊢
          have asked := Learns.seen found
          cases node : fs.lookup c (inodes.set (parent.seen fs.dataStore c)) path with
          | none =>
              exact .absent isRoot learns ⟨parent, found, .inr rfl⟩ dir
                (lookup_eq_none_of_learns asked node)
          | some node' =>
              refine .present isRoot learns ⟨parent, found, .inr rfl⟩ dir
                (Finds.of_learns asked ⟨node', node, .inl rfl⟩) ?_
              rw [loaded, node, ← path_of_lookup node]
              exact Inodes.get_set_self _ _
        · rw [if_neg dir] at learns ⊢
          refine .noParent isRoot learns fun parent' finds => ?_
          obtain ⟨i, found', same⟩ := finds.dirAt_eq
          rw [found] at found'
          obtain rfl := Option.some.inj found'
          rw [same]
          simpa using dir

/-! ## Creation -/

/-- The store after the creation of an inode. -/
def createdAt (fs : RedisFS) (c : Cluster) (path : GoString) (dir : Bool) (mode : FileMode) :
    Cluster :=
  (serve (fs.dataStore.addRequest (Filepath.dir path) path)
    (serve (fs.dataStore.initRequest path dir mode) c).1).1

/-- A creation leaves no value of the wrong type. -/
theorem typed_initRequest (typed : ∀ p, (fs.dataStore.entry c p).Typed) (dir : Bool)
    (mode : FileMode) (p : GoString) :
    (fs.dataStore.entry (serve (fs.dataStore.initRequest path dir mode) c).1 p).Typed := by
  rw [DataStore.entry_initRequest (typed path)]
  by_cases same : p = path
  · subst same
    rw [Function.update_self]
    exact (typed p).created
  · rw [Function.update_of_ne same]
    exact typed p

/-- Creating an inode is two requests, and the inode is in memory afterwards. -/
theorem exec_createInode_bind (typed : ∀ p, (fs.dataStore.entry c p).Typed) {dir : Bool}
    {mode : FileMode} {parent : Inode} (isParent : parent.path = Filepath.dir path)
    {f : Inodes × Inode → Prog α} :
    Exec (fs.createInode inodes path dir mode (some parent) >>= f) c c' outcome ↔
      Exec (f (inodes.set { path := path }, { path := path }))
        (fs.createdAt c path dir mode) c' outcome := by
  simp only [createInode, Program.bind_assoc]
  rw [Inode.exec_initMeta_bind, Inode.exec_setChild_bind (typed_initRequest typed dir mode _),
    isParent]
  rfl

/-- The entries after the creation of an inode. -/
theorem entry_createdAt (typed : ∀ p, (fs.dataStore.entry c p).Typed) {dir : Bool}
    {mode : FileMode} (other : Filepath.dir path ≠ path) (p : GoString) :
    fs.dataStore.entry (fs.createdAt c path dir mode) p =
      if p = path then (fs.dataStore.entry c path).created dir mode
      else if p = Filepath.dir path then
        (fs.dataStore.entry c (Filepath.dir path)).withChild path
      else fs.dataStore.entry c p := by
  rw [createdAt, DataStore.entry_addRequest (typed_initRequest typed dir mode _),
    DataStore.entry_initRequest (typed path), Function.update_of_ne other]
  simp only [Function.update_apply]
  by_cases self : p = path
  · subst self
    rw [if_neg (Ne.symm other), if_pos rfl, if_pos rfl]
  · by_cases parent : p = Filepath.dir path
    · rw [if_pos parent, if_neg self, if_pos parent]
    · rw [if_neg parent, if_neg self, if_neg self, if_neg parent]

/-! ## Calls that return -/

/-- If the call returns a handle, it has opened the file of `path` on the store `c`, and
otherwise it has left that store as it was. -/
inductive Opens (s : DataStore) (path : GoString) (c : Cluster) : Cluster → Result → Prop
  | not {result : Result} (noHandle : ∀ f, result ≠ .handle f) : Opens s path c c result
  | file {c' : Cluster} {f : File} (flag : Flags)
      (opened : Exec (s.openFile path flag) c c' (some f)) : Opens s path c c' (.handle f)

/-- Everything that a call about `path` can have done when it returns.

`file` and `inDir` say how a handle has come about: the path was found, and it was
taken for a file; and it was looked up in a directory, unless it is the mount. -/
inductive Completed (fs : RedisFS) (c : Cluster) (inodes : Inodes) (path : GoString) (op : Op) :
    Cluster → Inodes → Result → Prop
  /-- It has created nothing and removed nothing. -/
  | looked {c' : Cluster} {inodes' : Inodes} {result : Result}
      (learns : fs.Learns c inodes inodes') (opens : Opens fs.dataStore path c c' result)
      (file : ∀ f, result = .handle f → ∃ node, fs.Finds c inodes path node ∧
        node.dirAt fs.dataStore c = false)
      (inDir : ∀ f, result = .handle f → path = fs.mountPath ∨ ∃ parent,
        fs.Finds c inodes (Filepath.dir path) parent ∧ parent.dirAt fs.dataStore c = true) :
      Completed fs c inodes path op c' inodes' result
  /-- It has created `path`. -/
  | created {c' : Cluster} {middle : Inodes} {parent node : Inode} {result : Result}
      (dir : Bool) (mode : FileMode) (notRoot : path ≠ fs.mountPath)
      (inside : fs.mountPath <+: path) (absent : fs.lookup c inodes path = none)
      (finds : fs.Finds c inodes (Filepath.dir path) parent)
      (isDir : parent.dirAt fs.dataStore c = true) (learns : fs.Learns c inodes middle)
      (opens : Opens fs.dataStore path (fs.createdAt c path dir mode) c' result)
      (file : ∀ f, result = .handle f →
        (fs.dataStore.entry (fs.createdAt c path dir mode) path).isDir = false)
      (new : node = { path := path } ∨
        node = Inode.seen fs.dataStore (fs.createdAt c path dir mode) { path := path }) :
      Completed fs c inodes path op c' (middle.set node) result
  /-- It has removed `path`. -/
  | removed {c' : Cluster} {middle : Inodes} {parent node : Inode}
      (removes : op.Removes) (notRoot : path ≠ fs.mountPath) (inside : fs.mountPath <+: path)
      (finds : fs.Finds c inodes (Filepath.dir path) parent)
      (isDir : parent.dirAt fs.dataStore c = true) (present : fs.Finds c inodes path node)
      (learns : fs.Learns c inodes middle)
      (performed : Exec (node.remove fs.dataStore fs.maxDepth)
        (serve (fs.dataStore.remRequest (Filepath.dir path) path) c).1 c' (some ())) :
      Completed fs c inodes path op c' (middle.erase path) .done

theorem validatePath_eq_none {cwd : Filepath.WorkingDir} {name : GoString}
    (valid : fs.validatePath cwd name = none) : fs.mountPath <+: Filepath.abs cwd name := by
  by_contra outside
  simp [validatePath, outside] at valid

@[simp] theorem path_root : (fs.root inodes).path = fs.mountPath := by
  unfold root
  cases cached : inodes.get fs.mountPath with
  | none => rfl
  | some i => exact inodes.path_eq cached

/-- An operation that returns something else than a handle after lookups. -/
theorem Completed.of_ret {β : Type} {op : Op} {toResult : β → Result} {value value' : β}
    (learns : fs.Learns c inodes inodes') (noHandle : ∀ f, toResult value ≠ .handle f)
    (performed : Exec (.ret (inodes', value)) c c' (some (inodes'', value'))) :
    fs.Completed c inodes path op c' inodes'' (toResult value') := by
  obtain ⟨rfl, same⟩ := Program.exec_ret_iff.mp performed
  obtain ⟨rfl, rfl⟩ := Prod.mk.inj (Option.some.inj same)
  exact .looked learns (.not noHandle) (fun f returned => absurd returned (noHandle f))
    fun f returned => absurd returned (noHandle f)

variable {op : Op} {cwd : Filepath.WorkingDir} {name : GoString}

/-- `Mkdir` has created the path, or it has failed. -/
theorem completed_mkdir {perm : FileMode} {err : Option FsError}
    (typed : ∀ p, (fs.dataStore.entry c p).Typed)
    (performed : Exec (fs.mkdir inodes cwd name perm) c c' (some (inodes', err))) :
    fs.Completed c inodes (Filepath.abs cwd name) op c' inodes' (.ofOption err) := by
  rw [mkdir] at performed
  cases valid : fs.validatePath cwd name with
  | some err =>
      rw [valid] at performed
      exact .of_ret (.refl fs _ _) (by nofun) performed
  | none =>
      have inside := validatePath_eq_none valid
      simp only [valid] at performed
      rw [exec_fileInfo_bind] at performed
      have info := info_fileInfoAt fs c inodes (Filepath.abs cwd name)
      generalize Filepath.abs cwd name = path at info performed inside ⊢
      generalize fs.fileInfoAt c inodes path = found at info performed
      cases info with
      | root isRoot =>
          simp only [path_root, ite_true] at performed
          exact .of_ret (.refl fs _ _) (by nofun) performed
      | noParent notRoot learns noParent => exact .of_ret learns (by nofun) performed
      | absent notRoot learns finds isDir absent =>
          simp only at performed
          rw [exec_createInode_bind typed finds.path_eq] at performed
          obtain ⟨rfl, same⟩ := Program.exec_ret_iff.mp performed
          obtain ⟨rfl, rfl⟩ := Prod.mk.inj (Option.some.inj same)
          exact .created true perm notRoot inside absent finds isDir learns (.not nofun) nofun
            (.inl rfl)
      | present notRoot learns finds isDir present cached =>
          simp only [present.path_eq, if_neg notRoot] at performed
          exact .of_ret learns (by nofun) performed

/-- `Stat` has found something, or it has failed. -/
theorem completed_stat {fi : Except FsError Inode}
    (performed : Exec (fs.stat inodes cwd name) c c' (some (inodes', fi))) :
    fs.Completed c inodes (Filepath.abs cwd name) op c' inodes'
      (.ofExcept (fun fi => .info fi.path) fi) := by
  rw [stat] at performed
  cases valid : fs.validatePath cwd name with
  | some err =>
      rw [valid] at performed
      exact .of_ret (.refl fs _ _) (by nofun) performed
  | none =>
      simp only [valid] at performed
      rw [exec_fileInfo_bind] at performed
      have info := info_fileInfoAt fs c inodes (Filepath.abs cwd name)
      generalize Filepath.abs cwd name = path at info performed ⊢
      generalize fs.fileInfoAt c inodes path = found at info performed
      cases info with
      | root isRoot => exact .of_ret (.refl fs _ _) (by nofun) performed
      | noParent notRoot learns noParent => exact .of_ret learns (by nofun) performed
      | absent notRoot learns finds isDir absent => exact .of_ret learns (by nofun) performed
      | present notRoot learns finds isDir present cached =>
          exact .of_ret learns (by nofun) performed

/-- The inode of an existing path is asked whether it is a directory. -/
theorem Learns.asked {node : Inode} (learns : fs.Learns c inodes inodes')
    (cached : inodes'.get path = some node) :
    fs.Learns c inodes (inodes'.set (node.seen fs.dataStore c)) :=
  learns.trans (.seen (lookup_of_cached cached))

theorem cached_root (rooted : fs.Rooted inodes) :
    inodes.get fs.mountPath = some (fs.root inodes) := by
  obtain ⟨i, cached⟩ := Option.isSome_iff_exists.mp rooted
  rw [root, cached]
  rfl

/-- Reading a directory does nothing but look. -/
theorem looked_readDir {fis : Except FsError (List Inode)} (rooted : fs.Rooted inodes)
    (typed : ∀ p, (fs.dataStore.entry c p).Typed)
    (performed : Exec (fs.readDir inodes cwd name) c c' (some (inodes', fis))) :
    c' = c ∧ fs.Learns c inodes inodes' := by
  have ofRet : ∀ {middle : Inodes} {value : Except FsError (List Inode)},
      fs.Learns c inodes middle → Exec (.ret (middle, value)) c c' (some (inodes', fis)) →
      c' = c ∧ fs.Learns c inodes inodes' := by
    intro middle value learns performed
    obtain ⟨rfl, same⟩ := Program.exec_ret_iff.mp performed
    obtain ⟨rfl, rfl⟩ := Prod.mk.inj (Option.some.inj same)
    exact ⟨rfl, learns⟩
  rw [readDir] at performed
  cases valid : fs.validatePath cwd name with
  | some err =>
      rw [valid] at performed
      exact ofRet (.refl fs _ _) performed
  | none =>
      simp only [valid] at performed
      rw [exec_fileInfo_bind] at performed
      have info := info_fileInfoAt fs c inodes (Filepath.abs cwd name)
      generalize Filepath.abs cwd name = path at info performed ⊢
      generalize fs.fileInfoAt c inodes path = found at info performed
      -- The inode that has been found is asked, and lists its children.
      have listed : ∀ {middle : Inodes} {fi : Inode} {parent : Option Inode},
          fs.Learns c inodes middle → middle.get fi.path = some fi →
          found = (middle, .ok (parent, some fi)) →
          c' = c ∧ fs.Learns c inodes inodes' := by
        rintro middle fi parent learns cached rfl
        simp only at performed
        rw [Inode.exec_isDir_bind] at performed
        have asked := learns.asked cached
        by_cases dir : fi.dirAt fs.dataStore c = true
        · simp only [dir, ite_true] at performed
          rw [Inode.exec_getChildren_bind (typed _)] at performed
          split at performed
          · split at performed
            · simp at performed
            · exact ofRet asked performed
          · exact ofRet asked performed
        · simp only [dir] at performed
          exact ofRet asked performed
      cases info with
      | root isRoot =>
          exact listed (.refl fs _ _) (by rw [path_root]; exact cached_root rooted) rfl
      | noParent notRoot learns noParent => exact ofRet learns performed
      | absent notRoot learns finds isDir absent => exact ofRet learns performed
      | present notRoot learns finds isDir present cached =>
          exact listed learns (by rw [present.path_eq]; exact cached) rfl

/-- `OpenFile` opens what it finds, or it creates the path and opens it then. -/
theorem completed_openFile {flag : Flags} {perm : FileMode} {f : Except FsError File}
    (rooted : fs.Rooted inodes) (typed : ∀ p, (fs.dataStore.entry c p).Typed)
    (performed : Exec (fs.openFile inodes cwd name flag perm) c c' (some (inodes', f))) :
    fs.Completed c inodes (Filepath.abs cwd name) op c' inodes' (.ofExcept .handle f) := by
  rw [openFile] at performed
  cases valid : fs.validatePath cwd name with
  | some err =>
      rw [valid] at performed
      exact .of_ret (.refl fs _ _) (by nofun) performed
  | none =>
      have inside := validatePath_eq_none valid
      simp only [valid] at performed
      rw [exec_fileInfo_bind] at performed
      have info := info_fileInfoAt fs c inodes (Filepath.abs cwd name)
      generalize Filepath.abs cwd name = path at info performed inside ⊢
      generalize fs.fileInfoAt c inodes path = found at info performed
      -- The inode exists: it is asked, and opened if it is a file.
      have existing : ∀ {middle : Inodes} {fi : Inode} {parent : Option Inode},
          fs.Learns c inodes middle → middle.get path = some fi → fs.Finds c inodes path fi →
          (path = fs.mountPath ∨ ∃ above, fs.Finds c inodes (Filepath.dir path) above ∧
            above.dirAt fs.dataStore c = true) →
          found = (middle, .ok (parent, some fi)) →
          fs.Completed c inodes path op c' inodes' (.ofExcept .handle f) := by
        rintro middle fi parent learns cached finds inDir rfl
        simp only at performed
        split at performed
        · exact .of_ret learns (by nofun) performed
        · rw [Inode.exec_isDir_bind] at performed
          have asked := learns.asked cached
          by_cases dir : fi.dirAt fs.dataStore c = true
          · simp only [dir, ite_true] at performed
            exact .of_ret asked (by nofun) performed
          · simp only [dir] at performed
            replace performed := Inode.exec_getFile_bind.mp performed
            rw [Inode.dirAt_seen, if_neg dir, Inode.path_seen, finds.path_eq] at performed
            obtain ⟨file, middle', opened, last⟩ := Program.exec_bind_some_iff.mp performed
            obtain ⟨rfl, same⟩ := Program.exec_ret_iff.mp last
            obtain ⟨rfl, rfl⟩ := Prod.mk.inj (Option.some.inj same)
            refine .looked ?_ (.file flag opened) (fun _ _ => ⟨fi, finds, by simpa using dir⟩)
              fun _ _ => inDir
            have twice : ∀ i : Inode, (middle.set i).set i = middle.set i :=
              fun _ => Inodes.set_set rfl
            simpa only [Inode.seen_seen, twice] using asked
      cases info with
      | root isRoot =>
          subst isRoot
          exact existing (.refl fs _ _) (cached_root rooted)
            ⟨_, lookup_of_cached (cached_root rooted), .inl rfl⟩ (.inl rfl) rfl
      | noParent notRoot learns noParent => exact .of_ret learns (by nofun) performed
      | present notRoot learns finds isDir present cached =>
          exact existing learns cached present (.inr ⟨_, finds, isDir⟩) rfl
      | absent notRoot learns finds isDir absent =>
          simp only at performed
          split at performed
          · rw [exec_createInode_bind typed finds.path_eq] at performed
            replace performed := Inode.exec_getFile_bind.mp performed
            have twice : ∀ (middle : Inodes) (c : Cluster),
                (middle.set { path := path }).set (Inode.seen fs.dataStore c { path := path }) =
                  middle.set (Inode.seen fs.dataStore c { path := path }) :=
              fun _ _ => Inodes.set_set rfl
            by_cases dir : Inode.dirAt fs.dataStore (fs.createdAt c path false perm)
                { path := path } = true
            · rw [if_pos dir] at performed
              obtain ⟨rfl, same⟩ := Program.exec_ret_iff.mp performed
              obtain ⟨rfl, rfl⟩ := Prod.mk.inj (Option.some.inj same)
              simp only [twice]
              exact .created false perm notRoot inside absent finds isDir learns
                (.not (by nofun)) (by nofun) (.inr rfl)
            · rw [if_neg dir] at performed
              obtain ⟨file, middle', opened, last⟩ := Program.exec_bind_some_iff.mp performed
              obtain ⟨rfl, same⟩ := Program.exec_ret_iff.mp last
              obtain ⟨rfl, rfl⟩ := Prod.mk.inj (Option.some.inj same)
              simp only [twice]
              exact .created false perm notRoot inside absent finds isDir learns
                (.file flag opened) (fun _ _ => Bool.eq_false_iff.mpr dir) (.inr rfl)
          · exact .of_ret learns (by nofun) performed

/-- `Remove` removes what it finds, whatever it is. -/
theorem completed_remove {err : Option FsError} (removes : op.Removes)
    (typed : ∀ p, (fs.dataStore.entry c p).Typed)
    (performed : Exec (fs.remove inodes cwd name) c c' (some (inodes', err))) :
    fs.Completed c inodes (Filepath.abs cwd name) op c' inodes' (.ofOption err) := by
  rw [remove] at performed
  cases valid : fs.validatePath cwd name with
  | some err =>
      rw [valid] at performed
      exact .of_ret (.refl fs _ _) (by nofun) performed
  | none =>
      have inside := validatePath_eq_none valid
      simp only [valid] at performed
      rw [exec_fileInfo_bind] at performed
      have info := info_fileInfoAt fs c inodes (Filepath.abs cwd name)
      generalize Filepath.abs cwd name = path at info performed inside ⊢
      generalize fs.fileInfoAt c inodes path = found at info performed
      cases info with
      | root isRoot =>
          obtain ⟨-, impossible⟩ := Program.exec_panic_iff.mp performed
          simp at impossible
      | noParent notRoot learns noParent => exact .of_ret learns (by nofun) performed
      | absent notRoot learns finds isDir absent => exact .of_ret learns (by nofun) performed
      | present notRoot learns finds isDir present cached =>
          simp only at performed
          rw [Inode.exec_removeChild_bind (typed _), finds.path_eq, present.path_eq,
            removeInode, Program.bind_assoc] at performed
          obtain ⟨_, middle', removed, last⟩ := Program.exec_bind_some_iff.mp performed
          obtain ⟨rfl, same⟩ := Program.exec_ret_iff.mp last
          obtain ⟨rfl, rfl⟩ := Prod.mk.inj (Option.some.inj same)
          rw [present.path_eq]
          exact .removed removes notRoot inside finds isDir present learns removed

/-- What a call has done after lookups of its own. -/
theorem Completed.after_learns {result : Result} (learns : fs.Learns c inodes inodes')
    (completed : fs.Completed c inodes' path op c' inodes'' result) :
    fs.Completed c inodes path op c' inodes'' result := by
  cases completed with
  | looked more opens file inDir =>
      refine .looked (learns.trans more) opens (fun f returned => ?_) fun f returned => ?_
      · obtain ⟨node, finds, isFile⟩ := file f returned
        exact ⟨node, .of_learns learns finds, isFile⟩
      · refine (inDir f returned).imp_right ?_
        rintro ⟨parent, finds, isDir⟩
        exact ⟨parent, .of_learns learns finds, isDir⟩
  | created dir mode notRoot inside absent finds isDir more opens file new =>
      exact .created dir mode notRoot inside (lookup_eq_none_of_learns learns absent)
        (.of_learns learns finds) isDir (learns.trans more) opens file new
  | removed removes notRoot inside finds isDir present more performed =>
      exact .removed removes notRoot inside (.of_learns learns finds) isDir
        (.of_learns learns present) (learns.trans more) performed

/-- `RmDir` removes what `Remove` removes, if there were no entries. -/
theorem completed_rmDir {err : Option FsError} (removes : op.Removes)
    (rooted : fs.Rooted inodes) (typed : ∀ p, (fs.dataStore.entry c p).Typed)
    (performed : Exec (fs.rmDir inodes cwd name) c c' (some (inodes', err))) :
    fs.Completed c inodes (Filepath.abs cwd name) op c' inodes' (.ofOption err) := by
  rw [rmDir] at performed
  cases valid : fs.validatePath cwd name with
  | some err =>
      rw [valid] at performed
      exact .of_ret (.refl fs _ _) (by nofun) performed
  | none =>
      simp only [valid] at performed
      obtain ⟨⟨inodes₁, entries⟩, middle, listed, last⟩ := Program.exec_bind_some_iff.mp performed
      obtain ⟨rfl, learns⟩ := looked_readDir rooted typed listed
      cases entries with
      | error err => exact .of_ret learns (by nofun) last
      | ok entries =>
          simp only at last
          split at last
          · exact .of_ret learns (by nofun) last
          · have completed := completed_remove removes typed last
            rw [Filepath.abs_clean] at completed
            exact completed.after_learns learns

/-- An operation whose answer is turned into a result. -/
theorem exec_result {β : Type} {program : Prog (Inodes × β)} {toResult : β → Result}
    {result : Result} (performed : Exec (program >>= fun (inodes, b) => .ret (inodes, toResult b))
      c c' (some (inodes', result))) :
    ∃ b, result = toResult b ∧ Exec program c c' (some (inodes', b)) := by
  obtain ⟨⟨i, b⟩, middle, first, last⟩ := Program.exec_bind_some_iff.mp performed
  obtain ⟨rfl, same⟩ := Program.exec_ret_iff.mp last
  obtain ⟨rfl, rfl⟩ := Prod.mk.inj (Option.some.inj same)
  exact ⟨b, rfl, first⟩

/-- **Everything that a call can have done when it returns.** -/
theorem completed_of_exec {result : Result} (rooted : fs.Rooted inodes)
    (typed : ∀ p, (fs.dataStore.entry c p).Typed)
    (performed : Exec (fs.call inodes cwd op) c c' (some (inodes', result))) :
    fs.Completed c inodes (op.path cwd) op c' inodes' result := by
  cases op with
  | mkdir name perm =>
      obtain ⟨b, rfl, inner⟩ := exec_result performed
      exact completed_mkdir typed inner
  | readDir name =>
      obtain ⟨b, rfl, inner⟩ := exec_result performed
      obtain ⟨rfl, learns⟩ := looked_readDir rooted typed inner
      have noHandle : ∀ f, Result.ofExcept (fun fis => .listing (fis.map Inode.path)) b ≠
          .handle f := by
        cases b <;> nofun
      exact .looked learns (.not noHandle) (fun f returned => absurd returned (noHandle f))
        fun f returned => absurd returned (noHandle f)
  | rmDir name =>
      obtain ⟨b, rfl, inner⟩ := exec_result performed
      exact completed_rmDir trivial rooted typed inner
  | openFile name flag perm =>
      obtain ⟨b, rfl, inner⟩ := exec_result performed
      exact completed_openFile rooted typed inner
  | remove name =>
      obtain ⟨b, rfl, inner⟩ := exec_result performed
      exact completed_remove trivial typed inner
  | stat name =>
      obtain ⟨b, rfl, inner⟩ := exec_result performed
      exact completed_stat inner

end RedisFS

end Pdwfs
