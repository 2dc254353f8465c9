import Pdwfs.Redisfs.Cache
import Pdwfs.Redisfs.Reachable

/-!
# Runs of one client

* `Changed`, `changed_of_completed` — what a call makes of the namespace, if it
  finds nothing wrong in memory.
* `Current` — the inodes that a call may find in memory have not been deleted in
  Redis.
* `Coherent`, `Coherent.completed` — the invariant of a client whose calls are
  current.
* `Run`, `Coherent.of_run` — the states of a run from an empty store.
* `Transparent`, `transparent_of_run` — in every run of one client whose calls are
  current, each call has the runs that it has when only the root is in memory.

## How a memory gets wrong

One client that is alone changes the namespace itself, and still its memory gets
wrong: a directory is removed with everything below it, and only the directory is
taken out of the memory.  The inodes below it stay there.  This does no harm as long
as there is no directory any more in which they could be looked up.  It does once
the directory is created again, and then a file is found in it that has been
removed.

So what is in memory is right about the paths that exist, which is the invariant
(`Coherent`), and nothing is said about the others.  `Current` asks of a call that
the inodes it may find are among those that exist.  It does not ask whether they are
remembered as what they are, since that follows from the invariant.
-/

namespace Pdwfs

open Concurrency Redis

namespace RedisFS

variable {fs : RedisFS} {inodes inodes' : Inodes} {c c' : Cluster} {path : GoString}
  {cwd : Filepath.WorkingDir}

/-! ## Calls that keep the namespace well formed -/

/-- What a call about `path` can have made of a namespace: nothing, one more entry,
or one entry less with everything below it. -/
inductive Changed (mount path : GoString) (ns ns' : Namespace) : Prop
  | kept (same : ns' = ns)
  | created (dir : Bool) (mode : FileMode) (notRoot : path ≠ mount) (inside : mount <+: path)
      (absent : (ns path).exists = false) (parent : (ns (Filepath.dir path)).isDir = true)
      (same : ns' = ns.create path dir mode)
  | removed (notRoot : path ≠ mount) (present : (ns path).exists = true)
      (deleted : Deleted (ns.unlist path) ns' (Below (ns.unlist path) path))

/-- Opening a file is no change of the namespace. -/
theorem Opens.entry_eq {s : DataStore} {result : Result} (opens : Opens s path c c' result) :
    s.entry c' = s.entry c := by
  cases opens with
  | not noHandle => rfl
  | file flag opened => exact DataStore.entry_of_issues DataStore.issues_openFile opened

/-- A call that trusts nothing wrong changes the namespace as it should. -/
theorem changed_of_completed {op : Op} {result : Result} (tidy : fs.Tidy c)
    (faithful : fs.Faithful c inodes path) (isClean : Filepath.IsCleanAbs path)
    (completed : fs.Completed c inodes path op c' inodes' result) :
    Changed fs.mountPath path (fs.dataStore.entry c) (fs.dataStore.entry c') := by
  cases completed with
  | looked learns opens file => exact .kept opens.entry_eq
  | created dir mode notRoot inside absent finds isDir learns opens file new =>
      have other := Filepath.dir_ne_self fs.cleanMount isClean inside notRoot
      refine .created dir mode notRoot inside (lookup_eq_none.mp absent).2 ?_ ?_
      · rw [← faithful.dirAt_parent finds]
        exact isDir
      · rw [opens.entry_eq]
        exact funext fun p => entry_createdAt tidy.typed other p
  | @removed _ _ node _ notRoot inside finds isDir present learns performed =>
      have other := Filepath.dir_ne_self fs.cleanMount isClean inside notRoot
      have unlisted : fs.dataStore.entry
          (serve (fs.dataStore.remRequest (Filepath.dir path) path) c).1 =
            Namespace.unlist (fs.dataStore.entry c) path :=
        DataStore.entry_remRequest (tidy.typed _) path
      have same : Namespace.unlist (fs.dataStore.entry c) path path = fs.dataStore.entry c path :=
        WellFormed.unlist_of_ne other.symm
      rw [faithful.dirAt_parent finds] at isDir
      have right := present.right (faithful.node isDir)
      refine .removed notRoot right.1 ?_
      have deleted := deleted_of_exec_remove (s := fs.dataStore) (i := node) ?_ ?_ performed
      · rwa [unlisted, present.path_eq] at deleted
      · intro v
        rw [unlisted]
        exact tidy.typed_unlist v
      · rw [unlisted, present.path_eq, same, ← right.2]
        apply Inode.dirAt_congr
        rw [unlisted, present.path_eq, same]

/-- A namespace stays well formed. -/
theorem Changed.wellFormed {mount : GoString} {ns ns' : Namespace} (wf : WellFormed mount ns)
    (cleanMount : Filepath.IsCleanAbs mount) (isClean : Filepath.IsCleanAbs path)
    (changed : Changed mount path ns ns') : WellFormed mount ns' := by
  cases changed with
  | kept same =>
      rw [same]
      exact wf
  | created dir mode notRoot inside absent parent same =>
      rw [same]
      exact wf.create isClean inside notRoot
        (Filepath.dir_ne_self cleanMount isClean inside notRoot) absent parent dir mode
  | removed notRoot present deleted =>
      exact wf.remove (Filepath.ne_nil_of_isCleanAbs isClean) notRoot deleted

/-- A path stays, unless it is below a path that is removed. -/
theorem Changed.exists_of {mount : GoString} {ns ns' : Namespace}
    (changed : Changed mount path ns ns') {p : GoString} (before : (ns p).exists = true)
    (outside : ¬Below (ns.unlist path) path p) : (ns' p).exists = true := by
  cases changed with
  | kept same =>
      rw [same]
      exact before
  | created dir mode notRoot inside absent parent same =>
      rw [same]
      exact Namespace.exists_create before
  | removed notRoot present deleted =>
      rw [deleted.kept p outside, WellFormed.exists_unlist]
      exact before

/-- What exists afterwards and did before is a directory if it was one. -/
theorem Changed.isDir_eq {mount : GoString} {ns ns' : Namespace} (wf : WellFormed mount ns)
    (changed : Changed mount path ns ns') (isClean : Filepath.IsCleanAbs path) {p : GoString}
    (after : (ns' p).exists = true) (notNew : ¬(p = path ∧ (ns path).exists = false)) :
    (ns p).exists = true ∧ (ns' p).isDir = (ns p).isDir := by
  cases changed with
  | kept same =>
      rw [same] at after ⊢
      exact ⟨after, rfl⟩
  | created dir mode notRoot inside absent parent same =>
      have other : p ≠ path := fun same => notNew ⟨same, absent⟩
      rw [same, Namespace.create, if_neg other] at after ⊢
      split
      · rename_i up
        rw [if_pos up, Entry.exists_withChild] at after
        rw [up, Entry.isDir_withChild, parent]
        exact ⟨after, rfl⟩
      · rename_i up
        rw [if_neg up] at after
        exact ⟨after, rfl⟩
  | removed notRoot present deleted =>
      have outside : ¬Below (ns.unlist path) path p := by
        intro below
        rw [deleted.missing p below] at after
        simp at after
      rw [deleted.kept p outside] at after ⊢
      rw [WellFormed.exists_unlist] at after
      exact ⟨after, wf.isDir_unlist (Filepath.ne_nil_of_isCleanAbs isClean) p⟩

/-! ## One client -/

/-- What is right stays right, if the entry of the path stays. -/
theorem Right.congr (right : fs.Right c inodes path)
    (existing : (fs.dataStore.entry c' path).exists = true)
    (same : (fs.dataStore.entry c' path).isDir = (fs.dataStore.entry c path).isDir) :
    fs.Right c' inodes path := by
  intro i cached
  refine ⟨existing, ?_⟩
  rw [same, ← (right i cached).2]
  apply Inode.dirAt_congr
  rw [inodes.path_eq cached, same]

theorem Right.of_get_eq (right : fs.Right c inodes path)
    (same : inodes'.get path = inodes.get path) : fs.Right c inodes' path :=
  fun i cached => right i (same ▸ cached)

/-- What is in memory about a path that exists stays right. -/
theorem right_of_completed {op : Op} {result : Result} (tidy : fs.Tidy c)
    (faithful : fs.Faithful c inodes path) (isClean : Filepath.IsCleanAbs path)
    (completed : fs.Completed c inodes path op c' inodes' result) {p : GoString}
    (after : (fs.dataStore.entry c' p).exists = true)
    (right : (fs.dataStore.entry c p).exists = true → fs.Right c inodes p) :
    fs.Right c' inodes' p := by
  have changed := changed_of_completed tidy faithful isClean completed
  have older := changed.isDir_eq tidy isClean after
  cases completed with
  | looked learns opens file =>
      rw [opens.entry_eq] at after
      exact ((right after).learns learns).congr (by rwa [opens.entry_eq]) (by rw [opens.entry_eq])
  | created dir mode notRoot inside absent finds isDir learns opens file new =>
      by_cases self : p = path
      · subst self
        intro i cached
        refine ⟨after, ?_⟩
        rcases new with rfl | rfl
        · rw [Inodes.get_set, if_pos rfl] at cached
          rw [← Option.some.inj cached]
          rfl
        · rw [Inodes.get_set, Inode.path_seen, if_pos rfl] at cached
          rw [← Option.some.inj cached, Inode.dirAt_seen, opens.entry_eq]
          rfl
      · obtain ⟨before, same⟩ := older fun new => self new.1
        apply (((right before).learns learns).congr after same).of_get_eq
        apply Inodes.get_set_of_ne
        rcases new with rfl | rfl <;> exact self
  | removed removes notRoot inside finds isDir present learns performed =>
      by_cases self : p = path
      · intro i cached
        rw [self, Inodes.get_erase, if_pos rfl] at cached
        simp at cached
      · obtain ⟨before, same⟩ := older fun new => self new.1
        apply (((right before).learns learns).congr after same).of_get_eq
        rw [Inodes.get_erase, if_neg self]

/-- The root stays in memory. -/
theorem Completed.rooted {op : Op} {result : Result} (rooted : fs.Rooted inodes)
    (completed : fs.Completed c inodes path op c' inodes' result) : fs.Rooted inodes' := by
  cases completed with
  | looked learns opens file => exact rooted.learns learns
  | created dir mode notRoot inside absent finds isDir learns opens file new =>
      rw [Rooted, Inodes.get_set]
      split
      · rfl
      · exact rooted.learns learns
  | removed removes notRoot inside finds isDir present learns performed =>
      rw [Rooted, Inodes.get_erase, if_neg (Ne.symm notRoot)]
      exact rooted.learns learns

/-- The inodes that a call about `path` may find in memory have not been deleted in Redis
meanwhile: the parent directory, if it is remembered as one, and the path itself, if there
is a directory for it. -/
structure Current (fs : RedisFS) (c : Cluster) (inodes : Inodes) (path : GoString) : Prop where
  parent : ∀ i, inodes.get (Filepath.dir path) = some i → i.isDir? = some true →
    (fs.dataStore.entry c (Filepath.dir path)).exists = true
  node : (fs.dataStore.entry c (Filepath.dir path)).isDir = true →
    ∀ i, inodes.get path = some i → (fs.dataStore.entry c path).exists = true

/-- The namespace is well formed, and what one client has in memory about the paths that
exist is right. -/
structure Coherent (fs : RedisFS) (c : Cluster) (inodes : Inodes) : Prop where
  tidy : fs.Tidy c
  rooted : fs.Rooted inodes
  right : ∀ p, (fs.dataStore.entry c p).exists = true → fs.Right c inodes p

/-- The root exists. -/
theorem exists_root (tidy : fs.Tidy c) : (fs.dataStore.entry c fs.mountPath).exists = true :=
  (tidy.dirs _ tidy.root).1

namespace Coherent

/-- What a current call may find in memory is what Redis would have answered. -/
theorem faithful (coherent : fs.Coherent c inodes) (current : fs.Current c inodes path) :
    fs.Faithful c inodes path where
  parent i cached := by
    have inDir : i.path = Filepath.dir path := inodes.path_eq cached
    by_cases present : (fs.dataStore.entry c (Filepath.dir path)).exists = true
    · exact (coherent.right _ present i cached).2
    -- The directory is gone, and it is not remembered as one.
    have gone := coherent.tidy.isDir_of_absent (Bool.eq_false_iff.mpr present)
    rw [gone, Inode.dirAt, inDir, gone]
    cases known : i.isDir? with
    | none => rfl
    | some isDir =>
        cases isDir with
        | false => rfl
        | true => exact absurd (current.parent i cached known) present
  node isDir i cached := coherent.right _ (current.node isDir i cached) i cached

/-- So it may trust it. -/
theorem trusted (coherent : fs.Coherent c inodes) (current : fs.Current c inodes path) :
    fs.Trusted c inodes path where
  rooted := coherent.rooted
  root := by
    have right := coherent.right _ (exists_root coherent.tidy)
    rw [(right _ (cached_root coherent.rooted)).2]
    exact coherent.tidy.root
  faithful := coherent.faithful current

/-- When only the root is in memory, there is nothing wrong in memory. -/
theorem rootOnly (tidy : fs.Tidy c) : fs.Coherent c fs.rootOnly where
  tidy := tidy
  rooted := by simp [Rooted, RedisFS.rootOnly, Inodes.single]
  right p present i cached := by
    simp only [RedisFS.rootOnly, Inodes.single] at cached
    split at cached
    · rename_i isRoot
      rw [← Option.some.inj cached]
      refine ⟨present, ?_⟩
      rw [isRoot]
      rfl
    · simp at cached

/-- If only the root is in memory, every call is current. -/
theorem current_rootOnly (tidy : fs.Tidy c) (path : GoString) :
    fs.Current c fs.rootOnly path where
  parent i cached known := by
    simp only [RedisFS.rootOnly, Inodes.single] at cached
    split at cached
    · rw [← Option.some.inj cached] at known
      simp at known
    · simp at cached
  node _ i cached := by
    simp only [RedisFS.rootOnly, Inodes.single] at cached
    split at cached
    · rename_i isRoot
      rw [isRoot]
      exact exists_root tidy
    · simp at cached

/-- **One call** whose inodes in memory are current keeps them coherent. -/
theorem completed {op : Op} {result : Result} (coherent : fs.Coherent c inodes)
    (current : fs.Current c inodes path) (isClean : Filepath.IsCleanAbs path)
    (completed : fs.Completed c inodes path op c' inodes' result) : fs.Coherent c' inodes' where
  tidy := (changed_of_completed coherent.tidy (coherent.faithful current) isClean
    completed).wellFormed coherent.tidy fs.cleanMount isClean
  rooted := completed.rooted coherent.rooted
  right p after := right_of_completed coherent.tidy (coherent.faithful current) isClean completed
    after (coherent.right p)

end Coherent

/-- A client that has just started has nothing wrong in memory. -/
theorem right_rootOnly (tidy : fs.Tidy c) (path : GoString) : fs.Right c fs.rootOnly path := by
  intro i cached
  have isRoot : path = fs.mountPath := by
    simp only [RedisFS.rootOnly, Inodes.single] at cached
    split at cached
    · assumption
    · simp at cached
  rw [isRoot] at cached ⊢
  exact (Coherent.rootOnly tidy).right _ (exists_root tidy) i cached

/-! ## Runs of one client -/

/-- The states that one client reaches on an empty store, with calls that are
`allowed` and return.  The condition is on the state in front of the call. -/
inductive Run (fs : RedisFS) (allowed : Cluster → Inodes → Filepath.WorkingDir → Op → Prop) :
    Cluster → Inodes → Prop
  | new {c : Cluster} {inodes : Inodes}
      (started : Exec fs.new (fun _ _ => none) c (some inodes)) : Run fs allowed c inodes
  | call {c c' : Cluster} {inodes inodes' : Inodes} {cwd : Filepath.WorkingDir} {op : Op}
      {result : Result} (run : Run fs allowed c inodes) (asked : allowed c inodes cwd op)
      (performed : Exec (fs.call inodes cwd op) c c' (some (inodes', result))) :
      Run fs allowed c' inodes'

/-- The call has the runs that it has when only the root is in memory. -/
def Transparent (fs : RedisFS) (c : Cluster) (inodes : Inodes) (cwd : Filepath.WorkingDir)
    (op : Op) : Prop :=
  ∀ c' outcome, Exec (fs.answer inodes cwd op) c c' outcome ↔
    Exec (fs.answer fs.rootOnly cwd op) c c' outcome

/-- A client that starts creates the root, if it is not there, and has it in memory.
-/
theorem exec_new_iff {outcome : Option Inodes} : Exec fs.new c c' outcome ↔
    c' = (serve (fs.dataStore.initRequest fs.mountPath true 0o600) c).1 ∧
      outcome = some fs.rootOnly := by
  unfold new
  exact Inode.exec_initMeta_bind.trans Program.exec_ret_iff

/-- A client that has just started has the root in memory, which is right. -/
theorem coherent_new (started : Exec fs.new (fun _ _ => none) c (some inodes)) :
    fs.Coherent c inodes := by
  obtain ⟨rfl, same⟩ := exec_new_iff.mp started
  obtain rfl := Option.some.inj same
  refine .rootOnly ?_
  have empty : fs.dataStore.entry (fun _ _ => none) = fun _ => .missing := rfl
  rw [Tidy, DataStore.entry_initRequest (by rw [empty]; exact Entry.typed_missing), empty]
  exact WellFormed.init fs.cleanMount _

/-- **A run of one client** whose calls are current keeps what is in memory coherent. -/
theorem Coherent.of_run
    (run : fs.Run (fun c inodes cwd op => fs.Current c inodes (op.path cwd)) c inodes) :
    fs.Coherent c inodes := by
  induction run with
  | new started => exact coherent_new started
  | @call _ _ _ _ cwd _ _ run current performed coherent =>
      exact coherent.completed current (Filepath.isCleanAbs_abs cwd.2 _)
        (completed_of_exec coherent.rooted coherent.tidy.typed performed)

/-- **The inodes in memory are not observable** in a run of one client in which no
call finds an inode in memory that has been deleted in Redis.  The invariant of the
run is `Coherent`: the namespace is well formed, and what the client remembers about
paths that exist is right.  With a call that is `Current` this makes its memory one
that it may trust, and on such a memory the call has the runs that it has with the
root alone. -/
theorem transparent_of_run
    (run : fs.Run (fun c inodes cwd op => fs.Current c inodes (op.path cwd)) c inodes)
    {op : Op} (current : fs.Current c inodes (op.path cwd)) : fs.Transparent c inodes cwd op := by
  have coherent := Coherent.of_run run
  have trusted := coherent.trusted current
  have rootOnly := (Coherent.rootOnly coherent.tidy).trusted
    (Coherent.current_rootOnly coherent.tidy (op.path cwd))
  exact fun c' outcome => exec_answer_congr coherent.tidy trusted rootOnly

/-! ## Runs on a small store -/

/-- The states of a run in which the forks of every call are served in order, if no call
is aborted. -/
def after (fs : RedisFS) (cwd : Filepath.WorkingDir) :
    List Op → Cluster × Inodes → Option (Cluster × Inodes)
  | [], state => some state
  | op :: rest, (c, inodes) =>
      match run (fs.call inodes cwd op) c with
      | (c', some (inodes', _)) => fs.after cwd rest (c', inodes')
      | (_, none) => none

/-- What is computed for one call is a run of it. -/
theorem exec_of_after {op : Op} (finished : fs.after cwd [op] (c, inodes) = some (c', inodes')) :
    ∃ result, Exec (fs.call inodes cwd op) c c' (some (inodes', result)) := by
  have performed := Program.exec_run serve (fs.call inodes cwd op) c
  rw [RedisFS.after] at finished
  split at finished
  · rename_i middle inodes₁ result returned
    obtain ⟨rfl, rfl⟩ := Prod.mk.inj (Option.some.inj finished)
    rw [show Program.run serve (fs.call inodes cwd op) c = _ from returned] at performed
    exact ⟨result, performed⟩
  · simp at finished

/-- Calls that are computed one after the other make a run. -/
theorem Run.after (cwd : Filepath.WorkingDir) {ops : List Op} {state : Cluster × Inodes}
    (earlier : fs.Run (fun _ _ _ _ => True) c inodes)
    (finished : fs.after cwd ops (c, inodes) = some state) :
    fs.Run (fun _ _ _ _ => True) state.1 state.2 := by
  induction ops generalizing c inodes with
  | nil =>
      rw [← Option.some.inj finished]
      exact earlier
  | cons op rest ih =>
      have performed := Program.exec_run serve (fs.call inodes cwd op) c
      rw [RedisFS.after] at finished
      split at finished
      · rename_i c' inodes' result returned
        rw [show Program.run serve (fs.call inodes cwd op) c = _ from returned] at performed
        exact ih (earlier.call trivial performed) finished
      · simp at finished

/-- A check that a call about `path` is current: what exists is current in any case, and so is
what is not in memory. -/
def isCurrent (fs : RedisFS) (c : Cluster) (inodes : Inodes) (path : GoString) : Bool :=
  (fs.dataStore.entry c (Filepath.dir path)).exists &&
    ((inodes.get path).isNone || (fs.dataStore.entry c path).exists)

theorem current_of_isCurrent (checked : fs.isCurrent c inodes path = true) :
    fs.Current c inodes path := by
  obtain ⟨parent, node⟩ := Bool.and_eq_true_iff.mp checked
  refine ⟨fun _ _ _ => parent, fun _ i cached => ?_⟩
  rw [cached] at node
  simpa using node

/-- The states of a run as in `after`, if every call is current when it is made. -/
def afterCurrent (fs : RedisFS) (cwd : Filepath.WorkingDir) :
    List Op → Cluster × Inodes → Option (Cluster × Inodes)
  | [], state => some state
  | op :: rest, (c, inodes) =>
      if fs.isCurrent c inodes (op.path cwd) then
        (fs.after cwd [op] (c, inodes)).bind (fs.afterCurrent cwd rest)
      else none

/-- The same, with the condition checked in front of each call. -/
theorem Run.afterCurrent (cwd : Filepath.WorkingDir) {ops : List Op} {state : Cluster × Inodes}
    (earlier : fs.Run (fun c inodes cwd op => fs.Current c inodes (op.path cwd)) c inodes)
    (finished : fs.afterCurrent cwd ops (c, inodes) = some state) :
    fs.Run (fun c inodes cwd op => fs.Current c inodes (op.path cwd)) state.1 state.2 := by
  induction ops generalizing c inodes with
  | nil =>
      rw [← Option.some.inj finished]
      exact earlier
  | cons op rest ih =>
      rw [RedisFS.afterCurrent] at finished
      split at finished
      · rename_i checked
        obtain ⟨⟨c', inodes'⟩, called, finished⟩ := Option.bind_eq_some_iff.mp finished
        obtain ⟨result, performed⟩ := exec_of_after called
        exact ih (earlier.call (current_of_isCurrent checked) performed) finished
      · simp at finished

/-- A file system on one instance, mounted at the root. -/
def small : RedisFS where
  mountPath := ['/']
  cleanMount := ⟨[], by simp, by decide⟩
  dataStore := smallStore 2
  maxDepth := 3

/-- Its root as the working directory. -/
def small.home : Filepath.WorkingDir := ⟨['/'], by decide⟩

/-- The start of a run on it. -/
def small.start : Cluster × Inodes := ((run small.new fun _ _ => none).1, small.rootOnly)

theorem small.run_start : small.Run (fun _ _ _ _ => True) small.start.1 small.start.2 :=
  .new (Program.exec_run serve small.new _)

theorem small.tidy_start : small.Tidy small.start.1 :=
  (coherent_new (Program.exec_run serve small.new _)).tidy

/-- A call of which both inodes exist is current. -/
theorem Current.of_exists (parent : (fs.dataStore.entry c (Filepath.dir path)).exists = true)
    (node : (fs.dataStore.entry c path).exists = true) : fs.Current c inodes path :=
  ⟨fun _ _ _ => parent, fun _ _ _ => node⟩

set_option maxRecDepth 10000 in
theorem small.exists_afterMkdir : (small.after small.home [.mkdir ['/', 'd'] 0] small.start).any
    (fun (c, _) => (small.dataStore.entry c ['/']).exists &&
      (small.dataStore.entry c ['/', 'd']).exists) := by
  decide +kernel

/-- A directory is created and looked up: the answer from memory is the one that
Redis gives. -/
theorem transparent_afterMkdir : ∃ c inodes,
    small.after small.home [.mkdir ['/', 'd'] 0] small.start = some (c, inodes) ∧
    small.Transparent c inodes small.home (.stat ['/', 'd']) := by
  obtain ⟨⟨c, inodes⟩, reached, present⟩ := (Option.any_eq_true _ _).mp small.exists_afterMkdir
  obtain ⟨parent, node⟩ := Bool.and_eq_true_iff.mp present
  obtain ⟨result, performed⟩ := exec_of_after reached
  have run : small.Run (fun c inodes cwd op => small.Current c inodes (op.path cwd)) c inodes :=
    .call (.new (Program.exec_run serve small.new _))
      (Coherent.current_rootOnly small.tidy_start _) performed
  exact ⟨c, inodes, reached, transparent_of_run run (.of_exists parent node)⟩

/-- A directory with a file is created and removed, and a directory is created again. -/
def small.recreated : Option (Cluster × Inodes) :=
  small.after small.home [.mkdir ['/', 'd'] 0, .openFile ['/', 'd', '/', 'f'] oCREATE 0,
    .remove ['/', 'd'], .mkdir ['/', 'd'] 0] small.start

set_option maxRecDepth 10000 in
/-- The file is found in memory, and not in Redis. -/
theorem small.statAt_recreated : small.recreated.any (fun (c, inodes) =>
    !(small.statAt c inodes small.home ['/', 'd', '/', 'f']).isError &&
      (small.statAt c small.rootOnly small.home ['/', 'd', '/', 'f']).isError) := by
  decide +kernel

/-- The inode of a file stays in memory when its directory is removed.  It is found
there once there is a directory again, although the file has been removed. -/
theorem not_transparent_recreated : ∃ c inodes, small.Run (fun _ _ _ _ => True) c inodes ∧
    ¬small.Transparent c inodes small.home (.stat ['/', 'd', '/', 'f']) := by
  obtain ⟨⟨c, inodes⟩, reached, cached⟩ := (Option.any_eq_true _ _).mp small.statAt_recreated
  obtain ⟨found, missing⟩ := Bool.and_eq_true_iff.mp cached
  refine ⟨c, inodes, Run.after small.home small.run_start reached, fun transparent => ?_⟩
  have same := (exec_answer_stat.mp ((transparent c _).mp (exec_answer_stat.mpr ⟨rfl, rfl⟩))).2
  rw [← Option.some.inj same] at missing
  rw [missing] at found
  simp at found

end RedisFS

end Pdwfs
