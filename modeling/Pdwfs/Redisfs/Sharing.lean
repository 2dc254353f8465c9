import Pdwfs.Redisfs.Client

/-!
# Clients that share the instances

Each client has inodes of its own in memory.  The calls are taken as atomic here.

* `Shared` — the states of a run of any number of clients, with the calls that have
  returned.
* `Ordered`, `Ordered.of_run` — the invariant of the runs in which each call is `Faithful`:
  what its client has in memory about the path and the parent directory is what Redis holds,
  as far as a lookup makes use of it.
* `visible_of_run` — in such a run, a path that has been opened with `O_CREATE` is found
  and listed by every client, until it is removed or a directory above it is.

## What a client may have wrong in memory

The inodes of a client are never told what the others do.  An inode of a path that another client
has removed stays in memory, and so does what it has been asked: whether it is a directory.  The
condition on a call is therefore about the two paths that its lookup consults, and only about what
the lookup reads there: the parent directory first (its answer to `IsDir` counts, and not whether
it still exists), and the path itself only if the parent is a directory.  Everything else in memory
may be as old as it likes.

The invariant does not speak of what is in memory at all, except for the root, which each client
has in memory from the start and nobody removes.
-/

namespace Pdwfs

open Concurrency Redis

namespace RedisFS

universe u

/-! ## Runs -/

/-- A call of one of the clients, with what it has returned.  Each call has a
working directory of its own. -/
structure Event (ι : Type u) where
  client : ι
  cwd : Filepath.WorkingDir
  op : Op
  result : Result

namespace Event

variable {ι : Type u}

/-- The path that the call is about. -/
def path (e : Event ι) : GoString := e.op.path e.cwd

/-- The call has returned a handle of a file that it creates if need be. -/
def Creates (e : Event ι) : Prop :=
  ∃ name flag perm f, e.op = .openFile name flag perm ∧ hasFlag oCREATE flag ∧
    e.result = .handle f

/-- The call has removed the path `p`, or a directory above it. -/
def RemovesAbove (e : Event ι) (p : GoString) : Prop :=
  e.op.Removes ∧ e.result = .done ∧ ∃ n, Filepath.dir^[n] p = e.path

end Event

/-- The calls that have returned, what the instances hold, and what each client that
has started has in memory, in a run of clients whose calls are `allowed`.  A client
can start at any time, and it creates the root when it does. -/
inductive Shared {ι : Type u} [DecidableEq ι] (fs : RedisFS)
    (allowed : Cluster → Inodes → GoString → Prop) :
    List (Event ι) → Cluster → (ι → Option Inodes) → Prop
  | init : Shared fs allowed [] (fun _ _ => none) fun _ => none
  | start {events : List (Event ι)} {c c' : Cluster} {memory : ι → Option Inodes}
      {inodes : Inodes} (i : ι) (run : Shared fs allowed events c memory)
      (started : Exec fs.new c c' (some inodes)) :
      Shared fs allowed events c' (Function.update memory i (some inodes))
  | call {events : List (Event ι)} {c c' : Cluster} {memory : ι → Option Inodes}
      {inodes inodes' : Inodes} (e : Event ι) (run : Shared fs allowed events c memory)
      (mine : memory e.client = some inodes) (asked : allowed c inodes e.path)
      (performed : Exec (fs.call inodes e.cwd e.op) c c' (some (inodes', e.result))) :
      Shared fs allowed (events ++ [e]) c' (Function.update memory e.client (some inodes'))

variable {fs : RedisFS} {inodes inodes' : Inodes} {c c' : Cluster} {path : GoString}
  {cwd : Filepath.WorkingDir}

/-! ## What a call keeps -/

/-- A path that is reached by listing directories from `q` is below `q` by its name. -/
theorem above_of_below {mount : GoString} {ns : Namespace} (wf : WellFormed mount ns)
    {q p : GoString} (below : Below ns q p) : ∃ n, Filepath.dir^[n] p = q := by
  induction below with
  | refl => exact ⟨0, rfl⟩
  | @tail u x before listed ih =>
      obtain ⟨n, above⟩ := ih
      refine ⟨n + 1, ?_⟩
      rw [Function.iterate_succ_apply, (wf.listed u x listed).1, above]

/-- **A path stays**, unless the call removes it or a directory above it. -/
theorem Completed.exists_or {op : Op} {result : Result} (tidy : fs.Tidy c)
    (faithful : fs.Faithful c inodes path) (isClean : Filepath.IsCleanAbs path)
    (completed : fs.Completed c inodes path op c' inodes' result) {p : GoString}
    (before : (fs.dataStore.entry c p).exists = true) :
    (fs.dataStore.entry c' p).exists = true ∨
      op.Removes ∧ result = .done ∧ ∃ n, Filepath.dir^[n] p = path := by
  have changed := changed_of_completed tidy faithful isClean completed
  by_cases below : Below (Namespace.unlist (fs.dataStore.entry c) path) path p
  · cases completed with
    | looked learns opens file =>
        left
        rw [opens.entry_eq]
        exact before
    | created dir mode notRoot inside absent finds isDir learns opens file new =>
        left
        rw [opens.entry_eq, entry_createdAt tidy.typed
          (Filepath.dir_ne_self fs.cleanMount isClean inside notRoot)]
        exact Namespace.exists_create before
    | removed removes notRoot inside finds isDir present learns performed =>
        have listed := Relation.ReflTransGen.mono (fun _ _ => tidy.lists_of_unlist) _ _ below
        exact .inr ⟨removes, rfl, above_of_below tidy listed⟩
  · exact .inl (changed.exists_of before below)

/-- A path that has been opened exists, and is not the root.  If it was found in memory, it was
looked up in a directory. -/
theorem Completed.exists_of_handle {op : Op} {f : File} (faithful : fs.Faithful c inodes path)
    (root : fs.Right c inodes fs.mountPath) (tidy : fs.Tidy c) (isClean : Filepath.IsCleanAbs path)
    (completed : fs.Completed c inodes path op c' inodes' (.handle f)) :
    (fs.dataStore.entry c' path).exists = true ∧ path ≠ fs.mountPath := by
  cases completed with
  | looked learns opens file inDir =>
      have right : fs.Right c inodes path := by
        rcases inDir f rfl with isRoot | ⟨parent, finds, isDir⟩
        · rw [isRoot]
          exact root
        · exact faithful.node (by rw [← faithful.dirAt_parent finds, isDir])
      obtain ⟨node, finds, isFile⟩ := file f rfl
      obtain ⟨present, dirAt⟩ := finds.right right
      rw [opens.entry_eq]
      refine ⟨present, fun isRoot => ?_⟩
      rw [isFile, isRoot, tidy.root] at dirAt
      simp at dirAt
  | created dir mode notRoot inside absent finds isDir learns opens file new =>
      have other := Filepath.dir_ne_self fs.cleanMount isClean inside notRoot
      rw [opens.entry_eq, entry_createdAt tidy.typed other, if_pos rfl]
      exact ⟨Entry.exists_created, notRoot⟩

/-! ## The invariant -/

variable {ι : Type u} {memory : ι → Option Inodes}

/-- The namespace is well formed, and every client that has started has the root in
memory, as a directory.  Nothing else of what is in memory is part of the invariant.
-/
structure Ordered (fs : RedisFS) (c : Cluster) (memory : ι → Option Inodes) : Prop where
  tidy : fs.Tidy c
  rooted : ∀ i inodes, memory i = some inodes → fs.Rooted inodes
  root : ∀ i inodes, memory i = some inodes → fs.Right c inodes fs.mountPath

namespace Ordered

/-- A client may trust what is faithful. -/
theorem trusted (ordered : fs.Ordered c memory) {i : ι} (mine : memory i = some inodes)
    (faithful : fs.Faithful c inodes path) : fs.Trusted c inodes path where
  rooted := ordered.rooted i inodes mine
  root := by
    have right := ordered.root i inodes mine
    rw [(right _ (cached_root (ordered.rooted i inodes mine))).2]
    exact ordered.tidy.root
  faithful := faithful

variable [DecidableEq ι]

/-- A client that starts finds the root, and leaves it as it is. -/
theorem start (ordered : fs.Ordered c memory) (i : ι)
    (started : Exec fs.new c c' (some inodes)) :
    fs.Ordered c' (Function.update memory i (some inodes)) := by
  obtain ⟨rfl, same⟩ := exec_new_iff.mp started
  obtain rfl := Option.some.inj same
  have kept : fs.dataStore.entry
      (serve (fs.dataStore.initRequest fs.mountPath true 0o600) c).1 = fs.dataStore.entry c := by
    have present := ordered.tidy.dirs _ ordered.tidy.root
    rw [DataStore.entry_initRequest (ordered.tidy.typed _),
      (ordered.tidy.typed _).created_eq_self present.1 present.2, Function.update_eq_self]
  have tidy : fs.Tidy (serve (fs.dataStore.initRequest fs.mountPath true 0o600) c).1 := by
    rw [Tidy, kept]
    exact ordered.tidy
  exact {
    tidy := tidy
    rooted := by
      intro j inodes held
      by_cases mine : j = i
      · subst mine
        rw [Function.update_self] at held
        rw [← Option.some.inj held]
        exact (Coherent.rootOnly tidy).rooted
      · rw [Function.update_of_ne mine] at held
        exact ordered.rooted j inodes held
    root := by
      intro j inodes held
      by_cases mine : j = i
      · subst mine
        rw [Function.update_self] at held
        rw [← Option.some.inj held]
        exact (Coherent.rootOnly tidy).right _ (exists_root tidy)
      · rw [Function.update_of_ne mine] at held
        exact (ordered.root j inodes held).congr (exists_root tidy) (by rw [kept]) }

/-- **One call** of a client whose memory of the path is faithful. -/
theorem call {op : Op} {result : Result} (ordered : fs.Ordered c memory) {i : ι}
    (mine : memory i = some inodes) (faithful : fs.Faithful c inodes path)
    (isClean : Filepath.IsCleanAbs path)
    (completed : fs.Completed c inodes path op c' inodes' result) :
    fs.Ordered c' (Function.update memory i (some inodes')) := by
  have tidy : fs.Tidy c' := (changed_of_completed ordered.tidy faithful isClean
    completed).wellFormed ordered.tidy fs.cleanMount isClean
  exact {
    tidy := tidy
    rooted := by
      intro j inodes held
      by_cases same : j = i
      · subst same
        rw [Function.update_self] at held
        rw [← Option.some.inj held]
        exact completed.rooted (ordered.rooted _ _ mine)
      · rw [Function.update_of_ne same] at held
        exact ordered.rooted j inodes held
    root := by
      intro j inodes held
      by_cases same : j = i
      · subst same
        rw [Function.update_self] at held
        rw [← Option.some.inj held]
        exact right_of_completed ordered.tidy faithful isClean completed (exists_root tidy)
          fun _ => ordered.root _ _ mine
      · rw [Function.update_of_ne same] at held
        apply (ordered.root j inodes held).congr (exists_root tidy)
        rw [tidy.root, ordered.tidy.root] }

end Ordered

/-! ## Runs whose calls are faithful -/

variable [DecidableEq ι] {events : List (Event ι)}

/-- **The invariant of a run.**  It holds once a client has started; before that
there is nothing. -/
theorem Ordered.of_run (run : fs.Shared fs.Faithful events c memory) :
    (events = [] ∧ c = fun _ _ => none) ∧ (memory = fun _ => none) ∨ fs.Ordered c memory := by
  induction run with
  | init => exact .inl ⟨⟨rfl, rfl⟩, rfl⟩
  | @start _ _ _ _ first i run started before =>
      right
      rcases before with ⟨⟨-, rfl⟩, rfl⟩ | ordered
      · have coherent := coherent_new started
        have held : ∀ {j : ι} {inodes : Inodes},
            Function.update (fun _ => none) i (some first) j = some inodes → first = inodes := by
          intro j inodes held
          rw [Function.update_apply] at held
          split at held
          · exact Option.some.inj held
          · simp at held
        exact {
          tidy := coherent.tidy
          rooted := fun j inodes mine => held mine ▸ coherent.rooted
          root := fun j inodes mine => held mine ▸ coherent.right _ (exists_root coherent.tidy) }
      · exact ordered.start i started
  | call e run mine faithful performed before =>
      right
      rcases before with ⟨-, rfl⟩ | ordered
      · simp at mine
      · exact ordered.call mine faithful (Filepath.isCleanAbs_abs e.cwd.2 _)
          (completed_of_exec (ordered.rooted _ _ mine) ordered.tidy.typed performed)

/-- A path that has been created exists, until it is removed or a directory above it is. -/
theorem exists_of_run (run : fs.Shared fs.Faithful events c memory) {earlier later : List (Event ι)}
    {opened : Event ι} (history : events = earlier ++ opened :: later) (creates : opened.Creates)
    (kept : ∀ e ∈ later, ¬e.RemovesAbove opened.path) :
    (fs.dataStore.entry c opened.path).exists = true ∧ opened.path ≠ fs.mountPath := by
  induction run generalizing later with
  | init => simp at history
  | @start events c c' memory inodes i run started before =>
      obtain ⟨present, notRoot⟩ := before history kept
      refine ⟨?_, notRoot⟩
      rcases Ordered.of_run run with ⟨⟨rfl, -⟩, -⟩ | ordered
      · simp at history
      · obtain ⟨rfl, -⟩ := exec_new_iff.mp started
        rw [DataStore.entry_initRequest (ordered.tidy.typed _), Function.update_apply]
        split
        · exact Entry.exists_created
        · exact present
  | @call events c c' memory inodes inodes' e run mine faithful performed before =>
      rcases Ordered.of_run run with ⟨-, rfl⟩ | ordered
      · simp at mine
      have isClean := Filepath.isCleanAbs_abs e.cwd.2 e.op.name
      have completed := completed_of_exec (ordered.rooted _ _ mine) ordered.tidy.typed performed
      rcases List.eq_nil_or_concat later with rfl | ⟨rest, last, rfl⟩
      · -- The path has been opened by the last call.
        obtain ⟨-, same⟩ := List.append_inj' history rfl
        obtain rfl := List.head_eq_of_cons_eq same
        obtain ⟨name, flag, perm, f, -, -, returned⟩ := creates
        rw [returned] at completed
        exact completed.exists_of_handle faithful (ordered.root _ _ mine) ordered.tidy isClean
      · rw [List.concat_eq_append, ← List.cons_append, ← List.append_assoc] at history
        obtain ⟨split, same⟩ := List.append_inj' history rfl
        obtain rfl := List.head_eq_of_cons_eq same
        obtain ⟨present, notRoot⟩ := before split fun e' member => kept e' (by simp [member])
        refine ⟨?_, notRoot⟩
        rcases completed.exists_or ordered.tidy faithful isClean present with
          after | ⟨removes, done, above⟩
        · exact after
        · exact absurd ⟨removes, done, above⟩ (kept _ (by simp))

/-- **A created path is visible.**  In a run of any number of clients in which each
call finds nothing wrong in memory about its path, a path that has been opened with
`O_CREATE` is found by `Stat` and listed by `ReadDir` of its parent, by every
client, until it is removed or a directory above it is.  Calls are made one at a
time, so that a path which has been opened exists and is listed when the call
returns.  From there on it is enough that no call removes it: the other calls leave
the entries of the path and of the directories above it as they are, and a client
that looks it up finds it in Redis, if its memory does not say otherwise. -/
theorem visible_of_run (run : fs.Shared fs.Faithful events c memory)
    {earlier later : List (Event ι)} {opened : Event ι}
    (history : events = earlier ++ opened :: later) (creates : opened.Creates)
    (kept : ∀ e ∈ later, ¬e.RemovesAbove opened.path) {i : ι}
    (mine : memory i = some inodes) :
    (∀ (cwd : Filepath.WorkingDir) (name : GoString) (c' : Cluster) (outcome : Option Result),
      Filepath.abs cwd name = opened.path → fs.Faithful c inodes opened.path →
      Exec (fs.answer inodes cwd (.stat name)) c c' outcome →
      outcome = some (.info opened.path)) ∧
    ∀ (cwd : Filepath.WorkingDir) (name : GoString) (c' : Cluster) (outcome : Option Result),
      Filepath.abs cwd name = Filepath.dir opened.path →
      fs.Faithful c inodes (Filepath.dir opened.path) →
      Exec (fs.answer inodes cwd (.readDir name)) c c' outcome →
      ∃ paths, outcome = some (.listing paths) ∧ opened.path ∈ paths := by
  obtain ⟨present, notRoot⟩ := exists_of_run run history creates kept
  rcases Ordered.of_run run with ⟨-, rfl⟩ | ordered
  · simp at mine
  constructor
  · intro cwd name c' outcome here faithful performed
    rw [← here] at faithful present ⊢
    rw [(exec_answer_stat.mp performed).2,
      statAt_of_exists ordered.tidy (ordered.trusted mine faithful) present]
  · intro cwd name c' outcome here faithful performed
    obtain ⟨isDir, listed⟩ := ordered.tidy.parents _ present notRoot
    rw [← here] at faithful isDir listed
    obtain ⟨-, rfl⟩ :=
      (exec_answer_readDir ordered.tidy (ordered.trusted mine faithful) isDir).mp performed
    exact ⟨_, rfl, mem_children.mpr listed⟩

/-! ## Two clients on a small store -/

/-- The states of a run of calls that are served one after the other, if none of them is
aborted. -/
def sharedAfter (fs : RedisFS) (cwd : Filepath.WorkingDir) :
    List (ι × Op) → Cluster × (ι → Option Inodes) → Option (Cluster × (ι → Option Inodes))
  | [], state => some state
  | (i, op) :: rest, (c, memory) =>
      match memory i with
      | none => none
      | some inodes =>
          match run (fs.call inodes cwd op) c with
          | (c', some (inodes', _)) =>
              fs.sharedAfter cwd rest (c', Function.update memory i (some inodes'))
          | (_, none) => none

/-- What has been computed is a run. -/
theorem Shared.after (cwd : Filepath.WorkingDir) {calls : List (ι × Op)}
    {state : Cluster × (ι → Option Inodes)}
    (earlier : fs.Shared (fun _ _ _ => True) events c memory)
    (finished : fs.sharedAfter cwd calls (c, memory) = some state) :
    ∃ events', fs.Shared (fun _ _ _ => True) events' state.1 state.2 := by
  induction calls generalizing c memory events with
  | nil =>
      rw [← Option.some.inj finished]
      exact ⟨events, earlier⟩
  | cons call rest ih =>
      obtain ⟨i, op⟩ := call
      rw [sharedAfter] at finished
      split at finished
      · simp at finished
      · rename_i inodes mine
        have performed := Program.exec_run serve (fs.call inodes cwd op) c
        split at finished
        · rename_i c' inodes' result returned
          rw [show Program.run serve (fs.call inodes cwd op) c = _ from returned] at performed
          exact ih (earlier.call ⟨i, cwd, op, result⟩ mine trivial performed) finished
        · simp at finished

/-- Two clients have started. -/
def small.pair : Cluster × (Bool → Option Inodes) :=
  ((run small.new small.start.1).1, Function.update (Function.update (fun _ => none) false
    (some small.rootOnly)) true (some small.rootOnly))

theorem small.shared_pair {allowed : Cluster → Inodes → GoString → Prop} :
    small.Shared allowed [] small.pair.1 small.pair.2 :=
  .start true (.start false .init (Program.exec_run serve small.new _))
    (Program.exec_run serve small.new _)

theorem faithful_rootOnly (tidy : fs.Tidy c) (path : GoString) :
    fs.Faithful c fs.rootOnly path where
  parent i cached := (right_rootOnly tidy _ i cached).2
  node _ := right_rootOnly tidy path

set_option maxRecDepth 10000 in
theorem small.open_pair : (match run
      (small.call small.rootOnly small.home (.openFile ['/', 'f'] oCREATE 0)) small.pair.1 with
    | (_, some (_, .handle _)) => true
    | _ => false) = true := by
  decide +kernel

/-- A file that one client has created is found by the other. -/
theorem visible_afterOpen : ∃ c inodes f,
    Exec (small.call small.rootOnly small.home (.openFile ['/', 'f'] oCREATE 0)) small.pair.1 c
      (some (inodes, .handle f)) ∧
    ∀ outcome, Exec (small.answer small.rootOnly small.home (.stat ['/', 'f'])) c c outcome →
      outcome = some (.info ['/', 'f']) := by
  have opened := small.open_pair
  have performed := Program.exec_run serve
    (small.call small.rootOnly small.home (.openFile ['/', 'f'] oCREATE 0)) small.pair.1
  split at opened
  · rename_i c inodes f returned
    rw [show Program.run serve _ _ = _ from returned] at performed
    refine ⟨c, inodes, f, performed, fun outcome => ?_⟩
    have isPath : Filepath.abs small.home ['/', 'f'] = ['/', 'f'] := by decide
    have another : true ≠ false := by decide
    have held : small.pair.2 true = some small.rootOnly := rfl
    have tidy := ((Ordered.of_run small.shared_pair).resolve_left fun empty => by
      rw [empty.2] at held
      simp at held).tidy
    have run := small.shared_pair.call (⟨false, small.home, _, _⟩ : Event Bool)
      (show small.pair.2 false = some small.rootOnly from rfl) (faithful_rootOnly tidy _) performed
    have still := (Function.update_of_ne another (some inodes) small.pair.2).trans held
    have tidy' := ((Ordered.of_run run).resolve_left fun empty => by simp at empty).tidy
    have visible := visible_of_run run rfl ⟨_, _, _, f, rfl, by decide, rfl⟩ (by simp) still
    exact fun found => (visible.1 small.home ['/', 'f'] c outcome rfl (faithful_rootOnly tidy' _)
      found).trans (congrArg (fun p => some (Result.info p)) isPath)
  · simp at opened

/-- The second client has seen a file, which the first one has removed then. -/
def small.reopened : Option (Cluster × (Bool → Option Inodes)) :=
  small.sharedAfter small.home [(false, .mkdir ['/', 'd'] 0),
    (false, .openFile ['/', 'd', '/', 'f'] oCREATE 0), (true, .stat ['/', 'd', '/', 'f']),
    (false, .remove ['/', 'd', '/', 'f'])] small.pair

set_option maxRecDepth 10000 in
/-- The second client opens the file, which the first one does not find. -/
theorem small.open_reopened : small.reopened.any (fun (c, memory) =>
    match memory false, memory true with
    | some first, some second =>
        match run (small.call second small.home (.openFile ['/', 'd', '/', 'f'] oCREATE 0)) c with
        | (c', some (_, .handle _)) =>
            (small.statAt c' first small.home ['/', 'd', '/', 'f']).isError
        | _ => false
    | _, _ => false) := by
  decide +kernel

/-- A client that has the inode of a removed file in memory opens it with `O_CREATE` and
creates nothing: the file is not found by another client. -/
theorem not_visible_reopened : ∃ (events : List (Event Bool)) (opened : Event Bool)
    (c : Cluster) (memory : Bool → Option Inodes) (inodes : Inodes) (err : FsError),
    small.Shared (fun _ _ _ => True) (events ++ [opened]) c memory ∧ opened.Creates ∧
    opened.path = ['/', 'd', '/', 'f'] ∧ memory false = some inodes ∧
    Exec (small.answer inodes small.home (.stat ['/', 'd', '/', 'f'])) c c
      (some (.error err)) := by
  obtain ⟨⟨c, memory⟩, reached, opened⟩ := (Option.any_eq_true _ _).mp small.open_reopened
  obtain ⟨events, run⟩ := Shared.after small.home small.shared_pair reached
  simp only at opened
  split at opened
  · rename_i first second held mine
    split at opened
    · rename_i c' inodes' f returned
      have performed := Program.exec_run serve
        (small.call second small.home (.openFile ['/', 'd', '/', 'f'] oCREATE 0)) c
      rw [show Program.run serve _ _ = _ from returned] at performed
      have isPath : Filepath.abs small.home ['/', 'd', '/', 'f'] = ['/', 'd', '/', 'f'] := by
        decide
      have another : false ≠ true := by decide
      cases missing : small.statAt c' first small.home ['/', 'd', '/', 'f'] with
      | error err =>
          refine ⟨events, _, c', _, first, err, run.call ⟨true, small.home, _, _⟩ mine trivial
            performed, ⟨_, _, _, f, rfl, by decide, rfl⟩, isPath, ?_, ?_⟩
          · exact (Function.update_of_ne another _ _).trans held
          · rw [← missing]
            exact exec_answer_stat.mpr ⟨rfl, rfl⟩
      | _ =>
          rw [missing] at opened
          simp [Result.isError] at opened
    · simp at opened
  · simp at opened

end RedisFS

end Pdwfs
