import Pdwfs.Redisfs.NewFiles

/-!
# Calls that fail

Each operation makes its checks before it changes anything, with one exception:
`OpenFile` creates the inode of a path before it asks whether this is a directory.

* `Fails` — an act of a client returns an error, other than the end of the file.
* `Housed` — a path that has a set of children exists, or the client has its inode
  in memory. So what `OpenFile` creates is never a directory.
* `Reliable`, `Reliable.of_steps` — this holds in every run of one client.
* `unchanged_of_fails` — an act that fails changes no key and no offset.

## The late check

`OpenFile` looks the path up, creates it if it is not there, and then asks the inode
for its file.  The inode of a directory has none, and the call fails, at a point
where it may have created something.  For failures to change nothing, the two must
not meet: what has just been created is no directory.

It would be one if a set of children were there without a mode.  With several
clients this occurs.  With one client it does not, but not because there are no such
sets: a directory that has been removed, and is still in memory, gets one when
something is created in it.  The reason is that then its inode is in memory, and the
lookup finds it.  `Housed` is this weaker statement, and it is kept by every call.

## The end of the file

A read at the end of a file moves the offset and returns an error, as Go has it.  It
is the only error that is not a refusal, and it is left out by `Fails`.
-/

namespace Pdwfs

open Concurrency Redis Striping

/-! ## Operations of a handle -/

theorem File.eq_of_ret {f f' : File} {c c' : Cluster} {result result' : FileResult}
    (performed : Exec (.ret (f, result)) c c' (some (f', result'))) : f' = f := by
  obtain ⟨-, same⟩ := Program.exec_ret_iff.mp performed
  exact (Prod.mk.inj (Option.some.inj same)).1

/-- An operation of a handle that fails changes nothing. -/
theorem File.unchanged_of_error {f f' : File} {op : FileOp} {c c' : Cluster} {result : FileResult}
    {err : FileError} (inv : f.file.store.FileInv c f.file.path)
    (performed : Exec (f.call op) c c' (some (f', result))) (failed : result.err = some err)
    (notEof : err ≠ .eof) : c' = c ∧ f' = f := by
  cases (performs_of_exec inv performed).2 with
  -- A read that fails says that the file has ended.
  | reads here same delivers =>
      rcases delivers.err_eq with none | ended
      · rw [none] at failed
        cases failed
      · rw [ended] at failed
        exact absurd (Option.some.inj failed).symm notEof
  -- A write never fails, and a truncation fails before it does anything.
  | writes here count noError noBuffers puts =>
      rw [noError] at failed
      cases failed
  | truncates here noBuffers resized =>
      subst here
      obtain ⟨old, isSize⟩ := inv.exists_isSize
      rw [failed] at resized
      obtain ⟨-, rfl, -⟩ | ⟨-, impossible, -⟩ := MemFile.exec_truncate inv isSize resized
      · obtain ⟨answer, -, same⟩ := Program.exec_bind_ret_iff.mp performed
        cases answer with
        | none => simp at same
        | some answer =>
            obtain ⟨rfl, -⟩ := Prod.mk.inj (Option.some.inj same)
            exact ⟨rfl, rfl⟩
      · cases Option.some.inj impossible
  -- The operation was not allowed for the handle, or it is a `seek` that fails.
  | idle noRead noWrite noTruncate same untouched =>
      refine ⟨same, ?_⟩
      cases op with
      | read dst =>
          have disabled : f.access = .writeOnly := by
            by_contra enabled
            simp [readsAt, enabled] at noRead
          simp only [call, disabled] at performed
          exact eq_of_ret performed
      | write data =>
          have disabled : f.access = .readOnly := by
            by_contra enabled
            simp [writesAt, enabled] at noWrite
          simp only [call, disabled] at performed
          exact eq_of_ret performed
      | seek off whence =>
          obtain ⟨size, isSize⟩ := inv.exists_isSize
          obtain ⟨answer, sought, same⟩ := Program.exec_bind_ret_iff.mp performed
          obtain ⟨-, rfl⟩ := MemFile.exec_seek inv isSize sought
          obtain ⟨rfl, rfl⟩ := Prod.mk.inj (Option.some.inj same)
          -- The handle that is returned has moved only without an error.
          split
          · rfl
          · rename_i target
            split
            · rfl
            · rename_i forward
              simp [target, forward] at failed
      | readAt | readVec | readVecAt => simp [readsAt] at noRead
      | writeAt | writeVec | writeVecAt => simp [writesAt] at noWrite
      | truncate size => exact absurd rfl (noTruncate size)

namespace RedisFS

/-- The act returns an error, other than the end of the file.  The store and what
the client holds are in front of the act on the left, and behind it on the right. -/
inductive Fails (fs : RedisFS) : ClientState → Act → ClientState → Prop
  | call {c c' : Cluster} {inodes inodes' : Inodes} {handles : List File}
      {cwd : Filepath.WorkingDir} {op : Op} {err : FsError}
      (performed : Exec (fs.call inodes cwd op) c c' (some (inodes', .error err))) :
      Fails fs ⟨c, inodes, handles⟩ (.call cwd op) ⟨c', inodes', handles⟩
  | use {c c' : Cluster} {inodes : Inodes} {handles : List File} {h : ℕ} {f f' : File}
      {op : FileOp} {result : FileResult} {err : FileError} (held : handles[h]? = some f)
      (performed : Exec (f.call op) c c' (some (f', result))) (failed : result.err = some err)
      (notEof : err ≠ .eof) : Fails fs ⟨c, inodes, handles⟩ (.use h op)
        ⟨c', inodes, handles.set h f'⟩

/-- A path with a set of children exists, or its inode is in memory. -/
def Housed (fs : RedisFS) (c : Cluster) (inodes : Inodes) : Prop :=
  ∀ p, (fs.dataStore.entry c p).isDir = true →
    inodes.get p ≠ none ∨ (fs.dataStore.entry c p).exists = true

/-- What holds of a client in every run. -/
structure Reliable (fs : RedisFS) (s : ClientState) : Prop where
  /-- The store is one that the program has left. -/
  intact : fs.Intact s.store
  /-- The root is in memory, as a directory. -/
  rooted : fs.Rooted s.inodes
  /-- The handles are for files of this filesystem. -/
  mine : ∀ f ∈ s.handles, f.file.store = fs.dataStore
  housed : fs.Housed s.store s.inodes

variable {fs : RedisFS} {c c' : Cluster} {inodes inodes' : Inodes} {path name : GoString}
  {cwd : Filepath.WorkingDir} {op : Op}

/-! ## What is created is no directory -/

namespace Housed

/-- A path that is not found has no set of children. -/
theorem isDir_of_absent (housed : fs.Housed c inodes) (absent : fs.lookup c inodes path = none) :
    (fs.dataStore.entry c path).isDir = false := by
  obtain ⟨uncached, missing⟩ := lookup_eq_none.mp absent
  by_contra isDir
  rcases housed path (by simpa using isDir) with cached | present
  · exact cached uncached
  · rw [missing] at present
    cases present

/-- A lookup only adds to what is in memory. -/
theorem learns (housed : fs.Housed c inodes) (learns : fs.Learns c inodes inodes') :
    fs.Housed c inodes' := by
  intro p isDir
  rcases learns p with same | ⟨i, -, after | after⟩
  · rw [same]
    exact housed p isDir
  · exact .inl (by simp [after])
  · exact .inl (by simp [after])

theorem congr (housed : fs.Housed c inodes)
    (same : fs.dataStore.entry c' = fs.dataStore.entry c) : fs.Housed c' inodes := by
  rw [Housed, same]
  exact housed

end Housed

/-- What only reads or deletes leaves no set of children behind.  This is for the
removals, step by step, with what is in memory unchanged. -/
theorem Erases.housed {q : Request} {p : GoString} {cached : Prop} (erases : fs.Erases q)
    (linked : fs.Linked c)
    (housed : (fs.dataStore.entry c p).isDir = true →
      cached ∨ (fs.dataStore.entry c p).exists = true) :
    (fs.dataStore.entry (serve q c).1 p).isDir = true →
      cached ∨ (fs.dataStore.entry (serve q c).1 p).exists = true := by
  cases erases with
  | read readOnly => rwa [serve_readOnly readOnly]
  | rem parent child =>
      rw [DataStore.entry_remRequest (linked.typed parent), Function.update_apply]
      split
      · rename_i same
        subst same
        intro isDir
        rw [Entry.exists_withoutChild]
        exact housed (Entry.isDir_of_isDir_withoutChild isDir)
      · exact housed
  | unlink path =>
      rw [DataStore.entry_unlinkRequest, Function.update_apply]
      split
      · nofun
      · exact housed
  | removeStripe name id =>
      rwa [DataStore.entry_dataOf (DataStore.dataOf_removeStripe _ name id)]

/-- The metadata of what is removed is deleted last. -/
theorem missing_of_exec_remove {i : Inode} {depth : ℕ}
    (performed : Exec (i.remove fs.dataStore depth) c c' (some ())) :
    fs.dataStore.entry c' i.path = .missing := by
  cases depth with
  | zero => exact absurd performed Program.not_exec_panic_some
  | succ depth =>
      rw [Inode.remove, Inode.exec_isDir_bind] at performed
      obtain ⟨_, middle, -, last⟩ := Program.exec_bind_some_iff.mp performed
      rw [← Program.bind_ret (Inode.delMeta fs.dataStore _)] at last
      obtain ⟨rfl, -⟩ := Program.exec_ret_iff.mp (Inode.exec_delMeta_bind.mp last)
      rw [Inode.path_seen, DataStore.entry_unlinkRequest, Function.update_self]

/-- **One call** keeps this.  A creation puts the inode in memory, and a removal
deletes the set of children along with the mode. -/
theorem Housed.of_completed {result : Result} (intact : fs.Intact c) (housed : fs.Housed c inodes)
    (isClean : Filepath.IsCleanAbs path)
    (completed : fs.Completed c inodes path op c' inodes' result) : fs.Housed c' inodes' := by
  cases completed with
  | looked learns opens file => exact (housed.learns learns).congr opens.entry_eq
  | @created middle parent node _ dir mode notRoot inside absent finds isDir learns opens file
      new =>
      have other := Filepath.dir_ne_self fs.cleanMount isClean inside notRoot
      have here : node.path = path := by rcases new with rfl | rfl <;> rfl
      intro p isDir'
      rw [opens.entry_eq, entry_createdAt intact.2.typed other] at isDir' ⊢
      by_cases self : p = path
      · rw [if_pos self]
        exact .inr Entry.exists_created
      · rw [if_neg self] at isDir' ⊢
        rw [Inodes.get_set_of_ne (by rw [here]; exact self)]
        by_cases up : p = Filepath.dir path
        · -- The parent has been found.
          subst up
          rw [if_pos rfl, Entry.exists_withChild]
          obtain ⟨i, found, -⟩ := finds
          have found' : fs.lookup c middle (Filepath.dir path) ≠ none := fun missing => by
            rw [lookup_eq_none_of_learns learns missing] at found
            cases found
          by_contra neither
          rw [not_or, not_not] at neither
          exact found' (lookup_eq_none.mpr ⟨neither.1, by simpa using neither.2⟩)
        · rw [if_neg up] at isDir' ⊢
          exact housed.learns learns p isDir'
  | @removed middle parent node removes notRoot inside finds isDir present learns performed =>
      have erases : fs.Erases (fs.dataStore.remRequest (Filepath.dir path) path) := .rem _ _
      intro p isDir'
      rw [Inodes.get_erase]
      by_cases self : p = path
      · rw [self, ← present.path_eq, missing_of_exec_remove performed] at isDir'
        cases isDir'
      · rw [if_neg self]
        have kept : Program.Issues (fun q => ∀ d, fs.Intact d ∧
            ((fs.dataStore.entry d p).isDir = true →
              middle.get p ≠ none ∨ (fs.dataStore.entry d p).exists = true) →
            fs.Intact (serve q d).1 ∧ ((fs.dataStore.entry (serve q d).1 p).isDir = true →
              middle.get p ≠ none ∨ (fs.dataStore.entry (serve q d).1 p).exists = true))
            (node.remove fs.dataStore fs.maxDepth) :=
          erases_remove.mono fun q erases d before =>
            ⟨erases.asks.intact before.1, erases.housed before.1.2 before.2⟩
        exact (kept.preserved ⟨erases.asks.intact intact,
          erases.housed intact.2 (housed.learns learns p)⟩ performed).2 isDir'

/-! ## Calls that fail -/

theorem store_eq_of_ret {α : Type} {value value' : α}
    (performed : Exec (.ret value) c c' (some value')) : c' = c :=
  (Program.exec_ret_iff.mp performed).1

/-- `Mkdir` fails before it creates. -/
theorem store_eq_of_mkdir {perm : FileMode} {err : FsError}
    (typed : ∀ p, (fs.dataStore.entry c p).Typed)
    (performed : Exec (fs.mkdir inodes cwd name perm) c c' (some (inodes', some err))) :
    c' = c := by
  rw [mkdir] at performed
  cases valid : fs.validatePath cwd name with
  | some err =>
      rw [valid] at performed
      exact store_eq_of_ret performed
  | none =>
      simp only [valid] at performed
      rw [exec_fileInfo_bind] at performed
      have info := info_fileInfoAt fs c inodes (Filepath.abs cwd name)
      generalize fs.fileInfoAt c inodes (Filepath.abs cwd name) = found at info performed
      cases info with
      | root isRoot =>
          simp only [path_root, ite_true] at performed
          exact store_eq_of_ret performed
      | noParent notRoot learns noParent => exact store_eq_of_ret performed
      | absent notRoot learns finds isDir absent =>
          simp only at performed
          rw [exec_createInode_bind typed finds.path_eq] at performed
          obtain ⟨-, same⟩ := Program.exec_ret_iff.mp performed
          cases (Prod.mk.inj (Option.some.inj same)).2
      | present notRoot learns finds isDir present cached =>
          simp only [present.path_eq, if_neg notRoot] at performed
          exact store_eq_of_ret performed

/-- `Stat` only reads. -/
theorem store_eq_of_stat {answer : Except FsError Inode}
    (performed : Exec (fs.stat inodes cwd name) c c' (some (inodes', answer))) : c' = c := by
  rw [stat] at performed
  cases valid : fs.validatePath cwd name with
  | some err =>
      rw [valid] at performed
      exact store_eq_of_ret performed
  | none =>
      simp only [valid] at performed
      rw [exec_fileInfo_bind] at performed
      generalize fs.fileInfoAt c inodes (Filepath.abs cwd name) = found at performed
      rcases found with ⟨i, err | ⟨parent, _ | node⟩⟩ <;> exact store_eq_of_ret performed

/-- `Remove` fails before it deletes. -/
theorem store_eq_of_remove {err : FsError} (typed : ∀ p, (fs.dataStore.entry c p).Typed)
    (performed : Exec (fs.remove inodes cwd name) c c' (some (inodes', some err))) : c' = c := by
  rw [remove] at performed
  cases valid : fs.validatePath cwd name with
  | some err =>
      rw [valid] at performed
      exact store_eq_of_ret performed
  | none =>
      simp only [valid] at performed
      rw [exec_fileInfo_bind] at performed
      have info := info_fileInfoAt fs c inodes (Filepath.abs cwd name)
      generalize fs.fileInfoAt c inodes (Filepath.abs cwd name) = found at info performed
      cases info with
      | root isRoot => exact absurd performed Program.not_exec_panic_some
      | noParent notRoot learns noParent => exact store_eq_of_ret performed
      | absent notRoot learns finds isDir absent => exact store_eq_of_ret performed
      | present notRoot learns finds isDir present cached =>
          simp only at performed
          rw [Inode.exec_removeChild_bind (typed _)] at performed
          obtain ⟨_, middle, -, last⟩ := Program.exec_bind_some_iff.mp performed
          obtain ⟨-, same⟩ := Program.exec_ret_iff.mp last
          cases (Prod.mk.inj (Option.some.inj same)).2

/-- `RmDir` fails before it deletes. -/
theorem store_eq_of_rmDir {err : FsError} (rooted : fs.Rooted inodes)
    (typed : ∀ p, (fs.dataStore.entry c p).Typed)
    (performed : Exec (fs.rmDir inodes cwd name) c c' (some (inodes', some err))) : c' = c := by
  rw [rmDir] at performed
  cases valid : fs.validatePath cwd name with
  | some err =>
      rw [valid] at performed
      exact store_eq_of_ret performed
  | none =>
      simp only [valid] at performed
      obtain ⟨⟨inodes₁, entries⟩, middle, listed, last⟩ := Program.exec_bind_some_iff.mp performed
      obtain ⟨rfl, -⟩ := looked_readDir rooted typed listed
      cases entries with
      | error err => exact store_eq_of_ret last
      | ok entries =>
          simp only at last
          split at last
          · exact store_eq_of_ret last
          · exact store_eq_of_remove typed last

/-- The only check that is made after a creation succeeds. -/
theorem store_eq_of_openFile {flag : Flags} {perm : FileMode} {err : FsError}
    (typed : ∀ p, (fs.dataStore.entry c p).Typed) (housed : fs.Housed c inodes)
    (performed : Exec (fs.openFile inodes cwd name flag perm) c c'
      (some (inodes', .error err))) : c' = c := by
  rw [openFile] at performed
  cases valid : fs.validatePath cwd name with
  | some err =>
      rw [valid] at performed
      exact store_eq_of_ret performed
  | none =>
      have inside := validatePath_eq_none valid
      have isClean := Filepath.isCleanAbs_abs cwd.2 name
      simp only [valid] at performed
      rw [exec_fileInfo_bind] at performed
      have info := info_fileInfoAt fs c inodes (Filepath.abs cwd name)
      generalize Filepath.abs cwd name = path at info performed inside isClean
      generalize fs.fileInfoAt c inodes path = found at info performed
      -- A file that is opened is returned without an error.
      have returned : ∀ {i : Inode} {d : Cluster} {middle : Inodes},
          Exec (i.getFile fs.dataStore flag >>= fun opened =>
            .ret (middle.set opened.1, opened.2)) d c' (some (inodes', .error err)) →
              i.dirAt fs.dataStore d = true := by
        intro i d middle performed
        replace performed := Inode.exec_getFile_bind.mp performed
        by_contra isFile
        rw [if_neg isFile] at performed
        obtain ⟨file, middle', -, last⟩ := Program.exec_bind_some_iff.mp performed
        obtain ⟨-, same⟩ := Program.exec_ret_iff.mp last
        cases (Prod.mk.inj (Option.some.inj same)).2
      -- What is found is opened without creating anything.
      have existing : ∀ {middle : Inodes} {fi : Inode} {parent : Option Inode},
          found = (middle, .ok (parent, some fi)) → c' = c := by
        rintro middle fi parent rfl
        simp only at performed
        split at performed
        · exact store_eq_of_ret performed
        · rw [Inode.exec_isDir_bind] at performed
          by_cases dir : fi.dirAt fs.dataStore c = true
          · simp only [dir, ite_true] at performed
            exact store_eq_of_ret performed
          · simp only [dir] at performed
            have asked := returned performed
            rw [Inode.dirAt_seen] at asked
            exact absurd asked dir
      cases info with
      | root isRoot => exact existing rfl
      | noParent notRoot learns noParent => exact store_eq_of_ret performed
      | present notRoot learns finds isDir present cached => exact existing rfl
      | absent notRoot learns finds isDir absent =>
          simp only at performed
          split at performed
          · rw [exec_createInode_bind typed finds.path_eq] at performed
            -- The new file has no children, as an absent path has none, so it is opened.
            have other := Filepath.dir_ne_self fs.cleanMount isClean inside notRoot
            have asked := returned performed
            rw [Inode.dirAt, entry_createdAt typed other, if_pos rfl, Entry.isDir_created,
              housed.isDir_of_absent absent] at asked
            cases asked
          · exact store_eq_of_ret performed

/-- **A call that fails** changes no key. -/
theorem store_eq_of_error {err : FsError} (rooted : fs.Rooted inodes)
    (typed : ∀ p, (fs.dataStore.entry c p).Typed) (housed : fs.Housed c inodes)
    (performed : Exec (fs.call inodes cwd op) c c' (some (inodes', .error err))) : c' = c := by
  cases op with
  | mkdir name perm =>
      obtain ⟨answer, same, inner⟩ := exec_result performed
      cases answer with
      | none => cases same
      | some err => exact store_eq_of_mkdir typed inner
  | readDir name =>
      obtain ⟨answer, -, inner⟩ := exec_result performed
      exact (looked_readDir rooted typed inner).1
  | rmDir name =>
      obtain ⟨answer, same, inner⟩ := exec_result performed
      cases answer with
      | none => cases same
      | some err => exact store_eq_of_rmDir rooted typed inner
  | openFile name flag perm =>
      obtain ⟨answer, same, inner⟩ := exec_result performed
      cases answer with
      | ok f => cases same
      | error err => exact store_eq_of_openFile typed housed inner
  | remove name =>
      obtain ⟨answer, same, inner⟩ := exec_result performed
      cases answer with
      | none => cases same
      | some err => exact store_eq_of_remove typed inner
  | stat name =>
      obtain ⟨answer, -, inner⟩ := exec_result performed
      exact store_eq_of_stat inner

/-! ## Runs -/

variable {s s' start : ClientState} {act : Act}

namespace Reliable

/-- At first there is the root, which is in memory. -/
theorem of_started (started : fs.Started s) : fs.Reliable s := by
  have backed := Backed.of_started started []
  refine ⟨backed.intact, backed.rooted, backed.mine, fun p isDir => .inr ?_⟩
  obtain ⟨stored, -⟩ := exec_new_iff.mp started.new
  have empty : fs.dataStore.entry (fun _ _ => none) = fun _ => .missing := rfl
  rw [stored, DataStore.entry_initRequest (by rw [empty]; exact Entry.typed_missing), empty]
    at isDir ⊢
  by_cases root : p = fs.mountPath
  · subst root
    rw [Function.update_self]
    exact Entry.exists_created
  · rw [Function.update_of_ne root] at isDir
    cases isDir

/-- **One step.** -/
theorem step (reliable : fs.Reliable s) (next : fs.Step s act s') : fs.Reliable s' := by
  obtain ⟨intact, rooted, mine⟩ := owned_of_step reliable.intact reliable.rooted reliable.mine next
  refine ⟨intact, rooted, mine, ?_⟩
  cases next with
  | @call c c' inodes inodes' handles cwd op result performed =>
      have completed := completed_of_exec reliable.rooted reliable.intact.2.typed performed
      exact reliable.housed.of_completed reliable.intact (Filepath.isCleanAbs_abs cwd.2 op.name)
        completed
  | use held performed =>
      exact reliable.housed.congr
        (DataStore.entry_of_issues (s := fs.dataStore) File.issues_call performed)

/-- **A run.** -/
theorem of_steps {allowed : ClientState → Act → Prop} (reliable : fs.Reliable s)
    (run : fs.Steps allowed s s') : fs.Reliable s' := by
  induction run with
  | refl => exact reliable
  | step earlier asked next ih => exact ih.step next

end Reliable

/-- **Failures change nothing.**  In every run of one client, an act that returns an
error other than the end of the file changes no key, and no offset of a handle.  The
acts are the calls of the file system and the operations of handles, and the run
before may be any.  A call checks what it needs before it sends the first request
that writes; for `OpenFile`, which checks once more afterwards, the invariant
`Reliable` says that this check does not fail. -/
theorem unchanged_of_fails (started : fs.Started start)
    (run : fs.Steps (fun _ _ => True) start s) (fails : fs.Fails s act s') :
    s'.store = s.store ∧ s'.handles = s.handles := by
  have reliable := (Reliable.of_started started).of_steps run
  cases fails with
  | call performed =>
      have typed := reliable.intact.2.typed
      exact ⟨store_eq_of_error reliable.rooted typed reliable.housed performed, rfl⟩
  | @use c c' inodes handles h f f' op result err held performed failed notEof =>
      have mine := reliable.mine f (List.mem_of_getElem? held)
      have inv : f.file.store.FileInv c f.file.path := mine ▸ reliable.intact.1 _
      obtain ⟨rfl, rfl⟩ := f.unchanged_of_error inv performed failed notEof
      refine ⟨rfl, ?_⟩
      obtain ⟨inside, same⟩ := List.getElem?_eq_some_iff.mp held
      rw [← same]
      exact List.set_getElem_self inside

/-- Whether the call fails. -/
def small.isRefused (op : Op) : Bool :=
  match (run (small.call small.initial.inodes small.home op) small.initial.store).2 with
  | some (_, result) => result.isError
  | none => false

/-- A file that does not exist is opened to be truncated.  The call fails, and
nothing has been created. -/
theorem unchanged_of_missing : ∃ act s', small.Fails small.initial act s' ∧
    s'.store = small.initial.store ∧ s'.handles = [] := by
  have refused : small.isRefused (.openFile ['/', 'f'] (oTRUNC ||| oRDWR) 0) = true := by
    decide +kernel
  have performed := Program.exec_run serve (small.call small.initial.inodes small.home
    (.openFile ['/', 'f'] (oTRUNC ||| oRDWR) 0)) small.initial.store
  rw [small.isRefused, Pdwfs.run] at refused
  generalize Program.run serve _ _ = outcome at refused performed
  obtain ⟨c, _ | ⟨inodes, result⟩⟩ := outcome
  · cases refused
  · cases result with
    | error err =>
        have fails : small.Fails small.initial _ ⟨c, inodes, []⟩ := .call performed
        exact ⟨_, _, fails, unchanged_of_fails small.started_initial .refl fails⟩
    | _ => cases refused

end RedisFS

end Pdwfs
