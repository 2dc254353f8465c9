import Pdwfs.Redisfs.Creations

/-!
# Removing a directory while a file is created in it

One client removes a directory with `RmDir`, another one opens a file in it with
`O_CREATE`. Whether the directory is empty is one request, and what is deleted is
found out by later ones.

* `trace_readDir`, `stopped_rmDir` — what `RmDir` has sent when it has stopped: it
  has found the directory empty, or it has deleted nothing.
* `Race` — the two clients.
* `InTime` — the order of their requests in which nothing goes wrong.
* `Compatible` — not both calls succeed, and a file that has been opened stays.
* `compatible_of_run` — every run in time is compatible.

## The order of two requests

What matters is the request that lists the directory for `RmDir`, and the one that
records the file in it for `OpenFile`.  If the file is recorded first, `RmDir` finds
that the directory is not empty, and has only read.  If the directory is listed
first, it is found empty; it is removed with whatever is recorded in it later, and
both calls succeed.  `InTime` excludes the second order.  It is a condition on the
order of the requests, and not on their outcome.

Besides, the file must not exist yet, nor be taken for one that does: then
`OpenFile` would not record it, and the directory would be gone from above it.

## States in the middle

The conclusion is about every state of a run and not only about the last.  A state
in the middle is dealt with by running the remover on until it has stopped, which it
can do without help from the other; a call that has succeeded has nothing left to
do.
-/

namespace Pdwfs

open Concurrency Redis

/-! ## What `RmDir` has sent -/

namespace Inode

variable {s : DataStore} {i : Inode} {first : Sent}

/-- The children of a directory are listed by one request, after the inode has been
asked. -/
theorem trace_getChildren {i' : Inode} {children : List Inode}
    (performed : Program.Trace (i.getChildren s) first (.ret (i', .ok children))) :
    ∃ asked members, first = asked ++ [(s.listRequest i.path, .server (.members members))] ∧
      children = (members.filter (· ≠ [])).map fun path => { path := path } := by
  obtain ⟨⟨i₁, dir⟩, asked, rest, rfl, answered, listing⟩ := performed.of_bind_ret
  cases dir with
  | false => exact absurd (Program.ret.inj listing.of_ret.2) (by simp)
  | true =>
      have same : i₁.path = i.path := by
        have known := (answered_of_trace answered []).2
        simp only at known
        rw [known]
      simp only [if_true] at listing
      obtain ⟨members, sent, rest, rfl, listed, returning⟩ := listing.of_bind_ret
      have request : sent = [(s.listRequest i.path, .server (.members members))] := by
        rw [RedisClient.sMembers, RedisClient.send, same] at listed
        obtain ⟨reply, rest, rfl, done⟩ := listed.of_request_bind (Program.stopped_ret _)
        split at done
        · obtain ⟨rfl, same⟩ := done.of_ret
          rw [Program.ret.inj same]
          rfl
        · exact absurd done.of_panic.2 (by simp)
      split at returning
      · exact absurd returning.of_panic.2 (by simp)
      · obtain ⟨rfl, same⟩ := returning.of_ret
        refine ⟨asked, members, by rw [request, List.append_nil], ?_⟩
        exact Except.ok.inj (Prod.ext_iff.mp (Program.ret.inj same)).2

end Inode

namespace RedisFS

variable {fs : RedisFS} {inodes : Inodes} {cwd : Filepath.WorkingDir} {name : GoString}
  {first : Sent}

/-- A directory that has been read has been listed last.  What it has been found to
hold is what the reply says. -/
theorem trace_readDir {inodes' : Inodes} {fis : List Inode}
    (performed : Program.Trace (fs.readDir inodes cwd name) first (.ret (inodes', .ok fis))) :
    ∃ asked members, first = asked ++ [(fs.dataStore.listRequest (Filepath.abs cwd name),
        .server (.members members))] ∧
      (fis = [] → ∀ x ∈ members, x = []) := by
  unfold readDir at performed
  cases valid : fs.validatePath cwd name with
  | some err =>
      rw [valid] at performed
      exact absurd (Program.ret.inj performed.of_ret.2) (by simp)
  | none =>
      rw [valid] at performed
      obtain ⟨⟨inodes₁, info⟩, looked, rest, rfl, looking, continued⟩ := performed.of_bind_ret
      have isNode := yields_node.of_trace looking
      rcases info with err | ⟨fiParent, _ | fi⟩
      · exact absurd (Program.ret.inj continued.of_ret.2) (by simp)
      · exact absurd (Program.ret.inj continued.of_ret.2) (by simp)
      · have here : fi.path = Filepath.abs cwd name := isNode _ _ rfl
        obtain ⟨⟨fi', dir⟩, asked, rest, rfl, answered, listing⟩ := continued.of_bind_ret
        have same := (Inode.answered_of_trace answered []).2
        simp only at same
        cases dir with
        | false => exact absurd (Program.ret.inj listing.of_ret.2) (by simp)
        | true =>
            simp only [if_true] at listing
            obtain ⟨⟨fi'', children⟩, sent, rest, rfl, listed, returning⟩ := listing.of_bind_ret
            cases children with
            | error err => exact absurd (Program.ret.inj returning.of_ret.2) (by simp)
            | ok children =>
                obtain ⟨rfl, result⟩ := returning.of_ret
                obtain ⟨asked', members, rfl, rfl⟩ := Inode.trace_getChildren listed
                refine ⟨looked ++ asked ++ asked', members, by simp [same, here], ?_⟩
                rintro rfl x member
                have sorted := Except.ok.inj (Prod.ext_iff.mp (Program.ret.inj result)).2
                have empty := (List.perm_insertionSort (byName · ·)
                  ((members.filter (· ≠ [])).map fun path => ({ path := path } : Inode))).symm
                rw [← sorted, List.perm_nil, List.map_eq_nil_iff, List.filter_eq_nil_iff] at empty
                simpa using empty x member

/-- The root is not removed. -/
theorem stopped_remove_root {final : Prog (Inodes × Option FsError)}
    (isRoot : Filepath.abs cwd name = fs.mountPath)
    (performed : Program.Trace (fs.remove inodes cwd name) first final) :
    first = [] ∧ ∀ inodes', final ≠ .ret (inodes', none) := by
  unfold RedisFS.remove at performed
  cases valid : fs.validatePath cwd name with
  | some err =>
      rw [valid] at performed
      obtain ⟨rfl, rfl⟩ := performed.of_ret
      exact ⟨rfl, by simp⟩
  | none =>
      simp only [valid, isRoot, fileInfo, if_true] at performed
      obtain ⟨rfl, rfl⟩ := performed.of_panic
      exact ⟨rfl, by simp⟩

/-- **What `RmDir` has sent when it has stopped.**  Either it has only read, and then it has
not succeeded; or it has found the directory empty, and has only read before. -/
theorem stopped_rmDir {final : Prog (Inodes × Option FsError)} (stopped : final.Stopped)
    (performed : Program.Trace (fs.rmDir inodes cwd name) first final) :
    (∀ entry ∈ first, entry.1.writes = []) ∧ (∀ inodes', final ≠ .ret (inodes', none)) ∨
      Filepath.abs cwd name ≠ fs.mountPath ∧ ∃ before members after,
        first = before ++ (fs.dataStore.listRequest (Filepath.abs cwd name),
          .server (.members members)) :: after ∧
        (∀ entry ∈ before, entry.1.writes = []) ∧ ∀ x ∈ members, x = [] := by
  unfold rmDir at performed
  cases valid : fs.validatePath cwd name with
  | some err =>
      rw [valid] at performed
      obtain ⟨rfl, rfl⟩ := performed.of_ret
      exact .inl ⟨by simp, by simp⟩
  | none =>
      rw [valid] at performed
      rcases performed.of_bind stopped with
        ⟨⟨inodes', entries⟩, read, rest, rfl, reading, continued⟩ | ⟨aborted, rfl⟩
      swap
      · exact .inl ⟨(reads_readDir.trace aborted).1, by simp⟩
      have reads := (reads_readDir.trace reading).1
      cases entries with
      | error err =>
          obtain ⟨rfl, rfl⟩ := continued.of_ret
          exact .inl ⟨by simpa using reads, by simp⟩
      | ok entries =>
          simp only at continued
          split at continued
          · obtain ⟨rfl, rfl⟩ := continued.of_ret
            exact .inl ⟨by simpa using reads, by simp⟩
          · rename_i empty
            obtain ⟨asked, members, rfl, none⟩ := trace_readDir reading
            rw [Filepath.abs_clean] at reads ⊢
            by_cases isRoot : Filepath.abs cwd name = fs.mountPath
            · have atRoot := (Filepath.abs_clean cwd name).trans isRoot
              obtain ⟨rfl, failed⟩ := stopped_remove_root atRoot continued
              exact .inl ⟨by simpa using reads, failed⟩
            · refine .inr ⟨isRoot, asked, members, rest, by simp, fun entry member => ?_, ?_⟩
              · exact reads entry (by simp [member])
              · exact none (by simpa using empty)

/-! ## The two clients -/

/-- Who makes which call. -/
inductive Party
  | remover
  | opener
  deriving DecidableEq

instance : Fintype Party := ⟨{.remover, .opener}, by rintro (_ | _) <;> decide⟩

/-- A directory is removed, and a path in it is opened and created if it does not
exist. Otherwise nothing is asked of the path, nor of what the two clients have in
memory. -/
structure Race (fs : RedisFS) (path : GoString) (c : Cluster) (clients : Party → Caller) :
    Prop where
  intact : fs.Intact c
  inside : fs.mountPath <+: path
  notRoot : path ≠ fs.mountPath
  parent : (fs.dataStore.entry c (Filepath.dir path)).exists = true
  isDir : (fs.dataStore.entry c (Filepath.dir path)).isDir = true
  removes : ∃ name, (clients .remover).op = .rmDir name ∧
    Filepath.abs (clients .remover).cwd name = Filepath.dir path
  opens : ∃ name flag perm, (clients .opener).op = .openFile name flag perm ∧
    Filepath.abs (clients .opener).cwd name = path ∧ hasFlag oCREATE flag = true

/-- The call has returned, and it has succeeded. -/
def Succeeded (threads : Party → Prog Result) (i : Party) : Prop :=
  ∃ result, threads i = .ret result ∧ result.isError = false

/-- Not both calls succeed, and what has been opened exists, in a directory. -/
def Compatible (fs : RedisFS) (path : GoString)
    (pool : Pool Party Request ConnReply Result Cluster) : Prop :=
  ¬(Succeeded pool.threads .remover ∧ Succeeded pool.threads .opener) ∧
    (Succeeded pool.threads .opener → (fs.dataStore.entry pool.store path).exists = true ∧
      (fs.dataStore.entry pool.store (Filepath.dir path)).exists = true ∧
      (fs.dataStore.entry pool.store (Filepath.dir path)).isDir = true)

/-- The client that opens the path does not take it for one that exists if it does not; and
the directory is the root, or it is not empty, or the path does not exist yet and is not
recorded in the directory after `RmDir` has listed it. -/
structure InTime (fs : RedisFS) (path : GoString) (c : Cluster) (clients : Party → Caller)
    (labels : List (Party × Request × ConnReply)) : Prop where
  held : ∀ inode, (clients .opener).inodes.get path = some inode →
    (fs.dataStore.entry c path).exists = true
  order : Filepath.dir path = fs.mountPath ∨
    (∃ x, Lists (fs.dataStore.entry c) (Filepath.dir path) x) ∨
    (fs.dataStore.entry c path).exists = false ∧
      ∀ before reply after, labels = before ++
          (.remover, fs.dataStore.listRequest (Filepath.dir path), reply) :: after →
        ∀ reply', (.opener, fs.dataStore.addRequest (Filepath.dir path) path, reply') ∉ after

variable {path : GoString} {c : Cluster} {clients : Party → Caller}
  {labels : List (Party × Request × ConnReply)}
  {final : Pool Party Request ConnReply Result Cluster}

/-- Nothing is created by those that only read or delete. -/
theorem Erases.absent {q : Request} (erases : fs.Erases q) {d : Cluster} (typed : fs.Typed d)
    (absent : (fs.dataStore.entry d path).exists = false) :
    (fs.dataStore.entry (serve q d).1 path).exists = false := by
  cases erases with
  | read readOnly => rwa [serve_readOnly readOnly]
  | rem parent child =>
      rw [DataStore.entry_remRequest (typed _), Function.update_apply]
      split
      · rename_i here
        rw [Entry.exists_withoutChild, ← here]
        exact absent
      · exact absent
  | unlink p =>
      rw [DataStore.entry_unlinkRequest, Function.update_apply]
      split
      · rfl
      · exact absent
  | removeStripe name id =>
      have content : DataOf name (fs.dataStore.removeStripe name id) := fun k member =>
        (DataStore.mem_writes_removeStripe.mp member).imp_right fun same => ⟨id, same⟩
      rwa [DataStore.entry_dataOf content]

namespace Race

theorem isClean (race : fs.Race path c clients) : Filepath.IsCleanAbs path := by
  obtain ⟨name, flag, perm, -, here, -⟩ := race.opens
  exact here ▸ Filepath.isCleanAbs_abs (clients .opener).cwd.2 name

theorem other (race : fs.Race path c clients) : Filepath.dir path ≠ path :=
  Filepath.dir_ne_self fs.cleanMount race.isClean race.inside race.notRoot

theorem erases (race : fs.Race path c clients) :
    Program.Issues fs.Erases ((clients .remover).program fs) := by
  obtain ⟨name, op, -⟩ := race.removes
  rw [Caller.program, op]
  exact (erases_rmDir.bind fun _ => trivial : Program.Issues fs.Erases
    (fs.call _ _ (.rmDir name))).bind fun _ => trivial

theorem creates (race : fs.Race path c clients) :
    Program.Issues (fs.Creates path) ((clients .opener).program fs) := by
  obtain ⟨name, flag, perm, op, rfl, -⟩ := race.opens
  rw [Caller.program, op]
  exact (creates_openFile.bind fun _ => trivial : Program.Issues (fs.Creates _)
    (fs.call _ _ (.openFile name flag perm))).bind fun _ => trivial

/-- What the client that removes has sent when it has stopped. -/
theorem stopped (race : fs.Race path c clients) {program : Prog Result}
    (stopped : program.Stopped)
    (performed : Program.Trace ((clients .remover).program fs) first program) :
    (∀ entry ∈ first, entry.1.writes = []) ∧
        (∀ result, program = .ret result → result.isError = true) ∨
      Filepath.dir path ≠ fs.mountPath ∧ ∃ before members after,
        first = before ++ (fs.dataStore.listRequest (Filepath.dir path),
          .server (.members members)) :: after ∧
        (∀ entry ∈ before, entry.1.writes = []) ∧ ∀ x ∈ members, x = [] := by
  obtain ⟨name, op, here⟩ := race.removes
  rw [Caller.program, op, answer, call, Program.bind_assoc] at performed
  rw [← here]
  rcases performed.of_bind stopped with
    ⟨⟨inodes, err⟩, sent, rest, rfl, removing, returning⟩ | ⟨aborted, rfl⟩
  · obtain ⟨rfl, rfl⟩ := returning.of_ret
    rw [List.append_nil]
    refine (stopped_rmDir (Program.stopped_ret _) removing).imp_left fun ⟨reads, failed⟩ => ?_
    refine ⟨reads, fun result same => ?_⟩
    cases err with
    | none => exact absurd rfl (failed inodes)
    | some err =>
        rw [← Program.ret.inj same]
        rfl
  · exact (stopped_rmDir Program.stopped_panic aborted).imp_left fun ⟨reads, _⟩ =>
      ⟨reads, by simp⟩

variable (race : fs.Race path c clients)
  (run : Pool.Run serve (startOf fs c clients) labels final)

include race run

/-- Each request of the run is by one of the two clients, and is one of theirs. -/
theorem requests : ∀ label ∈ labels, (label.1 = .remover → fs.Erases label.2.1) ∧
    (label.1 = .opener → fs.Creates path label.2.1) := by
  refine run.issued (fun i q => (i = .remover → fs.Erases q) ∧ (i = .opener → fs.Creates path q))
    fun i => ?_
  cases i with
  | remover => exact race.erases.mono fun q erases => ⟨fun _ => erases, by simp⟩
  | opener => exact race.creates.mono fun q creates => ⟨by simp, fun _ => creates⟩

/-- **A path that has been opened** has existed from the start, or it has been created and
recorded in the directory. -/
theorem opened (held : ∀ inode, (clients .opener).inodes.get path = some inode →
      (fs.dataStore.entry c path).exists = true)
    (succeeded : Succeeded final.threads .opener) :
    (fs.dataStore.entry c path).exists = true ∨ ∃ mode reply reply',
      (.opener, fs.dataStore.initRequest path false mode, reply) ∈ labels ∧
      (.opener, fs.dataStore.addRequest (Filepath.dir path) path, reply') ∈ labels := by
  obtain ⟨result, returned, success⟩ := succeeded
  obtain ⟨name, flag, perm, op, rfl, create⟩ := race.opens
  have performed := run.trace .opener
  rw [returned] at performed
  simp only [Caller.program, op] at performed
  obtain ⟨returned, making, rfl⟩ := trace_answer_openFile performed
  obtain ⟨looked, rest, info, own, reads, looks, outcome⟩ :=
    trace_openFile create (if_pos race.inside) race.notRoot making
  change Pool.ownOf labels .opener = looked ++ rest at own
  cases looks with
  | noParent =>
      rw [outcome.2] at success
      simp [Result.ofExcept, Result.isError] at success
  | cached entered inMemory => exact .inl (held _ inMemory)
  | present entered new nonzero =>
      refine .inl ?_
      by_contra absent
      rw [List.append_assoc, List.singleton_append] at own
      obtain ⟨before, after, rfl, early, -⟩ := Pool.exists_split_of_own own
      obtain ⟨middle, _, sooner, -, replied, -⟩ := run.split
      -- Nobody creates the path before it is asked for.
      have still := (sooner.preserved (fun d => fs.Intact d ∧
        (fs.dataStore.entry d (Filepath.abs (clients .opener).cwd name)).exists = false)
        (fun label member d before => ?_) ⟨race.intact, by simpa using absent⟩).2
      · exact nonzero (by simpa [DataStore.serve_existsRequest, still] using replied)
      · obtain ⟨intact, absent⟩ := before
        obtain ⟨i, entry⟩ := label
        cases i with
        | remover =>
            have erases := (race.requests run _ (List.mem_append_left _ member)).1 rfl
            exact ⟨erases.asks.intact intact, erases.absent intact.2.typed absent⟩
        | opener =>
            have mine := Pool.mem_own member
            rw [early] at mine
            rw [serve_readOnly (reads entry (List.mem_append_left _ mine))]
            exact ⟨intact, absent⟩
  | absent =>
      obtain ⟨r, r', last, dir, rfl, -⟩ := outcome
      have created : (fs.dataStore.initRequest (Filepath.abs (clients .opener).cwd name) false
          perm, r) ∈ Pool.ownOf labels .opener := by simp [own]
      have added : (fs.dataStore.addRequest (Filepath.dir (Filepath.abs (clients .opener).cwd
          name)) (Filepath.abs (clients .opener).cwd name), r') ∈ Pool.ownOf labels .opener := by
        simp [own]
      exact .inr ⟨perm, r, r', Pool.mem_of_mem_own created, Pool.mem_of_mem_own added⟩

/-- **One run in time.**  If the path has been opened and `RmDir` has stopped, it has only
read, and it has failed. -/
theorem reads_of_inTime (inTime : fs.InTime path c clients labels)
    (finished : (final.threads .remover).Stopped)
    (succeeded : Succeeded final.threads .opener) :
    (∀ label ∈ labels, label.1 = .remover → label.2.1.writes = []) ∧
      ¬Succeeded final.threads .remover := by
  rcases race.stopped finished (run.trace .remover) with ⟨reads, failed⟩ | ⟨notRoot, before⟩
  · refine ⟨?_, fun ⟨result, returned, success⟩ => ?_⟩
    · rintro ⟨_, entry⟩ member rfl
      exact reads entry (Pool.mem_own member)
    · simp [failed result returned] at success
  · exfalso
    obtain ⟨first, members, rest, own, reads, empty⟩ := before
    change Pool.ownOf labels .remover = _ at own
    obtain ⟨before, after, rfl, early, -⟩ := Pool.exists_split_of_own own
    obtain ⟨middle, _, sooner, -, replied, -⟩ := run.split
    have creates : ∀ label ∈ before, fs.Creates path label.2.1 := by
      rintro ⟨i, entry⟩ member
      cases i with
      | remover =>
          have mine := Pool.mem_own member
          exact .of_readOnly (reads entry (early ▸ mine))
      | opener => exact (race.requests run _ (List.mem_append_left _ member)).2 rfl
    -- What the directory lists has been answered.
    have typed := typed_of_run sooner creates race.intact.2.typed
    have listed := listed_iff_of_run sooner creates race.intact.2.typed race.other
    rw [DataStore.serve_listRequest (typed _)] at replied
    obtain rfl : members = (fs.dataStore.entry middle.store (Filepath.dir path)).members := by
      simpa using replied
    rcases inTime.order with isRoot | ⟨x, there, some⟩ | ⟨absent, order⟩
    · exact notRoot isRoot
    · exact some (empty x ((listed x).mpr (.inl there)))
    · rcases race.opened run inTime.held succeeded with present | ⟨mode, r, r', -, added⟩
      · simp [absent] at present
      · rcases List.mem_append.mp added with sooner | later
        · refine Filepath.ne_nil_of_isCleanAbs race.isClean (empty path ((listed path).mpr ?_))
          exact .inr ⟨_, sooner, rfl, rfl⟩
        · rcases List.mem_cons.mp later with same | later
          · simp at same
          · exact order before _ after rfl _ later

end Race

/-- **Removing a directory while a file is created in it.**  In every state of a run
in time, finished or not, not both calls have succeeded; and if the path has been
opened then it exists, and so does its directory.  The opener succeeds only when it
has recorded the path in the directory, and `RmDir` has listed the directory before
it deletes anything.  In time means that the path is recorded first, if at all; then
the listing has it, and `RmDir` fails.  A run that is not finished is continued with
the requests of the remover. -/
theorem compatible_of_run (race : fs.Race path c clients)
    (run : Pool.Run serve (startOf fs c clients) labels final)
    (inTime : fs.InTime path c clients labels) : fs.Compatible path final := by
  suffices both : Succeeded final.threads .opener → ¬Succeeded final.threads .remover ∧
      ∀ label ∈ labels, fs.Creates path label.2.1 by
    refine ⟨fun ⟨removed, opened⟩ => (both opened).1 removed, fun opened => ?_⟩
    have creates := (both opened).2
    have typed := race.intact.2.typed
    refine ⟨(exists_iff_of_run run creates typed race.other).mpr ?_,
      (exists_dir_of_run run creates typed race.other).mpr race.parent,
      isDir_dir_of_run run creates typed race.other race.isDir⟩
    exact (race.opened run inTime.held opened).imp_right fun ⟨mode, reply, _, created, _⟩ =>
      ⟨_, created, _, _, rfl⟩
  rintro ⟨result, returned, success⟩
  -- The run is continued until both clients have stopped; the opener has nothing left to do.
  obtain ⟨labels', final', run', finished⟩ := Pool.exists_run serve final
  have total := run.trans run'
  have idle := run'.trace .opener
  rw [returned] at idle
  obtain ⟨none, returned'⟩ := idle.of_ret
  have later : ∀ entry, (Party.opener, entry) ∉ labels' := by
    intro entry member
    have mine := Pool.mem_own member
    rw [Pool.ownOf, none] at mine
    simp at mine
  have inTime' : fs.InTime path c clients (labels ++ labels') := by
    refine ⟨inTime.held, inTime.order.imp_right (Or.imp_right fun ⟨absent, order⟩ =>
      ⟨absent, fun before reply after split reply' added => ?_⟩)⟩
    rcases List.append_eq_append_iff.mp split with ⟨more, rfl, same⟩ | ⟨more, rfl, same⟩
    · apply later (fs.dataStore.addRequest (Filepath.dir path) path, reply')
      rw [same]
      simp [added]
    · cases more with
      | nil =>
          apply later (fs.dataStore.addRequest (Filepath.dir path) path, reply')
          rw [← show _ = labels' from by simpa using same]
          simp [added]
      | cons head tail =>
          obtain ⟨rfl, rfl⟩ := List.cons.inj same
          rcases List.mem_append.mp added with here | there
          · exact order before reply tail rfl reply' here
          · exact later _ there
  obtain ⟨reads, failed⟩ := race.reads_of_inTime total inTime' (finished .remover)
    ⟨result, returned', success⟩
  refine ⟨fun ⟨result', ended, success'⟩ => ?_, fun label member => ?_⟩
  · have idle := run'.trace .remover
    rw [ended] at idle
    exact failed ⟨result', idle.of_ret.2, success'⟩
  · obtain ⟨i, entry⟩ := label
    cases i with
    | remover => exact .of_readOnly (reads _ (List.mem_append_left _ member) rfl)
    | opener => exact (race.requests run _ member).2 rfl

/-! ## A directory in a small store -/

/-- One client removes the directory, the other one creates a file in it. -/
def small.pairs : Party → Caller
  | .remover => ⟨small.rootOnly, small.home, .rmDir ['/', 'd']⟩
  | .opener => ⟨small.rootOnly, small.home, .openFile ['/', 'd', '/', 'f'] oCREATE 0⟩

/-- The directory is there, and the file is not. -/
theorem small.race_pairs : small.Race ['/', 'd', '/', 'f'] small.withDir small.pairs where
  intact := (safe_call.preserved small.intact_start (Program.exec_run serve _ _)).1
  inside := by decide
  notRoot := by decide
  parent := by decide +kernel
  isDir := by decide +kernel
  removes := ⟨_, rfl, by decide⟩
  opens := ⟨_, _, _, rfl, by decide, by decide⟩

/-- The file is created, then the directory is not empty. -/
theorem small.pairs_inTurn : (small.returnedAfter small.withDir small.pairs
    (List.replicate 6 .opener ++ List.replicate 4 .remover)).any fun left =>
      (left.2 .opener).any (!·.isError) && (left.2 .remover).any (·.isError) := by
  decide +kernel

/-- The directory is found empty, then the file is created and deleted. -/
theorem small.pairs_together : (small.returnedAfter small.withDir small.pairs
    (List.replicate 4 .remover ++ List.replicate 6 .opener ++ List.replicate 6 .remover)).any
      fun left => ((left.2 .opener).any (!·.isError) && (left.2 .remover).any (!·.isError)) &&
        !(small.dataStore.entry left.1 ['/', 'd', '/', 'f']).exists := by
  decide +kernel

/-- A client that takes its turns before the other one creates the file in time. -/
theorem small.inTime_of_turns {labels : List (Party × Request × ConnReply)}
    (turns : labels.map Prod.fst = List.replicate 6 .opener ++ List.replicate 4 .remover) :
    small.InTime ['/', 'd', '/', 'f'] small.withDir small.pairs labels where
  held inode inMemory := by
    have none : (small.pairs .opener).inodes.get ['/', 'd', '/', 'f'] = none := by decide
    simp [none] at inMemory
  order := by
    refine .inr (.inr ⟨by decide +kernel, ?_⟩)
    rintro before reply after rfl reply' added
    -- The opener takes no turn after the remover's first one.
    have ordered : List.Pairwise (fun i j : Party => i = .remover → j = .remover)
        (List.replicate 6 .opener ++ List.replicate 4 .remover) := by
      decide
    rw [← turns, List.map_append, List.map_cons, List.pairwise_append] at ordered
    have last :=
      (List.pairwise_cons.mp ordered.2.1).1 .opener (List.mem_map.mpr ⟨_, added, rfl⟩) rfl
    simp at last

/-- One client after the other: the directory is not empty. -/
theorem compatible_pairs_inTurn : ∃ labels final,
    Pool.Run serve (startOf small small.withDir small.pairs) labels final ∧
    Succeeded final.threads .opener ∧ small.Compatible ['/', 'd', '/', 'f'] final := by
  obtain ⟨left, played, done⟩ := (Option.any_eq_true _ _).mp small.pairs_inTurn
  obtain ⟨labels, final, run, turns, -, same⟩ := exists_run_of_returned played
  rw [Bool.and_eq_true, Option.any_eq_true] at done
  obtain ⟨⟨result, returned, success⟩, -⟩ := done
  refine ⟨labels, final, run, ⟨result, same _ _ returned, by simpa using success⟩, ?_⟩
  exact compatible_of_run small.race_pairs run (small.inTime_of_turns turns)

/-- Both calls succeed, and the file has been deleted. -/
theorem not_compatible_pairs_together :
    small.Race ['/', 'd', '/', 'f'] small.withDir small.pairs ∧
    ∃ labels final, Pool.Run serve (startOf small small.withDir small.pairs) labels final ∧
    Succeeded final.threads .remover ∧ Succeeded final.threads .opener ∧
    (small.dataStore.entry final.store ['/', 'd', '/', 'f']).exists = false ∧
    ¬small.Compatible ['/', 'd', '/', 'f'] final := by
  obtain ⟨left, played, done⟩ := (Option.any_eq_true _ _).mp small.pairs_together
  obtain ⟨labels, final, run, -, stored, same⟩ := exists_run_of_returned played
  rw [Bool.and_eq_true, Bool.and_eq_true, Option.any_eq_true, Option.any_eq_true] at done
  obtain ⟨⟨⟨result, returned, success⟩, result', returned', success'⟩, deleted⟩ := done
  have opened : Succeeded final.threads .opener :=
    ⟨result, same _ _ returned, by simpa using success⟩
  have removed : Succeeded final.threads .remover :=
    ⟨result', same _ _ returned', by simpa using success'⟩
  refine ⟨small.race_pairs, labels, final, run, removed, opened, ?_, ?_⟩
  · simpa [stored] using deleted
  · exact fun compatible => compatible.1 ⟨removed, opened⟩

end RedisFS

end Pdwfs
