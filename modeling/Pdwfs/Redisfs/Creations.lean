import Pdwfs.Redisfs.Lookups

/-!
# Creations while others create

* `Creates` — the requests of a call that creates a path if it does not exist, with
  `entry_creates`: what they do to the namespace.
* `safe_mkdir`, `safe_openFile` — these calls are not aborted, whatever others do.
* `trace_mkdir`, `trace_openFile` — what they send, and what they return.
* `exists_iff_of_run`, `isDir_iff_of_run`, `listed_iff_of_run` — what exists after a
  run in which nobody does anything else.

## Facts that only grow

Where nobody removes anything, a creation can add a mode, add a set of children, or
add a member, and none of this is ever taken back.  So a fact such as that the path
exists holds at some time if and only if it has held at the beginning, or one of the
requests before has made it true.  This is one induction on a run
(`fact_iff_of_run`), for a fact and the requests that trigger it, and the three
results of the module are cases of it.

A request in the middle of a run is answered by the store at that time.  With the
run up to there, the same induction says what the answer means: it is about the
requests before it (`exists_reply`).  These answers are what the traces of the calls
are about, so that a call can be judged by the order of the requests alone.

## What is in the way

A call could be aborted by an error reply, and then it would return nothing.  Such a
reply would mean that a key has the wrong type, and the keys that the calls write
have the right one throughout (`typed_of_run`).
-/

namespace Pdwfs

open Concurrency Redis

namespace RedisFS

/-- The requests of the calls that create the path.  What they do to content is not
restricted, apart from the name. -/
inductive Creates (fs : RedisFS) (path : GoString) : Request → Prop
  | content {q : Request} (dataOf : DataOf path q) : Creates fs path q
  | init (isDir : Bool) (mode : FileMode) :
      Creates fs path (fs.dataStore.initRequest path isDir mode)
  | add : Creates fs path (fs.dataStore.addRequest (Filepath.dir path) path)

variable {fs : RedisFS} {inodes : Inodes} {path : GoString} {i : Inode} {c : Cluster}

theorem Creates.of_readOnly {q : Request} (readOnly : q.writes = []) : fs.Creates path q :=
  .content (dataOf_of_readOnly readOnly path)

/-! ## What the calls send -/

variable {cwd : Filepath.WorkingDir} {name : GoString}

theorem creates_mkdir {perm : FileMode} :
    Program.Issues (fs.Creates (Filepath.abs cwd name)) (fs.mkdir inodes cwd name perm) :=
  issues_mkdir (fun _ => .of_readOnly) (.init true perm) fun _ _ => .add

theorem creates_openFile {flag : Flags} {perm : FileMode} :
    Program.Issues (fs.Creates (Filepath.abs cwd name))
      (fs.openFile inodes cwd name flag perm) :=
  issues_openFile (fun _ => .of_readOnly) (.init false perm) (fun _ _ => .add)
    (DataStore.issues_openFile.mono fun _ => .content)

theorem dataOf_getFile {flag : Flags} :
    Program.Issues (DataOf i.path) (i.getFile fs.dataStore flag) :=
  issues_getFile (fun _ readOnly => dataOf_of_readOnly readOnly _) DataStore.issues_openFile rfl

theorem dataOf_openNode {flag : Flags} :
    Program.Issues (DataOf i.path) (fs.openNode inodes name flag i) :=
  issues_openNode (fun _ readOnly => dataOf_of_readOnly readOnly _) DataStore.issues_openFile rfl

/-! ## No call is aborted -/

/-- The lookups are not aborted either, since the replies to `EXISTS` are integers
whatever the keys hold. -/
theorem safe_exists {invariant : Cluster → Prop} :
    Program.Safe serve invariant False (fun _ => True) (i.exists fs.dataStore) := by
  rw [Inode.exists_eq]
  refine (Program.safe_request (fun reply => ∃ n, reply = .server (.int n))
    fun c holds => ?_).bind fun reply answered => ?_
  · rw [DataStore.serve_existsRequest]
    exact ⟨holds, _, rfl⟩
  · obtain ⟨n, rfl⟩ := answered
    trivial

theorem safe_isDir {invariant : Cluster → Prop} :
    Program.Safe serve invariant False (fun _ => True) (i.isDir fs.dataStore) := by
  cases known : i.isDir? with
  | some dir =>
      rw [Inode.isDir_of_some known]
      trivial
  | none =>
      rw [Inode.isDir_of_none known]
      refine (Program.safe_request (fun reply => ∃ n, reply = .server (.int n))
        fun c holds => ?_).bind fun reply answered => ?_
      · rw [DataStore.serve_isDirRequest]
        exact ⟨holds, _, rfl⟩
      · obtain ⟨n, rfl⟩ := answered
        trivial

theorem safe_getInode {invariant : Cluster → Prop} :
    Program.Safe serve invariant False (fun _ => True) (fs.getInode inodes path) := by
  unfold getInode
  split
  · trivial
  · refine safe_exists.bind fun present _ => ?_
    split <;> trivial

theorem safe_fileInfo {invariant : Cluster → Prop} :
    Program.Safe serve invariant False (fun _ => True) (fs.fileInfo inodes path) := by
  unfold fileInfo
  split
  · trivial
  · refine safe_getInode.bind fun found _ => ?_
    obtain ⟨inodes, fiParent⟩ := found
    simp only
    split
    · trivial
    · refine safe_isDir.bind fun answer _ => ?_
      obtain ⟨asked, dir⟩ := answer
      simp only
      split
      · exact safe_getInode.bind fun _ _ => trivial
      · trivial

/-- A creation is not aborted: the keys that it writes have no value of the wrong
type. -/
theorem safe_createInode {dir : Bool} {mode : FileMode} {parent : Inode}
    (isClean : Filepath.IsCleanAbs path) (inside : fs.mountPath <+: path)
    (notRoot : path ≠ fs.mountPath) (isParent : parent.path = Filepath.dir path) :
    Program.Safe serve fs.Intact False (fun _ => True)
      (fs.createInode inodes path dir mode (some parent)) := by
  have first : ∀ i : Inode, Program.Safe serve fs.Intact False (fun _ => True)
      (i.initMeta fs.dataStore dir mode) := by
    intro i
    rw [Inode.initMeta_eq]
    refine (Program.safe_request (fun _ => True) fun c intact => ?_).bind fun _ _ => trivial
    exact ⟨(Asks.init i.path dir mode).intact intact, trivial⟩
  have second : Program.Safe serve fs.Intact False (fun _ => True)
      (parent.setChild fs.dataStore { path := path }) := by
    rw [Inode.setChild_eq, isParent]
    refine (Program.safe_request (· ≠ .server .err) fun c intact => ?_).bind
      fun reply answered => ?_
    · exact ⟨(Asks.add isClean inside notRoot).intact intact,
        DataStore.addRequest_ne_err (intact.2.typed _) path⟩
    · split
      · exact absurd rfl answered
      · trivial
  exact (first _).bind fun _ _ => second.bind fun _ _ => trivial

theorem safe_getFile {flag : Flags} :
    Program.Safe serve fs.Intact False (fun _ => True) (i.getFile fs.dataStore flag) := by
  refine safe_isDir.bind fun (asked, dir) _ => ?_
  simp only
  split
  · trivial
  · exact ((DataStore.safe_openFile _ _ _).and (DataStore.issues_openFile.mono
      fun _ dataOf _ linked => Linked.dataOf linked dataOf)).bind fun _ _ => trivial

theorem safe_openNode {flag : Flags} : Program.Safe serve fs.Intact False (fun _ => True)
    (fs.openNode inodes name flag i) := by
  refine safe_isDir.bind fun (asked, dir) _ => ?_
  simp only
  split
  · trivial
  · exact safe_getFile.bind fun _ _ => trivial

/-- `Mkdir` is not aborted. -/
theorem safe_mkdir {perm : FileMode} : Program.Safe serve fs.Intact False (fun _ => True)
    (fs.mkdir inodes cwd name perm) := by
  unfold mkdir
  cases valid : fs.validatePath cwd name with
  | some err => trivial
  | none =>
      have isClean := Filepath.isCleanAbs_abs cwd.2 name
      refine (safe_fileInfo.yields yields_fileInfo).bind fun (inodes, info) ⟨_, hasParent⟩ => ?_
      rcases info with err | ⟨_ | parent, _ | fiNode⟩
      · trivial
      · exact hasParent.elim
      · simp only
        split <;> trivial
      · exact (safe_createInode isClean (validatePath_eq_none valid) hasParent.1
          hasParent.2).bind fun _ _ => trivial
      · simp only
        split <;> trivial

/-- `OpenFile` is not aborted. -/
theorem safe_openFile {flag : Flags} {perm : FileMode} :
    Program.Safe serve fs.Intact False (fun _ => True)
      (fs.openFile inodes cwd name flag perm) := by
  unfold openFile
  cases valid : fs.validatePath cwd name with
  | some err => trivial
  | none =>
      have isClean := Filepath.isCleanAbs_abs cwd.2 name
      refine (safe_fileInfo.yields yields_fileInfo).bind fun (inodes, info) ⟨_, hasParent⟩ => ?_
      rcases info with err | ⟨_ | parent, _ | fiNode⟩
      · trivial
      · exact hasParent.elim
      · simp only
        split
        · trivial
        · exact safe_openNode
      · simp only
        split
        · exact (safe_createInode isClean (validatePath_eq_none valid) hasParent.1
            hasParent.2).bind fun _ _ => safe_getFile.bind fun _ _ => trivial
        · trivial
      · simp only
        split
        · trivial
        · exact safe_openNode

/-! ## What a call has sent, and what it returns -/

variable {first : Sent}

/-- A creation sends two requests, the one that makes the path and the one that
records it in the directory. -/
theorem trace_createInode {dir : Bool} {mode : FileMode} {parent : Inode}
    {new : Inodes × Inode} (isParent : parent.path = Filepath.dir path)
    (performed : Program.Trace (fs.createInode inodes path dir mode (some parent)) first
      (.ret new)) :
    new.2 = { path := path } ∧ ∃ r r', first = [(fs.dataStore.initRequest path dir mode, r),
      (fs.dataStore.addRequest (Filepath.dir path) path, r')] := by
  rw [createInode, Inode.initMeta_eq] at performed
  obtain ⟨_, made, rest, rfl, init, continued⟩ := performed.of_bind_ret
  obtain ⟨r, none, rfl, done⟩ := init.of_request_bind (Program.stopped_ret _)
  obtain ⟨rfl, -⟩ := done.of_ret
  simp only [Inode.setChild_eq, isParent] at continued
  obtain ⟨_, added, rest, rfl, add, finished⟩ := continued.of_bind_ret
  obtain ⟨r', none, rfl, done⟩ := add.of_request_bind (Program.stopped_ret _)
  obtain ⟨rfl, same⟩ := finished.of_ret
  rw [Program.ret.inj same]
  split at done
  · exact absurd done.of_panic.2 (by simp)
  · obtain ⟨rfl, -⟩ := done.of_ret
    exact ⟨rfl, r, r', rfl⟩

/-- The lookup of a path that has been validated and is not the root. -/
theorem looked_of_valid (valid : fs.validatePath cwd name = none)
    (notRoot : Filepath.abs cwd name ≠ fs.mountPath)
    {answer : Inodes × Except FsError (Option Inode × Option Inode)}
    (performed : Program.Trace (fs.fileInfo inodes (Filepath.abs cwd name)) first
      (.ret answer)) : fs.Looked inodes (Filepath.abs cwd name) first answer.2 :=
  looked_of_trace notRoot (Filepath.dir_ne_self fs.cleanMount
    (Filepath.isCleanAbs_abs cwd.2 name) (validatePath_eq_none valid) notRoot) performed

/-- What `Mkdir` sends, and what it returns. -/
theorem trace_mkdir {perm : FileMode} {returned : Inodes × Option FsError}
    (valid : fs.validatePath cwd name = none) (notRoot : Filepath.abs cwd name ≠ fs.mountPath)
    (performed : Program.Trace (fs.mkdir inodes cwd name perm) first (.ret returned)) :
    ∃ looked rest info, first = looked ++ rest ∧
      (∀ entry ∈ looked, entry.1.writes = []) ∧
      fs.Looked inodes (Filepath.abs cwd name) looked info ∧
      match info with
      | .error err => rest = [] ∧ returned.2 = some (.pathError "mkdir" name err)
      | .ok (_, some _) => rest = [] ∧ returned.2 = some (.pathError "mkdir" name .exist)
      | .ok (_, none) => returned.2 = none ∧
          ∃ r r', rest = [(fs.dataStore.initRequest (Filepath.abs cwd name) true perm, r),
            (fs.dataStore.addRequest (Filepath.dir (Filepath.abs cwd name))
              (Filepath.abs cwd name), r')] := by
  rw [mkdir, valid] at performed
  obtain ⟨⟨inodes', info⟩, looked, rest, rfl, done, continued⟩ := performed.of_bind_ret
  have found := looked_of_valid valid notRoot done
  refine ⟨looked, rest, info, rfl, (reads_fileInfo.trace done).1, found, ?_⟩
  simp only at found
  cases found with
  | noParent =>
      obtain ⟨rfl, same⟩ := continued.of_ret
      exact ⟨rfl, congrArg Prod.snd (Program.ret.inj same)⟩
  | cached entered held =>
      simp only [inodes.path_eq held, if_neg notRoot] at continued
      obtain ⟨rfl, same⟩ := continued.of_ret
      exact ⟨rfl, congrArg Prod.snd (Program.ret.inj same)⟩
  | present =>
      simp only [if_neg notRoot] at continued
      obtain ⟨rfl, same⟩ := continued.of_ret
      exact ⟨rfl, congrArg Prod.snd (Program.ret.inj same)⟩
  | absent entered =>
      obtain ⟨_, made, rest, rfl, creation, continued⟩ := continued.of_bind_ret
      obtain ⟨rfl, same⟩ := continued.of_ret
      obtain ⟨-, r, r', rfl⟩ := trace_createInode entered.above creation
      exact ⟨congrArg Prod.snd (Program.ret.inj same), r, r', by simp⟩

/-- An inode that exists is opened, or refused if it is taken for a directory. -/
theorem trace_openNode {node : Inode} {flag : Flags} {returned : Inodes × Except FsError File}
    (performed : Program.Trace (fs.openNode inodes name flag node) first (.ret returned)) :
    ∃ dir, node.Answered fs.dataStore first dir ∧
      if dir then returned.2 = .error (.pathError "open" name .isDirectory)
      else ∃ f, returned.2 = .ok f := by
  obtain ⟨⟨node', dir⟩, asked, rest, rfl, answered, continued⟩ := performed.of_bind_ret
  obtain ⟨answered', known⟩ := Inode.answered_of_trace answered rest
  refine ⟨dir, answered', ?_⟩
  cases dir with
  | true =>
      obtain ⟨-, same⟩ := continued.of_ret
      exact congrArg Prod.snd (Program.ret.inj same)
  | false =>
      obtain ⟨⟨node'', file⟩, opening, rest, rfl, opened, continued⟩ := continued.of_bind_ret
      obtain ⟨-, same⟩ := continued.of_ret
      rw [Program.ret.inj same]
      obtain ⟨dir, again, result⟩ := Inode.trace_getFile opened
      -- What has been answered once is not asked again.
      simp only at known
      rcases again with same | ⟨unknown, -⟩
      · rw [known] at same
        obtain rfl := Option.some.inj same
        exact result
      · simp [known] at unknown

/-- What `OpenFile` sends, and what it returns. -/
theorem trace_openFile {flag : Flags} {perm : FileMode}
    {returned : Inodes × Except FsError File} (create : hasFlag oCREATE flag = true)
    (valid : fs.validatePath cwd name = none) (notRoot : Filepath.abs cwd name ≠ fs.mountPath)
    (performed : Program.Trace (fs.openFile inodes cwd name flag perm) first (.ret returned)) :
    ∃ looked rest info, first = looked ++ rest ∧
      (∀ entry ∈ looked, entry.1.writes = []) ∧
      fs.Looked inodes (Filepath.abs cwd name) looked info ∧
      match info with
      | .error err => rest = [] ∧ returned.2 = .error (.pathError "open" name err)
      | .ok (_, some node) =>
          if hasFlag (oCREATE ||| oEXCL) flag then
            rest = [] ∧ returned.2 = .error (.pathError "open" name .exist)
          else (∀ entry ∈ rest, DataOf (Filepath.abs cwd name) entry.1) ∧
            ∃ dir, node.Answered fs.dataStore rest dir ∧
              if dir then returned.2 = .error (.pathError "open" name .isDirectory)
              else ∃ f, returned.2 = .ok f
      | .ok (_, none) => ∃ r r' last dir,
          rest = (fs.dataStore.initRequest (Filepath.abs cwd name) false perm, r) ::
            (fs.dataStore.addRequest (Filepath.dir (Filepath.abs cwd name))
              (Filepath.abs cwd name), r') :: last ∧
          (∀ entry ∈ last, DataOf (Filepath.abs cwd name) entry.1) ∧
          ({ path := Filepath.abs cwd name } : Inode).Answered fs.dataStore last dir ∧
            if dir then returned.2 = .error .isDirectory else ∃ f, returned.2 = .ok f := by
  rw [openFile, valid] at performed
  obtain ⟨⟨inodes', info⟩, looked, rest, rfl, done, continued⟩ := performed.of_bind_ret
  have found := looked_of_valid valid notRoot done
  refine ⟨looked, rest, info, rfl, (reads_fileInfo.trace done).1, found, ?_⟩
  -- What is found is opened, unless the flags ask for a new file.
  have existing : ∀ node : Inode, node.path = Filepath.abs cwd name →
      Program.Trace (if hasFlag (oCREATE ||| oEXCL) flag then
          .ret (inodes', .error (.pathError "open" name .exist))
        else fs.openNode inodes' name flag node) rest (.ret returned) →
      if hasFlag (oCREATE ||| oEXCL) flag then
        rest = [] ∧ returned.2 = .error (.pathError "open" name .exist)
      else (∀ entry ∈ rest, DataOf (Filepath.abs cwd name) entry.1) ∧
        ∃ dir, node.Answered fs.dataStore rest dir ∧
          if dir then returned.2 = .error (.pathError "open" name .isDirectory)
          else ∃ f, returned.2 = .ok f := by
    intro node here continued
    split at continued
    · rename_i exclusive
      obtain ⟨rfl, same⟩ := continued.of_ret
      rw [if_pos exclusive]
      exact ⟨rfl, congrArg Prod.snd (Program.ret.inj same)⟩
    · rename_i shared
      rw [if_neg shared]
      exact ⟨here ▸ (dataOf_openNode.trace continued).1, trace_openNode continued⟩
  simp only at found
  cases found with
  | noParent =>
      obtain ⟨rfl, same⟩ := continued.of_ret
      exact ⟨rfl, congrArg Prod.snd (Program.ret.inj same)⟩
  | cached entered held => exact existing _ (inodes.path_eq held) continued
  | present => exact existing _ rfl continued
  | absent entered =>
      -- Nothing is found: the inode is created, and the new inode is opened, which asks
      -- once more whether it is a directory.
      simp only [create, if_true] at continued
      obtain ⟨⟨inodes₁, node⟩, made, later, rfl, creation, opening⟩ := continued.of_bind_ret
      obtain ⟨rfl, r, r', rfl⟩ := trace_createInode entered.above creation
      obtain ⟨⟨node', f⟩, last, nothing, rfl, opened, returning⟩ := opening.of_bind_ret
      obtain ⟨rfl, same⟩ := returning.of_ret
      obtain ⟨dir, answered, result⟩ := Inode.trace_getFile opened
      rw [Program.ret.inj same]
      exact ⟨r, r', last, dir, by simp, (dataOf_getFile.trace opened).1, answered, result⟩

/-! ## What a run of creations does -/

/-- A creation is no work on content. -/
theorem not_dataOf_initRequest {dir : Bool} {mode : FileMode} :
    ¬DataOf path (fs.dataStore.initRequest path dir mode) := by
  intro dataOf
  have written : modeKey path ∈ (fs.dataStore.initRequest path dir mode).writes := by
    cases dir <;> simp [Request.writes, Body.writes, DataStore.initRequest, Cmd.writes]
  rcases dataOf _ written with same | ⟨id, same⟩
  · exact stripesKey_ne_modeKey path path same.symm
  · exact key_ne_modeKey path path id same.symm

/-- Neither is its record in the directory. -/
theorem not_dataOf_addRequest {parent child : GoString} :
    ¬DataOf path (fs.dataStore.addRequest parent child) := by
  intro dataOf
  have written : childrenKey parent ∈ (fs.dataStore.addRequest parent child).writes := by
    simp [Request.writes, Body.writes, DataStore.addRequest, Cmd.writes]
  rcases dataOf _ written with same | ⟨id, same⟩
  · exact stripesKey_ne_childrenKey path parent same.symm
  · exact key_ne_childrenKey path parent id same.symm

theorem initRequest_ne_addRequest {parent child : GoString} {dir : Bool} {mode : FileMode} :
    fs.dataStore.initRequest path dir mode ≠ fs.dataStore.addRequest parent child := by
  intro same
  exact nomatch congrArg Request.body same

theorem initRequest_inj {dir dir' : Bool} {mode mode' : FileMode} :
    fs.dataStore.initRequest path dir mode = fs.dataStore.initRequest path dir' mode' →
      dir = dir' := by
  intro same
  have body := congrArg Request.body same
  cases dir <;> cases dir' <;> simp [DataStore.initRequest] at body ⊢

/-- The entries are as the program writes them. -/
abbrev Typed (fs : RedisFS) (c : Cluster) : Prop := ∀ p, (fs.dataStore.entry c p).Typed

/-- A creation leaves no value of the wrong type. -/
theorem Creates.typed {q : Request} (creates : fs.Creates path q) (typed : fs.Typed c) :
    fs.Typed (serve q c).1 := by
  intro p
  cases creates with
  | content dataOf =>
      rw [DataStore.entry_dataOf dataOf]
      exact typed p
  | init dir mode =>
      rw [DataStore.entry_initRequest (typed _), Function.update_apply]
      split
      · exact (typed path).created
      · exact typed p
  | add =>
      rw [DataStore.entry_addRequest (typed _), Function.update_apply]
      split
      · exact (typed _).withChild
      · exact typed p

variable {ι α : Type} [DecidableEq ι] {pool final : Pool ι Request ConnReply α Cluster}
  {labels : List (ι × Request × ConnReply)}

theorem typed_of_run (run : Pool.Run serve pool labels final)
    (creates : ∀ label ∈ labels, fs.Creates path label.2.1) (typed : fs.Typed pool.store) :
    fs.Typed final.store :=
  run.preserved fs.Typed (fun label member _ typed => (creates label member).typed typed) typed

/-- A fact about the namespace that is made true by creations only.  The hypotheses
are about one request of each kind. -/
theorem fact_iff_of_run (fact : Namespace → Prop) (trigger : Request → Prop)
    (content : ∀ q, DataOf path q → ¬trigger q)
    (init : ∀ (ns : Namespace) (dir : Bool) (mode : FileMode), (∀ p, (ns p).Typed) →
      (fact (Function.update ns path ((ns path).created dir mode)) ↔
        fact ns ∨ trigger (fs.dataStore.initRequest path dir mode)))
    (add : ∀ ns : Namespace, (∀ p, (ns p).Typed) →
      (fact (Function.update ns (Filepath.dir path) ((ns (Filepath.dir path)).withChild path)) ↔
        fact ns ∨ trigger (fs.dataStore.addRequest (Filepath.dir path) path)))
    (run : Pool.Run serve pool labels final)
    (creates : ∀ label ∈ labels, fs.Creates path label.2.1) (typed : fs.Typed pool.store) :
    fact (fs.dataStore.entry final.store) ↔
      fact (fs.dataStore.entry pool.store) ∨ ∃ label ∈ labels, trigger label.2.1 := by
  refine run.fact_iff (fun c => fact (fs.dataStore.entry c)) trigger
    (fun label member c typed => ⟨(creates label member).typed typed, ?_⟩) typed
  have here := creates label member
  generalize label.2.1 = q at here ⊢
  cases here with
  | content dataOf =>
      rw [DataStore.entry_dataOf dataOf]
      exact (or_iff_left (content _ dataOf)).symm
  | init dir mode =>
      rw [DataStore.entry_initRequest (typed _)]
      exact init _ dir mode typed
  | add =>
      rw [DataStore.entry_addRequest (typed _)]
      exact add _ typed

/-- A fact about the namespace that creations keep. -/
theorem kept_of_run (fact : Namespace → Prop)
    (init : ∀ (ns : Namespace) (dir : Bool) (mode : FileMode), (∀ p, (ns p).Typed) → fact ns →
      fact (Function.update ns path ((ns path).created dir mode)))
    (add : ∀ ns : Namespace, (∀ p, (ns p).Typed) → fact ns →
      fact (Function.update ns (Filepath.dir path) ((ns (Filepath.dir path)).withChild path)))
    (run : Pool.Run serve pool labels final)
    (creates : ∀ label ∈ labels, fs.Creates path label.2.1) (typed : fs.Typed pool.store)
    (holds : fact (fs.dataStore.entry pool.store)) : fact (fs.dataStore.entry final.store) := by
  refine (run.preserved (fun c => fs.Typed c ∧ fact (fs.dataStore.entry c))
    (fun label member c holds => ⟨(creates label member).typed holds.1, ?_⟩) ⟨typed, holds⟩).2
  obtain ⟨typed, holds⟩ := holds
  have here := creates label member
  generalize label.2.1 = q at here ⊢
  cases here with
  | content dataOf => rwa [DataStore.entry_dataOf dataOf]
  | init dir mode =>
      rw [DataStore.entry_initRequest (typed _)]
      exact init _ dir mode typed holds
  | add =>
      rw [DataStore.entry_addRequest (typed _)]
      exact add _ typed holds

/-- **What exists** after a run in which a path is created. -/
theorem exists_iff_of_run (run : Pool.Run serve pool labels final)
    (creates : ∀ label ∈ labels, fs.Creates path label.2.1) (typed : fs.Typed pool.store)
    (other : Filepath.dir path ≠ path) :
    (fs.dataStore.entry final.store path).exists = true ↔
      (fs.dataStore.entry pool.store path).exists = true ∨
        ∃ label ∈ labels, ∃ dir mode, label.2.1 = fs.dataStore.initRequest path dir mode := by
  refine fact_iff_of_run (fun ns => (ns path).exists = true)
    (fun q => ∃ dir mode, q = fs.dataStore.initRequest path dir mode) ?_ ?_ ?_ run creates typed
  · rintro q dataOf ⟨dir, mode, rfl⟩
    exact not_dataOf_initRequest dataOf
  · intro ns dir mode typed
    rw [Function.update_self]
    exact iff_of_true Entry.exists_created (.inr ⟨dir, mode, rfl⟩)
  · intro ns typed
    rw [Function.update_of_ne (Ne.symm other)]
    refine (or_iff_left ?_).symm
    rintro ⟨dir, mode, same⟩
    exact initRequest_ne_addRequest same.symm

/-- The path is a directory if it has been one, or if one has been made. -/
theorem isDir_iff_of_run (run : Pool.Run serve pool labels final)
    (creates : ∀ label ∈ labels, fs.Creates path label.2.1) (typed : fs.Typed pool.store)
    (other : Filepath.dir path ≠ path) :
    (fs.dataStore.entry final.store path).isDir = true ↔
      (fs.dataStore.entry pool.store path).isDir = true ∨
        ∃ label ∈ labels, ∃ mode, label.2.1 = fs.dataStore.initRequest path true mode := by
  refine fact_iff_of_run (fun ns => (ns path).isDir = true)
    (fun q => ∃ mode, q = fs.dataStore.initRequest path true mode) ?_ ?_ ?_ run creates typed
  · rintro q dataOf ⟨mode, rfl⟩
    exact not_dataOf_initRequest dataOf
  · intro ns dir mode typed
    rw [Function.update_self, Entry.isDir_created, Bool.or_eq_true, or_comm]
    refine or_congr_right ⟨?_, ?_⟩
    · rintro rfl
      exact ⟨mode, rfl⟩
    · rintro ⟨mode', same⟩
      exact initRequest_inj same
  · intro ns typed
    rw [Function.update_of_ne (Ne.symm other)]
    refine (or_iff_left ?_).symm
    rintro ⟨mode, same⟩
    exact initRequest_ne_addRequest same.symm

/-- The directory of the path lists what it has listed, and the path if it has been
added. -/
theorem listed_iff_of_run (run : Pool.Run serve pool labels final)
    (creates : ∀ label ∈ labels, fs.Creates path label.2.1) (typed : fs.Typed pool.store)
    (other : Filepath.dir path ≠ path) (x : GoString) :
    x ∈ (fs.dataStore.entry final.store (Filepath.dir path)).members ↔
      x ∈ (fs.dataStore.entry pool.store (Filepath.dir path)).members ∨
        ∃ label ∈ labels,
          label.2.1 = fs.dataStore.addRequest (Filepath.dir path) path ∧ x = path := by
  refine fact_iff_of_run (fun ns => x ∈ (ns (Filepath.dir path)).members)
    (fun q => q = fs.dataStore.addRequest (Filepath.dir path) path ∧ x = path) ?_ ?_ ?_
    run creates typed
  · rintro q dataOf ⟨rfl, -⟩
    exact not_dataOf_addRequest dataOf
  · intro ns dir mode typed
    rw [Function.update_of_ne other]
    refine (or_iff_left ?_).symm
    rintro ⟨same, -⟩
    exact initRequest_ne_addRequest same
  · intro ns typed
    rw [Function.update_self, (typed _).mem_withChild]
    simp

/-- The directory of the path exists if and only if it has existed. -/
theorem exists_dir_of_run (run : Pool.Run serve pool labels final)
    (creates : ∀ label ∈ labels, fs.Creates path label.2.1) (typed : fs.Typed pool.store)
    (other : Filepath.dir path ≠ path) :
    (fs.dataStore.entry final.store (Filepath.dir path)).exists = true ↔
      (fs.dataStore.entry pool.store (Filepath.dir path)).exists = true := by
  have fact := fact_iff_of_run (fun ns => (ns (Filepath.dir path)).exists = true)
    (fun _ => False) (fun _ _ => id) ?_ ?_ run creates typed
  · simpa using fact
  · intro ns dir mode typed
    rw [Function.update_of_ne other, or_false]
  · intro ns typed
    rw [Function.update_self, Entry.exists_withChild, or_false]

/-- What is a directory stays one. -/
theorem isDir_dir_of_run (run : Pool.Run serve pool labels final)
    (creates : ∀ label ∈ labels, fs.Creates path label.2.1) (typed : fs.Typed pool.store)
    (other : Filepath.dir path ≠ path)
    (isDir : (fs.dataStore.entry pool.store (Filepath.dir path)).isDir = true) :
    (fs.dataStore.entry final.store (Filepath.dir path)).isDir = true := by
  refine kept_of_run (fun ns => (ns (Filepath.dir path)).isDir = true) ?_ ?_ run creates typed
    isDir
  · intro ns dir mode typed isDir
    rwa [Function.update_of_ne other]
  · intro ns typed isDir
    rw [Function.update_self]
    exact Entry.isDir_withChild

/-- The directory of the path is there at any time. -/
theorem exists_reply_dir (run : Pool.Run serve pool labels final)
    (creates : ∀ label ∈ labels, fs.Creates path label.2.1) (typed : fs.Typed pool.store)
    (other : Filepath.dir path ≠ path)
    (parent : (fs.dataStore.entry pool.store (Filepath.dir path)).exists = true) {i : ι} :
    (i, fs.dataStore.existsRequest (Filepath.dir path), .server (.int 0)) ∉ labels := by
  intro asked
  obtain ⟨before, after, rfl⟩ := List.append_of_mem asked
  obtain ⟨middle, rest, early, late, replied, -⟩ := run.split
  have present := (exists_dir_of_run early (fun label member => creates label (by simp [member]))
    typed other).mpr parent
  simp [DataStore.serve_existsRequest, present] at replied

/-- And it is a directory at any time. -/
theorem isDir_reply_dir (run : Pool.Run serve pool labels final)
    (creates : ∀ label ∈ labels, fs.Creates path label.2.1) (typed : fs.Typed pool.store)
    (other : Filepath.dir path ≠ path)
    (parent : (fs.dataStore.entry pool.store (Filepath.dir path)).isDir = true) {i : ι} :
    (i, fs.dataStore.isDirRequest (Filepath.dir path), .server (.int 0)) ∉ labels := by
  intro asked
  obtain ⟨before, after, rfl⟩ := List.append_of_mem asked
  obtain ⟨middle, rest, early, late, replied, -⟩ := run.split
  have isDir := isDir_dir_of_run early (fun label member => creates label (by simp [member]))
    typed other parent
  simp [DataStore.serve_isDirRequest, isDir] at replied

/-- Whether the path exists is answered according to what has been done before. -/
theorem exists_reply {before after : List (ι × Request × ConnReply)} {i : ι} {reply : ConnReply}
    (run : Pool.Run serve pool
      (before ++ (i, fs.dataStore.existsRequest path, reply) :: after) final)
    (creates : ∀ label ∈ before, fs.Creates path label.2.1) (typed : fs.Typed pool.store)
    (other : Filepath.dir path ≠ path) :
    ∃ n, reply = .server (.int n) ∧
      (n ≠ 0 ↔ (fs.dataStore.entry pool.store path).exists = true ∨
        ∃ label ∈ before, ∃ dir mode, label.2.1 = fs.dataStore.initRequest path dir mode) := by
  obtain ⟨middle, rest, early, late, replied, -⟩ := run.split
  simp only [DataStore.serve_existsRequest] at replied
  refine ⟨_, replied, Iff.trans ?_ (exists_iff_of_run early creates typed other)⟩
  cases (fs.dataStore.entry middle.store path).exists <;> simp

/-- The same for whether it is a directory. -/
theorem isDir_reply {before after : List (ι × Request × ConnReply)} {i : ι} {reply : ConnReply}
    (run : Pool.Run serve pool
      (before ++ (i, fs.dataStore.isDirRequest path, reply) :: after) final)
    (creates : ∀ label ∈ before, fs.Creates path label.2.1) (typed : fs.Typed pool.store)
    (other : Filepath.dir path ≠ path) :
    ∃ n, reply = .server (.int n) ∧
      (n ≠ 0 ↔ (fs.dataStore.entry pool.store path).isDir = true ∨
        ∃ label ∈ before, ∃ mode, label.2.1 = fs.dataStore.initRequest path true mode) := by
  obtain ⟨middle, rest, early, late, replied, -⟩ := run.split
  simp only [DataStore.serve_isDirRequest] at replied
  refine ⟨_, replied, Iff.trans ?_ (isDir_iff_of_run early creates typed other)⟩
  cases (fs.dataStore.entry middle.store path).isDir <;> simp

/-! ## Clients that make one call -/

/-- A client that makes one call.  It has a memory and a working directory of its
own. -/
structure Caller where
  inodes : Inodes
  cwd : Filepath.WorkingDir
  op : Op

/-- The call. -/
def Caller.program (fs : RedisFS) (k : Caller) : Prog Result := fs.answer k.inodes k.cwd k.op

/-- The state of all clients before their first request. -/
abbrev startOf (fs : RedisFS) (c : Cluster) (clients : ι → Caller) :
    Pool ι Request ConnReply Result Cluster :=
  ⟨c, fun i => (clients i).program fs⟩

/-- What a call has sent is what its operation has sent. -/
theorem trace_answer_openFile {flag : Flags} {perm : FileMode} {result : Result}
    (performed : Program.Trace (fs.answer inodes cwd (.openFile name flag perm)) first
      (.ret result)) :
    ∃ returned, Program.Trace (fs.openFile inodes cwd name flag perm) first (.ret returned) ∧
      result = .ofExcept .handle returned.2 := by
  obtain ⟨⟨inodes', result'⟩, called, rest, rfl, calling, returning⟩ := performed.of_bind_ret
  obtain ⟨rfl, same⟩ := returning.of_ret
  obtain rfl := Program.ret.inj same
  obtain ⟨returned, made, rest, rfl, making, returning⟩ := calling.of_bind_ret
  obtain ⟨rfl, same⟩ := returning.of_ret
  refine ⟨returned, by simpa using making, ?_⟩
  exact (Prod.ext_iff.mp (Program.ret.inj same)).2

/-- The same for `Mkdir`. -/
theorem trace_answer_mkdir {perm : FileMode} {result : Result}
    (performed : Program.Trace (fs.answer inodes cwd (.mkdir name perm)) first (.ret result)) :
    ∃ returned, Program.Trace (fs.mkdir inodes cwd name perm) first (.ret returned) ∧
      result = .ofOption returned.2 := by
  obtain ⟨⟨inodes', result'⟩, called, rest, rfl, calling, returning⟩ := performed.of_bind_ret
  obtain ⟨rfl, same⟩ := returning.of_ret
  obtain rfl := Program.ret.inj same
  obtain ⟨returned, made, rest, rfl, making, returning⟩ := calling.of_bind_ret
  obtain ⟨rfl, same⟩ := returning.of_ret
  refine ⟨returned, by simpa using making, ?_⟩
  exact (Prod.ext_iff.mp (Program.ret.inj same)).2

/-- What the clients have left in the store, and what they have returned, when they
have taken their turns as scheduled.  It can be computed, and is used for the
schedules in which something goes wrong. -/
def returnedAfter (fs : RedisFS) (c : Cluster) (clients : ι → Caller) (schedule : List ι) :
    Option (Cluster × (ι → Option Result)) :=
  (Pool.play serve schedule (startOf fs c clients)).map fun played =>
    (played.2.store, fun i =>
      match played.2.threads i with
      | .ret result => some result
      | _ => none)

/-- What has been computed is the end of a run. -/
theorem exists_run_of_returned {c : Cluster} {clients : ι → Caller} {schedule : List ι}
    {left : Cluster × (ι → Option Result)}
    (played : returnedAfter fs c clients schedule = some left) :
    ∃ labels final, Pool.Run serve (startOf fs c clients) labels final ∧
      labels.map Prod.fst = schedule ∧ final.store = left.1 ∧
      ∀ i result, left.2 i = some result → final.threads i = .ret result := by
  obtain ⟨⟨labels, final⟩, done, rfl⟩ := Option.map_eq_some_iff.mp played
  refine ⟨labels, final, Pool.run_of_play done, Pool.turns_of_play done, rfl,
    fun i result same => ?_⟩
  simp only at same
  split at same
  · rename_i result' ended
    rw [ended, Option.some.inj same]
  · simp at same

/-- The store with an empty directory. -/
def small.withDir : Cluster :=
  (run (small.call small.rootOnly small.home (.mkdir ['/', 'd'] 0)) small.start.1).1

end RedisFS

end Pdwfs
