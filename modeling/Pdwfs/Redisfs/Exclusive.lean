import Pdwfs.Redisfs.Creations

/-!
# Exclusive creation

Several clients create one path, each by a call that fails if the path exists.
Whether it exists is one request, and to create it is another.

* `Exclusive`, `Contest` — these calls, and the clients that make them.
* `Sole` — one of the calls succeeds, and the others find that the path exists.
* `Passes` — a client has asked for the path before anybody has created it.
* `sole_iff_of_run` — one call succeeds if and only if one client passes.

## A check and an act

A client that asks for the path before anybody has created it goes on to create it,
and there is nothing in the second request that depends on the first.  `SETNX`
leaves the mode as it is if there is one, and does not tell.  So each client that
passes succeeds, and whether there is exactly one of them is a matter of the order
of the requests.

The condition of `sole_iff_of_run` is read off a schedule.  That it is exact also
means that it has to cover what goes wrong in other ways: a client that remembers
the directory as a file fails without a request, and one that opens a file is
refused if it finds a set of children under the path, which a `Mkdir` of another
client or the remainder of a directory can have put there.

## Verdicts

The proof collects what is known about one client in `Verdict`, from the trace of
its call and the answers it got.  There are three cases, and which of them it is
depends on the order.  The theorem then compares the verdicts of all clients.
-/

namespace Pdwfs

open Concurrency Redis

/-- Whether the call has failed because the path exists. -/
def Result.isExist : Result → Bool
  | .error (.pathError _ _ .exist) => true
  | _ => false

theorem isError_of_isExist {result : Result} (isExist : result.isExist = true) :
    result.isError = true := by
  cases result with
  | error err => rfl
  | _ => simp [Result.isExist] at isExist

/-- Whether the operation creates a directory. -/
def Op.isMkdir : Op → Bool
  | .mkdir _ _ => true
  | _ => false

namespace RedisFS

/-- A call that creates the path, and fails if it exists.  Clients may mix the two
kinds. -/
inductive Exclusive (path : GoString) (cwd : Filepath.WorkingDir) : Op → Prop
  | mkdir {name : GoString} (here : Filepath.abs cwd name = path) (perm : FileMode) :
      Exclusive path cwd (.mkdir name perm)
  | openFile {name : GoString} {flag : Flags} (here : Filepath.abs cwd name = path)
      (flags : hasFlag (oCREATE ||| oEXCL) flag = true) (perm : FileMode) :
      Exclusive path cwd (.openFile name flag perm)

variable {fs : RedisFS} {path : GoString} {c : Cluster} {k : Caller} {first : Sent}
  {result : Result}

/-! ## One client -/

/-- The calls are not aborted, so that each client gets an answer. -/
theorem safe_exclusive (exclusive : Exclusive path k.cwd k.op) :
    Program.Safe serve fs.Intact False (fun _ => True) (k.program fs) := by
  obtain ⟨inodes, cwd, op⟩ := k
  cases exclusive with
  | mkdir here perm =>
      exact (safe_mkdir.bind fun _ _ => trivial : Program.Safe serve fs.Intact False
        (fun _ => True) (fs.call inodes cwd (.mkdir _ perm))).bind fun _ _ => trivial
  | openFile here flags perm =>
      exact (safe_openFile.bind fun _ _ => trivial : Program.Safe serve fs.Intact False
        (fun _ => True) (fs.call inodes cwd (.openFile _ _ perm))).bind fun _ _ => trivial

/-- They send nothing but requests that create the path. -/
theorem creates_exclusive (exclusive : Exclusive path k.cwd k.op) :
    Program.Issues (fs.Creates path) (k.program fs) := by
  obtain ⟨inodes, cwd, op⟩ := k
  cases exclusive with
  | mkdir here perm =>
      obtain rfl := here
      exact (creates_mkdir.bind fun _ => trivial : Program.Issues (fs.Creates _)
        (fs.call inodes cwd (.mkdir _ perm))).bind fun _ => trivial
  | openFile here flags perm =>
      obtain rfl := here
      exact (creates_openFile.bind fun _ => trivial : Program.Issues (fs.Creates _)
        (fs.call inodes cwd (.openFile _ _ perm))).bind fun _ => trivial

/-- What a client has sent, and what its call has returned. -/
theorem trace_exclusive (exclusive : Exclusive path k.cwd k.op) (inside : fs.mountPath <+: path)
    (notRoot : path ≠ fs.mountPath)
    (performed : Program.Trace (k.program fs) first (.ret result)) :
    ∃ looked rest info, first = looked ++ rest ∧ (∀ entry ∈ looked, entry.1.writes = []) ∧
      fs.Looked k.inodes path looked info ∧
      match info with
      | .error err => rest = [] ∧ ∃ op name, result = .error (.pathError op name err)
      | .ok (_, some _) => rest = [] ∧ result.isExist = true
      | .ok (_, none) => result.isExist = false ∧ ∃ mode r last,
          rest = (fs.dataStore.initRequest path k.op.isMkdir mode, r) :: last ∧
            (∀ entry ∈ last, ∀ dir mode', entry.1 ≠ fs.dataStore.initRequest path dir mode') ∧
            if k.op.isMkdir then result.isError = false
            else ∃ n, (fs.dataStore.isDirRequest path, .server (.int n)) ∈ last ∧
              (result.isError = false ↔ n = 0) := by
  obtain ⟨inodes, cwd, op⟩ := k
  cases exclusive with
  | mkdir here perm =>
      obtain rfl := here
      obtain ⟨returned, making, rfl⟩ := trace_answer_mkdir performed
      obtain ⟨looked, rest, info, rfl, reads, found, outcome⟩ :=
        trace_mkdir (if_pos inside) notRoot making
      refine ⟨looked, rest, info, rfl, reads, found, ?_⟩
      cases found with
      | noParent =>
          obtain ⟨rfl, same⟩ := outcome
          exact ⟨rfl, _, _, by rw [same]; rfl⟩
      | cached =>
          obtain ⟨rfl, same⟩ := outcome
          exact ⟨rfl, by rw [same]; rfl⟩
      | present =>
          obtain ⟨rfl, same⟩ := outcome
          exact ⟨rfl, by rw [same]; rfl⟩
      | absent =>
          obtain ⟨same, r, r', rfl⟩ := outcome
          rw [same]
          -- The only other request records the path in its directory.
          refine ⟨rfl, perm, r, _, rfl, fun entry member dir mode same => ?_, rfl⟩
          obtain rfl := List.mem_singleton.mp member
          exact initRequest_ne_addRequest same.symm
  | @openFile name flag here flags perm =>
      obtain rfl := here
      obtain ⟨returned, making, rfl⟩ := trace_answer_openFile performed
      obtain ⟨looked, rest, info, rfl, reads, found, outcome⟩ :=
        trace_openFile (hasFlag_of_hasFlag (by decide) flags) (if_pos inside) notRoot making
      refine ⟨looked, rest, info, rfl, reads, found, ?_⟩
      cases found with
      | noParent =>
          obtain ⟨rfl, same⟩ := outcome
          exact ⟨rfl, _, _, by rw [same]; rfl⟩
      | cached =>
          simp only [if_pos flags] at outcome
          obtain ⟨rfl, same⟩ := outcome
          exact ⟨rfl, by rw [same]; rfl⟩
      | present =>
          simp only [if_pos flags] at outcome
          obtain ⟨rfl, same⟩ := outcome
          exact ⟨rfl, by rw [same]; rfl⟩
      | absent =>
          obtain ⟨r, r', last, dir, rfl, content, answered, outcome⟩ := outcome
          -- Behind the creation the file is recorded and opened: neither creates
          -- anything.
          have others : ∀ entry ∈ (fs.dataStore.addRequest (Filepath.dir (Filepath.abs cwd name))
              (Filepath.abs cwd name), r') :: last, ∀ dir mode',
              entry.1 ≠ fs.dataStore.initRequest (Filepath.abs cwd name) dir mode' := by
            rintro entry member dir mode same
            rcases List.mem_cons.mp member with rfl | member
            · exact initRequest_ne_addRequest same.symm
            · exact not_dataOf_initRequest (same ▸ content entry member)
          rcases answered with known | ⟨-, n, asked, rfl⟩
          · simp at known
          -- The new file is opened, unless there are children left over from a directory
          -- of the same name.
          · by_cases zero : n = 0
            · subst zero
              obtain ⟨f, same⟩ := outcome
              rw [same]
              exact ⟨rfl, perm, r, _, rfl, others, 0, by simp [asked],
                by simp [Result.ofExcept, Result.isError]⟩
            · simp only [ne_eq, zero, not_false_eq_true, decide_true, ite_true] at outcome
              rw [outcome]
              exact ⟨rfl, perm, r, _, rfl, others, n, by simp [asked],
                by simp [Result.ofExcept, Result.isError, zero]⟩

/-! ## Any number of clients -/

variable {ι : Type} {clients : ι → Caller}

/-- Clients that create a path which does not exist yet, in a directory that exists.
What they have in memory is not restricted. -/
structure Contest (fs : RedisFS) (path : GoString) (c : Cluster) (clients : ι → Caller) :
    Prop where
  intact : fs.Intact c
  inside : fs.mountPath <+: path
  notRoot : path ≠ fs.mountPath
  absent : (fs.dataStore.entry c path).exists = false
  parent : (fs.dataStore.entry c (Filepath.dir path)).exists = true
  isDir : (fs.dataStore.entry c (Filepath.dir path)).isDir = true
  exclusive : ∀ i, Exclusive path (clients i).cwd (clients i).op

/-- One call has succeeded, and each other one has returned that the path exists.
This is what `O_EXCL` promises. -/
def Sole (threads : ι → Prog Result) : Prop :=
  ∃ i result, threads i = .ret result ∧ result.isError = false ∧
    ∀ j, j ≠ i → ∃ result', threads j = .ret result' ∧ result'.isExist = true

/-- Client `i` asks for the path before anybody creates it. -/
def Passes (fs : RedisFS) (path : GoString) (labels : List (ι × Request × ConnReply)) (i : ι) :
    Prop :=
  ∃ before reply after, labels = before ++ (i, fs.dataStore.existsRequest path, reply) :: after ∧
    ∀ label ∈ before, ∀ dir mode, label.2.1 ≠ fs.dataStore.initRequest path dir mode

theorem Exclusive.isClean {cwd : Filepath.WorkingDir} {op : Op}
    (exclusive : Exclusive path cwd op) : Filepath.IsCleanAbs path := by
  cases exclusive with
  | mkdir here perm => exact here ▸ Filepath.isCleanAbs_abs cwd.2 _
  | openFile here flags perm => exact here ▸ Filepath.isCleanAbs_abs cwd.2 _

variable {final : Pool ι Request ConnReply Result Cluster}
  {labels : List (ι × Request × ConnReply)}

namespace Contest

theorem other (contest : fs.Contest path c clients) (i : ι) : Filepath.dir path ≠ path :=
  Filepath.dir_ne_self fs.cleanMount (contest.exclusive i).isClean contest.inside contest.notRoot

variable [DecidableEq ι]

theorem creates (contest : fs.Contest path c clients)
    (run : Pool.Run serve (startOf fs c clients) labels final) :
    ∀ label ∈ labels, fs.Creates path label.2.1 :=
  run.issued (fun _ => fs.Creates path) fun i => creates_exclusive (contest.exclusive i)

/-- Every call returns. -/
theorem returns (contest : fs.Contest path c clients)
    (run : Pool.Run serve (startOf fs c clients) labels final) {i : ι}
    (finished : (final.threads i).Stopped) : ∃ result, final.threads i = .ret result := by
  have safe : ∀ i, Program.Safe serve fs.Intact False (fun _ => True)
      ((startOf fs c clients).threads i) := fun i => safe_exclusive (contest.exclusive i)
  obtain ⟨result, returned, -⟩ := ((run.safe safe contest.intact).2 i).of_stopped finished
  exact ⟨result, returned⟩

/-- Whether the path exists is answered according to who has created it before. -/
theorem exists_reply (contest : fs.Contest path c clients) {before after : List _} {i : ι}
    {reply : ConnReply} (run : Pool.Run serve (startOf fs c clients)
      (before ++ (i, fs.dataStore.existsRequest path, reply) :: after) final) :
    ∃ n, reply = .server (.int n) ∧ (n ≠ 0 ↔
      ∃ label ∈ before, ∃ dir mode, label.2.1 = fs.dataStore.initRequest path dir mode) := by
  obtain ⟨n, same, iff⟩ := RedisFS.exists_reply run
    (fun label member => contest.creates run label (by simp [member])) contest.intact.2.typed
    (contest.other i)
  exact ⟨n, same, iff.trans (by simp [contest.absent])⟩

/-- What has become of the call of one client. -/
inductive Verdict (fs : RedisFS) (path : GoString) (labels : List (ι × Request × ConnReply))
    (k : Caller) (i : ι) (result : Result) : Prop
  /-- The client does not know the directory as one. -/
  | noParent (parent : Inode) (held : k.inodes.get (Filepath.dir path) = some parent)
      (notDir : parent.isDir? = some false) (other : result.isExist = false)
      (failed : result.isError = true)
  /-- The client has found that the path exists. -/
  | found (parent : ∀ parent, k.inodes.get (Filepath.dir path) = some parent →
        parent.isDir? ≠ some false)
      (late : ¬fs.Passes path labels i) (isExist : result.isExist = true)
      (reads : ∀ entry ∈ Pool.ownOf labels i, entry.1.writes = [])
  /-- The client has created the path. -/
  | made (parent : ∀ parent, k.inodes.get (Filepath.dir path) = some parent →
        parent.isDir? ≠ some false)
      (passes : fs.Passes path labels i) (other : result.isExist = false)
      (init : ∀ entry ∈ Pool.ownOf labels i, ∀ dir mode,
        entry.1 = fs.dataStore.initRequest path dir mode → dir = k.op.isMkdir)
      (outcome : if k.op.isMkdir then result.isError = false
        else ∃ n, (fs.dataStore.isDirRequest path, .server (.int n)) ∈ Pool.ownOf labels i ∧
          (result.isError = false ↔ n = 0))

/-- **One client.**  It has come to one of the three. -/
theorem verdict (contest : fs.Contest path c clients)
    (run : Pool.Run serve (startOf fs c clients) labels final) {i : ι}
    (returned : final.threads i = .ret result) :
    Verdict fs path labels (clients i) i result := by
  have performed := run.trace i
  rw [returned] at performed
  obtain ⟨looked, rest, info, own, reads, looks, outcome⟩ :=
    trace_exclusive (contest.exclusive i) contest.inside contest.notRoot performed
  change Pool.ownOf labels i = looked ++ rest at own
  -- A client whose only request for the path has found it does not pass.
  have late : ∀ {before : Sent} {parent : Inode} {n : ℤ},
      fs.Entered (clients i).inodes path before parent → n ≠ 0 →
      (Pool.ownOf labels i = before ∨ Pool.ownOf labels i =
        before ++ [(fs.dataStore.existsRequest path, .server (.int n))]) →
      ¬fs.Passes path labels i := by
    rintro before parent n entered nonzero sent ⟨early, reply, after, rfl, nobody⟩
    have asked : (fs.dataStore.existsRequest path, reply) ∈
        Pool.ownOf (early ++ (i, fs.dataStore.existsRequest path, reply) :: after) i := by
      simp [Pool.ownOf]
    obtain ⟨n', rfl, iff⟩ := contest.exists_reply run
    rcases sent with same | same
    · exact entered.others _ (same ▸ asked) rfl
    · rw [same, List.mem_append, List.mem_singleton] at asked
      rcases asked with here | here
      · exact entered.others _ here rfl
      · obtain rfl : n' = n := by simpa using here
        obtain ⟨label, member, dir, mode, created⟩ := iff.mp nonzero
        exact nobody label member dir mode created
  cases looks with
  | noParent why others =>
      obtain ⟨rfl, op, name, rfl⟩ := outcome
      rw [List.append_nil] at own
      -- There is no directory: only the memory of the client can say so, for Redis holds
      -- it in all the run.
      rcases why with ⟨parent, held, notDir⟩ | asked | asked
      · exact .noParent parent held notDir rfl rfl
      · exact absurd (Pool.mem_of_mem_own (own ▸ asked)) (exists_reply_dir run
          (contest.creates run) contest.intact.2.typed (contest.other i) contest.parent)
      · exact absurd (Pool.mem_of_mem_own (own ▸ asked)) (isDir_reply_dir run
          (contest.creates run) contest.intact.2.typed (contest.other i) contest.isDir)
  | cached entered held =>
      obtain ⟨rfl, isExist⟩ := outcome
      rw [List.append_nil] at own
      exact .found entered.isDir (late entered one_ne_zero (.inl own)) isExist (own ▸ reads)
  | present entered new nonzero =>
      obtain ⟨rfl, isExist⟩ := outcome
      rw [List.append_nil] at own
      exact .found entered.isDir (late entered nonzero (.inr own)) isExist (own ▸ reads)
  | absent entered new =>
      obtain ⟨other, mode, r, last, rfl, others, outcome⟩ := outcome
      refine .made entered.isDir ?_ other ?_ ?_
      -- When the client asked, nobody had created the path, since it was told so.
      · rw [List.append_assoc, List.singleton_append] at own
        obtain ⟨early, after, rfl, -, -⟩ := Pool.exists_split_of_own own
        refine ⟨early, _, after, rfl, fun label member dir mode created => ?_⟩
        obtain ⟨n, same, iff⟩ := contest.exists_reply run
        obtain rfl : n = 0 := by simpa using same.symm
        exact iff.mpr ⟨label, member, dir, mode, created⟩ rfl
      -- What the client creates is what its call creates: the lookup and the rest create
      -- nothing.
      · intro entry member dir mode' created
        rw [own, List.mem_append, List.mem_cons] at member
        rcases member with asked | rfl | later
        · have kept := reads entry asked
          rw [created] at kept
          exact absurd (dataOf_of_readOnly kept path) not_dataOf_initRequest
        · exact (initRequest_inj created).symm
        · exact absurd created (others entry later dir mode')
      · split at outcome
        · rename_i isMkdir
          rwa [if_pos isMkdir]
        · rename_i isOpen
          obtain ⟨n, asked, iff⟩ := outcome
          rw [if_neg isOpen]
          exact ⟨n, by simp [own, asked], iff⟩

/-- Whether a path that is opened is taken for a directory. -/
theorem isDir_reply (contest : fs.Contest path c clients)
    (run : Pool.Run serve (startOf fs c clients) labels final) {i : ι} {n : ℤ}
    (asked : (fs.dataStore.isDirRequest path, .server (.int n)) ∈ Pool.ownOf labels i) :
    (n ≠ 0 → (fs.dataStore.entry c path).isDir = true ∨
      ∃ label ∈ labels, ∃ mode, label.2.1 = fs.dataStore.initRequest path true mode) ∧
    ((fs.dataStore.entry c path).isDir = true → n ≠ 0) := by
  obtain ⟨before, after, rfl⟩ := List.append_of_mem (Pool.mem_of_mem_own asked)
  obtain ⟨n', same, iff⟩ := RedisFS.isDir_reply run
    (fun label member => contest.creates run label (by simp [member])) contest.intact.2.typed
    (contest.other i)
  obtain rfl : n = n' := by simpa using same
  refine ⟨fun nonzero => (iff.mp nonzero).imp_right ?_, fun isDir => iff.mpr (.inl isDir)⟩
  rintro ⟨label, member, created⟩
  exact ⟨label, by simp [member], created⟩

end Contest

variable [DecidableEq ι]

/-- **Exclusive creation.**  When all calls have returned, one of them has succeeded
and all others have found that the path exists, if and only if no client holds the
directory for something else, one client asks for the path before anybody creates
it, and this client makes a directory or the path is not the remainder of one.  What
a client returns is determined by the order of three kinds of requests, those that
ask for the path, those that create it and those that ask whether it is a directory;
the run may be any that ends with all calls returned. -/
theorem sole_iff_of_run (contest : fs.Contest path c clients)
    (run : Pool.Run serve (startOf fs c clients) labels final)
    (finished : ∀ i, (final.threads i).Stopped) :
    Sole final.threads ↔
      (∀ i parent, (clients i).inodes.get (Filepath.dir path) = some parent →
        parent.isDir? ≠ some false) ∧
      ∃ i, fs.Passes path labels i ∧ (∀ j, fs.Passes path labels j → j = i) ∧
        ((clients i).op.isMkdir = true ∨ (fs.dataStore.entry c path).isDir = false) := by
  constructor
  · rintro ⟨i, result, returned, success, others⟩
    have mine := contest.verdict run returned
    -- The verdicts of the clients say the rest: who succeeds has passed, and who fails
    -- with `ErrExist` has not.
    refine ⟨fun j => ?_, i, ?_, fun j passes => ?_, ?_⟩
    · by_cases same : j = i
      · subst same
        cases mine with
        | noParent _ _ _ _ failed => simp [failed] at success
        | found parent => exact parent
        | made parent => exact parent
      · obtain ⟨result', returned', isExist⟩ := others j same
        cases contest.verdict run returned' with
        | noParent _ _ _ other => simp [other] at isExist
        | found parent => exact parent
        | made parent => exact parent
    · cases mine with
      | noParent _ _ _ _ failed => simp [failed] at success
      | found _ _ isExist => simp [isError_of_isExist isExist] at success
      | made _ passes => exact passes
    · by_contra other
      obtain ⟨result', returned', isExist⟩ := others j other
      cases contest.verdict run returned' with
      | noParent _ _ _ other => simp [other] at isExist
      | found _ late => exact late passes
      | made _ _ other => simp [other] at isExist
    · cases mine with
      | noParent _ _ _ _ failed => simp [failed] at success
      | found _ _ isExist => simp [isError_of_isExist isExist] at success
      | made _ _ _ _ outcome =>
          split at outcome
          · exact .inl ‹_›
          · obtain ⟨n, asked, iff⟩ := outcome
            obtain rfl := iff.mp success
            refine .inr ?_
            by_contra isDir
            exact (contest.isDir_reply run asked).2 (by simpa using isDir) rfl
  · rintro ⟨parents, i, passes, only, kind⟩
    obtain ⟨result, returned⟩ := contest.returns run (finished i)
    refine ⟨i, result, returned, ?_, fun j other => ?_⟩
    -- The one that passes succeeds, if it makes a directory or there are no children left
    -- over.
    · cases contest.verdict run returned with
      | noParent parent held notDir => exact absurd notDir (parents i parent held)
      | found _ late => exact absurd passes late
      | made _ _ _ init outcome =>
          split at outcome
          · exact outcome
          · rename_i isOpen
            obtain ⟨n, asked, iff⟩ := outcome
            apply iff.mpr
            by_contra nonzero
            rcases (contest.isDir_reply run asked).1 nonzero with
              before | ⟨label, member, mode, made⟩
            · simp [kind.resolve_left isOpen] at before
            · -- Nobody else creates anything, and this client does not make a directory.
              obtain ⟨result', returned'⟩ := contest.returns run (finished label.1)
              have own : label.2 ∈ Pool.ownOf labels label.1 := by
                refine List.mem_map.mpr ⟨label, List.mem_filter.mpr ⟨member, by simp⟩, rfl⟩
              cases contest.verdict run returned' with
              | noParent parent held notDir => exact absurd notDir (parents _ parent held)
              | found _ _ _ reads =>
                  have kept := reads _ own
                  rw [made] at kept
                  exact not_dataOf_initRequest (dataOf_of_readOnly kept path)
              | made _ passes' _ init' =>
                  have same := only _ passes'
                  rw [same] at own
                  exact isOpen (init _ own _ _ made).symm
    -- The others have not passed, so they have found the path.
    · obtain ⟨result', returned'⟩ := contest.returns run (finished j)
      refine ⟨result', returned', ?_⟩
      cases contest.verdict run returned' with
      | noParent parent held notDir => exact absurd notDir (parents j parent held)
      | found _ _ isExist => exact isExist
      | made _ passes' => exact absurd (only j passes') other

/-! ## Two clients on a small store -/

/-- Both clients create the same directory. -/
def small.mkdirs (_ : Bool) : Caller := ⟨small.rootOnly, small.home, .mkdir ['/', 'd'] 0⟩

/-- The directory does not exist yet, and the root does. -/
theorem small.contest_mkdirs : small.Contest ['/', 'd'] small.start.1 small.mkdirs where
  intact := small.intact_start
  inside := by decide
  notRoot := by decide
  absent := by decide +kernel
  parent := by decide +kernel
  isDir := by decide +kernel
  exclusive _ := .mkdir (show Filepath.abs small.home ['/', 'd'] = ['/', 'd'] by decide) 0

/-- One client makes its call before the other. -/
theorem small.mkdirs_inTurn : (small.returnedAfter small.start.1 small.mkdirs
    [false, false, false, false, true, true]).any fun left =>
      (left.2 false).any (!·.isError) && (left.2 true).any (·.isExist) := by
  decide +kernel

/-- Both look first. -/
theorem small.mkdirs_together : (small.returnedAfter small.start.1 small.mkdirs
    [false, true, false, true, false, true, false, true]).any fun left =>
      (left.2 false).any (!·.isError) && (left.2 true).any (!·.isError) := by
  decide +kernel

/-- One client after the other: the second finds the directory. -/
theorem sole_mkdirs_inTurn : ∃ labels final,
    Pool.Run serve (startOf small small.start.1 small.mkdirs) labels final ∧
    Sole final.threads ∧ ∃ i, small.Passes ['/', 'd'] labels i ∧
      ∀ j, small.Passes ['/', 'd'] labels j → j = i := by
  obtain ⟨left, played, done⟩ := (Option.any_eq_true _ _).mp small.mkdirs_inTurn
  obtain ⟨labels, final, run, -, -, same⟩ := exists_run_of_returned played
  rw [Bool.and_eq_true, Option.any_eq_true, Option.any_eq_true] at done
  obtain ⟨⟨first, returned₁, success⟩, second, returned₂, isExist⟩ := done
  have sole : Sole final.threads := by
    refine ⟨false, first, same _ _ returned₁, by simpa using success, fun j other => ?_⟩
    obtain rfl : j = true := by simpa using other
    exact ⟨second, same _ _ returned₂, isExist⟩
  have finished : ∀ i, (final.threads i).Stopped := by
    rintro (_ | _)
    · rw [same _ _ returned₁]
      exact Program.stopped_ret _
    · rw [same _ _ returned₂]
      exact Program.stopped_ret _
  obtain ⟨-, i, passes, only, -⟩ :=
    (sole_iff_of_run small.contest_mkdirs run finished).mp sole
  exact ⟨labels, final, run, sole, i, passes, only⟩

/-- Both clients ask for the directory first, then both of them create it and succeed. -/
theorem not_sole_mkdirs_together : small.Contest ['/', 'd'] small.start.1 small.mkdirs ∧
    ∃ labels final, Pool.Run serve (startOf small small.start.1 small.mkdirs) labels final ∧
    (∀ i, ∃ result, final.threads i = .ret result ∧ result.isError = false) ∧
    ¬Sole final.threads := by
  obtain ⟨left, played, done⟩ := (Option.any_eq_true _ _).mp small.mkdirs_together
  obtain ⟨labels, final, run, -, -, same⟩ := exists_run_of_returned played
  rw [Bool.and_eq_true, Option.any_eq_true, Option.any_eq_true] at done
  obtain ⟨⟨first, returned₁, success₁⟩, second, returned₂, success₂⟩ := done
  have success : ∀ i, ∃ result, final.threads i = .ret result ∧ result.isError = false := by
    rintro (_ | _)
    · exact ⟨first, same _ _ returned₁, by simpa using success₁⟩
    · exact ⟨second, same _ _ returned₂, by simpa using success₂⟩
  refine ⟨small.contest_mkdirs, labels, final, run, success, ?_⟩
  rintro ⟨i, -, -, -, others⟩
  obtain ⟨result, ended, isExist⟩ := others (!i) (by simp)
  obtain ⟨result', ended', succeeds⟩ := success (!i)
  rw [ended] at ended'
  obtain rfl := Program.ret.inj ended'
  simp [isError_of_isExist isExist] at succeeds

end RedisFS

end Pdwfs
