import Pdwfs.Redisfs.Creations

/-!
# Collective opening

Several clients open one path with `O_CREATE`, and whoever comes first creates it.  A client
may find the path between the request that creates it and the one that records it in its
directory.

The metadata of a path is two keys, and they are created and looked at apart: `exists` asks for
the mode, `IsDir` for the set of children.  A creation writes the mode only if there is none, so
all clients agree on the first mode.  Nothing removes a set of children that is found under a
path without a mode, so the clients also agree on such a left-over, and all of them take the file
that they have just created for a directory.  This is why the set of children has to be absent,
and why nothing else is asked of the path (`gathered_iff_of_run`).

* `Joins`, `Gathering` — these calls, and the clients that make them.
* `JoinRequest` — what such a call sends; none of it is content.
* `Gathering.opened` — one client among the others.
* `Gathered`, `gathered_iff_of_run` — what holds when all calls have returned, in whatever order
  the requests have been executed, and when it does.
* `small.leavers` — three calls that leave a set of children behind.
-/

namespace Pdwfs

open Concurrency Redis

namespace RedisFS

/-- A call that opens the path and creates it if it does not exist.  It keeps what
is in the file. -/
inductive Joins (path : GoString) (cwd : Filepath.WorkingDir) (perm : FileMode) : Op → Prop
  | openFile {name : GoString} {flag : Flags} (here : Filepath.abs cwd name = path)
      (create : hasFlag oCREATE flag = true) (shared : hasFlag oEXCL flag = false)
      (keeps : hasFlag oTRUNC flag = false) : Joins path cwd perm (.openFile name flag perm)

variable {fs : RedisFS} {path : GoString} {c : Cluster} {k : Caller} {perm : FileMode}
  {first : Sent} {result : Result}

/-! ## One client -/

/-- The requests of such a call.  The mode in a creation is that of the client. -/
inductive JoinRequest (fs : RedisFS) (path : GoString) (perm : FileMode) : Request → Prop
  | read {q : Request} (readOnly : q.writes = []) : JoinRequest fs path perm q
  | init : JoinRequest fs path perm (fs.dataStore.initRequest path false perm)
  | add : JoinRequest fs path perm (fs.dataStore.addRequest (Filepath.dir path) path)

theorem JoinRequest.creates {q : Request} (request : fs.JoinRequest path perm q) :
    fs.Creates path q := by
  cases request with
  | read readOnly => exact .of_readOnly readOnly
  | init => exact .init false perm
  | add => exact .add

/-- A call that joins sends nothing else. -/
theorem joinRequests (joins : Joins path k.cwd perm k.op) :
    Program.Issues (fs.JoinRequest path perm) (k.program fs) := by
  obtain ⟨inodes, cwd, op⟩ := k
  cases joins with
  | @openFile name flag here create shared keeps =>
      obtain rfl := here
      have content : Program.Issues (fs.JoinRequest (Filepath.abs cwd name) perm)
          (fs.dataStore.openFile (Filepath.abs cwd name) flag) := by
        refine Program.Issues.bind ?_ fun _ => ?_
        · rw [DataStore.truncateOnOpen, keeps]
          trivial
        · exact (DataStore.issues_seek.mono fun _ => .read).bind fun _ => trivial
      exact ((issues_openFile (fun _ => .read) .init (fun _ _ => .add) content).bind
        fun _ => trivial : Program.Issues _ (fs.call inodes cwd (.openFile name flag perm))).bind
          fun _ => trivial

/-- It is not aborted. -/
theorem safe_joins (joins : Joins path k.cwd perm k.op) :
    Program.Safe serve fs.Intact False (fun _ => True) (k.program fs) := by
  obtain ⟨inodes, cwd, op⟩ := k
  cases joins with
  | @openFile name flag here create shared keeps =>
      exact (safe_openFile.bind fun _ _ => trivial : Program.Safe serve fs.Intact False
        (fun _ => True) (fs.call inodes cwd (.openFile name flag perm))).bind fun _ _ => trivial

/-- What a client has sent, and what its call has returned. -/
theorem trace_joins (joins : Joins path k.cwd perm k.op) (inside : fs.mountPath <+: path)
    (notRoot : path ≠ fs.mountPath)
    (performed : Program.Trace (k.program fs) first (.ret result)) :
    ∃ looked rest info, first = looked ++ rest ∧ (∀ entry ∈ looked, entry.1.writes = []) ∧
      fs.Looked k.inodes path looked info ∧
      match info with
      | .error _ => True
      | .ok (_, some node) => (∀ entry ∈ rest, DataOf path entry.1) ∧
          ∃ dir, node.Answered fs.dataStore rest dir ∧ (dir = false → ∃ f, result = .handle f)
      | .ok (_, none) => ∃ r r' last dir,
          rest = (fs.dataStore.initRequest path false perm, r) ::
            (fs.dataStore.addRequest (Filepath.dir path) path, r') :: last ∧
          ({ path := path } : Inode).Answered fs.dataStore last dir ∧
            (dir = false → ∃ f, result = .handle f) := by
  obtain ⟨inodes, cwd, op⟩ := k
  cases joins with
  | @openFile name flag here create shared keeps =>
      obtain rfl := here
      have notExclusive : ¬hasFlag (oCREATE ||| oEXCL) flag = true := by
        intro both
        have exclusive : hasFlag oEXCL flag = true := hasFlag_of_hasFlag (by decide) both
        simp [exclusive] at shared
      obtain ⟨returned, making, rfl⟩ := trace_answer_openFile performed
      obtain ⟨looked, rest, info, rfl, reads, found, outcome⟩ :=
        trace_openFile create (if_pos inside) notRoot making
      refine ⟨looked, rest, info, rfl, reads, found, ?_⟩
      have handle : ∀ {dir : Bool} {err : FsError}, (if dir then returned.2 = .error err
          else ∃ f, returned.2 = .ok f) →
          dir = false → ∃ f, Result.ofExcept Result.handle returned.2 = .handle f := by
        rintro dir err outcome rfl
        obtain ⟨f, same⟩ := outcome
        exact ⟨f, by rw [same]; rfl⟩
      cases found with
      | noParent => trivial
      | cached =>
          simp only [if_neg notExclusive] at outcome
          obtain ⟨content, dir, answered, outcome⟩ := outcome
          exact ⟨content, dir, answered, handle outcome⟩
      | present =>
          simp only [if_neg notExclusive] at outcome
          obtain ⟨content, dir, answered, outcome⟩ := outcome
          exact ⟨content, dir, answered, handle outcome⟩
      | absent =>
          obtain ⟨r, r', last, dir, rfl, -, answered, outcome⟩ := outcome
          exact ⟨r, r', last, dir, rfl, answered, handle outcome⟩

/-! ## Any number of clients -/

variable {ι : Type} {clients : ι → Caller} {perms : ι → FileMode}

/-- Clients that open one path in a directory that exists.  The path is absent, or a regular
file that is listed in the directory, and what the clients have in memory exists and has
the right type.  A path that is absent may still have a set of children. -/
structure Gathering (fs : RedisFS) (path : GoString) (c : Cluster) (clients : ι → Caller)
    (perms : ι → FileMode) : Prop where
  intact : fs.Intact c
  inside : fs.mountPath <+: path
  notRoot : path ≠ fs.mountPath
  parent : (fs.dataStore.entry c (Filepath.dir path)).exists = true
  isDir : (fs.dataStore.entry c (Filepath.dir path)).isDir = true
  regular : (fs.dataStore.entry c path).exists = true → (fs.dataStore.entry c path).isDir = false
  listed : (fs.dataStore.entry c path).exists = true →
    path ∈ (fs.dataStore.entry c (Filepath.dir path)).members
  caches : ∀ i p inode, (clients i).inodes.get p = some inode →
    (fs.dataStore.entry c p).exists = true ∧
      ∀ dir, inode.isDir? = some dir → dir = (fs.dataStore.entry c p).isDir
  joins : ∀ i, Joins path (clients i).cwd (perms i) (clients i).op

/-- The path has been opened by all clients, and what they have opened is one and
the same file. -/
structure Gathered (fs : RedisFS) (path : GoString) (c : Cluster) (perms : ι → FileMode)
    (labels : List (ι × Request × ConnReply)) (final : Pool ι Request ConnReply Result Cluster) :
    Prop where
  /-- Every call has succeeded. -/
  succeeded : ∀ i, ∃ f, final.threads i = .ret (.handle f)
  «exists» : (fs.dataStore.entry final.store path).exists = true
  regular : (fs.dataStore.entry final.store path).isDir = false
  /-- The mode is what it has been, or it is that of the client whose request came first. -/
  mode : (fs.dataStore.entry c path).exists = true ∧
      (fs.dataStore.entry final.store path).mode = (fs.dataStore.entry c path).mode ∨
    (fs.dataStore.entry c path).exists = false ∧ ∃ before i reply after,
      labels = before ++ (i, fs.dataStore.initRequest path false (perms i), reply) :: after ∧
      (∀ label ∈ before, ∀ dir mode, label.2.1 ≠ fs.dataStore.initRequest path dir mode) ∧
      (fs.dataStore.entry final.store path).mode =
        some (.str (decimalBytes (perms i).toNat))
  /-- The directory lists the path once. -/
  listed : (fs.dataStore.entry final.store (Filepath.dir path)).members.count path = 1
  /-- No content has changed. -/
  content : ∀ a name,
    (∀ id, final.store a (key name id) = c a (key name id)) ∧
      final.store a (stripesKey name) = c a (stripesKey name)

theorem Joins.isClean {cwd : Filepath.WorkingDir} {op : Op} (joins : Joins path cwd perm op) :
    Filepath.IsCleanAbs path := by
  cases joins with
  | openFile here => exact here ▸ Filepath.isCleanAbs_abs cwd.2 _

namespace Gathering

theorem other (gathering : fs.Gathering path c clients perms) (i : ι) :
    Filepath.dir path ≠ path :=
  Filepath.dir_ne_self fs.cleanMount (gathering.joins i).isClean gathering.inside
    gathering.notRoot

variable [DecidableEq ι] {final : Pool ι Request ConnReply Result Cluster}
  {labels : List (ι × Request × ConnReply)}

theorem requests (gathering : fs.Gathering path c clients perms)
    (run : Pool.Run serve (startOf fs c clients) labels final) :
    ∀ label ∈ labels, fs.JoinRequest path (perms label.1) label.2.1 :=
  run.issued (fun i => fs.JoinRequest path (perms i)) fun i => joinRequests (gathering.joins i)

theorem creates (gathering : fs.Gathering path c clients perms)
    (run : Pool.Run serve (startOf fs c clients) labels final) :
    ∀ label ∈ labels, fs.Creates path label.2.1 :=
  fun label member => (gathering.requests run label member).creates

/-- A client creates the path as a file with its own mode. -/
theorem init_eq (gathering : fs.Gathering path c clients perms)
    (run : Pool.Run serve (startOf fs c clients) labels final) {label : ι × Request × ConnReply}
    (member : label ∈ labels) {dir : Bool} {mode : FileMode}
    (made : label.2.1 = fs.dataStore.initRequest path dir mode) :
    label.2.1 = fs.dataStore.initRequest path false (perms label.1) := by
  have request := gathering.requests run label member
  generalize label.2.1 = q at request made ⊢
  cases request with
  | read readOnly =>
      exact absurd (made ▸ dataOf_of_readOnly readOnly path) not_dataOf_initRequest
  | init => rfl
  | add => exact absurd made.symm initRequest_ne_addRequest

/-- The path becomes a directory for nobody. -/
theorem regular_of_run (gathering : fs.Gathering path c clients perms)
    (clear : (fs.dataStore.entry c path).isDir = false)
    (run : Pool.Run serve (startOf fs c clients) labels final) (i : ι) :
    (fs.dataStore.entry final.store path).isDir = false := by
  by_contra isDir
  have made := (isDir_iff_of_run run (gathering.creates run) gathering.intact.2.typed
    (gathering.other i)).mp (by simpa using isDir)
  rcases made with before | ⟨label, member, mode, made⟩
  · simp [clear] at before
  · simpa using initRequest_inj (made.symm.trans (gathering.init_eq run member made))

/-- An inode of the path is not taken for a directory. -/
theorem not_answered (gathering : fs.Gathering path c clients perms)
    (clear : (fs.dataStore.entry c path).isDir = false)
    (run : Pool.Run serve (startOf fs c clients) labels final) (i : ι) {node : Inode} {sent : Sent}
    (here : node.path = path) (known : ∀ dir, node.isDir? = some dir → dir = false)
    (own : ∀ entry ∈ sent, entry ∈ Pool.ownOf labels i) {dir : Bool}
    (answered : node.Answered fs.dataStore sent dir) : dir = false := by
  rcases answered with same | ⟨-, n, asked, rfl⟩
  · exact known dir same
  · have member := Pool.mem_of_mem_own (own _ asked)
    obtain ⟨before, after, rfl⟩ := List.append_of_mem member
    obtain ⟨middle, rest, early, late, replied, -⟩ := run.split
    have regular := gathering.regular_of_run clear early i
    rw [here] at replied
    obtain rfl : n = 0 := by simpa [DataStore.serve_isDirRequest, regular] using replied
    rfl

/-- **One client.**  Its call succeeds, and either the path has existed before it was asked
for, or the client has created it and recorded it in the directory. -/
theorem opened (gathering : fs.Gathering path c clients perms)
    (clear : (fs.dataStore.entry c path).isDir = false)
    (run : Pool.Run serve (startOf fs c clients) labels final) {i : ι}
    (finished : (final.threads i).Stopped) :
    (∃ f, final.threads i = .ret (.handle f)) ∧
      (fs.dataStore.entry final.store path).exists = true ∧
      ∀ entry ∈ Pool.ownOf labels i,
        entry.1 = fs.dataStore.initRequest path false (perms i) →
        ∃ reply, (fs.dataStore.addRequest (Filepath.dir path) path, reply) ∈
          Pool.ownOf labels i := by
  have typed := gathering.intact.2.typed
  have creates := gathering.creates run
  -- A client sends nothing but the steps of one collective call: it looks, and then it
  -- creates or opens.
  have other := gathering.other i
  have safe : ∀ i, Program.Safe serve fs.Intact False (fun _ => True)
      ((startOf fs c clients).threads i) := fun i => safe_joins (gathering.joins i)
  obtain ⟨result, returned, -⟩ :=
    ((run.safe safe gathering.intact).2 i).of_stopped finished
  have performed := run.trace i
  rw [returned] at performed ⊢
  obtain ⟨looked, rest, info, own, reads, looks, outcome⟩ :=
    trace_joins (gathering.joins i) gathering.inside gathering.notRoot performed
  change Pool.ownOf labels i = looked ++ rest at own
  -- A lookup does not create anything.
  have noInit : ∀ entry ∈ looked, entry.1 ≠ fs.dataStore.initRequest path false (perms i) := by
    intro entry member same
    have readOnly := reads entry member
    rw [same] at readOnly
    exact not_dataOf_initRequest (dataOf_of_readOnly readOnly path)
  have lookup : ∀ entry ∈ looked, (i, entry) ∈ labels := fun entry member =>
    Pool.mem_of_mem_own (own ▸ List.mem_append_left rest member)
  -- If an inode is found, it is not a directory: the call opens it and creates nothing.
  have existing : ∀ node : Inode, node.path = path →
      (∀ dir, node.isDir? = some dir → dir = false) →
      (∀ entry ∈ rest, DataOf path entry.1) →
      (∃ dir, node.Answered fs.dataStore rest dir ∧ (dir = false → ∃ f, result = .handle f)) →
      (∃ f, Program.ret result = (.ret (.handle f) : Prog Result)) ∧
        ∀ entry ∈ Pool.ownOf labels i,
          entry.1 = fs.dataStore.initRequest path false (perms i) →
          ∃ reply, (fs.dataStore.addRequest (Filepath.dir path) path, reply) ∈
            Pool.ownOf labels i := by
    rintro node here known content ⟨dir, answered, handle⟩
    obtain ⟨f, rfl⟩ := handle (gathering.not_answered clear run i here known
      (fun entry member => own ▸ List.mem_append_right looked member) answered)
    refine ⟨⟨f, rfl⟩, fun entry member created => ?_⟩
    rw [own, List.mem_append] at member
    rcases member with early | late
    · exact absurd created (noInit entry early)
    · exact absurd (created ▸ content entry late) not_dataOf_initRequest
  cases looks with
  -- There is no directory to create the path in: the assumptions rule that out.
  | noParent why others =>
      rcases why with ⟨parent, held, notDir⟩ | asked | asked
      · have same := (gathering.caches i _ parent held).2 _ notDir
        simp [gathering.isDir] at same
      · exact absurd (lookup _ asked) (exists_reply_dir run creates typed other gathering.parent)
      · exact absurd (lookup _ asked) (isDir_reply_dir run creates typed other gathering.isDir)
  | @cached _ _ node entered held =>
      obtain ⟨content, outcome⟩ := outcome
      obtain ⟨present, right⟩ := gathering.caches i _ node held
      obtain ⟨opened, added⟩ := existing node ((clients i).inodes.path_eq held)
        (fun dir known => (right dir known).trans clear) content outcome
      exact ⟨opened, (exists_iff_of_run run creates typed other).mpr (.inl present), added⟩
  -- `EXISTS` has answered that the path is there: then it was from the start, or some
  -- client had created it by then.
  | present entered new nonzero =>
      obtain ⟨content, outcome⟩ := outcome
      obtain ⟨opened, added⟩ := existing _ rfl (by simp) content outcome
      refine ⟨opened, ?_, added⟩
      obtain ⟨before, after, split⟩ := List.append_of_mem
        (lookup _ (List.mem_append_right _ (List.mem_singleton_self _)))
      rw [split] at run
      obtain ⟨n', same, iff⟩ := exists_reply run
        (fun label member => creates label (by simp [split, member])) typed other
      obtain rfl := by simpa using same
      rw [← split] at run
      refine (exists_iff_of_run run creates typed other).mpr ((iff.mp nonzero).imp_right ?_)
      rintro ⟨label, member, created⟩
      exact ⟨label, by simp [split, member], created⟩
  -- `EXISTS` has answered that the path is not there: the client creates it, and records
  -- it in the directory.
  | absent entered new =>
      obtain ⟨r, r', last, dir, rfl, answered, handle⟩ := outcome
      obtain ⟨f, rfl⟩ := handle (gathering.not_answered clear run i rfl (by simp)
        (fun entry member => by simp [own, member]) answered)
      refine ⟨⟨f, rfl⟩, ?_, fun _ _ _ => ⟨r', by simp [own]⟩⟩
      have created : (fs.dataStore.initRequest path false (perms i), r) ∈
          Pool.ownOf labels i := by simp [own]
      exact (exists_iff_of_run run creates typed other).mpr
        (.inr ⟨_, Pool.mem_of_mem_own created, _, _, rfl⟩)

/-- A mode that is there stays. -/
theorem mode_kept {pool : Pool ι Request ConnReply Result Cluster} {mode : Value GoString}
    (run : Pool.Run serve pool labels final)
    (creates : ∀ label ∈ labels, fs.Creates path label.2.1) (typed : fs.Typed pool.store)
    (other : Filepath.dir path ≠ path)
    (stored : (fs.dataStore.entry pool.store path).mode = some mode) :
    (fs.dataStore.entry final.store path).mode = some mode := by
  refine kept_of_run (fun ns => (ns path).mode = some mode) ?_ ?_ run creates typed stored
  · intro ns dir mode' typed stored
    rw [Function.update_self, Entry.mode_created (by rw [Entry.exists, stored]; rfl), stored]
  · intro ns typed stored
    rwa [Function.update_of_ne (Ne.symm other)]

/-- The mode is what it has been, or it is that of the first creation. -/
theorem mode_of_run (gathering : fs.Gathering path c clients perms)
    (run : Pool.Run serve (startOf fs c clients) labels final) (i : ι)
    (present : (fs.dataStore.entry final.store path).exists = true) :
    (fs.dataStore.entry c path).exists = true ∧
      (fs.dataStore.entry final.store path).mode = (fs.dataStore.entry c path).mode ∨
    (fs.dataStore.entry c path).exists = false ∧ ∃ before i reply after,
      labels = before ++ (i, fs.dataStore.initRequest path false (perms i), reply) :: after ∧
      (∀ label ∈ before, ∀ dir mode, label.2.1 ≠ fs.dataStore.initRequest path dir mode) ∧
      (fs.dataStore.entry final.store path).mode =
        some (.str (decimalBytes (perms i).toNat)) := by
  have typed := gathering.intact.2.typed
  have creates := gathering.creates run
  have other := gathering.other i
  by_cases before : (fs.dataStore.entry c path).exists = true
  · refine .inl ⟨before, ?_⟩
    obtain ⟨mode, stored⟩ := Option.isSome_iff_exists.mp before
    rw [stored]
    exact mode_kept run creates typed other stored
  · refine .inr ⟨by simpa using before, ?_⟩
    -- The first of the requests that create the path.
    classical
    have created := ((exists_iff_of_run run creates typed other).mp present).resolve_left before
    obtain ⟨⟨j, q, reply⟩, found⟩ := Option.isSome_iff_exists.mp (List.find?_isSome.mpr
      (created.imp fun label made => ⟨made.1, decide_eq_true made.2⟩))
    obtain ⟨isInit, early, after, rfl, nobody⟩ := List.find?_eq_some_iff_append.mp found
    obtain ⟨dir, mode, made⟩ := of_decide_eq_true isInit
    obtain rfl : q = fs.dataStore.initRequest path false (perms j) :=
      gathering.init_eq run (by simp) made
    have first : ∀ label ∈ early, ∀ dir mode,
        label.2.1 ≠ fs.dataStore.initRequest path dir mode := by
      intro label member dir mode same
      have other := nobody label member
      rw [decide_eq_true ⟨dir, mode, same⟩] at other
      simp at other
    refine ⟨early, j, reply, after, rfl, first, ?_⟩
    obtain ⟨middle, rest, sooner, later, -, store⟩ := run.split
    have absent : (fs.dataStore.entry middle.store path).exists = false := by
      by_contra there
      rcases (exists_iff_of_run sooner (fun label member => creates label (by simp [member])) typed
        other).mp (by simpa using there) with old | ⟨label, member, dir, mode, made⟩
      · exact before old
      · exact first label member dir mode made
    have typed' := typed_of_run sooner (fun label member => creates label (by simp [member])) typed
    refine mode_kept later (fun label member => creates label (by simp [member])) ?_ other ?_
    · rw [store]
      exact (Creates.init false (perms j)).typed typed'
    · rw [store]
      simp only
      rw [DataStore.entry_initRequest (typed' _), Function.update_self,
        Entry.mode_created_of_absent absent]

/-- The directory lists the path once. -/
theorem listed_of_run (gathering : fs.Gathering path c clients perms)
    (clear : (fs.dataStore.entry c path).isDir = false)
    (run : Pool.Run serve (startOf fs c clients) labels final)
    (finished : ∀ i, (final.threads i).Stopped) (i : ι)
    (present : (fs.dataStore.entry final.store path).exists = true) :
    (fs.dataStore.entry final.store (Filepath.dir path)).members.count path = 1 := by
  have typed := gathering.intact.2.typed
  have creates := gathering.creates run
  have other := gathering.other i
  refine List.count_eq_one_of_mem ?_ ?_
  · refine kept_of_run (fun ns => (ns (Filepath.dir path)).members.Nodup) ?_ ?_ run creates typed
      (gathering.intact.2.nodup _)
    · intro ns dir mode typed nodup
      rwa [Function.update_of_ne other]
    · intro ns typed nodup
      rw [Function.update_self]
      exact (typed _).nodup_withChild nodup
  · rw [listed_iff_of_run run creates typed other]
    rcases (exists_iff_of_run run creates typed other).mp present with
      before | ⟨label, member, dir, mode, made⟩
    · exact .inl (gathering.listed before)
    · -- Whoever has created the path has recorded it.
      obtain ⟨j, entry⟩ := label
      have own : entry ∈ Pool.ownOf labels j :=
        List.mem_map.mpr ⟨(j, entry), List.mem_filter.mpr ⟨member, by simp⟩, rfl⟩
      obtain ⟨reply, added⟩ := (gathering.opened clear run (finished j)).2.2 entry own
        (gathering.init_eq run member made)
      exact .inr ⟨_, Pool.mem_of_mem_own added, rfl, rfl⟩

/-- No content is written.  The calls of the clients do not touch the bytes of any
file. -/
theorem content_of_run (gathering : fs.Gathering path c clients perms)
    (run : Pool.Run serve (startOf fs c clients) labels final) (a : Addr) (name : GoString) :
    (∀ id, final.store a (key name id) = c a (key name id)) ∧
      final.store a (stripesKey name) = c a (stripesKey name) := by
  refine run.preserved (fun d => (∀ id, d a (key name id) = c a (key name id)) ∧
    d a (stripesKey name) = c a (stripesKey name)) (fun label member d same => ?_)
    ⟨fun _ => rfl, rfl⟩
  have metaOf : ∀ {p : GoString}, MetaOf p label.2.1 →
      (∀ id, (serve label.2.1 d).1 a (key name id) = c a (key name id)) ∧
        (serve label.2.1 d).1 a (stripesKey name) = c a (stripesKey name) := by
    intro p metaOf
    obtain ⟨stripes, sets⟩ := DataStore.content_metaOf metaOf d a name
    exact ⟨fun id => (stripes id).trans (same.1 id), sets.trans same.2⟩
  have request := gathering.requests run label member
  generalize label.2.1 = q at request metaOf ⊢
  cases request with
  | read readOnly => exact metaOf (metaOf_of_readOnly readOnly path)
  | init => exact metaOf DataStore.metaOf_initRequest
  | add => exact metaOf DataStore.metaOf_addRequest

/-- What has been a directory stays one, also when only a list of children was left of it. -/
theorem clear_of_gathered (gathering : fs.Gathering path c clients perms)
    (run : Pool.Run serve (startOf fs c clients) labels final) (i : ι)
    (gathered : fs.Gathered path c perms labels final) :
    (fs.dataStore.entry c path).isDir = false := by
  by_contra leftOver
  have still := (isDir_iff_of_run run (gathering.creates run) gathering.intact.2.typed
    (gathering.other i)).mpr (.inl (by simpa using leftOver))
  simp [gathered.regular] at still

end Gathering

/-- **Collective opening.**  When any number of clients open one path with
`O_CREATE`, every call succeeds, and they have opened one and the same regular file,
exactly when no list of children is there under the path: `IsDir` looks at nothing
else, so a path that does not exist but has such a list is taken for a directory by
whoever creates it.  For one direction the set of children cannot come into being on
the way, since all clients create files.  For the other one it is there for good,
and the file is no regular one at the end. -/
theorem gathered_iff_of_run [DecidableEq ι] [Nonempty ι]
    {final : Pool ι Request ConnReply Result Cluster} {labels : List (ι × Request × ConnReply)}
    (gathering : fs.Gathering path c clients perms)
    (run : Pool.Run serve (startOf fs c clients) labels final)
    (finished : ∀ i, (final.threads i).Stopped) :
    fs.Gathered path c perms labels final ↔ (fs.dataStore.entry c path).isDir = false := by
  obtain ⟨i⟩ := ‹Nonempty ι›
  refine ⟨gathering.clear_of_gathered run i, fun clear => ?_⟩
  have present := (gathering.opened clear run (finished i)).2.1
  exact {
    succeeded := fun i => (gathering.opened clear run (finished i)).1
    «exists» := present
    regular := gathering.regular_of_run clear run i
    mode := gathering.mode_of_run run i present
    listed := gathering.listed_of_run clear run finished i present
    content := gathering.content_of_run run }

/-! ## Two clients on a small store -/

/-- The two clients pass different modes. -/
def small.modes (i : Bool) : FileMode := if i then 0o600 else 0o644

/-- Both clients open the same file. -/
def small.opens (name : GoString) (i : Bool) : Caller :=
  ⟨small.rootOnly, small.home, .openFile name oCREATE (small.modes i)⟩

theorem small.joins_opens {name : GoString} (here : Filepath.abs small.home name = name)
    (i : Bool) : Joins name (small.opens name i).cwd (small.modes i) (small.opens name i).op := by
  have create : hasFlag oCREATE oCREATE = true := by decide
  have shared : hasFlag oEXCL oCREATE = false := by decide
  have keeps : hasFlag oTRUNC oCREATE = false := by decide
  exact .openFile here create shared keeps

/-- The clients know the root only. -/
theorem small.caches_opens {c : Cluster} {name : GoString}
    (root : (small.dataStore.entry c ['/']).exists = true) (i : Bool) (p : GoString)
    (inode : Inode) (held : (small.opens name i).inodes.get p = some inode) :
    (small.dataStore.entry c p).exists = true ∧
      ∀ dir, inode.isDir? = some dir → dir = (small.dataStore.entry c p).isDir := by
  change (if p = ['/'] then some { path := ['/'] } else none) = some inode at held
  split at held
  · rename_i here
    obtain rfl := here
    obtain rfl := Option.some.inj held
    exact ⟨root, by simp⟩
  · simp at held

/-- The root is there and the file is not, so the two clients may gather. -/
theorem small.gathering_opens :
    small.Gathering ['/', 'f'] small.start.1 (small.opens ['/', 'f']) small.modes where
  intact := small.intact_start
  inside := by decide
  notRoot := by decide
  parent := by decide +kernel
  isDir := by decide +kernel
  regular := by decide +kernel
  listed := by decide +kernel
  caches := small.caches_opens (by decide +kernel)
  joins := small.joins_opens (by decide)

/-- The clients take turns, request by request, and both of them open the file. -/
theorem gathered_opens : ∃ labels final,
    Pool.Run serve (startOf small small.start.1 (small.opens ['/', 'f'])) labels final ∧
    small.Gathered ['/', 'f'] small.start.1 small.modes labels final := by
  obtain ⟨labels, final, run, finished⟩ :=
    Pool.exists_run serve (startOf small small.start.1 (small.opens ['/', 'f']))
  exact ⟨labels, final, run,
    (gathered_iff_of_run small.gathering_opens run finished).mpr (by decide +kernel)⟩

/-- Three clients of a directory: one creates a file in it, one removes the file, and one removes
the directory. -/
def small.leavers : Fin 3 → Caller
  | 0 => ⟨small.rootOnly, small.home, .openFile ['/', 'd', '/', 'y'] oCREATE 0⟩
  | 1 => ⟨small.rootOnly, small.home, .remove ['/', 'd', '/', 'y']⟩
  | 2 => ⟨small.rootOnly, small.home, .rmDir ['/', 'd']⟩

/-- The file and the directory are removed before the file is recorded in the directory, so that
a list of children is all that is left. -/
theorem small.leavers_late : (small.returnedAfter small.withDir small.leavers
    (List.replicate 4 0 ++ List.replicate 7 1 ++ List.replicate 7 2 ++ List.replicate 2 0)).any
      fun left => [0, 1, 2].all (fun i => (left.2 i).any (!·.isError)) &&
        (!(small.dataStore.entry left.1 ['/', 'd']).exists &&
          (small.dataStore.entry left.1 ['/', 'd']).isDir) &&
        ((small.dataStore.entry left.1 ['/']).exists &&
          (small.dataStore.entry left.1 ['/']).isDir) := by
  decide +kernel

/-- What three calls that all succeed leave behind lets the next collective creation of the path
fail. -/
theorem not_gathered_leavers : ∃ labels left,
    Pool.Run serve (startOf small small.withDir small.leavers) labels left ∧
    (∀ i, ∃ result, left.threads i = .ret result ∧ result.isError = false) ∧
    small.Gathering ['/', 'd'] left.store (small.opens ['/', 'd']) small.modes ∧
    ∃ labels final,
      Pool.Run serve (startOf small left.store (small.opens ['/', 'd'])) labels final ∧
      (∀ i, (final.threads i).Stopped) ∧
      ¬small.Gathered ['/', 'd'] left.store small.modes labels final := by
  obtain ⟨⟨store, results⟩, played, done⟩ := (Option.any_eq_true _ _).mp small.leavers_late
  obtain ⟨labels, left, run, -, rfl, same⟩ := exists_run_of_returned played
  simp only [Bool.and_eq_true, List.all_eq_true, Option.any_eq_true, Bool.not_eq_true'] at done
  obtain ⟨⟨success, absent, leftOver⟩, root, isDir⟩ := done
  have gathering : small.Gathering ['/', 'd'] left.store (small.opens ['/', 'd']) small.modes := {
    intact := by
      have start : small.Intact small.withDir :=
        (safe_call.preserved small.intact_start (Program.exec_run serve _ _)).1
      have safe : ∀ i, Program.Safe serve small.Intact True (fun _ => True)
          ((small.leavers i).program small) := fun i => safe_call.bind fun _ _ => trivial
      exact (run.safe safe start).1
    inside := by decide
    notRoot := by decide
    parent := root
    isDir := isDir
    regular := fun present => by simp [absent] at present
    listed := fun present => by simp [absent] at present
    caches := small.caches_opens root
    joins := small.joins_opens (by decide) }
  refine ⟨labels, left, run, fun i => ?_, gathering, ?_⟩
  · obtain ⟨result, returned, success⟩ := success i (by fin_cases i <;> decide)
    exact ⟨result, same _ _ returned, success⟩
  · obtain ⟨labels', final, run', finished⟩ :=
      Pool.exists_run serve (startOf small left.store (small.opens ['/', 'd']))
    refine ⟨labels', final, run', finished, fun gathered => ?_⟩
    have clear := gathering.clear_of_gathered run' false gathered
    simp [leftOver] at clear

end RedisFS

end Pdwfs
