import Pdwfs.Redisfs.Client

/-!
# The tree of one client

A directory that is removed with entries takes inodes along that stay in memory.
Without such removals everything in memory is right, and the namespace is the tree
that `ReadDir` shows.

* `Careful` — the calls that remove files and empty directories only.
* `Agreeing`, `Agreeing.of_run` — what is in memory is right, about every path.
* `tree_of_run` — each path is listed by its parent directory and by no other, and
  `ReadDir` lists exactly the paths in a directory, in order.

## Two conditions on a run

The runs of this module are those of one client with a condition on the calls that
is as plain as possible.  `Remove` is for what is not a directory, as `unlink` is,
and `RmDir` is not for the root.  Nothing is asked about memory.  That `RmDir`
removes only directories that are empty is not a condition, since it checks this
itself, and what it finds in memory is right (`childless_of_exec_rmDir`).

So no removal takes anything along, and the invariant is stronger than the one of
`Coherent`: everything in memory is right, also what is not consulted.  The
condition of the other module, that the inodes a call may find exist, follows
(`Agreeing.current`).
-/

namespace Pdwfs

open Concurrency Redis

namespace RedisFS

variable {fs : RedisFS} {inodes inodes' : Inodes} {c c' : Cluster} {path : GoString}
  {cwd : Filepath.WorkingDir} {name : GoString}

/-- The calls that remove files, and directories that are empty: `Remove` is applied
to what is not a directory, and `RmDir` not to the root.  It is a condition on the
store in front of the call, and not on what the client remembers. -/
def Careful (fs : RedisFS) (c : Cluster) (_ : Inodes) (cwd : Filepath.WorkingDir) : Op → Prop
  | .remove name => (fs.dataStore.entry c (Filepath.abs cwd name)).isDir = false
  | .rmDir name => Filepath.abs cwd name ≠ fs.mountPath
  | _ => True

/-- The namespace is well formed, and what one client has in memory is right.  Both
together are the invariant. -/
structure Agreeing (fs : RedisFS) (c : Cluster) (inodes : Inodes) : Prop where
  tidy : fs.Tidy c
  rooted : fs.Rooted inodes
  right : ∀ p, fs.Right c inodes p

namespace Agreeing

/-- This is more than is needed for the calls. -/
theorem coherent (agreeing : fs.Agreeing c inodes) : fs.Coherent c inodes :=
  ⟨agreeing.tidy, agreeing.rooted, fun p _ => agreeing.right p⟩

theorem current (agreeing : fs.Agreeing c inodes) (path : GoString) :
    fs.Current c inodes path where
  parent i cached _ := (agreeing.right _ i cached).1
  node _ i cached := (agreeing.right _ i cached).1

theorem learns (agreeing : fs.Agreeing c inodes) (learns : fs.Learns c inodes inodes') :
    fs.Agreeing c inodes' :=
  ⟨agreeing.tidy, agreeing.rooted.learns learns, fun p => (agreeing.right p).learns learns⟩

end Agreeing

/-! ## Removals -/

/-- What is no directory lists nothing. -/
theorem childless_of_file (isFile : (fs.dataStore.entry c path).isDir = false) (x : GoString) :
    ¬Lists (fs.dataStore.entry c) path x := by
  simp [Lists, Entry.members_of_not_isDir isFile]

/-- A directory that `RmDir` has removed was empty. -/
theorem childless_of_exec_rmDir (agreeing : fs.Agreeing c inodes)
    (performed : Exec (fs.rmDir inodes cwd name) c c' (some (inodes', none))) (x : GoString) :
    ¬Lists (fs.dataStore.entry c) (Filepath.abs cwd name) x := by
  by_cases isDir : (fs.dataStore.entry c (Filepath.abs cwd name)).isDir = true
  swap
  · exact childless_of_file (by simpa using isDir) x
  rw [rmDir] at performed
  cases valid : fs.validatePath cwd name with
  | some err =>
      rw [valid] at performed
      obtain ⟨-, same⟩ := Program.exec_ret_iff.mp performed
      simp at same
  | none =>
      simp only [valid] at performed
      obtain ⟨⟨inodes₁, entries⟩, middle, listed, last⟩ := Program.exec_bind_some_iff.mp performed
      cases entries with
      | error err =>
          obtain ⟨-, same⟩ := Program.exec_ret_iff.mp last
          simp at same
      | ok entries =>
          simp only at last
          split at last
          · obtain ⟨-, same⟩ := Program.exec_ret_iff.mp last
            simp at same
          · rename_i empty
            have answered : Exec (fs.answer inodes cwd (.readDir (Filepath.clean name))) c middle
                (some (.listing (entries.map Inode.path))) := by
              have called : Exec (fs.call inodes cwd (.readDir (Filepath.clean name))) c middle
                  (some (inodes₁, .listing (entries.map Inode.path))) :=
                Program.exec_bind_iff.mpr (.inl ⟨_, _, listed, Program.exec_ret_iff.mpr ⟨rfl, rfl⟩⟩)
              exact Program.exec_bind_iff.mpr
                (.inl ⟨_, _, called, Program.exec_ret_iff.mpr ⟨rfl, rfl⟩⟩)
            rw [← Filepath.abs_clean] at isDir ⊢
            have trusted := agreeing.coherent.trusted (agreeing.current
              (Filepath.abs cwd (Filepath.clean name)))
            have same := ((exec_answer_readDir agreeing.tidy trusted isDir).mp answered).2
            have none : fs.children c (Filepath.abs cwd (Filepath.clean name)) = [] := by
              rw [← Result.listing.inj (Option.some.inj same)]
              simpa using empty
            rw [← mem_children, none]
            simp

/-- Nothing but the path itself is below a path that lists nothing. -/
theorem below_of_childless {ns : Namespace} {q p : GoString} (childless : ∀ x, ¬Lists ns q x)
    (below : Below ns q p) : p = q := by
  rcases below.cases_head with same | ⟨x, listed, -⟩
  · exact same.symm
  · exact absurd listed (childless x)

/-- What a careful call removes has nothing below it. -/
theorem childless_of_careful {op : Op} (agreeing : fs.Agreeing c inodes)
    (careful : fs.Careful c inodes cwd op) (removes : op.Removes)
    (performed : Exec (fs.call inodes cwd op) c c' (some (inodes', .done))) (x : GoString) :
    ¬Lists (fs.dataStore.entry c) (op.path cwd) x := by
  cases op with
  | remove name => exact childless_of_file careful x
  | rmDir name =>
      obtain ⟨⟨i, err⟩, middle, inner, last⟩ := Program.exec_bind_some_iff.mp performed
      obtain ⟨-, same⟩ := Program.exec_ret_iff.mp last
      cases err with
      | some err => simp [Result.ofOption] at same
      | none => exact childless_of_exec_rmDir agreeing inner x
  | _ => exact removes.elim

/-- **One careful call** keeps everything in memory right. -/
theorem Agreeing.call {op : Op} {result : Result} (agreeing : fs.Agreeing c inodes)
    (careful : fs.Careful c inodes cwd op)
    (performed : Exec (fs.call inodes cwd op) c c' (some (inodes', result))) :
    fs.Agreeing c' inodes' := by
  have isClean : Filepath.IsCleanAbs (op.path cwd) := Filepath.isCleanAbs_abs cwd.2 op.name
  have completed := completed_of_exec agreeing.rooted agreeing.tidy.typed performed
  have coherent := agreeing.coherent.completed (agreeing.current _) isClean completed
  have faithful := agreeing.coherent.faithful (agreeing.current (op.path cwd))
  have changed := changed_of_completed agreeing.tidy faithful isClean completed
  refine ⟨coherent.tidy, coherent.rooted, fun p i cached => ?_⟩
  -- What is in memory existed before or has been created, and has not been removed.
  refine coherent.right p ?_ i cached
  cases completed with
  | looked learns opens file =>
      rw [opens.entry_eq]
      exact ((agreeing.learns learns).right p i cached).1
  | created dir mode notRoot inside absent finds isDir learns opens file new =>
      have other := Filepath.dir_ne_self fs.cleanMount isClean inside notRoot
      rw [opens.entry_eq, entry_createdAt agreeing.tidy.typed other]
      by_cases self : p = op.path cwd
      · rw [if_pos self]
        exact Entry.exists_created
      · rw [Inodes.get_set_of_ne (by rcases new with rfl | rfl <;> exact self)] at cached
        exact Namespace.exists_create ((agreeing.learns learns).right p i cached).1
  | removed removes notRoot inside finds isDir present learns removed =>
      have childless := childless_of_careful agreeing careful removes performed
      by_cases self : p = op.path cwd
      · rw [self, Inodes.get_erase, if_pos rfl] at cached
        simp at cached
      · rw [Inodes.get_erase, if_neg self] at cached
        refine changed.exists_of ((agreeing.learns learns).right p i cached).1 fun below => self ?_
        exact below_of_childless (fun x listed => childless x
          (agreeing.tidy.lists_of_unlist listed)) below

/-- **A run of careful calls** keeps everything in memory right. -/
theorem Agreeing.of_run (run : fs.Run fs.Careful c inodes) : fs.Agreeing c inodes := by
  induction run with
  | new started =>
      have coherent := coherent_new started
      obtain ⟨-, same⟩ := exec_new_iff.mp started
      obtain rfl := Option.some.inj same
      exact ⟨coherent.tidy, coherent.rooted, right_rootOnly coherent.tidy⟩
  | call run careful performed agreeing => exact agreeing.call careful performed

/-! ## The tree -/

/-- A listing of `ReadDir`, from the entry of the directory. -/
theorem children_eq (fs : RedisFS) (c : Cluster) (path : GoString) : fs.children c path =
    ((fs.dataStore.entry c path).members.filter (· ≠ [])).insertionSort (· ≤ ·) := by
  rw [children, List.map_insertionSort _ (· ≤ ·) Inode.path _ fun i _ j _ => by simp [byName]]
  rw [Inode.listed, List.map_map]
  congr 1
  exact List.map_id _

/-- A listing is in order. -/
theorem children_sorted (fs : RedisFS) (c : Cluster) (path : GoString) :
    (fs.children c path).Pairwise (· ≤ ·) := by
  rw [children_eq]
  exact List.pairwise_insertionSort _ _

/-- A listing has no path twice. -/
theorem children_nodup (tidy : fs.Tidy c) (path : GoString) : (fs.children c path).Nodup := by
  rw [children_eq]
  exact (List.perm_insertionSort _ _).nodup_iff.mpr ((tidy.nodup path).filter _)

/-- **The tree.**  In every run of one client that removes files and empty
directories only, each path is listed by its parent, which is a directory; what a
directory lists exists and has it as its parent; a path with a set of children
exists, and the set is the one of a directory, which has the empty string; and
`ReadDir` of a directory returns the existing paths in it, in order.  The root has
no parent.  Names are absolute or relative to a working directory that may be
another one for each call.  The statement is read off the invariant of the run,
`Agreeing`: the first three parts are what a well-formed namespace is, and the last
one needs that the client remembers nothing wrong, since `ReadDir` asks its memory.
-/
theorem tree_of_run (run : fs.Run fs.Careful c inodes) :
    (∀ p, (fs.dataStore.entry c p).exists = true → p ≠ fs.mountPath →
      (fs.dataStore.entry c (Filepath.dir p)).exists = true ∧
      (fs.dataStore.entry c (Filepath.dir p)).isDir = true ∧
      p ∈ (fs.dataStore.entry c (Filepath.dir p)).members) ∧
    (∀ d x, x ∈ (fs.dataStore.entry c d).members → x ≠ [] →
      (fs.dataStore.entry c x).exists = true ∧ Filepath.dir x = d) ∧
    (∀ p, (fs.dataStore.entry c p).isDir = true →
      (fs.dataStore.entry c p).exists = true ∧ [] ∈ (fs.dataStore.entry c p).members) ∧
    ∀ (cwd : Filepath.WorkingDir) (name : GoString) (c' : Cluster) (outcome : Option Result),
      (fs.dataStore.entry c (Filepath.abs cwd name)).isDir = true →
      Exec (fs.answer inodes cwd (.readDir name)) c c' outcome →
      ∃ paths, outcome = some (.listing paths) ∧ c' = c ∧
        (∀ p, p ∈ paths ↔ (fs.dataStore.entry c p).exists = true ∧ p ≠ fs.mountPath ∧
          Filepath.dir p = Filepath.abs cwd name) ∧
        paths.Nodup ∧ paths.Pairwise (· ≤ ·) := by
  have agreeing := Agreeing.of_run run
  have tidy := agreeing.tidy
  refine ⟨?_, ?_, tidy.dirs, ?_⟩
  · intro p present notRoot
    obtain ⟨isDir, listed⟩ := tidy.parents p present notRoot
    exact ⟨(tidy.dirs _ isDir).1, isDir, listed.1⟩
  · intro d x member nonempty
    obtain ⟨up, -, present⟩ := tidy.listed d x ⟨member, nonempty⟩
    exact ⟨present, up⟩
  · intro cwd name c' outcome isDir performed
    have trusted := agreeing.coherent.trusted (agreeing.current (Filepath.abs cwd name))
    obtain ⟨rfl, rfl⟩ := (exec_answer_readDir tidy trusted isDir).mp performed
    refine ⟨_, rfl, rfl, fun p => ?_, children_nodup tidy _, children_sorted fs _ _⟩
    rw [mem_children]
    constructor
    · intro listed
      obtain ⟨up, notRoot, present⟩ := tidy.listed _ p listed
      exact ⟨present, notRoot, up⟩
    · rintro ⟨present, notRoot, up⟩
      rw [← up]
      exact (tidy.parents p present notRoot).2

/-- A directory is in the set of its parent. -/
theorem tree_afterMkdir : ∃ c inodes,
    small.after small.home [.mkdir ['/', 'd'] 0] small.start = some (c, inodes) ∧
    ∀ p, (small.dataStore.entry c p).exists = true → p ≠ ['/'] →
      p ∈ (small.dataStore.entry c (Filepath.dir p)).members := by
  obtain ⟨⟨c, inodes⟩, reached, -⟩ := (Option.any_eq_true _ _).mp small.exists_afterMkdir
  obtain ⟨result, performed⟩ := exec_of_after reached
  have run : small.Run small.Careful c inodes :=
    .call (.new (Program.exec_run serve small.new _))
      (show small.Careful _ _ _ (.mkdir _ _) from trivial) performed
  exact ⟨c, inodes, reached, fun p present notRoot => ((tree_of_run run).1 p present notRoot).2.2⟩

end RedisFS

end Pdwfs
