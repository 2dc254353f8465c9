import Pdwfs.Redisfs.AccessModes
import Pdwfs.Redisfs.Subtrees

/-!
# New files

The content of a file is stored under its path, apart from the metadata that says
whether the file exists.  A handle that outlives its file still writes there.

* `ClientState`, `Step`, `Steps` — one client, with the handles that it has opened.
* `Known` — the path is the one of a file, for the client and in Redis.
* `Backed`, `Backed.of_steps` — only known paths have content, if content is only
  added to those.
* `fresh_of_steps` — then a file that `OpenFile` creates is empty, until something
  is written to it.

## Handles

So far a client has been what it remembers.  Here it also has handles, which are
numbered as they are returned, and its acts are calls of the file system and
operations of handles.  A handle has the path of its file and an offset.  It is
never closed, since in the source a handle that is closed can be used as before.

A file that is removed while a handle of it is left can be written to.  The content
is then stored under a path that does not exist, and there it stays, for a removal
of the path fails and one of a directory above it does not get there.  A file that
is created under the path later has this content from the beginning.

## Where content is

`Backed` says that this has not happened: what has content is known as a file.  It
is kept by every act that is `Mindful`, which is a condition on the writes only.
The removal of a directory is the act to look at, since it deletes the metadata of
many paths.  It comes past the file if the file is listed, and if it comes past it,
it deletes the content; this is `Listed.of_exec_remove`, and it also holds of a
removal that takes some path on its way for something else.
-/

namespace Pdwfs

open Concurrency Redis Striping

/-! ## One client and its handles -/

/-- The handle that a call returns. -/
def Result.handles : Result → List File
  | .handle f => [f]
  | _ => []

/-- The operations that read. -/
def FileOp.Reads : FileOp → Prop
  | .read _ => True
  | .readAt _ _ => True
  | .readVec _ => True
  | .readVecAt _ _ => True
  | _ => False

/-- The operation adds content to the file: it writes something, or it makes the file longer
than zero. -/
def File.Adds (f : File) (op : FileOp) : Prop :=
  (∃ off data, f.writesAt op = some (off, data) ∧ data ≠ []) ∨
    ∃ size, op = .truncate size ∧ 0 < size

namespace RedisFS

/-- The instances, the inodes that a client has in memory, and its handles. -/
structure ClientState where
  store : Cluster
  inodes : Inodes
  handles : List File

/-- What a client does: a call of the file system, or an operation of one of its
handles. -/
inductive Act
  | call (cwd : Filepath.WorkingDir) (op : Op)
  | use (h : ℕ) (op : FileOp)

/-- One act that returns.  A call that opens a file adds the handle at the end. -/
inductive Step (fs : RedisFS) : ClientState → Act → ClientState → Prop
  | call {c c' : Cluster} {inodes inodes' : Inodes} {handles : List File}
      {cwd : Filepath.WorkingDir} {op : Op} {result : Result}
      (performed : Exec (fs.call inodes cwd op) c c' (some (inodes', result))) :
      Step fs ⟨c, inodes, handles⟩ (.call cwd op) ⟨c', inodes', handles ++ result.handles⟩
  | use {c c' : Cluster} {inodes : Inodes} {handles : List File} {h : ℕ} {f f' : File}
      {op : FileOp} {result : FileResult} (held : handles[h]? = some f)
      (performed : Exec (f.call op) c c' (some (f', result))) :
      Step fs ⟨c, inodes, handles⟩ (.use h op) ⟨c', inodes, handles.set h f'⟩

/-- The states that acts lead to, each of which is `allowed` when it is made.  The
condition is on the state in front of the act. -/
inductive Steps (fs : RedisFS) (allowed : ClientState → Act → Prop) (s : ClientState) :
    ClientState → Prop
  | refl : Steps fs allowed s s
  | step {s' s'' : ClientState} {act : Act} (earlier : Steps fs allowed s s')
      (asked : allowed s' act) (next : fs.Step s' act s'') : Steps fs allowed s s''

/-- A client that has just started, on empty instances. -/
structure Started (fs : RedisFS) (s : ClientState) : Prop where
  new : Exec fs.new (fun _ _ => none) s.store (some s.inodes)
  noHandles : s.handles = []

/-- `OpenFile` with `O_CREATE` finds that `p` does not exist, creates it, and
returns a handle.  What it finds is a matter of memory and of Redis. -/
inductive CreatesFile (fs : RedisFS) (p : GoString) : ClientState → ClientState → Prop
  | intro {c c' : Cluster} {inodes inodes' : Inodes} {handles : List File}
      {cwd : Filepath.WorkingDir} {name : GoString} {flag : Flags} {perm : FileMode} {f : File}
      (here : Filepath.abs cwd name = p) (create : hasFlag oCREATE flag = true)
      (absent : fs.lookup c inodes p = none)
      (opened : Exec (fs.call inodes cwd (.openFile name flag perm)) c c'
        (some (inodes', .handle f))) :
      CreatesFile fs p ⟨c, inodes, handles⟩ ⟨c', inodes', handles ++ [f]⟩

/-- The act adds content under the path `p`.  No call of the file system does. -/
def ClientState.Fills (s : ClientState) (p : GoString) : Act → Prop
  | .call _ _ => False
  | .use h op => ∃ f, s.handles[h]? = some f ∧ f.file.path = p ∧ f.Adds op

/-- The path `p` is known to the client or exists in Redis, and neither takes it for a
directory. -/
structure Known (fs : RedisFS) (c : Cluster) (inodes : Inodes) (p : GoString) : Prop where
  found : inodes.get p ≠ none ∨ (fs.dataStore.entry c p).exists = true
  isFile : (fs.dataStore.entry c p).isDir = false
  taken : ∀ i, inodes.get p = some i → i.isDir? ≠ some true

/-- Content is only added under the path `p` while it is known. -/
def Mindful (fs : RedisFS) (p : GoString) (s : ClientState) (act : Act) : Prop :=
  s.Fills p act → fs.Known s.store s.inodes p

/-- The file `p` is empty, and nothing is read through the handle `h`. -/
structure Fresh (fs : RedisFS) (p : GoString) (h : ℕ) (s : ClientState) : Prop where
  size : ∀ c' outcome, Exec (fs.dataStore.getSize p) s.store c' outcome →
    c' = s.store ∧ outcome = some 0
  reads : ∀ f op c' f' result, s.handles[h]? = some f → op.Reads →
    Exec (f.call op) s.store c' (some (f', result)) → result.n = 0 ∧ result.buffers = op.buffers

variable {fs : RedisFS} {c c' : Cluster} {inodes inodes' : Inodes} {p : GoString}

/-! ## Known paths -/

namespace Known

/-- What is found is not taken for a directory. -/
theorem taken_of_lookup (known : fs.Known c inodes p) {i : Inode}
    (found : fs.lookup c inodes p = some i) : i.isDir? ≠ some true := by
  rw [lookup] at found
  split at found
  · rename_i cached
    exact known.taken i (cached.trans found)
  · split at found
    · rw [← Option.some.inj found]
      simp
    · simp at found

/-- Nor does a lookup find anything that would answer that it is one. -/
theorem dirAt_eq_false (known : fs.Known c inodes p) {i : Inode}
    (found : fs.lookup c inodes p = some i) : i.dirAt fs.dataStore c = false := by
  rw [Inode.dirAt, path_of_lookup found, known.isFile]
  cases asked : i.isDir? with
  | none => rfl
  | some isDir =>
      cases isDir with
      | false => rfl
      | true => exact absurd asked (known.taken_of_lookup found)

/-- A known path is found. -/
theorem lookup_ne_none (known : fs.Known c inodes p) : fs.lookup c inodes p ≠ none := by
  intro missing
  obtain ⟨uncached, absent⟩ := lookup_eq_none.mp missing
  rcases known.found with cached | present
  · exact cached uncached
  · rw [absent] at present
    simp at present

/-- A lookup keeps a path known: it adds what Redis says, which is that it is a
file. -/
theorem learns (known : fs.Known c inodes p) (learns : fs.Learns c inodes inodes') :
    fs.Known c inodes' p := by
  rcases learns p with same | ⟨i, found, after | after⟩
  · exact ⟨same ▸ known.found, known.isFile, same ▸ known.taken⟩
  · refine ⟨.inl (by simp [after]), known.isFile, fun j cached => ?_⟩
    rw [← Option.some.inj (after.symm.trans cached)]
    exact known.taken_of_lookup found
  · refine ⟨.inl (by simp [after]), known.isFile, fun j cached => ?_⟩
    rw [← Option.some.inj (after.symm.trans cached)]
    simp [Inode.seen, known.dirAt_eq_false found]

/-- What is not about `p` leaves it known. -/
theorem congr (known : fs.Known c inodes p)
    (entry : fs.dataStore.entry c' p = fs.dataStore.entry c p)
    (memory : inodes'.get p = inodes.get p) : fs.Known c' inodes' p where
  found := by
    rw [memory, entry]
    exact known.found
  isFile := by
    rw [entry]
    exact known.isFile
  taken i cached := known.taken i (memory.symm.trans cached)

end Known

/-! ## Removals -/

/-- The removal of what is taken for a file deletes its content. -/
theorem empty_of_exec_remove {i : Inode} {depth : ℕ} (inv : fs.dataStore.StoreInv c)
    (isFile : i.dirAt fs.dataStore c = false)
    (performed : Exec (i.remove fs.dataStore depth) c c' (some ())) :
    fs.dataStore.Empty c' i.path := by
  cases depth with
  | zero => exact absurd performed Program.not_exec_panic_some
  | succ depth =>
      rw [Inode.remove, Inode.exec_isDir_bind] at performed
      obtain ⟨_, middle, content, last⟩ := Program.exec_bind_some_iff.mp performed
      rw [Inode.removeContent, if_neg (by simp [isFile])] at content
      have empty : fs.dataStore.Empty middle i.path :=
        (DataStore.empty_of_exec_remove (inv _) content).2.1
      exact empty.congr (sameContent_of_exec_delMeta _ last)

/-- The path is not the one of a directory, and it exists if it has content.  This
is what a removal in progress keeps. -/
structure Listed (fs : RedisFS) (p : GoString) (c : Cluster) : Prop where
  intact : fs.Intact c
  isFile : (fs.dataStore.entry c p).isDir = false
  present : ¬fs.dataStore.Empty c p → (fs.dataStore.entry c p).exists = true

/-- What only reads or deletes makes no directory. -/
theorem Erases.isDir {q : Request} (erases : fs.Erases q) (linked : fs.Linked c)
    (isFile : (fs.dataStore.entry c p).isDir = false) :
    (fs.dataStore.entry (serve q c).1 p).isDir = false := by
  cases erases with
  | read readOnly => rwa [serve_readOnly readOnly]
  | rem parent child =>
      rw [DataStore.entry_remRequest (linked.typed parent), Function.update_apply]
      split
      · rename_i same
        subst same
        by_contra isDir
        rw [Entry.isDir_of_isDir_withoutChild (by simpa using isDir)] at isFile
        simp at isFile
      · exact isFile
  | unlink path =>
      rw [DataStore.entry_unlinkRequest, Function.update_apply]
      split
      · rfl
      · exact isFile
  | removeStripe name id =>
      rwa [DataStore.entry_dataOf (DataStore.dataOf_removeStripe _ name id)]

/-- The same for a whole program that only reads or deletes. -/
theorem isFile_of_erases {α : Type} {program : Prog α} {outcome : Option α}
    (erases : Program.Issues fs.Erases program) (intact : fs.Intact c)
    (isFile : (fs.dataStore.entry c p).isDir = false) (performed : Exec program c c' outcome) :
    fs.Intact c' ∧ (fs.dataStore.entry c' p).isDir = false := by
  have kept : Program.Issues (fun q => ∀ d, fs.Intact d ∧ (fs.dataStore.entry d p).isDir = false →
      fs.Intact (serve q d).1 ∧ (fs.dataStore.entry (serve q d).1 p).isDir = false) program :=
    erases.mono fun q erases d before =>
      ⟨erases.asks.intact before.1, erases.isDir before.1.2 before.2⟩
  exact kept.preserved ⟨intact, isFile⟩ performed

/-- Removals one after the other. -/
theorem Listed.of_exec_forM {remove : Inode → Prog Unit}
    (each : ∀ (i : Inode) (c c' : Cluster), fs.Listed p c →
      (i.path = p → i.dirAt fs.dataStore c = false) → Exec (remove i) c c' (some ()) →
      fs.Listed p c') {inodes : List Inode} (fresh : ∀ i ∈ inodes, i.isDir? = none)
    (listed : fs.Listed p c) (performed : Exec (inodes.forM remove) c c' (some ())) :
    fs.Listed p c' := by
  induction inodes generalizing c with
  | nil =>
      obtain ⟨rfl, -⟩ := Program.exec_ret_iff.mp performed
      exact listed
  | cons i rest ih =>
      change Exec (remove i >>= fun _ => rest.forM _) c c' (some ()) at performed
      obtain ⟨_, middle, first, others⟩ := Program.exec_bind_some_iff.mp performed
      refine ih (fun j member => fresh j (by simp [member])) (each i c middle listed ?_ first)
        others
      rintro rfl
      rw [Inode.dirAt, fresh i (by simp)]
      exact listed.isFile

/-- **A removal** that reaches the path of a file on its way, whatever it starts from, deletes
the content of the file as well. -/
theorem Listed.of_exec_remove {i : Inode} {depth : ℕ} (listed : fs.Listed p c)
    (isFile : i.path = p → i.dirAt fs.dataStore c = false)
    (performed : Exec (i.remove fs.dataStore depth) c c' (some ())) : fs.Listed p c' := by
  induction depth generalizing i c c' with
  | zero => exact absurd performed Program.not_exec_panic_some
  | succ depth ih =>
      obtain ⟨intact', isFile'⟩ :=
        isFile_of_erases erases_remove listed.intact listed.isFile performed
      refine ⟨intact', isFile', fun content => ?_⟩
      by_cases here : i.path = p
      · subst here
        exact absurd (empty_of_exec_remove listed.intact.1 (isFile rfl) performed) content
      · rw [Inode.remove, Inode.exec_isDir_bind] at performed
        obtain ⟨_, middle, inner, last⟩ := Program.exec_bind_some_iff.mp performed
        have same : SameContent middle c' p := sameContent_of_exec_delMeta p last
        have unlinked : fs.dataStore.entry c' p = fs.dataStore.entry middle p := by
          rw [← Program.bind_ret (Inode.delMeta fs.dataStore _)] at last
          obtain ⟨rfl, -⟩ := Program.exec_ret_iff.mp (Inode.exec_delMeta_bind.mp last)
          exact DataStore.entry_metaOf DataStore.metaOf_unlinkRequest middle (Ne.symm here)
        rw [unlinked]
        have before : ¬fs.dataStore.Empty middle p := fun empty => content (empty.congr same)
        rw [Inode.removeContent] at inner
        split at inner
        · rename_i isDir
          replace inner := (Inode.exec_getChildren_bind (listed.intact.2.typed _)).mp inner
          rw [if_pos (by simpa using isDir)] at inner
          split at inner
          · simp at inner
          · refine (Listed.of_exec_forM (fun i c c' listed isFile => ih listed isFile)
              (fun i member => Inode.isDir?_of_mem_listed member) listed inner).present before
        · have issues : Program.Issues (fun q => MetaOf i.path q ∨ DataOf i.path q)
              (fs.dataStore.remove i.path) := DataStore.issues_remove.mono fun _ => .inr
          obtain ⟨entry, kept⟩ :=
            DataStore.untouched_of_issues (s := fs.dataStore) issues inner (Ne.symm here)
          rw [entry]
          exact listed.present fun empty => before (empty.congr kept)

end RedisFS

/-! ## Operations of a handle -/

namespace File

variable {f f' : File} {op : FileOp} {c c' : Cluster} {result : FileResult}

/-- The operations of a handle only work on the content of its file. -/
theorem issues_call : Program.Issues (DataOf f.file.path) (f.call op) := by
  have reads : ∀ {α : Type} {program : Prog α}, Program.Issues (fun q => q.writes = []) program →
      Program.Issues (DataOf f.file.path) program := fun issues =>
    issues.mono fun q readOnly => dataOf_of_readOnly readOnly _
  have writes : ∀ {data : List UInt8} {off : ℤ},
      Program.Issues (DataOf f.file.path) (f.file.writeAt data off) := by
    intro data off
    unfold MemFile.writeAt
    split
    · trivial
    · exact DataStore.issues_writeAt.bind fun _ => trivial
  -- Writing several buffers is writing them one after the other.
  have writesVec : ∀ {datav : List (List UInt8)} {off : ℤ},
      Program.Issues (DataOf f.file.path) (f.file.writeVecAt datav off) := by
    intro datav
    induction datav with
    | nil =>
        intro off
        trivial
    | cons data rest ih =>
        intro off
        exact writes.bind fun _ => ih.bind fun _ => trivial
  -- A read sends nothing that writes, and a write is about the content of its file only.
  cases op with
  | read dst =>
      unfold call
      simp only
      split
      · trivial
      · exact reads (MemFile.issues_read.bind fun _ => trivial)
  | readAt dst off => exact reads (MemFile.issues_readAt.bind fun _ => trivial)
  | readVec dstv => exact reads (MemFile.issues_readVec.bind fun _ => trivial)
  | readVecAt dstv off => exact reads (MemFile.issues_readVecAt.bind fun _ => trivial)
  | write data =>
      unfold call
      simp only
      split
      · trivial
      · exact (writes.bind fun _ => trivial : Program.Issues _ (f.file.write data)).bind
          fun _ => trivial
  | writeAt data off => exact writes.bind fun _ => trivial
  | writeVec datav =>
      exact (writesVec.bind fun _ => trivial : Program.Issues _ (f.file.writeVec datav)).bind
        fun _ => trivial
  | writeVecAt datav off => exact writesVec.bind fun _ => trivial
  | truncate size =>
      refine Program.Issues.bind ?_ fun _ => trivial
      unfold MemFile.truncate
      split
      · trivial
      · exact DataStore.issues_resize.bind fun _ => trivial
  | seek off whence => exact reads (DataStore.issues_seek.bind fun _ => trivial)

/-- A file stays empty if nothing is added to it. -/
theorem Performs.empty (inv : f.file.store.FileInv c f.file.path) (noContent : ¬f.Adds op)
    (performs : f.Performs c op c' result) (empty : f.file.store.Empty c f.file.path) :
    f.file.store.Empty c' f.file.path := by
  have zero := (DataStore.empty_iff_isSize inv).mp empty
  cases performs with
  | reads here same delivers => rwa [same]
  | @writes off data here count noError noBuffers puts =>
      have nothing : data = [] := by
        by_contra some
        exact noContent (.inl ⟨off, data, here, some⟩)
      have size := puts.size 0 zero
      rw [if_pos nothing] at size
      exact (DataStore.empty_iff_isSize puts.inv).mpr size
  | @truncates size here noBuffers resized =>
      have short : size ≤ 0 := by
        by_contra long
        exact noContent (.inr ⟨size, here, not_le.mp long⟩)
      have same : c' = c := by
        rcases MemFile.exec_truncate inv zero resized with ⟨-, same, -⟩ | ⟨nonneg, -, -, same⟩
        · exact same
        · exact same (le_antisymm short nonneg)
      rwa [same]
  | idle noRead noWrite noTruncate same untouched => rwa [same]

/-- A method that is disabled reads nothing. -/
theorem count_of_disabled (reads : op.Reads) (disabled : f.readsAt op = none)
    (performed : Exec (f.call op) c c' (some (f', result))) : result.n = 0 := by
  cases op with
  | read dst =>
      have writeOnly : f.access = .writeOnly := by
        by_contra other
        simp [readsAt, other] at disabled
      simp only [call, writeOnly] at performed
      obtain ⟨-, same⟩ := Program.exec_ret_iff.mp performed
      obtain ⟨-, rfl⟩ := Prod.mk.inj (Option.some.inj same)
      rfl
  | readAt | readVec | readVecAt => simp [readsAt] at disabled
  | write | writeAt | writeVec | writeVecAt | truncate | seek => exact reads.elim

/-- A read of an empty file. -/
theorem nothing_of_empty (inv : f.file.store.FileInv c f.file.path)
    (empty : f.file.store.Empty c f.file.path) (reads : op.Reads)
    (performed : Exec (f.call op) c c' (some (f', result))) :
    result.n = 0 ∧ result.buffers = op.buffers := by
  cases (performs_of_exec inv performed).2 with
  | reads here same delivers =>
      exact ⟨delivers.count_eq_zero empty, delivers.buffers_eq fun p _ => empty.not_stores p⟩
  | writes here count noError noBuffers puts =>
      cases op with
      | read | readAt | readVec | readVecAt => simp [writesAt] at here
      | write | writeAt | writeVec | writeVecAt | truncate | seek => exact reads.elim
  | truncates here noBuffers resized =>
      rw [here] at reads
      exact reads.elim
  | idle noRead noWrite noTruncate same untouched =>
      exact ⟨count_of_disabled reads noRead performed, untouched⟩

end File

/-! ## Runs -/

namespace RedisFS

variable {fs : RedisFS} {p : GoString} {s s' s'' : ClientState} {act : Act}

/-- There is content under the path `p` only while it is known. -/
structure Backed (fs : RedisFS) (p : GoString) (s : ClientState) : Prop where
  intact : fs.Intact s.store
  rooted : fs.Rooted s.inodes
  mine : ∀ f ∈ s.handles, f.file.store = fs.dataStore
  known : ¬fs.dataStore.Empty s.store p → fs.Known s.store s.inodes p

/-- A call leaves a path known, unless it removes the content. -/
theorem Known.of_completed {c c' : Cluster} {inodes inodes' : Inodes} {path : GoString} {op : Op}
    {result : Result} (intact : fs.Intact c) (known : fs.Known c inodes p)
    (isClean : Filepath.IsCleanAbs path)
    (completed : fs.Completed c inodes path op c' inodes' result)
    (content : ¬fs.dataStore.Empty c' p) : fs.Known c' inodes' p := by
  cases completed with
  | looked learns opens file => exact (known.learns learns).congr (congrFun opens.entry_eq p) rfl
  | created dir mode notRoot inside absent finds isDir learns opens file new =>
      have other := Filepath.dir_ne_self fs.cleanMount isClean inside notRoot
      -- The path that is created did not exist before, so it is not `p`, and its
      -- directory is not the file `p`.
      have self : p ≠ path := by
        rintro rfl
        exact known.lookup_ne_none absent
      have up : p ≠ Filepath.dir path := by
        rintro rfl
        obtain ⟨i, found, same⟩ := finds.dirAt_eq
        rw [same, known.dirAt_eq_false found] at isDir
        simp at isDir
      refine (known.learns learns).congr ?_ (Inodes.get_set_of_ne ?_)
      · rw [opens.entry_eq, entry_createdAt intact.2.typed other, if_neg self, if_neg up]
      · rcases new with rfl | rfl <;> exact self
  | @removed _ _ node _ notRoot inside finds isDir present learns performed =>
      have other := Filepath.dir_ne_self fs.cleanMount isClean inside notRoot
      set c₁ := (serve (fs.dataStore.remRequest (Filepath.dir path) path) c).1 with c₁_eq
      have unlisted : fs.dataStore.entry c₁ = Function.update (fs.dataStore.entry c)
          (Filepath.dir path) ((fs.dataStore.entry c (Filepath.dir path)).withoutChild path) :=
        DataStore.entry_remRequest (intact.2.typed _) path
      have erases : fs.Erases (fs.dataStore.remRequest (Filepath.dir path) path) := .rem _ _
      have intact₁ : fs.Intact c₁ := erases.asks.intact intact
      -- The removed path is `p` itself: then its content is deleted.
      by_cases self : p = path
      · subst self
        obtain ⟨i, found, same⟩ := present.dirAt_eq
        have isFile : node.dirAt fs.dataStore c₁ = false := by
          rw [Inode.dirAt_congr (c := c), same, known.dirAt_eq_false found]
          rw [unlisted, present.path_eq, Function.update_of_ne (Ne.symm other)]
        have empty := empty_of_exec_remove intact₁.1 isFile performed
        rw [present.path_eq] at empty
        exact absurd empty content
      -- Another path is removed, maybe one above `p`: then the removal reaches `p` and
      -- deletes it, or leaves it alone.
      · have known' := known.learns learns
        have isFile₁ := erases.isDir intact.2 known.isFile
        obtain ⟨-, isFile'⟩ := isFile_of_erases erases_remove intact₁ isFile₁ performed
        refine ⟨?_, isFile', fun i cached => known'.taken i ?_⟩
        · rw [Inodes.get_erase, if_neg self]
          refine known'.found.imp_right fun existing => ?_
          have present₁ : (fs.dataStore.entry c₁ p).exists = true := by
            rw [unlisted, Function.update_apply]
            split
            · rename_i up
              rwa [Entry.exists_withoutChild, ← up]
            · exact existing
          have listed : fs.Listed p c₁ := ⟨intact₁, isFile₁, fun _ => present₁⟩
          refine (listed.of_exec_remove (fun here => ?_) performed).present content
          exact absurd (here.symm.trans present.path_eq) self
        · rwa [Inodes.get_erase, if_neg self] at cached

/-- The handle that a call returns is one of its path. -/
theorem Completed.handle {c c' : Cluster} {inodes inodes' : Inodes} {path : GoString} {op : Op}
    {result : Result} (completed : fs.Completed c inodes path op c' inodes' result) :
    ∀ f ∈ result.handles, f.file.store = fs.dataStore ∧ f.file.path = path := by
  have opened : ∀ {c : Cluster}, Opens fs.dataStore path c c' result →
      ∀ f ∈ result.handles, f.file.store = fs.dataStore ∧ f.file.path = path := by
    intro c opens f member
    cases opens with
    | not noHandle =>
        cases result with
        | handle f' => exact absurd rfl (noHandle f')
        | _ => simp [Result.handles] at member
    | file flag opened =>
        obtain rfl := List.mem_singleton.mp member
        have handle := DataStore.yields_openFile.of_exec opened _ rfl
        exact ⟨handle.store, handle.here⟩
  cases completed with
  | looked learns opens file => exact opened opens
  | created dir mode notRoot inside absent finds isDir learns opens file new => exact opened opens
  | removed removes notRoot inside finds isDir present learns performed =>
      intro f member
      simp [Result.handles] at member

/-- What every step of a client keeps. -/
theorem owned_of_step (intact : fs.Intact s.store) (rooted : fs.Rooted s.inodes)
    (mine : ∀ f ∈ s.handles, f.file.store = fs.dataStore) (next : fs.Step s act s') :
    fs.Intact s'.store ∧ fs.Rooted s'.inodes ∧
      ∀ f ∈ s'.handles, f.file.store = fs.dataStore := by
  cases next with
  | @call c c' inodes inodes' handles cwd op result performed =>
      have completed := completed_of_exec rooted intact.2.typed performed
      refine ⟨(safe_call.preserved intact performed).1, completed.rooted rooted,
        fun f member => ?_⟩
      rcases List.mem_append.mp member with old | new
      · exact mine f old
      · exact (completed.handle f new).1
  | @use c c' inodes handles h f f' op result held performed =>
      have here := mine f (List.mem_of_getElem? held)
      have inv : f.file.store.FileInv c f.file.path := here ▸ intact.1 _
      refine ⟨((File.safe_call here).preserved intact performed).1, rooted, fun g member => ?_⟩
      rcases List.mem_or_eq_of_mem_set member with old | rfl
      · exact mine g old
      · exact (File.performs_of_exec inv performed).1.store.trans here

namespace Backed

theorem fileInv {h : ℕ} {f : File} (backed : fs.Backed p s) (held : s.handles[h]? = some f) :
    f.file.store.FileInv s.store f.file.path :=
  backed.mine f (List.mem_of_getElem? held) ▸ backed.intact.1 _

/-- What is empty stays so, if nothing is added. -/
theorem empty_of_step (backed : fs.Backed p s) (quiet : ¬s.Fills p act)
    (next : fs.Step s act s') (empty : fs.dataStore.Empty s.store p) :
    fs.dataStore.Empty s'.store p := by
  cases next with
  | call performed => exact empty_of_exec_call backed.intact empty performed
  | @use c c' inodes handles h f f' op result held performed =>
      have mine := backed.mine f (List.mem_of_getElem? held)
      by_cases here : f.file.path = p
      · have inv := backed.fileInv held
        have performs := (File.performs_of_exec inv performed).2
        have noContent : ¬f.Adds op := fun adds => quiet ⟨f, held, here, adds⟩
        rw [← mine, ← here] at empty ⊢
        exact performs.empty inv noContent empty
      · have issues : Program.Issues (fun q => MetaOf f.file.path q ∨ DataOf f.file.path q)
            (f.call op) := File.issues_call.mono fun _ => .inr
        exact empty.congr
          (DataStore.untouched_of_issues (s := fs.dataStore) issues performed (Ne.symm here)).2

/-- **One step.**  The act is mindful, and what has content stays known. -/
theorem step (backed : fs.Backed p s) (mindful : fs.Mindful p s act) (next : fs.Step s act s') :
    fs.Backed p s' := by
  obtain ⟨intact, rooted, mine⟩ := owned_of_step backed.intact backed.rooted backed.mine next
  refine ⟨intact, rooted, mine, fun content => ?_⟩
  have before : fs.Known s.store s.inodes p := by
    by_cases fills : s.Fills p act
    · exact mindful fills
    · exact backed.known fun empty => content (backed.empty_of_step fills next empty)
  cases next with
  | @call c c' inodes inodes' handles cwd op result performed =>
      have completed := completed_of_exec backed.rooted backed.intact.2.typed performed
      exact before.of_completed backed.intact (Filepath.isCleanAbs_abs cwd.2 op.name) completed
        content
  | use held performed =>
      exact before.congr
        (congrFun (DataStore.entry_of_issues (s := fs.dataStore) File.issues_call performed) p) rfl

/-- At first no path has content. -/
theorem of_started (started : fs.Started s) (p : GoString) : fs.Backed p s := by
  obtain ⟨stored, same⟩ := exec_new_iff.mp started.new
  have asks : fs.Asks (fs.dataStore.initRequest fs.mountPath true 0o600) := .init _ _ _
  refine ⟨?_, ?_, ?_, fun content => absurd ?_ content⟩
  · rw [stored]
    exact asks.intact (intact_empty fs)
  · rw [Option.some.inj same]
    simp [Rooted, rootOnly, Inodes.single]
  · simp [started.noHandles]
  · rw [stored]
    exact asks.empty (intact_empty fs).1 fun _ => rfl

/-- **A run** in which content is only added under the path while it is known. -/
theorem of_steps (backed : fs.Backed p s) (run : fs.Steps (fs.Mindful p) s s') :
    fs.Backed p s' := by
  induction run with
  | refl => exact backed
  | step earlier asked next ih => exact ih.step asked next

end Backed

/-- A handle stays the one of its file. -/
theorem handle_of_step {h : ℕ} (backed : fs.Backed p s) (next : fs.Step s act s')
    (held : ∃ f, s.handles[h]? = some f ∧ f.file.path = p) :
    ∃ f, s'.handles[h]? = some f ∧ f.file.path = p := by
  obtain ⟨g, held, here⟩ := held
  cases next with
  | call performed =>
      have inside := (List.getElem?_eq_some_iff.mp held).1
      exact ⟨g, by rwa [List.getElem?_append_left inside], here⟩
  | @use c c' inodes handles h' f f' op result used performed =>
      by_cases same : h' = h
      · subst same
        obtain rfl := Option.some.inj (held.symm.trans used)
        have inside := (List.getElem?_eq_some_iff.mp held).1
        refine ⟨f', List.getElem?_set_self inside, ?_⟩
        exact (File.performs_of_exec (backed.fileInv held) performed).1.path.trans here
      · exact ⟨g, by rwa [List.getElem?_set_ne same], here⟩

/-- A creation is a call that finds nothing, and returns a handle of the path. -/
theorem CreatesFile.step (creates : fs.CreatesFile p s s') : fs.lookup s.store s.inodes p = none ∧
    (∃ cwd op, fs.Step s (.call cwd op) s') ∧
    ∃ f, s'.handles[s.handles.length]? = some f ∧ f.file.path = p := by
  obtain ⟨here, -, absent, opened⟩ := creates
  refine ⟨absent, ⟨_, _, .call opened⟩, _, List.getElem?_concat_length, ?_⟩
  exact (handleFor_of_exec opened).here.trans here

/-- **New files are empty.**  In every run of one client in which content is only
added under the path `p` while it is known, a file `p` that `OpenFile` creates is
empty, and nothing is read through the handle that is returned, until something is
added to it.  At the creation nothing is stored under the path, since what has
content is known and a path that is known is found.  Afterwards it stays empty until
an act fills it: operations of other handles work on other content, and calls of the
file system store none. -/
theorem fresh_of_steps {start new later : ClientState} (started : fs.Started start)
    (run : fs.Steps (fs.Mindful p) start s) (creates : fs.CreatesFile p s new)
    (quiet : fs.Steps (fun s act => ¬s.Fills p act) new later) :
    fs.Fresh p s.handles.length later := by
  have backed := (Backed.of_started started p).of_steps run
  suffices all : fs.Backed p later ∧ fs.dataStore.Empty later.store p ∧
      ∃ f, later.handles[s.handles.length]? = some f ∧ f.file.path = p by
    obtain ⟨backed, empty, g, held, here⟩ := all
    refine ⟨(reads_of_empty (backed.intact.1 p) empty).1, ?_⟩
    intro f op c' f' result held' reads performed
    obtain rfl := Option.some.inj (held.symm.trans held')
    rw [← here, ← backed.mine g (List.mem_of_getElem? held)] at empty
    exact File.nothing_of_empty (backed.fileInv held) empty reads performed
  induction quiet with
  | refl =>
      obtain ⟨absent, ⟨cwd, op, next⟩, held⟩ := creates.step
      have empty : fs.dataStore.Empty s.store p := by
        by_contra content
        exact (backed.known content).lookup_ne_none absent
      exact ⟨backed.step (fun fills => (fills : False).elim) next,
        backed.empty_of_step id next empty, held⟩
  | step earlier asked next ih =>
      obtain ⟨backed, empty, held⟩ := ih
      exact ⟨backed.step (fun fills => absurd fills asked) next,
        backed.empty_of_step asked next empty, handle_of_step backed next held⟩

/-! ## A file that is created twice -/

theorem Steps.mono {allowed allowed' : ClientState → Act → Prop} (run : fs.Steps allowed s s')
    (weaker : ∀ s act, allowed s act → allowed' s act) : fs.Steps allowed' s s' := by
  induction run with
  | refl => exact .refl
  | step earlier asked next ih => exact ih.step (weaker _ _ asked) next

/-- A file is created and removed, and `data` is written through the handle that is left.  The
file is not found, and it is created again; its size. -/
def small.reused (data : List UInt8) : Prog ℤ := do
  match ← small.call small.rootOnly small.home (.openFile ['/', 'f'] (oCREATE ||| oRDWR) 0) with
  | (inodes, .handle f) => do
      let (inodes, _) ← small.call inodes small.home (.remove ['/', 'f'])
      let _ ← f.call (.writeAt data 0)
      match ← small.getInode inodes ['/', 'f'] with
      | (_, none) => do
          match ← small.call inodes small.home (.openFile ['/', 'f'] (oCREATE ||| oRDWR) 0) with
          | (_, .handle _) => small.dataStore.getSize ['/', 'f']
          | _ => .panic
      | _ => .panic
  | _ => .panic

/-- What the client does until the second creation. -/
def small.Reuses (data : List UInt8) (_ : ClientState) (act : Act) : Prop :=
  (∃ cwd op, act = .call cwd op) ∨ act = .use 0 (.writeAt data 0)

def small.initial : ClientState := ⟨small.start.1, small.start.2, []⟩

theorem small.started_initial : small.Started small.initial :=
  ⟨Program.exec_run serve small.new _, rfl⟩

/-- What the run does, with any data. -/
theorem small.exec_reused {data : List UInt8} {n : ℤ}
    (returned : (run (small.reused data) small.start.1).2 = some n) : ∃ s s',
      small.Steps (small.Reuses data) small.initial s ∧ small.CreatesFile ['/', 'f'] s s' ∧
      ∃ c, Exec (small.dataStore.getSize ['/', 'f']) s'.store c (some n) := by
  have performed := Program.exec_run serve (small.reused data) small.start.1
  rw [show (Program.run serve (small.reused data) small.start.1).2 = _ from returned] at performed
  obtain ⟨⟨inodes, opened⟩, c, opening, rest⟩ := Program.exec_bind_some_iff.mp performed
  cases opened with
  | handle f =>
      obtain ⟨⟨inodes₁, removed⟩, c₁, removing, rest⟩ := Program.exec_bind_some_iff.mp rest
      obtain ⟨⟨f', result⟩, c₂, wrote, rest⟩ := Program.exec_bind_some_iff.mp rest
      replace rest := exec_getInode_bind.mp rest
      cases found : small.lookup c₂ inodes₁ ['/', 'f'] with
      | some i =>
          rw [found] at rest
          exact absurd rest Program.not_exec_panic_some
      | none =>
          rw [found] at rest
          obtain ⟨⟨inodes₂, opened⟩, c₃, opening', sized⟩ := Program.exec_bind_some_iff.mp rest
          cases opened with
          | handle g =>
              have one : small.Step small.initial _ ⟨c, inodes, [f]⟩ := .call opening
              have two : small.Step ⟨c, inodes, [f]⟩ _ ⟨c₁, inodes₁, [f] ++ removed.handles⟩ :=
                .call removing
              have three : small.Step ⟨c₁, inodes₁, [f] ++ removed.handles⟩ _
                  ⟨c₂, inodes₁, ([f] ++ removed.handles).set 0 f'⟩ := .use rfl wrote
              refine ⟨_, _, .step (.step (.step .refl ?_ one) ?_ two) ?_ three,
                .intro rfl (by decide) found opening', _, sized⟩
              · exact .inl ⟨_, _, rfl⟩
              · exact .inl ⟨_, _, rfl⟩
              · exact .inr rfl
          | _ => exact absurd sized Program.not_exec_panic_some
  | _ => exact absurd rest Program.not_exec_panic_some

theorem small.run_reused : (run (small.reused []) small.start.1).2 = some 0 ∧
    (run (small.reused [1]) small.start.1).2 = some 1 := by
  decide +kernel

/-- Nothing is written in between. -/
theorem fresh_reused : ∃ s s', small.Started small.initial ∧
    small.Steps (small.Mindful ['/', 'f']) small.initial s ∧ small.CreatesFile ['/', 'f'] s s' ∧
    small.Fresh ['/', 'f'] s.handles.length s' := by
  obtain ⟨s, s', run, creates, -⟩ := small.exec_reused small.run_reused.1
  have mindful : small.Steps (small.Mindful ['/', 'f']) small.initial s := by
    refine run.mono fun s act reuses fills => ?_
    rcases reuses with ⟨cwd, op, rfl⟩ | rfl
    · exact (fills : False).elim
    · obtain ⟨f, -, -, ⟨off, data, written, some⟩ | ⟨size, truncates, -⟩⟩ := fills
      · exact absurd (Prod.mk.inj (Option.some.inj written)).2.symm some
      · simp at truncates
  exact ⟨s, s', small.started_initial, mindful, creates,
    fresh_of_steps small.started_initial mindful creates .refl⟩

/-- A byte that is written through a handle of the removed file is in the new one. -/
theorem not_fresh_reused : ∃ start s s' later, small.Started start ∧
    small.Steps (fun _ _ => True) start s ∧ small.CreatesFile ['/', 'f'] s s' ∧
    small.Steps (fun s act => ¬s.Fills ['/', 'f'] act) s' later ∧
    ¬small.Fresh ['/', 'f'] s.handles.length later := by
  obtain ⟨s, s', run, creates, c, sized⟩ := small.exec_reused small.run_reused.2
  refine ⟨_, s, s', s', small.started_initial, run.mono fun _ _ _ => trivial, creates, .refl, ?_⟩
  intro fresh
  have none := (fresh.size _ _ sized).2
  simp at none

end RedisFS

end Pdwfs
