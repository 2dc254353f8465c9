import Pdwfs.Redisfs.Calls

/-!
# The inodes in memory

A client trusts the inodes that it has in memory.  This module is about what it can
see of that in one call.

* `Faithful` — what is in memory about a path and its parent directory answers a
  lookup as Redis would.
* `Alike` — two answers of a lookup that say the same.
* `exec_answer_congr` — a call has the same runs on any two sets of inodes in memory
  that it may trust.
* `statAt`, `exec_answer_stat` — what `Stat` returns, as a function.

## Two memories

That the inodes in memory make no difference is a statement about two memories: the
one that the client has, and one that holds the root only.  It is proved for any two
memories that may be trusted, so that the two sides are the same, and the client
with an empty memory is just one of them.

The two calls do not send the same requests, since the one with less in memory has
to ask more.  They are compared by what they do to the store and by what they
return.  `Alike` is the point where they meet again: behind the lookups, both have
an answer of the same kind, about inodes with the same path that are directories or
not.

## What has to be right

`Faithful` is as weak as it can be made.  A lookup consults the parent, and only if
it is a directory, the path.  So the inode of the path may be anything as long as
the parent is no directory in Redis; and of the parent only the answer to `IsDir` is
used, also if it does not exist any more.
-/

namespace Pdwfs

open Concurrency Redis

namespace RedisFS

variable {fs : RedisFS} {inodes inodes' inodes₁ inodes₂ : Inodes} {c c' : Cluster}
  {path : GoString} {α : Type} {outcome : Option α}

/-! ## Lookups that answer as Redis would -/

/-- What is in memory about a path and its parent directory is what Redis holds, as
far as a lookup of the path makes use of it. -/
structure Faithful (fs : RedisFS) (c : Cluster) (inodes : Inodes) (path : GoString) : Prop where
  parent : ∀ i, inodes.get (Filepath.dir path) = some i →
    i.dirAt fs.dataStore c = (fs.dataStore.entry c (Filepath.dir path)).isDir
  node : (fs.dataStore.entry c (Filepath.dir path)).isDir = true → fs.Right c inodes path

/-- The namespace that Redis holds is well formed. -/
abbrev Tidy (fs : RedisFS) (c : Cluster) : Prop := WellFormed fs.mountPath (fs.dataStore.entry c)

namespace Faithful

/-- The parent that is found is a directory if the parent directory exists. -/
theorem dirAt_parent (faithful : fs.Faithful c inodes path) {parent : Inode}
    (finds : fs.Finds c inodes (Filepath.dir path) parent) :
    parent.dirAt fs.dataStore c = (fs.dataStore.entry c (Filepath.dir path)).isDir := by
  obtain ⟨i, found, same⟩ := finds.dirAt_eq
  rw [same]
  rw [lookup] at found
  split at found
  · rename_i cached
    rw [← Option.some.inj found]
    exact faithful.parent _ cached
  · split at found
    · rw [← Option.some.inj found]
      rfl
    · simp at found

/-- Lookups keep that. -/
theorem learns (faithful : fs.Faithful c inodes path) (learns : fs.Learns c inodes inodes') :
    fs.Faithful c inodes' path where
  parent i cached := faithful.dirAt_parent (.of_learns learns
    ⟨i, lookup_of_cached cached, .inl rfl⟩)
  node isDir := (faithful.node isDir).learns learns

end Faithful

/-- What `fileInfo` answers, when it answers as Redis would: each of its answers
determines what Redis holds. -/
theorem Info.verdict {answer : Inodes × Except FsError (Option Inode × Option Inode)}
    (info : fs.Info c inodes path answer) (tidy : fs.Tidy c)
    (faithful : fs.Faithful c inodes path) :
    match answer.2 with
    | .ok (none, _) => path = fs.mountPath
    | .error _ => path ≠ fs.mountPath ∧
        (fs.dataStore.entry c (Filepath.dir path)).isDir = false
    | .ok (some _, none) => path ≠ fs.mountPath ∧
        (fs.dataStore.entry c (Filepath.dir path)).isDir = true ∧
        (fs.dataStore.entry c path).exists = false
    | .ok (some _, some node) => path ≠ fs.mountPath ∧
        (fs.dataStore.entry c (Filepath.dir path)).isDir = true ∧
        (fs.dataStore.entry c path).exists = true ∧
        node.dirAt fs.dataStore c = (fs.dataStore.entry c path).isDir := by
  cases info with
  | root isRoot => exact isRoot
  | noParent notRoot learns noParent =>
      refine ⟨notRoot, ?_⟩
      cases found : fs.lookup c inodes (Filepath.dir path) with
      | none => exact tidy.isDir_of_absent (lookup_eq_none.mp found).2
      | some parent =>
          have finds : fs.Finds c inodes (Filepath.dir path) parent := ⟨parent, found, .inl rfl⟩
          rw [← faithful.dirAt_parent finds]
          exact noParent parent finds
  | absent notRoot learns finds isDir absent =>
      rw [faithful.dirAt_parent finds] at isDir
      exact ⟨notRoot, isDir, (lookup_eq_none.mp absent).2⟩
  | present notRoot learns finds isDir present cached =>
      rw [faithful.dirAt_parent finds] at isDir
      exact ⟨notRoot, isDir, present.right (faithful.node isDir)⟩

/-! ## Two sets of inodes in memory -/

/-- The path of the parent directory.  The root has none. -/
def parentPath (fs : RedisFS) (path : GoString) : Option GoString :=
  if path = fs.mountPath then none else some (Filepath.dir path)

/-- Two answers of `fileInfo` that say the same about a path. -/
inductive Alike (fs : RedisFS) (c : Cluster) (path : GoString) (inodes₁ inodes₂ : Inodes) :
    Inodes × Except FsError (Option Inode × Option Inode) →
      Inodes × Except FsError (Option Inode × Option Inode) → Prop
  | failed {i₁ i₂ : Inodes} (learns₁ : fs.Learns c inodes₁ i₁) (learns₂ : fs.Learns c inodes₂ i₂)
      (err : FsError) : Alike fs c path inodes₁ inodes₂ (i₁, .error err) (i₂, .error err)
  | absent {i₁ i₂ : Inodes} {p₁ p₂ : Inode} (learns₁ : fs.Learns c inodes₁ i₁)
      (learns₂ : fs.Learns c inodes₂ i₂) (parent₁ : p₁.path = Filepath.dir path)
      (parent₂ : p₂.path = Filepath.dir path) :
      Alike fs c path inodes₁ inodes₂ (i₁, .ok (some p₁, none)) (i₂, .ok (some p₂, none))
  | present {i₁ i₂ : Inodes} {p₁ p₂ : Option Inode} {n₁ n₂ : Inode}
      (learns₁ : fs.Learns c inodes₁ i₁) (learns₂ : fs.Learns c inodes₂ i₂)
      (parent₁ : p₁.map Inode.path = fs.parentPath path)
      (parent₂ : p₂.map Inode.path = fs.parentPath path)
      (cached₁ : i₁.get path = some n₁) (cached₂ : i₂.get path = some n₂)
      (dirs : n₁.dirAt fs.dataStore c = n₂.dirAt fs.dataStore c) :
      Alike fs c path inodes₁ inodes₂ (i₁, .ok (p₁, some n₁)) (i₂, .ok (p₂, some n₂))

/-- What a client has in memory, when all that a call may find there is right.  The
root is a special case, since it is looked up without a parent. -/
structure Trusted (fs : RedisFS) (c : Cluster) (inodes : Inodes) (path : GoString) : Prop where
  rooted : fs.Rooted inodes
  root : (fs.root inodes).dirAt fs.dataStore c = true
  faithful : fs.Faithful c inodes path

/-- What is learned by a lookup may be trusted as well, since it comes from Redis.
-/
theorem Trusted.learns (trusted : fs.Trusted c inodes path)
    (learns : fs.Learns c inodes inodes') : fs.Trusted c inodes' path where
  rooted := trusted.rooted.learns learns
  root := by
    obtain ⟨i, found, same⟩ := (Finds.of_learns learns
      ⟨_, (trusted.rooted.learns learns).lookup, .inl rfl⟩).dirAt_eq
    rw [trusted.rooted.lookup] at found
    rw [same, ← Option.some.inj found]
    exact trusted.root
  faithful := trusted.faithful.learns learns

/-- **Lookups on two memories** that may be trusted say the same. -/
theorem alike_fileInfoAt (tidy : fs.Tidy c) (trusted₁ : fs.Trusted c inodes₁ path)
    (trusted₂ : fs.Trusted c inodes₂ path) :
    fs.Alike c path inodes₁ inodes₂ (fs.fileInfoAt c inodes₁ path)
      (fs.fileInfoAt c inodes₂ path) := by
  have info₁ := info_fileInfoAt fs c inodes₁ path
  have info₂ := info_fileInfoAt fs c inodes₂ path
  have verdict₁ := info₁.verdict tidy trusted₁.faithful
  have verdict₂ := info₂.verdict tidy trusted₂.faithful
  generalize fs.fileInfoAt c inodes₁ path = answer₁ at info₁ verdict₁
  generalize fs.fileInfoAt c inodes₂ path = answer₂ at info₂ verdict₂
  -- Both answers are determined by what Redis holds, so they are of the same kind.
  cases info₁ with
  | root isRoot =>
      cases info₂ with
      | root _ =>
          subst isRoot
          have noParent : none = fs.parentPath fs.mountPath := by rw [parentPath, if_pos rfl]
          exact .present (.refl fs _ _) (.refl fs _ _) noParent noParent
            (cached_root trusted₁.rooted) (cached_root trusted₂.rooted)
            (trusted₁.root.trans trusted₂.root.symm)
      | _ => exact absurd isRoot verdict₂.1
  | noParent notRoot learns noParent =>
      cases info₂ with
      | root isRoot => exact absurd isRoot notRoot
      | noParent _ learns₂ _ => exact .failed learns learns₂ _
      | _ => simp [verdict₁.2] at verdict₂
  | absent notRoot learns finds isDir absent =>
      cases info₂ with
      | root isRoot => exact absurd isRoot notRoot
      | noParent _ _ _ => simp [verdict₂.2] at verdict₁
      | absent _ learns₂ finds₂ _ _ => exact .absent learns learns₂ finds.path_eq finds₂.path_eq
      | present _ _ _ _ _ _ => simp [verdict₁.2.2] at verdict₂
  | present notRoot learns finds isDir present cached =>
      cases info₂ with
      | root isRoot => exact absurd isRoot notRoot
      | noParent _ _ _ => simp [verdict₂.2] at verdict₁
      | absent _ _ _ _ _ => simp [verdict₂.2.2] at verdict₁
      | present _ learns₂ finds₂ _ present₂ cached₂ =>
          have parents : ∀ {p : Inode}, p.path = Filepath.dir path →
              (some p).map Inode.path = fs.parentPath path := by
            intro p same
            rw [parentPath, if_neg notRoot, Option.map_some, same]
          exact .present learns learns₂ (parents finds.path_eq) (parents finds₂.path_eq) cached
            cached₂ (verdict₁.2.2.2.trans verdict₂.2.2.2.symm)

/-- The result of a call, without the inodes in memory. -/
def answer (fs : RedisFS) (inodes : Inodes) (cwd : Filepath.WorkingDir) (op : Op) :
    Prog Result := do
  let (_, result) ← fs.call inodes cwd op
  return result

variable {cwd : Filepath.WorkingDir} {name : GoString}

/-- `Mkdir`, on two memories. -/
theorem exec_mkdir_congr (tidy : fs.Tidy c)
    (trusted₁ : fs.Trusted c inodes₁ (Filepath.abs cwd name))
    (trusted₂ : fs.Trusted c inodes₂ (Filepath.abs cwd name)) {perm : FileMode}
    {f : Option FsError → Prog α} :
    Exec (fs.mkdir inodes₁ cwd name perm >>= fun (_, err) => f err) c c' outcome ↔
      Exec (fs.mkdir inodes₂ cwd name perm >>= fun (_, err) => f err) c c' outcome := by
  unfold mkdir
  cases valid : fs.validatePath cwd name with
  | some err => rfl
  | none =>
      simp only [Program.bind_assoc]
      rw [exec_fileInfo_bind, exec_fileInfo_bind]
      have alike := alike_fileInfoAt tidy trusted₁ trusted₂
      generalize Filepath.abs cwd name = path at alike ⊢
      generalize fs.fileInfoAt c inodes₁ path = answer₁ at alike ⊢
      generalize fs.fileInfoAt c inodes₂ path = answer₂ at alike ⊢
      cases alike with
      | failed learns₁ learns₂ err => rfl
      | absent learns₁ learns₂ parent₁ parent₂ =>
          simp only [Program.bind_assoc]
          rw [exec_createInode_bind tidy.typed parent₁, exec_createInode_bind tidy.typed parent₂]
          rfl
      | present learns₁ learns₂ parent₁ parent₂ cached₁ cached₂ dirs =>
          simp only [Inodes.path_eq _ cached₁, Inodes.path_eq _ cached₂]
          split
          · rfl
          · rfl

/-- What follows after a directory has been read may depend on what has been looked up
meanwhile. -/
theorem exec_readDir_congr (tidy : fs.Tidy c)
    (trusted₁ : fs.Trusted c inodes₁ (Filepath.abs cwd name))
    (trusted₂ : fs.Trusted c inodes₂ (Filepath.abs cwd name))
    {f g : Inodes × Except FsError (List Inode) → Prog α}
    (rest : ∀ i₁ i₂ fis, fs.Learns c inodes₁ i₁ → fs.Learns c inodes₂ i₂ →
      (Exec (f (i₁, fis)) c c' outcome ↔ Exec (g (i₂, fis)) c c' outcome)) :
    Exec (fs.readDir inodes₁ cwd name >>= f) c c' outcome ↔
      Exec (fs.readDir inodes₂ cwd name >>= g) c c' outcome := by
  unfold readDir
  cases valid : fs.validatePath cwd name with
  | some err => exact rest _ _ _ (.refl fs _ _) (.refl fs _ _)
  | none =>
      simp only [Program.bind_assoc]
      rw [exec_fileInfo_bind, exec_fileInfo_bind]
      have alike := alike_fileInfoAt tidy trusted₁ trusted₂
      generalize Filepath.abs cwd name = path at alike ⊢
      generalize fs.fileInfoAt c inodes₁ path = answer₁ at alike ⊢
      generalize fs.fileInfoAt c inodes₂ path = answer₂ at alike ⊢
      cases alike with
      | failed learns₁ learns₂ err => exact rest _ _ _ learns₁ learns₂
      | absent learns₁ learns₂ parent₁ parent₂ => exact rest _ _ _ learns₁ learns₂
      | @present i₁ i₂ _ _ n₁ n₂ learns₁ learns₂ parent₁ parent₂ cached₁ cached₂ dirs =>
          have path₁ := i₁.path_eq cached₁
          have path₂ := i₂.path_eq cached₂
          have asked₁ := learns₁.asked cached₁
          have asked₂ := learns₂.asked cached₂
          simp only [Program.bind_assoc]
          rw [Inode.exec_isDir_bind, Inode.exec_isDir_bind]
          simp only [dirs]
          cases n₂.dirAt fs.dataStore c with
          | false => exact rest _ _ _ asked₁ asked₂
          | true =>
              simp only [ite_true, Program.bind_assoc]
              rw [Inode.exec_getChildren_bind (tidy.typed _),
                Inode.exec_getChildren_bind (tidy.typed _)]
              simp only [Inode.dirAt_seen, dirs, Inode.path_seen, path₁, path₂, Inode.listed]
              split
              · split
                · rfl
                · exact rest _ _ _ asked₁ asked₂
              · exact rest _ _ _ asked₁ asked₂

/-- `OpenFile`, on two memories. -/
theorem exec_openFile_congr (tidy : fs.Tidy c)
    (trusted₁ : fs.Trusted c inodes₁ (Filepath.abs cwd name))
    (trusted₂ : fs.Trusted c inodes₂ (Filepath.abs cwd name)) {flag : Flags} {perm : FileMode}
    {f : Except FsError File → Prog α} :
    Exec (fs.openFile inodes₁ cwd name flag perm >>= fun (_, file) => f file) c c' outcome ↔
      Exec (fs.openFile inodes₂ cwd name flag perm >>= fun (_, file) => f file) c c' outcome := by
  unfold openFile
  cases valid : fs.validatePath cwd name with
  | some err => rfl
  | none =>
      simp only [Program.bind_assoc]
      rw [exec_fileInfo_bind, exec_fileInfo_bind]
      have alike := alike_fileInfoAt tidy trusted₁ trusted₂
      generalize Filepath.abs cwd name = path at alike ⊢
      generalize fs.fileInfoAt c inodes₁ path = answer₁ at alike ⊢
      generalize fs.fileInfoAt c inodes₂ path = answer₂ at alike ⊢
      cases alike with
      | failed learns₁ learns₂ err => rfl
      | absent learns₁ learns₂ parent₁ parent₂ =>
          simp only
          split
          · simp only [Program.bind_assoc]
            rw [exec_createInode_bind tidy.typed parent₁,
              exec_createInode_bind tidy.typed parent₂, Inode.exec_getFile_bind,
              Inode.exec_getFile_bind]
            rfl
          · rfl
      | @present i₁ i₂ _ _ n₁ n₂ learns₁ learns₂ parent₁ parent₂ cached₁ cached₂ dirs =>
          simp only
          split
          · rfl
          · simp only [Program.bind_assoc]
            rw [Inode.exec_isDir_bind, Inode.exec_isDir_bind]
            simp only [dirs]
            cases n₂.dirAt fs.dataStore c with
            | true => rfl
            | false =>
                simp only [Bool.false_eq_true, ite_false, Program.bind_assoc]
                rw [Inode.exec_getFile_bind, Inode.exec_getFile_bind]
                simp only [Inode.dirAt_seen, dirs, Inode.path_seen, i₁.path_eq cached₁,
                  i₂.path_eq cached₂]
                rfl

/-- `Remove`, on two memories. -/
theorem exec_remove_congr (tidy : fs.Tidy c)
    (trusted₁ : fs.Trusted c inodes₁ (Filepath.abs cwd name))
    (trusted₂ : fs.Trusted c inodes₂ (Filepath.abs cwd name)) {f : Option FsError → Prog α} :
    Exec (fs.remove inodes₁ cwd name >>= fun (_, err) => f err) c c' outcome ↔
      Exec (fs.remove inodes₂ cwd name >>= fun (_, err) => f err) c c' outcome := by
  unfold remove
  cases valid : fs.validatePath cwd name with
  | some err => rfl
  | none =>
      have inside := validatePath_eq_none valid
      have isClean := Filepath.isCleanAbs_abs cwd.2 name
      simp only [Program.bind_assoc]
      rw [exec_fileInfo_bind, exec_fileInfo_bind]
      have alike := alike_fileInfoAt tidy trusted₁ trusted₂
      generalize Filepath.abs cwd name = path at alike inside isClean ⊢
      generalize fs.fileInfoAt c inodes₁ path = answer₁ at alike ⊢
      generalize fs.fileInfoAt c inodes₂ path = answer₂ at alike ⊢
      cases alike with
      | failed learns₁ learns₂ err => rfl
      | absent learns₁ learns₂ parent₁ parent₂ => rfl
      | @present i₁ i₂ p₁ p₂ n₁ n₂ learns₁ learns₂ parent₁ parent₂ cached₁ cached₂ dirs =>
          have path₁ := i₁.path_eq cached₁
          have path₂ := i₂.path_eq cached₂
          rw [parentPath] at parent₁ parent₂
          split at parent₁
          · obtain rfl := Option.map_eq_none_iff.mp parent₁
            rw [if_pos ‹_›] at parent₂
            obtain rfl := Option.map_eq_none_iff.mp parent₂
            rfl
          · rename_i notRoot
            rw [if_neg notRoot] at parent₂
            obtain ⟨p₁, rfl, above₁⟩ := Option.map_eq_some_iff.mp parent₁
            obtain ⟨p₂, rfl, above₂⟩ := Option.map_eq_some_iff.mp parent₂
            have other : Filepath.dir path ≠ path :=
              Filepath.dir_ne_self fs.cleanMount isClean inside notRoot
            simp only [Program.bind_assoc, removeInode]
            rw [Inode.exec_removeChild_bind (tidy.typed _),
              Inode.exec_removeChild_bind (tidy.typed _), above₁, above₂, path₁, path₂]
            have entries := fs.dataStore.entry_remRequest (tidy.typed (Filepath.dir path)) path
            -- The request on the parent directory leaves the entry of the path.
            have kept : ∀ {n : Inode}, n.path = path →
                n.dirAt fs.dataStore
                  (serve (fs.dataStore.remRequest (Filepath.dir path) path) c).1 =
                n.dirAt fs.dataStore c := by
              intro n same
              apply Inode.dirAt_congr
              rw [entries, same, Function.update_of_ne other.symm]
            rw [Inode.exec_remove_congr ?_ (path₁.trans path₂.symm)
              ((kept path₁).trans (dirs.trans (kept path₂).symm))]
            · rfl
            · rw [entries, path₁, Function.update_of_ne other.symm]
              exact tidy.typed path

/-- `RmDir`, on two memories. -/
theorem exec_rmDir_congr (tidy : fs.Tidy c)
    (trusted₁ : fs.Trusted c inodes₁ (Filepath.abs cwd name))
    (trusted₂ : fs.Trusted c inodes₂ (Filepath.abs cwd name)) {f : Option FsError → Prog α} :
    Exec (fs.rmDir inodes₁ cwd name >>= fun (_, err) => f err) c c' outcome ↔
      Exec (fs.rmDir inodes₂ cwd name >>= fun (_, err) => f err) c c' outcome := by
  unfold rmDir
  cases valid : fs.validatePath cwd name with
  | some err => rfl
  | none =>
      simp only [Program.bind_assoc]
      rw [← Filepath.abs_clean] at trusted₁ trusted₂
      refine exec_readDir_congr tidy trusted₁ trusted₂ fun i₁ i₂ fis learns₁ learns₂ => ?_
      cases fis with
      | error err => rfl
      | ok entries =>
          simp only
          split
          · rfl
          · exact exec_remove_congr tidy (trusted₁.learns learns₁) (trusted₂.learns learns₂)

/-- What follows may depend on the path of the inode, not on what is known of it. -/
theorem exec_stat_congr (tidy : fs.Tidy c)
    (trusted₁ : fs.Trusted c inodes₁ (Filepath.abs cwd name))
    (trusted₂ : fs.Trusted c inodes₂ (Filepath.abs cwd name))
    {f : Except FsError Inode → Prog α}
    (congr : ∀ i j : Inode, i.path = j.path → f (.ok i) = f (.ok j)) :
    Exec (fs.stat inodes₁ cwd name >>= fun (_, fi) => f fi) c c' outcome ↔
      Exec (fs.stat inodes₂ cwd name >>= fun (_, fi) => f fi) c c' outcome := by
  unfold stat
  cases valid : fs.validatePath cwd name with
  | some err => rfl
  | none =>
      simp only [Program.bind_assoc]
      rw [exec_fileInfo_bind, exec_fileInfo_bind]
      have alike := alike_fileInfoAt tidy trusted₁ trusted₂
      generalize Filepath.abs cwd name = path at alike ⊢
      generalize fs.fileInfoAt c inodes₁ path = answer₁ at alike ⊢
      generalize fs.fileInfoAt c inodes₂ path = answer₂ at alike ⊢
      cases alike with
      | failed learns₁ learns₂ err => rfl
      | absent learns₁ learns₂ parent₁ parent₂ => rfl
      | @present i₁ i₂ _ _ n₁ n₂ learns₁ learns₂ parent₁ parent₂ cached₁ cached₂ dirs =>
          have same : n₁.path = n₂.path := (i₁.path_eq cached₁).trans (i₂.path_eq cached₂).symm
          show Exec (f (.ok n₁)) c c' outcome ↔ Exec (f (.ok n₂)) c c' outcome
          rw [congr n₁ n₂ same]

/-- **A call has the same runs** on any two sets of inodes in memory that it may trust. -/
theorem exec_answer_congr {op : Op} {outcome : Option Result} (tidy : fs.Tidy c)
    (trusted₁ : fs.Trusted c inodes₁ (op.path cwd))
    (trusted₂ : fs.Trusted c inodes₂ (op.path cwd)) :
    Exec (fs.answer inodes₁ cwd op) c c' outcome ↔
      Exec (fs.answer inodes₂ cwd op) c c' outcome := by
  unfold answer call
  cases op with
  | mkdir name perm =>
      rw [Program.bind_assoc, Program.bind_assoc]
      exact exec_mkdir_congr (f := fun err => .ret (Result.ofOption err)) tidy trusted₁ trusted₂
  | readDir name =>
      rw [Program.bind_assoc, Program.bind_assoc]
      exact exec_readDir_congr tidy trusted₁ trusted₂ fun _ _ _ _ _ => Iff.rfl
  | rmDir name =>
      rw [Program.bind_assoc, Program.bind_assoc]
      exact exec_rmDir_congr (f := fun err => .ret (Result.ofOption err)) tidy trusted₁ trusted₂
  | openFile name flag perm =>
      rw [Program.bind_assoc, Program.bind_assoc]
      exact exec_openFile_congr (f := fun file => .ret (Result.ofExcept Result.handle file)) tidy
        trusted₁ trusted₂
  | remove name =>
      rw [Program.bind_assoc, Program.bind_assoc]
      exact exec_remove_congr (f := fun err => .ret (Result.ofOption err)) tidy trusted₁ trusted₂
  | stat name =>
      rw [Program.bind_assoc, Program.bind_assoc]
      refine exec_stat_congr (f := fun fi => .ret (Result.ofExcept (fun fi => .info fi.path) fi))
        tidy trusted₁ trusted₂ fun i j same => ?_
      simp only [Result.ofExcept, same]

/-- What `Stat` returns. -/
def statAt (fs : RedisFS) (c : Cluster) (inodes : Inodes) (cwd : Filepath.WorkingDir)
    (name : GoString) : Result :=
  match fs.validatePath cwd name with
  | some err => .error (.pathError "stat" name err)
  | none =>
      match (fs.fileInfoAt c inodes (Filepath.abs cwd name)).2 with
      | .error err => .error (.pathError "stat" name err)
      | .ok (_, none) => .error (.pathError "stat" name .notExist)
      | .ok (_, some fi) => .info fi.path

/-- `Stat` changes nothing, and returns what `statAt` says. -/
theorem exec_answer_stat {outcome : Option Result} :
    Exec (fs.answer inodes cwd (.stat name)) c c' outcome ↔
      c' = c ∧ outcome = some (fs.statAt c inodes cwd name) := by
  show Exec ((fs.stat inodes cwd name >>= _) >>= _) c c' outcome ↔ _
  unfold stat statAt
  cases fs.validatePath cwd name with
  | some err => exact Program.exec_ret_iff
  | none =>
      simp only [Program.bind_assoc]
      rw [exec_fileInfo_bind]
      rcases fs.fileInfoAt c inodes (Filepath.abs cwd name) with ⟨i, err | ⟨parent, _ | node⟩⟩
      · exact Program.exec_ret_iff
      · exact Program.exec_ret_iff
      · exact Program.exec_ret_iff

/-- A path that exists is found, as what it is. -/
theorem Trusted.found (trusted : fs.Trusted c inodes path) (tidy : fs.Tidy c)
    (present : (fs.dataStore.entry c path).exists = true) :
    ∃ i parent node, fs.fileInfoAt c inodes path = (i, .ok (parent, some node)) ∧
      node.path = path ∧ node.dirAt fs.dataStore c = (fs.dataStore.entry c path).isDir := by
  have info := info_fileInfoAt fs c inodes path
  have verdict := info.verdict tidy trusted.faithful
  generalize fs.fileInfoAt c inodes path = answer at info verdict
  have parents := fun notRoot => (tidy.parents path present notRoot).1
  cases info with
  | root isRoot =>
      refine ⟨_, _, _, rfl, path_root.trans isRoot.symm, ?_⟩
      rw [trusted.root, isRoot, tidy.root]
  | noParent notRoot learns noParent =>
      rw [parents notRoot] at verdict
      simp at verdict
  | absent notRoot learns finds isDir absent =>
      rw [present] at verdict
      simp at verdict
  | present notRoot learns finds isDir found cached =>
      exact ⟨_, _, _, rfl, found.path_eq, verdict.2.2.2⟩

theorem validatePath_of_inside (inside : fs.mountPath <+: Filepath.abs cwd name) :
    fs.validatePath cwd name = none := if_pos inside

/-- `Stat` finds a path that exists. -/
theorem statAt_of_exists (tidy : fs.Tidy c)
    (trusted : fs.Trusted c inodes (Filepath.abs cwd name))
    (present : (fs.dataStore.entry c (Filepath.abs cwd name)).exists = true) :
    fs.statAt c inodes cwd name = .info (Filepath.abs cwd name) := by
  obtain ⟨i, parent, node, answer, isPath, -⟩ := trusted.found tidy present
  rw [statAt, validatePath_of_inside (tidy.inside _ present).2]
  simp only [answer, isPath]

/-- The children of a directory, as `ReadDir` lists them. -/
def children (fs : RedisFS) (c : Cluster) (path : GoString) : List GoString :=
  ((Inode.listed fs.dataStore c { path := path }).insertionSort (byName · ·)).map Inode.path

/-- `ReadDir` lists the children of a directory. -/
theorem exec_answer_readDir {outcome : Option Result} (tidy : fs.Tidy c)
    (trusted : fs.Trusted c inodes (Filepath.abs cwd name))
    (isDir : (fs.dataStore.entry c (Filepath.abs cwd name)).isDir = true) :
    Exec (fs.answer inodes cwd (.readDir name)) c c' outcome ↔
      c' = c ∧ outcome = some (.listing (fs.children c (Filepath.abs cwd name))) := by
  obtain ⟨present, member⟩ := tidy.dirs _ isDir
  obtain ⟨i, parent, node, answer, isPath, dirAt⟩ := trusted.found tidy present
  rw [isDir] at dirAt
  show Exec ((fs.readDir inodes cwd name >>= _) >>= _) c c' outcome ↔ _
  unfold readDir
  rw [validatePath_of_inside (tidy.inside _ present).2]
  simp only [Program.bind_assoc]
  rw [exec_fileInfo_bind, answer]
  simp only [Program.bind_assoc]
  rw [Inode.exec_isDir_bind]
  simp only [dirAt, ite_true, Program.bind_assoc]
  rw [Inode.exec_getChildren_bind (tidy.typed _)]
  have some : (fs.dataStore.entry c (node.seen fs.dataStore c).path).members ≠ [] := by
    rw [Inode.path_seen, isPath]
    exact List.ne_nil_of_mem member
  rw [Inode.dirAt_seen, if_pos dirAt, if_neg some, children]
  simp only [Inode.listed, Inode.path_seen, isPath]
  exact Program.exec_ret_iff

/-- The listing of a directory has the paths in its set, but the empty string. -/
theorem mem_children {x : GoString} :
    x ∈ fs.children c path ↔ Lists (fs.dataStore.entry c) path x := by
  simp [children, Inode.listed, Lists]

end RedisFS

end Pdwfs
