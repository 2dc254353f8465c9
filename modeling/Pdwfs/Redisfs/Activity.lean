import Pdwfs.Redisfs.Client

/-!
# What the clients of a mount send

* `Asks` — the requests that a call of the file system may issue; `asks_call` says
  that there are no others.  Those of a removal are `Erases`.
* `Linked` — what a directory lists is right below it, and no directory is without
  members.  Every request keeps this, so it holds whoever is in the middle of which
  call.
* `Activity`, `intact_of_configuration` — the clients of a mount, and what holds of
  every state that they reach.

## An invariant of requests

A call of the file system is many requests, and between any two of them there may be
requests of others.  So what is to hold of every state has to be kept by each
request on its own, and cannot be something that a call restores before it returns.
That a path which exists is listed in its directory is not of this kind; between the
two requests of a creation it is false.

What is left is little, but it is what the other modules need to reason about calls
among others: the keys have the types that the program expects, no set of children
is empty, and what a directory lists is longer than the directory.  The last is what
makes the recursion of a removal end.

## Counting requests

`asks_call` goes through all calls once, and finds six kinds of requests.  Every
invariant of requests is then a matter of six cases.  `issues_mkdir` and
`issues_openFile` say the same for any set of requests that is large enough, since
other modules ask what is sent by a client that only creates, or that only works on
one path.
-/

namespace Pdwfs

open Concurrency Redis

namespace RedisFS

/-- The requests that the calls on a mount are made of.  A path is only added to the
directory that its name says. -/
inductive Asks (fs : RedisFS) : Request → Prop
  | read {q : Request} (readOnly : q.writes = []) : Asks fs q
  | init (path : GoString) (isDir : Bool) (mode : FileMode) :
      Asks fs (fs.dataStore.initRequest path isDir mode)
  | add {path : GoString} (isClean : Filepath.IsCleanAbs path) (inside : fs.mountPath <+: path)
      (notRoot : path ≠ fs.mountPath) :
      Asks fs (fs.dataStore.addRequest (Filepath.dir path) path)
  | rem (parent child : GoString) : Asks fs (fs.dataStore.remRequest parent child)
  | unlink (path : GoString) : Asks fs (fs.dataStore.unlinkRequest path)
  | removeStripe (name : GoString) (id : ℤ) : Asks fs (fs.dataStore.removeStripe name id)

/-- The requests that only read or delete.  A removal consists of these. -/
inductive Erases (fs : RedisFS) : Request → Prop
  | read {q : Request} (readOnly : q.writes = []) : Erases fs q
  | rem (parent child : GoString) : Erases fs (fs.dataStore.remRequest parent child)
  | unlink (path : GoString) : Erases fs (fs.dataStore.unlinkRequest path)
  | removeStripe (name : GoString) (id : ℤ) : Erases fs (fs.dataStore.removeStripe name id)

variable {fs : RedisFS} {inodes : Inodes} {path : GoString} {i : Inode}

theorem Erases.asks {q : Request} (erases : fs.Erases q) : fs.Asks q := by
  cases erases with
  | read readOnly => exact .read readOnly
  | rem parent child => exact .rem parent child
  | unlink path => exact .unlink path
  | removeStripe name id => exact .removeStripe name id

/-! ## The requests of an inode -/

/-- The functions that ask only read. -/
theorem reads_exists : Program.Issues (fun q => q.writes = []) (i.exists fs.dataStore) := by
  rw [Inode.exists_eq]
  refine Program.Issues.bind (Program.issues_request ?_) fun reply => ?_
  · rfl
  · split <;> trivial

theorem reads_isDir : Program.Issues (fun q => q.writes = []) (i.isDir fs.dataStore) := by
  cases known : i.isDir? with
  | some isDir =>
      rw [Inode.isDir_of_some known]
      trivial
  | none =>
      rw [Inode.isDir_of_none known]
      refine Program.Issues.bind (Program.issues_request ?_) fun reply => ?_
      · rfl
      · split <;> trivial

theorem reads_getChildren :
    Program.Issues (fun q => q.writes = []) (i.getChildren fs.dataStore) := by
  refine reads_isDir.bind fun (i, isDir) => ?_
  simp only
  split
  · refine Program.Issues.bind ?_ fun paths => ?_
    · refine Program.Issues.bind (Program.issues_request ?_) fun reply => ?_
      · rfl
      · split <;> trivial
    · split <;> trivial
  · trivial

theorem asks_initMeta {isDir : Bool} {mode : FileMode} :
    Program.Issues fs.Asks (i.initMeta fs.dataStore isDir mode) := by
  rw [Inode.initMeta_eq]
  exact (Program.issues_request (.init _ _ _)).bind fun _ => trivial

theorem erases_removeChild {child : Inode} :
    Program.Issues fs.Erases (i.removeChild fs.dataStore child) := by
  rw [Inode.removeChild_eq]
  refine (Program.issues_request (.rem _ _)).bind fun reply => ?_
  split <;> trivial

theorem erases_delMeta : Program.Issues fs.Erases (i.delMeta fs.dataStore) := by
  rw [Inode.delMeta_eq]
  refine (Program.issues_request (.unlink _)).bind fun reply => ?_
  split <;> trivial

theorem erases_remove_content {name : GoString} :
    Program.Issues fs.Erases (fs.dataStore.remove name) := by
  refine (DataStore.issues_searchLastStripe.mono fun q => .read).bind fun last => ?_
  refine (Program.issues_forkAll fun q member => ?_).bind fun _ => trivial
  obtain ⟨id, -, rfl⟩ := List.mem_map.mp member
  exact .removeStripe name id

/-- A removal only reads and deletes, whatever it finds on its way.  The induction
is on the depth of the recursion. -/
theorem erases_remove {depth : ℕ} :
    Program.Issues fs.Erases (i.remove fs.dataStore depth) := by
  have each : ∀ {remove : Inode → Prog Unit} (children : List Inode),
      (∀ child, Program.Issues fs.Erases (remove child)) →
      Program.Issues fs.Erases (children.forM remove) := by
    intro remove children one
    induction children with
    | nil => trivial
    | cons child rest ih => exact (one child).bind fun _ => ih
  induction depth generalizing i with
  | zero => trivial
  | succ depth ih =>
      refine (reads_isDir.mono fun _ => .read).bind fun (i, isDir) => ?_
      refine Program.Issues.bind ?_ fun _ => erases_delMeta
      unfold Inode.removeContent
      split
      · refine (reads_getChildren.mono fun _ => .read).bind fun found => ?_
        split
        · exact each _ fun child => ih
        · trivial
      · exact erases_remove_content

/-- The content of a file that is opened is not written, but it may be truncated. -/
theorem erases_openFile_content {name : GoString} {flag : Flags} :
    Program.Issues fs.Erases (fs.dataStore.openFile name flag) := by
  refine Program.Issues.bind ?_ fun _ => ?_
  · unfold DataStore.truncateOnOpen
    split
    · exact erases_remove_content
    · trivial
  · exact (DataStore.issues_seek.mono fun q => .read).bind fun _ => trivial

/-! ## The requests of a call -/

theorem reads_getInode :
    Program.Issues (fun q => q.writes = []) (fs.getInode inodes path) := by
  unfold getInode
  split
  · trivial
  · refine reads_exists.bind fun present => ?_
    split <;> trivial

/-- A lookup only reads. -/
theorem reads_fileInfo :
    Program.Issues (fun q => q.writes = []) (fs.fileInfo inodes path) := by
  unfold fileInfo
  split
  · trivial
  · refine reads_getInode.bind fun found => ?_
    obtain ⟨inodes, fiParent⟩ := found
    simp only
    split
    · trivial
    · refine reads_isDir.bind fun answer => ?_
      obtain ⟨fiParent, isDir⟩ := answer
      simp only
      split
      · exact reads_getInode.bind fun _ => trivial
      · trivial

/-- What `fileInfo` answers has the parent directory of the path in it, and only the
root has none. -/
def HasParent (fs : RedisFS) (path : GoString) :
    Inodes × Except FsError (Option Inode × Option Inode) → Prop
  | (_, .ok (some parent, _)) => path ≠ fs.mountPath ∧ parent.path = Filepath.dir path
  | (_, .ok (none, none)) => False
  | _ => True

/-- The inode that is found is one of the path. -/
theorem yields_getInode : Program.Yields
    (fun found : Inodes × Option Inode => ∀ i ∈ found.2, i.path = path)
    (fs.getInode inodes path) := by
  unfold getInode
  split
  · rename_i i cached
    intro i' same
    rw [← Option.some.inj same]
    exact inodes.path_eq cached
  · refine (Program.yields_true _).bind
      fun present _ => ?_
    split
    · intro i same
      rw [← Option.some.inj same]
    · simp [Program.Yields]

/-- To be asked does not change the path of an inode. -/
theorem yields_isDir : Program.Yields (fun asked : Inode × Bool => asked.1.path = i.path)
    (i.isDir fs.dataStore) := by
  cases known : i.isDir? with
  | some isDir =>
      rw [Inode.isDir_of_some known]
      rfl
  | none =>
      rw [Inode.isDir_of_none known]
      refine (Program.yields_true _).bind
        fun reply _ => ?_
      split
      · rfl
      · trivial

/-- A lookup that succeeds has found the parent directory, or it was for the root.
-/
theorem yields_fileInfo : Program.Yields (fs.HasParent path) (fs.fileInfo inodes path) := by
  unfold fileInfo
  split
  · trivial
  · rename_i notRoot
    refine yields_getInode.bind fun parent found => ?_
    obtain ⟨inodes, fiParent⟩ := parent
    simp only
    split
    · trivial
    · rename_i fiParent
      refine yields_isDir.bind fun answer same => ?_
      obtain ⟨asked, isDir⟩ := answer
      simp only
      split
      · refine (Program.yields_true _).bind
          fun _ _ => ?_
        exact ⟨notRoot, same.trans (found _ rfl)⟩
      · trivial

/-- The inode that is created has the path that was asked for. -/
theorem yields_createInode {dir : Bool} {mode : FileMode} {parent : Option Inode} :
    Program.Yields (fun new : Inodes × Inode => new.2.path = path)
      (fs.createInode inodes path dir mode parent) := by
  refine (Program.yields_true _).bind
    fun _ _ => ?_
  cases parent with
  | none => trivial
  | some parent =>
      refine (Program.yields_true _).bind
        fun _ _ => ?_
      exact rfl

/-- The inode that `fileInfo` answers with is one of its path. -/
theorem yields_node : Program.Yields (fun answer : Inodes × Except FsError _ =>
    ∀ parent node, answer.2 = .ok (parent, some node) → node.path = path)
    (fs.fileInfo inodes path) := by
  unfold fileInfo
  split
  · rename_i isRoot
    rintro parent node same
    obtain ⟨-, rfl⟩ : none = parent ∧ fs.root inodes = node := by simpa using same
    rw [root, isRoot]
    cases held : inodes.get fs.mountPath with
    | none => rfl
    | some i => exact inodes.path_eq held
  · refine (Program.yields_true _).bind fun answer _ => ?_
    obtain ⟨inodes, fiParent⟩ := answer
    simp only
    split
    · simp [Program.Yields]
    · refine (Program.yields_true _).bind fun answer _ => ?_
      obtain ⟨asked, isDir⟩ := answer
      simp only
      split
      · refine yields_getInode.bind fun answer found => ?_
        obtain ⟨inodes, fiNode⟩ := answer
        rintro parent node same
        obtain ⟨-, rfl⟩ : some asked = parent ∧ fiNode = some node := by simpa using same
        exact found node rfl
      · simp [Program.Yields]

/-- What `OpenFile` does with an inode that exists.  It is the last part of
`OpenFile`, behind the lookup and the creation. -/
def openNode (fs : RedisFS) (inodes : Inodes) (name : GoString) (flag : Flags) (node : Inode) :
    Prog (Inodes × Except FsError File) := do
  let (fiNode, isDir) ← node.isDir fs.dataStore
  let inodes := inodes.set fiNode
  if isDir then return (inodes, .error (.pathError "open" name .isDirectory))
  else
    let (fiNode, f) ← fiNode.getFile fs.dataStore flag
    return (inodes.set fiNode, f)

section Creation

variable {allowed : Request → Prop} {cwd : Filepath.WorkingDir} {name : GoString}

/-- The creation of a path sends the two requests that it needs, the second one only
if there is a parent. -/
theorem issues_createInode {dir : Bool} {mode : FileMode} {parent : Option Inode}
    (init : allowed (fs.dataStore.initRequest path dir mode))
    (add : path ≠ fs.mountPath → allowed (fs.dataStore.addRequest (Filepath.dir path) path))
    (isParent : ∀ i ∈ parent, path ≠ fs.mountPath ∧ i.path = Filepath.dir path) :
    Program.Issues allowed (fs.createInode inodes path dir mode parent) := by
  refine Program.Issues.bind ?_ fun _ => ?_
  · rw [Inode.initMeta_eq]
    exact (Program.issues_request init).bind fun _ => trivial
  · cases parent with
    | none => trivial
    | some parent =>
        obtain ⟨notRoot, above⟩ := isParent parent rfl
        refine Program.Issues.bind ?_ fun _ => trivial
        rw [Inode.setChild_eq, above]
        refine (Program.issues_request (add notRoot)).bind fun reply => ?_
        split <;> trivial

/-- To get the file of an inode, it is asked what it is, and the content is opened.
-/
theorem issues_getFile {flag : Flags} (read : ∀ q : Request, q.writes = [] → allowed q)
    (content : Program.Issues allowed (fs.dataStore.openFile path flag)) (here : i.path = path) :
    Program.Issues allowed (i.getFile fs.dataStore flag) := by
  refine (reads_isDir.mono read).bind_yields yields_isDir fun (asked, dir) same => ?_
  simp only at same ⊢
  split
  · trivial
  · rw [same, here]
    exact content.bind fun _ => trivial

/-- The same, with the check in front of it. -/
theorem issues_openNode {flag : Flags} (read : ∀ q : Request, q.writes = [] → allowed q)
    (content : Program.Issues allowed (fs.dataStore.openFile path flag)) (here : i.path = path) :
    Program.Issues allowed (fs.openNode inodes name flag i) := by
  refine (reads_isDir.mono read).bind_yields yields_isDir fun (asked, dir) same => ?_
  simp only at same ⊢
  split
  · trivial
  · exact (issues_getFile read content (same.trans here)).bind fun _ => trivial

theorem isParent_of_hasParent {inodes : Inodes} {fiParent fiNode : Option Inode}
    (hasParent : fs.HasParent path (inodes, .ok (fiParent, fiNode))) :
    ∀ i ∈ fiParent, path ≠ fs.mountPath ∧ i.path = Filepath.dir path := by
  rintro i rfl
  exact hasParent

/-- `Mkdir` reads, creates the path, and records it in its directory. -/
theorem issues_mkdir {perm : FileMode} (read : ∀ q : Request, q.writes = [] → allowed q)
    (init : allowed (fs.dataStore.initRequest (Filepath.abs cwd name) true perm))
    (add : fs.mountPath <+: Filepath.abs cwd name → Filepath.abs cwd name ≠ fs.mountPath →
      allowed (fs.dataStore.addRequest (Filepath.dir (Filepath.abs cwd name))
        (Filepath.abs cwd name))) :
    Program.Issues allowed (fs.mkdir inodes cwd name perm) := by
  unfold mkdir
  cases valid : fs.validatePath cwd name with
  | some err => trivial
  | none =>
      refine (reads_fileInfo.mono read).bind_yields yields_fileInfo
        fun (inodes, info) hasParent => ?_
      rcases info with err | ⟨fiParent, _ | fiNode⟩
      · trivial
      · exact (issues_createInode init (add (validatePath_eq_none valid))
          (isParent_of_hasParent hasParent)).bind fun _ => trivial
      · simp only
        split <;> trivial

/-- So does `OpenFile`, which may also work on the content. -/
theorem issues_openFile {flag : Flags} {perm : FileMode}
    (read : ∀ q : Request, q.writes = [] → allowed q)
    (init : allowed (fs.dataStore.initRequest (Filepath.abs cwd name) false perm))
    (add : fs.mountPath <+: Filepath.abs cwd name → Filepath.abs cwd name ≠ fs.mountPath →
      allowed (fs.dataStore.addRequest (Filepath.dir (Filepath.abs cwd name))
        (Filepath.abs cwd name)))
    (content : Program.Issues allowed (fs.dataStore.openFile (Filepath.abs cwd name) flag)) :
    Program.Issues allowed (fs.openFile inodes cwd name flag perm) := by
  unfold openFile
  cases valid : fs.validatePath cwd name with
  | some err => trivial
  | none =>
      refine (reads_fileInfo.mono read).bind_yields (yields_fileInfo.and yields_node)
        fun (inodes, info) ⟨hasParent, isNode⟩ => ?_
      rcases info with err | ⟨fiParent, _ | fiNode⟩
      · trivial
      · simp only
        split
        · refine (issues_createInode init (add (validatePath_eq_none valid))
            (isParent_of_hasParent hasParent)).bind_yields yields_createInode
            fun (inodes, fiNode) same => ?_
          exact (issues_getFile read content same).bind fun _ => trivial
        · trivial
      · simp only
        split
        · trivial
        · exact issues_openNode read content (isNode _ _ rfl)

end Creation

variable {cwd : Filepath.WorkingDir} {name : GoString}

theorem asks_mkdir {perm : FileMode} :
    Program.Issues fs.Asks (fs.mkdir inodes cwd name perm) :=
  issues_mkdir (fun _ => .read) (.init _ _ _) (.add (Filepath.isCleanAbs_abs cwd.2 name))

theorem asks_openFile {flag : Flags} {perm : FileMode} :
    Program.Issues fs.Asks (fs.openFile inodes cwd name flag perm) :=
  issues_openFile (fun _ => .read) (.init _ _ _) (.add (Filepath.isCleanAbs_abs cwd.2 name))
    (erases_openFile_content.mono fun _ => Erases.asks)

theorem reads_readDir :
    Program.Issues (fun q => q.writes = []) (fs.readDir inodes cwd name) := by
  unfold readDir
  cases valid : fs.validatePath cwd name with
  | some err => trivial
  | none =>
      refine reads_fileInfo.bind fun (inodes, info) => ?_
      rcases info with err | ⟨fiParent, _ | fiNode⟩
      · trivial
      · trivial
      · refine reads_isDir.bind fun (fi, isDir) => ?_
        simp only
        split
        · refine reads_getChildren.bind fun (_, fis) => ?_
          cases fis <;> trivial
        · trivial

/-- `Remove` is a lookup and a removal. -/
theorem erases_removePath : Program.Issues fs.Erases (fs.remove inodes cwd name) := by
  unfold RedisFS.remove
  cases valid : fs.validatePath cwd name with
  | some err => trivial
  | none =>
      refine (reads_fileInfo.mono fun _ => .read).bind fun (inodes, info) => ?_
      rcases info with err | ⟨_ | fiParent, _ | fiNode⟩
      · trivial
      · trivial
      · trivial
      · trivial
      · exact erases_removeChild.bind fun _ =>
          (erases_remove.bind fun _ => trivial : Program.Issues fs.Erases
            (fs.removeInode inodes fiNode)).bind fun _ => trivial

/-- `RmDir` reads the directory first. -/
theorem erases_rmDir : Program.Issues fs.Erases (fs.rmDir inodes cwd name) := by
  unfold rmDir
  cases valid : fs.validatePath cwd name with
  | some err => trivial
  | none =>
      refine (reads_readDir.mono fun _ => .read).bind fun (inodes, entries) => ?_
      cases entries with
      | error err => trivial
      | ok entries =>
          simp only
          split
          · trivial
          · exact erases_removePath

theorem reads_stat : Program.Issues (fun q => q.writes = []) (fs.stat inodes cwd name) := by
  unfold stat
  cases valid : fs.validatePath cwd name with
  | some err => trivial
  | none =>
      refine reads_fileInfo.bind fun (inodes, info) => ?_
      rcases info with err | ⟨fiParent, _ | fiNode⟩ <;> trivial

/-- **The requests of a call.** -/
theorem asks_call {op : Op} : Program.Issues fs.Asks (fs.call inodes cwd op) := by
  cases op with
  | mkdir name perm => exact asks_mkdir.bind fun _ => trivial
  | readDir name => exact (reads_readDir.mono fun _ => .read).bind fun _ => trivial
  | rmDir name => exact (erases_rmDir.mono fun _ => Erases.asks).bind fun _ => trivial
  | openFile name flag perm => exact asks_openFile.bind fun _ => trivial
  | remove name => exact (erases_removePath.mono fun _ => Erases.asks).bind fun _ => trivial
  | stat name => exact (reads_stat.mono fun _ => .read).bind fun _ => trivial

/-! ## What every request keeps -/

/-- The sets of children are sets, none of them is empty, and what a directory lists
is right below it.  There may be directories without a mode, and paths that are not
listed anywhere. -/
structure Linked (fs : RedisFS) (c : Cluster) : Prop where
  typed : ∀ p, (fs.dataStore.entry c p).Typed
  nodup : ∀ p, (fs.dataStore.entry c p).members.Nodup
  proper : ∀ a, Proper (c a)
  below : ∀ d x, Lists (fs.dataStore.entry c) d x →
    Filepath.dir x = d ∧ d.length < x.length

/-- What holds of the instances at any time, also in the middle of calls. -/
abbrev Intact (fs : RedisFS) (c : Cluster) : Prop := fs.dataStore.StoreInv c ∧ fs.Linked c

variable {c : Cluster}

theorem linked_empty (fs : RedisFS) : fs.Linked fun _ _ => none where
  typed _ := Entry.typed_missing
  nodup _ := List.nodup_nil
  proper _ := fun key => by simp
  below _ _ listed := absurd listed.1 List.not_mem_nil

theorem intact_empty (fs : RedisFS) : fs.Intact fun _ _ => none :=
  ⟨DataStore.storeInv_empty _, linked_empty fs⟩

namespace Linked

/-- A directory has members: Redis keeps no empty set. -/
theorem members_ne_nil (linked : fs.Linked c) (isDir : (fs.dataStore.entry c path).isDir = true) :
    (fs.dataStore.entry c path).members ≠ [] := by
  rcases (linked.typed path).cases with ⟨-, file, -⟩ | ⟨ms, stored, -, same⟩
  · rw [isDir] at file
    simp at file
  · rw [same]
    rintro rfl
    exact linked.proper _ _ stored

/-- A request that changes one entry at most. -/
theorem serve {q : Request} {e : Entry} (linked : fs.Linked c)
    (same : fs.dataStore.entry (Pdwfs.serve q c).1 = Function.update (fs.dataStore.entry c) path e)
    (typed : e.Typed) (nodup : e.members.Nodup) (below : ∀ x ∈ e.members, x ≠ [] →
      x ∈ (fs.dataStore.entry c path).members ∨
        Filepath.dir x = path ∧ path.length < x.length) : fs.Linked (Pdwfs.serve q c).1 where
  typed p := by
    rw [same, Function.update_apply]
    split
    · exact typed
    · exact linked.typed p
  nodup p := by
    rw [same, Function.update_apply]
    split
    · exact nodup
    · exact linked.nodup p
  proper := serve_proper linked.proper q
  below d x listed := by
    rw [same, Lists, Function.update_apply] at listed
    split at listed
    · rename_i here
      rcases below x listed.1 listed.2 with old | new
      · exact linked.below d x (here ▸ ⟨old, listed.2⟩)
      · exact here ▸ new
    · exact linked.below d x listed

/-- A request that changes no entry. -/
theorem serve_of_entry_eq {q : Request} (linked : fs.Linked c)
    (same : fs.dataStore.entry (Pdwfs.serve q c).1 = fs.dataStore.entry c) :
    fs.Linked (Pdwfs.serve q c).1 where
  typed p := same ▸ linked.typed p
  nodup p := same ▸ linked.nodup p
  proper := serve_proper linked.proper q
  below d x := same ▸ linked.below d x

theorem dataOf {name : GoString} {q : Request} (linked : fs.Linked c) (dataOf : DataOf name q) :
    fs.Linked (Pdwfs.serve q c).1 :=
  linked.serve_of_entry_eq (DataStore.entry_dataOf dataOf c)

end Linked

/-- A path in a mount, other than the mount itself, is longer than its directory. -/
theorem length_dir_lt (isClean : Filepath.IsCleanAbs path) (inside : fs.mountPath <+: path)
    (notRoot : path ≠ fs.mountPath) : (Filepath.dir path).length < path.length := by
  apply Filepath.length_dir_lt isClean
  rintro rfl
  exact Filepath.dir_ne_self fs.cleanMount isClean inside notRoot Filepath.dir_root

/-- **One request** of a call of the file system.  There are six cases. -/
theorem Asks.intact {q : Request} (asks : fs.Asks q) (intact : fs.Intact c) :
    fs.Intact (serve q c).1 := by
  obtain ⟨inv, linked⟩ := intact
  cases asks with
  | read readOnly =>
      rw [serve_readOnly readOnly]
      exact ⟨inv, linked⟩
  | init path isDir mode =>
      have typed := linked.typed path
      refine ⟨inv.metaOf DataStore.metaOf_initRequest, linked.serve
        (DataStore.entry_initRequest typed isDir mode) typed.created
        (typed.nodup_created (linked.nodup path)) fun x member some => ?_⟩
      exact .inl ((typed.mem_created.mp member).resolve_right fun new => some new.2)
  | @add path isClean inside notRoot =>
      have typed := linked.typed (Filepath.dir path)
      refine ⟨inv.metaOf DataStore.metaOf_addRequest, linked.serve
        (DataStore.entry_addRequest typed path) typed.withChild
        (typed.nodup_withChild (linked.nodup _)) fun x member some => ?_⟩
      apply (typed.mem_withChild.mp member).imp_right
      rintro rfl
      exact ⟨rfl, length_dir_lt isClean inside notRoot⟩
  | rem parent child =>
      have typed := linked.typed parent
      refine ⟨inv.metaOf DataStore.metaOf_remRequest, linked.serve
        (DataStore.entry_remRequest typed child) typed.withoutChild
        (typed.nodup_withoutChild (linked.nodup _)) fun x member some => ?_⟩
      exact .inl (typed.mem_withoutChild.mp member).1
  | unlink path =>
      refine ⟨inv.metaOf DataStore.metaOf_unlinkRequest, linked.serve
        DataStore.entry_unlinkRequest Entry.typed_missing List.nodup_nil fun x member _ => ?_⟩
      simp at member
  | removeStripe name id =>
      exact ⟨inv.removeStripe id, linked.dataOf (DataStore.dataOf_removeStripe _ name id)⟩

/-- A call keeps what holds of the instances at each of its requests.  It may be
aborted, which is why this is said of each request and not of the call. -/
theorem safe_call {op : Op} :
    Program.Safe serve fs.Intact True (fun _ => True) (fs.call inodes cwd op) :=
  (asks_call.mono fun _ asks _ => asks.intact).safe

end RedisFS

/-! ## Open files -/

/-- To move the offset of a handle never aborts. -/
theorem MemFile.safe_seek (f : MemFile) (off : ℤ) (whence : MemFile.Whence) :
    f.store.Safe False (fun _ => True) (f.seek off whence) := by
  have target : f.store.Safe False (fun _ => True) (f.seekTarget off whence) := by
    cases whence with
    | seekEnd => exact (DataStore.safe_getSize _ _).bind fun _ _ => trivial
    | _ => trivial
  refine target.bind fun abs _ => ?_
  cases abs with
  | none => trivial
  | some abs =>
      simp only
      split <;> trivial

/-- To open the content of a file never aborts. -/
theorem DataStore.safe_openFile (s : DataStore) (path : GoString) (flag : Flags) :
    s.Safe False (fun _ => True) (s.openFile path flag) := by
  have emptied : s.Safe False (fun _ => True) (s.truncateOnOpen path flag) := by
    unfold truncateOnOpen
    split
    · exact safe_remove s path
    · trivial
  refine emptied.bind fun _ _ => ?_
  exact (MemFile.safe_seek { store := s, path := path } _ _).bind fun _ _ => trivial

namespace RedisFS

variable {fs : RedisFS}

/-- What a mount keeps, for programs that only work on the content of one file. -/
theorem safe_of_issues {α : Type} {name : GoString} {program : Prog α}
    (safe : fs.dataStore.Safe True (fun _ => True) program)
    (issues : Program.Issues (DataOf name) program) :
    Program.Safe serve fs.Intact True (fun _ => True) program :=
  safe.and (issues.mono fun _ dataOf _ linked => Linked.dataOf linked dataOf)

/-- A program that only reads. -/
theorem safe_of_readOnly {α : Type} {program : Prog α}
    (issues : Program.Issues (fun q => q.writes = []) program) :
    Program.Safe serve fs.Intact True (fun _ => True) program :=
  (issues.mono fun q readOnly c intact => by rwa [serve_readOnly readOnly]).safe

end RedisFS

namespace MemFile

variable {f : MemFile}

theorem issues_readAt {dst : List UInt8} {off : ℤ} :
    Program.Issues (fun q => q.writes = []) (f.readAt dst off) := by
  unfold readAt
  split
  · trivial
  · split
    · trivial
    · refine DataStore.issues_readAt.bind fun (n, dst') => ?_
      simp only
      split <;> trivial

theorem issues_readVecAt {dstv : List (List UInt8)} {off : ℤ} :
    Program.Issues (fun q => q.writes = []) (f.readVecAt dstv off) := by
  induction dstv generalizing off with
  | nil => trivial
  | cons dst rest ih =>
      refine issues_readAt.bind fun (read, dst', err) => ?_
      simp only
      split
      · trivial
      · trivial
      · exact ih.bind fun _ => trivial

theorem issues_read {dst : List UInt8} :
    Program.Issues (fun q => q.writes = []) (f.read dst) :=
  issues_readAt.bind fun _ => trivial

theorem issues_readVec {dstv : List (List UInt8)} :
    Program.Issues (fun q => q.writes = []) (f.readVec dstv) :=
  issues_readVecAt.bind fun _ => trivial

variable {fs : RedisFS}

/-- A write through a handle aborts at most. -/
theorem safe_writeAt (mine : f.store = fs.dataStore) {data : List UInt8} {off : ℤ} :
    Program.Safe serve fs.Intact True (fun _ => True) (f.writeAt data off) := by
  unfold writeAt
  split
  · trivial
  · rename_i nonneg
    rw [mine]
    refine (RedisFS.safe_of_issues ?_ DataStore.issues_writeAt).bind fun _ _ => trivial
    exact (DataStore.safe_writeAt fs.dataStore f.path (by simpa using nonneg) data).mono
      (fun _ => trivial) fun _ => id

theorem safe_writeVecAt (mine : f.store = fs.dataStore) {datav : List (List UInt8)} {off : ℤ} :
    Program.Safe serve fs.Intact True (fun _ => True) (f.writeVecAt datav off) := by
  induction datav generalizing off with
  | nil => trivial
  | cons data rest ih => exact (safe_writeAt mine).bind fun _ _ => ih.bind fun _ _ => trivial

theorem safe_write (mine : f.store = fs.dataStore) {data : List UInt8} :
    Program.Safe serve fs.Intact True (fun _ => True) (f.write data) :=
  (safe_writeAt mine).bind fun _ _ => trivial

theorem safe_writeVec (mine : f.store = fs.dataStore) {datav : List (List UInt8)} :
    Program.Safe serve fs.Intact True (fun _ => True) (f.writeVec datav) :=
  (safe_writeVecAt mine).bind fun _ _ => trivial

/-- So does a truncation. -/
theorem safe_truncate (mine : f.store = fs.dataStore) {size : ℤ} :
    Program.Safe serve fs.Intact True (fun _ => True) (f.truncate size) := by
  unfold truncate
  split
  · trivial
  · rw [mine]
    exact (RedisFS.safe_of_issues (DataStore.safe_resize _ _ _) DataStore.issues_resize).bind
      fun _ _ => trivial

end MemFile

/-- An operation of an open file keeps it as well. -/
theorem File.safe_call {fs : RedisFS} {f : File} (mine : f.file.store = fs.dataStore)
    {op : FileOp} : Program.Safe serve fs.Intact True (fun _ => True) (f.call op) := by
  cases op with
  | read dst =>
      unfold File.call
      simp only
      split
      · trivial
      · exact RedisFS.safe_of_readOnly (MemFile.issues_read.bind fun _ => trivial)
  | readAt dst off => exact RedisFS.safe_of_readOnly (MemFile.issues_readAt.bind fun _ => trivial)
  | readVec dstv => exact RedisFS.safe_of_readOnly (MemFile.issues_readVec.bind fun _ => trivial)
  | readVecAt dstv off =>
      exact RedisFS.safe_of_readOnly (MemFile.issues_readVecAt.bind fun _ => trivial)
  | write data =>
      unfold File.call
      simp only
      split
      · trivial
      · exact (MemFile.safe_write mine).bind fun _ _ => trivial
  | writeAt data off => exact (MemFile.safe_writeAt mine).bind fun _ _ => trivial
  | writeVec datav => exact (MemFile.safe_writeVec mine).bind fun _ _ => trivial
  | writeVecAt datav off => exact (MemFile.safe_writeVecAt mine).bind fun _ _ => trivial
  | truncate size => exact (MemFile.safe_truncate mine).bind fun _ _ => trivial
  | seek off whence => exact RedisFS.safe_of_readOnly (DataStore.issues_seek.bind fun _ => trivial)

/-! ## The clients -/

namespace RedisFS

variable {fs : RedisFS}

/-- What the clients of a mount do, whatever they have in memory and whichever files
they have open.  So a client may hold anything, for example inodes that it has from
before a directory was removed. -/
inductive Activity (fs : RedisFS) : Prog Unit → Prop
  | new : Activity fs (fs.new >>= fun _ => .ret ())
  | call (inodes : Inodes) (cwd : Filepath.WorkingDir) (op : Op) :
      Activity fs (fs.call inodes cwd op >>= fun _ => .ret ())
  | file (f : File) (mine : f.file.store = fs.dataStore) (op : FileOp) :
      Activity fs (f.call op >>= fun _ => .ret ())

/-- The configurations reached from empty instances by the clients of a mount. -/
abbrev Configuration {ι : Type} [DecidableEq ι] (fs : RedisFS)
    (pool : Pool ι Request ConnReply Unit Cluster) : Prop :=
  Session serve fs.Activity (fun _ _ => none) pool

/-- Whatever a client does, each of its requests keeps what holds of the instances.
-/
theorem safe_activity {program : Prog Unit} (activity : fs.Activity program) :
    Program.Safe serve fs.Intact True (fun _ => True) program := by
  cases activity with
  | new =>
      have asks : Program.Issues fs.Asks fs.new := asks_initMeta.bind fun _ => trivial
      exact (asks.mono fun _ asks _ => asks.intact).safe.bind fun _ _ => trivial
  | call inodes cwd op => exact safe_call.bind fun _ _ => trivial
  | file f mine op => exact (File.safe_call mine).bind fun _ _ => trivial

/-- **Every state that the clients of a mount reach is intact**, calls in progress
included.  There may be any number of clients, each of them with several calls in
progress. -/
theorem intact_of_configuration {ι : Type} [DecidableEq ι]
    {pool : Pool ι Request ConnReply Unit Cluster} (reached : fs.Configuration pool) :
    fs.Intact pool.store :=
  (reached.invariant (intact_empty fs) fun _ => safe_activity).1

/-- What one client reaches on its own. -/
theorem configuration_of_exec {c c' : Cluster} {program : Prog Unit}
    (reached : fs.Configuration (⟨c, fun _ => .ret ()⟩ : Pool Unit Request ConnReply Unit Cluster))
    (activity : fs.Activity program) (performed : Exec program c c' (some ())) :
    fs.Configuration (⟨c', fun _ => .ret ()⟩ : Pool Unit Request ConnReply Unit Cluster) := by
  have next := Session.perform (i := ()) reached ⟨(), rfl⟩ activity performed
  have same : Function.update (fun _ : Unit => (.ret () : Prog Unit)) () (.ret ()) =
      fun _ => .ret () := Function.update_eq_self _ _
  rwa [same] at next

theorem small.configuration_start : small.Configuration
    (⟨small.start.1, fun _ => .ret ()⟩ : Pool Unit Request ConnReply Unit Cluster) :=
  configuration_of_exec (.init _ fun _ => ⟨(), rfl⟩) .new
    (Program.exec_bind_iff.mpr (.inl ⟨_, _, Program.exec_run serve small.new _, .ret () _⟩))

theorem small.intact_start : small.Intact small.start.1 :=
  intact_of_configuration small.configuration_start

end RedisFS

end Pdwfs
