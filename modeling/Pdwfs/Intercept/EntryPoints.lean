import Pdwfs.Intercept.Descriptors
import Pdwfs.Redisfs.Removal

/-!
# Entry points

The functions that the C layer calls with a path.  They hand the call to the file
system of the mount, and turn the errors that they know into an errno; on any other
error they panic, which takes the host program down.

* `translate` — the errors that an entry point knows.
* `RedisFS.openPath`, …, `RedisFS.statPath` — the entry points, on the mount that
  `getMount` has found.
* `Returns` — an entry point returns a result, or `-1` with an errno.
* `Handled`, `returns_iff` — when it does, in every state that is reached.

## Errors that are known

Each entry point has a list of tests, which it tries in order, and the first that
applies determines the errno.  The lists are not the same, and none of them is
complete: the file system can return errors that the entry point has not thought of.
A test looks at the error itself, or at what a `PathError` has in it.  An error that
has been wrapped twice is not recognised by either.

The lists are data of the model (`openErrors`, …), and `translate` is the one
function that goes through them.  So an entry point is an operation and a list.

## When they return

`Returns` asks that no run ends in a panic, and it is analysed along the operation:
the call completes if each of its parts does, and with an error that the entry point
knows.  The condition `Handled` is read off this way.  It is about what the client
finds when it looks the path up, in memory or in Redis, so that it can be checked
before the call; and it is exact, in all states that clients of the mount can reach
while others are in the middle of theirs.
-/

namespace Pdwfs

open Concurrency Redis

/-! ## Errors -/

/-- The values of `errno` that are set. -/
inductive Errno
  | enoent
  | eexist
  | eisdir
  | enotempty
  deriving DecidableEq

namespace FsError

/-- What `os.IsNotExist` and `os.IsExist` look at: one `PathError` is taken off. -/
def underlyingError : FsError → FsError
  | .pathError _ _ err => err
  | err => err

/-- `os.IsNotExist`. -/
def isNotExist (err : FsError) : Bool := err.underlyingError = .notExist

/-- `os.IsExist`. -/
def isExist (err : FsError) : Bool := err.underlyingError = .exist

/-- The error is a `PathError` with the reason `reason`. -/
def isPathError (reason : FsError) : FsError → Bool
  | .pathError _ _ err => err = reason
  | _ => false

end FsError

/-- The errors that an entry point knows, in the order in which it tries them. -/
abbrev KnownErrors := List ((FsError → Bool) × Errno)

/-- The errno for an error, if one of the tests applies. -/
def translate (known : KnownErrors) (err : FsError) : Option Errno :=
  (known.find? fun entry => entry.1 err).map Prod.snd

/-- The errors that `Open` and `Fopen` know. -/
def openErrors : KnownErrors :=
  [(FsError.isNotExist, .enoent), (FsError.isExist, .eexist),
    (FsError.isPathError .isDirectory, .eisdir)]

def unlinkErrors : KnownErrors := [(FsError.isNotExist, .enoent)]

def mkdirErrors : KnownErrors := [(FsError.isNotExist, .enoent), (FsError.isExist, .eexist)]

def rmdirErrors : KnownErrors :=
  [(FsError.isNotExist, .enoent), (FsError.isPathError .dirNotEmpty, .enotempty)]

def accessErrors : KnownErrors := [(FsError.isNotExist, .enoent)]

def statErrors : KnownErrors :=
  [(FsError.isNotExist, .enoent), (FsError.isPathError .parentDirNotExist, .enoent)]

/-! ## The functions -/

/-- `st_mode` and `st_size`, the fields of a `struct stat` that are set. -/
structure Stats where
  isDir : Bool
  size : ℤ

/-- What an entry point returns, and the errno if it has been set. -/
structure Reply where
  ret : ℤ
  errno : Option Errno := none
  stats : Option Stats := none

/-- What the Go layer has in memory: the open files, and the inodes of a mount. -/
structure Process where
  pdwfs : PdwFS File
  inodes : Inodes

/-- An error of the file system, in an entry point that knows the errors `known`.
Any other one is a panic. -/
def Process.fail (p : Process) (known : KnownErrors) (err : FsError) : Prog (Process × Reply) :=
  match translate known err with
  | some errno => return (p, { ret := -1, errno := some errno })
  | none => .panic

/-- What `Open` does with the file that it has been given.  A descriptor that is in
use is a panic as well. -/
def Process.register (p : Process) (fd : Fd) (file : Except FsError File) :
    Prog (Process × Reply) :=
  match file with
  | .error err => p.fail openErrors err
  | .ok file =>
      match p.pdwfs.registerFile fd file with
      | .error _ => .panic
      | .ok pdwfs => return ({ p with pdwfs := pdwfs }, { ret := fd })

/-- The mount may be the one that `getMount` returns: the mounts are searched in no
particular order. -/
structure RedisFS.Resolves (fs : RedisFS) (cwd : Filepath.WorkingDir) (filename : GoString) :
    Prop where
  nonempty : filename ≠ []
  inside : fs.mountPath <+: Filepath.abs cwd filename

namespace RedisFS

variable (fs : RedisFS) (p : Process) (cwd : Filepath.WorkingDir)

/-- `Open`. -/
def openPath (filename : GoString) (flags : Flags) (mode : FileMode) (fd : Fd) :
    Prog (Process × Reply) := do
  let (inodes, file) ← fs.openFile p.inodes cwd filename flags mode
  { p with inodes := inodes }.register fd file

/-- An entry point that returns `0` if there is no error. -/
def perform (operation : Prog (Inodes × Option FsError)) (known : KnownErrors) :
    Prog (Process × Reply) := do
  let (inodes, err) ← operation
  let p := { p with inodes := inodes }
  match err with
  | some err => p.fail known err
  | none => return (p, { ret := 0 })

/-- `Unlink`. -/
def unlinkPath (filename : GoString) : Prog (Process × Reply) :=
  perform p (fs.remove p.inodes cwd filename) unlinkErrors

/-- `Mkdir`. -/
def mkdirPath (dirname : GoString) (mode : FileMode) : Prog (Process × Reply) :=
  perform p (fs.mkdir p.inodes cwd dirname mode) mkdirErrors

/-- `Rmdir`. -/
def rmdirPath (dirname : GoString) : Prog (Process × Reply) :=
  perform p (fs.rmDir p.inodes cwd dirname) rmdirErrors

/-- `Access`.  Only the existence of the file is checked, whatever the mode asks for. -/
def accessPath (filename : GoString) (_mode : ℤ) : Prog (Process × Reply) := do
  let (inodes, inode) ← fs.stat p.inodes cwd filename
  let p := { p with inodes := inodes }
  match inode with
  | .error err => p.fail accessErrors err
  | .ok _ => return (p, { ret := 0 })

/-- `Stat`. -/
def statPath (filename : GoString) : Prog (Process × Reply) := do
  let (inodes, inode) ← fs.stat p.inodes cwd filename
  let p := { p with inodes := inodes }
  match inode with
  | .error err => p.fail statErrors err
  | .ok inode =>
      let (inode, isDir) ← inode.isDir fs.dataStore
      let (inode, size) ← inode.size fs.dataStore
      return ({ p with inodes := p.inodes.set inode },
        { ret := 0, stats := some { isDir := isDir, size := size } })

end RedisFS

/-- The calls of the entry points. -/
inductive EntryCall
  | open (filename : GoString) (flags : Flags) (mode : FileMode) (fd : Fd)
  | unlink (filename : GoString)
  | mkdir (dirname : GoString) (mode : FileMode)
  | rmdir (dirname : GoString)
  | access (filename : GoString) (mode : ℤ)
  | stat (filename : GoString)

namespace EntryCall

/-- The path of a call. -/
def filename : EntryCall → GoString
  | .open filename _ _ _ => filename
  | .unlink filename => filename
  | .mkdir dirname _ => dirname
  | .rmdir dirname => dirname
  | .access filename _ => filename
  | .stat filename => filename

/-- What the call returns when it succeeds. -/
def success : EntryCall → ℤ
  | .open _ _ _ fd => fd
  | _ => 0

/-- The C layer opens a file under a descriptor that is in no table
(`Descriptors.fdFileMap_lowestUnused`). -/
def Fresh (p : Process) : EntryCall → Prop
  | .open _ _ _ fd => p.pdwfs.fdFileMap fd = none
  | _ => True

end EntryCall

/-- The call has succeeded, or it has failed with an errno. -/
def Reply.Answers (r : Reply) (call : EntryCall) : Prop :=
  r.ret = call.success ∧ r.errno = none ∨ r.ret = -1 ∧ r.errno.isSome

namespace RedisFS

/-- Call the entry point. -/
def enter (fs : RedisFS) (p : Process) (cwd : Filepath.WorkingDir) :
    EntryCall → Prog (Process × Reply)
  | .open filename flags mode fd => fs.openPath p cwd filename flags mode fd
  | .unlink filename => fs.unlinkPath p cwd filename
  | .mkdir dirname mode => fs.mkdirPath p cwd dirname mode
  | .rmdir dirname => fs.rmdirPath p cwd dirname
  | .access filename mode => fs.accessPath p cwd filename mode
  | .stat filename => fs.statPath p cwd filename

/-- Whatever happens, the call succeeds, or it fails with an errno. -/
def Returns (fs : RedisFS) (c : Cluster) (p : Process) (cwd : Filepath.WorkingDir)
    (call : EntryCall) : Prop :=
  ∀ c' outcome, Exec (fs.enter p cwd call) c c' outcome →
    ∃ p' reply, outcome = some (p', reply) ∧ reply.Answers call

/-- The inode of a path, as a call finds it. -/
def nodeAt (fs : RedisFS) (c : Cluster) (inodes : Inodes) (path : GoString) : Option Inode :=
  if path = fs.mountPath then some (fs.root inodes) else fs.lookup c inodes path

/-- The path is the mount, or the client finds its directory and takes it for one.
-/
def InDirectory (fs : RedisFS) (c : Cluster) (inodes : Inodes) (path : GoString) : Prop :=
  path = fs.mountPath ∨ ∃ parent, fs.lookup c inodes (Filepath.dir path) = some parent ∧
    parent.dirAt fs.dataStore c = true

/-- The calls that do not run into an error that the entry point does not know. -/
def Handled (fs : RedisFS) (c : Cluster) (inodes : Inodes) (cwd : Filepath.WorkingDir) :
    EntryCall → Prop
  | .open filename flags _ _ =>
      let path := Filepath.abs cwd filename
      fs.InDirectory c inodes path ∧
        -- A file is not created where there are children of a directory that is gone.
        (fs.nodeAt c inodes path = none → hasFlag oCREATE flags = true →
          (fs.dataStore.entry c path).isDir = false)
  | .unlink filename =>
      let path := Filepath.abs cwd filename
      path ≠ fs.mountPath ∧ fs.InDirectory c inodes path ∧
        ∀ node, fs.nodeAt c inodes path = some node → fs.Removable c fs.maxDepth node
  | .mkdir dirname _ => fs.InDirectory c inodes (Filepath.abs cwd dirname)
  | .rmdir dirname =>
      let path := Filepath.abs cwd dirname
      fs.InDirectory c inodes path ∧ ∃ node, fs.nodeAt c inodes path = some node ∧
        node.dirAt fs.dataStore c = true ∧ (fs.dataStore.entry c path).members ≠ [] ∧
        ((∃ x, Lists (fs.dataStore.entry c) path x) ∨ path ≠ fs.mountPath ∧ 0 < fs.maxDepth)
  | .access filename _ => fs.InDirectory c inodes (Filepath.abs cwd filename)
  | .stat _ => True

variable {fs : RedisFS} {p : Process} {inodes : Inodes} {c : Cluster} {path : GoString}

/-! ## Replies -/

/-- An error that is known is answered with an errno. -/
theorem yields_fail {known : KnownErrors} {err : FsError} {call : EntryCall} :
    Program.Yields (fun returned : Process × Reply => returned.2.Answers call)
      (p.fail known err) := by
  unfold Process.fail
  split
  · exact .inr ⟨rfl, rfl⟩
  · trivial

/-- What is returned without an error is the result of the call. -/
theorem yields_perform {operation : Prog (Inodes × Option FsError)} {known : KnownErrors}
    {call : EntryCall} (zero : call.success = 0) :
    Program.Yields (fun returned : Process × Reply => returned.2.Answers call)
      (perform p operation known) := by
  refine (Program.yields_true _).bind fun (inodes, err) _ => ?_
  cases err with
  | some err => exact yields_fail
  | none => exact .inl ⟨zero.symm, rfl⟩

/-- What an entry point returns is an answer. -/
theorem yields_enter {cwd : Filepath.WorkingDir} (call : EntryCall) :
    Program.Yields (fun returned : Process × Reply => returned.2.Answers call)
      (fs.enter p cwd call) := by
  have anything := fun {α : Type} (program : Prog α) => Program.yields_true program
  cases call with
  | «open» filename flags mode fd =>
      refine (anything _).bind fun (inodes, file) _ => ?_
      unfold Process.register
      cases file with
      | error err => exact yields_fail
      | ok file =>
          simp only
          split
          · trivial
          · exact .inl ⟨rfl, rfl⟩
  | unlink filename => exact yields_perform rfl
  | mkdir dirname mode => exact yields_perform rfl
  | rmdir dirname => exact yields_perform rfl
  | access filename mode =>
      refine (anything _).bind fun (inodes, inode) _ => ?_
      cases inode with
      | error err => exact yields_fail
      | ok inode => exact .inl ⟨rfl, rfl⟩
  | stat filename =>
      refine (anything _).bind fun (inodes, inode) _ => ?_
      cases inode with
      | error err => exact yields_fail
      | ok inode =>
          refine (anything _).bind fun (inode, isDir) _ =>
            (anything _).bind fun (inode, size) _ => ?_
          exact .inl ⟨rfl, rfl⟩

/-- So a call returns if and only if it does not panic. -/
theorem returns_iff_completes {cwd : Filepath.WorkingDir} {call : EntryCall} :
    fs.Returns c p cwd call ↔ Completes (fs.enter p cwd call) c := by
  constructor
  · intro returns c' aborted
    obtain ⟨p', reply, impossible, -⟩ := returns c' none aborted
    simp at impossible
  · intro completes c' outcome performed
    cases outcome with
    | none => exact absurd performed (completes c')
    | some returned => exact ⟨_, _, rfl, (yields_enter call).of_exec performed returned rfl⟩

/-! ## Lookups -/

variable {β : Type}

theorem completes_fileInfo_bind
    {f : Inodes × Except FsError (Option Inode × Option Inode) → Prog β} :
    Completes (fs.fileInfo inodes path >>= f) c ↔ Completes (f (fs.fileInfoAt c inodes path)) c :=
  forall_congr' fun _ => not_congr exec_fileInfo_bind

theorem completes_createInode_bind (linked : fs.Linked c) {dir : Bool} {mode : FileMode}
    {parent : Inode} (isParent : parent.path = Filepath.dir path) {f : Inodes × Inode → Prog β} :
    Completes (fs.createInode inodes path dir mode (some parent) >>= f) c ↔
      Completes (f (inodes.set { path := path }, { path := path }))
        (fs.createdAt c path dir mode) :=
  forall_congr' fun _ => not_congr (exec_createInode_bind linked.typed isParent)

theorem completes_fail {known : KnownErrors} {err : FsError} :
    Completes (p.fail known err) c ↔ (translate known err).isSome = true := by
  unfold Process.fail
  cases translate known err with
  | some errno => exact iff_of_true (completes_ret _) rfl
  | none => exact iff_of_false not_completes_panic (by simp)

/-- A file is registered under a descriptor that is in no table. -/
theorem completes_register {fd : Fd} (new : p.pdwfs.fdFileMap fd = none) {file : File} :
    Completes (p.register fd (.ok file)) c := by
  unfold Process.register
  simp only [PdwFS.registerFile, new]
  exact completes_ret _

/-- To get the file of an inode never panics, unless what follows does. -/
theorem completes_getFile_bind (inv : fs.dataStore.StoreInv c) {i : Inode} {flag : Flags}
    {f : Inode × Except FsError File → Prog β} (rest : ∀ i file c, Completes (f (i, .ok file)) c) :
    Completes (i.getFile fs.dataStore flag >>= f) c ↔
      (i.dirAt fs.dataStore c = true →
        Completes (f (i.seen fs.dataStore c, .error .isDirectory)) c) := by
  refine (forall_congr' fun _ => not_congr Inode.exec_getFile_bind).trans ?_
  split
  · rename_i dir
    simp only [dir, forall_const]
    rfl
  · rename_i notDir
    refine iff_of_true (completes_bind_iff.mpr ⟨?_, ?_⟩) fun dir => absurd dir notDir
    · exact completes_of_safe (DataStore.safe_openFile _ _ _) inv
    · exact fun file c₁ _ => rest _ file c₁

/-- What `fileInfo` answers says whether there is a directory for the path, and what a
call finds at the path. -/
theorem Info.answer {answer : Inodes × Except FsError (Option Inode × Option Inode)}
    (info : fs.Info c inodes path answer) :
    match answer.2 with
    | .error err => err = .parentDirNotExist ∧ ¬fs.InDirectory c inodes path
    | .ok (parent, none) => path ≠ fs.mountPath ∧ fs.InDirectory c inodes path ∧
        fs.nodeAt c inodes path = none ∧
        ∃ i, parent = some i ∧ i.path = Filepath.dir path
    | .ok (parent, some node) => fs.InDirectory c inodes path ∧ node.path = path ∧
        (parent = none ↔ path = fs.mountPath) ∧ (∀ i ∈ parent, i.path = Filepath.dir path) ∧
        (path ≠ fs.mountPath → fs.Learns c inodes (answer.1.set (node.seen fs.dataStore c))) ∧
        ∃ i, fs.nodeAt c inodes path = some i ∧
          node.dirAt fs.dataStore c = i.dirAt fs.dataStore c := by
  have above : ∀ {parent : Inode}, fs.Finds c inodes (Filepath.dir path) parent →
      parent.dirAt fs.dataStore c = true → fs.InDirectory c inodes path := by
    intro parent finds isDir
    obtain ⟨i, found, same⟩ := finds.dirAt_eq
    exact .inr ⟨i, found, same ▸ isDir⟩
  cases info with
  | root isRoot =>
      refine ⟨.inl isRoot, path_root.trans isRoot.symm, iff_of_true rfl isRoot, nofun, ?_, ?_⟩
      · exact fun notRoot => absurd isRoot notRoot
      · exact ⟨_, if_pos isRoot, rfl⟩
  | noParent notRoot learns noParent =>
      refine ⟨rfl, ?_⟩
      rintro (isRoot | ⟨parent, found, isDir⟩)
      · exact notRoot isRoot
      · have notDir := noParent parent ⟨parent, found, .inl rfl⟩
        rw [isDir] at notDir
        simp at notDir
  | absent notRoot learns finds isDir absent =>
      exact ⟨notRoot, above finds isDir, (if_neg notRoot).trans absent, _, rfl, finds.path_eq⟩
  | present notRoot learns finds isDir present cached =>
      refine ⟨above finds isDir, present.path_eq, iff_of_false nofun notRoot, ?_, ?_, ?_⟩
      · rintro _ ⟨⟩
        exact finds.path_eq
      · exact fun _ => learns.asked cached
      · obtain ⟨i, found, same⟩ := present.dirAt_eq
        exact ⟨i, (if_neg notRoot).trans found, same⟩

variable {cwd : Filepath.WorkingDir}

/-- `Open`. -/
theorem completes_open {filename : GoString} {flags : Flags} {mode : FileMode} {fd : Fd}
    (intact : fs.Intact c) (resolves : fs.Resolves cwd filename)
    (new : p.pdwfs.fdFileMap fd = none) :
    Completes (fs.openPath p cwd filename flags mode fd) c ↔
      fs.Handled c p.inodes cwd (.open filename flags mode fd) := by
  unfold openPath openFile
  rw [validatePath_of_inside resolves.inside]
  simp only [Program.bind_assoc, Handled]
  rw [completes_fileInfo_bind]
  have isClean := Filepath.isCleanAbs_abs cwd.2 filename
  have inside := resolves.inside
  have found := (info_fileInfoAt fs c p.inodes (Filepath.abs cwd filename)).answer
  generalize Filepath.abs cwd filename = path at found inside isClean ⊢
  generalize fs.fileInfoAt c p.inodes path = answer at found ⊢
  -- The two ends of the entry point: an error, which has to be in its table, and a file,
  -- which is registered.
  have failed : ∀ (inodes : Inodes) (err : FsError) (c₁ : Cluster),
      Completes (Process.register { pdwfs := p.pdwfs, inodes := inodes } fd (.error err)) c₁ ↔
        (translate openErrors err).isSome = true := fun _ _ _ => completes_fail
  have opened : ∀ (inodes : Inodes) (file : File) (c₁ : Cluster),
      Completes (Process.register { pdwfs := p.pdwfs, inodes := inodes } fd (.ok file)) c₁ :=
    fun inodes _ _ => completes_register (p := { p with inodes := inodes }) new
  obtain ⟨middle, err | ⟨parent, _ | node⟩⟩ := answer
  -- The directory cannot be looked up: this error is in no table.
  · obtain ⟨rfl, noDirectory⟩ := found
    simp only [Program.pure_eq, Program.ret_bind]
    rw [failed]
    exact iff_of_false Bool.false_ne_true fun handled => noDirectory handled.1
  -- Nothing is found at the path.
  · obtain ⟨notRoot, inDirectory, absent, parent, rfl, isParent⟩ := found
    have other := Filepath.dir_ne_self fs.cleanMount isClean inside notRoot
    simp only [inDirectory, absent, true_and, forall_const]
    by_cases create : hasFlag oCREATE flags = true
    · simp only [create, ite_true, Program.bind_assoc, forall_const, Program.pure_eq,
        Program.ret_bind]
      rw [completes_createInode_bind intact.2 isParent]
      have created := (Asks.add isClean inside notRoot).intact
        ((Asks.init path false mode).intact intact)
      have dirAt : Inode.dirAt fs.dataStore (fs.createdAt c path false mode) { path := path } =
          (fs.dataStore.entry c path).isDir := by
        simp [Inode.dirAt, entry_createdAt intact.2.typed other, Entry.isDir_created]
      refine (completes_getFile_bind created.1 fun i file c₁ => opened _ file c₁).trans ?_
      show (Inode.dirAt _ (fs.createdAt c path false mode) { path := path } = true → _) ↔ _
      rw [dirAt, failed, ← Bool.not_eq_true]
      exact imp_congr_right fun _ => iff_of_false Bool.false_ne_true id
    · simp only [create, Bool.false_eq_true, ite_false, Program.pure_eq, Program.ret_bind]
      rw [failed]
      exact iff_of_true rfl False.elim
  -- There is an inode: if it is a directory the error is in the table, and otherwise the
  -- file is opened.
  · obtain ⟨inDirectory, here, -, -, -, i, known, dirAt⟩ := found
    refine iff_of_true ?_ ⟨inDirectory, fun absent => by simp [known] at absent⟩
    simp only
    split
    · simp only [Program.pure_eq, Program.ret_bind]
      rw [failed]
      rfl
    · simp only [Program.bind_assoc, Program.pure_eq]
      rw [completes_isDir_bind]
      by_cases dir : node.dirAt fs.dataStore c = true
      · simp only [dir, ite_true, Program.ret_bind]
        rw [failed]
        rfl
      · simp only [dir, Bool.false_eq_true, ite_false, Program.bind_assoc, Program.ret_bind]
        refine (completes_getFile_bind intact.1 fun i file c₁ => opened _ file c₁).mpr ?_
        exact fun isDir => absurd isDir dir

/-- `Mkdir`. -/
theorem completes_mkdir {dirname : GoString} {mode : FileMode} (intact : fs.Intact c)
    (resolves : fs.Resolves cwd dirname) :
    Completes (fs.mkdirPath p cwd dirname mode) c ↔
      fs.Handled c p.inodes cwd (.mkdir dirname mode) := by
  unfold mkdirPath perform mkdir
  rw [validatePath_of_inside resolves.inside]
  simp only [Program.bind_assoc, Handled]
  rw [completes_fileInfo_bind]
  have found := (info_fileInfoAt fs c p.inodes (Filepath.abs cwd dirname)).answer
  generalize Filepath.abs cwd dirname = path at found ⊢
  generalize fs.fileInfoAt c p.inodes path = answer at found ⊢
  obtain ⟨middle, err | ⟨parent, _ | node⟩⟩ := answer
  · obtain ⟨rfl, noDirectory⟩ := found
    simp only [Program.pure_eq, Program.ret_bind]
    rw [completes_fail]
    exact iff_of_false nofun noDirectory
  · obtain ⟨-, inDirectory, -, parent, rfl, isParent⟩ := found
    simp only [Program.bind_assoc, Program.pure_eq, Program.ret_bind]
    rw [completes_createInode_bind intact.2 isParent]
    exact iff_of_true (completes_ret _) inDirectory
  · refine iff_of_true ?_ found.1
    simp only
    split
    · exact completes_ret _
    · simp only [Program.pure_eq, Program.ret_bind]
      rw [completes_fail]
      rfl

/-- What an entry point makes of the answer of `Stat`. -/
theorem completes_stat_bind (known : Prop) {filename : GoString}
    {f : Inodes × Except FsError Inode → Prog β} (resolves : fs.Resolves cwd filename)
    (present : ∀ inodes node, Completes (f (inodes, .ok node)) c)
    (absent : ∀ inodes, Completes (f (inodes, .error (.pathError "stat" filename .notExist))) c)
    (noParent : ∀ inodes,
      Completes (f (inodes, .error (.pathError "stat" filename .parentDirNotExist))) c ↔ known) :
    Completes (fs.stat inodes cwd filename >>= f) c ↔
      fs.InDirectory c inodes (Filepath.abs cwd filename) ∨ known := by
  unfold stat
  rw [validatePath_of_inside resolves.inside]
  simp only [Program.bind_assoc]
  rw [completes_fileInfo_bind]
  have found := (info_fileInfoAt fs c inodes (Filepath.abs cwd filename)).answer
  generalize Filepath.abs cwd filename = path at found ⊢
  generalize fs.fileInfoAt c inodes path = answer at found ⊢
  obtain ⟨middle, err | ⟨parent, _ | node⟩⟩ := answer
  · obtain ⟨rfl, noDirectory⟩ := found
    exact (noParent middle).trans (or_iff_right noDirectory).symm
  · exact iff_of_true (absent middle) (.inl found.2.1)
  · exact iff_of_true (present middle node) (.inl found.1)

/-- `Access`. -/
theorem completes_access {filename : GoString} {mode : ℤ} (resolves : fs.Resolves cwd filename) :
    Completes (fs.accessPath p cwd filename mode) c ↔
      fs.Handled c p.inodes cwd (.access filename mode) := by
  unfold accessPath
  refine (completes_stat_bind False resolves ?_ ?_ ?_).trans (or_iff_left id)
  · exact fun _ _ => completes_ret _
  · exact fun _ => completes_fail.mpr rfl
  · exact fun _ => completes_fail.trans (iff_of_false nofun id)

/-- `Stat`, which also asks for the size. -/
theorem completes_stat {filename : GoString} (intact : fs.Intact c)
    (resolves : fs.Resolves cwd filename) : Completes (fs.statPath p cwd filename) c := by
  unfold statPath
  refine (completes_stat_bind True resolves ?_ ?_ ?_).mpr (.inr trivial)
  · intro inodes node
    simp only
    rw [completes_isDir_bind]
    unfold Inode.size
    simp only [Program.bind_assoc]
    rw [completes_isDir_bind]
    split
    · exact completes_ret _
    · simp only [Program.bind_assoc]
      refine completes_bind_iff.mpr ⟨?_, fun _ _ _ => completes_ret _⟩
      exact completes_of_safe (DataStore.safe_getSize _ _) intact.1
  · exact fun _ => completes_fail.mpr rfl
  · exact fun _ => completes_fail.trans (iff_of_true rfl trivial)

/-- What is found at a path has this path. -/
theorem path_of_nodeAt {i : Inode} (found : fs.nodeAt c inodes path = some i) : i.path = path := by
  rw [nodeAt] at found
  split at found
  · rename_i isRoot
    rw [← Option.some.inj found, isRoot]
    exact path_root
  · exact path_of_lookup found

theorem completes_removeChild_bind {s : DataStore} {i child : Inode} {f : Unit → Prog β}
    (typed : (s.entry c i.path).Typed) :
    Completes (i.removeChild s child >>= f) c ↔
      Completes (f ()) (serve (s.remRequest i.path child.path) c).1 :=
  forall_congr' fun _ => not_congr (Inode.exec_removeChild_bind typed)

/-- What is below a path does not change when the path is taken out of its directory. -/
theorem removable_remRequest (depth : ℕ) (intact : fs.Intact c) {node : Inode}
    (isClean : Filepath.IsCleanAbs node.path) (inside : fs.mountPath <+: node.path)
    (notRoot : node.path ≠ fs.mountPath) :
    fs.Removable (serve (fs.dataStore.remRequest (Filepath.dir node.path) node.path) c).1 depth
      node ↔ fs.Removable c depth node := by
  have shorter := length_dir_lt isClean inside notRoot
  have same : ∀ v, node.path.length ≤ v.length → fs.dataStore.entry
      (serve (fs.dataStore.remRequest (Filepath.dir node.path) node.path) c).1 v =
        fs.dataStore.entry c v := by
    intro v longer
    rw [DataStore.entry_remRequest (intact.2.typed _), Function.update_of_ne]
    rintro rfl
    omega
  have here := same node.path le_rfl
  have dirAt : node.dirAt fs.dataStore
      (serve (fs.dataStore.remRequest (Filepath.dir node.path) node.path) c).1 =
        node.dirAt fs.dataStore c := Inode.dirAt_congr (by rw [here])
  unfold Removable
  rw [dirAt, here]
  refine and_congr_right fun _ => imp_congr_right fun _ => and_congr_right fun _ => ?_
  refine forall_congr' fun x => ?_
  have listing : Lists (fs.dataStore.entry
      (serve (fs.dataStore.remRequest (Filepath.dir node.path) node.path) c).1) node.path x ↔
        Lists (fs.dataStore.entry c) node.path x := by rw [Lists, here, Lists]
  rw [listing]
  refine imp_congr_right fun listed => shallow_congr fun v below => same v ?_
  exact (intact.2.below _ _ listed).2.le.trans (RightBelow.length_le intact.2.below below)

/-- Two inode objects of one path are removed in the same way. -/
theorem removable_congr {i j : Inode} {depth : ℕ} (path : i.path = j.path)
    (dirAt : i.dirAt fs.dataStore c = j.dirAt fs.dataStore c) :
    fs.Removable c depth i ↔ fs.Removable c depth j := by
  rw [Removable, Removable, path, dirAt]

/-- What follows after a call of `Remove`. -/
theorem completes_removePath_bind (known : FsError → Prop) {filename : GoString}
    {f : Inodes × Option FsError → Prog β} (intact : fs.Intact c)
    (inside : fs.mountPath <+: Filepath.abs cwd filename)
    (removed : ∀ inodes c', Completes (f (inodes, none)) c')
    (failed : ∀ inodes err,
      Completes (f (inodes, some (.pathError "remove" filename err))) c ↔ known err) :
    Completes (fs.remove inodes cwd filename >>= f) c ↔
      (¬fs.InDirectory c inodes (Filepath.abs cwd filename) → known .parentDirNotExist) ∧
      (fs.InDirectory c inodes (Filepath.abs cwd filename) →
        (fs.nodeAt c inodes (Filepath.abs cwd filename) = none → known .notExist) ∧
        ∀ node, fs.nodeAt c inodes (Filepath.abs cwd filename) = some node →
          Filepath.abs cwd filename ≠ fs.mountPath ∧ fs.Removable c fs.maxDepth node) := by
  unfold RedisFS.remove
  rw [validatePath_of_inside inside]
  simp only [Program.bind_assoc]
  rw [completes_fileInfo_bind]
  have isClean := Filepath.isCleanAbs_abs cwd.2 filename
  have found := (info_fileInfoAt fs c inodes (Filepath.abs cwd filename)).answer
  generalize Filepath.abs cwd filename = path at found inside isClean ⊢
  generalize fs.fileInfoAt c inodes path = answer at found ⊢
  obtain ⟨middle, err | ⟨parent, _ | node⟩⟩ := answer
  · obtain ⟨rfl, noDirectory⟩ := found
    simpa [noDirectory] using failed middle .parentDirNotExist
  · obtain ⟨-, inDirectory, absent, -⟩ := found
    simpa [inDirectory, absent] using failed middle .notExist
  · obtain ⟨inDirectory, here, root, isParent, -, i, known, dirAt⟩ := found
    simp only [inDirectory, known, not_true_eq_false, IsEmpty.forall_iff, true_and, forall_const,
      reduceCtorEq, Option.some.injEq, forall_eq']
    cases parent with
    | none => exact iff_of_false not_completes_panic fun handled => handled.1 (root.mp rfl)
    | some parent =>
        have notRoot : path ≠ fs.mountPath := fun isRoot => by simpa using root.mpr isRoot
        have above := isParent parent rfl
        have removable := removable_remRequest fs.maxDepth intact (here ▸ isClean)
          (here ▸ inside) (here ▸ notRoot)
        rw [here, removable_congr (here.trans (path_of_nodeAt known).symm) dirAt] at removable
        simp only [notRoot, ne_eq, not_false_eq_true, true_and, removeInode, Program.bind_assoc]
        rw [completes_removeChild_bind (intact.2.typed _), above, here]
        refine Iff.trans ?_ removable
        rw [← completes_remove_iff ((Asks.rem _ _).intact intact), completes_bind_iff]
        exact and_iff_left fun _ c' _ => removed _ c'

/-- `Unlink`. -/
theorem completes_unlink {filename : GoString} (intact : fs.Intact c)
    (resolves : fs.Resolves cwd filename) :
    Completes (fs.unlinkPath p cwd filename) c ↔ fs.Handled c p.inodes cwd (.unlink filename) := by
  unfold unlinkPath perform
  refine (completes_removePath_bind (fun err => (translate unlinkErrors
    (.pathError "remove" filename err)).isSome = true) intact resolves.inside ?_ ?_).trans ?_
  · exact fun _ _ => completes_ret _
  · exact fun _ _ => completes_fail
  simp only [Handled]
  generalize Filepath.abs cwd filename = path
  constructor
  · rintro ⟨noParent, found⟩
    have inDirectory : fs.InDirectory c p.inodes path := by
      by_contra noDirectory
      exact absurd (noParent noDirectory) nofun
    refine ⟨fun isRoot => ?_, inDirectory, fun node here => ((found inDirectory).2 node here).2⟩
    exact ((found inDirectory).2 _ (if_pos isRoot)).1 isRoot
  · rintro ⟨notRoot, inDirectory, removable⟩
    refine ⟨fun noDirectory => absurd inDirectory noDirectory, fun _ => ⟨fun _ => rfl, ?_⟩⟩
    exact fun node here => ⟨notRoot, removable node here⟩

theorem InDirectory.learns {inodes' : Inodes} (inDirectory : fs.InDirectory c inodes path)
    (learns : fs.Learns c inodes inodes') : fs.InDirectory c inodes' path := by
  apply inDirectory.imp_right
  rintro ⟨parent, found, isDir⟩
  obtain ⟨parent', after, same⟩ := learns.exists_lookup found
  exact ⟨parent', after, same.trans isDir⟩

/-- `Rmdir`, which reads the directory first. -/
theorem completes_rmdir {dirname : GoString} (intact : fs.Intact c)
    (resolves : fs.Resolves cwd dirname) :
    Completes (fs.rmdirPath p cwd dirname) c ↔ fs.Handled c p.inodes cwd (.rmdir dirname) := by
  unfold rmdirPath perform rmDir readDir
  -- `ReadDir` is given the cleaned name, which is made absolute once more.
  have cleaned : Filepath.abs cwd (Filepath.clean dirname) = Filepath.abs cwd dirname :=
    Filepath.abs_clean cwd dirname
  have inside' : fs.mountPath <+: Filepath.abs cwd (Filepath.clean dirname) :=
    cleaned.symm ▸ resolves.inside
  rw [validatePath_of_inside resolves.inside]
  simp only [Program.bind_assoc]
  rw [validatePath_of_inside inside']
  simp only [Program.bind_assoc, Handled]
  rw [completes_fileInfo_bind, cleaned]
  have found := (info_fileInfoAt fs c p.inodes (Filepath.abs cwd dirname)).answer
  generalize Filepath.abs cwd dirname = path at found cleaned ⊢
  generalize fs.fileInfoAt c p.inodes path = answer at found ⊢
  obtain ⟨middle, err | ⟨parent, _ | node⟩⟩ := answer
  -- The directory above cannot be looked up, or nothing is there.
  · obtain ⟨rfl, noDirectory⟩ := found
    simp only [Program.pure_eq, Program.ret_bind]
    rw [completes_fail]
    exact iff_of_false Bool.false_ne_true fun handled => noDirectory handled.1
  · obtain ⟨-, -, absent, -⟩ := found
    simp only [Program.pure_eq, Program.ret_bind]
    rw [completes_fail]
    apply iff_of_false Bool.false_ne_true
    rintro ⟨-, node, known, -⟩
    rw [absent] at known
    simp at known
  · obtain ⟨inDirectory, here, -, -, asked, i, known, dirAt⟩ := found
    simp only [Program.bind_assoc, Program.pure_eq]
    rw [completes_isDir_bind]
    by_cases dir : node.dirAt fs.dataStore c = true
    swap
    · simp only [dir, Bool.false_eq_true, ite_false, Program.ret_bind]
      rw [completes_fail]
      apply iff_of_false Bool.false_ne_true
      rintro ⟨-, j, known', isDir, -⟩
      rw [known] at known'
      obtain rfl := Option.some.inj known'
      exact dir (dirAt.trans isDir)
    simp only [dir, ite_true, Program.bind_assoc]
    rw [completes_getChildren_bind (intact.2.typed _), Inode.dirAt_seen, if_pos dir,
      Inode.path_seen, here]
    -- What `ReadDir` returns is empty if and only if the set of children lists nothing
    -- below the path.
    have count : (((node.seen fs.dataStore c).listed fs.dataStore c).insertionSort
        (byName · ·)).length ≠ 0 ↔ ∃ x, Lists (fs.dataStore.entry c) path x := by
      rw [List.length_insertionSort, ne_eq, List.length_eq_zero_iff, Inode.listed,
        List.map_eq_nil_iff, List.filter_eq_nil_iff]
      simp [Lists, here]
    -- Most of the condition is known by now: what is left is the list, and what `Remove`
    -- needs.
    have handled : (fs.InDirectory c p.inodes path ∧ ∃ node, fs.nodeAt c p.inodes path = some node ∧
        node.dirAt fs.dataStore c = true ∧ (fs.dataStore.entry c path).members ≠ [] ∧
        ((∃ x, Lists (fs.dataStore.entry c) path x) ∨ path ≠ fs.mountPath ∧ 0 < fs.maxDepth)) ↔
          (fs.dataStore.entry c path).members ≠ [] ∧
            ((∃ x, Lists (fs.dataStore.entry c) path x) ∨
              path ≠ fs.mountPath ∧ 0 < fs.maxDepth) := by
      simp [inDirectory, known, ← dirAt, dir]
    rw [handled]
    refine and_congr_right fun some => ?_
    simp only [Program.ret_bind]
    by_cases listed : ∃ x, Lists (fs.dataStore.entry c) path x
    -- The directory has entries: the entry point answers so itself, and `Remove` is not
    -- called.
    · rw [if_pos (count.mpr listed)]
      simp only [Program.ret_bind]
      rw [completes_fail]
      exact iff_of_true rfl (.inl listed)
    · rw [if_neg (mt count.mp listed)]
      refine Iff.trans (completes_removePath_bind (fun err => (translate rmdirErrors
        (.pathError "remove" (Filepath.clean dirname) err)).isSome = true) intact inside' ?_ ?_) ?_
      · exact fun _ _ => completes_ret _
      · exact fun _ _ => completes_fail
      rw [cleaned]
      by_cases isRoot : path = fs.mountPath
      · refine iff_of_false ?_ fun handled => ?_
        · rintro ⟨-, found⟩
          exact ((found (.inl isRoot)).2 _ (if_pos isRoot)).1 isRoot
        · exact handled.elim listed fun notRoot => notRoot.1 isRoot
      · -- The directory is found again, and it is empty.
        obtain ⟨j, known', isDir⟩ : ∃ j, fs.nodeAt c
            (middle.set (node.seen fs.dataStore c)) path = Option.some j ∧
              j.dirAt fs.dataStore c = true := by
          rw [nodeAt, if_neg isRoot] at known ⊢
          obtain ⟨j, after, same⟩ := (asked isRoot).exists_lookup known
          exact ⟨j, after, same.trans (dirAt.symm.trans dir)⟩
        have removable : fs.Removable c fs.maxDepth j ↔ 0 < fs.maxDepth := by
          rw [Removable, path_of_nodeAt known']
          exact and_iff_left fun _ => ⟨some, fun x below => absurd ⟨x, below⟩ listed⟩
        simp [inDirectory.learns (asked isRoot), known', removable, isRoot, listed]

/-- **When an entry point returns.**  In every state that the clients of a mount
reach, whatever the process has in memory: a call of an entry point succeeds, or it
fails with an errno, if and only if it does not run into an error that it does not
know.  The condition is on the inodes that the process has in memory and on the
entries of the path and its directory; it can be decided in front of the call.
Where it is not met there is a run that panics, and where it is met there is none.
-/
theorem returns_iff {ι : Type} [DecidableEq ι] {pool : Pool ι Request ConnReply Unit Cluster}
    (reached : fs.Configuration pool) {call : EntryCall} (resolves : fs.Resolves cwd call.filename)
    (fresh : call.Fresh p) :
    fs.Returns pool.store p cwd call ↔ fs.Handled pool.store p.inodes cwd call := by
  have intact := intact_of_configuration reached
  apply returns_iff_completes.trans
  cases call with
  | «open» filename flags mode fd => exact completes_open intact resolves fresh
  | unlink filename => exact completes_unlink intact resolves
  | mkdir dirname mode => exact completes_mkdir intact resolves
  | rmdir dirname => exact completes_rmdir intact resolves
  | access filename mode => exact completes_access resolves
  | stat filename => exact iff_of_true (completes_stat intact resolves) trivial

/-! ## A process that has just started -/

/-- No file is open, and the root is in memory. -/
def small.process : Process := { pdwfs := { fdFileMap := fun _ => none }, inodes := small.rootOnly }

/-- A file is created in the root. -/
theorem returns_openCreate : small.Returns small.start.1 small.process small.home
    (.open ['/', 'f'] oCREATE 0 3) := by
  have fresh : EntryCall.Fresh small.process (.open ['/', 'f'] oCREATE 0 3) := rfl
  refine (returns_iff small.configuration_start ⟨by decide, by decide⟩ fresh).mpr
    ⟨?_, fun _ _ => ?_⟩
  · exact .inr ⟨_, (Coherent.rootOnly small.tidy_start).rooted.lookup, by decide +kernel⟩
  · decide +kernel

set_option maxRecDepth 10000 in
theorem small.run_openOrphan : (run (small.enter small.process small.home
    (.open ['/', 'd', '/', 'f'] oCREATE 0 3)) small.start.1).2.isNone = true := by
  decide +kernel

/-- A file is created in a directory that does not exist: the error is not translated. -/
theorem not_returns_openOrphan : small.Configuration
      (⟨small.start.1, fun _ => .ret ()⟩ : Pool Unit Request ConnReply Unit Cluster) ∧
    small.Resolves small.home ['/', 'd', '/', 'f'] ∧
    EntryCall.Fresh small.process (.open ['/', 'd', '/', 'f'] oCREATE 0 3) ∧
    ¬small.Returns small.start.1 small.process small.home
      (.open ['/', 'd', '/', 'f'] oCREATE 0 3) := by
  refine ⟨small.configuration_start, ⟨by decide, by decide⟩, rfl, fun returns => ?_⟩
  obtain ⟨p', reply, returned, -⟩ := returns _ _ (Program.exec_run serve _ _)
  have aborted := small.run_openOrphan
  rw [show (run (small.enter small.process small.home _) small.start.1).2 = _ from returned]
    at aborted
  simp at aborted

end RedisFS

end Pdwfs
