import Pdwfs.Filepath.Path
import Pdwfs.Redisfs.Inodes

/-!
# The file system

`RedisFS` is the file system of one client over the shared instances.  A client
keeps the inodes it has seen in memory, by their paths, and asks Redis about the
others only.

* `Inodes` — the inodes that a client has in memory.
* `RedisFS.getInode`, `RedisFS.createInode`, `RedisFS.removeInode`,
  `RedisFS.fileInfo` — the lookup of a path and of its parent directory.
* `RedisFS.mkdir`, …, `RedisFS.stat` — the operations.  They take a path in any
  form, relative to the working directory of the process.
* `Op`, `RedisFS.call` — the operations with their arguments, as one function.

## Objects and values

The inodes in memory are passed from call to call.  An inode object is shared by all
who have a pointer to it, so what an operation learns about it is stored back:
wherever the source calls a method of an object of the map, the model puts the inode
that the method returns into the map again.  Objects that are in no map, such as the
children that are read from a directory, are forgotten.

The map is a function together with the fact that an inode is kept under its own
path.  So an inode with a wrong path cannot be put into it, and no proof has to say
that it is not.

## Order of the requests

A call is a sequence of requests, and other clients may come in between any two of
them.  The order is that of the source: the parent is looked up before the path,
`createInode` creates the metadata before it records the path in the parent, and
`remove` takes the path out of the parent before it deletes what is below.  What
follows from it when clients race is the subject of `Exclusive`, `Collective` and
`Directories`.

The root has no parent.  It is created when a file system is, by every client that
starts, and it stays in memory; to remove it is to use a parent that is `nil`, which
panics.
-/

namespace Pdwfs

open Concurrency

/-- The inodes a client has in memory.  Each is kept under its own path. -/
structure Inodes where
  get : GoString → Option Inode
  path_eq : ∀ {path i}, get path = some i → i.path = path

namespace Inodes

/-- Only the inode `i`. -/
def single (i : Inode) : Inodes where
  get path := if path = i.path then some i else none
  path_eq := by
    intro path i' found
    split at found
    · rename_i same
      rw [← Option.some.inj found, same]
    · simp at found

/-- `inodes[i.Path()] = i`. -/
def set (inodes : Inodes) (i : Inode) : Inodes where
  get := Function.update inodes.get i.path (some i)
  path_eq := by
    intro path i' found
    by_cases same : path = i.path
    · subst same
      rw [Function.update_self] at found
      rw [Option.some.inj found]
    · rw [Function.update_of_ne same] at found
      exact inodes.path_eq found

/-- `delete(inodes, path)`. -/
def erase (inodes : Inodes) (path : GoString) : Inodes where
  get := Function.update inodes.get path none
  path_eq := by
    intro path' i' found
    by_cases same : path' = path
    · subst same
      simp at found
    · rw [Function.update_of_ne same] at found
      exact inodes.path_eq found

@[ext] theorem ext {inodes inodes' : Inodes} (same : ∀ path, inodes.get path = inodes'.get path) :
    inodes = inodes' := by
  cases inodes
  cases inodes'
  congr
  exact funext same

theorem get_set (inodes : Inodes) (i : Inode) (path : GoString) :
    (inodes.set i).get path = if path = i.path then some i else inodes.get path := by
  simp [set, Function.update_apply]

@[simp] theorem get_set_self (inodes : Inodes) (i : Inode) :
    (inodes.set i).get i.path = some i := by
  simp [get_set]

theorem get_set_of_ne {inodes : Inodes} {i : Inode} {path : GoString} (other : path ≠ i.path) :
    (inodes.set i).get path = inodes.get path := by
  simp [get_set, other]

/-- Of two inodes of one path the later one is kept. -/
theorem set_set {inodes : Inodes} {i j : Inode} (same : i.path = j.path) :
    (inodes.set i).set j = inodes.set j := by
  ext1 path
  simp only [get_set, same]
  split <;> rfl

theorem get_erase (inodes : Inodes) (path path' : GoString) :
    (inodes.erase path).get path' = if path' = path then none else inodes.get path' := by
  simp [erase, Function.update_apply]

end Inodes

/-- A file system mounted at an absolute path.  The prefix that decides whether a
path belongs to it is the mount path as it is, without a slash behind it. -/
structure RedisFS where
  mountPath : GoString
  cleanMount : Filepath.IsCleanAbs mountPath
  dataStore : DataStore
  /-- How deep a recursion may get before the runtime aborts the program. -/
  maxDepth : ℕ

namespace RedisFS

variable (fs : RedisFS) (inodes : Inodes)

/-- The inodes in memory that a file system starts with. -/
def rootOnly : Inodes := Inodes.single { path := fs.mountPath }

/-- Create the root, and start with it. -/
def new : Prog Inodes := do
  let root : Inode := { path := fs.mountPath }
  root.initMeta fs.dataStore true 0o600
  return fs.rootOnly

/-- The inode object of the root; it is in memory from the start. -/
def root : Inode := (inodes.get fs.mountPath).getD { path := fs.mountPath }

/-- Whether the path belongs to the file system; the error if it does not.  Prefixes
of characters are compared, not of components. -/
def validatePath (cwd : Filepath.WorkingDir) (path : GoString) : Option FsError :=
  if fs.mountPath <+: Filepath.abs cwd path then none else some .fileNotManaged

/-- Create an inode and record it in its parent.  Nothing can be recorded in a parent
that is `nil`. -/
def createInode (path : GoString) (dir : Bool) (mode : FileMode) (parent : Option Inode) :
    Prog (Inodes × Inode) := do
  let i : Inode := { path := path }
  i.initMeta fs.dataStore dir mode
  match parent with
  | none => .panic
  | some parent =>
      parent.setChild fs.dataStore i
      return (inodes.set i, i)

/-- The inode of a path, if it is in memory or exists in Redis.  An inode in memory
is taken as it is, and Redis is not asked. -/
def getInode (path : GoString) : Prog (Inodes × Option Inode) :=
  match inodes.get path with
  | some i => return (inodes, some i)
  | none => do
      let i : Inode := { path := path }
      if ← i.exists fs.dataStore then return (inodes.set i, some i)
      else return (inodes, none)

/-- Remove an inode, from memory as well. -/
def removeInode (i : Inode) : Prog Inodes := do
  i.remove fs.dataStore fs.maxDepth
  return inodes.erase i.path

/-- The inodes of a path and of its parent directory.  The root has no parent.  The
path itself is looked up only if the parent is a directory. -/
def fileInfo (abspath : GoString) :
    Prog (Inodes × Except FsError (Option Inode × Option Inode)) :=
  if abspath = fs.mountPath then return (inodes, .ok (none, some (fs.root inodes)))
  else do
    let (inodes, fiParent) ← fs.getInode inodes (Filepath.dir abspath)
    match fiParent with
    | none => return (inodes, .error .parentDirNotExist)
    | some fiParent =>
        let (fiParent, isDir) ← fiParent.isDir fs.dataStore
        let inodes := inodes.set fiParent
        if isDir then
          let (inodes, fiNode) ← fs.getInode inodes abspath
          return (inodes, .ok (some fiParent, fiNode))
        else return (inodes, .error .parentDirNotExist)

variable (cwd : Filepath.WorkingDir)

/-- Create a directory.  To create the root succeeds, although it exists. -/
def mkdir (name : GoString) (perm : FileMode) : Prog (Inodes × Option FsError) :=
  match fs.validatePath cwd name with
  | some err => return (inodes, some (.pathError "mkdir" name err))
  | none => do
      let path := Filepath.abs cwd name
      let (inodes, info) ← fs.fileInfo inodes path
      match info with
      | .error err => return (inodes, some (.pathError "mkdir" name err))
      | .ok (_, some fiNode) =>
          if fiNode.path = fs.mountPath then return (inodes, none)
          else return (inodes, some (.pathError "mkdir" name .exist))
      | .ok (fiParent, none) =>
          let (inodes, _) ← fs.createInode inodes path true perm fiParent
          return (inodes, none)

/-- The order of `byName`. -/
def byName (i j : Inode) : Bool := i.path ≤ j.path

/-- The children of a directory, sorted by name. -/
def readDir (path : GoString) : Prog (Inodes × Except FsError (List Inode)) :=
  match fs.validatePath cwd path with
  | some err => return (inodes, .error (.pathError "readdir" path err))
  | none => do
      let path := Filepath.abs cwd path
      let (inodes, info) ← fs.fileInfo inodes path
      match info with
      | .error err => return (inodes, .error (.pathError "readdir" path err))
      | .ok (_, none) => return (inodes, .error (.pathError "readdir" path .notDirectory))
      | .ok (_, some fi) =>
          let (fi, isDir) ← fi.isDir fs.dataStore
          let inodes := inodes.set fi
          if isDir then
            let (_, fis) ← fi.getChildren fs.dataStore
            match fis with
            | .error err => return (inodes, .error (.pathError "readdir" path err))
            | .ok fis => return (inodes, .ok (fis.insertionSort (byName · ·)))
          else return (inodes, .error (.pathError "readdir" path .notDirectory))

/-- Open a file, and create it if the flags say so and it does not exist. -/
def openFile (name : GoString) (flag : Flags) (perm : FileMode) :
    Prog (Inodes × Except FsError File) :=
  match fs.validatePath cwd name with
  | some err => return (inodes, .error (.pathError "open" name err))
  | none => do
      let path := Filepath.abs cwd name
      let (inodes, info) ← fs.fileInfo inodes path
      match info with
      | .error err => return (inodes, .error (.pathError "open" name err))
      | .ok (fiParent, none) =>
          if hasFlag oCREATE flag then
            let (inodes, fiNode) ← fs.createInode inodes path false perm fiParent
            let (fiNode, f) ← fiNode.getFile fs.dataStore flag
            return (inodes.set fiNode, f)
          else return (inodes, .error (.pathError "open" name .notExist))
      | .ok (_, some fiNode) =>
          if hasFlag (oCREATE ||| oEXCL) flag then
            return (inodes, .error (.pathError "open" name .exist))
          else
            let (fiNode, isDir) ← fiNode.isDir fs.dataStore
            let inodes := inodes.set fiNode
            if isDir then return (inodes, .error (.pathError "open" name .isDirectory))
            else
              let (fiNode, f) ← fiNode.getFile fs.dataStore flag
              return (inodes.set fiNode, f)

/-- Remove a file, or a directory and everything below it.  There is nothing that the
root could be removed from. -/
def remove (name : GoString) : Prog (Inodes × Option FsError) :=
  match fs.validatePath cwd name with
  | some err => return (inodes, some (.pathError "remove" name err))
  | none => do
      let path := Filepath.abs cwd name
      let (inodes, info) ← fs.fileInfo inodes path
      match info with
      | .error err => return (inodes, some (.pathError "remove" name err))
      | .ok (_, none) => return (inodes, some (.pathError "remove" name .notExist))
      | .ok (none, some _) => .panic
      | .ok (some fiParent, some fiNode) =>
          fiParent.removeChild fs.dataStore fiNode
          let inodes ← fs.removeInode inodes fiNode
          return (inodes, none)

/-- Remove a directory without entries.  The directory is read first and removed
then, with everything that may have come into it in between. -/
def rmDir (path : GoString) : Prog (Inodes × Option FsError) :=
  match fs.validatePath cwd path with
  | some err => return (inodes, some (.pathError "rmdir" path err))
  | none => do
      let path := Filepath.clean path
      let (inodes, entries) ← fs.readDir inodes cwd path
      match entries with
      | .error err => return (inodes, some (.pathError "rmdir" path err))
      | .ok entries =>
          if entries.length ≠ 0 then
            return (inodes, some (.pathError "rmdir" path .dirNotEmpty))
          else fs.remove inodes cwd path

/-- The inode of a path. -/
def stat (name : GoString) : Prog (Inodes × Except FsError Inode) :=
  match fs.validatePath cwd name with
  | some err => return (inodes, .error (.pathError "stat" name err))
  | none => do
      let path := Filepath.abs cwd name
      let (inodes, info) ← fs.fileInfo inodes path
      match info with
      | .error err => return (inodes, .error (.pathError "stat" name err))
      | .ok (_, none) => return (inodes, .error (.pathError "stat" name .notExist))
      | .ok (_, some fi) => return (inodes, .ok fi)

end RedisFS

/-! ## Calls -/

/-- The operations with their arguments. -/
inductive Op
  | mkdir (name : GoString) (perm : FileMode)
  | readDir (name : GoString)
  | rmDir (name : GoString)
  | openFile (name : GoString) (flag : Flags) (perm : FileMode)
  | remove (name : GoString)
  | stat (name : GoString)
  deriving DecidableEq

/-- What a call returns. -/
inductive Result
  | done
  | listing (paths : List GoString)
  | handle (f : File)
  | info (path : GoString)
  | error (err : FsError)

/-- The argument of the call that names a path. -/
def Op.name : Op → GoString
  | .mkdir name _ => name
  | .readDir name => name
  | .rmDir name => name
  | .openFile name _ _ => name
  | .remove name => name
  | .stat name => name

/-- The operations that may remove what is at their path. -/
def Op.Removes : Op → Prop
  | .remove _ => True
  | .rmDir _ => True
  | _ => False

/-- The path that a call is about. -/
def Op.path (op : Op) (cwd : Filepath.WorkingDir) : GoString := Filepath.abs cwd op.name

namespace Result

/-- The result of a call that returns an error or nothing. -/
def ofOption : Option FsError → Result
  | none => .done
  | some err => .error err

/-- The result of a call that returns something or an error. -/
def ofExcept {α : Type} (f : α → Result) : Except FsError α → Result
  | .ok a => f a
  | .error err => .error err

/-- Whether the call has failed. -/
def isError : Result → Bool
  | .error _ => true
  | _ => false

end Result

namespace RedisFS

/-- Run the operation. -/
def call (fs : RedisFS) (inodes : Inodes) (cwd : Filepath.WorkingDir) :
    Op → Prog (Inodes × Result)
  | .mkdir name perm => do
      let (inodes, err) ← fs.mkdir inodes cwd name perm
      return (inodes, .ofOption err)
  | .readDir name => do
      let (inodes, entries) ← fs.readDir inodes cwd name
      return (inodes, .ofExcept (fun fis => .listing (fis.map Inode.path)) entries)
  | .rmDir name => do
      let (inodes, err) ← fs.rmDir inodes cwd name
      return (inodes, .ofOption err)
  | .openFile name flag perm => do
      let (inodes, f) ← fs.openFile inodes cwd name flag perm
      return (inodes, .ofExcept .handle f)
  | .remove name => do
      let (inodes, err) ← fs.remove inodes cwd name
      return (inodes, .ofOption err)
  | .stat name => do
      let (inodes, fi) ← fs.stat inodes cwd name
      return (inodes, .ofExcept (fun fi => .info fi.path) fi)

end RedisFS

end Pdwfs
