import Pdwfs.Redisfs.File

/-!
# Inodes

The metadata of files and directories.  An inode exists when its key `{path}:mode`
does, and it is a directory when it has a key `{path}:children`: the set of the
paths of its children, and of the empty string, which keeps the set of an empty
directory from vanishing.

An `Inode` is what a client has of an inode in memory: its path, and what it has
already asked Redis about it.

## What is remembered

An inode remembers whether it is a directory, and its mode, once it has been asked.
It never asks again, and nothing tells it about a change.  Whether it *exists* is
not remembered, but an inode that is in the map of the client is taken to exist.
These two facts are behind everything that a client can get wrong.

The two metadata keys are created in one transaction and deleted by one command, but
the children of a directory are another matter: an entry is put into the set of its
parent by a request of its own, which creates the set if it is not there.  So there
can be a set of children without a mode.

## Recursion

`remove` of a directory removes its children first, each with everything below it.
The source recurses without a bound; the model has one (`depth`), below which the
stack overflows, and the theorems say how much is enough.
-/

namespace Pdwfs

open Concurrency

/-- Access permissions. -/
abbrev FileMode := UInt32

/-- The errors of the file system. -/
inductive FsError
  | fileNotManaged
  | isDirectory
  | notDirectory
  | dirNotEmpty
  | parentDirNotExist
  /-- `os.ErrExist`. -/
  | exist
  /-- `os.ErrNotExist`. -/
  | notExist
  | pathError (op : String) (path : GoString) (err : FsError)
  deriving DecidableEq

/-- The texts of the errors. -/
def FsError.error : FsError → String
  | .fileNotManaged => "File is not managed by pdwfs"
  | .isDirectory => "Is directory"
  | .notDirectory => "Is not a directory"
  | .dirNotEmpty => "Directory is not empty"
  | .parentDirNotExist => "Parent directory does not exist"
  | .exist => "file already exists"
  | .notExist => "file does not exist"
  | .pathError op path err => op ++ " " ++ String.ofList path ++ ": " ++ err.error

/-- The flags of `OpenFile`, the bits of an `int`. -/
abbrev Flags := UInt64

/-- The values of package `os` on Linux. -/
def oWRONLY : Flags := 0x1
def oRDWR : Flags := 0x2
def oCREATE : Flags := 0x40
def oEXCL : Flags := 0x80
def oTRUNC : Flags := 0x200
def oAPPEND : Flags := 0x400

/-- All bits of the flag are set. -/
def hasFlag (flag flags : Flags) : Bool := flags &&& flag = flag

/-- Flags that hold others are only set with them. -/
theorem hasFlag_of_hasFlag {flag within flags : Flags} (isWithin : within &&& flag = flag)
    (set : hasFlag within flags = true) : hasFlag flag flags = true := by
  simp only [hasFlag, decide_eq_true_eq] at set ⊢
  calc flags &&& flag = flags &&& (within &&& flag) := by rw [isWithin]
    _ = (flags &&& within) &&& flag := (UInt64.and_assoc ..).symm
    _ = within &&& flag := by rw [set]
    _ = flag := isWithin

/-- The wrapper that the flags ask for: the first of the tests that applies. -/
def accessOf (flag : Flags) : Access :=
  if hasFlag oRDWR flag then .readWrite
  else if hasFlag oWRONLY flag then .writeOnly
  else .readOnly

/-- The bytes of a decimal number. -/
def decimalBytes (n : ℤ) : List UInt8 := (formatInt n).map fun c => UInt8.ofNat c.toNat

/-- An inode of a client, with the attributes that have been read once. -/
structure Inode where
  path : GoString
  isDir? : Option Bool := none
  mode? : Option FileMode := none
  deriving DecidableEq

namespace DataStore

variable (s : DataStore)

/-- The client of the metadata of a path. -/
def metaClient (path : GoString) : RedisClient := s.redisRing.getClient (keyPrefix path)

/-- Truncate the file if the flags say so.  All stripes are removed; the size is not
asked for. -/
def truncateOnOpen (path : GoString) (flag : Flags) : Prog Unit :=
  if hasFlag oTRUNC flag then s.remove path else return ()

/-- Open a file at its start, or at its end to append.  The end is the one at this
moment. -/
def openFile (path : GoString) (flag : Flags) : Prog File := do
  s.truncateOnOpen path flag
  let f : MemFile := { store := s, path := path }
  let (f, _) ← f.seek 0 (if hasFlag oAPPEND flag then .seekEnd else .seekSet)
  return { file := f, access := accessOf flag }

end DataStore

namespace Inode

variable (s : DataStore) (i : Inode)

/-- Whether the inode exists in Redis. -/
def «exists» : Prog Bool := (s.metaClient i.path).exists (modeKey i.path)

/-- Create the metadata. -/
def initMeta (isDir : Bool) (mode : FileMode) : Prog Unit :=
  (s.metaClient i.path).pipeline
    ((if isDir then [.sadd (childrenKey i.path) []] else []) ++
      [.setnx (modeKey i.path) (decimalBytes mode.toNat)])

/-- Delete the metadata. -/
def delMeta : Prog Unit := (s.metaClient i.path).unlink [childrenKey i.path, modeKey i.path]

/-- Whether the inode is a directory; the first answer is kept. -/
def isDir : Prog (Inode × Bool) :=
  match i.isDir? with
  | some isDir => return (i, isDir)
  | none => do
      let res ← (s.metaClient i.path).exists (childrenKey i.path)
      return ({ i with isDir? := some res }, res)

/-- The access mode; the first answer is kept. -/
def mode : Prog (Inode × FileMode) :=
  match i.mode? with
  | some mode => return (i, mode)
  | none => do
      match ← (s.metaClient i.path).send (.get (modeKey i.path)) with
      | .server (.bulk val) =>
          match parseInt (val.map fun b => Char.ofNat b.toNat) with
          | none => .panic
          | some res => return ({ i with mode? := some (UInt32.ofInt res) }, UInt32.ofInt res)
      | _ => .panic

/-- The size of the file, zero for a directory. -/
def size : Prog (Inode × ℤ) := do
  let (i, isDir) ← i.isDir s
  if isDir then return (i, 0)
  else
    let size ← s.getSize i.path
    return (i, size)

/-- Record a child. -/
def setChild (child : Inode) : Prog Unit :=
  (s.metaClient i.path).sAdd (childrenKey i.path) child.path

/-- Remove a child from the list of children. -/
def removeChild (child : Inode) : Prog Unit :=
  (s.metaClient i.path).sRem (childrenKey i.path) child.path

/-- The children, as inodes of their own.  The capacity of the list that collects them
is one less than the number of members, so an empty set aborts the program. -/
def getChildren : Prog (Inode × Except FsError (List Inode)) := do
  let (i, isDir) ← i.isDir s
  if isDir then
    let paths ← (s.metaClient i.path).sMembers (childrenKey i.path)
    if paths.length = 0 then .panic
    else return (i, .ok ((paths.filter (· ≠ [])).map fun path => { path := path }))
  else return (i, .error .notDirectory)

/-- Open the file of the inode. -/
def getFile (flag : Flags) : Prog (Inode × Except FsError File) := do
  let (i, isDir) ← i.isDir s
  if isDir then return (i, .error .isDirectory)
  else
    let f ← s.openFile i.path flag
    return (i, .ok f)

/-- Remove the content of a file, or the children of a directory. -/
def removeContent (isDir : Bool) (removeChild : Inode → Prog Unit) : Prog Unit :=
  if isDir then do
    match ← i.getChildren s with
    | (_, .ok children) => children.forM removeChild
    | (_, .error _) => return ()
  else s.remove i.path

/-- Remove the inode: its content or its children, and its metadata.  The program is
aborted when the recursion gets deeper than the stack. -/
def remove : ℕ → Inode → Prog Unit
  | 0, _ => .panic
  | depth + 1, i => do
      let (i, isDir) ← i.isDir s
      i.removeContent s isDir (remove depth)
      i.delMeta s

end Inode

end Pdwfs
