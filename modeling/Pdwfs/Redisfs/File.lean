import Pdwfs.Redisfs.Store

/-!
# Open files

A `MemFile` is an open handle: the path of the file, which is the name of its
content in the data store, and an offset for the operations that have none of their
own.

The handles of one inode exclude each other by a mutex.  The model takes the
operations of the handles of one client one after the other, so the mutex does not
appear.

## Wrappers

`OpenFile` returns the handle itself, or a wrapper that disables one of its methods:
`Write` for a file that is open for reading only, `Read` for one that is open for
writing only.  The wrappers embed the file, and the other methods are those of the
file inside.  `File.call` is written so that this can be seen: only two of its
branches look at the access mode.

## Errors and panics

A negative offset is a panic, and the end of the file is an error value that the
callers expect.  Reads into several buffers stop at it, with what has been read so
far; writes have no error at all, since the store either does what it is told or
aborts the program.

Offsets are integers without a bound here.  The handles whose offsets are 64-bit
numbers are those of `Wrapped`.
-/

namespace Pdwfs

open Concurrency

/-- The errors of file operations. -/
inductive FileError
  | eof
  | negativeTruncateSize
  | invalidSeekWhence
  | negativeSeekLocation
  /-- A write to a file that is open for reading only. -/
  | readOnly
  /-- A read from a file that is open for writing only. -/
  | writeOnly
  deriving DecidableEq

/-- The texts of the errors. -/
def FileError.error : FileError → String
  | .eof => "EOF"
  | .negativeTruncateSize => "Negative truncate size"
  | .invalidSeekWhence => "Seek whence is not a proper value"
  | .negativeSeekLocation => "Seek location (from offset and whence) is negative"
  | .readOnly => "File is read-only"
  | .writeOnly => "File is write-only"

/-- An open file. -/
structure MemFile where
  store : DataStore
  path : GoString
  offset : ℤ := 0

namespace MemFile

variable (f : MemFile)

/-- The size of the file, which is asked for each time. -/
def size : Prog ℤ := f.store.getSize f.path

/-- Change the size of the file. -/
def truncate (size : ℤ) : Prog (Option FileError) :=
  if size < 0 then return some .negativeTruncateSize
  else do
    f.store.resize f.path size
    return none

/-- The number of bytes read, the buffer afterwards, and the error. -/
abbrev ReadResult := ℤ × List UInt8 × Option FileError

/-- Read into `dst` from the offset `off`.  The end of the file is reported when the
buffer has not been filled, judged by the number that the store returns; an empty
buffer is always filled. -/
def readAt (dst : List UInt8) (off : ℤ) : Prog ReadResult :=
  if off < 0 then .panic
  else if dst.length = 0 then return (0, dst, none)
  else do
    let (n, dst') ← f.store.readAt f.path off dst
    if n < dst.length then return (n, dst', some .eof)
    else return (n, dst', none)

/-- Read from the offset of the handle, and advance it by the number that the store
returns. -/
def read (dst : List UInt8) : Prog (MemFile × ReadResult) := do
  let (read, dst', err) ← f.readAt dst f.offset
  return ({ f with offset := f.offset + read }, read, dst', err)

/-- Read into the buffers one after the other, until one of them is not filled. -/
def readVecAt : List (List UInt8) → ℤ → Prog (ℤ × List (List UInt8) × Option FileError)
  | [], _ => return (0, [], none)
  | dst :: dstv, off => do
      let (read, dst', err) ← f.readAt dst off
      match err with
      | some .eof => return (read, dst' :: dstv, some .eof)
      | some _ => .panic
      | none => do
          let (n, dstv', err') ← readVecAt dstv (off + read)
          return (read + n, dst' :: dstv', err')

/-- Read into the buffers from the offset of the handle, and advance it. -/
def readVec (dstv : List (List UInt8)) :
    Prog (MemFile × ℤ × List (List UInt8) × Option FileError) := do
  let (read, dstv', err) ← f.readVecAt dstv f.offset
  return ({ f with offset := f.offset + read }, read, dstv', err)

/-- Write `data` at the offset `off`; the number of bytes written. -/
def writeAt (data : List UInt8) (off : ℤ) : Prog ℤ :=
  if off < 0 then .panic
  else do
    f.store.writeAt f.path off data
    return data.length

/-- Write at the offset of the handle, and advance it. -/
def write (data : List UInt8) : Prog (MemFile × ℤ) := do
  let wrote ← f.writeAt data f.offset
  return ({ f with offset := f.offset + wrote }, wrote)

/-- Write the buffers one after the other, each behind the one before it.  An empty
buffer is written as well, and panics like any other at a negative offset. -/
def writeVecAt : List (List UInt8) → ℤ → Prog ℤ
  | [], _ => return 0
  | data :: datav, off => do
      let wrote ← f.writeAt data off
      let n ← writeVecAt datav (off + wrote)
      return wrote + n

/-- Write the buffers at the offset of the handle, and advance it. -/
def writeVec (datav : List (List UInt8)) : Prog (MemFile × ℤ) := do
  let wrote ← f.writeVecAt datav f.offset
  return ({ f with offset := f.offset + wrote }, wrote)

/-- What the offset of a `seek` is relative to. -/
inductive Whence
  | seekSet
  | seekCur
  | seekEnd
  /-- No proper value. -/
  | other
  deriving DecidableEq

/-- The offset that a `seek` asks for, if its `whence` is a proper value. -/
def seekTarget (off : ℤ) : Whence → Prog (Option ℤ)
  | .seekSet => return some off
  | .seekCur => return some (f.offset + off)
  | .seekEnd => do
      let size ← f.size
      return some (size + off)
  | .other => return none

/-- Set the offset of the handle; the new offset.  It may be behind the end of the
file, but not negative. -/
def seek (off : ℤ) (whence : Whence) : Prog (MemFile × ℤ × Option FileError) := do
  match ← f.seekTarget off whence with
  | none => return (f, 0, some .invalidSeekWhence)
  | some abs =>
      if abs < 0 then return (f, 0, some .negativeSeekLocation)
      else return ({ f with offset := abs }, abs, none)

end MemFile

/-! ## Access modes -/

/-- The wrapper around an open file. -/
inductive Access
  | readWrite
  /-- `roFile` disables `Write`. -/
  | readOnly
  /-- `woFile` disables `Read`. -/
  | writeOnly
  deriving DecidableEq

/-- A handle as `OpenFile` returns it. -/
structure File where
  file : MemFile
  access : Access

/-- The operations of a handle, with their arguments. -/
inductive FileOp
  | read (dst : List UInt8)
  | readAt (dst : List UInt8) (off : ℤ)
  | readVec (dstv : List (List UInt8))
  | readVecAt (dstv : List (List UInt8)) (off : ℤ)
  | write (data : List UInt8)
  | writeAt (data : List UInt8) (off : ℤ)
  | writeVec (datav : List (List UInt8))
  | writeVecAt (datav : List (List UInt8)) (off : ℤ)
  | truncate (size : ℤ)
  | seek (off : ℤ) (whence : MemFile.Whence)

/-- What an operation returns: a number of bytes or an offset, the buffers of a read
as they are afterwards, and the error. -/
structure FileResult where
  n : ℤ
  buffers : List (List UInt8) := []
  err : Option FileError := none

namespace File

variable (f : File)

/-- A wrapper disables one method; the others are those of the file inside.  In
particular `WriteAt` and `WriteVec` of a handle for reading write, and so does
`Truncate`. -/
def call : FileOp → Prog (File × FileResult)
  | .read dst =>
      match f.access with
      | .writeOnly => return (f, { n := 0, buffers := [dst], err := some .writeOnly })
      | _ => do
          let (file, n, dst', err) ← f.file.read dst
          return ({ f with file := file }, { n := n, buffers := [dst'], err := err })
  | .readAt dst off => do
      let (n, dst', err) ← f.file.readAt dst off
      return (f, { n := n, buffers := [dst'], err := err })
  | .readVec dstv => do
      let (file, n, dstv', err) ← f.file.readVec dstv
      return ({ f with file := file }, { n := n, buffers := dstv', err := err })
  | .readVecAt dstv off => do
      let (n, dstv', err) ← f.file.readVecAt dstv off
      return (f, { n := n, buffers := dstv', err := err })
  | .write data =>
      match f.access with
      | .readOnly => return (f, { n := 0, err := some .readOnly })
      | _ => do
          let (file, n) ← f.file.write data
          return ({ f with file := file }, { n := n })
  | .writeAt data off => do
      let n ← f.file.writeAt data off
      return (f, { n := n })
  | .writeVec datav => do
      let (file, n) ← f.file.writeVec datav
      return ({ f with file := file }, { n := n })
  | .writeVecAt datav off => do
      let n ← f.file.writeVecAt datav off
      return (f, { n := n })
  | .truncate size => do
      let err ← f.file.truncate size
      return (f, { n := 0, err := err })
  | .seek off whence => do
      let (file, n, err) ← f.file.seek off whence
      return ({ f with file := file }, { n := n, err := err })

end File

end Pdwfs
