import Pdwfs.Intercept.Lines

/-!
# One file, many streams

Any number of processes have a file open, each of them any number of times, and they
read and write it through their descriptors and streams, one call at a time.

* `Process.fputc`, `Process.fputs`, `Process.fprintf` — the output functions of the
  C layer.
* `StreamCall`, `Users.run` — calls one after the other, by whichever process.
* `ByteFile` — what a program takes a file for: bytes, and a position for each
  stream.
* `Users.run_refines` — as long as nobody leaves the file, that is what it is.

## Two models

Below is what there is: stripes on instances, inodes and handles in the processes,
and tables that lead from a stream to its handle.  Above is a sequence of bytes and
a position for each stream.  The relation between the two says that the file
consists of the bytes and each handle is at the position of its stream (`AtFile`).
Each call of a stream is then a call on the sequence of bytes, with the same answer,
and so is a run.

The condition on the calls is part of the abstract model (`ByteFile.Allowed`), and
it is computed there: whether a call is allowed is known from what the calls before
it have done to the bytes and positions.  A seek must not go past the end, where a
write would leave a gap.  A read must not touch more than 100 stripes.

## Buffers

The streams of the C library have buffers.  Those of the library that is modelled
have none: every call goes to the file at once, so that processes see each other's
writes without a flush.
-/

namespace Pdwfs

open Concurrency Redis Striping

/-! ## Output -/

namespace Process

variable (p : Process) (stream : OpenStream)

/-- `fputc`: one byte. -/
def fputc (ch : ℤ) : Prog (Process × OpenStream × ℤ) := do
  let (p, reply) ← p.writeFd stream.fileno [charOf ch]
  if cInt reply.ret ≤ 0 then return (p, { stream with errSeen := true }, -1)
  else return (p, stream, ch)

/-- `fputs` of the bytes in front of the `NUL`. -/
def fputs (s : List UInt8) : Prog (Process × OpenStream × ℤ) := do
  let (p, stream, reply) ← p.fwrite stream s 1 s.length
  return (p, stream, if reply.ret = s.length then 0 else -1)

/-- `fprintf` and `__fprintf_chk`.  The message is what `vsnprintf` makes of the arguments, if it
and `malloc` succeed; it is taken for a string. -/
def fprintf (message : Option (List UInt8)) : Prog (Process × OpenStream × ℤ) :=
  match message with
  | none => return (p, stream, -1)
  | some text => p.fputs stream (text.takeWhile (· ≠ 0))

end Process

/-! ## A file without gaps -/

namespace DataStore

variable {s : DataStore} {c c' : Cluster} {name : GoString} {bytes data : List UInt8} {off : ℕ}

/-- The file consists of these bytes, and all of them are stored.  There is no gap,
not even at the end. -/
structure Solid (s : DataStore) (c : Cluster) (name : GoString) (bytes : List UInt8) : Prop where
  inv : s.FileInv c name
  has : s.HasBytes c name bytes
  stored : ∀ i < bytes.length, s.Stores c name i

/-- The bytes with `data` written over them at `off`. -/
def overwritten (bytes : List UInt8) (off : ℕ) (data : List UInt8) : List UInt8 :=
  bytes.take off ++ data ++ bytes.drop (off + data.length)

theorem length_overwritten (inside : off ≤ bytes.length) :
    (overwritten bytes off data).length = max bytes.length (off + data.length) := by
  simp only [overwritten, List.length_append, List.length_take, List.length_drop]
  omega

/-- The byte at a position, after bytes have been written over others. -/
theorem getD_overwritten (inside : off ≤ bytes.length) (i : ℕ) :
    (overwritten bytes off data).getD i 0 =
      if off ≤ i ∧ i < off + data.length then data.getD (i - off) 0 else bytes.getD i 0 := by
  have start : (bytes.take off).length = off := by simp [inside]
  simp only [overwritten, List.getD_eq_getElem?_getD, List.append_assoc]
  by_cases before : i < off
  · rw [if_neg (by omega), List.getElem?_append_left (by omega), List.getElem?_take_of_lt before]
  · rw [List.getElem?_append_right (by omega), start]
    by_cases within : i < off + data.length
    · rw [if_pos (by omega), List.getElem?_append_left (by omega)]
    · rw [if_neg (by omega), List.getElem?_append_right (by omega), List.getElem?_drop]
      congr 2
      omega

/-- **A write that does not leave a gap.** -/
theorem Solid.writeAt (solid : s.Solid c name bytes) (inside : off ≤ bytes.length)
    {outcome : Option Unit} (performed : Exec (s.writeAt name off data) c c' outcome) :
    outcome = some () ∧ s.Solid c' name (overwritten bytes off data) := by
  obtain ⟨returned, puts⟩ := puts_of_exec_writeAt solid.inv (Int.natCast_nonneg off) performed
  refine ⟨returned, puts.inv, ⟨?_, fun i below => ?_⟩, fun i below => ?_⟩
  · have size := puts.size _ solid.has.isSize
    rw [length_overwritten inside]
    by_cases empty : data = []
    · rw [if_pos empty] at size
      rwa [empty, List.length_nil, Nat.add_zero, max_eq_left inside]
    · rw [if_neg empty] at size
      exact_mod_cast size
  · rw [length_overwritten inside] at below
    rw [getD_overwritten inside]
    by_cases within : off ≤ i ∧ i < off + data.length
    · rw [if_pos within, puts.inside i (by omega) (by omega)]
      congr 1
      omega
    · rw [if_neg within, puts.outside i (by omega), solid.has.content i (by omega)]
  · rw [length_overwritten inside] at below
    refine stores_of_exec_writeAt solid.inv (Int.natCast_nonneg off) performed ?_
    by_cases old : i < bytes.length
    · exact .inl (solid.stored i old)
    · exact .inr (by omega)

end DataStore

/-! ## Calls -/

/-- A call on a descriptor, or on the stream that it belongs to.  The items of `fwrite` and `fread`
are single bytes. -/
inductive StreamCall
  | write (buf : List UInt8)
  | read (buf : List UInt8)
  | lseek (offset : ℤ) (whence : MemFile.Whence)
  | fputc (ch : ℤ)
  | fputs (s : List UInt8)
  | fprintf (message : Option (List UInt8))
  | fwrite (ptr : List UInt8)
  | fgetc
  | fread (ptr : List UInt8)

/-- What a call returns, and the memory behind its pointer afterwards. -/
structure CallReply where
  ret : ℤ
  memory : List UInt8 := []

/-- A call of a process. -/
def Process.use (p : Process) (stream : OpenStream) :
    StreamCall → Prog (Process × OpenStream × CallReply)
  | .write buf => do
      let (p, reply) ← p.writeFd stream.fileno buf
      return (p, stream, { ret := reply.ret })
  | .read buf => do
      let (p, reply) ← p.readFd stream.fileno buf
      return (p, stream, { ret := reply.ret, memory := reply.buffers.flatten })
  | .lseek offset whence => do
      let (p, reply) ← p.lseekFd stream.fileno offset whence
      return (p, stream, { ret := reply.ret })
  | .fputc ch => do
      let (p, stream, ret) ← p.fputc stream ch
      return (p, stream, { ret := ret })
  | .fputs s => do
      let (p, stream, ret) ← p.fputs stream s
      return (p, stream, { ret := ret })
  | .fprintf message => do
      let (p, stream, ret) ← p.fprintf stream message
      return (p, stream, { ret := ret })
  | .fwrite ptr => do
      let (p, stream, reply) ← p.fwrite stream ptr 1 ptr.length
      return (p, stream, { ret := reply.ret, memory := reply.ptr })
  | .fgetc => do
      let (p, stream, ret) ← p.fgetc stream
      return (p, stream, { ret := ret })
  | .fread ptr => do
      let (p, stream, reply) ← p.fread stream ptr 1 ptr.length
      return (p, stream, { ret := reply.ret, memory := reply.ptr })

/-- The processes, and the streams of all of them. -/
structure Users (π ι : Type) where
  processes : π → Process
  streams : ι → OpenStream

section Users

variable {π ι : Type} [DecidableEq π] [DecidableEq ι] (owner : ι → π)

/-- Calls one after the other, each on one of the streams. -/
def Users.run (u : Users π ι) : List (ι × StreamCall) → Prog (Users π ι × List CallReply)
  | [] => return (u, [])
  | (i, call) :: rest => do
      let (p, stream, reply) ← (u.processes (owner i)).use (u.streams i) call
      let u : Users π ι :=
        ⟨Function.update u.processes (owner i) p, Function.update u.streams i stream⟩
      let (u, replies) ← u.run rest
      return (u, reply :: replies)

end Users

/-! ## What a file is -/

/-- A sequence of bytes, which is read and written at the position of each stream,
and the indicators of the streams. -/
structure ByteFile (ι : Type) where
  bytes : List UInt8
  position : ι → ℕ
  eofSeen : ι → Bool
  errSeen : ι → Bool

namespace ByteFile

variable {ι : Type} [DecidableEq ι] (a : ByteFile ι) (i : ι)

/-- Write at the position, and advance it. -/
def put (data : List UInt8) : ByteFile ι :=
  { a with
    bytes := DataStore.overwritten a.bytes (a.position i) data
    position := Function.update a.position i (a.position i + data.length) }

@[simp] theorem put_bytes (data : List UInt8) :
    (a.put i data).bytes = DataStore.overwritten a.bytes (a.position i) data := rfl

@[simp] theorem put_position (data : List UInt8) :
    (a.put i data).position i = a.position i + data.length := by
  simp [put]

/-- The next bytes, at most `n`. -/
def next (n : ℕ) : List UInt8 := (a.bytes.drop (a.position i)).take n

/-- Advance the position. -/
def skip (n : ℕ) : ByteFile ι :=
  { a with position := Function.update a.position i (a.position i + n) }

@[simp] theorem skip_position (n : ℕ) : (a.skip i n).position i = a.position i + n := by
  simp [skip]

omit [DecidableEq ι] in
theorem position_add_next_le (inside : a.position i ≤ a.bytes.length) (n : ℕ) :
    a.position i + (a.next i n).length ≤ a.bytes.length := by
  simp only [next, List.length_take, List.length_drop]
  omega

/-- Indicate the end of the file if less than `n` bytes have been left. -/
def indicate (n : ℕ) : ByteFile ι :=
  if (a.next i n).length < n then { a with eofSeen := Function.update a.eofSeen i true } else a

@[simp] theorem indicate_bytes (n : ℕ) : (a.indicate i n).bytes = a.bytes := by
  unfold indicate
  split <;> rfl

@[simp] theorem indicate_position (n : ℕ) : (a.indicate i n).position = a.position := by
  unfold indicate
  split <;> rfl

@[simp] theorem indicate_errSeen (n : ℕ) : (a.indicate i n).errSeen = a.errSeen := by
  unfold indicate
  split <;> rfl

/-- The end is indicated if it has been, or if less is left than was asked for. -/
theorem indicate_eofSeen (n : ℕ) :
    (a.indicate i n).eofSeen i = (a.eofSeen i || decide ((a.next i n).length < n)) := by
  unfold indicate
  split
  · rename_i short
    simp [short]
  · rename_i all
    simp [all]

/-- The position that a `seek` asks for. -/
def target (offset : ℤ) : MemFile.Whence → Option ℤ
  | .seekSet => some offset
  | .seekCur => some (a.position i + offset)
  | .seekEnd => some (a.bytes.length + offset)
  | .other => none

/-- What a call does. -/
def use : StreamCall → ByteFile ι × CallReply
  | .write buf => (a.put i buf, { ret := buf.length })
  | .read buf =>
      (a.skip i (a.next i buf.length).length,
        { ret := (a.next i buf.length).length
          memory := a.next i buf.length ++ buf.drop (a.next i buf.length).length })
  | .lseek offset whence =>
      ({ a with
          position := Function.update a.position i ((a.target i offset whence).getD 0).toNat },
        { ret := (a.target i offset whence).getD 0 })
  | .fputc ch => (a.put i [charOf ch], { ret := ch })
  | .fputs s => (a.put i s, { ret := 0 })
  | .fprintf none => (a, { ret := -1 })
  | .fprintf (some text) => (a.put i (text.takeWhile (· ≠ 0)), { ret := 0 })
  | .fwrite ptr => (a.put i ptr, { ret := ptr.length, memory := ptr })
  | .fgetc =>
      ((a.indicate i 1).skip i (a.next i 1).length,
        { ret := ((a.next i 1).head?.map signedChar).getD (-1) })
  | .fread ptr =>
      ((a.indicate i ptr.length).skip i (a.next i ptr.length).length,
        { ret := (a.next i ptr.length).length
          memory := a.next i ptr.length ++ ptr.drop (a.next i ptr.length).length })

/-- Calls one after the other. -/
def run (a : ByteFile ι) : List (ι × StreamCall) → ByteFile ι × List CallReply
  | [] => (a, [])
  | (i, call) :: rest =>
      let (a, reply) := a.use i call
      let (a, replies) := a.run rest
      (a, reply :: replies)

/-- A call that stays inside of the file, and transfers no more than can be counted.
-/
def Allowed (S : ℤ) : StreamCall → Prop
  | .read buf => touchedStripes S (a.position i) buf.length ≤ 100
  | .lseek offset whence =>
      ∃ n : ℕ, a.target i offset whence = some (n : ℤ) ∧ n ≤ a.bytes.length
  | .fputs s => s.length < 2 ^ 31
  | .fprintf message => ∀ text, message = some text → text.length < 2 ^ 31
  | .fwrite ptr => ptr.length < 2 ^ 31
  | .fread ptr => ptr.length < 2 ^ 31 ∧ touchedStripes S (a.position i) ptr.length ≤ 100
  | _ => True

/-- Calls each of which is allowed when it is made. -/
def AllowedAll (S : ℤ) (a : ByteFile ι) : List (ι × StreamCall) → Prop
  | [] => True
  | (i, call) :: rest => a.Allowed i S call ∧ AllowedAll S (a.use i call).1 rest

end ByteFile

/-! ## What a call leaves alone -/

namespace Process

/-- The processes have the same files, but for the descriptor `fd`. -/
def SameBut (fd : Fd) (p p' : Process) : Prop :=
  ∀ other, other ≠ fd → p'.pdwfs.fdFileMap other = p.pdwfs.fdFileMap other

variable {p p' : Process} {fd : Fd} {stream : OpenStream}

theorem SameBut.refl : SameBut fd p p := fun _ _ => rfl

theorem SameBut.trans {p'' : Process} (one : SameBut fd p p') (two : SameBut fd p' p'') :
    SameBut fd p p'' := fun other apart => (two other apart).trans (one other apart)

theorem SameBut.setFile (p : Process) (fd : Fd) (f : File) : SameBut fd p (p.setFile fd f) :=
  fun other apart => by simp [Process.setFile, apart]

/-- A call on a descriptor concerns no other one. -/
theorem yields_callFile (p : Process) (fd : Fd) (op : FileOp)
    (failure : Option FileError → Option FileError) (known : KnownFileErrors) :
    Program.Yields (fun result => SameBut fd p result.1) (p.callFile fd op failure known) := by
  unfold callFile
  split
  · trivial
  · refine (Program.yields_true _).bind fun called _ => ?_
    obtain ⟨file, result⟩ := called
    simp only [answer]
    cases failure result.err with
    | none => exact SameBut.setFile p fd file
    | some err =>
        simp only
        cases known.find? fun entry => entry.1 err with
        | none => trivial
        | some entry => exact SameBut.setFile p fd file

theorem yields_atEnd (p : Process) (fd : Fd) :
    Program.Yields (fun result => SameBut fd p result.1) (p.atEnd fd) := by
  refine (yields_callFile p fd _ _ _).bind fun one same => ?_
  refine (yields_callFile one.1 fd _ _ _).bind fun two same' => ?_
  refine (yields_callFile two.1 fd _ _ _).bind fun three same'' => ?_
  exact same.trans (same'.trans same'')

end Process

/-! ## One call -/

/-- A handle for reading and writing. -/
def DataStore.handle (s : DataStore) (name : GoString) (off : ℕ) : File :=
  { file := { store := s, path := name, offset := off }, access := .readWrite }

theorem DataStore.moveTo_handle (s : DataStore) (name : GoString) (off n : ℕ) :
    (s.handle name off).moveTo ((s.handle name off).file.offset + n) = s.handle name (off + n) := by
  simp [DataStore.handle, File.moveTo]

/-- The stream `i` of a process is where the file says. -/
structure AtFile {ι : Type} (s : DataStore) (c : Cluster) (name : GoString) (p : Process)
    (stream : OpenStream) (a : ByteFile ι) (i : ι) : Prop where
  solid : s.Solid c name a.bytes
  held : p.pdwfs.fdFileMap stream.fileno = some (s.handle name (a.position i))
  inside : a.position i ≤ a.bytes.length
  eofSeen : stream.eofSeen = a.eofSeen i
  errSeen : stream.errSeen = a.errSeen i

namespace AtFile

variable {ι : Type} [DecidableEq ι] {s : DataStore} {c c' : Cluster} {name : GoString} {p : Process}
  {stream : OpenStream} {a : ByteFile ι} {i : ι}

/-- Some bytes are written. -/
theorem exec_writeFd (here : AtFile s c name p stream a i) {data : List UInt8}
    {outcome : Option (Process × FdReply)}
    (performed : Exec (p.writeFd stream.fileno data) c c' outcome) :
    outcome = some (p.setFile stream.fileno (s.handle name (a.position i + data.length)),
        { ret := data.length }) ∧
      AtFile s c' name (p.setFile stream.fileno (s.handle name (a.position i + data.length)))
        stream (a.put i data) i := by
  obtain ⟨called, writes, rfl⟩ := Process.exec_callFile here.held performed
  rw [File.call_write (by simp [DataStore.handle])] at writes
  obtain ⟨inner, writing, rfl⟩ := Program.exec_bind_ret_iff.mp writes
  obtain ⟨wrote, written, rfl⟩ := Program.exec_bind_ret_iff.mp writing
  rw [MemFile.writeAt, if_neg (by simp [DataStore.handle])] at written
  rcases Program.exec_bind_iff.mp written with ⟨_, middle, stored, done⟩ | ⟨aborted, -⟩
  · obtain ⟨-, solid⟩ := here.solid.writeAt here.inside stored
    obtain ⟨rfl, rfl⟩ := Program.exec_ret_iff.mp done
    refine ⟨?_, solid, ?_, ?_, here.eofSeen, here.errSeen⟩
    · rw [← s.moveTo_handle name (a.position i)]
      rfl
    · simp
    · simp only [ByteFile.put_bytes, ByteFile.put_position,
        DataStore.length_overwritten here.inside]
      omega
  · have returned := (here.solid.writeAt here.inside aborted).1
    simp at returned

omit [DecidableEq ι] in
/-- Some bytes are read. -/
theorem exec_readFd (here : AtFile s c name p stream a i) {buf : List UInt8}
    (few : touchedStripes s.stripeSize (a.position i) buf.length ≤ 100)
    {outcome : Option (Process × FdReply)}
    (performed : Exec (p.readFd stream.fileno buf) c c' outcome) :
    c' = c ∧ outcome = some (p.setFile stream.fileno
      (s.handle name (a.position i + (a.next i buf.length).length)),
        { ret := (a.next i buf.length).length
          buffers := [a.next i buf.length ++ buf.drop (a.next i buf.length).length] }) := by
  have read := Process.exec_readFd_of_noGap here.held here.solid.inv here.solid.has
    here.solid.stored (Int.natCast_nonneg _) (by simp [DataStore.handle]) few rfl performed
  rw [DataStore.moveTo_handle] at read
  exact read

/-- The position goes behind the bytes that have been read. -/
theorem skip (here : AtFile s c name p stream a i) {n : ℕ} {p' : Process} {stream' : OpenStream}
    (fileno : stream'.fileno = stream.fileno)
    (held : p'.pdwfs.fdFileMap stream.fileno =
      some (s.handle name (a.position i + (a.next i n).length)))
    {b : ByteFile ι} (bytes : b.bytes = a.bytes) (position : b.position = a.position)
    (eofSeen : stream'.eofSeen = b.eofSeen i) (errSeen : stream'.errSeen = b.errSeen i) :
    AtFile s c name p' stream' (b.skip i (a.next i n).length) i where
  solid := bytes ▸ here.solid
  held := by rw [fileno, held, ByteFile.skip_position, position]
  inside := by
    have inside := a.position_add_next_le i here.inside n
    rw [ByteFile.skip_position, position]
    exact bytes ▸ inside
  eofSeen := eofSeen
  errSeen := errSeen

/-- What a call returns, and where it leaves the process. -/
def Serves (s : DataStore) (c' : Cluster) (name : GoString) (p : Process)
    (stream : OpenStream) (answer : ByteFile ι × CallReply) (i : ι)
    (outcome : Option (Process × OpenStream × CallReply)) : Prop :=
  ∃ p' stream', outcome = some (p', stream', answer.2) ∧
    AtFile s c' name p' stream' answer.1 i ∧ stream'.fileno = stream.fileno ∧
      Process.SameBut stream.fileno p p'

/-- Output that ends in one write. -/
theorem exec_output (here : AtFile s c name p stream a i) {data : List UInt8}
    {program : Process × FdReply → Prog (Process × OpenStream × CallReply)} {reply : CallReply}
    (returns : ∀ p' : Process, program (p', { ret := data.length }) = .ret (p', stream, reply))
    {outcome : Option (Process × OpenStream × CallReply)}
    (performed : Exec (p.writeFd stream.fileno data >>= program) c c' outcome) :
    Serves s c' name p stream (a.put i data, reply) i outcome := by
  rcases Program.exec_bind_iff.mp performed with ⟨value, middle, wrote, last⟩ | ⟨aborted, -⟩
  · obtain ⟨same, there⟩ := here.exec_writeFd wrote
    obtain rfl := Option.some.inj same
    rw [returns] at last
    obtain ⟨rfl, rfl⟩ := Program.exec_ret_iff.mp last
    exact ⟨_, _, rfl, there, rfl, .setFile _ _ _⟩
  · have impossible := (here.exec_writeFd aborted).1
    simp at impossible

/-- `fwrite` of single bytes returns their number. -/
theorem exec_fwrite (here : AtFile s c name p stream a i) {ptr : List UInt8}
    (small : ptr.length < 2 ^ 31)
    {program : Process × OpenStream × ItemsReply → Prog (Process × OpenStream × CallReply)}
    {reply : CallReply} (returns : ∀ p' : Process,
      program (p', stream, { ret := ptr.length, ptr := ptr }) = .ret (p', stream, reply))
    {outcome : Option (Process × OpenStream × CallReply)}
    (performed : Exec (p.fwrite stream ptr 1 ptr.length >>= program) c c' outcome) :
    Serves s c' name p stream (a.put i ptr, reply) i outcome := by
  rw [Process.fwrite, Program.bind_assoc, one_mul, List.take_length] at performed
  refine here.exec_output (fun p' => ?_) performed
  have count : sizeT (cInt (ptr.length : ℤ)) = ptr.length := by
    rw [cInt_natCast small, sizeT_natCast small]
  simp only [count, ite_true]
  exact returns p'

/-- `fputs` returns zero, since all bytes are written. -/
theorem exec_fputs (here : AtFile s c name p stream a i) {text : List UInt8}
    (small : text.length < 2 ^ 31) {outcome : Option (Process × OpenStream × CallReply)}
    (performed : Exec (p.fputs stream text >>= fun r => .ret (r.1, r.2.1, { ret := r.2.2 })) c c'
      outcome) :
    Serves s c' name p stream (a.put i text, { ret := 0 }) i outcome := by
  rw [Process.fputs, Program.bind_assoc] at performed
  refine here.exec_fwrite small (fun p' => ?_) performed
  simp only [ite_true]
  rfl

/-- `fgetc` returns the next byte in a `char`, or the end of the file. -/
theorem exec_fgetc (here : AtFile s c name p stream a i)
    {outcome : Option (Process × OpenStream × ℤ)}
    (performed : Exec (p.fgetc stream) c c' outcome) :
    c' = c ∧ ∃ p' stream',
      outcome = some (p', stream', ((a.next i 1).head?.map signedChar).getD (-1)) ∧
      AtFile s c name p' stream' ((a.indicate i 1).skip i (a.next i 1).length) i ∧
      stream'.fileno = stream.fileno ∧ Process.SameBut stream.fileno p p' := by
  have few : touchedStripes s.stripeSize (a.position i) [(0 : UInt8)].length ≤ 100 := by
    simp [touchedStripes]
  have indicated := a.indicate_eofSeen i 1
  rw [Process.fgetc] at performed
  replace performed := Program.exec_bind_of_returns (fun _ _ => here.exec_readFd few) performed
  simp only [List.length_singleton, Nat.cast_eq_zero, List.length_eq_zero_iff] at performed
  split at performed
  · rename_i ended
    obtain ⟨rfl, rfl⟩ := Program.exec_ret_iff.mp performed
    rw [ended, List.length_nil, decide_eq_true Nat.one_pos, Bool.or_true] at indicated
    refine ⟨rfl, p.setFile stream.fileno (s.handle name (a.position i + (a.next i 1).length)),
      { stream with eofSeen := true }, ?_, ?_, rfl, .setFile _ _ _⟩
    · rw [ended]
      rfl
    · refine here.skip ?_ (Process.fdFileMap_setFile _ _ _) (a.indicate_bytes i 1)
        (a.indicate_position i 1) ?_ ?_
      · rfl
      · exact indicated.symm
      · simpa using here.errSeen
  · rename_i more
    obtain ⟨x, rest, found⟩ := List.exists_cons_of_ne_nil more
    have single : (a.next i 1).length = 1 := by
      have short : (a.next i 1).length ≤ 1 := List.length_take_le _ _
      have positive := List.length_pos_iff.mpr more
      omega
    have notNegative : ¬(((a.next i 1).length : ℕ) : ℤ) < 0 := by omega
    rw [if_neg notNegative] at performed
    obtain ⟨rfl, rfl⟩ := Program.exec_ret_iff.mp performed
    refine ⟨rfl, p.setFile stream.fileno (s.handle name (a.position i + (a.next i 1).length)),
      stream, ?_, ?_, rfl, .setFile _ _ _⟩
    · simp [found]
    · refine here.skip rfl (Process.fdFileMap_setFile _ _ _) (a.indicate_bytes i 1)
        (a.indicate_position i 1) ?_ ?_
      · simpa [indicated, single] using here.eofSeen
      · simpa using here.errSeen

/-- `fread` looks for the end of the file if less than the whole buffer has been read. -/
theorem exec_fread (here : AtFile s c name p stream a i) {ptr : List UInt8}
    (small : ptr.length < 2 ^ 31)
    (few : touchedStripes s.stripeSize (a.position i) ptr.length ≤ 100)
    {outcome : Option (Process × OpenStream × ItemsReply)}
    (performed : Exec (p.fread stream ptr 1 ptr.length) c c' outcome) :
    c' = c ∧ ∃ p' stream',
      outcome = some (p', stream',
        { ret := (a.next i ptr.length).length
          ptr := a.next i ptr.length ++ ptr.drop (a.next i ptr.length).length }) ∧
      AtFile s c name p' stream'
        ((a.indicate i ptr.length).skip i (a.next i ptr.length).length) i ∧
      stream'.fileno = stream.fileno ∧ Process.SameBut stream.fileno p p' := by
  have short : (a.next i ptr.length).length ≤ ptr.length := List.length_take_le _ _
  have indicated := a.indicate_eofSeen i ptr.length
  rw [Process.fread, one_mul, List.take_length, List.drop_length] at performed
  replace performed := Program.exec_bind_of_returns (fun _ _ => here.exec_readFd few) performed
  simp only [cInt_natCast (lt_of_le_of_lt short small), sizeT_natCast (lt_of_le_of_lt short small),
    List.flatten_singleton, List.append_nil, Nat.cast_inj] at performed
  split at performed
  -- All bytes have been read: the end of the file is not looked for.
  · rename_i all
    obtain ⟨rfl, rfl⟩ := Program.exec_ret_iff.mp performed
    refine ⟨rfl, _, _, rfl, here.skip rfl (Process.fdFileMap_setFile _ _ _) (a.indicate_bytes i _)
      (a.indicate_position i _) ?_ ?_, rfl, .setFile _ _ _⟩
    · simpa [indicated, all] using here.eofSeen
    · simpa using here.errSeen
  · rename_i notAll
    have returned : ((a.next i ptr.length).length : ℤ) ≠ -1 := by omega
    rw [if_neg returned] at performed
    set next := a.next i ptr.length with nextEq
    set off := a.position i + next.length with offEq
    -- Fewer bytes are left than have been asked for, so the offset is at the end of the
    -- file after the read, and `fread` finds it there.
    have ended : off = a.bytes.length := by
      have inside := here.inside
      simp only [offEq, nextEq, ByteFile.next, List.length_take, List.length_drop] at notAll ⊢
      omega
    have seek := fun c' outcome => @Process.exec_atEnd c
      (p.setFile stream.fileno (s.handle name off)) stream.fileno (s.handle name off)
      (Process.fdFileMap_setFile _ _ _) here.solid.inv a.bytes.length here.solid.has.isSize
      (by simp [DataStore.handle]) c' outcome
    rcases Program.exec_bind_iff.mp performed with ⟨value, middle, sought, last⟩ | ⟨aborted, -⟩
    · obtain ⟨rfl, p', same, held⟩ := seek _ _ sought
      obtain rfl := Option.some.inj same
      obtain ⟨rfl, rfl⟩ := Program.exec_ret_iff.mp last
      have apart := (Process.yields_atEnd (p.setFile stream.fileno (s.handle name off))
        stream.fileno).of_exec sought _ rfl
      have less : next.length < ptr.length := by omega
      rw [decide_eq_true less, Bool.or_true] at indicated
      have inFull : (s.handle name off).file.offset = a.bytes.length := by
        simp [DataStore.handle, ended]
      refine ⟨rfl, p', { stream with eofSeen := true }, ?_, ?_, rfl,
        (Process.SameBut.setFile p stream.fileno _).trans apart⟩
      · simp [inFull]
      · refine here.skip ?_ held (a.indicate_bytes i _) (a.indicate_position i _) ?_ ?_
        · rfl
        · exact indicated.symm
        · simpa using here.errSeen
    -- The `lseek` that looks for the end does not panic.
    · obtain ⟨-, _, impossible, -⟩ := seek _ _ aborted
      simp at impossible

/-- **One call.** -/
theorem exec_use (here : AtFile s c name p stream a i) {call : StreamCall}
    (allowed : a.Allowed i s.stripeSize call)
    {outcome : Option (Process × OpenStream × CallReply)}
    (performed : Exec (p.use stream call) c c' outcome) :
    Serves s c' name p stream (a.use i call) i outcome := by
  cases call with
  | write buf => exact here.exec_output (fun _ => rfl) performed
  | fputc ch =>
      simp only [Process.use, Process.fputc, Program.bind_assoc] at performed
      refine here.exec_output (fun p' => ?_) performed
      have count : ¬cInt 1 ≤ 0 := by decide
      simp only [List.length_singleton, Nat.cast_one, if_neg count]
      rfl
  | fputs text => exact here.exec_fputs allowed performed
  | fprintf message =>
      cases message with
      | none =>
          obtain ⟨rfl, rfl⟩ := Program.exec_ret_iff.mp performed
          exact ⟨_, _, rfl, here, rfl, .refl⟩
      | some text =>
          have shorter : (text.takeWhile fun x => decide (x ≠ 0)).length ≤ text.length :=
            (List.takeWhile_sublist _).length_le
          exact here.exec_fputs (lt_of_le_of_lt shorter (allowed text rfl)) performed
  | fwrite ptr => exact here.exec_fwrite allowed (fun _ => rfl) performed
  | read buf =>
      obtain ⟨answer, reading, rfl⟩ := Program.exec_bind_ret_iff.mp performed
      obtain ⟨rfl, rfl⟩ := here.exec_readFd allowed reading
      refine ⟨_, _, ?_, here.skip rfl (Process.fdFileMap_setFile _ _ _) rfl rfl here.eofSeen
        here.errSeen, rfl, .setFile _ _ _⟩
      simp [ByteFile.use]
  | lseek offset whence =>
      obtain ⟨n, asked, within⟩ := allowed
      have sought : (s.handle name (a.position i)).file.seekTo a.bytes.length offset whence =
          some (n : ℤ) := by
        rw [← asked]
        cases whence <;> rfl
      obtain ⟨answer, seeking, rfl⟩ := Program.exec_bind_ret_iff.mp performed
      obtain ⟨rfl, rfl⟩ :=
        Process.exec_lseekFd here.held here.solid.inv here.solid.has.isSize sought
        (Int.natCast_nonneg n) seeking
      refine ⟨p.setFile stream.fileno (s.handle name n), stream, ?_,
        ⟨here.solid, ?_, ?_, here.eofSeen, here.errSeen⟩, rfl, .setFile _ _ _⟩
      · simp only [ByteFile.use, asked, Option.getD_some]
        rfl
      · simp [ByteFile.use, asked]
      · simpa [ByteFile.use, asked] using within
  | fgetc =>
      obtain ⟨answer, reading, rfl⟩ := Program.exec_bind_ret_iff.mp performed
      obtain ⟨rfl, p', stream', rfl, there, same, apart⟩ := here.exec_fgetc reading
      exact ⟨p', stream', rfl, there, same, apart⟩
  | fread ptr =>
      obtain ⟨answer, reading, rfl⟩ := Program.exec_bind_ret_iff.mp performed
      obtain ⟨rfl, p', stream', rfl, there, same, apart⟩ :=
        here.exec_fread allowed.1 allowed.2 reading
      exact ⟨p', stream', rfl, there, same, apart⟩

end AtFile

/-! ## All calls -/

namespace ByteFile

variable {ι : Type} [DecidableEq ι] {a b : ByteFile ι} {i : ι}

/-- The other streams see more bytes at most. -/
structure Keeps (i : ι) (a b : ByteFile ι) : Prop where
  position : ∀ j, j ≠ i → b.position j = a.position j
  eofSeen : ∀ j, j ≠ i → b.eofSeen j = a.eofSeen j
  errSeen : b.errSeen = a.errSeen
  longer : a.bytes.length ≤ b.bytes.length

omit [DecidableEq ι] in
theorem Keeps.refl : Keeps i a a := ⟨fun _ _ => rfl, fun _ _ => rfl, rfl, le_rfl⟩

omit [DecidableEq ι] in
theorem Keeps.trans {d : ByteFile ι} (one : Keeps i a b) (two : Keeps i b d) : Keeps i a d where
  position j apart := (two.position j apart).trans (one.position j apart)
  eofSeen j apart := (two.eofSeen j apart).trans (one.eofSeen j apart)
  errSeen := two.errSeen.trans one.errSeen
  longer := one.longer.trans two.longer

theorem keeps_skip (a : ByteFile ι) (i : ι) (n : ℕ) : Keeps i a (a.skip i n) :=
  ⟨fun _ apart => Function.update_of_ne apart _ _, fun _ _ => rfl, rfl, le_rfl⟩

/-- A write at a position inside moves nobody else. -/
theorem keeps_put (inside : a.position i ≤ a.bytes.length) (data : List UInt8) :
    Keeps i a (a.put i data) where
  position _ apart := Function.update_of_ne apart _ _
  eofSeen _ _ := rfl
  errSeen := rfl
  longer := by
    rw [put_bytes, DataStore.length_overwritten inside]
    exact le_max_left _ _

theorem keeps_indicate (a : ByteFile ι) (i : ι) (n : ℕ) : Keeps i a (a.indicate i n) := by
  unfold indicate
  split
  · exact ⟨fun _ _ => rfl, fun _ apart => Function.update_of_ne apart _ _, rfl, le_rfl⟩
  · exact .refl

/-- Nor does any other call. -/
theorem keeps_use (inside : a.position i ≤ a.bytes.length) (call : StreamCall) :
    Keeps i a (a.use i call).1 := by
  cases call with
  | write buf => exact keeps_put inside _
  | read buf => exact a.keeps_skip i _
  | lseek offset whence =>
      exact ⟨fun _ apart => Function.update_of_ne apart _ _, fun _ _ => rfl, rfl, le_rfl⟩
  | fputc ch => exact keeps_put inside _
  | fputs text => exact keeps_put inside _
  | fprintf message =>
      cases message with
      | none => exact .refl
      | some text => exact keeps_put inside _
  | fwrite ptr => exact keeps_put inside _
  | fgetc => exact (a.keeps_indicate i _).trans (keeps_skip _ i _)
  | fread ptr => exact (a.keeps_indicate i _).trans (keeps_skip _ i _)

end ByteFile

namespace Users

variable {π ι : Type} [DecidableEq π] [DecidableEq ι] {owner : ι → π} {s : DataStore}
  {c c' : Cluster} {name : GoString} {u : Users π ι} {a : ByteFile ι}

/-- Each stream is where the file says, and no two of them share a descriptor. -/
structure Refines (owner : ι → π) (s : DataStore) (name : GoString) (c : Cluster)
    (u : Users π ι) (a : ByteFile ι) : Prop where
  atFile : ∀ i, AtFile s c name (u.processes (owner i)) (u.streams i) a i
  apart : ∀ i j, owner i = owner j → (u.streams i).fileno = (u.streams j).fileno → i = j

/-- What a call of one stream means for all of them. -/
theorem Refines.update (refines : Refines owner s name c u a) (i : ι) {call : StreamCall}
    {p : Process} {stream : OpenStream} (there : AtFile s c' name p stream (a.use i call).1 i)
    (fileno : stream.fileno = (u.streams i).fileno)
    (same : Process.SameBut (u.streams i).fileno (u.processes (owner i)) p) :
    Refines owner s name c'
      ⟨Function.update u.processes (owner i) p, Function.update u.streams i stream⟩
      (a.use i call).1 where
  atFile j := by
    by_cases acted : j = i
    · subst acted
      simpa using there
    · have keeps := ByteFile.keeps_use (refines.atFile i).inside call
      have here := refines.atFile j
      have held : (Function.update u.processes (owner i) p (owner j)).pdwfs.fdFileMap
          (u.streams j).fileno = some (s.handle name (a.position j)) := by
        by_cases together : owner j = owner i
        · have other : (u.streams j).fileno ≠ (u.streams i).fileno :=
            fun shared => acted (refines.apart j i together shared)
          rw [together, Function.update_self, same _ other, ← together]
          exact here.held
        · rw [Function.update_of_ne together]
          exact here.held
      simp only [Function.update_of_ne acted]
      exact ⟨there.solid, by rw [held, keeps.position j acted],
        by rw [keeps.position j acted]; exact here.inside.trans keeps.longer,
        by rw [here.eofSeen, keeps.eofSeen j acted], by rw [here.errSeen, keeps.errSeen]⟩
  apart j k together shared := by
    have fileno' : ∀ l, (Function.update u.streams i stream l).fileno = (u.streams l).fileno := by
      intro l
      by_cases acted : l = i
      · rw [acted, Function.update_self, fileno]
      · rw [Function.update_of_ne acted]
    rw [fileno', fileno'] at shared
    exact refines.apart j k together shared

/-- **One file, many streams.**  Whatever calls they make, in whatever order, each of them returns
what the sequence of bytes says. -/
theorem run_refines {calls : List (ι × StreamCall)} (refines : Refines owner s name c u a)
    (allowed : a.AllowedAll s.stripeSize calls)
    {outcome : Option (Users π ι × List CallReply)}
    (performed : Exec (u.run owner calls) c c' outcome) :
    ∃ u', outcome = some (u', (a.run calls).2) ∧ Refines owner s name c' u' (a.run calls).1 := by
  induction calls generalizing u a c outcome with
  | nil =>
      obtain ⟨rfl, rfl⟩ := Program.exec_ret_iff.mp performed
      exact ⟨u, rfl, refines⟩
  | cons first rest ih =>
      obtain ⟨i, call⟩ := first
      obtain ⟨mine, others⟩ := allowed
      rcases Program.exec_bind_iff.mp performed with ⟨value, middle, used, last⟩ | ⟨aborted, -⟩
      · obtain ⟨p, stream, same, there, fileno, apart⟩ := (refines.atFile i).exec_use mine used
        obtain rfl := Option.some.inj same
        obtain ⟨answer, onward, rfl⟩ := Program.exec_bind_ret_iff.mp last
        obtain ⟨u', rfl, refines'⟩ := ih (refines.update i there fileno apart) others onward
        exact ⟨u', rfl, refines'⟩
      · obtain ⟨_, _, impossible, -⟩ := (refines.atFile i).exec_use mine aborted
        simp at impossible

/-- Two processes that have opened the empty file. -/
def smallStore.users : Users Bool Bool where
  processes _ := smallStore.process
  streams _ := smallStore.stream

/-- What one of them has written is what the other one reads. -/
theorem run_refines_greeting : ∃ u' c', Exec
    (smallStore.users.run id [(true, .fputs [104, 105]), (false, .fgetc), (true, .fputc 33),
      (false, .fread [0, 0, 0])]) DataStore.emptyCluster c'
    (some (u', [{ ret := 0 }, { ret := 104 }, { ret := 33 },
      { ret := 2, memory := [105, 33, 0] }])) := by
  set calls : List (Bool × StreamCall) :=
    [(true, .fputs [104, 105]), (false, .fgetc), (true, .fputc 33), (false, .fread [0, 0, 0])]
    with callsEq
  have refines : Refines id (smallStore 2) ['f'] DataStore.emptyCluster smallStore.users
      ⟨[], fun _ => 0, fun _ => false, fun _ => false⟩ := by
    refine ⟨fun _ => ⟨⟨DataStore.smallStore.fileInv_empty, DataStore.smallStore.hasBytes_empty,
      ?_⟩, rfl, le_rfl, rfl, rfl⟩, fun _ _ together _ => together⟩
    simp
  have allowed : ByteFile.AllowedAll (smallStore 2).stripeSize
      ⟨[], fun _ => 0, fun _ => false, fun _ => false⟩ calls :=
    ⟨(by decide : 2 < 2 ^ 31), trivial, trivial, ⟨by decide, by decide⟩, trivial⟩
  have performed := Program.exec_run serve (smallStore.users.run id calls) DataStore.emptyCluster
  obtain ⟨u', same, -⟩ := run_refines refines allowed performed
  exact ⟨u', _, same ▸ performed⟩

end Users

end Pdwfs
