import Pdwfs.Intercept.EntryPoints
import Pdwfs.Redisfs.Appends

/-!
# Calls on a descriptor

The functions that the C layer calls with a descriptor of a managed file.  They find
the file, call its operation, and turn the errors that they know into an errno; on
any other error they panic.  Most of the errors that they know are a
`*os.PathError`, and no open file returns one.

* `Process.callFile` — what these functions have in common.
* `Process.writeFd`, …, `Process.ftruncateFd` — the functions.
* `Process.exec_callFile` — what they do: one call of the open file, and its answer.
* `Process.Answers` — a call succeeds, or it fails with `EINVAL` and changes
  nothing.
* `Accepted`, `answers_iff` — when it does.

## One function with parameters

The functions have the same shape in the source, each with an operation of the file
and a list of errors.  They are instances of `callFile`, and what is proved about it
holds of all.  What a read takes for an error is a parameter too, since the end of
the file is none.

## Negative arguments

A negative offset is an error of the file, and the functions look for it in a
`*os.PathError`, which the file does not return: it returns the bare error.  So the
test never applies, and the function panics where it was meant to set `EINVAL`.  The
condition `Accepted` is therefore that the arguments are right in the first place.
An empty list of buffers is accepted with any offset, since the file is then not
asked.
-/

namespace Pdwfs

open Concurrency Redis Striping

/-! ## Errors -/

/-- The values of `errno` that the calls on a descriptor set. -/
inductive FdErrno
  | ebadf
  | einval
  deriving DecidableEq

/-- The reasons of a `*os.PathError` that the calls look for. -/
inductive PathReason
  | negativeOffset
  | negativeSeekLocation
  | invalidSeekWhence

/-- The error is a `*os.PathError` with this reason.  An open file returns its errors as they
are, so none of them is. -/
def FileError.isPathError (_reason : PathReason) (_err : FileError) : Bool := false

/-- What a read takes for an error: not the end of the file. -/
def FileError.ofRead : Option FileError → Option FileError
  | some .eof => none
  | err => err

/-- The errors that a call on a descriptor knows, in the order in which it tries them. -/
abbrev KnownFileErrors := List ((FileError → Bool) × FdErrno)

/-- The errors of `Write`. -/
def writeErrors : KnownFileErrors := [(fun err => err = .readOnly, .ebadf)]

/-- The errors of `Read`. -/
def readErrors : KnownFileErrors := [(fun err => err = .writeOnly, .ebadf)]

/-- The errors of `Pread`, `Pwrite`, `Preadv` and `Pwritev`. -/
def offsetErrors : KnownFileErrors := [(FileError.isPathError .negativeOffset, .einval)]

/-- The errors of `Lseek`. -/
def seekErrors : KnownFileErrors :=
  [(FileError.isPathError .negativeSeekLocation, .einval),
    (FileError.isPathError .invalidSeekWhence, .einval)]

/-! ## The functions -/

/-- What a call on a descriptor returns, the errno if it has been set, and the
buffers of a read as they are afterwards. -/
structure FdReply where
  ret : ℤ
  errno : Option FdErrno := none
  buffers : List (List UInt8) := []

namespace Process

variable (p : Process) (fd : Fd)

/-- The file of a descriptor in the state in which an operation has left it. -/
def setFile (file : File) : Process :=
  { p with pdwfs := { fdFileMap := Function.update p.pdwfs.fdFileMap fd (some file) } }

/-- What is returned for the result of an operation. -/
def answer (failure : Option FileError → Option FileError) (known : KnownFileErrors)
    (file : File) (result : FileResult) : Prog (Process × FdReply) :=
  match failure result.err with
  | none => return (p.setFile fd file, { ret := result.n, buffers := result.buffers })
  | some err =>
      match known.find? fun entry => entry.1 err with
      | some (_, errno) =>
          return (p.setFile fd file, { ret := -1, errno := some errno, buffers := result.buffers })
      | none => .panic

/-- A function that calls the operation `op` of the file.  It panics if there is
none. -/
def callFile (op : FileOp) (failure : Option FileError → Option FileError)
    (known : KnownFileErrors) : Prog (Process × FdReply) :=
  match p.pdwfs.getFileFromFd fd with
  | .error _ => .panic
  | .ok file => do
      let (file, result) ← file.call op
      p.answer fd failure known file result

/-- `Write`. -/
def writeFd (buf : List UInt8) : Prog (Process × FdReply) :=
  p.callFile fd (.write buf) id writeErrors

/-- `Pwrite`. -/
def pwriteFd (buf : List UInt8) (off : ℤ) : Prog (Process × FdReply) :=
  p.callFile fd (.writeAt buf off) id offsetErrors

/-- `Pwritev`. -/
def pwritevFd (iov : List (List UInt8)) (off : ℤ) : Prog (Process × FdReply) :=
  p.callFile fd (.writeVecAt iov off) id offsetErrors

/-- `Read`. -/
def readFd (buf : List UInt8) : Prog (Process × FdReply) :=
  p.callFile fd (.read buf) FileError.ofRead readErrors

/-- `Pread`. -/
def preadFd (buf : List UInt8) (off : ℤ) : Prog (Process × FdReply) :=
  p.callFile fd (.readAt buf off) FileError.ofRead offsetErrors

/-- `Preadv`. -/
def preadvFd (iov : List (List UInt8)) (off : ℤ) : Prog (Process × FdReply) :=
  p.callFile fd (.readVecAt iov off) FileError.ofRead offsetErrors

/-- `Lseek`. -/
def lseekFd (offset : ℤ) (whence : MemFile.Whence) : Prog (Process × FdReply) :=
  p.callFile fd (.seek offset whence) id seekErrors

/-- `Ftruncate`. -/
def ftruncateFd (length : ℤ) : Prog (Process × FdReply) :=
  p.callFile fd (.truncate length) id []

/-! ## A call on a descriptor -/

/-- What is answered for the result of an operation, if the call does not panic. -/
def answered (failure : Option FileError → Option FileError) (known : KnownFileErrors)
    (file : File) (result : FileResult) : Option (Process × FdReply) :=
  match failure result.err with
  | none => some (p.setFile fd file, { ret := result.n, buffers := result.buffers })
  | some err => (known.find? fun entry => entry.1 err).map fun entry =>
      (p.setFile fd file, { ret := -1, errno := some entry.2, buffers := result.buffers })

variable {p fd} {failure : Option FileError → Option FileError} {known : KnownFileErrors}
  {c c' : Cluster} {outcome : Option (Process × FdReply)}

/-- The answer is computed from the result, without a request. -/
theorem exec_answer_iff {file : File} {result : FileResult} :
    Exec (p.answer fd failure known file result) c c' outcome ↔
      c' = c ∧ outcome = p.answered fd failure known file result := by
  unfold answer answered
  cases failure result.err with
  | none => exact Program.exec_ret_iff
  | some err =>
      simp only
      cases known.find? fun entry => entry.1 err with
      | none => exact Program.exec_panic_iff
      | some entry => exact Program.exec_ret_iff

/-- **A call on a descriptor** makes one call of the open file. -/
theorem exec_callFile {op : FileOp} {f : File} (held : p.pdwfs.fdFileMap fd = some f)
    (performed : Exec (p.callFile fd op failure known) c c' outcome) :
    ∃ called, Exec (f.call op) c c' called ∧
      outcome = called.bind fun (file, result) => p.answered fd failure known file result := by
  rw [callFile, PdwFS.getFileFromFd, held] at performed
  rcases Program.exec_bind_iff.mp performed with ⟨called, middle, first, last⟩ | ⟨aborted, rfl⟩
  · obtain ⟨rfl, rfl⟩ := exec_answer_iff.mp last
    exact ⟨_, first, rfl⟩
  · exact ⟨none, aborted, rfl⟩

end Process

/-- The calls with an offset or a length. -/
inductive OffsetCall
  | lseek (offset : ℤ) (whence : MemFile.Whence)
  | pread (buf : List UInt8) (off : ℤ)
  | pwrite (buf : List UInt8) (off : ℤ)
  | preadv (iov : List (List UInt8)) (off : ℤ)
  | pwritev (iov : List (List UInt8)) (off : ℤ)
  | ftruncate (length : ℤ)

namespace Process

/-- Make the call. -/
def enterFd (p : Process) (fd : Fd) : OffsetCall → Prog (Process × FdReply)
  | .lseek offset whence => p.lseekFd fd offset whence
  | .pread buf off => p.preadFd fd buf off
  | .pwrite buf off => p.pwriteFd fd buf off
  | .preadv iov off => p.preadvFd fd iov off
  | .pwritev iov off => p.pwritevFd fd iov off
  | .ftruncate length => p.ftruncateFd fd length

/-- Whatever happens, the call on the descriptor of the file succeeds, or it fails with `EINVAL`
and leaves the file and the handle as they are. -/
def Answers (p : Process) (c : Cluster) (fd : Fd) (f : File) (call : OffsetCall) : Prop :=
  ∀ c' outcome, Exec (p.enterFd fd call) c c' outcome → ∃ p' reply, outcome = some (p', reply) ∧
    (0 ≤ reply.ret ∧ reply.errno = none ∨
      reply.ret = -1 ∧ reply.errno = some .einval ∧
      (∀ bytes, f.file.store.HasBytes c f.file.path bytes →
        f.file.store.HasBytes c' f.file.path bytes) ∧
      ∃ f', p'.pdwfs.fdFileMap fd = some f' ∧ f'.file.offset = f.file.offset)

end Process

namespace OffsetCall

/-- The arguments that a call does not panic on. -/
def Accepted (c : Cluster) (f : File) : OffsetCall → Prop
  | .lseek offset whence => ∃ size abs,
      IsSize f.file.store.stripeSize (f.file.store.stripe c f.file.path) size ∧
        f.file.seekTo size offset whence = some abs ∧ 0 ≤ abs
  | .pread _ off => 0 ≤ off
  | .pwrite _ off => 0 ≤ off
  | .preadv iov off => 0 ≤ off ∨ iov = []
  | .pwritev iov off => 0 ≤ off ∨ iov = []
  | .ftruncate length => 0 ≤ length

/-- The operation of the file. -/
def op : OffsetCall → FileOp
  | .lseek offset whence => .seek offset whence
  | .pread buf off => .readAt buf off
  | .pwrite buf off => .writeAt buf off
  | .preadv iov off => .readVecAt iov off
  | .pwritev iov off => .writeVecAt iov off
  | .ftruncate length => .truncate length

/-- What the call takes for an error. -/
def failure : OffsetCall → Option FileError → Option FileError
  | .pread _ _ => FileError.ofRead
  | .preadv _ _ => FileError.ofRead
  | _ => id

/-- The errors that the call knows. -/
def known : OffsetCall → KnownFileErrors
  | .lseek _ _ => seekErrors
  | .ftruncate _ => []
  | _ => offsetErrors

variable {p : Process} {fd : Fd} {f : File} {c c' : Cluster} {call : OffsetCall}

theorem enterFd_eq : p.enterFd fd call = p.callFile fd call.op call.failure call.known := by
  cases call <;> rfl

/-- No error of an open file is known. -/
theorem find?_known (call : OffsetCall) (err : FileError) :
    (call.known.find? fun entry => entry.1 err) = none := by
  cases call <;> rfl

/-- So the call panics on every error. -/
theorem answered_eq {file : File} {result : FileResult} :
    p.answered fd call.failure call.known file result =
      if call.failure result.err = none then
        some (p.setFile fd file, { ret := result.n, buffers := result.buffers }) else none := by
  unfold Process.answered
  cases failed : call.failure result.err with
  | none => rw [if_pos rfl]
  | some err => simp [find?_known]

/-- A call with an offset or a length is one call of the file, and panics on every
error. -/
theorem exec_enterFd (held : p.pdwfs.fdFileMap fd = some f)
    {outcome : Option (Process × FdReply)} (performed : Exec (p.enterFd fd call) c c' outcome) :
    ∃ answer, Exec (f.call call.op) c c' answer ∧
      outcome = answer.bind fun (file, result) => if call.failure result.err = none then
        some (p.setFile fd file, { ret := result.n, buffers := result.buffers }) else none := by
  rw [enterFd_eq] at performed
  obtain ⟨answer, called, rfl⟩ := Process.exec_callFile held performed
  simp only [answered_eq]
  exact ⟨answer, called, rfl⟩

/-- **One call of the open file**: no error if and only if the arguments are accepted. -/
theorem accepted_iff (inv : f.file.store.FileInv c f.file.path)
    {answer : Option (File × FileResult)} (called : Exec (f.call call.op) c c' answer) :
    call.Accepted c f ↔
      ∃ file result, answer = some (file, result) ∧ call.failure result.err = none ∧
        0 ≤ result.n := by
  obtain ⟨size, isSize⟩ := inv.exists_isSize
  cases call with
  | lseek offset whence =>
      obtain ⟨inner, sought, rfl⟩ := Program.exec_bind_ret_iff.mp called
      obtain ⟨rfl, rfl⟩ := MemFile.exec_seek inv isSize sought
      have unfolded : (lseek offset whence).Accepted c' f ↔
          ∃ abs, f.file.seekTo size offset whence = some abs ∧ 0 ≤ abs := by
        refine ⟨fun ⟨size', abs, isSize', asked, nonneg⟩ => ⟨abs, ?_, nonneg⟩,
          fun ⟨abs, asked, nonneg⟩ => ⟨size, abs, isSize, asked, nonneg⟩⟩
        rwa [isSize.unique isSize']
      rw [unfolded]
      cases asked : f.file.seekTo size offset whence with
      | none => simp [failure]
      | some abs =>
          by_cases negative : abs < 0
          · simp [failure, negative]
          · simp [failure, negative, not_lt.mp negative]
  | pread buf off =>
      obtain ⟨inner, reading, rfl⟩ := Program.exec_bind_ret_iff.mp called
      obtain ⟨rfl, ⟨negative, rfl⟩ | ⟨nonneg, result, rfl, delivers⟩⟩ :=
        MemFile.exec_readAt inv reading
      · simpa [Accepted] using negative
      · refine iff_of_true nonneg ⟨_, _, rfl, ?_, delivers.nonneg⟩
        simp only [delivers.err]
        split <;> rfl
  | pwrite buf off =>
      obtain ⟨inner, writing, rfl⟩ := Program.exec_bind_ret_iff.mp called
      rcases MemFile.exec_writeAt inv writing with ⟨negative, rfl, rfl⟩ | ⟨nonneg, rfl, puts⟩
      · simpa [Accepted] using negative
      · exact iff_of_true nonneg ⟨_, _, rfl, rfl, Int.natCast_nonneg _⟩
  | preadv iov off =>
      obtain ⟨inner, reading, rfl⟩ := Program.exec_bind_ret_iff.mp called
      obtain ⟨rfl, ⟨negative, some, rfl⟩ | ⟨accepted, n, dstv, err, rfl, delivers⟩⟩ :=
        MemFile.exec_readVecAt inv reading
      · simpa [Accepted] using ⟨negative, some⟩
      · refine iff_of_true accepted ⟨_, _, rfl, ?_, delivers.nonneg⟩
        rcases delivers.err_eq with rfl | rfl <;> rfl
  | pwritev iov off =>
      obtain ⟨inner, writing, rfl⟩ := Program.exec_bind_ret_iff.mp called
      rcases MemFile.exec_writeVecAt inv writing with
        ⟨negative, some, rfl, rfl⟩ | ⟨accepted, rfl, puts⟩
      · simpa [Accepted] using ⟨negative, some⟩
      · exact iff_of_true accepted ⟨_, _, rfl, rfl, Int.natCast_nonneg _⟩
  | ftruncate length =>
      obtain ⟨inner, resized, rfl⟩ := Program.exec_bind_ret_iff.mp called
      rcases MemFile.exec_truncate inv isSize resized with ⟨negative, rfl, rfl⟩ | ⟨nonneg, rfl, -⟩
      · simpa [Accepted, failure] using negative
      · exact iff_of_true nonneg ⟨_, _, rfl, rfl, le_rfl⟩

/-- **Offsets and lengths.**  A call with an offset or a length succeeds or fails
with `EINVAL` if and only if there is nothing wrong with its arguments: none of the
functions has an errno for what is wrong with them.  The equivalence is one for each
of the six calls and for any arguments.  Where the arguments are not accepted the
operation returns an error that the call does not know, and it panics; so no case is
left in which it fails with an errno. -/
theorem answers_iff (held : p.pdwfs.fdFileMap fd = some f)
    (inv : f.file.store.FileInv c f.file.path) : p.Answers c fd f call ↔ call.Accepted c f := by
  constructor
  · intro answers
    have performed := Program.exec_run serve (p.enterFd fd call) c
    obtain ⟨answer, called, same⟩ := exec_enterFd held performed
    obtain ⟨p', reply, returned, replied⟩ := answers _ _ performed
    rw [returned] at same
    apply (accepted_iff inv called).mpr
    cases answer with
    | none => simp at same
    | some answer =>
        obtain ⟨file, result⟩ := answer
        simp only [Option.bind_some] at same
        by_cases noError : call.failure result.err = none
        · rw [if_pos noError] at same
          obtain ⟨rfl, rfl⟩ := Prod.mk.inj (Option.some.inj same)
          refine ⟨file, result, rfl, noError, ?_⟩
          rcases replied with ⟨nonneg, -⟩ | ⟨-, impossible, -⟩
          · exact nonneg
          · simp at impossible
        · simp [if_neg noError] at same
  · intro accepted c' outcome performed
    obtain ⟨answer, called, rfl⟩ := exec_enterFd held performed
    obtain ⟨file, result, rfl, noError, nonneg⟩ := (accepted_iff inv called).mp accepted
    refine ⟨p.setFile fd file, { ret := result.n, buffers := result.buffers }, ?_,
      .inl ⟨nonneg, rfl⟩⟩
    simp only [Option.bind_some, if_pos noError]

end OffsetCall

/-! ## A small file -/

/-- An empty file that is open for reading and writing. -/
def smallStore.file : File :=
  { file := { store := smallStore 2, path := ['f'] }, access := .readWrite }

/-- A process that has opened it. -/
def smallStore.process : Process where
  pdwfs := { fdFileMap := fun fd => if fd = 3 then some smallStore.file else none }
  inodes := RedisFS.small.rootOnly

/-- The cluster with some bytes in the small file. -/
def smallStore.written (data : List UInt8) : Cluster := smallStore.afterWrite (smallStore 2) 0 data

/-- A file that has been written once. -/
theorem smallStore.hasBytes_written (data : List UInt8) :
    (smallStore 2).FileInv (smallStore.written data) ['f'] ∧
      (smallStore 2).HasBytes (smallStore.written data) ['f'] data := by
  have wrote := Program.exec_run serve ((smallStore 2).writeAt ['f'] 0 data) DataStore.emptyCluster
  have puts : (smallStore 2).Puts DataStore.emptyCluster _ ['f'] ([] : List UInt8).length _ :=
    (DataStore.puts_of_exec_writeAt DataStore.smallStore.fileInv_empty le_rfl wrote).2
  exact ⟨puts.inv, puts.hasBytes_append DataStore.smallStore.hasBytes_empty⟩

/-- Calls on a file of three bytes: across its two stripes, behind its end, and with an offset that
counts from the end. -/
theorem answers_threeBytes :
    (smallStore 2).HasBytes (smallStore.written [1, 2, 3]) ['f'] [1, 2, 3] ∧
    ∀ call ∈ [OffsetCall.pread [0, 0] 1, .pwrite [8, 9] 5, .preadv [[0], [0, 0]] 0, .preadv [] (-1),
        .pwritev [[7], [8, 9]] 2, .lseek (-1) .seekEnd, .lseek 4 .seekCur, .ftruncate 1],
      smallStore.process.Answers (smallStore.written [1, 2, 3]) 3 smallStore.file call := by
  obtain ⟨inv, has⟩ := smallStore.hasBytes_written [1, 2, 3]
  refine ⟨has, fun call member => (OffsetCall.answers_iff rfl inv).mpr ?_⟩
  simp only [List.mem_cons, List.not_mem_nil, or_false] at member
  rcases member with rfl | rfl | rfl | rfl | rfl | rfl | rfl | rfl
  · exact Int.one_nonneg
  · exact Int.natCast_nonneg 5
  · exact .inl le_rfl
  · exact .inr rfl
  · exact .inl (Int.natCast_nonneg 2)
  · exact ⟨3, 2, has.isSize, rfl, by decide⟩
  · exact ⟨3, 4, has.isSize, rfl, by decide⟩
  · exact Int.one_nonneg

/-- A `Pread` and a `Pwrite` at a negative offset, an `Lseek` to before the start, an `Lseek` with
an unknown `whence` and an `Ftruncate` to a negative length panic. -/
theorem not_answers_negative :
    ¬smallStore.process.Answers DataStore.emptyCluster 3 smallStore.file (.pread [0] (-1)) ∧
    ¬smallStore.process.Answers DataStore.emptyCluster 3 smallStore.file (.pwrite [1] (-1)) ∧
    ¬smallStore.process.Answers DataStore.emptyCluster 3 smallStore.file (.lseek (-1) .seekSet) ∧
    ¬smallStore.process.Answers DataStore.emptyCluster 3 smallStore.file (.lseek 0 .other) ∧
    ¬smallStore.process.Answers DataStore.emptyCluster 3 smallStore.file (.ftruncate (-1)) := by
  have panics : ∀ call, (run (smallStore.process.enterFd 3 call) DataStore.emptyCluster).2.isNone →
      ¬smallStore.process.Answers DataStore.emptyCluster 3 smallStore.file call := by
    intro call aborted answers
    obtain ⟨p', reply, returned, -⟩ := answers _ _ (Program.exec_run serve _ _)
    rw [show (run (smallStore.process.enterFd 3 call) DataStore.emptyCluster).2 = _ from returned]
      at aborted
    simp at aborted
  exact ⟨panics _ (by decide +kernel), panics _ (by decide +kernel), panics _ (by decide +kernel),
    panics _ (by decide +kernel), panics _ (by decide +kernel)⟩

end Pdwfs
