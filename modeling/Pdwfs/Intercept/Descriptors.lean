import Mathlib

/-!
# Descriptor tables

A file that pdwfs manages has a descriptor of the kernel, that of a temporary file
which is opened for it.  Two tables know about it: `fd_register` in C, which decides
who a call is for, and `fdFileMap` in Go, which finds the file.

* `Host` — the descriptors that are open in the kernel, and the two tables.
* `Host.openFd`, `Host.close`, `Host.fopen`, `Host.fclose` — the intercepted calls,
  once the library is initialised.
* `InStep` — the two tables agree, and the calls go to the right place.
* `inStep_of_run` — they do as long as no managed file gets one of the standard
  descriptors, which the calls never treat as managed.

## Three places

A descriptor of a managed file is in three places at once: it is open in the kernel,
since a temporary file has it, it is in the table of the C layer, and in that of the
Go layer.  The library relies on the first to get a number that nobody else has, on
the second to know that a call is for it, and on the third to serve the call.
Nothing ties them together but the order in which they are updated, and an error in
the middle leaves them apart.

The kernel gives out the lowest descriptor that is not in use.  This is documented
behaviour of `open`, and programs rely on it; here it decides what a process can get
when it has closed its standard input.

## What the call goes to

The standard descriptors are never treated as managed, whatever the table says.  So
if a managed file gets one of them, a `close` goes to the kernel and leaves the
tables as they are, and the next file with this number is found in use.  The
condition of the theorem excludes this case, and nothing else: it is about each call
when it is made.
-/

namespace Pdwfs

/-- A file descriptor, an `int` of C. -/
abbrev Fd := ℤ

/-- What the Go layer panics with. -/
inductive FdError
  | fdInUse
  | invalidFd
  /-- An error of `RedisFS` that the entry point does not translate. -/
  | unhandled
  deriving DecidableEq

/-- The texts of the errors of the table. -/
def FdError.error : FdError → String
  | .fdInUse => "file descriptor already used"
  | .invalidFd => "Invalid file descriptor"
  | .unhandled => "unhandled"

/-! ## The Go table -/

/-- The files that are open in the Go layer, by their descriptor. -/
structure PdwFS (F : Type) where
  fdFileMap : Fd → Option F

/-- What `RedisFS.OpenFile` gives an entry point: a file, an error that it turns
into an errno, or one that it panics on. -/
inductive Opening (F : Type)
  | file (redisFile : F)
  | failed
  | unhandled

namespace PdwFS

variable {F : Type} (fs : PdwFS F)

/-- Record the file of a descriptor, which must be new. -/
def registerFile (fd : Fd) (redisFile : F) : Except FdError (PdwFS F) :=
  if (fs.fdFileMap fd).isSome then .error .fdInUse
  else .ok { fdFileMap := Function.update fs.fdFileMap fd (some redisFile) }

def removeFd (fd : Fd) : Except FdError (PdwFS F) :=
  if (fs.fdFileMap fd).isNone then .error .invalidFd
  else .ok { fdFileMap := Function.update fs.fdFileMap fd none }

/-- The file of a descriptor. -/
def getFileFromFd (fd : Fd) : Except FdError F :=
  match fs.fdFileMap fd with
  | some f => .ok f
  | none => .error .invalidFd

/-- `Open`, and `Fopen` in the same way. -/
def openFile (opening : Opening F) (fd : Fd) : Except FdError (ℤ × PdwFS F) :=
  match opening with
  | .unhandled => .error .unhandled
  | .failed => .ok (-1, fs)
  | .file file => do
      let fs ← fs.registerFile fd file
      return (fd, fs)

/-- `Close`.  Closing the file itself does nothing. -/
def close (fd : Fd) : Except FdError (ℤ × PdwFS F) := do
  let _ ← fs.getFileFromFd fd
  let fs ← fs.removeFd fd
  return (0, fs)

end PdwFS

/-! ## The C layer -/

/-- The open descriptors of the process, the table of the C layer and the Go layer.
-/
structure Host (F : Type) where
  kernel : Finset Fd
  fdRegister : Finset Fd
  pdwfs : PdwFS F

/-- A stream, of which only the descriptor is used. -/
structure Stream where
  fileno : Fd
  deriving DecidableEq

/-- What is opened: a path outside of the mounts, which the kernel opens or not, or
a path under a mount. -/
inductive Target (F : Type)
  | outside (succeeds : Bool)
  | managed (opening : Opening F)

/-- `IS_STD_FD`. -/
def isStdFd (fd : Fd) : Bool := fd = 0 ∨ fd = 1 ∨ fd = 2

/-- The lowest descriptor that is not in use, which is the one that the kernel gives
out. -/
def lowestUnused (kernel : Finset Fd) : Fd :=
  (((List.range (kernel.card + 1)).find? fun n : ℕ => (n : ℤ) ∉ kernel).getD 0 : ℕ)

namespace Host

variable {F : Type} (h : Host F)

/-- The process after the libraries have been loaded. -/
def start (kernel : Finset Fd) : Host F :=
  { kernel := kernel, fdRegister := ∅, pdwfs := { fdFileMap := fun _ => none } }

/-- `contains_fd`. -/
def containsFd (fd : Fd) : Bool := fd ∈ h.fdRegister

/-- `FD_NOT_MANAGED`. -/
def fdNotManaged (fd : Fd) : Bool := isStdFd fd || !h.containsFd fd

/-- `open` of the C library. -/
def libcOpen (succeeds : Bool) : ℤ × Host F :=
  if succeeds then
    (lowestUnused h.kernel, { h with kernel := insert (lowestUnused h.kernel) h.kernel })
  else (-1, h)

/-- `close` of the C library. -/
def libcClose (fd : Fd) : ℤ × Host F :=
  if fd ∈ h.kernel then (0, { h with kernel := h.kernel.erase fd }) else (-1, h)

/-- `remove_fd`.  The table calls `close` for the key when the key is gone, so it is the
kernel that closes the descriptor. -/
def removeFd (fd : Fd) : Host F :=
  if fd ∈ h.fdRegister then ({ h with fdRegister := h.fdRegister.erase fd }.libcClose fd).2 else h

/-- `close`. -/
def close (fd : Fd) : Except FdError (ℤ × Host F) :=
  if h.fdNotManaged fd then .ok (h.libcClose fd)
  else do
    let (ret, pdwfs) ← h.pdwfs.close fd
    return (ret, { h with pdwfs := pdwfs }.removeFd fd)

/-- `get_new_stream`: the descriptor of a temporary file.  When the key is in the table
already, the table calls `close` for the key that is inserted. -/
def getNewStream : Except FdError (Stream × Host F) :=
  let fp : Stream := { fileno := lowestUnused h.kernel }
  let h := { h with kernel := insert fp.fileno h.kernel }
  if fp.fileno ∈ h.fdRegister then do
    let (_, h) ← h.close fp.fileno
    return (fp, h)
  else return (fp, { h with fdRegister := insert fp.fileno h.fdRegister })

/-- `open`. -/
def openFd : Target F → Except FdError (ℤ × Host F)
  | .outside succeeds => .ok (h.libcOpen succeeds)
  | .managed opening => do
      let (fp, h) ← h.getNewStream
      let (ret, pdwfs) ← h.pdwfs.openFile opening fp.fileno
      let h := { h with pdwfs := pdwfs }
      if ret < 0 then return (ret, h.removeFd fp.fileno) else return (ret, h)

/-- `fopen`.  It differs from `open` in what it returns. -/
def fopen : Target F → Except FdError (Option Stream × Host F)
  | .outside succeeds =>
      let (fd, h) := h.libcOpen succeeds
      .ok (if succeeds then some { fileno := fd } else none, h)
  | .managed opening => do
      let (stream, h) ← h.getNewStream
      let (ret, pdwfs) ← h.pdwfs.openFile opening stream.fileno
      let h := { h with pdwfs := pdwfs }
      if ret < 0 then return (none, h.removeFd stream.fileno) else return (some stream, h)

/-- `fclose`.  Flushing the stream does nothing. -/
def fclose (stream : Stream) : Except FdError (ℤ × Host F) :=
  if h.fdNotManaged stream.fileno then .ok (h.libcClose stream.fileno) else h.close stream.fileno

end Host

/-- The lowest unused descriptor is unused. -/
theorem lowestUnused_notMem (kernel : Finset Fd) : lowestUnused kernel ∉ kernel := by
  unfold lowestUnused
  cases found : (List.range (kernel.card + 1)).find? fun n : ℕ => (n : ℤ) ∉ kernel with
  | some n => simpa using List.find?_some found
  | none =>
      -- There are more candidates than descriptors in use.
      have inUse : (Finset.range (kernel.card + 1)).image (fun n : ℕ => (n : ℤ)) ⊆ kernel := by
        intro fd member
        obtain ⟨n, inRange, rfl⟩ := Finset.mem_image.mp member
        have skipped := List.find?_eq_none.mp found n (by simpa using inRange)
        simpa using skipped
      have count := Finset.card_le_card inUse
      rw [Finset.card_image_of_injective _ Nat.cast_injective, Finset.card_range] at count
      omega

theorem lowestUnused_nonneg (kernel : Finset Fd) : 0 ≤ lowestUnused kernel := Int.natCast_nonneg _

/-! ## Runs of the host program -/

/-- The calls of the host program. -/
inductive HostCall (F : Type)
  | open (target : Target F)
  | fopen (target : Target F)
  | close (fd : Fd)
  | fclose (stream : Stream)

/-- What a call returns. -/
inductive HostReply
  | int (ret : ℤ)
  | stream (stream : Option Stream)
  deriving DecidableEq

variable {F : Type}

/-- One call. -/
def Host.perform (h : Host F) : HostCall F → Except FdError (HostReply × Host F)
  | .open target => do
      let (ret, h) ← h.openFd target
      return (.int ret, h)
  | .fopen target => do
      let (stream, h) ← h.fopen target
      return (.stream stream, h)
  | .close fd => do
      let (ret, h) ← h.close fd
      return (.int ret, h)
  | .fclose stream => do
      let (ret, h) ← h.fclose stream
      return (.int ret, h)

/-- The descriptors that managed opens have returned and that have not been closed
since.  They are what the host program takes for its open files. -/
def heldAfter (held : Finset Fd) : HostCall F → HostReply → Finset Fd
  | .open (.managed _), .int ret => if ret < 0 then held else insert ret held
  | .fopen (.managed _), .stream (some stream) => insert stream.fileno held
  | .close fd, _ => held.erase fd
  | .fclose stream, _ => held.erase stream.fileno
  | _, _ => held

/-- A run of the host program, each of whose calls is allowed in the state it is
made in.  The calls that panic end the run. -/
inductive HostRun (allowed : Host F → HostCall F → Prop) : Host F → Finset Fd → Prop
  | start (kernel : Finset Fd) : HostRun allowed (Host.start kernel) ∅
  | call {h h' : Host F} {held : Finset Fd} {call : HostCall F} {reply : HostReply}
      (before : HostRun allowed h held) (accepted : allowed h call)
      (performed : h.perform call = .ok (reply, h')) :
      HostRun allowed h' (heldAfter held call reply)

/-- The two tables agree, the descriptors of managed files are treated as managed,
and the next call keeps to the tables, whichever it is. -/
structure InStep (h : Host F) (held : Finset Fd) : Prop where
  agree : ∀ fd, fd ∈ h.fdRegister ↔ (h.pdwfs.fdFileMap fd).isSome
  managed : ∀ fd ∈ held, h.fdNotManaged fd = false
  /-- No call panics with `errFdInUse` or `errInvalidFd`. -/
  error_eq : ∀ call error, h.perform call = .error error → error = .unhandled
  /-- A failed open leaves the tables as they are. -/
  open_failed : ∀ opening ret h', h.openFd (.managed opening) = .ok (ret, h') → ret < 0 →
    h'.fdRegister = h.fdRegister ∧ h'.pdwfs = h.pdwfs
  fopen_failed : ∀ opening h', h.fopen (.managed opening) = .ok (none, h') →
    h'.fdRegister = h.fdRegister ∧ h'.pdwfs = h.pdwfs

/-! ## The invariant -/

/-- The descriptors when a managed file has been opened. -/
def Host.opened (h : Host F) (redisFile : F) : Host F where
  kernel := insert (lowestUnused h.kernel) h.kernel
  fdRegister := insert (lowestUnused h.kernel) h.fdRegister
  pdwfs := { fdFileMap :=
    Function.update h.pdwfs.fdFileMap (lowestUnused h.kernel) (some redisFile) }

/-- The descriptors when one of them has been closed. -/
def Host.closed (h : Host F) (fd : Fd) : Host F where
  kernel := h.kernel.erase fd
  fdRegister := h.fdRegister.erase fd
  pdwfs := { fdFileMap := Function.update h.pdwfs.fdFileMap fd none }

/-- The registered descriptors are those of the open files; they are open in the kernel,
and none of them is a standard one. -/
structure Descriptors (h : Host F) : Prop where
  agree : ∀ fd, fd ∈ h.fdRegister ↔ (h.pdwfs.fdFileMap fd).isSome
  inUse : h.fdRegister ⊆ h.kernel
  notStd : ∀ fd ∈ h.fdRegister, isStdFd fd = false

theorem descriptors_start (kernel : Finset Fd) : Descriptors (Host.start kernel : Host F) where
  agree fd := by simp [Host.start]
  inUse := by simp [Host.start]
  notStd fd member := by simp [Host.start] at member

namespace Descriptors

variable {h : Host F}

/-- What is registered is managed, and nothing else. -/
theorem fdNotManaged_eq (inv : Descriptors h) (fd : Fd) :
    h.fdNotManaged fd = !decide (fd ∈ h.fdRegister) := by
  unfold Host.fdNotManaged Host.containsFd
  by_cases member : fd ∈ h.fdRegister
  · simp [member, inv.notStd fd member]
  · simp [member]

/-- The next temporary file gets a descriptor that no table knows. -/
theorem lowestUnused_notMem_fdRegister (inv : Descriptors h) :
    lowestUnused h.kernel ∉ h.fdRegister :=
  fun member => lowestUnused_notMem h.kernel (inv.inUse member)

theorem fdFileMap_lowestUnused (inv : Descriptors h) :
    h.pdwfs.fdFileMap (lowestUnused h.kernel) = none := by
  have unknown := mt (inv.agree (lowestUnused h.kernel)).mpr inv.lowestUnused_notMem_fdRegister
  simpa using unknown

/-- The new descriptor is in no table, so that nothing is closed. -/
theorem getNewStream_eq (inv : Descriptors h) :
    h.getNewStream = .ok ({ fileno := lowestUnused h.kernel },
      { h with
        kernel := insert (lowestUnused h.kernel) h.kernel
        fdRegister := insert (lowestUnused h.kernel) h.fdRegister }) := by
  simp only [Host.getNewStream, if_neg inv.lowestUnused_notMem_fdRegister]
  rfl

/-- Taking the new descriptor out again leaves everything as it was. -/
theorem removeFd_new (inv : Descriptors h) :
    ({ h with
        kernel := insert (lowestUnused h.kernel) h.kernel
        fdRegister := insert (lowestUnused h.kernel) h.fdRegister } : Host F).removeFd
      (lowestUnused h.kernel) = h := by
  have register := Finset.erase_insert inv.lowestUnused_notMem_fdRegister
  have kernel := Finset.erase_insert (lowestUnused_notMem h.kernel)
  simp [Host.removeFd, Host.libcClose, register, kernel]

/-- Opening a managed path: it fails and changes nothing, or both tables get the file. -/
theorem openFd_managed (inv : Descriptors h) (opening : Opening F) :
    h.openFd (.managed opening) =
      match opening with
      | .unhandled => .error .unhandled
      | .failed => .ok (-1, h)
      | .file redisFile => .ok (lowestUnused h.kernel, h.opened redisFile) := by
  simp only [Host.openFd, inv.getNewStream_eq]
  cases opening with
  | unhandled => rfl
  | failed =>
      have removed := inv.removeFd_new
      simp [PdwFS.openFile, bind, Except.bind, pure, Except.pure, removed]
  | file redisFile =>
      have nonneg := not_lt.mpr (lowestUnused_nonneg h.kernel)
      simp [PdwFS.openFile, PdwFS.registerFile, inv.fdFileMap_lowestUnused, bind, Except.bind, pure,
        Except.pure, nonneg, Host.opened]

/-- `fopen` of a managed path: the tables get the descriptor, or nothing has
changed. -/
theorem fopen_managed (inv : Descriptors h) (opening : Opening F) :
    h.fopen (.managed opening) =
      match opening with
      | .unhandled => .error .unhandled
      | .failed => .ok (none, h)
      | .file redisFile => .ok (some { fileno := lowestUnused h.kernel }, h.opened redisFile) := by
  simp only [Host.fopen, inv.getNewStream_eq]
  cases opening with
  | unhandled => rfl
  | failed =>
      have removed := inv.removeFd_new
      simp [PdwFS.openFile, bind, Except.bind, pure, Except.pure, removed]
  | file redisFile =>
      have nonneg := not_lt.mpr (lowestUnused_nonneg h.kernel)
      simp [PdwFS.openFile, PdwFS.registerFile, inv.fdFileMap_lowestUnused, bind, Except.bind, pure,
        Except.pure, nonneg, Host.opened]

/-- Closing a descriptor: both tables forget it if they know it, and the kernel closes it. -/
theorem close_eq (inv : Descriptors h) (fd : Fd) :
    ∃ ret, h.close fd = .ok (ret, h.closed fd) := by
  unfold Host.close
  rw [inv.fdNotManaged_eq]
  by_cases member : fd ∈ h.fdRegister
  · obtain ⟨redisFile, known⟩ := Option.isSome_iff_exists.mp ((inv.agree fd).mp member)
    refine ⟨0, ?_⟩
    simp [member, inv.inUse member, known, PdwFS.close, PdwFS.getFileFromFd, PdwFS.removeFd,
      Host.removeFd, Host.libcClose, Host.closed, bind, Except.bind, pure, Except.pure]
  · have unknown : h.pdwfs.fdFileMap fd = none := by simpa using mt (inv.agree fd).mpr member
    have fileMap : Function.update h.pdwfs.fdFileMap fd none = h.pdwfs.fdFileMap := by
      rw [← unknown, Function.update_eq_self]
    unfold Host.libcClose
    by_cases inUse : fd ∈ h.kernel
    · exact ⟨0, by simp [member, inUse, fileMap, Host.closed]⟩
    · exact ⟨-1, by simp [member, inUse, fileMap, Host.closed]⟩

/-- `fclose` closes the descriptor of its stream. -/
theorem fclose_eq (stream : Stream) : h.fclose stream = h.close stream.fileno := by
  unfold Host.fclose
  split
  · rename_i notManaged
    rw [Host.close, if_pos notManaged]
  · rfl

/-- Both tables get the descriptor. -/
theorem opened (inv : Descriptors h) (redisFile : F)
    (notStd : isStdFd (lowestUnused h.kernel) = false) : Descriptors (h.opened redisFile) where
  agree fd := by
    by_cases new : fd = lowestUnused h.kernel
    · simp [Host.opened, new]
    · simp [Host.opened, new, inv.agree]
  inUse := Finset.insert_subset_insert _ inv.inUse
  notStd fd member := by
    rcases Finset.mem_insert.mp member with rfl | old
    · exact notStd
    · exact inv.notStd fd old

/-- Both tables lose it. -/
theorem closed (inv : Descriptors h) (fd : Fd) : Descriptors (h.closed fd) where
  agree fd' := by
    by_cases same : fd' = fd
    · simp [Host.closed, same]
    · simp [Host.closed, same, inv.agree]
  inUse := Finset.erase_subset_erase fd inv.inUse
  notStd fd' member := inv.notStd fd' (Finset.mem_of_mem_erase member)

/-- The kernel opens a descriptor that no table knows. -/
theorem libcOpen (inv : Descriptors h) (succeeds : Bool) :
    Descriptors (h.libcOpen succeeds).2 := by
  unfold Host.libcOpen
  cases succeeds with
  | false => exact inv
  | true => exact ⟨inv.agree, inv.inUse.trans (Finset.subset_insert _ _), inv.notStd⟩

/-- No call panics because of a descriptor. -/
theorem error_eq (inv : Descriptors h) (call : HostCall F) {error : FdError}
    (failed : h.perform call = .error error) : error = .unhandled := by
  have closes : ∀ fd, (do
      let (ret, h) ← h.close fd
      return (HostReply.int ret, h)) ≠ .error error := by
    intro fd same
    obtain ⟨ret, closed⟩ := inv.close_eq fd
    rw [closed] at same
    cases same
  cases call with
  | «open» target =>
      cases target with
      | outside succeeds => cases failed
      | managed opening =>
          simp only [Host.perform, inv.openFd_managed] at failed
          cases opening with
          | unhandled => exact (Except.error.inj failed).symm
          | failed => cases failed
          | file redisFile => cases failed
  | fopen target =>
      cases target with
      | outside succeeds => cases failed
      | managed opening =>
          simp only [Host.perform, inv.fopen_managed] at failed
          cases opening with
          | unhandled => exact (Except.error.inj failed).symm
          | failed => cases failed
          | file redisFile => cases failed
  | close fd => exact absurd failed (closes fd)
  | fclose stream =>
      simp only [Host.perform, fclose_eq] at failed
      exact absurd failed (closes stream.fileno)

/-- The invariant says all that is asked of a state. -/
theorem inStep (inv : Descriptors h) {held : Finset Fd} (known : held ⊆ h.fdRegister) :
    InStep h held where
  agree := inv.agree
  managed fd member := by
    rw [inv.fdNotManaged_eq]
    simpa using known member
  error_eq call error := inv.error_eq call
  open_failed opening ret h' opened negative := by
    rw [inv.openFd_managed] at opened
    cases opening with
    | unhandled => cases opened
    | failed =>
        cases opened
        exact ⟨rfl, rfl⟩
    | file redisFile =>
        cases opened
        exact absurd negative (not_lt.mpr (lowestUnused_nonneg h.kernel))
  fopen_failed opening h' opened := by
    rw [inv.fopen_managed] at opened
    cases opening with
    | unhandled => cases opened
    | failed =>
        cases opened
        exact ⟨rfl, rfl⟩
    | file redisFile => cases opened

end Descriptors

/-! ## Every run -/

/-- When a managed file is opened, the standard descriptors are in use. -/
def StdInUse (h : Host F) : HostCall F → Prop
  | .open (.managed (.file _)) => 0 ∈ h.kernel ∧ 1 ∈ h.kernel ∧ 2 ∈ h.kernel
  | .fopen (.managed (.file _)) => 0 ∈ h.kernel ∧ 1 ∈ h.kernel ∧ 2 ∈ h.kernel
  | _ => True

/-- As long as the standard descriptors are in use, no other file gets one of them.
-/
theorem isStdFd_lowestUnused {kernel : Finset Fd} (inUse : 0 ∈ kernel ∧ 1 ∈ kernel ∧ 2 ∈ kernel) :
    isStdFd (lowestUnused kernel) = false := by
  have unused := lowestUnused_notMem kernel
  unfold isStdFd
  simp only [decide_eq_false_iff_not]
  rintro (zero | one | two)
  · exact unused (zero ▸ inUse.1)
  · exact unused (one ▸ inUse.2.1)
  · exact unused (two ▸ inUse.2.2)

/-- One call keeps the invariant, and the descriptors that are held stay registered. -/
theorem Descriptors.perform {h h' : Host F} {held : Finset Fd} {call : HostCall F}
    {reply : HostReply} (inv : Descriptors h) (known : held ⊆ h.fdRegister)
    (inUse : StdInUse h call) (performed : h.perform call = .ok (reply, h')) :
    Descriptors h' ∧ heldAfter held call reply ⊆ h'.fdRegister := by
  cases call with
  | «open» target =>
      cases target with
      | outside succeeds =>
          have kept := inv.libcOpen succeeds
          cases performed
          exact ⟨kept, by cases succeeds <;> exact known⟩
      | managed opening =>
          simp only [Host.perform, inv.openFd_managed] at performed
          cases opening with
          | unhandled => cases performed
          | failed =>
              cases performed
              exact ⟨inv, known⟩
          | file redisFile =>
              cases performed
              refine ⟨inv.opened redisFile (isStdFd_lowestUnused inUse), ?_⟩
              rw [heldAfter, if_neg (not_lt.mpr (lowestUnused_nonneg h.kernel))]
              exact Finset.insert_subset_insert _ known
  | fopen target =>
      cases target with
      | outside succeeds =>
          have kept := inv.libcOpen succeeds
          cases performed
          exact ⟨kept, by cases succeeds <;> exact known⟩
      | managed opening =>
          simp only [Host.perform, inv.fopen_managed] at performed
          cases opening with
          | unhandled => cases performed
          | failed =>
              cases performed
              exact ⟨inv, known⟩
          | file redisFile =>
              cases performed
              exact ⟨inv.opened redisFile (isStdFd_lowestUnused inUse),
                Finset.insert_subset_insert _ known⟩
  | close fd =>
      obtain ⟨ret, closed⟩ := inv.close_eq fd
      simp only [Host.perform, closed] at performed
      cases performed
      exact ⟨inv.closed fd, Finset.erase_subset_erase fd known⟩
  | fclose stream =>
      obtain ⟨ret, closed⟩ := inv.close_eq stream.fileno
      simp only [Host.perform, fclose_eq, closed] at performed
      cases performed
      exact ⟨inv.closed stream.fileno, Finset.erase_subset_erase stream.fileno known⟩

/-- **The descriptor tables agree** in every run in which the standard descriptors
are in use whenever a managed file is opened: descriptors of managed files are
treated as managed until they are closed, a failed open changes nothing, and no call
panics because of a descriptor.  The invariant (`Descriptors`) says that the tables
have the same descriptors, that these are open in the kernel, and that none of them
is a standard one.  A descriptor that is opened is new to the kernel, and so to the
tables. -/
theorem inStep_of_run {h : Host F} {held : Finset Fd} (run : HostRun StdInUse h held) :
    InStep h held := by
  have each : Descriptors h ∧ held ⊆ h.fdRegister := by
    induction run with
    | start kernel => exact ⟨descriptors_start kernel, by simp⟩
    | call before inUse performed ih => exact ih.1.perform ih.2 inUse performed
  exact each.1.inStep each.2

/-- The first managed file of a process. -/
theorem inStep_first : InStep ((Host.start {0, 1, 2} : Host Unit).opened ()) {3} := by
  have first : HostRun StdInUse ((Host.start {0, 1, 2} : Host Unit).opened ())
      (heldAfter ∅ (.open (.managed (.file ()))) (.int 3)) :=
    .call (.start {0, 1, 2}) ⟨by decide, by decide, by decide⟩ rfl
  exact inStep_of_run first

/-- The process closes its standard input, and opens a managed file, which gets the
descriptor `0`.  It is not treated as managed, and once the kernel has closed it, the next
managed open panics. -/
theorem not_inStep_closedStdin : ∃ (h h' : Host Unit) (held : Finset Fd),
    HostRun (fun _ _ => True) h held ∧ ¬InStep h held ∧
      h.perform (.close 0) = .ok (.int 0, h') ∧
      h'.perform (.open (.managed (.file ()))) = .error .fdInUse := by
  have closed : HostRun (fun _ _ => True) ((Host.start {0, 1, 2} : Host Unit).libcClose 0).2
      (heldAfter ∅ (.close 0) (.int 0)) := .call (.start {0, 1, 2}) trivial rfl
  have opened : HostRun (fun _ _ => True)
      (((Host.start {0, 1, 2} : Host Unit).libcClose 0).2.opened ())
      (heldAfter (heldAfter ∅ (.close 0) (.int 0)) (.open (.managed (.file ()))) (.int 0)) :=
    .call closed trivial rfl
  refine ⟨_, _, _, opened, fun inStep => ?_, rfl, rfl⟩
  exact absurd (inStep.managed 0 (by decide)) (by decide)

end Pdwfs
