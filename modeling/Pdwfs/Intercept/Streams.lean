import Pdwfs.Intercept.FileCalls

/-!
# Streams

The functions of the C layer on a `FILE` whose descriptor is managed.  They call the
functions of the Go layer on the descriptor and set the indicators of the stream
themselves.  The errno is left out: it is the one that the Go layer has set last.

* `OpenStream` — a stream, with its indicators.
* `Process.fread`, `Process.fwrite` — the transfer of items.  They compare the
  number of items with a number of bytes.
* `ReadsItems`, `WritesItems` — what they should do.
* `items_iff` — when they do.

## Items

An item has a size, and `fread` and `fwrite` return the number of complete items.
The functions here return what the Go layer returns, which is a number of bytes, and
compare it with the number of items.  They agree if an item is one byte, and in a
few other cases: if there are no items, or nothing is left to read.

When the numbers differ, `fread` looks for the end of the file, by a seek there and
back.  It takes the end to be reached if the offset is the size.  So the indicator
is also a matter of where the offset is: behind the end it is not set.

## Integers of C

The result of the Go layer is a 64-bit integer, which is stored in an `int`, and
compared with a `size_t`.  The conversions are in the model (`cInt`, `sizeT`), and
the results ask that the items have less than `2^31` bytes.
-/

namespace Pdwfs

open Concurrency Redis Striping

/-- A stream and the indicators in its flags. -/
structure OpenStream extends Stream where
  eofSeen : Bool := false
  errSeen : Bool := false

/-- A number in an `int`. -/
def cInt (n : ℤ) : ℤ := n.bmod (2 ^ 32)

/-- A number in a `size_t`. -/
def sizeT (n : ℤ) : ℤ := n % 2 ^ 64

theorem cInt_natCast {n : ℕ} (small : n < 2 ^ 31) : cInt n = n := by
  rw [cInt, Int.bmod_eq_emod_of_lt] <;> omega

theorem sizeT_natCast {n : ℕ} (small : n < 2 ^ 31) : sizeT n = n := by
  unfold sizeT
  omega

/-- The handle at another offset. -/
def File.moveTo (f : File) (offset : ℤ) : File :=
  { f with file := { f.file with offset := offset } }

/-! ## The Go layer -/

namespace Process

variable {p : Process} {fd : Fd} {f : File} {c c' : Cluster}
  {outcome : Option (Process × FdReply)}

@[simp] theorem fdFileMap_setFile (p : Process) (fd : Fd) (f : File) :
    (p.setFile fd f).pdwfs.fdFileMap fd = some f := by
  simp [setFile]

/-- A read counts the bytes that it has delivered, and moves the handle behind them.
-/
theorem exec_readFd (held : p.pdwfs.fdFileMap fd = some f)
    (inv : f.file.store.FileInv c f.file.path) (nonneg : 0 ≤ f.file.offset)
    (readable : f.access ≠ .writeOnly) {buf : List UInt8}
    (performed : Exec (p.readFd fd buf) c c' outcome) :
    c' = c ∧ ∃ n buf' err, f.file.store.Delivers c f.file.path f.file.offset buf (n, buf', err) ∧
      outcome =
        some (p.setFile fd (f.moveTo (f.file.offset + n)), { ret := n, buffers := [buf'] }) := by
  obtain ⟨called, reads, rfl⟩ := exec_callFile held performed
  rw [File.call_read readable] at reads
  obtain ⟨inner, reading, rfl⟩ := Program.exec_bind_ret_iff.mp reads
  obtain ⟨rfl, ⟨negative, -⟩ | ⟨-, ⟨n, buf', err⟩, rfl, delivers⟩⟩ := MemFile.exec_read inv reading
  · omega
  have noError : FileError.ofRead err = none := by
    have ended := delivers.err
    simp only at ended
    rw [ended]
    split <;> rfl
  refine ⟨rfl, n, buf', err, delivers, ?_⟩
  simp only [Option.map_some, Option.bind_some, answered, noError]
  rfl

/-- A handle that is open for writing only has no bytes to read. -/
theorem exec_readFd_of_writeOnly (held : p.pdwfs.fdFileMap fd = some f)
    (disabled : f.access = .writeOnly) {buf : List UInt8}
    (performed : Exec (p.readFd fd buf) c c' outcome) : c' = c ∧
      outcome = some (p.setFile fd f, { ret := -1, errno := some .ebadf, buffers := [buf] }) := by
  obtain ⟨called, reads, rfl⟩ := exec_callFile held performed
  simp only [File.call, disabled] at reads
  obtain ⟨rfl, rfl⟩ := Program.exec_ret_iff.mp reads
  exact ⟨rfl, rfl⟩

/-- A write puts its bytes into the file, all of them, and moves the handle behind
them. -/
theorem exec_writeFd (held : p.pdwfs.fdFileMap fd = some f)
    (inv : f.file.store.FileInv c f.file.path) (nonneg : 0 ≤ f.file.offset)
    (writable : f.access ≠ .readOnly) {buf : List UInt8}
    (performed : Exec (p.writeFd fd buf) c c' outcome) :
    f.file.store.Puts c c' f.file.path f.file.offset buf ∧
      outcome =
        some (p.setFile fd (f.moveTo (f.file.offset + buf.length)), { ret := buf.length }) := by
  obtain ⟨called, writes, rfl⟩ := exec_callFile held performed
  rw [File.call_write writable] at writes
  obtain ⟨inner, writing, rfl⟩ := Program.exec_bind_ret_iff.mp writes
  rcases MemFile.exec_write inv writing with ⟨negative, -⟩ | ⟨-, rfl, puts⟩
  · omega
  · exact ⟨puts, rfl⟩

/-- A seek to a position that is not negative moves the handle there. -/
theorem exec_lseekFd (held : p.pdwfs.fdFileMap fd = some f)
    (inv : f.file.store.FileInv c f.file.path) {size : ℤ}
    (isSize : IsSize f.file.store.stripeSize (f.file.store.stripe c f.file.path) size)
    {off abs : ℤ} {whence : MemFile.Whence} (asked : f.file.seekTo size off whence = some abs)
    (nonneg : 0 ≤ abs) (performed : Exec (p.lseekFd fd off whence) c c' outcome) :
    c' = c ∧ outcome = some (p.setFile fd (f.moveTo abs), { ret := abs }) := by
  obtain ⟨called, seeks, rfl⟩ := exec_callFile held performed
  obtain ⟨inner, sought, rfl⟩ := Program.exec_bind_ret_iff.mp seeks
  obtain ⟨rfl, rfl⟩ := MemFile.exec_seek inv isSize sought
  refine ⟨rfl, ?_⟩
  rw [asked]
  simp only [if_neg (not_lt.mpr nonneg)]
  rfl

end Process

/-! ## Items -/

/-- What a transfer of items returns, and the memory behind its pointer afterwards.
-/
structure ItemsReply where
  ret : ℤ
  ptr : List UInt8

namespace Process

variable (p : Process) (stream : OpenStream)

/-- Whether a seek to the end leads where the offset is.  The offset is restored. -/
def atEnd (fd : Fd) : Prog (Process × Bool) := do
  let (p, current) ← p.lseekFd fd 0 .seekCur
  let (p, last) ← p.lseekFd fd 0 .seekEnd
  let (p, _) ← p.lseekFd fd current.ret .seekSet
  return (p, current.ret = last.ret)

/-- `fread` into the memory at `ptr`. -/
def fread (ptr : List UInt8) (size nmemb : ℕ) : Prog (Process × OpenStream × ItemsReply) := do
  let (p, reply) ← p.readFd stream.fileno (ptr.take (size * nmemb))
  let ptr := reply.buffers.flatten ++ ptr.drop (size * nmemb)
  let ret := cInt reply.ret
  if sizeT ret = nmemb then return (p, stream, { ret := sizeT ret, ptr := ptr })
  else do
    let stream := if ret = -1 then { stream with errSeen := true } else stream
    let (p, eof) ← p.atEnd stream.fileno
    let stream := if eof then { stream with eofSeen := true } else stream
    return (p, stream, { ret := sizeT ret, ptr := ptr })

/-- `fwrite` of the memory at `ptr`. -/
def fwrite (ptr : List UInt8) (size nmemb : ℕ) : Prog (Process × OpenStream × ItemsReply) := do
  let (p, reply) ← p.writeFd stream.fileno (ptr.take (size * nmemb))
  let ret := cInt reply.ret
  let stream := if sizeT ret = nmemb then stream else { stream with errSeen := true }
  return (p, stream, { ret := sizeT ret, ptr := ptr })

/-- The next bytes of the file, at most as many as the items have, are copied; the offset advances
by their number; the number of complete items among them is returned; and the end of the file is
indicated exactly if they are fewer. -/
def ReadsItems (c : Cluster) (f : File) (bytes ptr : List UInt8) (size nmemb : ℕ) : Prop :=
  ∀ c' outcome, Exec (p.fread stream ptr size nmemb) c c' outcome →
    let next := (bytes.drop f.file.offset.toNat).take (size * nmemb)
    ∃ p' stream' reply, outcome = some (p', stream', reply) ∧
      reply.ptr = next ++ ptr.drop next.length ∧
      p'.pdwfs.fdFileMap stream.fileno = some (f.moveTo (f.file.offset + next.length)) ∧
      reply.ret = (next.length / size : ℕ) ∧
      stream'.eofSeen = (stream.eofSeen || decide (next.length < size * nmemb))

/-- The number of items is returned, and the error indicator is left as it is. -/
def WritesItems (c : Cluster) (ptr : List UInt8) (size nmemb : ℕ) : Prop :=
  ∀ c' outcome, Exec (p.fwrite stream ptr size nmemb) c c' outcome →
    ∃ p' stream' reply, outcome = some (p', stream', reply) ∧ reply.ret = nmemb ∧
      stream'.errSeen = stream.errSeen

end Process

/-! ## When items are transferred -/

namespace Process

variable {p : Process} {stream : OpenStream} {f : File} {c : Cluster} {bytes ptr : List UInt8}
  {size nmemb : ℕ}

/-- To look for the end leaves the handle where it is, and answers whether that is
the size. -/
theorem exec_atEnd {p : Process} {fd : Fd} {g : File} (held : p.pdwfs.fdFileMap fd = some g)
    (inv : g.file.store.FileInv c g.file.path) {size : ℤ}
    (isSize : IsSize g.file.store.stripeSize (g.file.store.stripe c g.file.path) size)
    (nonneg : 0 ≤ g.file.offset) {c' : Cluster} {outcome : Option (Process × Bool)}
    (performed : Exec (p.atEnd fd) c c' outcome) :
    c' = c ∧ ∃ p', outcome = some (p', decide (g.file.offset = size)) ∧
      p'.pdwfs.fdFileMap fd = some g := by
  have positive := isSize.nonneg inv.wellFormed
  have here : ∀ g : MemFile, g.seekTo size 0 .seekCur = some g.offset := by
    simp [MemFile.seekTo]
  have last : ∀ g : MemFile, g.seekTo size 0 .seekEnd = some size := by
    simp [MemFile.seekTo]
  rw [atEnd] at performed
  replace performed := Program.exec_bind_of_returns
    (fun _ _ => exec_lseekFd held inv isSize (here _) nonneg) performed
  simp only at performed
  replace performed := Program.exec_bind_of_returns
    (fun _ _ => exec_lseekFd (fdFileMap_setFile _ _ _) inv isSize (last _) positive) performed
  simp only at performed
  replace performed := Program.exec_bind_of_returns
    (fun _ _ => exec_lseekFd (f := g.moveTo size) (fdFileMap_setFile _ _ _) inv isSize rfl nonneg)
    performed
  obtain ⟨rfl, rfl⟩ := Program.exec_ret_iff.mp performed
  exact ⟨rfl, _, rfl, fdFileMap_setFile _ _ _⟩

/-- In a file without gaps a read delivers what there is, up to the length of the
buffer. -/
theorem exec_readFd_of_noGap {fd : Fd} (held : p.pdwfs.fdFileMap fd = some f)
    (inv : f.file.store.FileInv c f.file.path) (has : f.file.store.HasBytes c f.file.path bytes)
    (noGap : ∀ i < bytes.length, f.file.store.Stores c f.file.path i)
    (nonneg : 0 ≤ f.file.offset) (readable : f.access ≠ .writeOnly) {buf next : List UInt8}
    (few : touchedStripes f.file.store.stripeSize f.file.offset buf.length ≤ 100)
    (nextEq : next = (bytes.drop f.file.offset.toNat).take buf.length) {c' : Cluster}
    {outcome : Option (Process × FdReply)} (performed : Exec (p.readFd fd buf) c c' outcome) :
    c' = c ∧ outcome = some (p.setFile fd (f.moveTo (f.file.offset + next.length)),
      { ret := next.length, buffers := [next ++ buf.drop next.length] }) := by
  obtain ⟨rfl, n, buf', err, delivers, rfl⟩ := exec_readFd held inv nonneg readable performed
  obtain ⟨rfl, rfl⟩ := delivers.eq_of_noGap inv has nonneg noGap few
  rw [← nextEq]
  exact ⟨rfl, rfl⟩

/-- **What `fread` does** on a file without gaps: it returns the number of bytes that it has
copied, and it looks for the end of the file if that is not the number of items. -/
theorem exec_fread (held : p.pdwfs.fdFileMap stream.fileno = some f)
    (inv : f.file.store.FileInv c f.file.path) (has : f.file.store.HasBytes c f.file.path bytes)
    (noGap : ∀ i < bytes.length, f.file.store.Stores c f.file.path i)
    (nonneg : 0 ≤ f.file.offset) (readable : f.access ≠ .writeOnly)
    (few : touchedStripes f.file.store.stripeSize f.file.offset (size * nmemb) ≤ 100)
    (small : size * nmemb < 2 ^ 31) (room : size * nmemb ≤ ptr.length)
    {next : List UInt8} (nextEq : next = (bytes.drop f.file.offset.toNat).take (size * nmemb))
    {c' : Cluster} {outcome : Option (Process × OpenStream × ItemsReply)}
    (performed : Exec (p.fread stream ptr size nmemb) c c' outcome) :
    ∃ p' stream', outcome =
        some (p', stream', { ret := next.length, ptr := next ++ ptr.drop next.length }) ∧
      p'.pdwfs.fdFileMap stream.fileno = some (f.moveTo (f.file.offset + next.length)) ∧
      stream'.eofSeen = (stream.eofSeen ||
        decide (next.length ≠ nmemb ∧ f.file.offset + next.length = bytes.length)) := by
  have taken : (ptr.take (size * nmemb)).length = size * nmemb := by
    rw [List.length_take]
    omega
  have short : next.length ≤ size * nmemb := by
    rw [nextEq, List.length_take]
    omega
  set f' := f.moveTo (f.file.offset + next.length) with f'Eq
  -- The buffer of `fread` is the first part of the memory behind the pointer.
  have buffer : [next ++ (ptr.take (size * nmemb)).drop next.length].flatten ++
      ptr.drop (size * nmemb) = next ++ ptr.drop next.length := by
    have behind := List.drop_take_append_drop ptr next.length (size * nmemb - next.length)
    rw [show next.length + (size * nmemb - next.length) = size * nmemb by omega] at behind
    rw [List.flatten_singleton, List.append_assoc, List.drop_take, behind]
  rw [fread] at performed
  rw [← taken] at nextEq few
  replace performed := Program.exec_bind_of_returns
    (fun _ _ => exec_readFd_of_noGap held inv has noGap nonneg readable few nextEq) performed
  simp only [cInt_natCast (show next.length < 2 ^ 31 by omega),
    sizeT_natCast (show next.length < 2 ^ 31 by omega), buffer] at performed
  split at performed
  -- The source compares the bytes it has read with the number of items.
  · rename_i all
    obtain ⟨-, rfl⟩ := Program.exec_ret_iff.mp performed
    refine ⟨_, _, rfl, fdFileMap_setFile _ _ _, ?_⟩
    have all' : next.length = nmemb := by exact_mod_cast all
    simp [all']
  · rename_i notAll
    have notAll' : next.length ≠ nmemb := fun same => notAll (by rw [same])
    have returned : (next.length : ℤ) ≠ -1 := by omega
    rw [if_neg returned] at performed
    have seek := fun c' outcome => @exec_atEnd c (p.setFile stream.fileno f') stream.fileno f'
      (fdFileMap_setFile _ _ _) inv bytes.length has.isSize (by simp [f'Eq, File.moveTo]; omega) c'
      outcome
    rcases Program.exec_bind_iff.mp performed with ⟨value, middle, sought, last⟩ | ⟨aborted, -⟩
    · obtain ⟨rfl, p', same, held'⟩ := seek _ _ sought
      obtain rfl := Option.some.inj same
      obtain ⟨-, rfl⟩ := Program.exec_ret_iff.mp last
      refine ⟨_, _, rfl, held', ?_⟩
      simp only [f'Eq, File.moveTo, decide_eq_true_eq]
      split
      · rename_i ended
        simp [notAll', ended]
      · rename_i inside
        simp [inside]
    -- The `lseek` that looks for the end does not panic.
    · obtain ⟨-, _, impossible, -⟩ := seek _ _ aborted
      simp at impossible

/-- **What `fwrite` does**: it returns the number of bytes that it has written, and
takes any number but that of the items for an error. -/
theorem exec_fwrite (held : p.pdwfs.fdFileMap stream.fileno = some f)
    (inv : f.file.store.FileInv c f.file.path) (nonneg : 0 ≤ f.file.offset)
    (writable : f.access ≠ .readOnly) (small : size * nmemb < 2 ^ 31)
    (room : size * nmemb ≤ ptr.length) {c' : Cluster}
    {outcome : Option (Process × OpenStream × ItemsReply)}
    (performed : Exec (p.fwrite stream ptr size nmemb) c c' outcome) :
    ∃ p' stream', outcome = some (p', stream', { ret := (size * nmemb : ℕ), ptr := ptr }) ∧
      stream'.errSeen = (stream.errSeen || decide (size * nmemb ≠ nmemb)) := by
  have taken : (ptr.take (size * nmemb)).length = size * nmemb := by
    rw [List.length_take]
    omega
  rw [fwrite] at performed
  rcases Program.exec_bind_iff.mp performed with ⟨value, middle, wrote, last⟩ | ⟨aborted, -⟩
  · obtain ⟨-, same⟩ := exec_writeFd held inv nonneg writable wrote
    obtain rfl := Option.some.inj same
    obtain ⟨-, rfl⟩ := Program.exec_ret_iff.mp last
    rw [taken, cInt_natCast small, sizeT_natCast small]
    refine ⟨_, _, rfl, ?_⟩
    by_cases same : size * nmemb = nmemb
    · rw [if_pos (by exact_mod_cast same)]
      simp [same]
    · rw [if_neg (by exact_mod_cast same)]
      simp [same]
  · have impossible := (exec_writeFd held inv nonneg writable aborted).2
    simp at impossible

/-- What is asked of the two results of `fread` that may be wrong. -/
theorem readsItems_iff (held : p.pdwfs.fdFileMap stream.fileno = some f)
    (inv : f.file.store.FileInv c f.file.path) (has : f.file.store.HasBytes c f.file.path bytes)
    (noGap : ∀ i < bytes.length, f.file.store.Stores c f.file.path i)
    (nonneg : 0 ≤ f.file.offset) (readable : f.access ≠ .writeOnly)
    (few : touchedStripes f.file.store.stripeSize f.file.offset (size * nmemb) ≤ 100)
    (small : size * nmemb < 2 ^ 31) (room : size * nmemb ≤ ptr.length)
    {next : List UInt8} (nextEq : next = (bytes.drop f.file.offset.toNat).take (size * nmemb)) :
    p.ReadsItems stream c f bytes ptr size nmemb ↔ next.length / size = next.length ∧
      (stream.eofSeen ||
        decide (next.length ≠ nmemb ∧ f.file.offset + next.length = bytes.length)) =
      (stream.eofSeen || decide (next.length < size * nmemb)) := by
  subst nextEq
  set next := (bytes.drop f.file.offset.toNat).take (size * nmemb) with nextEq
  constructor
  · intro reads
    have performed := Program.exec_run serve (p.fread stream ptr size nmemb) c
    obtain ⟨p', stream', returned, -, eof⟩ :=
      exec_fread held inv has noGap nonneg readable few small room nextEq performed
    obtain ⟨p'', stream'', reply, returned', -, -, ret, eof'⟩ := reads _ _ performed
    rw [returned] at returned'
    obtain ⟨rfl, rfl, rfl⟩ := by simpa using returned'
    exact ⟨(Int.ofNat_inj.mp ret).symm, eof.symm.trans eof'⟩
  · rintro ⟨ret, eof⟩ c' outcome performed
    obtain ⟨p', stream', rfl, held', eof'⟩ :=
      exec_fread held inv has noGap nonneg readable few small room nextEq performed
    exact ⟨p', stream', _, rfl, rfl, held', congrArg _ ret.symm, eof'.trans eof⟩

/-- **Items and bytes.**  On a file without gaps `fread` is right if and only if no
item is asked for, or the items are single bytes or nothing is left to read, and the
offset is not past the end or the end has been seen before; `fwrite` is if and only
if the items are single bytes or there are none.  The functions return the number of
bytes and compare it with the number of items.  So the equivalences are statements
about when the two agree, and when the search for the end of the file, which is made
if they do not, comes to the right answer. -/
theorem items_iff (held : p.pdwfs.fdFileMap stream.fileno = some f)
    (inv : f.file.store.FileInv c f.file.path) (has : f.file.store.HasBytes c f.file.path bytes)
    (noGap : ∀ i < bytes.length, f.file.store.Stores c f.file.path i)
    (nonneg : 0 ≤ f.file.offset)
    (few : touchedStripes f.file.store.stripeSize f.file.offset (size * nmemb) ≤ 100)
    (positive : 1 ≤ size) (small : size * nmemb < 2 ^ 31) (room : size * nmemb ≤ ptr.length) :
    (f.access ≠ .writeOnly → (p.ReadsItems stream c f bytes ptr size nmemb ↔
      nmemb = 0 ∨ (size = 1 ∨ (bytes.length : ℤ) ≤ f.file.offset) ∧
        (f.file.offset ≤ bytes.length ∨ stream.eofSeen = true))) ∧
    (f.access ≠ .readOnly → (p.WritesItems stream c ptr size nmemb ↔ size = 1 ∨ nmemb = 0)) := by
  constructor
  · intro readable
    set next := (bytes.drop f.file.offset.toNat).take (size * nmemb) with nextEq
    have length : next.length = min (size * nmemb) (bytes.length - f.file.offset.toNat) := by
      simp [nextEq]
    rw [readsItems_iff held inv has noGap nonneg readable few small room nextEq, Nat.div_eq_self]
    have none : nmemb = 0 → size * nmemb = 0 := fun none => by rw [none, Nat.mul_zero]
    have some : nmemb ≠ 0 → 0 < size * nmemb := fun some =>
      Nat.mul_pos positive (Nat.pos_of_ne_zero some)
    have single : size = 1 → size * nmemb = nmemb := fun single => by rw [single, Nat.one_mul]
    cases stream.eofSeen with
    | true =>
        simp only [Bool.true_or, or_true, and_true]
        omega
    | false =>
        simp only [Bool.false_or, decide_eq_decide, Bool.false_eq_true, or_false]
        omega
  · intro writable
    constructor
    · intro writes
      have performed := Program.exec_run serve (p.fwrite stream ptr size nmemb) c
      obtain ⟨p', stream', returned, -⟩ := exec_fwrite held inv nonneg writable small room performed
      obtain ⟨p'', stream'', reply, returned', ret, -⟩ := writes _ _ performed
      rw [returned] at returned'
      obtain ⟨rfl, rfl, rfl⟩ := by simpa using returned'
      exact mul_left_eq_self₀.mp (Int.ofNat_inj.mp ret)
    · intro single c' outcome performed
      obtain ⟨p', stream', rfl, err⟩ := exec_fwrite held inv nonneg writable small room performed
      have same : size * nmemb = nmemb := mul_left_eq_self₀.mpr single
      exact ⟨p', stream', _, rfl, by rw [same], by simpa [same] using err⟩

end Process

/-! ## A small file -/

/-- A stream of the small file. -/
def smallStore.stream : OpenStream := { fileno := 3 }

/-- Single bytes, of a file that has three in two stripes: two of them, and more than there are. -/
theorem items_threeBytes :
    (smallStore 2).HasBytes (smallStore.written [1, 2, 3]) ['f'] [1, 2, 3] ∧
    smallStore.process.ReadsItems smallStore.stream (smallStore.written [1, 2, 3]) smallStore.file
      [1, 2, 3] [0, 0] 1 2 ∧
    smallStore.process.ReadsItems smallStore.stream (smallStore.written [1, 2, 3]) smallStore.file
      [1, 2, 3] [0, 0, 0, 0, 0] 1 5 ∧
    smallStore.process.WritesItems smallStore.stream (smallStore.written [1, 2, 3]) [8, 9] 1 2 := by
  obtain ⟨inv, has⟩ := smallStore.hasBytes_written [1, 2, 3]
  have noGap : ∀ i < [1, 2, 3].length,
      (smallStore 2).Stores (smallStore.written [1, 2, 3]) ['f'] i := by
    decide
  have two := @Process.items_iff smallStore.process smallStore.stream smallStore.file
    (smallStore.written [1, 2, 3]) [1, 2, 3] [0, 0] 1 2 rfl inv has noGap le_rfl (by decide) le_rfl
    (by decide) (by decide)
  have five := @Process.items_iff smallStore.process smallStore.stream smallStore.file
    (smallStore.written [1, 2, 3]) [1, 2, 3] [0, 0, 0, 0, 0] 1 5 rfl inv has noGap le_rfl
    (by decide) le_rfl (by decide) (by decide)
  have written := @Process.items_iff smallStore.process smallStore.stream smallStore.file
    (smallStore.written [1, 2, 3]) [1, 2, 3] [8, 9] 1 2 rfl inv has noGap le_rfl (by decide) le_rfl
    (by decide) (by decide)
  have inside : smallStore.file.file.offset ≤ (([1, 2, 3] : List UInt8).length : ℤ) := by decide
  exact ⟨has, (two.1 (by decide)).mpr (.inr ⟨.inl rfl, .inl inside⟩),
    (five.1 (by decide)).mpr (.inr ⟨.inl rfl, .inl inside⟩), (written.2 (by decide)).mpr (.inl rfl)⟩

theorem smallStore.fread_three : (run (smallStore.process.fread smallStore.stream [0, 0, 0] 3 1)
    (smallStore.written [1, 2, 3])).2.map (·.2.2.ret) = some 3 := by
  decide +kernel

theorem smallStore.fwrite_three : (run (smallStore.process.fwrite smallStore.stream [1, 2, 3] 3 1)
    DataStore.emptyCluster).2.map (·.2.2.ret) = some 3 := by
  decide +kernel

/-- One item of three bytes: `fread` and `fwrite` return `3`. -/
theorem not_items_three :
    (smallStore 2).HasBytes (smallStore.written [1, 2, 3]) ['f'] [1, 2, 3] ∧
    (∀ i : ℕ, i < 3 → (smallStore 2).Stores (smallStore.written [1, 2, 3]) ['f'] i) ∧
    ¬smallStore.process.ReadsItems smallStore.stream (smallStore.written [1, 2, 3]) smallStore.file
      [1, 2, 3] [0, 0, 0] 3 1 ∧
    ¬smallStore.process.WritesItems smallStore.stream DataStore.emptyCluster [1, 2, 3] 3 1 := by
  refine ⟨(smallStore.hasBytes_written _).2, by decide, fun reads => ?_, fun writes => ?_⟩
  · obtain ⟨p', stream', reply, returned, -, -, ret, -⟩ := reads _ _ (Program.exec_run serve _ _)
    have three := smallStore.fread_three
    rw [run, returned, Option.map_some, ret] at three
    exact absurd three (by decide)
  · obtain ⟨p', stream', reply, returned, ret, -⟩ := writes _ _ (Program.exec_run serve _ _)
    have three := smallStore.fwrite_three
    rw [run, returned, Option.map_some, ret] at three
    exact absurd three (by decide)

end Pdwfs
