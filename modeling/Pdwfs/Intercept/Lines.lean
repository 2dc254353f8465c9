import Pdwfs.Intercept.Streams
import Pdwfs.Util.Buffers

/-!
# Lines

`getdelim` reads a stream byte by byte into a buffer that grows, up to a delimiter.

* `Process.fgetc`, `Process.getdelim`, `Process.getline` — the functions.  The loop
  of `getdelim` has a bound on its rounds, which it reaches at none that is larger
  than the number of bytes left.
* `Upcoming` — the bytes that can be read one after the other: up to the end, or up
  to a gap.
* `scan` — the loop on these bytes; `exec_getdelimLoop` says that it is.
* `Delimits`, `ReadsLine`, `delimits_iff` — what `getdelim` should do, and when it
  does.

## Bytes in a `char`

A byte is read into a `char`, which is signed here, and compared with integers.  So
the byte `255` is taken for the end of the file, and a delimiter that is not in the
range of a `char` never matches.  Both are in the model as they are in C:
`signedChar` and `charOf` are the two conversions.

## From the loop to a function

Each round of the loop is a request to the store.  What it reads is known in
advance, since nobody else writes: the bytes from the offset on, as far as they can
be read one by one (`Upcoming`).  A gap ends a read of one byte like the end of the
file does.  So the loop is a function of these bytes (`scan`), and everything that
follows is about lists: the loop takes a line, and what is in the buffer is this
line.

The buffer grows on the way.  That no byte is written outside of it is part of the
result, and so is the place of the `NUL`, which is written only if there is room in
the sense of the source.
-/

namespace Pdwfs

open Concurrency Redis Striping

/-! ## The functions -/

/-- A byte in a `char`, which is signed. -/
def signedChar (x : UInt8) : ℤ := if x.toNat < 128 then x.toNat else x.toNat - 256

/-- The byte that a number is stored as. -/
def charOf (c : ℤ) : UInt8 := UInt8.ofNat (c % 256).toNat

/-- `BUFSIZ`. -/
def bufSiz : ℕ := 8192

/-- What `getdelim` leaves behind: the buffer, and what it returns. -/
structure LineReply where
  process : Process
  stream : OpenStream
  block : Block
  ret : ℤ

/-- The block begins with the bytes. -/
def Block.Begins (b : Block) (xs : List UInt8) : Prop :=
  ∀ i < xs.length, xs[i]? = some (b.bytes i)

/-- The bytes are in the block, with a `NUL` behind. -/
def Block.Holds (b : Block) (xs : List UInt8) : Prop := b.Begins xs ∧ b.bytes xs.length = 0

namespace Process

variable (p : Process) (stream : OpenStream) (a : Allocator)

/-- `fgetc`.  An error is told from a byte by its sign. -/
def fgetc : Prog (Process × OpenStream × ℤ) := do
  let (p, reply) ← p.readFd stream.fileno [0]
  if reply.ret = 0 then return (p, { stream with eofSeen := true }, -1)
  else if reply.ret < 0 then return (p, { stream with errSeen := true }, reply.ret)
  else return (p, stream, signedChar (reply.buffers.flatten.headD 0))

/-- The loop of `getdelim`, of at most so many rounds. -/
def getdelimLoop (delimiter : ℤ) : ℕ → Process → OpenStream → ℕ → Block → Prog (Option LineReply)
  | 0, _, _, _, _ => return none
  | fuel + 1, p, stream, ptr, b => do
      let (p, stream, c) ← p.fgetc stream
      if c = -1 then
        return some
          { process := p, stream := stream, block := b
            ret := if stream.eofSeen = true ∧ ptr ≠ 0 then ptr else -1 }
      else
        let b := b.store ptr (charOf c)
        let ptr := ptr + 1
        if c = delimiter then
          return some { process := p, stream := stream, block := b.store ptr 0, ret := ptr }
        else
          match b.extend a ptr with
          | none => .panic
          | some b => getdelimLoop delimiter fuel p stream ptr b

/-- The buffer that `getdelim` begins with. -/
def firstBlock (buf : Option Block) : Block :=
  match buf with
  | none => a.malloc bufSiz
  | some b => if b.bufsiz = 0 then a.malloc bufSiz else b

/-- `getdelim` into the buffer that the caller has, if it has one. -/
def getdelim (fuel : ℕ) (buf : Option Block) (delimiter : ℤ) : Prog (Option LineReply) :=
  getdelimLoop a delimiter fuel p stream 0 (firstBlock a buf)

/-- `getline`: the delimiter is the newline. -/
def getline (fuel : ℕ) (buf : Option Block) : Prog (Option LineReply) :=
  p.getdelim stream a fuel buf 10

end Process

/-! ## Lines of a list of bytes -/

/-- The bytes up to the first that is an end, with it. -/
def lineOf (ends : UInt8 → Bool) : List UInt8 → List UInt8
  | [] => []
  | x :: rest => if ends x then [x] else x :: lineOf ends rest

/-- A line is at the beginning. -/
theorem lineOf_isPrefix (ends : UInt8 → Bool) (xs : List UInt8) : lineOf ends xs <+: xs := by
  induction xs with
  | nil => exact List.prefix_refl _
  | cons x rest ih =>
      unfold lineOf
      split
      · exact ⟨rest, rfl⟩
      · exact (List.prefix_cons_inj x).mpr ih

/-- A line has a byte at least, if there is one. -/
theorem lineOf_eq_nil_iff {ends : UInt8 → Bool} {xs : List UInt8} :
    lineOf ends xs = [] ↔ xs = [] := by
  cases xs with
  | nil => simp [lineOf]
  | cons x rest =>
      unfold lineOf
      split <;> simp

/-- Without an end, the line is all there is. -/
theorem lineOf_of_not_any {ends : UInt8 → Bool} {xs : List UInt8}
    (unended : (lineOf ends xs).any ends = false) : lineOf ends xs = xs := by
  induction xs with
  | nil => rfl
  | cons x rest ih =>
      rw [lineOf] at unended ⊢
      split
      · rename_i ended
        simp [ended] at unended
      · rename_i notEnded
        rw [if_neg notEnded] at unended
        rw [ih (by simp only [List.any_cons, Bool.or_eq_false_iff] at unended; exact unended.2)]

/-- Without an end, everything is one line. -/
theorem lineOf_of_none {ends : UInt8 → Bool} {xs : List UInt8} (none : ∀ x ∈ xs, ends x = false) :
    lineOf ends xs = xs := by
  apply lineOf_of_not_any
  rw [List.any_eq_false]
  intro x member
  rw [none x ((lineOf_isPrefix ends xs).subset member)]
  exact Bool.false_ne_true

/-- A line with its end is one of as many bytes as there are around it. -/
theorem lineOf_eq_of_isPrefix {ends : UInt8 → Bool} {xs ys : List UInt8}
    (ended : (lineOf ends xs).any ends = true) (inside : lineOf ends xs <+: ys)
    (outside : ys <+: xs) : lineOf ends ys = lineOf ends xs := by
  induction xs generalizing ys with
  | nil => simp [lineOf] at ended
  | cons x rest ih =>
      have some : ys ≠ [] := by
        rintro rfl
        have none := List.prefix_nil.mp inside
        simp [none] at ended
      obtain ⟨y, others, rfl⟩ := List.exists_cons_of_ne_nil some
      obtain ⟨rfl, further⟩ := List.cons_prefix_cons.mp outside
      rw [lineOf] at ended inside
      rw [lineOf, lineOf]
      split
      · rfl
      · rename_i notEnded
        rw [if_neg notEnded] at ended inside
        rw [ih (by simpa [notEnded] using ended) (List.cons_prefix_cons.mp inside).2 further]

/-! ## The loop on bytes -/

/-- What the loop has done: how many bytes it has taken, the end of the file, the buffer, and what
it returns. -/
structure Scan where
  taken : ℕ
  eofSeen : Bool
  block : Block
  ret : ℤ

/-- The loop on the bytes that can be read.  It recurses on them, one round for
each. -/
def scan (a : Allocator) (delimiter : ℤ) (eofSeen : Bool) :
    List UInt8 → ℕ → Block → Option Scan
  | [], ptr, b =>
      some { taken := 0, eofSeen := true, block := b, ret := if ptr ≠ 0 then ptr else -1 }
  | x :: rest, ptr, b =>
      if signedChar x = -1 then
        some
          { taken := 1, eofSeen := eofSeen, block := b
            ret := if eofSeen = true ∧ ptr ≠ 0 then ptr else -1 }
      else if signedChar x = delimiter then
        some
          { taken := 1, eofSeen := eofSeen, block := (b.store ptr x).store (ptr + 1) 0
            ret := (ptr + 1 : ℕ) }
      else
        ((b.store ptr x).extend a (ptr + 1)).bind fun b =>
          (scan a delimiter eofSeen rest (ptr + 1) b).map fun r => { r with taken := r.taken + 1 }

/-- One byte is taken for the end of the file. -/
theorem signedChar_eq_neg_one_iff {x : UInt8} : signedChar x = -1 ↔ x = 255 := by
  unfold signedChar
  have := x.toNat_lt
  constructor
  · intro same
    apply UInt8.toNat_inj.mp
    show x.toNat = 255
    split at same <;> omega
  · rintro rfl
    rfl

theorem charOf_signedChar (x : UInt8) : charOf (signedChar x) = x := by
  have small := x.toNat_lt
  apply UInt8.toNat_inj.mp
  rw [charOf, signedChar, UInt8.toNat_ofNat']
  split <;> omega

theorem signedChar_eq_natCast_iff {x y : UInt8} :
    signedChar x = y.toNat ↔ x = y ∧ y.toNat < 128 := by
  have small := x.toNat_lt
  rw [signedChar, ← UInt8.toNat_inj]
  split <;> omega

/-- A delimiter is seen at the end of a line if it is a `char` that is not negative. -/
theorem any_signedChar_iff {delimiter : UInt8} {line : List UInt8} :
    (line.any fun x => signedChar x = delimiter.toNat) = true ↔
      delimiter ∈ line ∧ delimiter.toNat < 128 := by
  simp only [List.any_eq_true, decide_eq_true_eq, signedChar_eq_natCast_iff]
  constructor
  · rintro ⟨x, member, rfl, small⟩
    exact ⟨member, small⟩
  · exact fun ⟨member, small⟩ => ⟨_, member, rfl, small⟩

/-- The line that the loop sees is the next line. -/
theorem lineOf_signedChar_eq {delimiter : UInt8} {u rest : List UInt8}
    (inside : lineOf (· = delimiter) rest <+: u) (outside : u <+: rest)
    (ends : delimiter ∈ lineOf (· = delimiter) rest ∧ delimiter.toNat < 128 ∨
      ¬(delimiter ∈ lineOf (· = delimiter) rest ∧ delimiter.toNat < 128) ∧
        lineOf (· = delimiter) rest = u) :
    lineOf (fun x => signedChar x = delimiter.toNat) u = lineOf (· = delimiter) rest := by
  rcases ends with ⟨member, small⟩ | ⟨unseen, same⟩
  · have agree : (fun x => decide (signedChar x = delimiter.toNat)) =
        fun x => decide (x = delimiter) := by
      funext x
      simp only [signedChar_eq_natCast_iff, small, and_true]
    rw [agree]
    exact lineOf_eq_of_isPrefix (List.any_eq_true.mpr ⟨delimiter, member, by simp⟩) inside outside
  · rw [same] at unseen ⊢
    refine lineOf_of_none fun x member => ?_
    rw [decide_eq_false_iff_not, signedChar_eq_natCast_iff]
    rintro ⟨rfl, small⟩
    exact unseen ⟨member, small⟩

namespace Scan

/-- What is left behind when `line` has been put at `ptr`: the delimiter has ended it, or the end of
the file. -/
def ofLine (eofSeen ended : Bool) (ptr : ℕ) (line : List UInt8) (b : Block) : Scan where
  taken := line.length
  eofSeen := eofSeen || !ended
  block := if ended then (b.storeAll ptr line).store (ptr + line.length) 0 else b.storeAll ptr line
  ret := if ptr + line.length ≠ 0 then (ptr + line.length : ℕ) else -1

variable {a : Allocator} {delimiter : ℤ} {eofSeen ended : Bool} {u line : List UInt8} {x : UInt8}
  {ptr : ℕ} {b : Block}

@[simp] theorem taken_ofLine : (ofLine eofSeen ended ptr line b).taken = line.length := rfl

theorem moved_ofLine : (ofLine eofSeen ended ptr line b).block.moved = b.moved := by
  cases ended <;> simp [ofLine]

theorem ret_ofLine (positive : 0 < line.length) :
    (ofLine eofSeen ended 0 line b).ret = line.length := by
  rw [ofLine, Nat.zero_add]
  exact if_pos positive.ne'

/-- The line is in the buffer, and behind it is the `NUL` or what has been there. -/
theorem bytes_ofLine (eofSeen ended : Bool) (line : List UInt8) (b : Block) :
    (ofLine eofSeen ended 0 line b).block.Begins line ∧
      (ofLine eofSeen ended 0 line b).block.bytes line.length =
        if ended then 0 else b.bytes line.length := by
  have stored : (b.storeAll 0 line).Begins line := by
    intro i inside
    have written := Block.bytes_storeAll b 0 inside
    rwa [Nat.zero_add] at written
  cases ended with
  | true =>
      refine ⟨fun i inside => ?_, ?_⟩
      · rw [stored i inside]
        exact congrArg some (Block.store_bytes_of_ne (by omega)).symm
      · rw [if_pos rfl, ← Nat.zero_add line.length]
        exact Block.store_bytes_self
  | false => exact ⟨stored, Block.bytes_storeAll_of_le line b (by omega)⟩

/-- Every write has been in bounds if and only if the `NUL` has. -/
theorem inBounds_ofLine (eofSeen ended : Bool) (clean : b.inBounds = true)
    (room : line.length ≤ b.bufsiz) :
    (ofLine eofSeen ended 0 line b).block.inBounds = true ↔
      (ended = true → line.length < b.bufsiz) := by
  have stored : (b.storeAll 0 line).inBounds = true := by
    rw [Block.inBounds_storeAll line b (by omega), clean]
  cases ended with
  | true => simp [ofLine, Block.store, stored]
  | false => simp [ofLine, stored]

theorem ofLine_cons : ofLine eofSeen ended ptr (x :: line) b =
    { ofLine eofSeen ended (ptr + 1) line (b.store ptr x) with taken := line.length + 1 } := by
  have behind : ptr + (x :: line).length = ptr + 1 + line.length := by
    rw [List.length_cons]
    omega
  rw [ofLine, ofLine, behind, Block.storeAll, List.length_cons]

/-- **The loop on a line without the byte `255`**: the buffer has grown, and the
line is in it, with a `NUL` behind if the delimiter has ended it. -/
theorem scan_eq (roomy : b.Roomy ptr) (lineEq : line = lineOf (fun x => signedChar x = delimiter) u)
    (endedEq : ended = line.any fun x => signedChar x = delimiter) (clear : 255 ∉ line) :
    scan a delimiter eofSeen u ptr b =
      (Block.grown a ptr (line.length - ended.toNat) b).map (ofLine eofSeen ended ptr line) := by
  induction u generalizing ptr b line ended with
  | nil =>
      subst lineEq endedEq
      simp [scan, lineOf, Block.grown, ofLine, Block.storeAll]
  | cons x rest ih =>
      rw [lineOf] at lineEq
      by_cases last : signedChar x = delimiter
      -- The delimiter ends the line: the loop stores it and stops.
      · rw [if_pos (by simpa using last)] at lineEq
        subst lineEq
        obtain rfl : ended = true := by simpa [last] using endedEq
        have notMarker : signedChar x ≠ -1 := fun marker =>
          clear (by simp [signedChar_eq_neg_one_iff.mp marker])
        rw [scan, if_neg notMarker, if_pos last]
        simp [Block.grown, ofLine, Block.storeAll]
      -- Any other byte is stored, the block is extended for the next one, and the loop
      -- goes on.
      · rw [if_neg (by simpa using last)] at lineEq
        set later := lineOf (fun x => signedChar x = delimiter) rest with laterEq
        subst lineEq
        have notMarker : signedChar x ≠ -1 := fun marker =>
          clear (by simp [signedChar_eq_neg_one_iff.mp marker])
        have endedEq' : ended = later.any fun x => signedChar x = delimiter := by
          simpa [last] using endedEq
        -- The first byte that is stored is followed by one extension.
        have count : (x :: later).length - ended.toNat = later.length - ended.toNat + 1 := by
          have := Bool.toNat_le ended
          cases ended with
          | false => rfl
          | true =>
              have nonempty : later ≠ [] := by
                rintro none
                simp [none] at endedEq'
              have := List.length_pos_iff.mpr nonempty
              simp only [List.length_cons, Bool.toNat_true]
              omega
        rw [scan, if_neg notMarker, if_neg last, Block.extend_store roomy le_rfl, count,
          Block.grown]
        cases extended : b.extend a (ptr + 1) with
        | none => rfl
        | some b' =>
            have roomy' := roomy.extend extended
            rw [Option.map_some, Option.bind_some, Option.bind_some,
              ih (roomy'.store ptr x) laterEq endedEq' (fun member => clear (by simp [member])),
              Block.grown_store roomy' (Nat.le_succ ptr), Option.map_map, Option.map_map]
            congr 1
            funext g
            rw [ofLine_cons]
            rfl

/-- A line with the byte `255` is cut there. -/
theorem of_marker {r : Scan} (marker : 255 ∈ lineOf (fun x => signedChar x = delimiter) u)
    (scanned : scan a delimiter eofSeen u ptr b = some r) :
    ∃ k, u[k]? = some 255 ∧ r.taken = k + 1 ∧
      (r.ret = -1 ∨ r.ret = (ptr + k : ℕ) ∧ ptr + k ≠ 0) := by
  induction u generalizing ptr b r with
  | nil => simp [lineOf] at marker
  | cons x rest ih =>
      rw [scan] at scanned
      by_cases here : signedChar x = -1
      · rw [if_pos here] at scanned
        obtain rfl := Option.some.inj scanned
        obtain rfl := signedChar_eq_neg_one_iff.mp here
        refine ⟨0, rfl, rfl, ?_⟩
        by_cases past : eofSeen = true ∧ ptr ≠ 0
        · exact .inr ⟨if_pos past, past.2⟩
        · exact .inl (if_neg past)
      · have other : x ≠ 255 := fun same => here (signedChar_eq_neg_one_iff.mpr same)
        rw [if_neg here] at scanned
        rw [lineOf] at marker
        by_cases last : signedChar x = delimiter
        · rw [if_pos (by simpa using last)] at marker
          exact absurd (List.mem_singleton.mp marker).symm other
        · rw [if_neg (by simpa using last)] at marker
          rw [if_neg last] at scanned
          obtain ⟨b', -, mapped⟩ := Option.bind_eq_some_iff.mp scanned
          obtain ⟨r', later, rfl⟩ := Option.map_eq_some_iff.mp mapped
          obtain ⟨k, found, taken, ret⟩ :=
            ih ((List.mem_cons.mp marker).resolve_left (Ne.symm other)) later
          refine ⟨k + 1, by simpa using found, congrArg (· + 1) taken, ?_⟩
          rwa [show ptr + (k + 1) = ptr + 1 + k by omega]

end Scan

/-! ## The bytes that can be read -/

namespace DataStore

variable {s : DataStore} {c : Cluster} {name : GoString} {off : ℤ} {bytes u : List UInt8}
  {x : UInt8}

/-- The bytes from `off` on, up to the first that is not stored. -/
structure Upcoming (s : DataStore) (c : Cluster) (name : GoString) (off : ℤ) (u : List UInt8) :
    Prop where
  stored : ∀ i < u.length, s.Stores c name (off + i) ∧ u[i]? = some (s.content c name (off + i))
  ended : ¬s.Stores c name (off + u.length)

/-- What can be read is the byte at the offset, and what can be read behind it. -/
theorem Upcoming.cons_iff : s.Upcoming c name off (x :: u) ↔
    s.Stores c name off ∧ x = s.content c name off ∧ s.Upcoming c name (off + 1) u := by
  constructor
  · intro upcoming
    have first := upcoming.stored 0 (by simp)
    simp only [Nat.cast_zero, add_zero, List.getElem?_cons_zero, Option.some.injEq] at first
    refine ⟨first.1, first.2, fun i inside => ?_, ?_⟩
    · have next := upcoming.stored (i + 1) (by simpa using inside)
      rw [show off + ((i + 1 : ℕ) : ℤ) = off + 1 + i by omega] at next
      exact ⟨next.1, by simpa using next.2⟩
    · have ended := upcoming.ended
      rwa [List.length_cons, show off + ((u.length + 1 : ℕ) : ℤ) = off + 1 + u.length by omega]
        at ended
  · rintro ⟨stored, rfl, upcoming⟩
    refine ⟨fun i inside => ?_, ?_⟩
    · cases i with
      | zero => simpa using stored
      | succ i =>
          have next := upcoming.stored i (by simpa using inside)
          rw [show off + 1 + (i : ℤ) = off + (i + 1 : ℕ) by omega] at next
          exact ⟨next.1, by simpa using next.2⟩
    · have ended := upcoming.ended
      rwa [List.length_cons, show off + ((u.length + 1 : ℕ) : ℤ) = off + 1 + u.length by omega]

theorem Upcoming.nil_iff : s.Upcoming c name off [] ↔ ¬s.Stores c name off := by
  constructor
  · intro upcoming
    simpa using upcoming.ended
  · intro ended
    exact ⟨fun i inside => absurd inside (Nat.not_lt_zero i), by simpa using ended⟩

/-- They are the next bytes of the file. -/
theorem Upcoming.isPrefix (upcoming : s.Upcoming c name off u) (inv : s.FileInv c name)
    (has : s.HasBytes c name bytes) (nonneg : 0 ≤ off) : u <+: bytes.drop off.toNat := by
  rw [List.prefix_iff_getElem?]
  intro i inside
  obtain ⟨stored, value⟩ := upcoming.stored i inside
  have below := has.isSize.lt_of_stored inv.wellFormed stored
  have content := has.content (off.toNat + i) (by omega)
  rw [show ((off.toNat + i : ℕ) : ℤ) = off + i by omega] at content
  rw [← List.getElem?_eq_getElem inside, value, content, List.getElem?_drop,
    List.getD_eq_getElem?_getD, List.getElem?_eq_getElem (by omega), Option.getD_some]

/-- There always are such bytes, so that nothing is assumed of a file where they are named. -/
theorem HasBytes.exists_upcoming (has : s.HasBytes c name bytes) (inv : s.FileInv c name)
    (off : ℤ) : ∃ u, s.Upcoming c name off u := by
  induction left : (bytes.length - off).toNat generalizing off with
  | zero =>
      refine ⟨[], Upcoming.nil_iff.mpr fun stored => ?_⟩
      have := has.isSize.lt_of_stored inv.wellFormed stored
      omega
  | succ left ih =>
      by_cases stored : s.Stores c name off
      · obtain ⟨u, upcoming⟩ := ih (off + 1) (by omega)
        exact ⟨_, Upcoming.cons_iff.mpr ⟨stored, rfl, upcoming⟩⟩
      · exact ⟨[], Upcoming.nil_iff.mpr stored⟩

/-- A read of one byte. -/
theorem Delivers.single {n : ℤ} {buf' : List UInt8} {err : Option FileError}
    (delivers : s.Delivers c name off [x] (n, buf', err)) :
    (s.Stores c name off → n = 1 ∧ buf' = [s.content c name off]) ∧
      (¬s.Stores c name off → n = 0) := by
  have few : touchedStripes s.stripeSize off [x].length ≤ 100 := by
    simp [touchedStripes]
  have count := delivers.count_of_few few
  have filled := delivers.filled
  simp only [storedCount, List.length_singleton, Nat.count_succ, Nat.count_zero, Nat.cast_zero,
    add_zero, zero_add] at count
  refine ⟨fun stored => ?_, fun missing => ?_⟩
  · rw [if_pos stored] at count
    obtain ⟨y, rfl⟩ := List.length_eq_one_iff.mp filled.length_eq
    have value := filled.stored 0 (by simp) (by simpa using stored)
    exact ⟨count, by simpa using value⟩
  · rwa [if_neg missing] at count

end DataStore

namespace Process

variable {p : Process} {stream : OpenStream} {a : Allocator} {f : File} {c c' : Cluster}
  {u : List UInt8} {x : UInt8}

/-! ## One byte -/

/-- Nothing can be read: the end of the file is indicated. -/
theorem exec_fgetc_of_nil (held : p.pdwfs.fdFileMap stream.fileno = some f)
    (inv : f.file.store.FileInv c f.file.path) (nonneg : 0 ≤ f.file.offset)
    (readable : f.access ≠ .writeOnly)
    (upcoming : f.file.store.Upcoming c f.file.path f.file.offset [])
    {outcome : Option (Process × OpenStream × ℤ)} (performed : Exec (p.fgetc stream) c c' outcome) :
    c' = c ∧ outcome =
      some (p.setFile stream.fileno f, { stream with eofSeen := true }, -1) := by
  rw [fgetc] at performed
  have read : ∀ c' outcome, Exec (p.readFd stream.fileno [0]) c c' outcome → c' = c ∧
      ∃ buf', outcome = some (p.setFile stream.fileno f, { ret := 0, buffers := [buf'] }) := by
    intro c' outcome performed
    obtain ⟨rfl, n, buf', err, delivers, rfl⟩ := exec_readFd held inv nonneg readable performed
    obtain rfl := delivers.single.2 (DataStore.Upcoming.nil_iff.mp upcoming)
    exact ⟨rfl, buf', by simp [File.moveTo]⟩
  rcases Program.exec_bind_iff.mp performed with ⟨value, middle, first, last⟩ | ⟨aborted, -⟩
  · obtain ⟨rfl, buf', same⟩ := read _ _ first
    obtain rfl := Option.some.inj same
    exact Program.exec_ret_iff.mp last
  · obtain ⟨-, _, impossible⟩ := read _ _ aborted
    simp at impossible

/-- One byte is read. -/
theorem exec_fgetc_of_cons (held : p.pdwfs.fdFileMap stream.fileno = some f)
    (inv : f.file.store.FileInv c f.file.path) (nonneg : 0 ≤ f.file.offset)
    (readable : f.access ≠ .writeOnly)
    (upcoming : f.file.store.Upcoming c f.file.path f.file.offset (x :: u))
    {outcome : Option (Process × OpenStream × ℤ)} (performed : Exec (p.fgetc stream) c c' outcome) :
    c' = c ∧ outcome =
      some (p.setFile stream.fileno (f.moveTo (f.file.offset + 1)), stream, signedChar x) := by
  obtain ⟨stored, rfl, -⟩ := DataStore.Upcoming.cons_iff.mp upcoming
  rw [fgetc] at performed
  have read : ∀ c' outcome, Exec (p.readFd stream.fileno [0]) c c' outcome → c' = c ∧
      outcome = some (p.setFile stream.fileno (f.moveTo (f.file.offset + 1)),
        { ret := 1, buffers := [[f.file.store.content c f.file.path f.file.offset]] }) := by
    intro c' outcome performed
    obtain ⟨rfl, n, buf', err, delivers, rfl⟩ := exec_readFd held inv nonneg readable performed
    obtain ⟨rfl, rfl⟩ := delivers.single.1 stored
    exact ⟨rfl, rfl⟩
  replace performed := Program.exec_bind_of_returns read performed
  exact Program.exec_ret_iff.mp performed

/-- A handle that is open for writing only. -/
theorem exec_fgetc_of_writeOnly (held : p.pdwfs.fdFileMap stream.fileno = some f)
    (disabled : f.access = .writeOnly) {outcome : Option (Process × OpenStream × ℤ)}
    (performed : Exec (p.fgetc stream) c c' outcome) :
    c' = c ∧ outcome = some (p.setFile stream.fileno f, { stream with errSeen := true }, -1) := by
  rw [fgetc] at performed
  replace performed := Program.exec_bind_of_returns
    (fun _ _ => exec_readFd_of_writeOnly held disabled) performed
  exact Program.exec_ret_iff.mp performed

@[simp] theorem setFile_setFile (p : Process) (fd : Fd) (f g : File) :
    (p.setFile fd f).setFile fd g = p.setFile fd g := by
  simp [setFile]

/-! ## The loop -/

/-- **The loop is the function**: with enough rounds it comes to an end, and to this
one. -/
theorem exec_getdelimLoop {delimiter : ℤ} {fuel : ℕ} (enough : u.length < fuel) {ptr : ℕ}
    {b : Block} (held : p.pdwfs.fdFileMap stream.fileno = some f)
    (inv : f.file.store.FileInv c f.file.path) (nonneg : 0 ≤ f.file.offset)
    (readable : f.access ≠ .writeOnly)
    (upcoming : f.file.store.Upcoming c f.file.path f.file.offset u)
    {outcome : Option (Option LineReply)}
    (performed : Exec (getdelimLoop a delimiter fuel p stream ptr b) c c' outcome) :
    outcome = (scan a delimiter stream.eofSeen u ptr b).map fun r =>
      some
        { process := p.setFile stream.fileno (f.moveTo (f.file.offset + r.taken))
          stream := { stream with eofSeen := r.eofSeen }
          block := r.block
          ret := r.ret } := by
  induction u generalizing fuel p f ptr b c' outcome with
  -- Nothing is left: `fgetc` returns the end of the file.
  | nil =>
      obtain ⟨fuel, rfl⟩ := Nat.exists_eq_succ_of_ne_zero (Nat.ne_of_gt enough)
      rw [getdelimLoop] at performed
      replace performed := Program.exec_bind_of_returns
        (fun _ _ => exec_fgetc_of_nil held inv nonneg readable upcoming) performed
      obtain ⟨-, rfl⟩ := Program.exec_ret_iff.mp performed
      simp [scan, File.moveTo]
  | cons x rest ih =>
      obtain ⟨fuel, rfl⟩ := Nat.exists_eq_succ_of_ne_zero (Nat.ne_of_gt (Nat.zero_lt_of_lt enough))
      rw [getdelimLoop] at performed
      replace performed := Program.exec_bind_of_returns
        (fun _ _ => exec_fgetc_of_cons held inv nonneg readable upcoming) performed
      simp only at performed
      unfold scan
      split at performed
      -- The byte `255` is taken for the end of the file as well.
      · rename_i marker
        obtain ⟨-, rfl⟩ := Program.exec_ret_iff.mp performed
        rw [if_pos marker]
        rfl
      · rename_i notMarker
        rw [charOf_signedChar] at performed
        rw [if_neg notMarker]
        split at performed
        · rename_i ended
          obtain ⟨-, rfl⟩ := Program.exec_ret_iff.mp performed
          rw [if_pos ended]
          rfl
        · rename_i notEnded
          rw [if_neg notEnded]
          cases extended : (b.store ptr x).extend a (ptr + 1) with
          | none =>
              rw [extended] at performed
              obtain ⟨-, rfl⟩ := Program.exec_panic_iff.mp performed
              rfl
          -- The block has grown: the induction hypothesis is used one byte further, in
          -- the file and in the block.
          | some b' =>
              rw [extended] at performed
              have later := ih (f := f.moveTo (f.file.offset + 1)) (by simpa using enough)
                (fdFileMap_setFile _ _ _) inv (by simp [File.moveTo]; omega) readable
                (DataStore.Upcoming.cons_iff.mp upcoming).2.2 performed
              rw [later, Option.bind_some, Option.map_map]
              congr 1
              funext r
              simp only [setFile_setFile, File.moveTo, Function.comp_apply]
              rw [show f.file.offset + 1 + (r.taken : ℤ) = f.file.offset + (r.taken + 1 : ℕ) by
                omega]

/-! ## What `getdelim` should do -/

/-- With enough rounds, the next line is in the buffer, its length is returned, and the offset has
advanced by it.  Nothing is returned only if nothing is left, and every write has been in bounds. -/
def Delimits (p : Process) (stream : OpenStream) (a : Allocator) (c : Cluster) (f : File)
    (bytes : List UInt8) (buffer : Option ((ℕ → UInt8) × ℕ)) (delimiter : UInt8) : Prop :=
  ∃ enough, ∀ fuel ≥ enough, ∀ c' outcome,
    Exec (p.getdelim stream a fuel (buffer.map fun x => .onHeap x.1 x.2) delimiter.toNat) c c'
      outcome →
    let rest := bytes.drop f.file.offset.toNat
    let line := lineOf (· = delimiter) rest
    ∃ reply, outcome = some (some reply) ∧
      reply.ret = (if rest = [] then -1 else (line.length : ℤ)) ∧
      (rest ≠ [] → reply.block.Holds line) ∧
      reply.process.pdwfs.fdFileMap stream.fileno =
        some (f.moveTo (f.file.offset + line.length)) ∧
      reply.block.inBounds = true

/-- Nothing is left; or the line can be read and has no byte `255`, and a delimiter below `128` ends
it and there is room for the `NUL`, or it goes up to where reading ends and there happens to be a
`NUL` behind. -/
def ReadsLine (a : Allocator) (f : File) (bytes u : List UInt8)
    (buffer : Option ((ℕ → UInt8) × ℕ)) (delimiter : UInt8) : Prop :=
  let first := firstBlock a (buffer.map fun x => .onHeap x.1 x.2)
  let rest := bytes.drop f.file.offset.toNat
  let line := lineOf (· = delimiter) rest
  rest = [] ∨ f.access ≠ .writeOnly ∧ line <+: u ∧ 255 ∉ line ∧
    if delimiter ∈ line ∧ delimiter.toNat < 128 then 2 ≤ first.bufsiz ∨ 3 ≤ line.length
    else line = u ∧ ∃ g ∈ Block.grown a 0 line.length first, g.bytes line.length = 0

variable {bytes : List UInt8} {buffer : Option ((ℕ → UInt8) × ℕ)} {delimiter : UInt8}

/-- `getdelim` begins with a block of its own, or with one that the allocator knows.
-/
theorem firstBlock_spec (a : Allocator) (buffer : Option ((ℕ → UInt8) × ℕ)) :
    let first := firstBlock a (buffer.map fun x => .onHeap x.1 x.2)
    first.Roomy 0 ∧ first.heap = true ∧ first.inBounds = true := by
  have new : (a.malloc bufSiz).Roomy 0 := ⟨show 0 < bufSiz by decide, le_rfl⟩
  cases buffer with
  | none => exact ⟨new, rfl, rfl⟩
  | some x =>
      by_cases none : x.2 = 0
      · rw [Option.map_some, firstBlock, if_pos (show (Block.onHeap x.1 x.2).bufsiz = 0 from none)]
        exact ⟨new, rfl, rfl⟩
      · rw [Option.map_some, firstBlock, if_neg (show ¬(Block.onHeap x.1 x.2).bufsiz = 0 from none)]
        exact ⟨⟨Nat.pos_of_ne_zero none, le_rfl⟩, rfl, rfl⟩

theorem moveTo_inj {offset offset' : ℤ} (same : f.moveTo offset = f.moveTo offset') :
    offset = offset' :=
  congrArg (fun g : File => g.file.offset) same

/-- A handle that is open for writing only: nothing is read, and `-1` is returned. -/
theorem exec_getdelim_of_writeOnly {fuel : ℕ} (positive : 0 < fuel)
    (held : p.pdwfs.fdFileMap stream.fileno = some f) (disabled : f.access = .writeOnly)
    {buf : Option Block} {delimiter : ℤ} {outcome : Option (Option LineReply)}
    (performed : Exec (p.getdelim stream a fuel buf delimiter) c c' outcome) :
    outcome = some (some
      { process := p.setFile stream.fileno f, stream := { stream with errSeen := true }
        block := firstBlock a buf, ret := -1 }) := by
  obtain ⟨fuel, rfl⟩ := Nat.exists_eq_succ_of_ne_zero positive.ne'
  rw [getdelim, getdelimLoop] at performed
  replace performed := Program.exec_bind_of_returns
    (fun _ _ => exec_fgetc_of_writeOnly held disabled) performed
  obtain ⟨-, rfl⟩ := Program.exec_ret_iff.mp performed
  simp

/-- What `getdelim` should do is a property of the loop on the bytes that can be read. -/
theorem delimits_iff_scan (held : p.pdwfs.fdFileMap stream.fileno = some f)
    (inv : f.file.store.FileInv c f.file.path) (nonneg : 0 ≤ f.file.offset)
    (readable : f.access ≠ .writeOnly)
    (upcoming : f.file.store.Upcoming c f.file.path f.file.offset u) :
    Delimits p stream a c f bytes buffer delimiter ↔
      let rest := bytes.drop f.file.offset.toNat
      let line := lineOf (· = delimiter) rest
      ∃ r, scan a delimiter.toNat stream.eofSeen u 0
          (firstBlock a (buffer.map fun x => .onHeap x.1 x.2)) = some r ∧
        r.ret = (if rest = [] then -1 else (line.length : ℤ)) ∧ (rest ≠ [] → r.block.Holds line) ∧
        r.taken = line.length ∧ r.block.inBounds = true := by
  constructor
  · rintro ⟨enough, delimits⟩
    have performed := Program.exec_run serve (p.getdelim stream a (max enough (u.length + 1))
      (buffer.map fun x => .onHeap x.1 x.2) delimiter.toNat) c
    obtain ⟨reply, returned, ret, holds, offset, inBounds⟩ :=
      delimits _ (le_max_left _ _) _ _ performed
    have done := exec_getdelimLoop (lt_of_lt_of_le (Nat.lt_succ_self _) (le_max_right _ _)) held inv
      nonneg readable upcoming performed
    rw [returned, eq_comm, Option.map_eq_some_iff] at done
    obtain ⟨r, scanned, same⟩ := done
    obtain rfl := Option.some.inj same
    refine ⟨r, scanned, ret, holds, ?_, inBounds⟩
    rw [fdFileMap_setFile, Option.some.injEq] at offset
    have advanced := moveTo_inj offset
    omega
  · rintro ⟨r, scanned, ret, holds, taken, inBounds⟩
    refine ⟨u.length + 1, fun fuel enough c' outcome performed => ?_⟩
    have done := exec_getdelimLoop enough held inv nonneg readable upcoming performed
    rw [scanned, Option.map_some] at done
    exact ⟨_, done, ret, holds, by rw [fdFileMap_setFile, taken], inBounds⟩

end Process

namespace Scan

variable {a : Allocator} {eofSeen : Bool} {rest u : List UInt8} {delimiter : UInt8} {first : Block}
  {r : Scan}

/-- If the loop finds the next line, it has been read up to its end, and its `NUL` has been put in
bounds or was there before. -/
theorem reads_of_scan (roomy : first.Roomy 0) (clean : first.inBounds = true) (outside : u <+: rest)
    {line : List UInt8} (lineEq : line = lineOf (· = delimiter) rest)
    (scanned : scan a delimiter.toNat eofSeen u 0 first = some r) (ret : r.ret = line.length)
    (holds : r.block.Holds line) (taken : r.taken = line.length)
    (inBounds : r.block.inBounds = true) : line <+: u ∧ 255 ∉ line ∧
      if delimiter ∈ line ∧ delimiter.toNat < 128 then 2 ≤ first.bufsiz ∨ 3 ≤ line.length
      else line = u ∧ ∃ g ∈ Block.grown a 0 line.length first, g.bytes line.length = 0 := by
  set seen := lineOf (fun x => signedChar x = delimiter.toNat) u with seenEq
  set ended := seen.any fun x => signedChar x = delimiter.toNat with endedEq
  have clear : 255 ∉ seen := by
    intro marker
    obtain ⟨k, -, taken', ret'⟩ := of_marker marker scanned
    omega
  rw [scan_eq roomy seenEq endedEq clear] at scanned
  obtain ⟨g, grown, rfl⟩ := Option.map_eq_some_iff.mp scanned
  have same : seen = line := by
    have inside : seen <+: rest := (lineOf_isPrefix _ u).trans outside
    rw [taken_ofLine] at taken
    rw [lineEq] at taken ⊢
    exact (List.prefix_of_prefix_length_le inside (lineOf_isPrefix _ rest) taken.le).eq_of_length
      taken
  refine ⟨same ▸ lineOf_isPrefix _ u, same ▸ clear, ?_⟩
  rw [← same] at holds ⊢
  by_cases ends : delimiter ∈ seen ∧ delimiter.toNat < 128
  · have ending : ended = true := any_signedChar_iff.mpr ends
    rw [ending] at grown inBounds
    have written : seen.length ≤ g.bufsiz := by
      have room := (roomy.grown grown).lt_bufsiz
      simp only [Bool.toNat_true] at room
      omega
    rw [if_pos ends]
    have room := (inBounds_ofLine _ _ (Block.inBounds_grown grown ▸ clean) written).mp inBounds rfl
    have behind := Block.lt_bufsiz_grown_iff roomy grown
    have positive := List.length_pos_of_mem ends.1
    simp only [Bool.toNat_true] at behind
    omega
  · have ending : ended = false :=
      Bool.eq_false_iff.mpr fun ending => ends (any_signedChar_iff.mp ending)
    have behind := (bytes_ofLine eofSeen ended seen g).2
    rw [holds.2, ending, if_neg Bool.false_ne_true] at behind
    rw [ending] at grown
    rw [if_neg ends]
    exact ⟨lineOf_of_not_any ending, g, grown, behind.symm⟩

/-- And then it does find the line. -/
theorem exists_scan (roomy : first.Roomy 0) (heap : first.heap = true)
    (clean : first.inBounds = true) (outside : u <+: rest) (left : rest ≠ []) {line : List UInt8}
    (lineEq : line = lineOf (· = delimiter) rest) (inside : line <+: u) (clear : 255 ∉ line)
    (ending : if delimiter ∈ line ∧ delimiter.toNat < 128 then 2 ≤ first.bufsiz ∨ 3 ≤ line.length
      else line = u ∧ ∃ g ∈ Block.grown a 0 line.length first, g.bytes line.length = 0) :
    ∃ r, scan a delimiter.toNat eofSeen u 0 first = some r ∧ r.ret = line.length ∧
      r.block.Holds line ∧ r.taken = line.length ∧ r.block.inBounds = true := by
  set seen := lineOf (fun x => signedChar x = delimiter.toNat) u with seenEq
  set ended := seen.any fun x => signedChar x = delimiter.toNat with endedEq
  have same : seen = line := by
    rw [lineEq] at inside ending ⊢
    apply lineOf_signedChar_eq inside outside
    by_cases ends : delimiter ∈ lineOf (· = delimiter) rest ∧ delimiter.toNat < 128
    · exact .inl ends
    · rw [if_neg ends] at ending
      exact .inr ⟨ends, ending.1⟩
  have positive : 0 < line.length :=
    List.length_pos_iff.mpr fun empty => left (lineOf_eq_nil_iff.mp (lineEq ▸ empty))
  rw [← same] at clear ending positive ⊢
  obtain ⟨g, grown⟩ := Block.exists_grown heap a 0 (seen.length - ended.toNat)
  have scanned : scan a delimiter.toNat eofSeen u 0 first = _ := scan_eq roomy seenEq endedEq clear
  rw [grown, Option.map_some] at scanned
  have room := (roomy.grown grown).lt_bufsiz
  have written : seen.length ≤ g.bufsiz := by
    have := Bool.toNat_le ended
    omega
  obtain ⟨begins, behind⟩ := bytes_ofLine eofSeen ended seen g
  refine ⟨_, scanned, ret_ofLine positive, ⟨begins, ?_⟩, rfl, ?_⟩
  · rw [behind]
    by_cases ends : delimiter ∈ seen ∧ delimiter.toNat < 128
    · rw [if_pos (any_signedChar_iff.mpr ends)]
    · have unended : ended = false :=
        Bool.eq_false_iff.mpr fun ending => ends (any_signedChar_iff.mp ending)
      rw [if_neg ends] at ending
      obtain ⟨-, g', grown', zero⟩ := ending
      rw [unended] at grown
      obtain rfl := Option.some.inj (grown.symm.trans grown')
      rw [unended, if_neg Bool.false_ne_true, zero]
  · refine (inBounds_ofLine _ _ (Block.inBounds_grown grown ▸ clean) written).mpr fun ended' => ?_
    rw [if_pos (any_signedChar_iff.mp ended')] at ending
    rw [ended'] at grown
    have behind := Block.lt_bufsiz_grown_iff roomy grown
    simp only [Bool.toNat_true] at behind
    omega

end Scan

namespace Process

variable {p : Process} {stream : OpenStream} {a : Allocator} {f : File} {c c' : Cluster}
  {u bytes : List UInt8} {buffer : Option ((ℕ → UInt8) × ℕ)} {delimiter : UInt8}

/-- The same for a handle that can be read. -/
theorem delimits_iff_of_readable (held : p.pdwfs.fdFileMap stream.fileno = some f)
    (inv : f.file.store.FileInv c f.file.path) (has : f.file.store.HasBytes c f.file.path bytes)
    (nonneg : 0 ≤ f.file.offset) (readable : f.access ≠ .writeOnly)
    (upcoming : f.file.store.Upcoming c f.file.path f.file.offset u) :
    Delimits p stream a c f bytes buffer delimiter ↔ ReadsLine a f bytes u buffer delimiter := by
  rw [delimits_iff_scan held inv nonneg readable upcoming, ReadsLine]
  obtain ⟨roomy, heap, clean⟩ := firstBlock_spec a buffer
  have outside := upcoming.isPrefix inv has nonneg
  simp only
  generalize firstBlock a (buffer.map fun x => .onHeap x.1 x.2) = first at roomy heap clean ⊢
  generalize bytes.drop f.file.offset.toNat = rest at outside ⊢
  by_cases none : rest = []
  · refine iff_of_true ?_ (.inl none)
    obtain rfl : u = [] := List.prefix_nil.mp (none ▸ outside)
    have nothing : lineOf (· = delimiter) rest = [] := lineOf_eq_nil_iff.mpr none
    refine ⟨_, rfl, ?_, fun left => absurd none left, ?_, clean⟩
    · rw [if_pos none]
      rfl
    · rw [nothing]
      rfl
  · simp only [none, if_false, false_or, ne_eq, not_false_eq_true, forall_const]
    constructor
    · rintro ⟨r, scanned, ret, holds, taken, inBounds⟩
      exact ⟨readable, Scan.reads_of_scan roomy clean outside rfl scanned ret holds taken inBounds⟩
    · rintro ⟨-, inside, clear, ending⟩
      exact Scan.exists_scan roomy heap clean outside none rfl inside clear ending

/-- **When `getdelim` is right**: for every content, offset, delimiter and initial
buffer.  The bytes `upcoming` are those that can be read one by one from the offset
on, which need not be all that are left: a gap ends the line.  The condition has
three parts, which are about the delimiter, about the byte `255`, and about the room
for the `NUL`. -/
theorem delimits_iff (held : p.pdwfs.fdFileMap stream.fileno = some f)
    (inv : f.file.store.FileInv c f.file.path) (has : f.file.store.HasBytes c f.file.path bytes)
    (nonneg : 0 ≤ f.file.offset)
    (upcoming : f.file.store.Upcoming c f.file.path f.file.offset u) :
    Delimits p stream a c f bytes buffer delimiter ↔ ReadsLine a f bytes u buffer delimiter := by
  by_cases disabled : f.access = .writeOnly
  · have unread : ReadsLine a f bytes u buffer delimiter ↔
        bytes.drop f.file.offset.toNat = [] := by
      simp [ReadsLine, disabled]
    rw [unread]
    constructor
    · rintro ⟨enough, delimits⟩
      have performed := Program.exec_run serve (p.getdelim stream a (max enough 1)
        (buffer.map fun x => .onHeap x.1 x.2) delimiter.toNat) c
      obtain ⟨reply, returned, ret, -⟩ := delimits _ (le_max_left _ _) _ _ performed
      have done := exec_getdelim_of_writeOnly (by omega) held disabled performed
      obtain rfl := Option.some.inj (Option.some.inj (returned.symm.trans done))
      by_contra some
      rw [if_neg some] at ret
      simp only at ret
      omega
    · intro none
      refine ⟨1, fun fuel positive c' outcome performed => ?_⟩
      have done := exec_getdelim_of_writeOnly positive held disabled performed
      refine ⟨_, done, (if_pos none).symm, absurd none, ?_, (firstBlock_spec a buffer).2.2⟩
      rw [fdFileMap_setFile, none]
      simp [lineOf, File.moveTo]
  · exact delimits_iff_of_readable held inv has nonneg disabled upcoming

end Process

/-! ## A small file -/

theorem smallStore.upcoming_three :
    (smallStore 2).Upcoming (smallStore.written [1, 2, 3]) ['f'] 0 [1, 2, 3] :=
  ⟨by decide, by decide⟩

/-- An allocator whose memory is never clear. -/
def Allocator.dirty : Allocator := { fresh := fun _ _ => 7, moves := fun _ => false }

/-- The line is ended by its last byte, in a buffer of two bytes. -/
theorem delimits_three : Process.Delimits smallStore.process smallStore.stream .dirty
    (smallStore.written [1, 2, 3]) smallStore.file [1, 2, 3] (some (fun _ => 7, 2)) 3 := by
  obtain ⟨inv, has⟩ := smallStore.hasBytes_written [1, 2, 3]
  refine (Process.delimits_iff rfl inv has le_rfl smallStore.upcoming_three).mpr
    (.inr ⟨by decide, by decide, by decide, ?_⟩)
  rw [if_pos (by decide)]
  exact .inl (by decide)

/-- A last line without a delimiter gets no `NUL`, and a byte `255` is taken for an error. -/
theorem not_delimits : ¬Process.Delimits smallStore.process smallStore.stream .dirty
      (smallStore.written [1, 2, 3]) smallStore.file [1, 2, 3] (some (fun _ => 7, 16)) 10 ∧
    ¬Process.Delimits smallStore.process smallStore.stream .dirty
      (smallStore.written [255]) smallStore.file [255] (some (fun _ => 7, 16)) 10 := by
  constructor
  · obtain ⟨inv, -⟩ := smallStore.hasBytes_written [1, 2, 3]
    rw [Process.delimits_iff_scan rfl inv le_rfl (by decide) smallStore.upcoming_three]
    rintro ⟨r, scanned, -, holds, -⟩
    have behind : (scan .dirty 10 false [1, 2, 3] 0 (.onHeap (fun _ => 7) 16)).map
        (·.block.bytes 3) = some 7 := by decide
    rw [show scan .dirty 10 false [1, 2, 3] 0 (.onHeap (fun _ => 7) 16) = some r from scanned,
      Option.map_some, show r.block.bytes 3 = 0 from (holds (by decide)).2] at behind
    exact absurd behind (by decide)
  · obtain ⟨inv, -⟩ := smallStore.hasBytes_written [255]
    have upcoming : (smallStore 2).Upcoming (smallStore.written [255]) ['f'] 0 [255] :=
      ⟨by decide, by decide⟩
    rw [Process.delimits_iff_scan rfl inv le_rfl (by decide) upcoming]
    rintro ⟨r, scanned, ret, -⟩
    have failed : (scan .dirty 10 false [255] 0 (.onHeap (fun _ => 7) 16)).map (·.ret) =
        some (-1) := by decide
    rw [show scan .dirty 10 false [255] 0 (.onHeap (fun _ => 7) 16) = some r from scanned,
      Option.map_some, ret] at failed
    exact absurd failed (by decide)

end Pdwfs
