import Pdwfs.Intercept.Lines

/-!
# `fgets`

`fgets` calls `getline` on the buffer of its caller, which `getline` takes for its
own: it reads whole lines, and extends the buffer when it gets full.

* `Process.fgets` — the function.
* `Gets` — what it should do.
* `Fits`, `gets_iff` — when it does.

## A buffer that is not one's own

`getline` is given a block from the allocator, or none, and may reallocate it.  The
caller of `fgets` has an array, which may be on the stack, and expects that at most
`max - 1` bytes are read.  So a line that does not fit is read to its end, and the
array is handed to `realloc`, which is undefined for an array that the allocator
does not know.  If it does know it, the block may be moved, and the caller has the
old pointer.

The property asks for what the standard says, and the condition says when the
implementation happens to do it: the line as far as it can be read is what there is
room for, and the buffer need not be moved for it.  Both are about the bytes of the
file and about the buffer, and the second is also about the allocator, which is a
parameter.
-/

namespace Pdwfs

open Concurrency Redis Striping

/-- The pointer that `fgets` returns.  The caller compares it with `NULL`, and with
nothing else. -/
inductive Pointer
  | null
  /-- The buffer of the caller. -/
  | dst
  /-- A block that the buffer has been moved to. -/
  | elsewhere
  deriving DecidableEq

/-- What `fgets` leaves behind. -/
structure GetsReply where
  process : Process
  stream : OpenStream
  block : Block
  ret : Pointer

/-- A buffer of `max` bytes, of which the allocator knows or not, for a reader that is told that it
has `bufsiz` bytes. -/
def Block.ofCaller (bytes : ℕ → UInt8) (max : ℕ) (heap : Bool) (bufsiz : ℕ) : Block :=
  { bytes := bytes, capacity := max, bufsiz := bufsiz, heap := heap }

/-- What `fgets` makes of what `getline` has done.  It writes one `NUL` more, where
`getline` has put one already. -/
def LineReply.gets (reply : LineReply) : GetsReply :=
  if reply.ret ≤ 0 then
    { process := reply.process, stream := reply.stream, block := reply.block, ret := .null }
  else
    { process := reply.process, stream := reply.stream
      block := reply.block.store reply.ret.toNat 0
      ret := if reply.block.moved then .elsewhere else .dst }

namespace LineReply

variable {reply : LineReply}

theorem gets_process : reply.gets.process = reply.process := by
  unfold gets
  split <;> rfl

/-- `NULL` is returned when `getline` has returned nothing. -/
theorem ret_gets_eq_null_iff : reply.gets.ret = .null ↔ reply.ret ≤ 0 := by
  unfold gets
  split
  · exact iff_of_true rfl ‹_›
  · rename_i positive
    refine iff_of_false ?_ positive
    show (if reply.block.moved then Pointer.elsewhere else .dst) ≠ .null
    split <;> simp

/-- The buffer of the caller is returned if it is where it was. -/
theorem ret_gets_eq_dst_iff :
    reply.gets.ret = .dst ↔ 0 < reply.ret ∧ reply.block.moved = false := by
  unfold gets
  split
  · exact iff_of_false (by simp) (by omega)
  · rename_i positive
    rw [and_iff_right (not_le.mp positive)]
    show (if reply.block.moved then Pointer.elsewhere else .dst) = .dst ↔ _
    cases reply.block.moved <;> simp

theorem block_gets (positive : 0 < reply.ret) :
    reply.gets.block = reply.block.store reply.ret.toNat 0 := by
  rw [gets, if_neg (by omega)]

end LineReply

namespace Process

variable {p : Process} {stream : OpenStream} {a : Allocator} {f : File} {c c' : Cluster}
  {bytes u : List UInt8} {memory : ℕ → UInt8} {max fuel : ℕ} {heap : Bool}

/-- `fgets` into a buffer of `max` bytes. -/
def fgets (p : Process) (stream : OpenStream) (a : Allocator) (fuel : ℕ) (memory : ℕ → UInt8)
    (max : ℕ) (heap : Bool) : Prog (Option GetsReply) :=
  if max = 0 then
    return some
      { process := p, stream := stream, block := .ofCaller memory max heap max, ret := .null }
  else if max = 1 then
    -- There is only room for the `NUL`.
    return some
      { process := p, stream := stream, block := (Block.ofCaller memory max heap max).store 0 0
        ret := .dst }
  else do
    let reply ← p.getline stream a fuel (some (.ofCaller memory max heap (max - 1)))
    return reply.map LineReply.gets

/-- With enough rounds, the next bytes up to the end of the line, at most `max - 1`,
are in the buffer of the caller with a `NUL` behind, the buffer is returned, and the
offset has advanced by their number.  `NULL` is returned only if nothing is left. -/
def Gets (p : Process) (stream : OpenStream) (a : Allocator) (c : Cluster) (f : File)
    (bytes : List UInt8) (memory : ℕ → UInt8) (max : ℕ) (heap : Bool) : Prop :=
  ∃ enough, ∀ fuel ≥ enough, ∀ c' outcome,
    Exec (p.fgets stream a fuel memory max heap) c c' outcome →
    let rest := bytes.drop f.file.offset.toNat
    let next := (lineOf (· = 10) rest).take (max - 1)
    ∃ reply, outcome = some (some reply) ∧
      (rest = [] → reply.ret = .null) ∧
      (rest ≠ [] → reply.ret = .dst ∧ reply.block.Holds next) ∧
      reply.process.pdwfs.fdFileMap stream.fileno = some (f.moveTo (f.file.offset + next.length))

/-- Nothing is left; or the line as far as it can be read is what there is room for,
it has no byte `255`, and the buffer need not be extended for it, or it can be where
it is. -/
def Fits (a : Allocator) (f : File) (bytes u : List UInt8) (memory : ℕ → UInt8) (max : ℕ)
    (heap : Bool) : Prop :=
  let rest := bytes.drop f.file.offset.toNat
  let line := lineOf (· = 10) u
  rest = [] ∨ f.access ≠ .writeOnly ∧ line = (lineOf (· = 10) rest).take (max - 1) ∧ 255 ∉ line ∧
    ∃ g ∈ Block.grown a 0 (if 10 ∈ line then line.length - 1 else line.length)
      (.ofCaller memory max heap (max - 1)), g.moved = false

/-- What `fgets` does is the loop on the bytes that can be read, and what it makes
of it. -/
theorem exec_fgets (enough : u.length < fuel) (held : p.pdwfs.fdFileMap stream.fileno = some f)
    (inv : f.file.store.FileInv c f.file.path) (nonneg : 0 ≤ f.file.offset)
    (readable : f.access ≠ .writeOnly) (room : 2 ≤ max)
    (upcoming : f.file.store.Upcoming c f.file.path f.file.offset u)
    {outcome : Option (Option GetsReply)}
    (performed : Exec (p.fgets stream a fuel memory max heap) c c' outcome) :
    outcome = (scan a 10 stream.eofSeen u 0 (.ofCaller memory max heap (max - 1))).map fun r =>
      some (LineReply.gets
        { process := p.setFile stream.fileno (f.moveTo (f.file.offset + r.taken))
          stream := { stream with eofSeen := r.eofSeen }
          block := r.block
          ret := r.ret }) := by
  rw [fgets, if_neg (by omega), if_neg (by omega)] at performed
  obtain ⟨result, reading, rfl⟩ := Program.exec_bind_ret_iff.mp performed
  have first : firstBlock a (some (.ofCaller memory max heap (max - 1))) =
      .ofCaller memory max heap (max - 1) := if_neg (show ¬max - 1 = 0 by omega)
  rw [getline, getdelim, first] at reading
  rw [exec_getdelimLoop enough held inv nonneg readable upcoming reading, Option.map_map]
  rfl

/-- What `fgets` should do is a property of the loop on the bytes that can be read. -/
theorem gets_iff_scan (held : p.pdwfs.fdFileMap stream.fileno = some f)
    (inv : f.file.store.FileInv c f.file.path) (nonneg : 0 ≤ f.file.offset)
    (readable : f.access ≠ .writeOnly) (room : 2 ≤ max)
    (upcoming : f.file.store.Upcoming c f.file.path f.file.offset u) :
    Gets p stream a c f bytes memory max heap ↔
      let rest := bytes.drop f.file.offset.toNat
      let next := (lineOf (· = 10) rest).take (max - 1)
      ∃ r, scan a 10 stream.eofSeen u 0 (.ofCaller memory max heap (max - 1)) = some r ∧
        (rest = [] → r.ret ≤ 0) ∧
        (rest ≠ [] → 0 < r.ret ∧ r.block.moved = false ∧
          (r.block.store r.ret.toNat 0).Holds next) ∧
        r.taken = next.length := by
  constructor
  · rintro ⟨enough, gets⟩
    have performed := Program.exec_run serve
      (p.fgets stream a (Max.max enough (u.length + 1)) memory max heap) c
    obtain ⟨reply, returned, null, some, offset⟩ := gets _ (le_max_left _ _) _ _ performed
    have done := exec_fgets (lt_of_lt_of_le (Nat.lt_succ_self _) (le_max_right _ _)) held inv nonneg
      readable room upcoming performed
    rw [returned, eq_comm, Option.map_eq_some_iff] at done
    obtain ⟨r, scanned, same⟩ := done
    obtain rfl := Option.some.inj same
    refine ⟨r, scanned, fun none => LineReply.ret_gets_eq_null_iff.mp (null none),
      fun left => ?_, ?_⟩
    · obtain ⟨ret, holds⟩ := some left
      obtain ⟨positive, unmoved⟩ := LineReply.ret_gets_eq_dst_iff.mp ret
      rw [LineReply.block_gets positive] at holds
      exact ⟨positive, unmoved, holds⟩
    · rw [LineReply.gets_process, fdFileMap_setFile, Option.some.injEq] at offset
      have advanced := moveTo_inj offset
      omega
  · rintro ⟨r, scanned, null, some, taken⟩
    refine ⟨u.length + 1, fun fuel enough c' outcome performed => ?_⟩
    have done := exec_fgets enough held inv nonneg readable room upcoming performed
    rw [scanned, Option.map_some] at done
    refine ⟨_, done, fun none => LineReply.ret_gets_eq_null_iff.mpr (null none), fun left => ?_, ?_⟩
    · obtain ⟨positive, unmoved, holds⟩ := some left
      refine ⟨LineReply.ret_gets_eq_dst_iff.mpr ⟨positive, unmoved⟩, ?_⟩
      rw [LineReply.block_gets]
      · exact holds
      · exact positive
    · rw [LineReply.gets_process, fdFileMap_setFile, taken]

end Process

namespace Scan

variable {a : Allocator} {eofSeen : Bool} {u rest line next : List UInt8} {first : Block} {r : Scan}

/-- The line that the loop sees is the next line as far as it can be read. -/
theorem lineOf_newline (u : List UInt8) :
    lineOf (fun x => signedChar x = 10) u = lineOf (· = 10) u := by
  congr 1
  funext x
  rw [decide_eq_decide]
  exact (@signedChar_eq_natCast_iff x 10).trans (and_iff_left (by decide))

theorem any_newline (line : List UInt8) :
    (line.any fun x => signedChar x = 10) = decide (10 ∈ line) := by
  rw [Bool.eq_iff_iff, decide_eq_true_eq]
  exact (@any_signedChar_iff 10 line).trans (and_iff_left (by decide))

/-- The loop on a line that ends with a newline, if at all. -/
theorem scan_newline (roomy : first.Roomy 0) (lineEq : line = lineOf (· = 10) u)
    (clear : 255 ∉ line) :
    scan a 10 eofSeen u 0 first =
      (Block.grown a 0 (if 10 ∈ line then line.length - 1 else line.length) first).map
        (ofLine eofSeen (decide (10 ∈ line)) 0 line) := by
  have count : (if 10 ∈ line then line.length - 1 else line.length) =
      line.length - (decide (10 ∈ line)).toNat := by
    split <;> simp_all
  rw [count]
  exact scan_eq roomy (lineEq.trans (lineOf_newline u).symm) (any_newline line).symm clear

theorem getElem?_of_isPrefix {xs ys : List UInt8} (isPrefix : xs <+: ys) {i : ℕ} {x : UInt8}
    (found : xs[i]? = some x) : ys[i]? = some x := by
  obtain ⟨rest, rfl⟩ := isPrefix
  rw [List.getElem?_append_left (List.getElem?_eq_some_iff.mp found).1]
  exact found

/-- If the loop puts the bytes that are wanted where the buffer is, and nothing else
is taken, they are the line that it sees, and the buffer has not been moved for it.
-/
theorem fits_of_scan (roomy : first.Roomy 0) (outside : u <+: rest) (inside : next <+: rest)
    (lineEq : line = lineOf (· = 10) u) (scanned : scan a 10 eofSeen u 0 first = some r)
    (positive : 0 < r.ret) (unmoved : r.block.moved = false)
    (begins : (r.block.store r.ret.toNat 0).Begins next) (taken : r.taken = next.length) :
    line = next ∧ 255 ∉ line ∧
      ∃ g ∈ Block.grown a 0 (if 10 ∈ line then line.length - 1 else line.length) first,
        g.moved = false := by
  have clear : 255 ∉ line := by
    intro marker
    rw [lineEq, ← lineOf_newline] at marker
    obtain ⟨k, found, taken', ret⟩ := of_marker marker scanned
    have returned : r.ret.toNat = k := by omega
    -- The `NUL` is where the byte `255` should be.
    have stored := begins k (by omega)
    rw [returned, Block.store_bytes_self] at stored
    have left := getElem?_of_isPrefix outside found
    rw [getElem?_of_isPrefix inside stored] at left
    exact absurd left (by decide)
  rw [scan_newline roomy lineEq clear] at scanned
  obtain ⟨g, grown, rfl⟩ := Option.map_eq_some_iff.mp scanned
  have within : line <+: rest := lineEq ▸ (lineOf_isPrefix _ u).trans outside
  have same : line = next :=
    (List.prefix_of_prefix_length_le within inside taken.le).eq_of_length taken
  rw [moved_ofLine] at unmoved
  exact ⟨same, clear, g, grown, unmoved⟩

/-- And then it does put the line there. -/
theorem scan_of_fits (roomy : first.Roomy 0) (lineEq : line = lineOf (· = 10) u)
    (positive : 0 < line.length) (clear : 255 ∉ line)
    (unmoved : ∃ g ∈ Block.grown a 0 (if 10 ∈ line then line.length - 1 else line.length) first,
      g.moved = false) :
    ∃ r, scan a 10 eofSeen u 0 first = some r ∧ 0 < r.ret ∧ r.block.moved = false ∧
      (r.block.store r.ret.toNat 0).Holds line ∧ r.taken = line.length := by
  obtain ⟨g, grown, unmoved⟩ := unmoved
  have scanned : scan a 10 eofSeen u 0 first = _ := scan_newline roomy lineEq clear
  rw [Option.mem_def.mp grown, Option.map_some] at scanned
  have ret := @ret_ofLine eofSeen (decide (10 ∈ line)) line g positive
  have begins := (bytes_ofLine eofSeen (decide (10 ∈ line)) line g).1
  refine ⟨_, scanned, ?_, ?_, ⟨?_, ?_⟩, rfl⟩
  · omega
  · rw [moved_ofLine, unmoved]
  · intro i inside
    rw [Block.store_bytes_of_ne (by omega)]
    exact begins i inside
  · rw [ret, Int.toNat_natCast]
    exact Block.store_bytes_self

end Scan

namespace Process

variable {p : Process} {stream : OpenStream} {a : Allocator} {f : File} {c c' : Cluster}
  {bytes u : List UInt8} {memory : ℕ → UInt8} {max : ℕ} {heap : Bool}

/-- The same for a handle that can be read.  Both directions go through the loop on
the line. -/
theorem gets_iff_of_readable (held : p.pdwfs.fdFileMap stream.fileno = some f)
    (inv : f.file.store.FileInv c f.file.path) (has : f.file.store.HasBytes c f.file.path bytes)
    (nonneg : 0 ≤ f.file.offset) (readable : f.access ≠ .writeOnly) (room : 2 ≤ max)
    (upcoming : f.file.store.Upcoming c f.file.path f.file.offset u) :
    Gets p stream a c f bytes memory max heap ↔ Fits a f bytes u memory max heap := by
  rw [gets_iff_scan held inv nonneg readable room upcoming, Fits]
  have outside := upcoming.isPrefix inv has nonneg
  have roomy : (Block.ofCaller memory max heap (max - 1)).Roomy 0 :=
    ⟨show 0 < max - 1 by omega, Nat.sub_le max 1⟩
  simp only
  generalize Block.ofCaller memory max heap (max - 1) = first at roomy ⊢
  generalize bytes.drop f.file.offset.toNat = rest at outside ⊢
  set next := (lineOf (· = 10) rest).take (max - 1) with nextEq
  have inside : next <+: rest := (List.take_prefix _ _).trans (lineOf_isPrefix _ rest)
  by_cases none : rest = []
  · refine iff_of_true ?_ (.inl none)
    obtain rfl : u = [] := List.prefix_nil.mp (none ▸ outside)
    have nothing : next = [] := List.prefix_nil.mp (none ▸ inside)
    refine ⟨_, rfl, fun _ => ?_, fun left => absurd none left, ?_⟩
    · exact show (-1 : ℤ) ≤ 0 by decide
    · rw [nothing]
      rfl
  · simp only [none, false_or, false_implies, true_and, ne_eq, not_false_eq_true, forall_const]
    constructor
    · rintro ⟨r, scanned, ⟨positive, unmoved, holds⟩, taken⟩
      exact ⟨readable, Scan.fits_of_scan roomy outside inside rfl scanned positive unmoved holds.1
        taken⟩
    · rintro ⟨-, same, clear, unmoved⟩
      have positive : 0 < (lineOf (· = 10) u).length := by
        have left : 0 < (lineOf (· = 10) rest).length :=
          List.length_pos_iff.mpr fun empty => none (lineOf_eq_nil_iff.mp empty)
        rw [same, nextEq, List.length_take]
        omega
      obtain ⟨r, scanned, ret, unmoved', holds, taken⟩ :=
        Scan.scan_of_fits roomy rfl positive clear unmoved
      rw [same] at holds taken
      exact ⟨r, scanned, ⟨ret, unmoved', holds⟩, taken⟩

/-- **When `fgets` is right**: for every content and offset and every buffer of at
least two bytes.  The bytes `upcoming` are those that can be read one by one from
the offset on, and every content and offset has such bytes.  The fuel is no
restriction, since enough of it can always be given. -/
theorem gets_iff (held : p.pdwfs.fdFileMap stream.fileno = some f)
    (inv : f.file.store.FileInv c f.file.path) (has : f.file.store.HasBytes c f.file.path bytes)
    (nonneg : 0 ≤ f.file.offset) (room : 2 ≤ max)
    (upcoming : f.file.store.Upcoming c f.file.path f.file.offset u) :
    Gets p stream a c f bytes memory max heap ↔ Fits a f bytes u memory max heap := by
  by_cases disabled : f.access = .writeOnly
  · have unread : Fits a f bytes u memory max heap ↔ bytes.drop f.file.offset.toNat = [] := by
      simp [Fits, disabled]
    have answer : ∀ {fuel : ℕ} {c' : Cluster} {outcome : Option (Option GetsReply)}, 0 < fuel →
        Exec (p.fgets stream a fuel memory max heap) c c' outcome → ∃ reply,
          outcome = some (some reply) ∧ reply.ret = .null ∧
            reply.process.pdwfs.fdFileMap stream.fileno = some f := by
      intro fuel c' outcome positive performed
      rw [fgets, if_neg (by omega), if_neg (by omega)] at performed
      obtain ⟨result, reading, rfl⟩ := Program.exec_bind_ret_iff.mp performed
      rw [exec_getdelim_of_writeOnly positive held disabled reading]
      exact ⟨_, rfl, rfl, fdFileMap_setFile _ _ _⟩
    rw [unread]
    constructor
    · rintro ⟨enough, gets⟩
      have performed := Program.exec_run serve
        (p.fgets stream a (Max.max enough 1) memory max heap) c
      obtain ⟨reply, returned, -, some, -⟩ := gets _ (le_max_left _ _) _ _ performed
      obtain ⟨reply', returned', null, -⟩ := answer (by omega) performed
      obtain rfl := Option.some.inj (Option.some.inj (returned.symm.trans returned'))
      by_contra left
      rw [null] at some
      exact absurd (some left).1 (by decide)
    · intro none
      refine ⟨1, fun fuel positive c' outcome performed => ?_⟩
      obtain ⟨reply, rfl, null, same⟩ := answer positive performed
      refine ⟨reply, rfl, fun _ => null, absurd none, ?_⟩
      rw [same, none]
      simp [lineOf, File.moveTo]
  · exact gets_iff_of_readable held inv has nonneg disabled room upcoming

end Process

/-! ## A small file -/

/-- Three bytes, for a buffer of seven bytes on the stack. -/
theorem gets_three : Process.Gets smallStore.process smallStore.stream .dirty
    (smallStore.written [1, 2, 3]) smallStore.file [1, 2, 3] (fun _ => 7) 7 false := by
  obtain ⟨inv, has⟩ := smallStore.hasBytes_written [1, 2, 3]
  exact (Process.gets_iff rfl inv has le_rfl (by decide) smallStore.upcoming_three).mpr
    (.inr ⟨by decide, by decide, by decide, _, rfl, rfl⟩)

/-- A buffer of four bytes on the stack is handed to `realloc`; one of two bytes on the heap is
filled with all three bytes. -/
theorem not_gets_three : ¬Process.Gets smallStore.process smallStore.stream .dirty
      (smallStore.written [1, 2, 3]) smallStore.file [1, 2, 3] (fun _ => 7) 4 false ∧
    ¬Process.Gets smallStore.process smallStore.stream .dirty
      (smallStore.written [1, 2, 3]) smallStore.file [1, 2, 3] (fun _ => 7) 2 true := by
  obtain ⟨inv, -⟩ := smallStore.hasBytes_written [1, 2, 3]
  constructor
  · rw [Process.gets_iff_scan rfl inv le_rfl (by decide) (by decide) smallStore.upcoming_three]
    rintro ⟨r, scanned, -⟩
    have aborted :
        (scan .dirty 10 false [1, 2, 3] 0 (.ofCaller (fun _ => 7) 4 false 3)).isNone := by decide
    rw [show scan .dirty 10 false [1, 2, 3] 0 (.ofCaller (fun _ => 7) 4 false 3) = some r
      from scanned] at aborted
    simp at aborted
  · rw [Process.gets_iff_scan rfl inv le_rfl (by decide) (by decide) smallStore.upcoming_three]
    rintro ⟨r, scanned, -, -, taken⟩
    have whole : (scan .dirty 10 false [1, 2, 3] 0 (.ofCaller (fun _ => 7) 2 true 1)).map
        (·.taken) = some 3 := by decide
    rw [show scan .dirty 10 false [1, 2, 3] 0 (.ofCaller (fun _ => 7) 2 true 1) = some r
      from scanned, Option.map_some, taken] at whole
    exact absurd whole (by decide)

end Pdwfs
