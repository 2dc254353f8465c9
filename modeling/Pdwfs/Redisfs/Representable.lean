import Pdwfs.Redisfs.Ranges

/-!
# Calls on stores below the end of the range

What has been proved of the calls over the integers, for the 64-bit calls and the stores that
these reach.

A 64-bit call that stays below the end of the range sends the requests of the call over the
integers and returns what that one returns (`exec_readAt_iff`, `exec_resize_iff`,
`exec_getSize_iff_of_range`), so each theorem here is the theorem of another module and a bound
from `RangeInv`.  The bound is needed: at the end of the range `GetSize` is negative, and a write
that passes it begins in a stripe with a negative number.

* `readsWhole_iff_stored` — when a read is right on a file with gaps.
* `AddsBelow`, `getSize_within` — the size of a file that is being written.
* `Sequence`, `accounted_of_calls` — the keys that a sequence of calls leaves.
-/

namespace Pdwfs

open Concurrency Redis Striping Wrapping

namespace Wrapped

variable {s : DataStore} {name : GoString} {c c' : Cluster} {off : ℤ} {dst : List UInt8}

/-! ## Reading files with gaps -/

/-- The read delivers the bytes of a file of `size` bytes, and the file handle reports its end
exactly when not all of the buffer is filled. -/
structure ReadsWhole (s : DataStore) (c : Cluster) (name : GoString) (off : ℤ) (dst : List UInt8)
    (size : ℤ) : Prop where
  dataStore : ∀ c' outcome, Exec (readAt s name off dst) c c' outcome →
    ∃ n dst', outcome = some (n, dst') ∧ DataStore.ReadsTo s c name off dst size n dst'
  memFile : ∀ offset c' outcome, Exec (MemFile.readAt ⟨s, name, offset⟩ dst off) c c' outcome →
    ∃ n dst' err, outcome = some (n, dst', err) ∧
      DataStore.ReadsTo s c name off dst size n dst' ∧ (err = some .eof ↔ n < dst.length)

/-- **When a read is right on a file with gaps.**  Below the end of the range, and
in a range that touches at most 100 stripes, it is so exactly when there is no gap
in the part of the file that is read.  Where there is a gap, nothing is copied into
the buffer and nothing is counted, so that the number returned is too small, and the
bytes of the buffer at the gap are those it came with instead of zeros.  The 64-bit
calls agree with those over the integers here, and for the latter it is a theorem
already. -/
theorem readsWhole_iff_stored (inRange : InRange s.stripeSize) (reached : Reachable s c)
    (nonneg : 0 ≤ off) (inside : off + dst.length < 2 ^ 63)
    (few : touchedStripes s.stripeSize off dst.length ≤ 100) {size : ℤ}
    (sized : Exec (getSize s name) c c (some size)) :
    ReadsWhole s c name off dst size ↔
      ∀ p, off ≤ p → p < off + dst.length → p < size → s.Stores c name p := by
  have range := reached.rangeInv inRange
  have inv := range.inv name
  obtain ⟨-, n, same, isSize⟩ := (exec_getSize_iff_of_range range).mp sized
  obtain rfl := Option.some.inj same
  rw [← DataStore.readsWhole_iff inv nonneg few (DataStore.exec_getSize_of_isSize inv isSize)]
  have reads : ∀ {c' : Cluster} {outcome : Option (ℤ × List UInt8)},
      Exec (readAt s name off dst) c c' outcome ↔ Exec (s.readAt name off dst) c c' outcome :=
    exec_readAt_iff inv inRange nonneg inside few
  have opened : ∀ {offset : ℤ} {c' : Cluster} {outcome : Option Pdwfs.MemFile.ReadResult},
      Exec (MemFile.readAt ⟨s, name, offset⟩ dst off) c c' outcome ↔
        Exec (Pdwfs.MemFile.readAt ⟨s, name, offset⟩ dst off) c c' outcome := by
    intro offset c' outcome
    exact MemFile.exec_readAt_iff inv inRange nonneg inside few
  constructor
  · exact fun whole =>
      ⟨fun c' outcome performed => whole.dataStore c' outcome (reads.mpr performed),
      fun offset c' outcome performed => whole.memFile offset c' outcome (opened.mpr performed)⟩
  · exact fun whole => ⟨fun c' outcome performed => whole.1 c' outcome (reads.mp performed),
      fun offset c' outcome performed => whole.2 offset c' outcome (opened.mp performed)⟩

/-- What the small store holds after a write at the start of the file, and another one past its
end. -/
def gapFile : Cluster := afterWrite 5 [1] (afterWrite 0 [1])

theorem quiet_gapFile : Quiet (smallStore 2) (FileCall.Below 2) gapFile :=
  ((quiet_empty _ _).run (.writeAt ['f'] 0 [1] (by decide) (by decide)) (by decide)).run
    (.writeAt ['f'] 5 [1] (by decide) (by decide)) (by decide)

/-- The gap counts as much as what is behind it. -/
theorem getSize_gapFile :
    Exec (getSize (smallStore 2) ['f']) gapFile gapFile (some 6) := by
  have inRange : InRange (smallStore 2).stripeSize := by decide
  have range := quiet_gapFile.reachable.rangeInv inRange
  obtain ⟨-, n, returned, isSize⟩ :=
    (exec_getSize_iff_of_range range).mp (Program.exec_run serve _ gapFile)
  have six : (Program.run serve (getSize (smallStore 2) ['f']) gapFile).2 = some 6 := by decide
  rw [returned] at six
  exact (exec_getSize_iff_of_range range).mpr ⟨rfl, n, six.symm, isSize⟩

/-- A gap is not read as zeros: the six bytes of the file are read as three. -/
theorem not_readsWhole_gap : Reachable (smallStore 2) gapFile ∧
    Exec (getSize (smallStore 2) ['f']) gapFile gapFile (some 6) ∧ touchedStripes 2 0 6 ≤ 100 ∧
    ¬ReadsWhole (smallStore 2) gapFile ['f'] 0 (List.replicate 6 255) 6 := by
  refine ⟨quiet_gapFile.reachable, getSize_gapFile, by decide, fun whole => ?_⟩
  obtain ⟨n, dst', result, reads⟩ := whole.dataStore _ _ (Program.exec_run serve _ gapFile)
  have computed : (Program.run serve (readAt (smallStore 2) ['f'] 0 (List.replicate 6 255))
      gapFile).2.map Prod.fst = some 3 := by decide +kernel
  rw [result] at computed
  have three : n = 3 := by simpa using computed
  have six := reads.count_eq
  simp only [List.length_replicate] at six
  omega

/-- Up to the gap the read is right. -/
theorem readsWhole_beforeGap : ReadsWhole (smallStore 2) gapFile ['f'] 0 [255] 6 := by
  have inRange : InRange (smallStore 2).stripeSize := by decide
  refine (readsWhole_iff_stored inRange quiet_gapFile.reachable le_rfl (by decide) (by decide)
    getSize_gapFile).mpr fun p lower upper _ => ?_
  obtain rfl : p = 0 := by
    simp only [List.length_cons, List.length_nil] at upper
    omega
  decide

/-! ## The size of a file that is being written -/

/-- A request that a `WriteAt` below the end of the range issues, or one that writes
no key of the file.  Clients that issue nothing else only add to the file. -/
inductive AddsBelow (s : DataStore) (name : GoString) : Request → Prop
  | write {piece : StripeInfo} (writable : DataStore.Writable s piece)
      (ends : piece.stop s.stripeSize < 2 ^ 63) : AddsBelow s name (s.writeStripe name piece)
  | other {q : Request} (stripes : ∀ id, key name id ∉ q.writes)
      (ids : stripesKey name ∉ q.writes) : AddsBelow s name q

theorem AddsBelow.adds {q : Request} (adds : AddsBelow s name q) : s.Adds name q := by
  cases adds with
  | write writable ends => exact .write writable
  | other stripes ids => exact .other stripes ids

/-- One request of that kind. -/
theorem AddsBelow.below {q : Request} (adds : AddsBelow s name q) (inv : s.FileInv c name)
    (below : s.Below c name) : s.Below (serve q c).1 name := by
  cases adds with
  | write writable ends => exact below.writeStripe inv writable ends
  | other stripes ids =>
      have same : s.stripe (serve q c).1 name = s.stripe c name := by
        funext id
        exact stringAt_congr (serve_of_not_mem_writes (stripes id) c _)
      rw [DataStore.Below, same]
      exact below

theorem addsBelow_of_readOnly {q : Request} (readOnly : q.writes = []) : AddsBelow s name q :=
  .other (by simp [readOnly]) (by simp [readOnly])

/-- The requests of `WriteAt`. -/
theorem addsBelow_writeAt (inRange : InRange s.stripeSize) (nonneg : 0 ≤ off) {data : List UInt8}
    (below : off + data.length < 2 ^ 63) :
    Program.Issues (AddsBelow s name) (writeAt s name off data) := by
  obtain ⟨pieces, items, tiles, layout, padded⟩ :=
    stripeLayout_spec s.policy s.stripeSize_pos nonneg data
  rw [writeAt, stripeLayout_eq s.stripeSize_pos inRange nonneg (by omega)
    (last_lt s.stripeSize_pos below), layout]
  refine (Program.issues_forkAll fun q member => ?_).bind fun replies => ?_
  · obtain ⟨stripe, inLayout, rfl⟩ := List.mem_map.mp member
    exact .write (DataStore.writable_of_layout nonneg tiles padded inLayout)
      ((DataStore.stop_le_of_layout nonneg tiles padded inLayout).trans_lt below)
  · unfold checkFlush
    split <;> trivial

section Growth

variable {ι : Type} [DecidableEq ι] {start final : Pool ι Request ConnReply ℤ Cluster}
  {labels : List (ι × Request × ConnReply)} {i : ι}

/-- The requests of `GetSize` do not write. -/
theorem addsBelow_getSize (s : DataStore) (name : GoString) :
    Program.Issues (AddsBelow s name) (getSize s name) := by
  rw [getSize_eq]
  refine Program.Issues.bind ?_ fun _ => trivial
  have search : Program.Issues (AddsBelow s name) (s.searchLastStripe name) := by
    refine (Program.issues_forkAll fun q member => ?_).bind fun replies => ?_
    · obtain ⟨client, -, rfl⟩ := List.mem_map.mp member
      exact addsBelow_of_readOnly rfl
    · split <;> trivial
  refine search.bind fun ilast => ?_
  split
  · trivial
  · refine Program.Issues.bind ?_ fun _ => trivial
    rw [RedisClient.strlen, RedisClient.send]
    refine (Program.issues_request (addsBelow_of_readOnly rfl)).bind fun reply => ?_
    split <;> trivial

/-- **The size while others write.**  From a store that is reached, one client asks
for the size of a file while the others write it, in any number of `WriteAt` calls
that end below the range.  It gets an answer, which is between the size when it
starts and the size when it ends.  The answer is put together from requests at
different times: the numbers of the stripes are asked for on each instance, and the
length of the last one afterwards.  What has been found stays, since the others only
add; so the answer is at least the size at the start, and it is at most the size at
the end. -/
theorem getSize_within (inRange : InRange s.stripeSize) (reached : Reachable s start.store)
    (calling : start.threads i = getSize s name)
    (writing : ∀ j ≠ i, Program.Issues (AddsBelow s name) (start.threads j))
    (run : Pool.Run serve start labels final) (finished : (final.threads i).Stopped) :
    ∃ n low high, final.threads i = .ret n ∧
      IsSize s.stripeSize (s.stripe start.store name) low ∧
      IsSize s.stripeSize (s.stripe final.store name) high ∧ low ≤ n ∧ n ≤ high := by
  have range := reached.rangeInv inRange
  have inv := range.inv name
  have all : ∀ j, Program.Issues (AddsBelow s name) (start.threads j) := by
    intro j
    by_cases same : j = i
    · rw [same, calling]
      exact addsBelow_getSize s name
    · exact writing j same
  obtain ⟨inv', between⟩ :=
    DataStore.between_of_run inv (fun j => (all j).mono fun q adds => adds.adds) run
  -- The file is below the end of the range all the time.
  have below' : s.Below final.store name := by
    refine (run.preserved (fun d => s.FileInv d name ∧ s.Below d name)
      (fun label member d holds => ?_) ⟨inv, range.below name⟩).2
    have adds := run.issued (fun _ => AddsBelow s name) all label member
    exact ⟨(adds.adds.grows holds.1).1, adds.below holds.1 holds.2⟩
  obtain ⟨low, isLow⟩ := inv.exists_isSize
  obtain ⟨high, isHigh⟩ := inv'.exists_isSize
  have trace := run.trace i
  rw [calling, getSize_eq] at trace
  have : Nonempty ConnReply := ⟨.protocolError⟩
  rcases trace.of_bind finished with ⟨m, first, rest, split, sized, wrapped⟩ | ⟨aborted, -⟩
  · obtain ⟨m', same, lower, upper⟩ := DataStore.getSize_of_trace inv inv' sized
      (Program.stopped_ret m) (fun entry member => between _
        (Pool.mem_of_mem_own (split ▸ List.mem_append_left rest member))) isLow isHigh
    obtain rfl := Program.ret.inj same
    have nonneg := isLow.nonneg inv.wellFormed
    have small := below'.size_lt isHigh
    rw [wrap_of_nonneg (by omega) (by omega)] at wrapped
    exact ⟨m, low, high, wrapped.of_ret.2, isLow, isHigh, lower, upper⟩
  · obtain ⟨m, same, -⟩ := DataStore.getSize_of_trace inv inv' aborted Program.stopped_panic
      (fun entry member => between _ (Pool.mem_of_mem_own member)) isLow isHigh
    cases same

end Growth

/-- Two clients: one of them asks for the size of the file while the other writes to
it. -/
def writeAndAsk (off : ℤ) (data : List UInt8) (c : Cluster) :
    Pool Bool Request ConnReply ℤ Cluster :=
  ⟨c, fun i => if i then getSize (smallStore 2) ['f']
    else writeAt (smallStore 2) ['f'] off data >>= fun _ => .ret 0⟩

/-- Two bytes are written behind three others: the size that is told is not below three. -/
theorem getSize_within_writeBehind : ∃ c final n, Quiet (smallStore 2) (FileCall.Below 2) c ∧
    IsSize 2 ((smallStore 2).stripe c ['f']) 3 ∧
    (∃ labels, Pool.Run serve (writeAndAsk 3 [4, 5] c) labels final) ∧
    final.threads true = .ret n ∧ 3 ≤ n := by
  obtain ⟨c, quiet, three⟩ : ∃ c, Quiet (smallStore 2) (FileCall.Below 2) c ∧
      (Program.run serve (getSize (smallStore 2) ['f']) c).2 = some 3 :=
    ⟨afterWrite 0 [1, 2, 3], (quiet_empty _ _).run
      (.writeAt ['f'] 0 [1, 2, 3] (by decide) (by decide)) (by decide), by decide +kernel⟩
  obtain ⟨labels, final, run, finished⟩ := Pool.exists_run serve (writeAndAsk 3 [4, 5] c)
  have inRange : InRange (smallStore 2).stripeSize := by decide
  have issues : ∀ j ≠ true,
      Program.Issues (AddsBelow (smallStore 2) ['f']) ((writeAndAsk 3 [4, 5] c).threads j) := by
    intro j other
    obtain rfl : j = false := by simpa using other
    exact (addsBelow_writeAt inRange (by decide) (by decide)).bind fun _ => trivial
  obtain ⟨n, low, high, returned, isLow, -, lower, -⟩ :=
    getSize_within inRange quiet.reachable rfl issues run (finished true)
  obtain ⟨-, m, sized, isSize⟩ := (exec_getSize_iff_of_range
    (quiet.reachable.rangeInv inRange)).mp (Program.exec_run serve _ c)
  rw [sized] at three
  obtain rfl := Option.some.inj three
  exact ⟨c, final, n, quiet, isSize, ⟨labels, run⟩, returned,
    (isSize.unique isLow).trans_le lower⟩

/-- The last bytes of the range are written to a file of one byte: when they are stored the size
that is told is negative. -/
theorem not_getSize_within_lastBytes : ∃ c labels final,
    Reachable (smallStore 2) c ∧
    Pool.Run serve (writeAndAsk (2 ^ 63 - 2) [1, 2] c) labels final ∧
    (final.threads true).Stopped ∧
    ¬∃ n low high, final.threads true = .ret n ∧
      IsSize 2 ((smallStore 2).stripe c ['f']) low ∧
      IsSize 2 ((smallStore 2).stripe final.store ['f']) high ∧ low ≤ n ∧ n ≤ high := by
  obtain ⟨c, quiet, negative⟩ : ∃ c, Quiet (smallStore 2) (FileCall.Below 2) c ∧
      (Program.run serve (getSize (smallStore 2) ['f']) (Program.run serve
        ((writeAndAsk (2 ^ 63 - 2) [1, 2] c).threads false) c).1).2 = some (-2 ^ 63) :=
    ⟨afterWrite 0 [1], (quiet_empty _ _).run (.writeAt ['f'] 0 [1] (by decide) (by decide))
      (by decide), by decide +kernel⟩
  have inRange : InRange (smallStore 2).stripeSize := by decide
  -- First the write, then the one that asks.
  obtain ⟨first, written, run, -, -⟩ := Pool.exists_run_of_exec
    (Program.exec_run serve ((writeAndAsk (2 ^ 63 - 2) [1, 2] c).threads false) c)
  obtain ⟨rest, sized, run', stopped, returned⟩ := @Pool.exists_run_of_exec _ _ _ _ _ _ serve true
    _ _ ⟨(Program.run serve ((writeAndAsk (2 ^ 63 - 2) [1, 2] c).threads false) c).1,
      Function.update (writeAndAsk (2 ^ 63 - 2) [1, 2] c).threads false written⟩
    (Program.exec_run serve (getSize (smallStore 2) ['f']) _)
  refine ⟨c, first ++ rest, _, quiet.reachable, run.trans run', ?_, ?_⟩
  · simpa using stopped
  · rintro ⟨n, low, high, answered, isLow, -, lower, -⟩
    have last : sized = .ret (-2 ^ 63) := returned _ negative
    simp only [Function.update_self, last] at answered
    obtain rfl := Program.ret.inj answered
    have nonneg := isLow.nonneg ((quiet.reachable.rangeInv inRange).inv ['f']).wellFormed
    omega

/-! ## Sequences of calls -/

/-- One call. -/
def perform (s : DataStore) (name : GoString) : FileCall → Prog FileReturn
  | .writeAt off data => do
      writeAt s name off data
      return .done
  | .readAt off dst => do
      let (n, dst) ← readAt s name off dst
      return .read n dst
  | .getSize => do
      let n ← getSize s name
      return .size n
  | .resize newSize => do
      resize s name newSize
      return .done
  | .remove => do
      s.remove name
      return .done

/-- The states reached from the empty store by calls on the file, each of which is
allowed in the state it is made in.  A call may also be aborted. -/
inductive Sequence (s : DataStore) (name : GoString) (allowed : Cluster → FileCall → Prop) :
    Cluster → Prop
  | empty : Sequence s name allowed fun _ _ => none
  | call {c c' : Cluster} {call : FileCall} {result : Option FileReturn}
      (before : Sequence s name allowed c) (valid : call.Valid) (accepted : allowed c call)
      (performed : Exec (perform s name call) c c' result) : Sequence s name allowed c'

/-- A resize is the one over the integers. -/
theorem exec_resize_iff (inRange : InRange s.stripeSize) (range : s.RangeInv c) {newSize : ℤ}
    (nonneg : 0 ≤ newSize) (small : newSize < 2 ^ 63) {outcome : Option Unit} :
    Exec (resize s name newSize) c c' outcome ↔ Exec (s.resize name newSize) c c' outcome := by
  have inv := range.inv name
  obtain ⟨size, isSize⟩ := inv.exists_isSize
  have sizeNonneg := isSize.nonneg inv.wellFormed
  have sizeSmall := (range.below name).size_lt isSize
  have rest : Exec (resizeFrom s name newSize size) c c' outcome ↔
      Exec (s.resize name newSize) c c' outcome := by
    rw [DataStore.exec_resize_iff inv isSize nonneg,
      resizeFrom_eq s name inRange sizeNonneg sizeSmall nonneg small]
    split
    · exact Iff.rfl
    · split
      · rw [Exec, Exec, Program.exec_forkAll_map_bind_iff, Program.exec_forkAll_map_bind_iff]
        simp only [checkFlush_runAll]
      · exact Iff.rfl
  rw [← rest, resize, if_neg (by omega), Exec, Program.exec_bind_iff]
  constructor
  · rintro (⟨n, middle, sized, later⟩ | ⟨aborted, -⟩)
    · obtain ⟨rfl, n', same, isSize'⟩ := (exec_getSize_iff_of_range range).mp sized
      obtain rfl := Option.some.inj same
      rwa [isSize'.unique isSize] at later
    · obtain ⟨-, n, same, -⟩ := (exec_getSize_iff_of_range range).mp aborted
      cases same
  · exact fun later =>
      .inl ⟨size, c, (exec_getSize_iff_of_range range).mpr ⟨rfl, size, rfl, isSize⟩, later⟩

/-- A read does not write. -/
theorem issues_readAt (s : DataStore) (name : GoString) (off : ℤ) (dst : List UInt8) :
    Program.Issues (fun q => q.writes = []) (readAt s name off dst) := by
  unfold readAt
  split
  · trivial
  · refine (Program.issues_forkAll fun q member => ?_).bind fun replies => ?_
    · obtain ⟨stripe, -, rfl⟩ := List.mem_map.mp member
      exact s.writes_readStripe name stripe
    · split <;> trivial

theorem eq_of_reads {α : Type} {program : Prog α} {outcome : Option α}
    (reads : Program.Issues (fun q => q.writes = []) program)
    (performed : Exec program c c' outcome) : c' = c := by
  have kept : Program.Issues (fun q => ∀ d, d = c → (serve q d).1 = c) program :=
    reads.mono fun q readOnly d same => by rw [serve_readOnly readOnly, same]
  exact kept.preserved rfl performed

/-- A call that stays below the end of the range leaves what the call over the integers may
leave. -/
theorem exec_perform (inRange : InRange s.stripeSize) (range : s.RangeInv c) {call : FileCall}
    (valid : call.Valid) (below : call.Below s.stripeSize) {result : Option FileReturn}
    (performed : Exec (perform s name call) c c' result) :
    ∃ result', Exec (s.perform name call) c c' result' := by
  cases call with
  | writeAt off data =>
      obtain ⟨outcome, wrote, -⟩ := Program.exec_bind_ret_iff.mp performed
      have nonneg : 0 ≤ off := valid
      have ends : off + data.length < 2 ^ 63 := below
      exact ⟨_, Program.exec_bind_ret_iff.mpr ⟨outcome, exec_writeAt inRange nonneg (by omega)
        (last_lt s.stripeSize_pos ends) wrote, rfl⟩⟩
  | readAt off dst =>
      obtain ⟨outcome, read, -⟩ := Program.exec_bind_ret_iff.mp performed
      obtain rfl := eq_of_reads (issues_readAt s name off dst) read
      have reading := Program.exec_run serve (s.readAt name off dst) c'
      rw [eq_of_reads DataStore.issues_readAt reading] at reading
      exact ⟨_, Program.exec_bind_ret_iff.mpr ⟨_, reading, rfl⟩⟩
  | getSize =>
      obtain ⟨outcome, sized, -⟩ := Program.exec_bind_ret_iff.mp performed
      exact ⟨_, Program.exec_bind_ret_iff.mpr ⟨outcome, (DataStore.exec_getSize_iff
        (range.inv name)).mpr ((exec_getSize_iff_of_range range).mp sized), rfl⟩⟩
  | resize newSize =>
      obtain ⟨outcome, resized, -⟩ := Program.exec_bind_ret_iff.mp performed
      exact ⟨_, Program.exec_bind_ret_iff.mpr ⟨outcome, (exec_resize_iff inRange range valid
        (lt_of_lastStripe s.stripeSize_pos below)).mp resized, rfl⟩⟩
  | remove => exact ⟨result, performed⟩

/-- A call on the file keeps all files below the end of the range. -/
theorem safe_perform (inRange : InRange s.stripeSize) {call : FileCall} (valid : call.Valid)
    (below : call.Below s.stripeSize) :
    Program.Safe serve s.RangeInv True (fun _ => True) (perform s name call) := by
  cases call with
  | writeAt off data =>
      exact ((safe_writeAt inRange valid below).mono (fun _ => trivial) fun _ => id).bind
        fun _ _ => trivial
  | readAt off dst =>
      have reads : Program.Issues (fun q => ∀ c, s.RangeInv c → s.RangeInv (serve q c).1)
          (readAt s name off dst) :=
        (issues_readAt s name off dst).mono fun q readOnly c range => by
          rwa [serve_readOnly readOnly]
      exact reads.safe.bind fun _ _ => trivial
  | getSize =>
      exact ((safe_getSize s name).mono (fun _ => trivial) fun _ => id).bind fun _ _ => trivial
  | resize newSize => exact (safe_resize inRange below).bind fun _ _ => trivial
  | remove =>
      exact ((DataStore.safe_remove_of_range s name).mono (fun _ => trivial) fun _ => id).bind
        fun _ _ => trivial

/-- What a sequence of calls keeps: nothing passes the end of the range, and the keys are
accounted for. -/
theorem tight_of_sequence (inRange : InRange s.stripeSize)
    (reached : Sequence s name
      (fun c call => call.Below s.stripeSize ∧ s.Accountable name c call) c) :
    s.RangeInv c ∧ s.Tight c name := by
  induction reached with
  | empty => exact ⟨DataStore.rangeInv_empty s, DataStore.tight_empty s name⟩
  | call before valid accepted performed ih =>
      obtain ⟨range, tight⟩ := ih
      obtain ⟨result, overIntegers⟩ := exec_perform inRange range valid accepted.1 performed
      exact ⟨((safe_perform inRange valid accepted.1).preserved range performed).1,
        tight.perform valid accepted.2 overIntegers⟩

/-- **Keys are accounted for** in every state that calls reach which stay below the
end of the range, do not cut inside of a gap or to zero, and do not write more than
100 stripes behind a missing first one.  When the file is removed then, none of its
keys is left.  The invariant is `Tight`, and a step of the sequence is a call of
either kind of arithmetic: below the end of the range they leave the same. -/
theorem accounted_of_calls (inRange : InRange s.stripeSize)
    (reached : Sequence s name
      (fun c call => call.Below s.stripeSize ∧ s.Accountable name c call) c) :
    s.Accounted c name ∧
      ∀ c' outcome, Exec (s.remove name) c c' outcome → DataStore.Gone c' name := by
  obtain ⟨-, tight⟩ := tight_of_sequence inRange reached
  refine ⟨tight.accounted, fun c' outcome removed => ?_⟩
  obtain ⟨-, stripes, ids⟩ := DataStore.empty_of_exec_remove tight.inv removed
  exact (tight.exec_remove removed).gone stripes ids

/-- The next call, by its run that serves the goroutines in order. -/
theorem Sequence.run {allowed : Cluster → FileCall → Prop} (before : Sequence s name allowed c)
    (call : FileCall) (valid : call.Valid) (accepted : allowed c call) :
    Sequence s name allowed (Pdwfs.run (perform s name call) c).1 :=
  .call before valid accepted (Program.exec_run serve _ _)

/-- Three bytes, written by a call on the file. -/
def threeBytes : Cluster :=
  (run (perform (smallStore 2) ['f'] (.writeAt 0 [1, 2, 3])) fun _ _ => none).1

/-- Three bytes, cut to two. -/
theorem accounted_afterCut :
    (smallStore 2).Accounted (run (perform (smallStore 2) ['f'] (.resize 2)) threeBytes).1
      ['f'] := by
  have inRange : InRange (smallStore 2).stripeSize := by decide
  have written : Sequence (smallStore 2) ['f'] (fun c call => call.Below (smallStore 2).stripeSize ∧
      (smallStore 2).Accountable ['f'] c call) threeBytes :=
    Sequence.empty.run (.writeAt 0 [1, 2, 3]) (show (0 : ℤ) ≤ 0 by decide)
      ⟨by decide, .inl (by decide)⟩
  have cut := written.run (.resize 2) (show (0 : ℤ) ≤ 2 by decide)
    ⟨by decide, fun _ => ⟨by decide, by decide +kernel⟩⟩
  exact (accounted_of_calls inRange cut).1

/-- Three bytes, cut to zero, leave the key of the stripe `-1`, which the removal of the
file does not find. -/
theorem not_accounted_cutToZero : ∃ c c' : Cluster,
    Sequence (smallStore 2) ['f'] (fun _ _ => True) c ∧ ¬(smallStore 2).Accounted c ['f'] ∧
      (∃ outcome, Exec ((smallStore 2).remove ['f']) c c' outcome) ∧
      ¬DataStore.Gone c' ['f'] := by
  have written : Sequence (smallStore 2) ['f'] (fun _ _ => True) threeBytes :=
    Sequence.empty.run (.writeAt 0 [1, 2, 3]) (show (0 : ℤ) ≤ 0 by decide) trivial
  have cut := written.run (.resize 0) (show (0 : ℤ) ≤ 0 by decide) trivial
  refine ⟨_, _, cut, fun accounted => ?_, ⟨_, Program.exec_run serve _ _⟩, fun gone => ?_⟩
  · exact absurd ((accounted.key_iff ['a'] (-1)).mp (by decide +kernel)) (by decide +kernel)
  · exact absurd (gone.stripe ['a'] (-1)) (by decide +kernel)

end Wrapped

end Pdwfs
