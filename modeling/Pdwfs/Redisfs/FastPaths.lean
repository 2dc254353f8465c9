import Pdwfs.Redisfs.Observations
import Pdwfs.Redisfs.Reads

/-!
# Whole stripes

A whole stripe is written by `SET` and read by `GET`, any other piece by `SETRANGE`
and `GETRANGE`.  The two ways agree because no stripe is longer than the stripe
size, in no store that clients can reach.

* `writeStripeByRange`, `readStripeByRange` — the general ways.
* `safe_readAt` — a read does not abort, whatever stores answer its requests.
* `wholeStripes_of_configuration` — the bound and what follows from it.

The bound is what the fast paths rest on, in both directions.  `SET` replaces a
string, and `SETRANGE` would leave what is behind the data; there is nothing behind
a whole stripe.  `GET` returns all of a string, into a buffer that is as long as a
stripe; a string that is longer would be a protocol error, and an abort of the
goroutine.

For a missing key the two ways are answered differently, by the null reply and by an
empty string, but what a read makes of the answer is the same.  So the reads are
compared by what they put into the buffer and count, and not by their replies.
-/

namespace Pdwfs

open Concurrency Redis Striping

namespace DataStore

variable {s : DataStore} {c : Cluster} {name : GoString} {off : ℤ} {dst : List UInt8}

variable (s name) in
/-- `writeStripe` without its fast path. -/
def writeStripeByRange (stripe : StripeInfo) : Request where
  addr := s.addr name stripe.id
  body := .multi [
    .sadd (stripesKey name) (formatInt stripe.id),
    .setrange (key name stripe.id) stripe.off stripe.data.bytes]

variable (s name) in
/-- `readStripe` without its fast path. -/
def readStripeByRange (stripe : StripeInfo) : Request where
  addr := s.addr name stripe.id
  body := .single (.getrange (key name stripe.id) stripe.off
    (stripe.off + stripe.data.bytes.length - 1))
  dst := stripe.data

/-- The two ways to write leave the same. -/
theorem FileInv.serve_writeStripe (inv : s.FileInv c name) (piece : StripeInfo) :
    (serve (s.writeStripe name piece) c).1 = (serve (s.writeStripeByRange name piece) c).1 := by
  by_cases whole : piece.off = 0 ∧ (piece.data.bytes.length : ℤ) = s.stripeSize
  · set db := (exec (.sadd (stripesKey name) (formatInt piece.id)) (c (s.addr name piece.id))).1
      with registered
    have untouched : db (key name piece.id) = c (s.addr name piece.id) (key name piece.id) :=
      exec_of_not_mem_writes (by simpa [Cmd.writes] using key_ne_stripesKey name name piece.id)
    have typed : strAt? db (key name piece.id) = some (s.stripe c name piece.id) := by
      rw [strAt?, untouched]
      exact inv.noSet piece.id
    have fits := inv.length_le piece.id
    have positive := s.stripeSize_pos
    have nonempty : piece.data.bytes ≠ [] := by
      intro empty
      rw [empty] at whole
      simp only [List.length_nil, Nat.cast_zero] at whole
      omega
    -- `SETRANGE` at zero leaves nothing of a string that is not longer than the data.
    have replaced : (exec (.setrange (key name piece.id) 0 piece.data.bytes) db).1 =
        (exec (.set (key name piece.id) piece.data.bytes) db).1 := by
      simp only [exec, typed, if_neg nonempty, lt_irrefl, ite_false, Int.toNat_zero]
      rw [setRange_zero_of_length_le (by omega)]
    have stored : (execAll [Cmd.sadd (stripesKey name) (formatInt piece.id),
          .set (key name piece.id) piece.data.bytes] (c (s.addr name piece.id))).1 =
        (execAll [Cmd.sadd (stripesKey name) (formatInt piece.id),
          .setrange (key name piece.id) piece.off piece.data.bytes]
            (c (s.addr name piece.id))).1 := by
      simp only [execAll_cons, execAll_nil, whole.1, ← registered, replaced]
    simp only [serve, DataStore.writeStripe, writeStripeByRange, if_pos whole, Body.exec, stored]
  · rw [DataStore.writeStripe, writeStripeByRange, if_neg whole]

/-- The two ways to read give the same count and the same buffer. -/
theorem FileInv.sameAnswer_readStripe (inv : s.FileInv c name) (piece : StripeInfo) :
    SameAnswer (serve (s.readStripe name piece) c).2
      (serve (s.readStripeByRange name piece) c).2 := by
  by_cases whole : piece.off = 0 ∧ (piece.data.bytes.length : ℤ) = s.stripeSize
  · have typed : NoSet (c (s.addr name piece.id)) (key name piece.id) := inv.noSet piece.id
    have fits := inv.length_le piece.id
    have positive := s.stripeSize_pos
    have range : getRange (stringAt (c (s.addr name piece.id)) (key name piece.id)) 0
        (0 + piece.data.bytes.length - 1) = s.stripe c name piece.id := by
      have asked := getRange_natCast
        (stringAt (c (s.addr name piece.id)) (key name piece.id)) 0 piece.data.bytes.length
        (by omega)
      rw [Nat.cast_zero, List.drop_zero] at asked
      rw [DataStore.stripe] at fits ⊢
      rw [asked, List.take_of_length_le (by omega)]
    simp only [serve, readStripe, readStripeByRange, if_pos whole, Body.exec,
      exec_getrange _ _ typed]
    rw [whole.1, range]
    apply sameAnswer_readReply piece.data
    rcases exec_get typed with replied | ⟨replied, empty⟩
    · rw [replied]
      exact .refl _
    · rw [replied, DataStore.stripe, empty]
      exact .missing
  · simp only [readStripe, readStripeByRange, if_neg whole]
    exact .refl _

/-! ## Reads do not abort -/

/-- If every goroutine knows what to do with its reply, the read returns. -/
theorem isSome_collectReads {replies : List ConnReply}
    (each : ∀ r ∈ replies, (readReplyInto r).isSome) (n : ℤ) (buffer : List UInt8) :
    (collectReads replies n buffer).isSome := by
  induction replies generalizing n buffer with
  | nil => rfl
  | cons r rest ih =>
      obtain ⟨delivered, found⟩ := Option.isSome_iff_exists.mp (each r (by simp))
      have others := fun n buffer => ih (fun r' member => each r' (by simp [member])) n buffer
      obtain ⟨count, place⟩ := delivered
      simp only [collectReads, found]
      cases place with
      | none => exact others _ _
      | some place => exact others _ _

/-- The goroutine of a piece of a layout knows what to do with its reply. -/
theorem FileInv.isSome_readReplyInto (inv : s.FileInv c name) (nonneg : 0 ≤ off)
    {pieces items : List StripeInfo} (tiles : Tiles s.stripeSize off 0 dst pieces)
    (padded : Padded 100 pieces items) {stripe : StripeInfo} (member : stripe ∈ items) :
    (readReplyInto (serve (s.readStripe name stripe) c).2).isSome := by
  rcases padded.mem_or_zero member with piece | rfl
  · rcases readReply_piece inv (tiles.piece s.stripeSize_pos nonneg piece) with
      replied | ⟨-, replied⟩ <;> rw [replied] <;> rfl
  · rw [readReply_zero inv]
    rfl

/-- **A read does not abort**, whatever stores answer its requests. -/
theorem safe_readAt (s : DataStore) (name : GoString) (nonneg : 0 ≤ off) (dst : List UInt8) :
    s.Safe False (fun _ => True) (s.readAt name off dst) := by
  obtain ⟨pieces, items, tiles, layout, padded⟩ :=
    stripeLayout_spec s.policy s.stripeSize_pos nonneg dst
  simp only [readAt, layout]
  refine (Program.safe_forkAll (fun r => (readReplyInto r).isSome) ?_).bind ?_
  · intro q member c inv
    obtain ⟨stripe, inLayout, rfl⟩ := List.mem_map.mp member
    rw [serve_readStripe_store]
    exact ⟨inv, (inv name).isSome_readReplyInto nonneg tiles padded inLayout⟩
  · rintro replies ⟨-, each⟩
    obtain ⟨result, collected⟩ := Option.isSome_iff_exists.mp (isSome_collectReads each 0 dst)
    rw [collected]
    trivial

/-- The requests of a read are not answered by more than their buffer takes. -/
theorem issues_fitting (nonneg : 0 ≤ off) :
    Program.Issues (fun q => ∀ c, s.StoreInv c → (serve q c).2 ≠ .protocolError)
      (s.readAt name off dst) := by
  obtain ⟨pieces, items, tiles, layout, padded⟩ :=
    stripeLayout_spec s.policy s.stripeSize_pos nonneg dst
  simp only [readAt, layout]
  refine (Program.issues_forkAll fun q member c inv tooLarge => ?_).bind fun replies => ?_
  · obtain ⟨stripe, inLayout, rfl⟩ := List.mem_map.mp member
    have known := (inv name).isSome_readReplyInto nonneg tiles padded inLayout
    rw [tooLarge] at known
    cases known
  · split <;> trivial

/-- What whole stripes rest on, and what they give: strings that are not too long, the
fast paths that agree with the general ones, and reads that are answered properly. -/
structure WholeStripes (s : DataStore) (c : Cluster) (name : GoString) : Prop where
  length_le : ∀ a id, ((stringAt (c a) (key name id)).length : ℤ) ≤ s.stripeSize
  set_eq_setrange : ∀ stripe, (serve (s.writeStripe name stripe) c).1 =
    (serve (s.writeStripeByRange name stripe) c).1
  get_eq_getrange : ∀ stripe n buffer,
    collectReads [(serve (s.readStripe name stripe) c).2] n buffer =
      collectReads [(serve (s.readStripeByRange name stripe) c).2] n buffer

/-- No stripe is longer than it may be, as part of the invariant of a file. -/
theorem FileInv.wholeStripes (inv : s.FileInv c name) : s.WholeStripes c name where
  length_le a id := by
    by_cases here : a = s.addr name id
    · subst here
      exact inv.length_le id
    · rw [inv.elsewhere a id here]
      simpa using s.stripeSize_pos.le
  set_eq_setrange := inv.serve_writeStripe
  get_eq_getrange stripe n buffer :=
    collectReads_congr (.cons (inv.sameAnswer_readStripe stripe) .nil) n buffer

/-- **Whole stripes are safe**: in every configuration that clients reach no string
is longer than a stripe, so that the fast paths agree with the general ones.  And a
read whose requests are answered by stores that are reached, each by one of its own,
is never answered by more than a buffer takes, and is not aborted.  A whole stripe
is written by `SET` and read by `GET`, where any other part is written by `SETRANGE`
and read by `GETRANGE`.  If there were a string longer than a stripe, `SET` would
drop its end and `GET` would deliver too much. -/
theorem wholeStripes_of_configuration (s : DataStore) (name : GoString) :
    (∀ {ι : Type} [DecidableEq ι] {pool : Pool ι Request ConnReply Unit Cluster},
      s.Configuration pool → s.WholeStripes pool.store name) ∧
    ∀ {off : ℤ} {dst : List UInt8} {trace : List (Request × ConnReply)}
      {after : Prog (ℤ × List UInt8)}, 0 ≤ off →
      Program.Trace (s.readAt name off dst) trace after →
      (∀ answered ∈ trace, ∃ c, s.Reachable c ∧ (serve answered.1 c).2 = answered.2) →
      (∀ answered ∈ trace, answered.2 ≠ .protocolError) ∧ after ≠ .panic := by
  refine ⟨fun reached => (storeInv_of_configuration reached name).wholeStripes, ?_⟩
  intro off dst trace after nonneg performed answered
  refine ⟨fun entry member => ?_, fun aborted => ?_⟩
  · obtain ⟨c, reached, replied⟩ := answered entry member
    rw [← replied]
    exact ((issues_fitting nonneg).trace performed).1 entry member c reached.storeInv
  · have safe := (safe_readAt s name nonneg dst).trace performed fun entry member => by
      obtain ⟨c, reached, replied⟩ := answered entry member
      exact ⟨c, reached.storeInv, replied⟩
    rw [aborted] at safe
    exact safe

/-- A read of a whole stripe of a file of three bytes. -/
theorem wholeStripes_threeBytes : ∃ after,
    (smallStore 2).WholeStripes (smallStore.afterWrite (smallStore 2) 0 [1, 2, 3]) ['f'] ∧
    Program.Step ((smallStore 2).readAt ['f'] 0 [0, 0])
      ((smallStore 2).readStripe ['f'] { id := 0, off := 0, data := { bytes := [0, 0] } })
      (.filled 0 [1, 2]) after ∧ after ≠ .panic := by
  have answered : (serve ((smallStore 2).readStripe ['f']
      { id := 0, off := 0, data := { bytes := [0, 0] } })
      (smallStore.afterWrite (smallStore 2) 0 [1, 2, 3])).2 = .filled 0 [1, 2] := by decide +kernel
  have step : Program.Step ((smallStore 2).readAt ['f'] 0 [0, 0])
      ((smallStore 2).readStripe ['f'] { id := 0, off := 0, data := { bytes := [0, 0] } })
      (.filled 0 [1, 2]) (.ret (2, [1, 2])) :=
    .answer [] [] _ _ [] _ (by simp)
  have whole := wholeStripes_of_configuration (smallStore 2) ['f']
  refine ⟨_, whole.1 smallStore.quiet_threeBytes, step, ?_⟩
  refine (whole.2 le_rfl (.cons step (.nil _)) fun entry member => ?_).2
  obtain rfl := List.mem_singleton.mp member
  exact ⟨_, smallStore.quiet_threeBytes.reachable, answered⟩

end DataStore

end Pdwfs
