import Pdwfs.Redisfs.FastPaths
import Pdwfs.Redisfs.Writes

/-!
# Reading while others write

A read fetches its stripes one by one, and other clients may write to the file in
between, also into the stripes that are read.  As long as they write elsewhere, the
read delivers what the range held when it began.

* `Holds` — the range of the read is stored, with the bytes it had at the beginning.
* `Holds.writeStripe` — a request of a write to another range keeps that.
* `collectReads_agrees` — replies that agree on what the buffer is to hold give that
  buffer, whatever their order.
* `read_of_run` — the read in an interleaved run.

## An invariant of the others

The stripes of the range do change while they are read.  What does not change is the
range itself, so `Holds` compares it with what it was at the beginning and says
nothing about the rest of the stripes.  It is an invariant of every request that the
others may send, and each reply to the read comes from a store that has it.

The replies come from different stores, in an order that is not known, and may be
for zero values of the layout, which read whatever stripe `0` holds at that moment
and put it nowhere.  `collectReads_agrees` therefore asks of each reply only that
what it puts into the buffer is what belongs there, and it leaves the count open.
-/

namespace Pdwfs

open Concurrency Redis Striping

/-- Every goroutine puts the bytes of `f` in their places, so the buffer holds them
where one of them has been.  Two of them may come by the same place. -/
theorem collectReads_agrees (f : ℕ → UInt8) {replies : List ConnReply} {len : ℕ}
    (each : ∀ r ∈ replies, ∃ n place, readReplyInto r = some (n, place) ∧
      ∀ pos bytes, place = some (pos, bytes) → pos + bytes.length ≤ len ∧
        ∀ j < bytes.length, bytes[j]? = some (f (pos + j)))
    (read : ℤ) {buffer : List UInt8} (room : buffer.length = len) :
    ∃ n buffer', collectReads replies read buffer = some (n, buffer') ∧ buffer'.length = len ∧
      ∀ i, (buffer'[i]? = buffer[i]? ∨ buffer'[i]? = some (f i)) ∧
        ((∃ r ∈ replies, ∃ n pos bytes, readReplyInto r = some (n, some (pos, bytes)) ∧
            pos ≤ i ∧ i < pos + bytes.length) → buffer'[i]? = some (f i)) := by
  induction replies generalizing read buffer with
  | nil => exact ⟨read, buffer, rfl, room, by simp⟩
  | cons r rest ih =>
      have later := fun r' member => each r' (List.mem_cons_of_mem r member)
      obtain ⟨n, place, delivered, agrees⟩ := each r (by simp)
      cases place with
      -- A goroutine that has found nothing, or has fetched without a buffer, puts nothing
      -- anywhere.
      | none =>
          obtain ⟨n', buffer', result, length, places⟩ := ih later (read + n) room
          refine ⟨n', buffer', by simpa only [collectReads, delivered] using result, length,
            fun i => ⟨(places i).1, ?_⟩⟩
          rintro ⟨r', member, k, pos, bytes, found, within⟩
          rcases List.mem_cons.mp member with rfl | there
          · rw [delivered] at found
            cases found
          · exact (places i).2 ⟨r', there, k, pos, bytes, found, within⟩
      -- Where a later goroutine writes again, it writes the same byte of `f`.
      | some place =>
          obtain ⟨pos, bytes⟩ := place
          obtain ⟨fits, same⟩ := agrees pos bytes rfl
          rw [← room] at fits
          obtain ⟨n', buffer', result, length, places⟩ :=
            @ih later (read + n) (fillBuffer buffer pos bytes)
              (by rw [length_fillBuffer fits, room])
          refine ⟨n', buffer', by simpa only [collectReads, delivered] using result, length,
            fun i => ?_⟩
          have filled : pos ≤ i → i < pos + bytes.length → buffer'[i]? = some (f i) := by
            intro lower upper
            rcases (places i).1 with kept | put
            · rw [kept, getElem?_fillBuffer fits, if_pos ⟨lower, upper⟩, same _ (by omega)]
              congr 2
              omega
            · exact put
          refine ⟨?_, ?_⟩
          · rcases (places i).1 with kept | put
            · by_cases within : pos ≤ i ∧ i < pos + bytes.length
              · exact .inr (filled within.1 within.2)
              · rw [getElem?_fillBuffer fits, if_neg within] at kept
                exact .inl kept
            · exact .inr put
          · rintro ⟨r', member, k, pos', bytes', found, lower, upper⟩
            rcases List.mem_cons.mp member with rfl | there
            · rw [delivered] at found
              simp only [Option.some.injEq, Prod.mk.injEq] at found
              obtain ⟨-, rfl, rfl⟩ := found
              exact filled lower upper
            · exact (places i).2 ⟨r', there, k, pos', bytes', found, lower, upper⟩

namespace DataStore

variable {s : DataStore} {c d : Cluster} {name : GoString} {off : ℤ} {dst : List UInt8} {len : ℕ}

/-! ## The range of the read -/

/-- In the store `d`, the `len` bytes at `off` are stored and are those of `c`. -/
structure Holds (s : DataStore) (c : Cluster) (name : GoString) (off : ℤ) (len : ℕ)
    (d : Cluster) : Prop where
  inv : s.FileInv d name
  stored : ∀ i < len, s.Stores d name (off + i)
  content_eq : ∀ i < len, s.content d name (off + i) = s.content c name (off + i)

/-- A piece of data for another range leaves the range as it is. -/
theorem Holds.writeStripe (holds : s.Holds c name off len d) {piece : StripeInfo}
    (writable : Writable s piece)
    (elsewhere : ∀ i < len, ¬piece.Covers s.stripeSize (off + i)) :
    s.Holds c name off len (serve (s.writeStripe name piece) d).1 where
  inv := holds.inv.writeStripe writable
  stored i inside := stores_writeStripe holds.inv writable (holds.stored i inside)
  content_eq i inside := by
    rw [content_writeStripe holds.inv writable, if_neg (elsewhere i inside),
      holds.content_eq i inside]

/-- The ranges of `len` bytes at `off` and of `data` at `writeOff` have no byte in
common.  They may have parts of one stripe. -/
def Apart (off : ℤ) (len : ℕ) (writeOff : ℤ) (data : List UInt8) : Prop :=
  ∀ i < len, ¬(writeOff ≤ off + i ∧ off + i < writeOff + data.length)

/-- The requests of a write to another range keep the range of the read. -/
theorem issues_holds {writeOff : ℤ} {data : List UInt8} (nonneg : 0 ≤ writeOff)
    (apart : Apart off len writeOff data) :
    Program.Issues (fun q => ∀ d, s.Holds c name off len d → s.Holds c name off len (serve q d).1)
      (s.perform name (.writeAt writeOff data)) := by
  obtain ⟨items, layout, program⟩ := writeAt_eq s name nonneg data
  simp only [perform, program]
  refine Program.Issues.bind ?_ fun _ => trivial
  refine (Program.issues_forkAll fun q member d holds => ?_).bind fun _ => trivial
  obtain ⟨piece, inLayout, rfl⟩ := List.mem_map.mp member
  refine holds.writeStripe (layout.writable piece inLayout) fun i inside covers => apart i inside ?_
  obtain ⟨lower, upper, -⟩ := layout.byte_eq piece inLayout _ covers
  exact ⟨lower, upper⟩

/-! ## The replies -/

/-- What a goroutine of the read is answered by a store that holds the range: all of its
piece, as it was at the beginning. -/
theorem Holds.reply (holds : s.Holds c name off dst.length d) {piece : StripeInfo}
    (tiled : Tiles.Piece s.stripeSize off 0 dst piece) :
    ∃ bytes, readReplyInto (serve (s.readStripe name piece) d).2 =
        some (bytes.length, some (piece.data.pos, bytes)) ∧
      bytes.length = piece.data.bytes.length ∧
      ∀ j < bytes.length, bytes[j]? = some (s.content c name (off + (piece.data.pos + j : ℕ))) := by
  have stop := tiled.stop_le
  have count : 0 < piece.data.bytes.length := List.length_pos_iff.mpr tiled.nonempty
  have short : (s.found d name piece).length ≤ piece.data.bytes.length := by
    rw [found, List.length_take]
    exact min_le_left _ _
  have spec := fun j (inside : j < piece.data.bytes.length) =>
    found_spec s d name tiled (i := piece.data.pos + j) (by omega) (by omega)
  have whole : (s.found d name piece).length = piece.data.bytes.length := by
    have last := (spec (piece.data.bytes.length - 1) (by omega)).1.mpr
      (holds.stored _ (by omega))
    omega
  refine ⟨s.found d name piece, ?_, whole, fun j inside => ?_⟩
  · rcases readReply_piece holds.inv tiled with replied | ⟨empty, -⟩
    · exact replied
    · rw [empty] at whole
      simp only [List.length_nil] at whole
      omega
  · have byte := (spec j (by omega)).2 (by omega)
    rw [show 0 + (piece.data.pos + j) - piece.data.pos = j by omega] at byte
    rw [byte, holds.content_eq _ (by omega)]

/-! ## The run -/

section Run

variable {ι : Type} [DecidableEq ι] {threads : Option ι → Prog FileReturn}
  {writeOff : ι → ℤ} {data : ι → List UInt8} {past : ι → List (Request × ConnReply)}
  {labels : List (Option ι × Request × ConnReply)}
  {final : Pool (Option ι) Request ConnReply FileReturn Cluster}

/-- **Reading while others write.**  From any store that is reached, a read of a
range whose bytes are all stored delivers these bytes, whatever clients write
elsewhere in the meantime: for every interleaving of its requests with those of any
number of writes to other ranges, begun before the read or not.  The bytes of the
range are stored at each time, and no write changes them, so that each request of
the read is answered with them, whenever it is executed.  The writes may touch the
same stripes. -/
theorem read_of_run (reached : s.Reachable c) (nonneg : 0 ≤ off)
    (stored : ∀ i < dst.length, s.Stores c name (off + i))
    (reader : threads none = s.perform name (.readAt off dst))
    (writeNonneg : ∀ i, 0 ≤ writeOff i)
    (apart : ∀ i, Apart off dst.length (writeOff i) (data i))
    (writers : ∀ i, Program.Trace (s.perform name (.writeAt (writeOff i) (data i))) (past i)
      (threads (some i)))
    (performed : Pool.Run serve ⟨c, threads⟩ labels final)
    (finished : (final.threads none).Stopped) :
    ∃ n, final.threads none = .ret
      (.read n ((List.range dst.length).map fun i : ℕ => s.content c name (off + i))) := by
  obtain ⟨pieces, items, tiles, layout, padded⟩ :=
    stripeLayout_spec s.policy s.stripeSize_pos nonneg dst
  have start : s.Holds c name off dst.length c := ⟨reached.storeInv name, stored, fun _ _ => rfl⟩
  -- Every request is answered by a store that holds the range.
  have issues : ∀ i, Program.Issues
      (fun q => ∀ d, s.Holds c name off dst.length d → s.Holds c name off dst.length (serve q d).1)
      (threads i) := by
    intro i
    cases i with
    | none =>
        rw [reader]
        refine Program.Issues.bind (issues_readAt.mono fun q readOnly d holds => ?_)
          fun _ => trivial
        rwa [serve_readOnly readOnly]
    | some i => exact ((issues_holds (writeNonneg i) (apart i)).trace (writers i)).2
  obtain ⟨-, answered⟩ := performed.answered issues start
  -- The requests of the read are those of its layout.
  have trace := performed.trace none
  simp only [reader, perform, readAt, layout, Program.bind_assoc] at trace
  rw [Program.forkAll, Program.resume_bind] at trace
  have : Nonempty ConnReply := ⟨.protocolError⟩
  obtain ⟨own, rest, split, perm, continued⟩ := trace.of_resume finished
  have replied : ∀ entry ∈ own, ∃ piece ∈ items, entry.1 = s.readStripe name piece ∧
      ∃ d, s.Holds c name off dst.length d ∧ (serve (s.readStripe name piece) d).2 = entry.2 := by
    intro entry member
    obtain ⟨piece, inLayout, same⟩ := List.mem_map.mp
      (perm.mem_iff.mp (List.mem_map_of_mem (f := Prod.fst) member))
    have inRun : entry ∈ (labels.filter fun label => label.1 = none).map Prod.snd := by
      rw [split]
      exact List.mem_append_left _ member
    obtain ⟨label, inLabels, rfl⟩ := List.mem_map.mp inRun
    obtain ⟨d, holds, reply⟩ := answered label (List.mem_of_mem_filter inLabels)
    exact ⟨piece, inLayout, same.symm, d, holds, by rw [same, reply]⟩
  have agree : ∀ r ∈ own.map Prod.snd, ∃ n place, readReplyInto r = some (n, place) ∧
      ∀ pos bytes, place = some (pos, bytes) → pos + bytes.length ≤ dst.length ∧
        ∀ j < bytes.length, bytes[j]? = some (s.content c name (off + (pos + j : ℕ))) := by
    intro r member
    obtain ⟨entry, inOwn, rfl⟩ := List.mem_map.mp member
    obtain ⟨piece, inLayout, -, d, holds, reply⟩ := replied entry inOwn
    rw [← reply]
    rcases padded.mem_or_zero inLayout with inTiling | rfl
    · have tiled := tiles.piece s.stripeSize_pos nonneg inTiling
      have stop := tiled.stop_le
      obtain ⟨bytes, found, count, same⟩ := holds.reply tiled
      refine ⟨_, _, found, fun pos bytes' place => ?_⟩
      simp only [Option.some.injEq, Prod.mk.injEq] at place
      obtain ⟨rfl, rfl⟩ := place
      exact ⟨by omega, same⟩
    · exact ⟨_, none, readReply_zero holds.inv, by simp⟩
  obtain ⟨n, buffer, result, length, places⟩ :=
    collectReads_agrees (fun i : ℕ => s.content c name (off + i)) agree 0 rfl
  rw [List.nil_append] at continued
  simp only [result, Program.pure_eq, Program.ret_bind] at continued
  obtain ⟨-, returned⟩ := continued.of_ret
  refine ⟨n, ?_⟩
  rw [returned]
  congr 2
  refine List.ext_getElem? fun i => ?_
  by_cases inside : i < dst.length
  · -- The byte is in a piece, and the piece has been answered.
    obtain ⟨piece, inTiling, lower, upper⟩ := tiles.covers inside
    have asked : s.readStripe name piece ∈ own.map Prod.fst :=
      perm.mem_iff.mpr (List.mem_map_of_mem (padded.mem_of_mem inTiling))
    obtain ⟨entry, inOwn, same⟩ := List.mem_map.mp asked
    obtain ⟨piece', inLayout', request, d, holds, reply⟩ := replied entry inOwn
    rw [← request, same] at reply
    obtain ⟨bytes, found, count, -⟩ := holds.reply (tiles.piece s.stripeSize_pos nonneg inTiling)
    rw [reply] at found
    rw [(places i).2 ⟨entry.2, List.mem_map_of_mem inOwn, _, _, bytes, found, by omega, by omega⟩,
      List.getElem?_map, List.getElem?_range inside]
    rfl
  · rw [List.getElem?_eq_none (by omega), List.getElem?_eq_none (by simpa using inside)]

end Run

/-- One byte of a stripe is read while the other one is written. -/
theorem read_of_run_sameStripe :
    ∃ (final : Pool (Option Unit) Request ConnReply FileReturn Cluster) (n : ℤ),
      final.threads none = .ret (.read n [1]) := by
  obtain ⟨labels, final, performed, finished⟩ := Pool.exists_run serve
    (⟨smallStore.afterWrite (smallStore 2) 0 [1, 2, 3], fun i => i.elim
        ((smallStore 2).perform ['f'] (.readAt 0 [7]))
        fun _ => (smallStore 2).perform ['f'] (.writeAt 1 [5])⟩ :
      Pool (Option Unit) Request ConnReply FileReturn Cluster)
  obtain ⟨n, returned⟩ := @read_of_run (smallStore 2) _ ['f'] 0 [7] Unit _ _ (fun _ => 1)
    (fun _ => [5]) (fun _ => []) labels final smallStore.quiet_threeBytes.reachable le_rfl
    (by decide +kernel) rfl (by decide) (by simp [Apart]) (fun _ => .nil _) performed
    (finished none)
  refine ⟨final, n, ?_⟩
  have bytes : (List.range 1).map (fun i : ℕ => (smallStore 2).content
      (smallStore.afterWrite (smallStore 2) 0 [1, 2, 3]) ['f'] (0 + i)) = [1] := by
    decide +kernel
  exact returned.trans (congrArg (fun bytes => Program.ret (FileReturn.read n bytes)) bytes)

end DataStore

end Pdwfs
