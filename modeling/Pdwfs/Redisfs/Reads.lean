import Pdwfs.Redisfs.File
import Pdwfs.Redisfs.Requests
import Pdwfs.Redisfs.Reachable
import Mathlib

/-!
# Reading

`ReadAt` reads the stripes of its range independently of each other, and its result
is the number of bytes that all of them together have delivered.

* `Filled` — the destination buffer when the stored bytes have been put in their
  places.
* `exec_readAt` — what a read returns: the number of stored bytes in the range, plus
  the length of stripe `0` for each zero value in the layout.
* `readsWhole_iff` — the result is the one expected of a flat sequence of bytes
  exactly when the range has no gap below the size.
* `readsFilled_iff` — the result is the number of bytes put in the buffer exactly
  when the range touches at most 100 stripes or stripe `0` is empty.

## Counts and buffers

A read has two results, and they do not say the same.  The buffer is filled where
bytes are stored, and left alone where they are not; a gap in the middle of the
range leaves a gap in the buffer.  The count is the number of stored bytes, wherever
they are.  So a count of `n` does not mean that the first `n` bytes of the buffer
are good, unless what is stored comes first.

`exec_readAt` is the exact description, from which the two theorems are read off.
The first compares the count with the one of a flat file, and the buffer with its
bytes, and both are right together: as soon as one position of the range below the
size is not stored, the count is too small.  The second compares the count with what
has been put into the buffer, and there only the zero values of the layout matter.

The goroutines answer in any order.  What each of them puts into the buffer is in
its own place, and the counts are added up, so `collectReads_spec` can say for any
order what is there at the end.
-/

namespace Pdwfs

open Concurrency Redis Striping

/-! ## The buffer -/

/-- A buffer keeps its length. -/
theorem length_fillBuffer {dst : List UInt8} {pos : ℕ} {bytes : List UInt8}
    (fits : pos + bytes.length ≤ dst.length) :
    (fillBuffer dst pos bytes).length = dst.length := by
  simp only [fillBuffer, List.length_append, List.length_take, List.length_drop]
  omega

/-- What is filled is filled, and the rest of the buffer stays. -/
theorem getElem?_fillBuffer {dst : List UInt8} {pos : ℕ} {bytes : List UInt8}
    (fits : pos + bytes.length ≤ dst.length) (i : ℕ) :
    (fillBuffer dst pos bytes)[i]? =
      if pos ≤ i ∧ i < pos + bytes.length then bytes[i - pos]? else dst[i]? := by
  have before : (dst.take pos).length = pos := by
    rw [List.length_take]
    omega
  unfold fillBuffer
  rcases lt_or_ge i pos with below | above
  · rw [List.getElem?_append_left (by rw [List.length_append]; omega),
      List.getElem?_append_left (by omega), List.getElem?_take, if_pos below, if_neg (by omega)]
  · by_cases inside : i < pos + bytes.length
    · rw [List.getElem?_append_left (by rw [List.length_append]; omega),
        List.getElem?_append_right (by omega), before, if_pos ⟨above, inside⟩]
    · rw [List.getElem?_append_right (by rw [List.length_append]; omega), List.getElem?_drop,
        if_neg (by omega), List.length_append, before]
      congr 1
      omega

namespace DataStore

variable {s : DataStore} {c c' : Cluster} {name : GoString} {off : ℤ} {dst : List UInt8}

/-! ## One stripe -/

variable (s c name) in
/-- The stored bytes of a piece.  They come first in it, since a stripe has no gaps.
-/
def found (piece : StripeInfo) : List UInt8 :=
  ((s.stripe c name piece.id).drop piece.off.toNat).take piece.data.bytes.length

variable (s c name) in
/-- What a piece adds to the result.  For a zero value of the layout this is the
length of stripe `0`. -/
def readCount (piece : StripeInfo) : ℕ :=
  if piece.data.isNil then (s.stripe c name 0).length else (s.found c name piece).length

/-- Reading changes nothing. -/
theorem serve_readStripe_store (piece : StripeInfo) :
    (serve (s.readStripe name piece) c).1 = c :=
  serve_readOnly (s.writes_readStripe name piece) c

/-- A goroutine puts the stored bytes of its piece in their place. -/
theorem readReply_piece (inv : s.FileInv c name) {start : ℤ} {pos : ℕ} {data : List UInt8}
    {piece : StripeInfo} (tiled : Tiles.Piece s.stripeSize start pos data piece) :
    let found := s.found c name piece
    readReplyInto (serve (s.readStripe name piece) c).2 =
        some (found.length, some (piece.data.pos, found)) ∨
      found = [] ∧ readReplyInto (serve (s.readStripe name piece) c).2 = some (0, none) := by
  have typed : NoSet (c (s.addr name piece.id)) (key name piece.id) := inv.noSet piece.id
  have count : 0 < piece.data.bytes.length := List.length_pos_iff.mpr tiled.nonempty
  have inside := tiled.inside
  have forward := tiled.off_nonneg
  by_cases whole : piece.off = 0 ∧ (piece.data.bytes.length : ℤ) = s.stripeSize
  · -- The fast path: a `GET` of the whole stripe.
    have fits := inv.length_le piece.id
    have all : s.found c name piece = s.stripe c name piece.id := by
      rw [found, whole.1, Int.toNat_zero, List.drop_zero, List.take_of_length_le (by omega)]
    simp only [all, serve, readStripe, if_pos whole, Body.exec]
    rcases exec_get typed with replied | ⟨replied, empty⟩
    · refine .inl ?_
      have room : ¬piece.data.bytes.length < (s.stripe c name piece.id).length := by omega
      simp only [replied, readReply, tiled.notNil, Bool.false_eq_true, ite_false]
      rw [stripe] at room
      simp only [room, ite_false]
      rfl
    · refine .inr ⟨empty, ?_⟩
      simp only [replied, readReply]
      rfl
  · refine .inl ?_
    have range : getRange (stringAt (c (s.addr name piece.id)) (key name piece.id)) piece.off
        (piece.off + piece.data.bytes.length - 1) = s.found c name piece := by
      have asked := getRange_natCast
        (stringAt (c (s.addr name piece.id)) (key name piece.id)) piece.off.toNat _ count
      rw [show ((piece.off.toNat : ℕ) : ℤ) = piece.off by omega] at asked
      exact asked
    have room : ¬piece.data.bytes.length < (s.found c name piece).length := by
      rw [found, List.length_take]
      omega
    simp only [serve, readStripe, if_neg whole, Body.exec, exec_getrange _ _ typed, range,
      readReply, tiled.notNil, Bool.false_eq_true, ite_false, if_neg room, readReplyInto]

/-- The goroutine of a zero value reads the whole stripe `0`, into no buffer. -/
theorem readReply_zero (inv : s.FileInv c name) :
    readReplyInto (serve (s.readStripe name StripeInfo.zero) c).2 =
      some ((s.stripe c name 0).length, none) := by
  have typed : NoSet (c (s.addr name 0)) (key name 0) := inv.noSet 0
  have body : (s.readStripe name StripeInfo.zero).body =
      .single (.getrange (key name 0) 0 (-1)) := by
    simp [readStripe, StripeInfo.zero, Slice.nil, s.stripeSize_pos.ne]
  have addr : (s.readStripe name StripeInfo.zero).addr = s.addr name 0 := rfl
  have dst : (s.readStripe name StripeInfo.zero).dst = Slice.nil := rfl
  simp only [serve, body, addr, dst, Body.exec, exec_getrange _ _ typed, getRange_zero_neg_one]
  rfl

variable (s c name) in
/-- Where a piece has a stored byte, and which. -/
theorem found_spec {start : ℤ} {pos : ℕ} {data : List UInt8} {piece : StripeInfo}
    (tiled : Tiles.Piece s.stripeSize start pos data piece) {i : ℕ}
    (lower : piece.data.pos ≤ pos + i)
    (upper : pos + i < piece.data.pos + piece.data.bytes.length) :
    (pos + i < piece.data.pos + (s.found c name piece).length ↔ s.Stores c name (start + i)) ∧
    (pos + i < piece.data.pos + (s.found c name piece).length →
      (s.found c name piece)[pos + i - piece.data.pos]? = some (s.content c name (start + i))) := by
  have begins := tiled.start_eq
  have shift := tiled.pos_le
  have forward := tiled.off_nonneg
  rw [StripeInfo.start] at begins
  obtain ⟨quotient, -, -⟩ := (mem_range_iff s.stripeSize_pos forward tiled.inside).mp
    (show piece.id * s.stripeSize + piece.off ≤ start + i ∧
      start + i < piece.id * s.stripeSize + piece.off + piece.data.bytes.length by omega)
  have split := Int.mul_ediv_add_emod (start + i) s.stripeSize
  rw [quotient, mul_comm] at split
  have index :
      ((start + i) % s.stripeSize).toNat = piece.off.toNat + (pos + i - piece.data.pos) := by omega
  have count : (s.found c name piece).length =
      min piece.data.bytes.length ((s.stripe c name piece.id).length - piece.off.toNat) := by
    rw [found, List.length_take, List.length_drop]
  rw [Stores, Stored, content, byteAt, quotient, index, count]
  refine ⟨by omega, fun stored => ?_⟩
  have inStripe :
      piece.off.toNat + (pos + i - piece.data.pos) < (s.stripe c name piece.id).length := by omega
  rw [found, List.getElem?_take, if_pos (by omega), List.getElem?_drop,
    List.getElem?_eq_getElem inStripe, List.getD_eq_getElem _ _ inStripe]

/-! ## All stripes -/

/-- The stored bytes of a tiling are those of its range. -/
theorem sum_found_eq_count {start : ℤ} {pos : ℕ} {data : List UInt8} {pieces : List StripeInfo}
    (tiles : Tiles s.stripeSize start pos data pieces) (nonneg : 0 ≤ start) :
    (pieces.map fun piece => (s.found c name piece).length).sum =
      Nat.count (fun i => s.Stores c name (start + i)) data.length := by
  induction tiles with
  | nil start pos => simp
  | cons nonempty inside full others ih =>
      rename_i start pos first rest pieces
      set piece : StripeInfo :=
        { id := start / s.stripeSize, off := start % s.stripeSize,
          data := { bytes := first, pos := pos } }
      have tiled := (Tiles.cons nonempty inside full others).piece s.stripeSize_pos nonneg
        (List.mem_cons_self (a := piece))
      -- In one piece the stored bytes come first.
      have prefixStored : ∀ n ≤ first.length,
          Nat.count (fun i => s.Stores c name (start + i)) n =
            min n (s.found c name piece).length := by
        intro n within
        induction n with
        | zero => simp
        | succ n ih =>
            obtain ⟨stored, -⟩ := found_spec s c name tiled (i := n)
              (Nat.le_add_right _ _) (Nat.add_lt_add_left within _)
            rw [show piece.data.pos = pos from rfl] at stored
            rw [Nat.count_succ, ih (by omega)]
            by_cases here : s.Stores c name (start + n)
            · have := stored.mpr here
              rw [if_pos here]
              omega
            · have := mt stored.mp here
              rw [if_neg here]
              omega
      have short : (s.found c name piece).length ≤ first.length := by
        rw [found, List.length_take]
        exact min_le_left _ _
      rw [List.map_cons, List.sum_cons, ih (by omega), List.length_append, Nat.count_add,
        prefixStored _ le_rfl, min_eq_right short]
      simp only [Nat.cast_add, add_assoc]

/-- The destination buffer `dst'`, when the stored bytes from `off` on have been put
into the buffer `dst`: a byte that is not stored leaves its place as it is. -/
structure Filled (s : DataStore) (c : Cluster) (name : GoString) (off : ℤ)
    (dst dst' : List UInt8) : Prop where
  length_eq : dst'.length = dst.length
  stored : ∀ i < dst.length, s.Stores c name (off + i) →
    dst'[i]? = some (s.content c name (off + i))
  missing : ∀ i < dst.length, ¬s.Stores c name (off + i) → dst'[i]? = dst[i]?

/-- What the goroutines of a read do together, in whatever order they reply. -/
theorem collectReads_spec (inv : s.FileInv c name) (data : List UInt8) (order : List StripeInfo)
    (each : ∀ piece ∈ order,
      Tiles.Piece s.stripeSize off 0 data piece ∨ piece = StripeInfo.zero)
    (read : ℤ) {buffer : List UInt8} (room : buffer.length = data.length) :
    ∃ buffer', collectReads (order.map fun piece => (serve (s.readStripe name piece) c).2) read
        buffer = some (read + ((order.map (s.readCount c name)).sum : ℕ), buffer') ∧
      buffer'.length = buffer.length ∧
      ∀ i, ((∃ piece ∈ order, piece.data.isNil = false ∧ piece.data.pos ≤ i ∧
            i < piece.data.pos + (s.found c name piece).length) →
          buffer'[i]? = some (s.content c name (off + i))) ∧
        ((∀ piece ∈ order, piece.data.isNil = false → ¬(piece.data.pos ≤ i ∧
            i < piece.data.pos + (s.found c name piece).length)) →
          buffer'[i]? = buffer[i]?) := by
  induction order generalizing read buffer with
  | nil => exact ⟨buffer, by simp [collectReads], rfl, by simp⟩
  | cons piece rest ih =>
      have later := fun piece' member => each piece' (List.mem_cons_of_mem piece member)
      rcases each piece (by simp) with tiled | rfl
      · have notNil := tiled.notNil
        have count : s.readCount c name piece = (s.found c name piece).length := by
          simp [readCount, notNil]
        have stop := tiled.stop_le
        have short : (s.found c name piece).length ≤ piece.data.bytes.length := by
          rw [found, List.length_take]
          exact min_le_left _ _
        have fits : piece.data.pos + (s.found c name piece).length ≤ buffer.length := by omega
        -- An empty reply leaves the buffer as filling it with nothing does.
        have turn : collectReads ((serve (s.readStripe name piece) c).2 ::
              rest.map fun piece => (serve (s.readStripe name piece) c).2) read buffer =
            collectReads (rest.map fun piece => (serve (s.readStripe name piece) c).2)
              (read + (s.found c name piece).length)
              (fillBuffer buffer piece.data.pos (s.found c name piece)) := by
          rcases readReply_piece inv tiled with replied | ⟨empty, replied⟩
          · simp only [collectReads, replied]
          · simp [collectReads, replied, empty, fillBuffer]
        obtain ⟨buffer', result, length, places⟩ :=
          @ih later (read + (s.found c name piece).length)
            (fillBuffer buffer piece.data.pos (s.found c name piece))
            (by rw [length_fillBuffer fits, room])
        refine ⟨buffer', ?_, by rw [length, length_fillBuffer fits], fun i => ⟨?_, ?_⟩⟩
        · rw [List.map_cons, turn, result, List.map_cons, List.sum_cons, count]
          push_cast
          rw [add_assoc]
        -- Where a later goroutine puts a byte, that byte stays; otherwise it is this one
        -- that has put it there.
        · intro inside
          by_cases again : ∃ piece ∈ rest, piece.data.isNil = false ∧ piece.data.pos ≤ i ∧
              i < piece.data.pos + (s.found c name piece).length
          · exact (places i).1 again
          · push Not at again
            rw [(places i).2 fun piece' member isNil within =>
              absurd (again piece' member isNil within.1) (by omega)]
            obtain ⟨piece', member, isNil, lower, upper⟩ := inside
            obtain rfl : piece' = piece := by
              rcases List.mem_cons.mp member with here | there
              · exact here
              · exact absurd (again piece' there isNil lower) (by omega)
            rw [getElem?_fillBuffer fits, if_pos ⟨lower, upper⟩]
            have byte := (found_spec s c name tiled (i := i)
              (by omega) (by omega)).2 (by omega)
            rwa [Nat.zero_add] at byte
        · intro outside
          rw [(places i).2 fun piece' member => outside piece' (by simp [member]),
            getElem?_fillBuffer fits, if_neg (outside piece (by simp) notNil)]
      -- The goroutine of a zero value fetches stripe 0 without a buffer: it counts the
      -- bytes and puts them nowhere.
      · obtain ⟨buffer', result, length, places⟩ :=
          ih later (read + (s.stripe c name 0).length) room
        refine ⟨buffer', ?_, length, fun i => ⟨?_, ?_⟩⟩
        · rw [List.map_cons]
          simp only [collectReads, readReply_zero inv]
          rw [result, List.map_cons, List.sum_cons,
            show s.readCount c name StripeInfo.zero = (s.stripe c name 0).length from rfl]
          push_cast
          rw [add_assoc]
        · rintro ⟨piece', member, isNil, within⟩
          rcases List.mem_cons.mp member with rfl | there
          · cases isNil
          · exact (places i).1 ⟨piece', there, isNil, within⟩
        · exact fun outside => (places i).2 fun piece' member => outside piece' (by simp [member])

/-- The result of a layout is that of its pieces, plus stripe `0` for each zero value. -/
theorem sum_readCount (items : List StripeInfo) :
    (items.map (s.readCount c name)).sum =
      ((items.filter fun piece => !piece.data.isNil).map
        fun piece => (s.found c name piece).length).sum +
      items.countP (fun piece => piece.data.isNil) * (s.stripe c name 0).length := by
  induction items with
  | nil => simp
  | cons piece rest ih =>
      rw [List.map_cons, List.sum_cons, ih]
      cases isNil : piece.data.isNil with
      | true =>
          rw [List.filter_cons_of_neg (by simp [isNil]),
            List.countP_cons_of_pos (p := fun piece : StripeInfo => piece.data.isNil) isNil,
            add_mul]
          simp only [readCount, isNil, ite_true]
          omega
      | false =>
          rw [List.filter_cons_of_pos (by simp [isNil]), List.countP_cons_of_neg
            (p := fun piece : StripeInfo => piece.data.isNil) (by simp [isNil]),
            List.map_cons, List.sum_cons]
          simp only [readCount, isNil, Bool.false_eq_true, ite_false]
          omega

variable (s c name off dst) in
/-- The number of stored bytes in the range of a read. -/
def storedCount : ℕ := Nat.count (fun i => s.Stores c name (off + i)) dst.length

/-- **What a read returns.**  The stored bytes of the range are put in their places.  The
number returned counts them, and stripe `0` once for each zero value of the layout; there
are zero values exactly when the range touches more than 100 stripes. -/
theorem exec_readAt (s : DataStore) (name : GoString) (nonneg : 0 ≤ off) (dst : List UInt8) :
    ∃ zeros : ℕ, (zeros = 0 ↔ touchedStripes s.stripeSize off dst.length ≤ 100) ∧
      ∀ {c c' : Cluster} {outcome : Option (ℤ × List UInt8)}, s.FileInv c name →
        Exec (s.readAt name off dst) c c' outcome →
          c' = c ∧ ∃ dst', outcome =
              some (((s.storedCount c name off dst + zeros * (s.stripe c name 0).length : ℕ) : ℤ),
                dst') ∧
            Filled s c name off dst dst' := by
  obtain ⟨pieces, items, tiles, layout, padded⟩ :=
    stripeLayout_spec s.policy s.stripeSize_pos nonneg dst
  refine ⟨items.countP fun piece => piece.data.isNil, ?_, ?_⟩
  · rw [← tiles.length_eq_touched s.stripeSize_pos, List.countP_eq_zero]
    constructor
    · intro none
      by_contra many
      exact none _ (padded.zero_mem (by omega)) rfl
    · intro few piece member isNil
      rw [padded.exact_of_le (by omega)] at member
      have notNil := (tiles.piece s.stripeSize_pos nonneg member).notNil
      rw [notNil] at isNil
      cases isNil
  · intro c c' outcome inv performed
    -- A read changes nothing, so each goroutine is answered by the store as it is.
    have readOnly : ∀ order : List StripeInfo,
        Program.runAll serve (order.map (s.readStripe name)) c =
          (c, order.map fun piece => (serve (s.readStripe name piece) c).2) := by
      intro order
      rw [Program.runAll_of_readOnly, List.map_map]
      · rfl
      · intro q member
        obtain ⟨piece, -, rfl⟩ := List.mem_map.mp member
        exact serve_readStripe_store piece
    simp only [readAt, layout] at performed
    -- The goroutines reply in some order of their own.
    rw [Exec, Program.exec_forkAll_map_bind_iff] at performed
    obtain ⟨order, perm, rest⟩ := performed
    obtain ⟨dst', result, length, places⟩ := collectReads_spec inv dst order
      (fun piece member => (padded.mem_or_zero (perm.mem_iff.mp member)).imp_left
        (tiles.piece s.stripeSize_pos nonneg)) 0 rfl
    rw [readOnly] at rest
    simp only [result, Program.pure_eq, Program.exec_ret_iff] at rest
    obtain ⟨rfl, rfl⟩ := rest
    refine ⟨rfl, dst', ?_, length, ?_, ?_⟩
    · rw [(perm.map _).sum_eq, sum_readCount, padded.filter_eq, sum_found_eq_count tiles nonneg,
        zero_add, storedCount]
    · intro i inside stored
      obtain ⟨piece, member, lower, upper⟩ := tiles.covers inside
      have tiled := tiles.piece s.stripeSize_pos nonneg member
      have here := (found_spec s c' name tiled lower upper).1.mpr stored
      exact (places i).1 ⟨piece, perm.mem_iff.mpr (padded.mem_of_mem member), tiled.notNil,
        by omega, by omega⟩
    · intro i inside missing
      refine (places i).2 fun piece member isNil within => missing ?_
      rcases padded.mem_or_zero (perm.mem_iff.mp member) with inTiling | rfl
      · have tiled := tiles.piece s.stripeSize_pos nonneg inTiling
        have short : (s.found c' name piece).length ≤ piece.data.bytes.length := by
          rw [found, List.length_take]
          exact min_le_left _ _
        exact (found_spec s c' name tiled (by omega) (by omega)).1.mp (by omega)
      · cases isNil

/-- Reading through a handle reads the store, and tells the end of the file by the number
of bytes that are missing. -/
theorem exec_memFile_readAt (inv : s.FileInv c name) (nonneg : 0 ≤ off) {offset : ℤ}
    {outcome : Option MemFile.ReadResult}
    (performed : Exec (MemFile.readAt ⟨s, name, offset⟩ dst off) c c' outcome) :
    ∃ n dst', Exec (s.readAt name off dst) c c' (some (n, dst')) ∧
      outcome = some (n, dst', if n < dst.length then some .eof else none) := by
  obtain ⟨zeros, few, reads⟩ := exec_readAt s name nonneg dst
  rw [MemFile.readAt, if_neg (by omega)] at performed
  by_cases empty : dst.length = 0
  · obtain rfl : dst = [] := List.length_eq_zero_iff.mp empty
    simp only [List.length_nil, ite_true, Program.pure_eq, Program.exec_ret_iff] at performed
    obtain ⟨rfl, rfl⟩ := performed
    have alone := Program.exec_run serve (s.readAt name off []) c'
    obtain ⟨unchanged, dst', result, filled⟩ := reads inv alone
    obtain rfl : zeros = 0 := few.mpr (by simp [touchedStripes])
    obtain rfl : dst' = [] := List.length_eq_zero_iff.mp filled.length_eq
    rw [result, unchanged] at alone
    exact ⟨0, [], by simpa [storedCount] using alone, by simp⟩
  · rw [if_neg empty, Exec, Program.exec_bind_iff] at performed
    rcases performed with ⟨⟨n, dst'⟩, middle, first, rest⟩ | ⟨aborted, -⟩
    · refine ⟨n, dst', ?_, ?_⟩
      · by_cases short : n < dst.length <;>
          simp only [short, ite_true, ite_false, Program.pure_eq, Program.exec_ret_iff] at rest <;>
          rwa [rest.1]
      · by_cases short : n < dst.length <;>
          simp only [short, ite_true, ite_false, Program.pure_eq, Program.exec_ret_iff]
            at rest ⊢ <;>
          exact rest.2
    · obtain ⟨-, dst', result, -⟩ := reads inv aborted
      cases result

/-! ## Reading files with gaps -/

/-- The read returns what a flat sequence of `size` bytes gives: the number of bytes
from `off` up to the size, these bytes with zeros in the gaps, and the rest of the
buffer as it was.

This is the meaning that a read would have for a file that is one string. -/
structure ReadsTo (s : DataStore) (c : Cluster) (name : GoString) (off : ℤ) (dst : List UInt8)
    (size n : ℤ) (dst' : List UInt8) : Prop where
  count_eq : n = min (dst.length : ℤ) (max 0 (size - off))
  inside : ∀ i : ℕ, (i : ℤ) < n → dst'[i]? = some (s.content c name (off + i))
  untouched : ∀ i : ℕ, n ≤ i → dst'[i]? = dst[i]?

/-- Reading the store, or through a handle, gives a flat sequence of `size` bytes; the
handle reports the end of the file when the buffer is not filled. -/
def ReadsWhole (s : DataStore) (c : Cluster) (name : GoString) (off : ℤ) (dst : List UInt8)
    (size : ℤ) : Prop :=
  (∀ c' outcome, Exec (s.readAt name off dst) c c' outcome →
    ∃ n dst', outcome = some (n, dst') ∧ ReadsTo s c name off dst size n dst') ∧
  ∀ offset c' outcome, Exec (MemFile.readAt ⟨s, name, offset⟩ dst off) c c' outcome →
    ∃ n dst' err, outcome = some (n, dst', err) ∧ ReadsTo s c name off dst size n dst' ∧
      (err = some .eof ↔ n < dst.length)

/-- All bytes up to the size are counted exactly when all of them are stored. -/
theorem storedCount_eq_iff (inv : s.FileInv c name) {size : ℤ}
    (isSize : IsSize s.stripeSize (s.stripe c name) size) :
    (s.storedCount c name off dst : ℤ) = min (dst.length : ℤ) (max 0 (size - off)) ↔
      ∀ p, off ≤ p → p < off + dst.length → p < size → s.Stores c name p := by
  set m := (min (dst.length : ℤ) (max 0 (size - off))).toNat with mEq
  -- Nothing is stored from the size on.
  have behind :
      Nat.count (fun i : ℕ => s.Stores c name (off + (m + i : ℕ))) (dst.length - m) = 0 := by
    rw [Nat.count_iff_forall_not]
    intro i inside stored
    have := isSize.lt_of_stored inv.wellFormed stored
    omega
  have split : s.storedCount c name off dst =
      Nat.count (fun i : ℕ => s.Stores c name (off + i)) m := by
    rw [storedCount, show dst.length = m + (dst.length - m) by omega, Nat.count_add, behind,
      add_zero]
  rw [split, show min (dst.length : ℤ) (max 0 (size - off)) = (m : ℤ) by omega, Nat.cast_inj,
    Nat.count_iff_forall]
  constructor
  · intro all p lower upper below
    have stored := all (p - off).toNat (by omega)
    rwa [show off + ((p - off).toNat : ℤ) = p by omega] at stored
  · intro all i inside
    exact all (off + i) (by omega) (by omega) (by omega)

/-- **When a read is right on a file with gaps.**  For a range that touches at most 100
stripes, the read gives the bytes up to the size, with zeros in the gaps, exactly when
there is no gap in the range: every position of it below the size is stored. -/
theorem readsWhole_iff (inv : s.FileInv c name) (nonneg : 0 ≤ off)
    (few : touchedStripes s.stripeSize off dst.length ≤ 100) {size : ℤ}
    (sized : Exec (s.getSize name) c c (some size)) :
    s.ReadsWhole c name off dst size ↔
      ∀ p, off ≤ p → p < off + dst.length → p < size → s.Stores c name p := by
  have isSize := isSize_of_exec_getSize inv sized
  rw [← storedCount_eq_iff inv isSize]
  obtain ⟨zeros, zero, reads⟩ := exec_readAt s name nonneg dst
  obtain rfl : zeros = 0 := zero.mpr few
  simp only [zero_mul, add_zero] at reads
  constructor
  · rintro ⟨correct, -⟩
    have performed := Program.exec_run serve (s.readAt name off dst) c
    obtain ⟨n, dst', result, whole⟩ := correct _ _ performed
    obtain ⟨-, buffer, result', -⟩ := reads inv performed
    rw [result] at result'
    obtain ⟨rfl, -⟩ := Prod.mk.inj (Option.some.inj result')
    exact whole.count_eq
  · intro all
    have stored := (storedCount_eq_iff inv isSize).mp all
    have whole : ∀ n dst', Exec (s.readAt name off dst) c c (some (n, dst')) →
        ReadsTo s c name off dst size n dst' := by
      intro n dst' performed
      obtain ⟨-, buffer, result, filled⟩ := reads inv performed
      obtain ⟨rfl, rfl⟩ := Prod.mk.inj (Option.some.inj result)
      refine ⟨all, fun i below => ?_, fun i above => ?_⟩
      · exact filled.stored i (by omega) (stored _ (by omega) (by omega) (by omega))
      · by_cases inside : i < dst.length
        · refine filled.missing i inside fun here => ?_
          have := isSize.lt_of_stored inv.wellFormed here
          omega
        · rw [List.getElem?_eq_none (by rw [filled.length_eq]; omega),
            List.getElem?_eq_none (by omega)]
    refine ⟨fun c' outcome performed => ?_, fun offset c' outcome performed => ?_⟩
    · obtain ⟨rfl, dst', rfl, -⟩ := reads inv performed
      exact ⟨_, dst', rfl, whole _ _ performed⟩
    · obtain ⟨n, dst', first, rfl⟩ := exec_memFile_readAt inv nonneg performed
      obtain ⟨rfl, -⟩ := reads inv first
      refine ⟨n, dst', _, rfl, whole n dst' first, ?_⟩
      split <;> simp_all

/-- What the small store holds after a write at the start of the file, and another one
past its end. -/
def gapFile : Cluster :=
  smallStore.afterWrite (smallStore 2) 5 [1] (smallStore.afterWrite (smallStore 2) 0 [1])

theorem gapFile_quiet : (smallStore 2).Quiet gapFile :=
  ((quiet_empty _).run (.writeAt ['f'] 0 [1] (by decide)) (by decide)).run
    (.writeAt ['f'] 5 [1] (by decide)) (by decide)

/-- It has six bytes, two of them stored. -/
theorem gapFile_getSize :
    Exec ((smallStore 2).getSize ['f']) gapFile gapFile (some 6) :=
  exec_getSize_of_run (gapFile_quiet.reachable.storeInv ['f']) (by decide)

/-! ## Counting what has been read -/

/-- The number returned by a read is the number of stored bytes that it has put into the
buffer, and the handle is advanced by no more than the length of the buffer. -/
def ReadsFilled (s : DataStore) (c : Cluster) (name : GoString) (off : ℤ) (dst : List UInt8) :
    Prop :=
  (∀ c' outcome, Exec (s.readAt name off dst) c c' outcome →
    ∃ (n : ℤ) (dst' : List UInt8), outcome = some (n, dst') ∧ Filled s c name off dst dst' ∧
      n = s.storedCount c name off dst ∧ n ≤ dst.length) ∧
  ∀ c' outcome, Exec (MemFile.read ⟨s, name, off⟩ dst) c c' outcome →
    ∃ (f : MemFile) (result : MemFile.ReadResult), outcome = some (f, result) ∧
      f.offset ≤ off + dst.length

/-- **When a read counts what it has read.**  The number returned is that of the
bytes put into the buffer exactly when the range touches at most 100 stripes, or
stripe `0` of the file is empty.  Behind 100 pieces the slice that the source makes
has as many entries that are zero values, and each of them fetches the whole of
stripe `0` and counts it, although there is nowhere to put it.  This is true of each
run, in whatever order the goroutines are served, since the number is a sum. -/
theorem readsFilled_iff (reached : s.Reachable c) (nonneg : 0 ≤ off) :
    s.ReadsFilled c name off dst ↔
      touchedStripes s.stripeSize off dst.length ≤ 100 ∨ s.stripe c name 0 = [] := by
  have inv := reached.storeInv name
  obtain ⟨zeros, few, reads⟩ := exec_readAt s name nonneg dst
  have bound : s.storedCount c name off dst ≤ dst.length := Nat.count_le _
  rw [← few, ← List.length_eq_zero_iff, ← mul_eq_zero]
  constructor
  · rintro ⟨correct, -⟩
    have performed := Program.exec_run serve (s.readAt name off dst) c
    obtain ⟨n, dst', result, -, count, -⟩ := correct _ _ performed
    obtain ⟨-, buffer, result', -⟩ := reads inv performed
    rw [result] at result'
    obtain ⟨same, -⟩ := Prod.mk.inj (Option.some.inj result')
    omega
  · intro none
    refine ⟨fun c' outcome performed => ?_, fun c' outcome performed => ?_⟩
    · obtain ⟨rfl, dst', rfl, filled⟩ := reads inv performed
      exact ⟨_, dst', rfl, filled, by rw [none, add_zero], by omega⟩
    · rw [MemFile.read, Exec, Program.exec_bind_iff] at performed
      rcases performed with ⟨⟨n, dst', err⟩, middle, first, rest⟩ | ⟨aborted, -⟩
      · obtain ⟨n', dst'', first', same⟩ := exec_memFile_readAt inv nonneg first
        obtain ⟨rfl, -⟩ := Prod.mk.inj (Option.some.inj same)
        obtain ⟨-, buffer, result, -⟩ := reads inv first'
        obtain ⟨rfl, -⟩ := Prod.mk.inj (Option.some.inj result)
        obtain ⟨rfl, rfl⟩ := Program.exec_ret_iff.mp rest
        exact ⟨_, _, rfl, by simp only; omega⟩
      · obtain ⟨n', dst', -, same⟩ := exec_memFile_readAt inv nonneg aborted
        cases same

/-- What the small store holds after a write of two bytes, each in a stripe of its own. -/
def twoStripes : Cluster := smallStore.afterWrite (smallStore 1) 0 [1, 2]

theorem twoStripes_quiet : (smallStore 1).Quiet twoStripes :=
  (quiet_empty _).run (.writeAt ['f'] 0 [1, 2] (by decide)) (by decide)

/-- A read of 101 stripes counts stripe `0` more than once. -/
theorem not_readsFilled_twoStripes : (smallStore 1).Reachable twoStripes ∧
    ¬(smallStore 1).ReadsFilled twoStripes ['f'] 0 (List.replicate 101 255) := by
  have inv := twoStripes_quiet.reachable.storeInv ['f']
  refine ⟨twoStripes_quiet.reachable, ?_⟩
  rintro ⟨correct, -⟩
  obtain ⟨zeros, few, reads⟩ := exec_readAt (smallStore 1) ['f'] le_rfl (List.replicate 101 255)
  have performed := Program.exec_run serve
    ((smallStore 1).readAt ['f'] 0 (List.replicate 101 255)) twoStripes
  obtain ⟨n, dst', result, -, count, -⟩ := correct _ _ performed
  obtain ⟨-, buffer, result', -⟩ := reads inv performed
  rw [result] at result'
  obtain ⟨same, -⟩ := Prod.mk.inj (Option.some.inj result')
  have stored : ((smallStore 1).stripe twoStripes ['f'] 0).length = 1 := by decide
  have padded : zeros ≠ 0 := by
    rw [Ne, few, List.length_replicate]
    decide
  rw [stored, mul_one] at same
  omega

/-- The same file, read over 100 stripes. -/
theorem readsFilled_twoStripes :
    (smallStore 1).ReadsFilled twoStripes ['f'] 0 (List.replicate 100 255) :=
  (readsFilled_iff twoStripes_quiet.reachable le_rfl).mpr (.inl (by
    rw [List.length_replicate]
    decide))

end DataStore

end Pdwfs
