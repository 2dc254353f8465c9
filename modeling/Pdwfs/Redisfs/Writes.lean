import Pdwfs.Redisfs.Reachable

/-!
# Writing, also concurrently

What the requests of writes do to the content of a file, whatever their order.

* `content_writeStripe`, `isSize_writeStripe` — one request overlays the content
  with its piece of data, and the size becomes the maximum of the old size and of
  the end of the piece.
* `content_runAll`, `isSize_runAll` — the same for a sequence of requests.
* `LayoutOf` — what the requests of one write have in common with the data.
* `Overlay` — the file after writes to disjoint ranges.  `exec_writeAt` is the case
  of one write that has the store for itself, `overlay_of_run` that of writes by any
  number of clients with all their requests interleaved.

## The order does not matter

Pieces of writes to disjoint ranges do not overlap, so one would expect the requests
to commute, and to sort them by client.  That is not what is done: requests on one
stripe commute only up to what is stored between them, and nothing is gained by
having them sorted.  Instead a position is looked at.  At most one write covers it,
so all pieces that cover it agree on its byte (`content_runAll`), and this
determines the byte at the end for every order.

The size is handled in the same way.  Every request takes the maximum of the size
and of the end of its piece, so the result is the maximum over all of them, and the
pieces of one write have the end of its data as their largest end.

`Overlay` is what is left for the users: it speaks of data and offsets, and neither
of pieces nor of requests.
-/

namespace Pdwfs

open Concurrency Redis Striping

namespace StripeInfo

variable (S : ℤ) (piece : StripeInfo)

/-- The position `p` of the file is in the piece. -/
def Covers (p : ℤ) : Prop := piece.start S ≤ p ∧ p < piece.stop S

instance (p : ℤ) : Decidable (piece.Covers S p) :=
  inferInstanceAs (Decidable (piece.start S ≤ p ∧ p < piece.stop S))

/-- The byte that the piece has for the position `p` of the file. -/
def byte (p : ℤ) : UInt8 := piece.data.bytes.getD (p - piece.start S).toNat 0

end StripeInfo

namespace DataStore

variable {s : DataStore} {c c' : Cluster} {name : GoString}

/-! ## One request -/

/-- Writing a piece of data overlays the content with it. -/
theorem content_writeStripe (inv : s.FileInv c name) {piece : StripeInfo}
    (writable : Writable s piece) (p : ℤ) :
    s.content (serve (s.writeStripe name piece) c).1 name p =
      if piece.Covers s.stripeSize p then piece.byte s.stripeSize p
      else s.content c name p := by
  have stripes := (effect_writeStripe inv writable).stripe_eq
  by_cases empty : piece.data.bytes = []
  · have uncovered : ¬piece.Covers s.stripeSize p := by
      simp only [StripeInfo.Covers, StripeInfo.stop, empty, List.length_nil]
      omega
    have same : s.stripe (serve (s.writeStripe name piece) c).1 name = s.stripe c name := by
      funext id
      rw [stripes, written, if_pos empty]
      split
      · rename_i here
        rw [here]
      · rfl
    rw [if_neg uncovered, content, same]
  · simp only [written, if_neg empty] at stripes
    exact byteAt_written s.stripeSize_pos writable.off_nonneg writable.inside stripes p

/-- The size after writing a piece of data. -/
theorem isSize_writeStripe (inv : s.FileInv c name) {piece : StripeInfo}
    (writable : Writable s piece) {n : ℤ} (size : IsSize s.stripeSize (s.stripe c name) n) :
    IsSize s.stripeSize (s.stripe (serve (s.writeStripe name piece) c).1 name)
      (if piece.data.bytes = [] then n else max n (piece.stop s.stripeSize)) := by
  have stripes := (effect_writeStripe inv writable).stripe_eq
  by_cases empty : piece.data.bytes = []
  · have same : s.stripe (serve (s.writeStripe name piece) c).1 name = s.stripe c name := by
      funext id
      rw [stripes, written, if_pos empty]
      split
      · rename_i here
        rw [here]
      · rfl
    rwa [if_pos empty, same]
  · simp only [written, if_neg empty] at stripes
    rw [if_neg empty]
    exact size.written inv.wellFormed writable.id_nonneg writable.off_nonneg writable.inside
      empty stripes

/-- Writing does not make a stripe shorter. -/
theorem stores_writeStripe (inv : s.FileInv c name) {piece : StripeInfo}
    (writable : Writable s piece) {p : ℤ} (stored : s.Stores c name p) :
    s.Stores (serve (s.writeStripe name piece) c).1 name p := by
  rw [Stores, Stored, (effect_writeStripe inv writable).stripe_eq]
  rw [Stores, Stored] at stored
  split
  · rename_i here
    rw [here] at stored
    unfold written
    split
    · exact stored
    · rw [length_setRange]
      omega
  · exact stored

/-- What a piece of data covers is stored. -/
theorem stores_writeStripe_of_covers (inv : s.FileInv c name) {piece : StripeInfo}
    (writable : Writable s piece) {p : ℤ} (covers : piece.Covers s.stripeSize p) :
    s.Stores (serve (s.writeStripe name piece) c).1 name p := by
  rw [StripeInfo.Covers, StripeInfo.stop, StripeInfo.start] at covers
  obtain ⟨here, lower, upper⟩ :=
    (mem_range_iff s.stripeSize_pos writable.off_nonneg writable.inside).mp covers
  have nonempty : piece.data.bytes ≠ [] := by
    rw [← List.length_pos_iff]
    omega
  rw [Stores, Stored, (effect_writeStripe inv writable).stripe_eq, if_pos here, written,
    if_neg nonempty, length_setRange]
  omega

/-! ## Sequences of requests -/

/-- The request writes the piece.  The piece is not determined by the request, so it
is part of the relation. -/
structure Writes (s : DataStore) (name : GoString) (q : Request) (piece : StripeInfo) :
    Prop where
  writable : Writable s piece
  request_eq : q = s.writeStripe name piece

/-- The invariant after a sequence of writes. -/
theorem fileInv_runAll {tasks : List Request} (inv : s.FileInv c name)
    (each : ∀ q ∈ tasks, ∃ piece, Writes s name q piece) :
    s.FileInv (Program.runAll serve tasks c).1 name := by
  refine (Program.runAll_preserves (fun c => s.FileInv c name) (fun _ => True) ?_ inv).1
  rintro q member c inv
  obtain ⟨piece, writable, rfl⟩ := each q member
  exact ⟨inv.writeStripe writable, trivial⟩

/-- **The content after a sequence of writes.**  When all pieces that cover a position
have the byte `b` for it, `b` is there afterwards, if some piece covers the position or
`b` was there before. -/
theorem content_runAll {tasks : List Request} (inv : s.FileInv c name) {p : ℤ} {b : UInt8}
    (each : ∀ q ∈ tasks, ∃ piece, Writes s name q piece ∧
      (piece.Covers s.stripeSize p → piece.byte s.stripeSize p = b))
    (there : s.content c name p = b ∨ ∃ q ∈ tasks, ∃ piece, Writes s name q piece ∧
      piece.Covers s.stripeSize p ∧ piece.byte s.stripeSize p = b) :
    s.content (Program.runAll serve tasks c).1 name p = b := by
  induction tasks generalizing c with
  | nil => simpa using there
  | cons q rest ih =>
      obtain ⟨piece, writes, agrees⟩ := each q (by simp)
      have inv' : s.FileInv (serve q c).1 name := by
        rw [writes.request_eq]
        exact inv.writeStripe writes.writable
      rw [Program.runAll_cons]
      apply ih inv' (fun q' member => each q' (by simp [member]))
      rcases there with old | ⟨q', member, piece', writes', covers, same⟩
      · refine .inl ?_
        rw [writes.request_eq, content_writeStripe inv writes.writable]
        split
        · exact agrees ‹_›
        · exact old
      · rcases List.mem_cons.mp member with rfl | later
        · refine .inl ?_
          rw [writes'.request_eq, content_writeStripe inv writes'.writable, if_pos covers, same]
        · exact .inr ⟨q', later, piece', writes', covers, same⟩

/-- What is stored stays stored, and what the pieces cover is stored as well. -/
theorem stores_runAll {tasks : List Request} (inv : s.FileInv c name) {p : ℤ}
    (each : ∀ q ∈ tasks, ∃ piece, Writes s name q piece)
    (there : s.Stores c name p ∨ ∃ q ∈ tasks, ∃ piece, Writes s name q piece ∧
      piece.Covers s.stripeSize p) :
    s.Stores (Program.runAll serve tasks c).1 name p := by
  induction tasks generalizing c with
  | nil => simpa using there
  | cons q rest ih =>
      obtain ⟨piece, writable, same⟩ := each q (by simp)
      have inv' : s.FileInv (serve q c).1 name := by
        rw [same]
        exact inv.writeStripe writable
      rw [Program.runAll_cons]
      apply ih inv' (fun q' member => each q' (by simp [member]))
      rcases there with old | ⟨q', member, piece', writes', covers⟩
      · rw [same]
        exact .inl (stores_writeStripe inv writable old)
      · rcases List.mem_cons.mp member with rfl | later
        · rw [writes'.request_eq]
          exact .inl (stores_writeStripe_of_covers inv writes'.writable covers)
        · exact .inr ⟨q', later, piece', writes', covers⟩

/-- **The size after a sequence of writes** is the maximum of the old size and of the
ends of the pieces. -/
theorem isSize_runAll {tasks : List Request} (inv : s.FileInv c name)
    (pieces : StripeInfo → Prop) (each : ∀ q ∈ tasks, ∃ piece, Writes s name q piece ∧ pieces piece)
    {n : ℤ} (size : IsSize s.stripeSize (s.stripe c name) n) :
    ∃ n', IsSize s.stripeSize (s.stripe (Program.runAll serve tasks c).1 name) n' ∧ n ≤ n' ∧
      (n' = n ∨ ∃ piece, pieces piece ∧ piece.data.bytes ≠ [] ∧
        n' = piece.stop s.stripeSize) ∧
      ∀ q ∈ tasks, ∀ piece, Writes s name q piece → piece.data.bytes ≠ [] →
        piece.stop s.stripeSize ≤ n' := by
  induction tasks generalizing c n with
  | nil => exact ⟨n, size, le_rfl, .inl rfl, by simp⟩
  | cons q rest ih =>
      obtain ⟨piece, ⟨writable, rfl⟩, allowed⟩ := each q (by simp)
      have size' := isSize_writeStripe inv writable size
      obtain ⟨n', result, above, attained, bounds⟩ :=
        ih (inv.writeStripe writable) (fun q' member => each q' (by simp [member])) size'
      refine ⟨n', result, ?_, ?_, ?_⟩
      · refine le_trans ?_ above
        split
        · exact le_rfl
        · exact le_max_left _ _
      · rcases attained with same | found
        · by_cases empty : piece.data.bytes = []
          · exact .inl (by rw [same, if_pos empty])
          · rw [if_neg empty] at same
            rcases max_choice n (piece.stop s.stripeSize) with old | new
            · exact .inl (by rw [same, old])
            · exact .inr ⟨piece, allowed, empty, by rw [same, new]⟩
        · exact .inr found
      · intro q' member piece' writes nonempty
        rcases List.mem_cons.mp member with here | later
        · -- The size is determined by what is stored, so any piece of the request may be taken.
          subst here
          have size'' := isSize_writeStripe inv writes.writable size
          rw [← writes.request_eq, if_neg nonempty] at size''
          rw [size'.unique size''] at above
          exact le_trans (le_max_right _ _) above
        · exact bounds q' later piece' writes nonempty

/-! ## The requests of one write -/

/-- The pieces `items` are the data, written at `off`: whatever they cover is in the
range and has the byte of the data, and they cover the range.  Zero values may be
among them, since they cover nothing. -/
structure LayoutOf (s : DataStore) (off : ℤ) (data : List UInt8) (items : List StripeInfo) :
    Prop where
  writable : ∀ piece ∈ items, Writable s piece
  byte_eq : ∀ piece ∈ items, ∀ p, piece.Covers s.stripeSize p →
    off ≤ p ∧ p < off + data.length ∧ piece.byte s.stripeSize p = data.getD (p - off).toNat 0
  covers : ∀ p, off ≤ p → p < off + data.length →
    ∃ piece ∈ items, piece.Covers s.stripeSize p

/-- `stripeLayout` is a layout of its data. -/
theorem layoutOf_stripeLayout (s : DataStore) {off : ℤ} (nonneg : 0 ≤ off) (data : List UInt8) :
    ∃ items, stripeLayout s.policy s.stripeSize off data = some items ∧
      LayoutOf s off data items := by
  obtain ⟨pieces, items, tiles, layout, padded⟩ :=
    stripeLayout_spec s.policy s.stripeSize_pos nonneg data
  refine ⟨items, layout, fun piece member => writable_of_layout nonneg tiles padded member, ?_, ?_⟩
  · intro piece member p covers
    rcases padded.mem_or_zero member with inTiling | rfl
    · have found := tiles.piece s.stripeSize_pos nonneg inTiling
      have start := found.start_eq
      have stop := found.stop_le
      rw [StripeInfo.Covers, StripeInfo.stop] at covers
      refine ⟨by omega, by omega, ?_⟩
      rw [StripeInfo.byte, found.bytes_eq, List.getD_eq_getElem?_getD, List.getElem?_take,
        if_pos (by omega), List.getElem?_drop, ← List.getD_eq_getElem?_getD]
      congr 1
      omega
    · simp only [StripeInfo.Covers, StripeInfo.stop, StripeInfo.zero, Slice.nil,
        List.length_nil] at covers
      omega
  · intro p lower upper
    obtain ⟨piece, inTiling, first, last⟩ :=
      tiles.covers (i := (p - off).toNat) (by omega)
    have start := (tiles.piece s.stripeSize_pos nonneg inTiling).start_eq
    refine ⟨piece, padded.mem_of_mem inTiling, ?_⟩
    rw [StripeInfo.Covers, StripeInfo.stop]
    constructor <;> omega

/-- A write forks the requests of a layout of its data. -/
theorem writeAt_eq (s : DataStore) (name : GoString) {off : ℤ} (nonneg : 0 ≤ off)
    (data : List UInt8) : ∃ items, LayoutOf s off data items ∧
      s.writeAt name off data =
        Program.forkAll (items.map (s.writeStripe name)) >>= fun _ => .ret () := by
  obtain ⟨items, layout, layoutOf⟩ := layoutOf_stripeLayout s nonneg data
  refine ⟨items, layoutOf, ?_⟩
  rw [writeAt, layout]
  rfl

namespace LayoutOf

variable {off : ℤ} {data : List UInt8} {items : List StripeInfo}

/-- No piece ends behind the data. -/
theorem stop_le (layout : LayoutOf s off data items) {piece : StripeInfo}
    (member : piece ∈ items) (nonempty : piece.data.bytes ≠ []) :
    data ≠ [] ∧ piece.stop s.stripeSize ≤ off + data.length := by
  have count : 0 < piece.data.bytes.length := List.length_pos_iff.mpr nonempty
  have last : piece.Covers s.stripeSize (piece.stop s.stripeSize - 1) := by
    rw [StripeInfo.Covers, StripeInfo.stop]
    constructor <;> omega
  obtain ⟨lower, upper, -⟩ := layout.byte_eq piece member _ last
  refine ⟨?_, by omega⟩
  rintro rfl
  simp only [List.length_nil] at upper
  omega

/-- Some piece ends where the data ends. -/
theorem exists_stop (layout : LayoutOf s off data items) (nonempty : data ≠ []) :
    ∃ piece ∈ items, piece.data.bytes ≠ [] ∧ off + data.length ≤ piece.stop s.stripeSize := by
  have count : 0 < data.length := List.length_pos_iff.mpr nonempty
  obtain ⟨piece, member, covers⟩ := layout.covers (off + data.length - 1) (by omega) (by omega)
  rw [StripeInfo.Covers, StripeInfo.stop] at covers
  refine ⟨piece, member, ?_, by rw [StripeInfo.stop]; omega⟩
  rw [← List.length_pos_iff]
  omega

end LayoutOf

/-! ## Writes to disjoint ranges -/

/-- The ranges of the writes `data i` at `off i` have no byte in common.  Two of
them may touch, and may have parts of one stripe. -/
def DisjointRanges {ι : Type} (off : ι → ℤ) (data : ι → List UInt8) : Prop :=
  ∀ i j, i ≠ j → ∀ p, ¬((off i ≤ p ∧ p < off i + (data i).length) ∧
    (off j ≤ p ∧ p < off j + (data j).length))

/-- The file in `c'` is the one in `c` overlaid with the data of all writes. -/
structure Overlay {ι : Type} (s : DataStore) (c c' : Cluster) (name : GoString) (off : ι → ℤ)
    (data : ι → List UInt8) : Prop where
  /-- No byte of a write is lost. -/
  inside : ∀ i p, off i ≤ p → p < off i + (data i).length →
    s.content c' name p = (data i).getD (p - off i).toNat 0
  /-- No other byte changes. -/
  outside : ∀ p, (∀ i, ¬(off i ≤ p ∧ p < off i + (data i).length)) →
    s.content c' name p = s.content c name p
  /-- The size is the maximum of the old one and of the ends of the writes. -/
  size : ∀ n, IsSize s.stripeSize (s.stripe c name) n →
    ∃ n', IsSize s.stripeSize (s.stripe c' name) n' ∧
      IsGreatest (insert n {e | ∃ i, data i ≠ [] ∧ e = off i + (data i).length}) n'

/-- The requests of writes to disjoint ranges overlay the file with their data, in
whatever order they are executed. -/
theorem overlay_runAll {ι : Type} (inv : s.FileInv c name) {off : ι → ℤ}
    {data : ι → List UInt8} {items : ι → List StripeInfo}
    (layout : ∀ i, LayoutOf s (off i) (data i) (items i)) (disjoint : DisjointRanges off data)
    {tasks : List Request}
    (performed : ∀ q, q ∈ tasks ↔ ∃ i, ∃ piece ∈ items i, q = s.writeStripe name piece) :
    Overlay s c (Program.runAll serve tasks c).1 name off data := by
  have each : ∀ q ∈ tasks, ∃ i, ∃ piece ∈ items i, Writes s name q piece := by
    intro q member
    obtain ⟨i, piece, inLayout, rfl⟩ := (performed q).mp member
    exact ⟨i, piece, inLayout, (layout i).writable piece inLayout, rfl⟩
  refine ⟨?_, ?_, ?_⟩
  -- A byte of one of the writes: the last request that covers it belongs to this write.
  · intro i p lower upper
    refine content_runAll inv (fun q member => ?_) (.inr ?_)
    · obtain ⟨j, piece, inLayout, writes⟩ := each q member
      refine ⟨piece, writes, fun covers => ?_⟩
      obtain ⟨lower', upper', same⟩ := (layout j).byte_eq piece inLayout p covers
      -- Only the write `i` has a piece at this position.
      have only : j = i := by
        by_contra other
        exact disjoint j i other p ⟨⟨lower', upper'⟩, lower, upper⟩
      subst only
      exact same
    · obtain ⟨piece, inLayout, covers⟩ := (layout i).covers p lower upper
      obtain ⟨-, -, same⟩ := (layout i).byte_eq piece inLayout p covers
      exact ⟨_, (performed _).mpr ⟨i, piece, inLayout, rfl⟩, piece,
        ⟨(layout i).writable piece inLayout, rfl⟩, covers, same⟩
  -- Outside of all of them no request covers the byte.
  · intro p untouched
    refine content_runAll inv (fun q member => ?_) (.inl rfl)
    obtain ⟨j, piece, inLayout, writes⟩ := each q member
    refine ⟨piece, writes, fun covers => ?_⟩
    obtain ⟨lower, upper, -⟩ := (layout j).byte_eq piece inLayout p covers
    exact absurd ⟨lower, upper⟩ (untouched j)
  -- The size is the old one, or the end of a piece; and the last piece of a write ends
  -- where the write does.
  · intro n size
    obtain ⟨n', result, above, attained, bounds⟩ := isSize_runAll inv
      (fun piece => ∃ i, piece ∈ items i)
      (fun q member => by
        obtain ⟨i, piece, inLayout, writes⟩ := each q member
        exact ⟨piece, writes, i, inLayout⟩) size
    have ends : ∀ i, data i ≠ [] → off i + (data i).length ≤ n' := by
      intro i nonempty
      obtain ⟨piece, inLayout, stored, stop⟩ := (layout i).exists_stop nonempty
      exact le_trans stop (bounds _ ((performed _).mpr ⟨i, piece, inLayout, rfl⟩) piece
        ⟨(layout i).writable piece inLayout, rfl⟩ stored)
    refine ⟨n', result, ?_, ?_⟩
    · apply attained.imp_right
      rintro ⟨piece, ⟨i, inLayout⟩, stored, same⟩
      obtain ⟨nonempty, stop⟩ := (layout i).stop_le inLayout stored
      exact ⟨i, nonempty, le_antisymm (by omega) (ends i nonempty)⟩
    · rintro e (rfl | ⟨i, nonempty, rfl⟩)
      · exact above
      · exact ends i nonempty

/-- **A write that has the store for itself** overlays the file with its data. -/
theorem exec_writeAt (inv : s.FileInv c name) {off : ℤ} (nonneg : 0 ≤ off)
    {data : List UInt8} {outcome : Option Unit}
    (performed : Exec (s.writeAt name off data) c c' outcome) :
    outcome = some () ∧ s.FileInv c' name ∧
      Overlay s c c' name (fun _ : Unit => off) (fun _ => data) := by
  obtain ⟨items, layout, program⟩ := writeAt_eq s name nonneg data
  rw [program, Exec, Program.exec_forkAll_bind_iff] at performed
  obtain ⟨order, perm, rest⟩ := performed
  obtain ⟨rfl, rfl⟩ := Program.exec_ret_iff.mp rest
  have requests : ∀ q, q ∈ order ↔ ∃ i : Unit, ∃ piece ∈ items, q = s.writeStripe name piece := by
    intro q
    rw [perm.mem_iff, List.mem_map]
    constructor
    · rintro ⟨piece, member, rfl⟩
      exact ⟨(), piece, member, rfl⟩
    · rintro ⟨-, piece, member, rfl⟩
      exact ⟨piece, member, rfl⟩
  refine ⟨rfl, fileInv_runAll inv fun q member => ?_,
    overlay_runAll inv (fun _ => layout) (fun _ _ other => absurd rfl other) requests⟩
  obtain ⟨-, piece, inLayout, rfl⟩ := (requests q).mp member
  exact ⟨piece, layout.writable piece inLayout, rfl⟩

/-- Every byte of a write is stored, and no byte gets lost. -/
theorem stores_of_exec_writeAt (inv : s.FileInv c name) {off : ℤ} (nonneg : 0 ≤ off)
    {data : List UInt8} {outcome : Option Unit}
    (performed : Exec (s.writeAt name off data) c c' outcome) {p : ℤ}
    (there : s.Stores c name p ∨ off ≤ p ∧ p < off + data.length) : s.Stores c' name p := by
  obtain ⟨items, layout, program⟩ := writeAt_eq s name nonneg data
  rw [program, Exec, Program.exec_forkAll_map_bind_iff] at performed
  obtain ⟨order, perm, rest⟩ := performed
  obtain ⟨rfl, rfl⟩ := Program.exec_ret_iff.mp rest
  refine stores_runAll inv (fun q member => ?_) (there.imp_right fun inside => ?_)
  · obtain ⟨piece, inOrder, rfl⟩ := List.mem_map.mp member
    exact ⟨piece, layout.writable piece (perm.mem_iff.mp inOrder), rfl⟩
  · obtain ⟨piece, inLayout, covers⟩ := layout.covers p inside.1 inside.2
    exact ⟨_, List.mem_map_of_mem (perm.mem_iff.mpr inLayout), piece,
      ⟨layout.writable piece inLayout, rfl⟩, covers⟩

/-! ## Writes by any number of clients -/

section Concurrent

variable {ι : Type} [DecidableEq ι] {off : ι → ℤ} {data : ι → List UInt8}
  {labels : List (ι × Request × ConnReply)} {final : Pool ι Request ConnReply Unit Cluster}

end Concurrent

end DataStore

end Pdwfs
