import Pdwfs.Concurrency.Schedules
import Pdwfs.Redisfs.Writes

/-!
# Writes that overlap

Any number of clients write to one file, at the same time and to any ranges.  A
stripe is written by one request of a client, so that it looks as if the clients had
written to it one after the other.  Nothing orders the stripes: each has its own
order.

* `writersOf` — the order in which a stripe is written.
* `overlapping_writes` — what the file can be afterwards is exactly what one order
  for each stripe leaves.

## Two inclusions

That each outcome comes from some orders is what a reader of the file may rely on:
no stripe is torn.  That each choice of orders can be an outcome is what he may not
rely on, and it takes a schedule that the module constructs (`scheduleOf`): stripe
by stripe, the clients write in the order of the stripe.  The requests of one
`WriteAt` are issued by goroutines of their own, which is why a client can be first
in one stripe and last in the next.

## Content

The content of a file is taken as a function of the position.  A piece writes over
what has been there where it covers the position, and leaves it elsewhere
(`StripeInfo.writtenOver`).  So what a schedule does to a byte is a fold over the
requests, and only those of the stripe of the byte matter to it.  There it does not
depend on how the ranges of the clients are cut.
-/

namespace Pdwfs

open Concurrency Redis Striping

namespace Tiles

/-- The pieces of a tiling are in different stripes. -/
theorem pairwise_id_ne {S start : ℤ} {pos : ℕ} {data : List UInt8} {stripes : List StripeInfo}
    (tiles : Tiles S start pos data stripes) (positive : 0 < S) :
    stripes.Pairwise fun piece piece' => piece.id ≠ piece'.id := by
  rw [List.pairwise_iff_getElem]
  intro i j inside inside' before
  have ids := (tiles.partition positive).ids
  rw [ids i _ (List.getElem?_eq_getElem inside), ids j _ (List.getElem?_eq_getElem inside')]
  omega

end Tiles

namespace StripeInfo

/-- The byte at the position `p` of the file when the piece has been written over `old`. -/
def writtenOver (S p : ℤ) (old : UInt8) (piece : StripeInfo) : UInt8 :=
  if piece.Covers S p then piece.byte S p else old

end StripeInfo

namespace DataStore

variable {s : DataStore} {c : Cluster} {name : GoString} {ι : Type}

/-- The byte at the position `p` of the file when client `i` has written over `old`. -/
def overwrite (off : ι → ℤ) (data : ι → List UInt8) (p : ℤ) (old : UInt8) (i : ι) : UInt8 :=
  if off i ≤ p ∧ p < off i + (data i).length then (data i).getD (p - off i).toNat 0 else old

/-! ## The pieces of a write -/

/-- The pieces of a write: those that hold data are in different stripes. -/
structure PiecesOf (s : DataStore) (off : ℤ) (data : List UInt8) (items : List StripeInfo) : Prop
    extends LayoutOf s off data items where
  apart : (items.filter fun piece => piece.data.bytes ≠ []).Pairwise
    fun piece piece' => piece.id ≠ piece'.id

/-- A write is its pieces, each of which is one request, and then nothing. -/
theorem writeAt_eq_resume (s : DataStore) (name : GoString) {off : ℤ} (nonneg : 0 ≤ off)
    (data : List UInt8) : ∃ items, PiecesOf s off data items ∧ s.writeAt name off data =
      Program.resume (items.map (s.writeStripe name)) [] fun _ => .ret () := by
  obtain ⟨pieces, items, tiles, layout, padded⟩ :=
    stripeLayout_spec s.policy s.stripeSize_pos nonneg data
  obtain ⟨items', layout', layoutOf⟩ := layoutOf_stripeLayout s nonneg data
  obtain rfl : items' = items := Option.some.inj (layout'.symm.trans layout)
  refine ⟨items', ⟨layoutOf, ?_⟩, ?_⟩
  · -- What holds data is a piece of the tiling.
    have same : items'.filter (fun piece => piece.data.bytes ≠ []) =
        pieces.filter fun piece => piece.data.bytes ≠ [] := by
      rw [← padded.filter_eq, List.filter_filter]
      refine List.filter_congr fun piece member => ?_
      cases isNil : piece.data.isNil with
      | false => simp
      | true =>
          rw [padded.nil_eq piece member isNil]
          rfl
    rw [same]
    exact (tiles.pairwise_id_ne s.stripeSize_pos).sublist List.filter_sublist
  · have program : s.writeAt name off data =
        Program.forkAll (items'.map (s.writeStripe name)) >>= fun _ => .ret () := by
      rw [writeAt, layout]
      rfl
    rw [program, Program.forkAll, Program.resume_bind]
    rfl

/-- **The content after the pieces** have been written, one after the other. -/
theorem content_runAll_pieces (inv : s.FileInv c name) {pieces : List StripeInfo}
    (writable : ∀ piece ∈ pieces, Writable s piece) (p : ℤ) :
    s.content (Program.runAll serve (pieces.map (s.writeStripe name)) c).1 name p =
      pieces.foldl (StripeInfo.writtenOver s.stripeSize p) (s.content c name p) := by
  induction pieces generalizing c with
  | nil => simp
  | cons piece rest ih =>
      have first := writable piece (by simp)
      rw [List.map_cons, Program.runAll_cons, List.foldl_cons, StripeInfo.writtenOver,
        ← content_writeStripe inv first]
      exact ih (inv.writeStripe first) fun piece' member => writable piece' (by simp [member])

/-- A piece that covers a position holds data and is in the stripe of the position. -/
theorem id_of_covers {piece : StripeInfo} (writable : Writable s piece) {p : ℤ}
    (covers : piece.Covers s.stripeSize p) :
    piece.id = p / s.stripeSize ∧ piece.data.bytes ≠ [] := by
  rw [StripeInfo.Covers, StripeInfo.stop, StripeInfo.start] at covers
  obtain ⟨here, -, -⟩ := (mem_range_iff s.stripeSize_pos writable.off_nonneg writable.inside).mp
    covers
  refine ⟨here.symm, ?_⟩
  rw [← List.length_pos_iff]
  omega

namespace PiecesOf

variable {off : ι → ℤ} {data : ι → List UInt8} {items : List StripeInfo} {i : ι}

/-- A client has one piece in a stripe at most, of those that hold data. -/
theorem eq_of_id (pieces : PiecesOf s (off i) (data i) items) {piece piece' : StripeInfo}
    (member : piece ∈ items) (member' : piece' ∈ items) (nonempty : piece.data.bytes ≠ [])
    (nonempty' : piece'.data.bytes ≠ []) (same : piece.id = piece'.id) : piece = piece' := by
  by_contra other
  have symmetric : Std.Symm fun piece piece' : StripeInfo => piece.id ≠ piece'.id :=
    ⟨fun _ _ => Ne.symm⟩
  refine pieces.apart.forall ?_ ?_ other same
  · simp [member, nonempty]
  · simp [member', nonempty']

/-- The same, as a number. -/
theorem length_le_one (pieces : PiecesOf s (off i) (data i) items) (id : ℤ) :
    (items.filter fun piece => piece.id = id ∧ piece.data.bytes ≠ []).length ≤ 1 := by
  have nodup := pieces.apart.filter fun piece => decide (piece.id = id)
  rw [List.filter_filter] at nodup
  simp only [← Bool.decide_and] at nodup
  have same : ∀ piece ∈ items.filter fun piece => piece.id = id ∧ piece.data.bytes ≠ [],
      piece.id = id := fun piece member => (of_decide_eq_true (List.mem_filter.mp member).2).1
  generalize items.filter (fun piece => piece.id = id ∧ piece.data.bytes ≠ []) = found at nodup same
  match found with
  | [] => simp
  | [_] => simp
  | first :: second :: _ =>
      have different := (List.pairwise_cons.mp nodup).1 second (by simp)
      exact absurd ((same first (by simp)).trans (same second (by simp)).symm) different

/-- The piece of a client in the stripe of a position is what the client writes there. -/
theorem writtenOver_eq (pieces : PiecesOf s (off i) (data i) items) {piece : StripeInfo}
    (member : piece ∈ items) {p : ℤ} (here : piece.id = p / s.stripeSize)
    (nonempty : piece.data.bytes ≠ []) (old : UInt8) :
    piece.writtenOver s.stripeSize p old = overwrite off data p old i := by
  by_cases covers : piece.Covers s.stripeSize p
  · obtain ⟨lower, upper, same⟩ := pieces.byte_eq piece member p covers
    rw [StripeInfo.writtenOver, if_pos covers, overwrite, if_pos ⟨lower, upper⟩, same]
  · rw [StripeInfo.writtenOver, if_neg covers, overwrite, if_neg]
    rintro ⟨lower, upper⟩
    obtain ⟨piece', member', covers'⟩ := pieces.covers p lower upper
    obtain ⟨here', nonempty'⟩ := id_of_covers (pieces.writable piece' member') covers'
    obtain rfl := pieces.eq_of_id member member' nonempty nonempty' (here.trans here'.symm)
    exact covers covers'

/-- A client that has no piece in the stripe of a position does not write there. -/
theorem overwrite_of_none (pieces : PiecesOf s (off i) (data i) items) {p : ℤ}
    (none : ∀ piece ∈ items, piece.id = p / s.stripeSize → piece.data.bytes = []) (old : UInt8) :
    overwrite off data p old i = old := by
  rw [overwrite, if_neg]
  rintro ⟨lower, upper⟩
  obtain ⟨piece, member, covers⟩ := pieces.covers p lower upper
  obtain ⟨here, nonempty⟩ := id_of_covers (pieces.writable piece member) covers
  exact nonempty (none piece member here)

end PiecesOf

/-! ## Schedules of pieces -/

/-- The clients that write to the stripe `id`, in the order of the schedule. -/
def writersOf (tasks : List (ι × StripeInfo)) (id : ℤ) : List ι :=
  (tasks.filter fun task => task.2.id = id ∧ task.2.data.bytes ≠ []).map Prod.fst

section Schedules

variable [DecidableEq ι] {off : ι → ℤ} {data : ι → List UInt8} {items : ι → List StripeInfo}

/-- No client writes twice to a stripe. -/
theorem nodup_writersOf (pieces : ∀ i, PiecesOf s (off i) (data i) (items i))
    {tasks : List (ι × StripeInfo)} (parts : ∀ i, (Schedule.part tasks i).Perm (items i)) (id : ℤ) :
    (writersOf tasks id).Nodup := by
  rw [List.nodup_iff_count_le_one]
  intro i
  have count : (writersOf tasks id).count i = ((items i).filter fun piece =>
      piece.id = id ∧ piece.data.bytes ≠ []).length := by
    rw [← List.countP_eq_length_filter, ← (parts i).countP_eq, Schedule.part, List.countP_map,
      List.countP_filter, writersOf, List.count_eq_countP, List.countP_map, List.countP_filter]
    refine List.countP_congr fun task _ => ?_
    simp [and_comm]
  rw [count]
  exact (pieces i).length_le_one id

omit [DecidableEq ι] in
/-- What a schedule leaves at a position is what the clients that write to its stripe leave. -/
theorem foldl_writtenOver (pieces : ∀ i, PiecesOf s (off i) (data i) (items i))
    {tasks : List (ι × StripeInfo)} (each : ∀ task ∈ tasks, task.2 ∈ items task.1) (p : ℤ)
    (old : UInt8) :
    (tasks.map Prod.snd).foldl (StripeInfo.writtenOver s.stripeSize p) old =
      (writersOf tasks (p / s.stripeSize)).foldl (overwrite off data p) old := by
  induction tasks generalizing old with
  | nil => rfl
  | cons task rest ih =>
      have later := ih fun task' member => each task' (by simp [member])
      have member := each task (by simp)
      by_cases here : task.2.id = p / s.stripeSize ∧ task.2.data.bytes ≠ []
      · have first : writersOf (task :: rest) (p / s.stripeSize) =
            task.1 :: writersOf rest (p / s.stripeSize) := by
          simp [writersOf, here]
        rw [first, List.map_cons, List.foldl_cons, List.foldl_cons, later,
          (pieces task.1).writtenOver_eq member here.1 here.2]
      · have first : writersOf (task :: rest) (p / s.stripeSize) =
            writersOf rest (p / s.stripeSize) := by
          simp only [writersOf, List.filter_cons, here, decide_false, Bool.false_eq_true, if_false]
        have uncovered : ¬task.2.Covers s.stripeSize p := fun covers =>
          here (id_of_covers ((pieces task.1).writable _ member) covers)
        rw [first, List.map_cons, List.foldl_cons, StripeInfo.writtenOver, if_neg uncovered, later]

/-- A finished run performs a schedule of the pieces.  It holds all pieces of each
client, in some order. -/
theorem exists_schedule (writes : ∀ i, s.writeAt name (off i) (data i) =
      Program.resume ((items i).map (s.writeStripe name)) [] fun _ => .ret ())
    {labels : List (ι × Request × ConnReply)} {final : Pool ι Request ConnReply Unit Cluster}
    (performed : Pool.Run serve ⟨c, fun i => s.writeAt name (off i) (data i)⟩ labels final)
    (finished : ∀ i, (final.threads i).Stopped) :
    ∃ tasks : List (ι × StripeInfo), (∀ i, (Schedule.part tasks i).Perm (items i)) ∧
      final.store = (Program.runAll serve
        ((tasks.map Prod.snd).map (s.writeStripe name)) c).1 := by
  have : Nonempty ConnReply := ⟨.protocolError⟩
  simp only [writes] at performed
  have perm := fun i => performed.part_perm (fun _ _ => Program.stopped_ret ()) finished i
  choose jobs map_jobs jobs_perm using fun i => Program.exists_map_of_perm_map (perm i)
  obtain ⟨tasks, lifted, parts⟩ := Schedule.exists_lift map_jobs
  refine ⟨tasks, fun i => parts i ▸ jobs_perm i, ?_⟩
  have requests : (labels.map Prod.snd).map Prod.fst =
      (tasks.map Prod.snd).map (s.writeStripe name) := by
    have second := congrArg (List.map Prod.snd) lifted
    simp only [Pool.requestsOf, List.map_map] at second ⊢
    exact second.symm
  rw [performed.replay.store_eq, requests]

/-! ## Schedules of orders -/

/-- Stripe by stripe, the clients write in the order of the stripe. -/
def scheduleOf (orders : ℤ → List ι) (items : ι → List StripeInfo) (ids : List ℤ) :
    List (ι × StripeInfo) :=
  ids.flatMap fun id => (orders id).flatMap fun i =>
    ((items i).filter fun piece => piece.id = id).map fun piece => (i, piece)

/-- One order of the clients for each stripe.  All clients are in it, also those
that do not write there. -/
structure Orders (orders : ℤ → List ι) : Prop where
  nodup : ∀ id, (orders id).Nodup
  mem : ∀ id i, i ∈ orders id

/-- The schedule has the pieces of each client, each of them once. -/
theorem part_scheduleOf {orders : ℤ → List ι} (each : Orders orders) {ids : List ℤ}
    (nodup : ids.Nodup) (i : ι) (known : ∀ piece ∈ items i, piece.id ∈ ids) :
    (Schedule.part (scheduleOf orders items ids) i).Perm (items i) := by
  have whole : Schedule.part (scheduleOf orders items ids) i =
      ids.flatMap fun id => (items i).filter fun piece => piece.id = id := by
    rw [scheduleOf, Schedule.part_flatMap]
    refine List.flatMap_congr fun id _ => ?_
    exact Schedule.part_turns (fun j => (items j).filter fun piece => piece.id = id)
      (each.nodup id) (each.mem id i)
  rw [whole]
  exact Schedule.perm_flatMap_filter StripeInfo.id nodup known

omit [DecidableEq ι] in
/-- The pieces of one client, in the stripe `id`. -/
theorem foldl_filter (pieces : ∀ i, PiecesOf s (off i) (data i) (items i)) (i : ι) (id p : ℤ)
    (old : UInt8) : ((items i).filter fun piece => piece.id = id).foldl
        (StripeInfo.writtenOver s.stripeSize p) old =
      if id = p / s.stripeSize then overwrite off data p old i else old := by
  set turn := ((items i).filter fun piece => piece.id = id).map fun piece => (i, piece) with mine
  have each : ∀ task ∈ turn, task.2 ∈ items task.1 := by
    rintro ⟨j, piece⟩ member
    obtain ⟨piece', inside, same⟩ := List.mem_map.mp member
    obtain ⟨rfl, rfl⟩ := Prod.mk.inj same
    exact (List.mem_filter.mp inside).1
  have second : turn.map Prod.snd = (items i).filter fun piece => piece.id = id := by
    simp [mine, Function.comp_def]
  rw [← second, foldl_writtenOver pieces each]
  split
  · rename_i here
    subst here
    have writers : writersOf turn (p / s.stripeSize) = ((items i).filter fun piece =>
        piece.id = p / s.stripeSize ∧ piece.data.bytes ≠ []).map fun _ => i := by
      rw [writersOf, mine, List.filter_map, List.filter_filter, List.map_map]
      refine congrArg _ (List.filter_congr fun piece _ => ?_)
      simpa [and_comm] using fun here _ => here
    have single := (pieces i).length_le_one (p / s.stripeSize)
    rw [writers]
    cases found : (items i).filter fun piece =>
        piece.id = p / s.stripeSize ∧ piece.data.bytes ≠ [] with
    | nil =>
        refine ((pieces i).overwrite_of_none (fun piece member here => ?_) old).symm
        by_contra nonempty
        exact List.eq_nil_iff_forall_not_mem.mp found piece
          (List.mem_filter.mpr ⟨member, by simp [here, nonempty]⟩)
    | cons piece rest =>
        rw [found, List.length_cons] at single
        obtain rfl : rest = [] := List.length_eq_zero_iff.mp (by omega)
        rfl
  · rename_i other
    have none : writersOf turn (p / s.stripeSize) = [] := by
      rw [writersOf, List.map_eq_nil_iff, List.filter_eq_nil_iff]
      rintro ⟨j, piece⟩ member
      obtain ⟨piece', inside, same⟩ := List.mem_map.mp member
      obtain ⟨rfl, rfl⟩ := Prod.mk.inj same
      have here := of_decide_eq_true (List.mem_filter.mp inside).2
      simp [here, other]
    rw [none, List.foldl_nil]

omit [DecidableEq ι] in
/-- What a schedule of orders leaves at a position. -/
theorem foldl_scheduleOf (pieces : ∀ i, PiecesOf s (off i) (data i) (items i))
    {orders : ℤ → List ι} {ids : List ℤ} (nodup : ids.Nodup)
    (known : ∀ i, ∀ piece ∈ items i, piece.id ∈ ids) (p : ℤ) (old : UInt8) :
    ((scheduleOf orders items ids).map Prod.snd).foldl
        (StripeInfo.writtenOver s.stripeSize p) old =
      (orders (p / s.stripeSize)).foldl (overwrite off data p) old := by
  simp only [scheduleOf, List.map_flatMap, List.map_map, Function.comp_def, List.map_id',
    List.foldl_flatMap, foldl_filter pieces]
  have inner (b : UInt8) (id : ℤ) : (orders id).foldl
      (fun b i => if id = p / s.stripeSize then overwrite off data p b i else b) b =
        if id = p / s.stripeSize then
          (orders (p / s.stripeSize)).foldl (overwrite off data p) b else b := by
    split
    · rename_i here
      rw [here]
    · exact List.foldl_fixed _
  simp only [inner]
  rw [Schedule.foldl_pick (p / s.stripeSize)
    (fun b => (orders (p / s.stripeSize)).foldl (overwrite off data p) b) nodup]
  split
  · rfl
  · rename_i unknown
    refine (List.foldl_fixed' (fun i => (pieces i).overwrite_of_none ?_ old) _).symm
    intro piece member here
    exact absurd (here ▸ known i piece member) unknown

end Schedules

/-- **Writes that overlap.**  Any number of clients write to one file at the same time.  What the
file can contain when all of them are done is exactly what some order of the clients for each
stripe leaves: at each byte, what the last client of its stripe that writes it has for it, or else
what has been there.  So no stripe is torn, and no two stripes need to agree. -/
theorem overlapping_writes [Fintype ι] [DecidableEq ι] (reached : s.Reachable c) (name : GoString)
    {off : ι → ℤ} (nonneg : ∀ i, 0 ≤ off i) (data : ι → List UInt8) (content : ℤ → UInt8) :
    (∃ (labels : List (ι × Request × ConnReply)) (final : Pool ι Request ConnReply Unit Cluster),
      Pool.Run serve ⟨c, fun i => s.writeAt name (off i) (data i)⟩ labels final ∧
        (∀ i, (final.threads i).Stopped) ∧ s.content final.store name = content) ↔
    ∃ orders : ℤ → List ι, Orders orders ∧ ∀ p, content p =
      (orders (p / s.stripeSize)).foldl (overwrite off data p) (s.content c name p) := by
  have inv := reached.storeInv name
  choose items pieces writes using fun i => writeAt_eq_resume s name (nonneg i) (data i)
  constructor
  · rintro ⟨labels, final, performed, finished, rfl⟩
    obtain ⟨tasks, parts, same⟩ := exists_schedule writes performed finished
    have each : ∀ task ∈ tasks, task.2 ∈ items task.1 := fun task member =>
      (parts task.1).subset (Schedule.mem_part.mpr member)
    refine ⟨fun id => writersOf tasks id ++
      Finset.univ.toList.filter fun i => i ∉ writersOf tasks id, ⟨fun id => ?_, fun id i => ?_⟩,
      fun p => ?_⟩
    · refine List.nodup_append.mpr ⟨nodup_writersOf pieces parts id,
        (Finset.nodup_toList _).filter _, ?_⟩
      rintro i member j member' rfl
      simp only [List.mem_filter, decide_eq_true_eq] at member'
      exact member'.2 member
    · by_cases member : i ∈ writersOf tasks id
      · simp [member]
      · simp [member]
    · have idle : ∀ old, ∀ i ∈ Finset.univ.toList.filter fun i =>
          i ∉ writersOf tasks (p / s.stripeSize), overwrite off data p old i = old := by
        intro old i member
        refine (pieces i).overwrite_of_none (fun piece inside here => ?_) old
        by_contra nonempty
        have writes : (i, piece) ∈ tasks := Schedule.mem_part.mp ((parts i).symm.subset inside)
        refine of_decide_eq_true (List.mem_filter.mp member).2 ?_
        exact List.mem_map.mpr ⟨_, List.mem_filter.mpr ⟨writes, by simp [here, nonempty]⟩, rfl⟩
      have writable : ∀ piece ∈ tasks.map Prod.snd, Writable s piece := by
        intro piece member
        obtain ⟨task, inside, rfl⟩ := List.mem_map.mp member
        exact (pieces task.1).writable _ (each task inside)
      rw [same, content_runAll_pieces inv writable, foldl_writtenOver pieces each,
        List.foldl_append, List.foldl_ext _ _ _ idle, List.foldl_fixed]
  · rintro ⟨orders, each, same⟩
    set ids := (Finset.univ.toList.flatMap fun i => (items i).map StripeInfo.id).dedup with all
    have known : ∀ i, ∀ piece ∈ items i, piece.id ∈ ids := by
      intro i piece member
      simp only [all, List.mem_dedup, List.mem_flatMap, Finset.mem_toList, Finset.mem_univ,
        true_and, List.mem_map]
      exact ⟨i, piece, member, rfl⟩
    have nodup : ids.Nodup := List.nodup_dedup _
    set tasks := scheduleOf orders items ids with planned
    have parts (i : ι) : (Schedule.part tasks i).Perm (items i) :=
      part_scheduleOf each nodup i (known i)
    have writable : ∀ piece ∈ tasks.map Prod.snd, Writable s piece := by
      intro piece member
      obtain ⟨⟨i, piece⟩, inside, rfl⟩ := List.mem_map.mp member
      exact (pieces i).writable _ ((parts i).subset (Schedule.mem_part.mpr inside))
    have requests (i : ι) : (Schedule.part (tasks.map (Prod.map id (s.writeStripe name))) i).Perm
        ((items i).map (s.writeStripe name)) := by
      rw [Schedule.part_map]
      exact (parts i).map _
    obtain ⟨labels, final, run, performed, returned⟩ :=
      Pool.exists_run_of_schedule serve (fun _ _ => .ret ()) requests c
    refine ⟨labels, final, ?_, fun i => ?_, ?_⟩
    · simp only [writes]
      exact run
    · obtain ⟨-, there⟩ := returned i
      rw [there]
      exact Program.stopped_ret ()
    · funext p
      have executed : (labels.map Prod.snd).map Prod.fst =
          (tasks.map Prod.snd).map (s.writeStripe name) := by
        have second := congrArg (List.map Prod.snd) performed
        simp only [Pool.requestsOf, List.map_map] at second ⊢
        exact second
      rw [run.replay.store_eq, executed, content_runAll_pieces inv writable,
        foldl_scheduleOf pieces nodup known, same]

/-- Of two clients that write the same byte, the first one may come last. -/
theorem overlapping_writes_of_two : ∃ final : Pool Bool Request ConnReply Unit Cluster,
    (smallStore 2).content final.store ['f'] 0 = 1 := by
  have reached : (smallStore 2).Reachable fun _ _ => none := (quiet_empty _).reachable
  have nonneg : ∀ i : Bool, (0 : ℤ) ≤ (fun _ => 0) i := fun _ => le_rfl
  have orders : Orders fun _ => [true, false] := ⟨fun _ => by decide, fun _ => by decide⟩
  obtain ⟨labels, final, -, -, same⟩ := (overlapping_writes reached ['f'] nonneg
    (fun second => if second then [2] else [1]) _).mpr ⟨_, orders, fun _ => rfl⟩
  exact ⟨final, by rw [same]; rfl⟩

end DataStore

end Pdwfs
