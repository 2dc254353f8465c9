import Pdwfs.Redis.Limits
import Pdwfs.Redisfs.Handles
import Pdwfs.Redisfs.Wrapped

/-!
# Writes that are lost

A write reports no errors.  Nothing of it may get lost then, also where the offset
is near the end of the range of the integers, and where a stripe is longer than the
strings of the server.

* `serveWithin` — a round trip to an instance with a limit on the length of its
  strings.
* `SoundWriteAt`, `SoundWrite`, `SoundWriteVec` — what a write has to do.
* `Storable` — the limit of the instances does not matter to a range.
* `soundWriteAt_iff`, `soundWrite_iff`, `soundWriteVec_iff` — when a write does it.

## Two limits

A write can be lost in two ways.  The sum of the offset and the position in the data
can leave the range of the integers, and then a piece is written to a stripe that no
read will ask for.  Or a string of an instance would get longer than it may, and
then the instance refuses the command inside of a transaction, which nobody looks
at.  Neither is noticed, since `Write` returns the length of the data and the error
`nil` whatever happens.

The results are equivalences.  For the direction that a write which is not in the
range is not sound, an empty file is enough: what is left of the write is not where
it should be, or the program is aborted.

## Three writes

`WriteAt` may end at the very end of the range and behind it, as long as its last
stripe begins in the range, since nothing is calculated from where it ends. `Write`
and `WriteVec` move the handle there; this is why the conditions are not the same.
A stripe longer than the limit is not in the way as long as the range stays in the
part of one stripe that is below it.
-/

namespace Pdwfs

open Concurrency Redis Striping Wrapping

/-! ## Instances with a limit -/

/-- The commands of a request. -/
def Body.cmds : Body → List (Cmd GoString GoString)
  | .single cmd => [cmd]
  | .multi cmds => cmds
  | .trimStripeScript _ _ => []

/-- One round trip to an instance whose strings have at most `limit` bytes, 512 MB
if it is not configured otherwise.  A longer argument is a protocol error: the
connection is closed, and nothing of the request is executed.  The script only makes
strings shorter. -/
def serveWithin (limit : ℕ) (q : Request) (cluster : Cluster) : Cluster × ConnReply :=
  if ∃ cmd ∈ q.body.cmds, limit < cmd.value.length then (cluster, .protocolError)
  else
    match q.body with
    | .single cmd =>
        let answered := execWithin limit cmd (cluster q.addr)
        (Function.update cluster q.addr answered.1, readReply q.dst answered.2)
    | .multi cmds =>
        let answered := execAllWithin limit cmds (cluster q.addr)
        (Function.update cluster q.addr answered.1, .array answered.2)
    | .trimStripeScript _ _ => serve q cluster

/-- A run of a program that has such instances for itself. -/
abbrev ExecWithin (limit : ℕ) {α : Type} (program : Prog α) (cluster cluster' : Cluster)
    (outcome : Option α) : Prop :=
  Program.Exec (serveWithin limit) program cluster cluster' outcome

variable {limit : ℕ}

/-- An instance with a limit does what one without it does, if nothing gets too
long. -/
theorem serveWithin_of_fits {q : Request} (fits : ∀ cmd ∈ q.body.cmds, cmd.Fits limit)
    (c : Cluster) : serveWithin limit q c = serve q c := by
  have accepted : ¬∃ cmd ∈ q.body.cmds, limit < cmd.value.length := by
    rintro ⟨cmd, member, long⟩
    exact absurd (fits cmd member).length_le (not_le.mpr long)
  rw [serveWithin, if_neg accepted]
  obtain ⟨addr, body, dst⟩ := q
  cases body with
  | single cmd =>
      simp only [execWithin_of_fits (fits cmd (by simp [Body.cmds]))]
      rfl
  | multi cmds =>
      simp only [execAllWithin_of_fits (show ∀ cmd ∈ cmds, cmd.Fits limit from fits)]
      rfl
  | trimStripeScript key stop => rfl

namespace DataStore

variable {s : DataStore} {c c' : Cluster} {name : GoString} {off : ℤ} {data : List UInt8}

/-- A piece that ends within the limit is written as if there were none. -/
theorem fits_writeStripe {piece : StripeInfo} (nonneg : 0 ≤ piece.off)
    (within : piece.data.bytes ≠ [] → piece.off + piece.data.bytes.length ≤ limit) :
    ∀ cmd ∈ (s.writeStripe name piece).body.cmds, cmd.Fits limit := by
  have length_le : piece.data.bytes.length ≤ limit := by
    by_cases empty : piece.data.bytes = []
    · simp [empty]
    · have := within empty
      omega
  intro cmd member
  simp only [writeStripe, Body.cmds, List.mem_cons, List.not_mem_nil, or_false] at member
  rcases member with rfl | rfl
  · exact ⟨Nat.zero_le _, not_false⟩
  · split
    · exact ⟨length_le, not_false⟩
    · exact ⟨length_le, fun exceeds => absurd (within exceeds.1) (not_le.mpr exceeds.2)⟩

/-- No string of an instance is longer than its limit. -/
def WithinLimit (limit : ℕ) (c : Cluster) : Prop := ∀ a, Short limit (c a)

/-- What would get too long is refused, so nothing does. -/
theorem withinLimit_writeStripe (within : WithinLimit limit c) (piece : StripeInfo) :
    WithinLimit limit (serveWithin limit (s.writeStripe name piece) c).1 := by
  unfold serveWithin
  split
  · exact within
  · rename_i accepted
    intro a
    by_cases here : a = s.addr name piece.id
    · subst here
      simp only [writeStripe, Function.update_self]
      refine (within _).execAllWithin fun cmd member => ?_
      by_contra long
      exact accepted ⟨cmd, member, not_le.mp long⟩
    · simp only [writeStripe, Function.update_of_ne here]
      exact within a

/-- The limit does not matter to a range: it does not matter to any stripe, or the
range is in the part of one stripe that is below the limit. -/
def Storable (limit : ℕ) (S off : ℤ) (len : ℕ) : Prop := S ≤ limit ∨ off % S + len ≤ limit

instance (S off : ℤ) (len : ℕ) : Decidable (Storable limit S off len) :=
  inferInstanceAs (Decidable (S ≤ limit ∨ off % S + len ≤ limit))

/-- The pieces of such a range end within the limit. -/
theorem LayoutOf.within {items : List StripeInfo} (layout : LayoutOf s off data items)
    (storable : Storable limit s.stripeSize off data.length) {piece : StripeInfo}
    (member : piece ∈ items) (nonempty : piece.data.bytes ≠ []) :
    piece.off + piece.data.bytes.length ≤ limit := by
  have writable := layout.writable piece member
  have count : 0 < piece.data.bytes.length := List.length_pos_iff.mpr nonempty
  rcases storable with short | first
  · exact le_trans writable.inside short
  · by_cases short : s.stripeSize ≤ limit
    · exact le_trans writable.inside short
    -- The whole range is in the stripe of its first byte, and so is the last byte of the piece.
    have covered : piece.Covers s.stripeSize (piece.stop s.stripeSize - 1) := by
      rw [StripeInfo.Covers, StripeInfo.stop]
      constructor <;> omega
    obtain ⟨lower, upper, -⟩ := layout.byte_eq piece member _ covered
    have here := (mem_range_iff s.stripeSize_pos writable.off_nonneg writable.inside).mp covered
    have split := Int.ediv_mul_add_emod off s.stripeSize
    have remainder := Int.emod_nonneg off s.stripeSize_pos.ne'
    have same : (piece.stop s.stripeSize - 1) / s.stripeSize = off / s.stripeSize := by
      refine (Int.ediv_eq_iff_of_pos s.stripeSize_pos).mpr ⟨?_, ?_⟩ <;> linarith
    rw [StripeInfo.stop, StripeInfo.start, here.1.symm.trans same] at upper
    omega

/-- The first part of such a range, and the rest of it. -/
theorem Storable.append {S : ℤ} {first rest : ℕ} (storable : Storable limit S off (first + rest))
    (positive : 0 < S) : Storable limit S off first ∧ Storable limit S (off + first) rest := by
  rcases storable with short | below
  · exact ⟨.inl short, .inl short⟩
  · by_cases short : S ≤ limit
    · exact ⟨.inl short, .inl short⟩
    · have remainder := Int.emod_nonneg off positive.ne'
      push_cast at below
      have position : (off + first) % S = off % S + first := by
        rw [← Int.emod_add_emod, Int.emod_eq_of_lt (by omega) (by omega)]
      exact ⟨.inr (by omega), .inr (by rw [position]; omega)⟩

/-- What is stored on instances with a limit is storable. -/
theorem storable_of_stores (within : WithinLimit limit c) (nonempty : data ≠ [])
    (stores : ∀ i < data.length, s.Stores c name (off + i)) :
    Storable limit s.stripeSize off data.length := by
  have count : 0 < data.length := List.length_pos_iff.mpr nonempty
  by_contra beyond
  simp only [Storable, not_or, not_le] at beyond
  obtain ⟨long, behind⟩ := beyond
  have remainder := Int.emod_nonneg off s.stripeSize_pos.ne'
  have upper := Int.emod_lt_of_pos off s.stripeSize_pos
  -- The first byte of the range that is not below the limit.
  set i := (limit - off % s.stripeSize).toNat with iEq
  have stored := stores i (by omega)
  have position : (off + i) % s.stripeSize = off % s.stripeSize + i := by
    rw [← Int.emod_add_emod, Int.emod_eq_of_lt (by omega) (by omega)]
  rw [Stores, Stored, position] at stored
  have short := within (s.addr name ((off + i) / s.stripeSize))
    (key name ((off + i) / s.stripeSize))
  rw [stripe] at stored
  omega

end DataStore

namespace Wrapped

open DataStore

variable {f : MemFile} {c c' : Cluster} {off : ℤ} {data : List UInt8} {datav : List (List UInt8)}

/-! ## The requests of writes -/

section Requests

/-- A request of a write, whatever its piece of data. -/
def WriteRequest (f : MemFile) (q : Request) : Prop := ∃ piece, q = f.store.writeStripe f.path piece

/-- A write sends requests that write stripes. -/
theorem issues_store (f : MemFile) (off : ℤ) (data : List UInt8) :
    Program.Issues (WriteRequest f) (writeAt f.store f.path off data) := by
  unfold writeAt
  split
  · trivial
  · refine (Program.issues_forkAll fun q member => ?_).bind fun replies => ?_
    · obtain ⟨piece, -, rfl⟩ := List.mem_map.mp member
      exact ⟨piece, rfl⟩
    · unfold checkFlush
      split <;> trivial

namespace MemFile

theorem issues_writeAt (f : MemFile) (data : List UInt8) (off : ℤ) :
    Program.Issues (WriteRequest f) (writeAt f data off) := by
  unfold writeAt
  split
  · trivial
  · exact (issues_store f off data).bind fun _ => trivial

theorem issues_writeVecAt (f : MemFile) (datav : List (List UInt8)) (off : ℤ) :
    Program.Issues (WriteRequest f) (writeVecAt f datav off) := by
  induction datav generalizing off with
  | nil => trivial
  | cons data rest ih =>
      exact (issues_writeAt f data off).bind fun _ => (ih _).bind fun _ => trivial

theorem issues_write (f : MemFile) (data : List UInt8) :
    Program.Issues (WriteRequest f) (write f data) :=
  (issues_writeAt f data f.offset).bind fun _ => trivial

theorem issues_writeVec (f : MemFile) (datav : List (List UInt8)) :
    Program.Issues (WriteRequest f) (writeVec f datav) :=
  (issues_writeVecAt f datav f.offset).bind fun _ => trivial

/-- Writes keep all strings within the limit of the instances. -/
theorem withinLimit_of_exec {α : Type} {program : Prog α}
    (issues : Program.Issues (WriteRequest f) program) {outcome : Option α}
    (within : WithinLimit limit c) (performed : ExecWithin limit program c c' outcome) :
    WithinLimit limit c' := by
  have keeps : Program.Issues (fun q => ∀ d, WithinLimit limit d →
      WithinLimit limit (serveWithin limit q d).1) program := by
    apply issues.mono
    rintro q ⟨piece, rfl⟩ d before
    exact withinLimit_writeStripe before piece
  exact keeps.preserved within performed

end MemFile

/-- The limit does not matter to the requests of a write in the range of the integers. -/
theorem fits_store (inRange : InRange f.store.stripeSize) (nonneg : 0 ≤ off)
    (offRange : off < 2 ^ 63)
    (last : (off + data.length - 1) / f.store.stripeSize * f.store.stripeSize < 2 ^ 63)
    (storable : Storable limit f.store.stripeSize off data.length) :
    Program.Issues (fun q => ∀ c, serveWithin limit q c = serve q c)
      (writeAt f.store f.path off data) := by
  obtain ⟨items, layout, layoutOf⟩ := layoutOf_stripeLayout f.store nonneg data
  rw [writeAt, stripeLayout_eq f.store.stripeSize_pos inRange nonneg offRange last, layout]
  refine (Program.issues_forkAll fun q member => ?_).bind fun replies => ?_
  · obtain ⟨piece, inLayout, rfl⟩ := List.mem_map.mp member
    exact serveWithin_of_fits (fits_writeStripe (layoutOf.writable piece inLayout).off_nonneg
      (layoutOf.within storable inLayout))
  · unfold checkFlush
    split <;> trivial

namespace MemFile

/-- The limit does not matter to a write of what is storable. -/
theorem fits_writeAt (inRange : InRange f.store.stripeSize) (nonneg : 0 ≤ off)
    (offRange : off < 2 ^ 63)
    (last : (off + data.length - 1) / f.store.stripeSize * f.store.stripeSize < 2 ^ 63)
    (storable : Storable limit f.store.stripeSize off data.length) :
    Program.Issues (fun q => ∀ c, serveWithin limit q c = serve q c) (writeAt f data off) := by
  rw [writeAt, if_neg (by omega)]
  exact (fits_store inRange nonneg offRange last storable).bind fun _ => trivial

/-- The same for buffers that are written one after the other; each of them has the
part of the range that is its own. -/
theorem fits_writeVecAt (inRange : InRange f.store.stripeSize) (nonneg : 0 ≤ off)
    (inside : off + datav.flatten.length < 2 ^ 63)
    (storable : Storable limit f.store.stripeSize off datav.flatten.length) :
    Program.Issues (fun q => ∀ c, serveWithin limit q c = serve q c) (writeVecAt f datav off) := by
  induction datav generalizing off with
  | nil => trivial
  | cons data rest ih =>
      rw [List.flatten_cons, List.length_append] at inside storable
      push_cast at inside
      obtain ⟨first, later⟩ := storable.append f.store.stripeSize_pos
      refine (fits_writeAt inRange nonneg (by omega)
        (last_lt f.store.stripeSize_pos (by omega)) first).bind_yields
        (yields_writeAt f data off) fun result same => ?_
      obtain rfl := same
      refine Program.Issues.bind ?_ fun _ => trivial
      rw [wrap_of_nonneg (by omega) (by omega)]
      exact ih (by omega) (by omega) later

end MemFile

end Requests

/-! ## What a write has to do -/

/-- The layout of a write is in the stripes of the file: no number and no offset is
negative. -/
def Placed (f : MemFile) (data : List UInt8) (off : ℤ) : Prop :=
  ∃ stripes, stripeLayout f.store.policy f.store.stripeSize off data = some stripes ∧
    ∀ stripe ∈ stripes, 0 ≤ stripe.id ∧ 0 ≤ stripe.off ∧ stripe.off < f.store.stripeSize

/-- The same for buffers that are written one after the other. -/
def PlacedVec (f : MemFile) : List (List UInt8) → ℤ → Prop
  | [], _ => True
  | data :: datav, off => Placed f data off ∧ PlacedVec f datav (wrap (off + data.length))

/-- Every byte of `data` is stored, at its position from `off` on. -/
def Kept (f : MemFile) (c : Cluster) (data : List UInt8) (off : ℤ) : Prop :=
  ∀ i < data.length, f.store.Stores c f.path (off + i) ∧
    f.store.content c f.path (off + i) = data.getD i 0

/-- `WriteAt` reports an error and stores nothing, or it stores all of the data.  To abort the
program is neither. -/
def SoundWriteAt (limit : ℕ) (f : MemFile) (data : List UInt8) (off : ℤ) : Prop :=
  ∀ c, f.store.FileInv c f.path → ∀ c' outcome,
    ExecWithin limit (MemFile.writeAt f data off) c c' outcome →
      (∃ n err, outcome = some (n, some err) ∧ c' = c) ∨
      outcome = some ((data.length : ℤ), none) ∧ Placed f data off ∧ Kept f c' data off

/-- `Write` does that, and the handle has an offset afterwards. -/
def SoundWrite (limit : ℕ) (f : MemFile) (data : List UInt8) : Prop :=
  ∀ c, f.store.FileInv c f.path → ∀ c' outcome,
    ExecWithin limit (MemFile.write f data) c c' outcome →
      (∃ f' n err, outcome = some (f', n, some err) ∧ c' = c) ∨
      ∃ f', outcome = some (f', (data.length : ℤ), none) ∧ 0 ≤ f'.offset ∧
        Placed f data f.offset ∧ Kept f c' data f.offset

/-- `WriteVec` does the same for all of its buffers. -/
def SoundWriteVec (limit : ℕ) (f : MemFile) (datav : List (List UInt8)) : Prop :=
  ∀ c, f.store.FileInv c f.path → ∀ c' outcome,
    ExecWithin limit (MemFile.writeVec f datav) c c' outcome →
      (∃ f' n err, outcome = some (f', n, some err) ∧ c' = c) ∨
      ∃ f', outcome = some (f', (datav.flatten.length : ℤ), none) ∧ 0 ≤ f'.offset ∧
        PlacedVec f datav f.offset ∧ Kept f c' datav.flatten f.offset

/-- If the last stripe begins in the range, all of them do. -/
theorem placed_of_last (inRange : InRange f.store.stripeSize) (nonneg : 0 ≤ off)
    (offRange : off < 2 ^ 63)
    (last : (off + data.length - 1) / f.store.stripeSize * f.store.stripeSize < 2 ^ 63) :
    Placed f data off := by
  have positive := f.store.stripeSize_pos
  obtain ⟨pieces, items, tiles, layout, padded⟩ :=
    stripeLayout_spec f.store.policy positive nonneg data
  refine ⟨items, ?_, fun stripe member => ?_⟩
  · rw [stripeLayout_eq positive inRange nonneg offRange last, layout]
  · rcases padded.mem_or_zero member with inTiling | rfl
    · have piece := tiles.piece positive nonneg inTiling
      have count := List.length_pos_iff.mpr piece.nonempty
      have inside := piece.inside
      exact ⟨piece.id_nonneg, piece.off_nonneg, by omega⟩
    · exact ⟨le_rfl, le_rfl, positive⟩

/-- A layout that is placed does not leave the range. -/
theorem last_of_placed (inRange : InRange f.store.stripeSize) (nonneg : 0 ≤ off)
    (offRange : off < 2 ^ 63) (nonempty : data ≠ []) (small : (data.length : ℤ) < 2 ^ 63)
    (placed : Placed f data off) :
    (off + data.length - 1) / f.store.stripeSize * f.store.stripeSize < 2 ^ 63 := by
  obtain ⟨items, layout, stripes⟩ := placed
  by_contra beyond
  obtain ⟨stripe, member, negative⟩ := exists_negative_of_beyond f.store.stripeSize_pos inRange
    nonneg offRange small (not_lt.mp beyond) (List.length_pos_iff.mpr nonempty) (.inl rfl) layout
  obtain ⟨id, start, -⟩ := stripes stripe member
  omega

/-- In the range of the integers all buffers are placed. -/
theorem placedVec_of_inside (inRange : InRange f.store.stripeSize) (nonneg : 0 ≤ off)
    (inside : off + datav.flatten.length < 2 ^ 63) : PlacedVec f datav off := by
  induction datav generalizing off with
  | nil => trivial
  | cons data rest ih =>
      rw [List.flatten_cons, List.length_append] at inside
      push_cast at inside
      refine ⟨placed_of_last inRange nonneg (by omega)
        (last_lt f.store.stripeSize_pos (by omega)), ?_⟩
      rw [wrap_of_nonneg (by omega) (by omega)]
      exact ih (by omega) (by omega)

/-- What has been put into a file and is stored is kept. -/
theorem kept_of_puts {c₀ : Cluster} (puts : f.store.Puts c₀ c f.path off data)
    (stores : ∀ p, off ≤ p → p < off + data.length → f.store.Stores c f.path p) :
    Kept f c data off := by
  intro i inside
  refine ⟨stores _ (by omega) (by omega), ?_⟩
  rw [puts.inside _ (by omega) (by omega)]
  congr 1
  omega

/-! ## When a write does it -/

/-- **A write at an offset** is sound exactly when its last stripe begins in the range of the
integers and the limit of the instances does not matter to it. -/
theorem soundWriteAt_iff (inRange : InRange f.store.stripeSize) (nonneg : 0 ≤ off)
    (offRange : off < 2 ^ 63) (nonempty : data ≠ []) (small : (data.length : ℤ) < 2 ^ 63) :
    SoundWriteAt limit f data off ↔
      (off + data.length - 1) / f.store.stripeSize * f.store.stripeSize < 2 ^ 63 ∧
        Storable limit f.store.stripeSize off data.length := by
  constructor
  · intro sound
    have performed := Program.exec_run (serveWithin limit) (MemFile.writeAt f data off)
      fun _ _ => none
    rcases sound _ (fileInv_empty f.store f.path) _ _ performed with
      ⟨n, err, same, -⟩ | ⟨-, placed, kept⟩
    · have noError := (MemFile.yields_writeAt f data off).of_exec performed _ same
      simp at noError
    · have within := MemFile.withinLimit_of_exec (MemFile.issues_writeAt f data off)
        (fun _ => short_empty) performed
      exact ⟨last_of_placed inRange nonneg offRange nonempty small placed,
        storable_of_stores within nonempty fun i inside => (kept i inside).1⟩
  · rintro ⟨last, storable⟩ c inv c' outcome performed
    have fits := MemFile.fits_writeAt inRange nonneg offRange last storable
    obtain ⟨result, wrote, rfl⟩ :=
      MemFile.exec_writeAt inRange nonneg offRange last (fits.exec_congr performed)
    rcases Pdwfs.MemFile.exec_writeAt inv wrote with ⟨negative, -⟩ | ⟨-, rfl, puts⟩
    · omega
    · exact .inr ⟨rfl, placed_of_last inRange nonneg offRange last, kept_of_puts puts
        fun p lower upper => Pdwfs.MemFile.stores_of_exec_writeAt inv wrote (.inr ⟨lower, upper⟩)⟩

/-- What a sound write that moves the handle comes to, on empty instances: it
returns, the handle has an offset, and the bytes are storable. -/
theorem ahead_of_sound {move : Prog (MemFile × ℤ × Option FileError)} {count : ℤ} {placed : Prop}
    (nonempty : data ≠ []) (issues : Program.Issues (WriteRequest f) move)
    (yields : Program.Yields (fun result => result =
      ({ f with offset := wrap (f.offset + data.length) }, count, none)) move)
    (sound : ∀ c' outcome, ExecWithin limit move (fun _ _ => none) c' outcome →
      (∃ f' n err, outcome = some (f', n, some err) ∧ c' = fun _ _ => none) ∨
      ∃ f', outcome = some (f', (data.length : ℤ), none) ∧ 0 ≤ f'.offset ∧ placed ∧
        Kept f c' data f.offset) :
    (∃ c' result, ExecWithin limit move (fun _ _ => none) c' (some result)) ∧
      0 ≤ wrap (f.offset + data.length) ∧
      Storable limit f.store.stripeSize f.offset data.length := by
  have performed := Program.exec_run (serveWithin limit) move fun _ _ => none
  rcases sound _ _ performed with ⟨f', n, err, same, -⟩ | ⟨f', same, ahead, -, kept⟩
  · have noError := yields.of_exec performed _ same
    simp at noError
  · have within := MemFile.withinLimit_of_exec issues (fun _ => short_empty) performed
    have moved := congrArg Prod.fst (yields.of_exec performed _ same)
    simp only at moved
    rw [moved] at ahead
    rw [same] at performed
    exact ⟨⟨_, _, performed⟩, ahead,
      storable_of_stores within nonempty fun i inside => (kept i inside).1⟩

/-- **A write at the offset of the handle** is sound exactly when it ends in the range of the
integers and the limit of the instances does not matter to it. -/
theorem soundWrite_iff (inRange : InRange f.store.stripeSize) (nonneg : 0 ≤ f.offset)
    (offRange : f.offset < 2 ^ 63) (nonempty : data ≠ []) (small : (data.length : ℤ) < 2 ^ 63) :
    SoundWrite limit f data ↔ f.offset + data.length < 2 ^ 63 ∧
      Storable limit f.store.stripeSize f.offset data.length := by
  constructor
  · intro sound
    obtain ⟨-, ahead, storable⟩ := ahead_of_sound nonempty (MemFile.issues_write f data)
      (MemFile.yields_write f data) (sound _ (fileInv_empty f.store f.path))
    exact ⟨(nonneg_wrap_iff (by omega) (by omega)).mp ahead, storable⟩
  · rintro ⟨inside, storable⟩ c inv c' outcome performed
    have last := last_lt f.store.stripeSize_pos inside
    obtain ⟨answer, answered, rfl⟩ := Program.exec_bind_ret_iff.mp performed
    have fits := MemFile.fits_writeAt inRange nonneg offRange last storable
    obtain ⟨result, wrote, rfl⟩ :=
      MemFile.exec_writeAt inRange nonneg offRange last (fits.exec_congr answered)
    rcases Pdwfs.MemFile.exec_writeAt inv wrote with ⟨negative, -⟩ | ⟨-, rfl, puts⟩
    · omega
    · refine .inr ⟨_, rfl, ?_, placed_of_last inRange nonneg offRange last, kept_of_puts puts
        fun p lower upper => Pdwfs.MemFile.stores_of_exec_writeAt inv wrote (.inr ⟨lower, upper⟩)⟩
      show 0 ≤ wrap (f.offset + data.length)
      exact (nonneg_wrap_iff (by omega) (by omega)).mpr inside

/-- The running offset of a write of several buffers leaves the range of the integers only with
the last one, if the write returns. -/
theorem lt_of_exec_writeVecAt {serve' : Request → Cluster → Cluster × ConnReply}
    (nonneg : 0 ≤ off) (offRange : off < 2 ^ 63)
    (small : ∀ data ∈ datav, (data.length : ℤ) < 2 ^ 63) {result : ℤ × Option FileError}
    (performed : Program.Exec serve' (MemFile.writeVecAt f datav off) c c' (some result)) :
    off + datav.flatten.length < 2 ^ 64 := by
  induction datav generalizing off c c' result with
  | nil =>
      rw [List.flatten_nil, List.length_nil]
      omega
  | cons data rest ih =>
      have short := small data (by simp)
      rw [MemFile.writeVecAt] at performed
      obtain ⟨first, middle, wrote, last⟩ := Program.exec_bind_some_iff.mp performed
      obtain rfl := (MemFile.yields_writeAt f data off).of_exec wrote first rfl
      obtain ⟨others, middle', later, -⟩ := Program.exec_bind_some_iff.mp last
      rw [List.flatten_cons, List.length_append]
      push_cast
      by_cases inside : off + data.length < 2 ^ 63
      · rw [wrap_of_nonneg (by omega) inside] at later
        have total := ih (by omega) inside (fun d member => small d (by simp [member])) later
        omega
      · cases rest with
        | nil =>
            rw [List.flatten_nil, List.length_nil]
            omega
        | cons next rest =>
            -- The next buffer would be written at a negative offset.
            rw [wrap_of_le (by omega) (by omega), MemFile.writeVecAt, MemFile.writeAt,
              if_pos (by omega)] at later
            exact absurd later Program.not_exec_panic_some

/-- **A write of several buffers** is sound exactly when it ends in the range of the integers
and the limit of the instances does not matter to it. -/
theorem soundWriteVec_iff (inRange : InRange f.store.stripeSize) (nonneg : 0 ≤ f.offset)
    (offRange : f.offset < 2 ^ 63) (nonempty : datav.flatten ≠ [])
    (small : ∀ data ∈ datav, (data.length : ℤ) < 2 ^ 63) :
    SoundWriteVec limit f datav ↔ f.offset + datav.flatten.length < 2 ^ 63 ∧
      Storable limit f.store.stripeSize f.offset datav.flatten.length := by
  constructor
  · intro sound
    obtain ⟨⟨_, result, performed⟩, ahead, storable⟩ := ahead_of_sound nonempty
      (MemFile.issues_writeVec f datav) (MemFile.yields_writeVec f datav)
      (sound _ (fileInv_empty f.store f.path))
    obtain ⟨_ | answer, answered, impossible⟩ := Program.exec_bind_ret_iff.mp performed
    · simp at impossible
    have once := lt_of_exec_writeVecAt nonneg offRange small answered
    exact ⟨(nonneg_wrap_iff (by omega) once).mp ahead, storable⟩
  · rintro ⟨inside, storable⟩ c inv c' outcome performed
    obtain ⟨answer, answered, rfl⟩ := Program.exec_bind_ret_iff.mp performed
    have fits := MemFile.fits_writeVecAt inRange nonneg inside storable
    obtain ⟨result, wrote, rfl⟩ :=
      MemFile.exec_writeVecAt inRange nonneg inside (fits.exec_congr answered)
    rcases Pdwfs.MemFile.exec_writeVecAt inv wrote with ⟨negative, -⟩ | ⟨-, rfl, puts⟩
    · omega
    · refine .inr ⟨_, rfl, ?_, placedVec_of_inside inRange nonneg inside, kept_of_puts puts
        fun p lower upper =>
          Pdwfs.MemFile.stores_of_exec_writeVecAt inv wrote (.inr ⟨lower, upper⟩)⟩
      show 0 ≤ wrap (f.offset + datav.flatten.length)
      exact (nonneg_wrap_iff (by omega) (by omega)).mpr inside

/-- **When no write is lost.**  `WriteAt` stores its data at the positions from
`off` on exactly when its last stripe begins in the range of the 64-bit integers,
and `Write` and `WriteVec` do, and move the handle to an offset, exactly when they
end in that range; in addition the limit of the instances on strings must not matter
to the data.  Otherwise data is lost without an error, or the program is aborted.
The equivalences say that each part of the conditions is needed: for a write that
violates one of them there are empty instances on which it goes wrong. -/
theorem sound_iff (limit : ℕ) (f : MemFile) (inRange : InRange f.store.stripeSize) :
    (∀ off data, 0 ≤ off → off < 2 ^ 63 → data ≠ [] → (data.length : ℤ) < 2 ^ 63 →
      (SoundWriteAt limit f data off ↔
        (off + data.length - 1) / f.store.stripeSize * f.store.stripeSize < 2 ^ 63 ∧
          Storable limit f.store.stripeSize off data.length)) ∧
    (0 ≤ f.offset → f.offset < 2 ^ 63 →
      (∀ data, data ≠ [] → (data.length : ℤ) < 2 ^ 63 →
        (SoundWrite limit f data ↔ f.offset + data.length < 2 ^ 63 ∧
          Storable limit f.store.stripeSize f.offset data.length)) ∧
      ∀ datav, datav.flatten ≠ [] → (∀ data ∈ datav, (data.length : ℤ) < 2 ^ 63) →
        (SoundWriteVec limit f datav ↔ f.offset + datav.flatten.length < 2 ^ 63 ∧
          Storable limit f.store.stripeSize f.offset datav.flatten.length)) :=
  ⟨fun _ _ nonneg offRange nonempty small =>
    soundWriteAt_iff inRange nonneg offRange nonempty small, fun nonneg offRange =>
    ⟨fun _ nonempty small => soundWrite_iff inRange nonneg offRange nonempty small,
      fun _ nonempty small => soundWriteVec_iff inRange nonneg offRange nonempty small⟩⟩

/-- The last two bytes of the range of the integers. -/
theorem sound_lastBytes :
    SoundWriteAt (2 ^ 29) { store := smallStore 2, path := ['f'] } [1, 2] (2 ^ 63 - 2) ∧
      SoundWrite (2 ^ 29) { store := smallStore 2, path := ['f'], offset := 2 ^ 63 - 3 } [1, 2] ∧
      SoundWriteVec (2 ^ 29) { store := smallStore 2, path := ['f'], offset := 2 ^ 63 - 3 }
        [[1], [], [2]] :=
  ⟨((sound_iff (2 ^ 29) { store := smallStore 2, path := ['f'] } (by decide)).1 _ _ (by decide)
      (by decide) (by decide) (by decide)).mpr (by decide),
    (((sound_iff (2 ^ 29) { store := smallStore 2, path := ['f'], offset := 2 ^ 63 - 3 }
      (by decide)).2 (by decide) (by decide)).1 _ (by decide) (by decide)).mpr (by decide),
    (((sound_iff (2 ^ 29) { store := smallStore 2, path := ['f'], offset := 2 ^ 63 - 3 }
      (by decide)).2 (by decide) (by decide)).2 _ (by decide) (by decide)).mpr (by decide)⟩

/-- Two bytes at the last offset: the second one gets lost, and the handle has a negative offset. -/
theorem not_sound_lastOffset :
    ¬SoundWriteAt (2 ^ 29) { store := smallStore 2, path := ['f'] } [1, 2] (2 ^ 63 - 1) ∧
      ¬SoundWrite (2 ^ 29) { store := smallStore 2, path := ['f'], offset := 2 ^ 63 - 1 } [1, 2] ∧
      ¬SoundWriteVec (2 ^ 29) { store := smallStore 2, path := ['f'], offset := 2 ^ 63 - 1 }
        [[1], [2]] := by
  refine ⟨fun sound => ?_, fun sound => ?_, fun sound => ?_⟩
  · have last := ((soundWriteAt_iff (by decide) (by decide) (by decide) (by decide)
      (by decide)).mp sound).1
    revert last
    decide
  · have last := ((soundWrite_iff (by decide) (by decide) (by decide) (by decide)
      (by decide)).mp sound).1
    revert last
    decide
  · have last := ((soundWriteVec_iff (by decide) (by decide) (by decide) (by decide)
      (by decide)).mp sound).1
    revert last
    decide

end Wrapped

end Pdwfs
