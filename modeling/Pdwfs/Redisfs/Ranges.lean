import Pdwfs.Redisfs.Accounting
import Pdwfs.Redisfs.Growth
import Pdwfs.Redisfs.Vectored

/-!
# Stores below the end of the range

`GetSize` returns `ilast*stripeSize + l` in 64-bit arithmetic, and `Resize` and every handle go on
with what it returns.  A file whose last byte is at the position `2^63 - 1` has a size that is no
such integer: what is returned is negative.

The calls here are those of `Wrapped`, which reduce every result into the range.  The other
modules prove their theorems about the calls over the integers, and this one says when these
theorems are about the 64-bit ones.  The condition is one on the calls alone, so that it can be
asked of every step of a run: `FileCall.Below`.  A `WriteAt` ends below `2^63`, and so does the
last stripe of the size that a `Resize` is given.  The latter is about the whole stripe since the
completing byte of a `Resize` is not always where the file ends.

* `Wrapped.resize` — the resize, which is the remaining call that calculates.
* `Below`, `RangeInv` — every stored byte is below the end of the range, and the invariant of all
  files with it.  Each request keeps it (`RangeInv.writeStripe`, …).
* `safe_getSize`, …, `safe_resize` — so does each call, whatever the others do in between.
* `Wrapped.Configuration`, `rangeInv_of_configuration` — the stores that 64-bit calls reach.
* `registered_and_sized_of_configuration` — sets, strings and the size agree in them.
-/

namespace Pdwfs

open Concurrency Redis Striping Wrapping

/-- A call that stays below the end of the range, with stripes of `S` bytes.  It can
be decided from the arguments alone. -/
def FileCall.Below (S : ℤ) : FileCall → Prop
  | .writeAt off data => off + data.length < 2 ^ 63
  | .readAt off dst => off + dst.length < 2 ^ 63
  | .resize newSize => ((newSize - 1) / S + 1) * S < 2 ^ 63
  | _ => True

instance (S : ℤ) (call : FileCall) : Decidable (call.Below S) :=
  match call with
  | .writeAt off data => inferInstanceAs (Decidable (off + data.length < 2 ^ 63))
  | .readAt off dst => inferInstanceAs (Decidable (off + dst.length < 2 ^ 63))
  | .resize newSize => inferInstanceAs (Decidable (((newSize - 1) / S + 1) * S < 2 ^ 63))
  | .getSize => .isTrue trivial
  | .remove => .isTrue trivial

/-- What is at most the end of a stripe that ends below the range is below it itself. -/
theorem lt_of_lastStripe {S newSize : ℤ} (positive : 0 < S)
    (below : ((newSize - 1) / S + 1) * S < 2 ^ 63) : newSize < 2 ^ 63 := by
  have later := Int.lt_ediv_add_one_mul_self (newSize - 1) positive
  omega

namespace Wrapped

/-! ## Resizing -/

/-- What a resize does when it knows the size. -/
def resizeFrom (s : DataStore) (name : GoString) (newSize curSize : ℤ) : Prog Unit :=
  match lastStripeInfo curSize s.stripeSize, lastStripeInfo newSize s.stripeSize with
  | some (curLastStripeID, curLastStripeLen), some (newLastStripeID, newLastStripeLen) =>
      if newSize < curSize then do
        let replies ← Program.forkAll
          ((idsFrom (wrap (newLastStripeID + 1)) (curLastStripeID + 1)).map (s.removeStripe name) ++
            [s.trimStripe name newLastStripeID newLastStripeLen])
        checkReplies replies
      else if newSize > curSize then do
        let replies ← Program.forkAll
          ((idsFrom (wrap (curLastStripeID + 1)) newLastStripeID).map
              (fun id => s.writeStripe name (DataStore.zeroByte id (wrap (s.stripeSize - 1)))) ++
            [s.writeStripe name
              (DataStore.zeroByte newLastStripeID (wrap (newLastStripeLen - 1)))] ++
            (if curLastStripeLen < s.stripeSize then
              [s.writeStripe name (DataStore.zeroByte curLastStripeID
                (wrap (wrap (s.stripeSize - curLastStripeLen) - 1)))]
            else []))
        checkFlush replies
      else return ()
  | _, _ => .panic

/-- Grow or shrink `name`. -/
def resize (s : DataStore) (name : GoString) (newSize : ℤ) : Prog Unit :=
  if newSize < 0 then .panic
  else do
    let curSize ← getSize s name
    resizeFrom s name newSize curSize

variable {s : DataStore} {name : GoString} {S size newSize : ℤ} {c c' : Cluster}

/-- The last stripe of a size in the range. -/
theorem lastStripeInfo_eq (positive : 0 < S) (nonneg : 0 ≤ size) (small : size < 2 ^ 63) :
    lastStripeInfo size S = some ((size - 1) / S, (size - 1) % S + 1) := by
  have whole := Pdwfs.lastStripeInfo_eq positive nonneg
  have quotient := Int.ediv_nonneg nonneg positive.le
  have below := Int.ediv_le_self S nonneg
  rw [Pdwfs.lastStripeInfo, Pdwfs.divmod_of_nonneg nonneg] at whole
  rw [lastStripeInfo, if_neg positive.ne', divmod, Int.tdiv_eq_ediv_of_nonneg nonneg,
    Int.tmod_eq_emod_of_nonneg nonneg, wrap_of_nonneg quotient (by omega)]
  simp only [wrap_eq_self_iff.mpr (show InRange (size / S - 1) from ⟨by omega, by omega⟩)]
  exact congrArg some whole

/-- The requests of a resize are those over the integers. -/
theorem resizeFrom_eq (s : DataStore) (name : GoString) (inRange : InRange s.stripeSize)
    (nonneg : 0 ≤ size) (small : size < 2 ^ 63) (nonneg' : 0 ≤ newSize)
    (small' : newSize < 2 ^ 63) :
    resizeFrom s name newSize size =
      if newSize < size then Program.forkAll (s.shrinkTasks name size newSize) >>= checkReplies
      else if newSize > size then
        Program.forkAll ((s.growPieces size newSize).map (s.writeStripe name)) >>= checkFlush
      else .ret () := by
  have positive := s.stripeSize_pos
  have last : ∀ n : ℤ, 0 ≤ n → n < 2 ^ 63 →
      -1 ≤ (n - 1) / s.stripeSize ∧ (n - 1) / s.stripeSize < 2 ^ 63 - 1 ∧
        0 ≤ (n - 1) % s.stripeSize ∧ (n - 1) % s.stripeSize < s.stripeSize := by
    intro n lower upper
    refine ⟨(Int.le_ediv_iff_mul_le positive).mpr (by omega), ?_,
      Int.emod_nonneg _ positive.ne', Int.emod_lt_of_pos _ positive⟩
    have below := Int.ediv_le_ediv positive (show n - 1 ≤ 2 ^ 63 - 2 by omega)
    have self := Int.ediv_le_self s.stripeSize (show (0 : ℤ) ≤ 2 ^ 63 - 2 by decide)
    omega
  obtain ⟨idLower, idUpper, lenLower, lenUpper⟩ := last size nonneg small
  obtain ⟨idLower', idUpper', lenLower', lenUpper'⟩ := last newSize nonneg' small'
  obtain ⟨-, stripeSmall⟩ := inRange
  rw [resizeFrom, lastStripeInfo_eq positive nonneg small,
    lastStripeInfo_eq positive nonneg' small', DataStore.map_writeStripe_growPieces,
    DataStore.shrinkTasks]
  simp only
  rw [wrap_of_nonneg (by omega : 0 ≤ (newSize - 1) / s.stripeSize + 1) (by omega),
    wrap_of_nonneg (by omega : 0 ≤ (size - 1) / s.stripeSize + 1) (by omega),
    wrap_of_nonneg (by omega : 0 ≤ s.stripeSize - 1) (by omega),
    wrap_of_nonneg (by omega : 0 ≤ (newSize - 1) % s.stripeSize + 1 - 1) (by omega),
    wrap_of_nonneg (by omega : 0 ≤ s.stripeSize - ((size - 1) % s.stripeSize + 1)) (by omega)]
  congr 2
  split
  · rename_i short
    rw [wrap_of_nonneg (by omega) (by omega)]
  · rfl

end Wrapped

/-! ## The invariant -/

namespace DataStore

variable {s : DataStore} {name : GoString} {c c' : Cluster}

/-- Every stored byte of the file is below the end of the range. -/
def Below (s : DataStore) (c : Cluster) (name : GoString) : Prop :=
  ∀ id, s.stripe c name id ≠ [] → stripeEnd s.stripeSize (s.stripe c name) id < 2 ^ 63

/-- Then the size is in the range. -/
theorem Below.size_lt (below : s.Below c name) {n : ℤ}
    (isSize : IsSize s.stripeSize (s.stripe c name) n) : n < 2 ^ 63 := by
  rcases isSize.attained with ⟨rfl, -⟩ | ⟨id, nonempty, rfl⟩
  · decide
  · exact below id nonempty

/-- A request keeps the file below the end of the range if what it leaves in its
stripe is.  The other stripes are as before. -/
theorem Below.of_effect {id : ℤ} {bytes : List UInt8} {member : GoString → Prop}
    (below : s.Below c name) (effect : Effect s c c' name id bytes member)
    (here : bytes ≠ [] → id * s.stripeSize + bytes.length < 2 ^ 63) : s.Below c' name := by
  intro id' nonempty
  rw [stripeEnd]
  rw [effect.stripe_eq] at nonempty ⊢
  split at nonempty
  · rename_i same
    rw [if_pos same, same]
    exact here nonempty
  · rename_i other
    rw [if_neg other]
    exact below id' nonempty

/-- A write that ends below the range. -/
theorem Below.writeStripe (below : s.Below c name) (inv : s.FileInv c name) {piece : StripeInfo}
    (writable : Writable s piece) (ends : piece.stop s.stripeSize < 2 ^ 63) :
    s.Below (serve (s.writeStripe name piece) c).1 name := by
  refine below.of_effect (effect_writeStripe inv writable) fun nonempty => ?_
  have forward := writable.off_nonneg
  rw [StripeInfo.stop, StripeInfo.start] at ends
  by_cases nothing : piece.data.bytes = []
  · rw [written, if_pos nothing] at nonempty ⊢
    exact below piece.id nonempty
  · rw [written, if_neg nothing, length_setRange]
    by_cases old : s.stripe c name piece.id = []
    · rw [old, List.length_nil]
      push_cast
      omega
    · have before := below piece.id old
      rw [stripeEnd] at before
      push_cast
      omega

theorem Below.removeStripe (below : s.Below c name) (inv : s.FileInv c name) (id : ℤ) :
    s.Below (serve (s.removeStripe name id) c).1 name :=
  below.of_effect (effect_removeStripe inv id) fun nonempty => absurd rfl nonempty

/-- A stripe that is trimmed gets no longer. -/
theorem Below.trimStripe (below : s.Below c name) (inv : s.FileInv c name) (id : ℤ) {size : ℤ}
    (positive : 0 < size) : s.Below (serve (s.trimStripe name id size) c).1 name := by
  refine below.of_effect (effect_trimStripe inv id positive) fun nonempty => ?_
  have before := below id fun empty => nonempty (by rw [empty, List.take_nil])
  rw [stripeEnd] at before
  rw [List.length_take]
  push_cast
  omega

/-- Every file has its invariant, and is below the end of the range.  It is kept by
each request, so it also holds in the middle of calls. -/
structure RangeInv (s : DataStore) (c : Cluster) : Prop where
  inv : s.StoreInv c
  below : ∀ name, s.Below c name

theorem rangeInv_empty (s : DataStore) : s.RangeInv fun _ _ => none where
  inv := storeInv_empty s
  below _ _ nonempty := absurd (stringAt_of_none rfl) nonempty

/-- A request about one file leaves all others below the end of the range. -/
theorem RangeInv.serve {q : Request} {other : GoString} (range : s.RangeInv c)
    (ofOther : ∀ k ∈ q.writes, k = stripesKey other ∨ ∃ id, k = key other id)
    (inv : s.FileInv (serve q c).1 other) (kept : s.Below (serve q c).1 other) :
    s.RangeInv (serve q c).1 where
  inv := range.inv.serve ofOther inv
  below name id nonempty := by
    by_cases same : name = other
    · subst same
      exact kept id nonempty
    · have stripes : s.stripe (Pdwfs.serve q c).1 name = s.stripe c name := by
        funext id
        refine stringAt_congr (serve_of_not_mem_writes (fun member => ?_) c _)
        rcases ofOther _ member with stripes | ⟨id', stripe⟩
        · exact key_ne_stripesKey name other id stripes
        · exact same (key_inj.mp stripe).1
      rw [stripes] at nonempty ⊢
      exact range.below name id nonempty

theorem RangeInv.writeStripe (range : s.RangeInv c) {piece : StripeInfo}
    (writable : Writable s piece) (ends : piece.stop s.stripeSize < 2 ^ 63) :
    s.RangeInv (Pdwfs.serve (s.writeStripe name piece) c).1 :=
  range.serve (fun _ member => (mem_writes_writeStripe.mp member).imp_right fun same => ⟨_, same⟩)
    ((range.inv name).writeStripe writable)
    ((range.below name).writeStripe (range.inv name) writable ends)

theorem RangeInv.removeStripe (range : s.RangeInv c) (id : ℤ) :
    s.RangeInv (Pdwfs.serve (s.removeStripe name id) c).1 :=
  range.serve (fun _ member => (mem_writes_removeStripe.mp member).imp_right fun same => ⟨_, same⟩)
    ((range.inv name).removeStripe id) ((range.below name).removeStripe (range.inv name) id)

theorem RangeInv.trimStripe (range : s.RangeInv c) (id : ℤ) {size : ℤ} (positive : 0 < size) :
    s.RangeInv (Pdwfs.serve (s.trimStripe name id size) c).1 :=
  range.serve (fun _ member => .inr ⟨_, mem_writes_trimStripe.mp member⟩)
    ((range.inv name).trimStripe id positive)
    ((range.below name).trimStripe (range.inv name) id positive)

/-! ## The pieces of a call -/

/-- The pieces of a write end where it ends, at the latest. -/
theorem stop_le_of_layout {off : ℤ} {data : List UInt8} {pieces items : List StripeInfo}
    (nonneg : 0 ≤ off) (tiles : Tiles s.stripeSize off 0 data pieces)
    (padded : Padded 100 pieces items) {stripe : StripeInfo} (member : stripe ∈ items) :
    stripe.stop s.stripeSize ≤ off + data.length := by
  rcases padded.mem_or_zero member with piece | rfl
  · have found := tiles.piece s.stripeSize_pos nonneg piece
    have start := found.start_eq
    have stop := found.stop_le
    rw [StripeInfo.stop]
    omega
  · have length := Int.natCast_nonneg data.length
    simp only [StripeInfo.stop, StripeInfo.start, StripeInfo.zero, Slice.nil, List.length_nil,
      zero_mul]
    omega

/-- The bytes that a resize writes are in the stripes up to the last one of the new size. -/
theorem stop_le_of_mem_growPieces {size newSize : ℤ} {piece : StripeInfo} (nonneg : 0 ≤ size)
    (grow : size < newSize) (member : piece ∈ s.growPieces size newSize) :
    piece.stop s.stripeSize ≤ ((newSize - 1) / s.stripeSize + 1) * s.stripeSize := by
  have inside := (writable_of_mem_growPieces nonneg grow member).inside
  have before := mul_le_mul_of_nonneg_right (id_le_of_mem_growPieces grow member)
    s.stripeSize_pos.le
  rw [StripeInfo.stop, StripeInfo.start, add_mul, one_mul]
  omega

/-! ## Every call is safe -/

/-- If all sets have been parsed, what holds of each number holds of all. -/
theorem mapM_lastIdOf_of_each {good : ℤ → Prop} {replies : List ConnReply}
    (each : ∀ r ∈ replies, ∃ n, lastIdOf r = some n ∧ good n) :
    ∃ ids, replies.mapM lastIdOf = some ids ∧ ∀ id ∈ ids, good id := by
  induction replies with
  | nil => exact ⟨[], rfl, by simp⟩
  | cons r rest ih =>
      obtain ⟨n, found, holds⟩ := each r (by simp)
      obtain ⟨ids, others, all⟩ := ih fun r' member => each r' (by simp [member])
      refine ⟨n :: ids, ?_, by simpa using ⟨holds, all⟩⟩
      rw [List.mapM_cons, found, others]
      rfl

/-- A stripe that begins below the end of the range, or none. -/
def FoundBelow (s : DataStore) (id : ℤ) : Prop := id = -1 ∨ 0 ≤ id ∧ id * s.stripeSize < 2 ^ 63

/-- A registered stripe has bytes, so that it begins below the end of the range. -/
theorem RangeInv.foundBelow_of_registered (range : s.RangeInv c) {id : ℤ}
    (registered : s.Registered c name id) : s.FoundBelow id := by
  have inv := range.inv name
  refine .inr ⟨inv.nonneg_of_registered registered, ?_⟩
  rcases inv.stored_or_zero registered with stored | rfl
  · have ends := range.below name id stored
    rw [stripeEnd] at ends
    omega
  · rw [zero_mul]
    decide

/-- The search is not aborted.  Between its requests the file may grow and shrink,
but what has been found in any of the sets was below the end of the range at that
time. -/
theorem safe_searchLastStripe_of_range (s : DataStore) (name : GoString) :
    Program.Safe serve s.RangeInv False s.FoundBelow (s.searchLastStripe name) := by
  refine (Program.safe_forkAll (fun r => ∃ n, lastIdOf r = some n ∧ s.FoundBelow n) ?_).bind ?_
  · intro q member c range
    obtain ⟨client, -, rfl⟩ := List.mem_map.mp member
    have inv := range.inv name
    rw [show ({ addr := client.2.addr, body := .single (.smembers (stripesKey name)) } : Request) =
      membersRequest name client from rfl, serve_membersRequest inv]
    obtain ⟨n, found, -, attained⟩ := inv.lastIdOf_members client.2.addr
    refine ⟨range, n, found, ?_⟩
    rcases attained with none | inSet
    · exact .inl none
    · exact range.foundBelow_of_registered (inv.registered_of_mem inSet)
  · intro replies parsed
    obtain ⟨ids, found, all⟩ := mapM_lastIdOf_of_each parsed.2
    rw [found]
    exact (maxId_eq_or_mem ids).elim .inl (all _)

/-- The size that is returned is in the range, whenever the requests are answered: the last stripe
has been below its end when it has been found, and its bytes are when they are counted. -/
theorem safe_getSize_of_range (s : DataStore) (name : GoString) :
    Program.Safe serve s.RangeInv False (fun size => 0 ≤ size ∧ size < 2 ^ 63)
      (s.getSize name) := by
  refine (safe_searchLastStripe_of_range s name).bind fun ilast found => ?_
  by_cases none : ilast < 0
  · simp only [none, ite_true]
    exact ⟨le_rfl, by decide⟩
  · simp only [none, ite_false]
    obtain ⟨nonneg, begins⟩ := found.resolve_left (by omega)
    have length : Program.Safe serve s.RangeInv False
        (fun l => 0 ≤ l ∧ ilast * s.stripeSize + l < 2 ^ 63)
        ((s.redisRing.getClient (key name ilast)).strlen (key name ilast)) := by
      refine (Program.safe_request (fun reply => ∃ n : ℕ, reply = .server (.int n) ∧
        ilast * s.stripeSize + n < 2 ^ 63) fun c range => ?_).bind ?_
      · have replied := serve_strlen (range.inv name) ilast
        refine ⟨(congrArg Prod.fst replied).symm ▸ range, _, congrArg Prod.snd replied, ?_⟩
        by_cases empty : s.stripe c name ilast = []
        · simpa [empty] using begins
        · exact range.below name ilast empty
      · rintro reply ⟨n, rfl, ends⟩
        exact ⟨Int.natCast_nonneg n, ends⟩
    refine length.bind fun l counted => ?_
    have := mul_nonneg nonneg s.stripeSize_pos.le
    exact ⟨by omega, counted.2⟩

/-- `Remove` calculates nothing that could leave the range. -/
theorem safe_remove_of_range (s : DataStore) (name : GoString) :
    Program.Safe serve s.RangeInv False (fun _ => True) (s.remove name) := by
  refine (safe_searchLastStripe_of_range s name).bind fun last _ => ?_
  refine (Program.safe_forkAll (fun _ => True) ?_).bind fun _ _ => trivial
  intro q member c range
  obtain ⟨id, -, rfl⟩ := List.mem_map.mp member
  exact ⟨range.removeStripe id, trivial⟩

end DataStore

namespace Wrapped

/-- The transactions of writes that end below the range. -/
theorem safe_writes {pieces : List StripeInfo} (each : ∀ piece ∈ pieces,
      DataStore.Writable s piece ∧ piece.stop s.stripeSize < 2 ^ 63) :
    Program.Safe serve s.RangeInv False (fun _ => True)
      (Program.forkAll (pieces.map (s.writeStripe name)) >>= checkFlush) := by
  refine (Program.safe_forkAll (fun r => r ≠ ConnReply.protocolError) ?_).bind
    fun replies answered => ?_
  · intro q member c range
    obtain ⟨piece, inPieces, rfl⟩ := List.mem_map.mp member
    obtain ⟨writable, ends⟩ := each piece inPieces
    exact ⟨range.writeStripe writable ends, by simp [serve, DataStore.writeStripe, Body.exec]⟩
  · rw [checkFlush, if_neg fun member => answered.2 _ member rfl]
    trivial

/-- A write that ends below the range, in 64-bit arithmetic. -/
theorem safe_writeAt (inRange : InRange s.stripeSize) {off : ℤ} (nonneg : 0 ≤ off)
    {data : List UInt8} (below : off + data.length < 2 ^ 63) :
    Program.Safe serve s.RangeInv False (fun _ => True) (writeAt s name off data) := by
  obtain ⟨pieces, items, tiles, layout, padded⟩ :=
    stripeLayout_spec s.policy s.stripeSize_pos nonneg data
  rw [writeAt, stripeLayout_eq s.stripeSize_pos inRange nonneg (by omega)
    (last_lt s.stripeSize_pos below), layout]
  exact safe_writes fun piece member =>
    ⟨DataStore.writable_of_layout nonneg tiles padded member,
      (DataStore.stop_le_of_layout nonneg tiles padded member).trans_lt below⟩

/-- The size is returned as it is. -/
theorem safe_getSize (s : DataStore) (name : GoString) :
    Program.Safe serve s.RangeInv False (fun size => 0 ≤ size ∧ size < 2 ^ 63)
      (getSize s name) := by
  rw [getSize_eq]
  refine (DataStore.safe_getSize_of_range s name).bind fun size counted => ?_
  rw [wrap_of_nonneg counted.1 counted.2]
  exact counted

/-- The two kinds of resize.  Neither writes or trims behind the last stripe of the
new size. -/
theorem safe_resizeFrom (inRange : InRange s.stripeSize) (nonneg : 0 ≤ size)
    (small : size < 2 ^ 63) (nonneg' : 0 ≤ newSize)
    (below : ((newSize - 1) / s.stripeSize + 1) * s.stripeSize < 2 ^ 63) :
    Program.Safe serve s.RangeInv False (fun _ => True) (resizeFrom s name newSize size) := by
  have positive := s.stripeSize_pos
  rw [resizeFrom_eq s name inRange nonneg small nonneg' (lt_of_lastStripe positive below)]
  split
  · -- shrink
    refine (Program.safe_forkAll (fun r => r ≠ .server .err) ?_).bind fun replies answered => ?_
    · intro q member c range
      rcases DataStore.mem_shrinkTasks.mp member with ⟨id, -, rfl⟩ | rfl
      · exact ⟨range.removeStripe id, by simp [serve, DataStore.removeStripe, Body.exec]⟩
      · have lower := Int.emod_nonneg (newSize - 1) positive.ne'
        rw [DataStore.serve_trimStripe_reply (range.inv name) _ (by omega)]
        exact ⟨range.trimStripe _ (by omega), by simp⟩
    · rw [checkReplies, if_neg fun member => answered.2 _ member rfl]
      trivial
  · split
    · -- grow
      rename_i grow
      exact safe_writes fun piece member =>
        ⟨DataStore.writable_of_mem_growPieces nonneg grow member,
          (DataStore.stop_le_of_mem_growPieces nonneg grow member).trans_lt below⟩
    · trivial

/-- A resize; it is aborted for a negative size only. -/
theorem safe_resize (inRange : InRange s.stripeSize)
    (below : ((newSize - 1) / s.stripeSize + 1) * s.stripeSize < 2 ^ 63) :
    Program.Safe serve s.RangeInv True (fun _ => True) (resize s name newSize) := by
  by_cases negative : newSize < 0
  · rw [resize, if_pos negative]
    trivial
  · rw [resize, if_neg negative]
    refine ((safe_getSize s name).mono (fun _ => trivial) fun _ => id).bind fun size counted => ?_
    exact (safe_resizeFrom inRange counted.1 counted.2 (by omega) below).mono (fun _ => trivial)
      fun _ => id

/-! ## Reachable stores -/

/-- The 64-bit operations that clients of a store run on it, those of them that are
`allowed`. -/
inductive Call (s : DataStore) (allowed : FileCall → Prop) : Prog Unit → Prop
  | writeAt (name : GoString) (off : ℤ) (data : List UInt8) (nonneg : 0 ≤ off)
      (accepted : allowed (.writeAt off data)) : Call s allowed (writeAt s name off data)
  | resize (name : GoString) (newSize : ℤ) (accepted : allowed (.resize newSize)) :
      Call s allowed (resize s name newSize)
  | remove (name : GoString) : Call s allowed (s.remove name)

/-- The configurations reached from an empty store by clients that run 64-bit operations. -/
abbrev Configuration {ι : Type} [DecidableEq ι] (s : DataStore) (allowed : FileCall → Prop)
    (pool : Pool ι Request ConnReply Unit Cluster) : Prop :=
  Session serve (Call s allowed) (fun _ _ => none) pool

/-- The stores reached by operations that stay below the end of the range, those in
progress included. -/
def Reachable (s : DataStore) (c : Cluster) : Prop :=
  ∃ (ι : Type) (_ : DecidableEq ι) (pool : Pool ι Request ConnReply Unit Cluster),
    Configuration s (FileCall.Below s.stripeSize) pool ∧ pool.store = c

/-- **Every call** that stays below the end of the range keeps all files there. -/
theorem safe_call (inRange : InRange s.stripeSize) {program : Prog Unit}
    (call : Call s (FileCall.Below s.stripeSize) program) :
    Program.Safe serve s.RangeInv True (fun _ => True) program := by
  cases call with
  | writeAt name off data nonneg below =>
      exact (safe_writeAt inRange nonneg below).mono (fun _ => trivial) fun _ => id
  | resize name newSize below => exact safe_resize inRange below
  | remove name =>
      exact (DataStore.safe_remove_of_range s name).mono (fun _ => trivial) fun _ => id

/-- **Every store that is reached is below the end of the range.**  There may be any
number of clients. -/
theorem rangeInv_of_configuration {ι : Type} [DecidableEq ι]
    {pool : Pool ι Request ConnReply Unit Cluster} (inRange : InRange s.stripeSize)
    (reached : Configuration s (FileCall.Below s.stripeSize) pool) : s.RangeInv pool.store :=
  (reached.invariant (DataStore.rangeInv_empty s) fun _ call => safe_call inRange call).1

theorem Reachable.rangeInv (reached : Reachable s c) (inRange : InRange s.stripeSize) :
    s.RangeInv c := by
  obtain ⟨ι, _, pool, configuration, rfl⟩ := reached
  exact rangeInv_of_configuration inRange configuration

/-- In such a store the 64-bit size is the size. -/
theorem exec_getSize_iff_of_range (range : s.RangeInv c) {outcome : Option ℤ} :
    Exec (getSize s name) c c' outcome ↔
      c' = c ∧ ∃ n, outcome = some n ∧ IsSize s.stripeSize (s.stripe c name) n := by
  rw [exec_getSize_iff (range.inv name)]
  refine and_congr_right fun _ => exists_congr fun n => and_congr_left fun isSize => ?_
  have nonneg := isSize.nonneg (range.inv name).wellFormed
  rw [wrap_of_nonneg nonneg ((range.below name).size_lt isSize)]

/-! ## Sets, strings and the size -/

/-- What is stored is on the instance that the ring picks and in its set, and the size that is
returned is the largest end of a stripe that is not empty, or zero if there is none. -/
structure Agreeing (s : DataStore) (c : Cluster) (name : GoString) : Prop where
  registered : ∀ a id, stringAt (c a) (key name id) ≠ [] →
    a = s.addr name id ∧ s.Registered c name id
  sized : ∀ c' outcome, Exec (getSize s name) c c' outcome ↔
    c' = c ∧ ∃ n, outcome = some n ∧ IsSize s.stripeSize (s.stripe c name) n

/-- **Sets and strings agree, and the size is that of the strings**, in every
configuration that is reached by operations that stay below the end of the range,
with others in progress or not.  Both are read off the invariant `RangeInv`, which
holds in the middle of calls as well; the bound that comes with it is what makes the
calculation of `GetSize` exact. -/
theorem registered_and_sized_of_configuration {ι : Type} [DecidableEq ι]
    {pool : Pool ι Request ConnReply Unit Cluster} (inRange : InRange s.stripeSize)
    (reached : Configuration s (FileCall.Below s.stripeSize) pool) (name : GoString) :
    Agreeing s pool.store name where
  registered _ _ stored :=
    ((rangeInv_of_configuration inRange reached).inv name).place_of_stored stored
  sized _ _ := exec_getSize_iff_of_range (rangeInv_of_configuration inRange reached)

/-- The configurations of one client that is idle. -/
abbrev Quiet (s : DataStore) (allowed : FileCall → Prop) (c : Cluster) : Prop :=
  Configuration s allowed (⟨c, fun _ => .ret ()⟩ : Pool Unit Request ConnReply Unit Cluster)

theorem quiet_empty (s : DataStore) (allowed : FileCall → Prop) :
    Quiet s allowed fun _ _ => none :=
  .init _ fun _ => ⟨(), rfl⟩

/-- The next operation of the client. -/
theorem Quiet.run {allowed : FileCall → Prop} {program : Prog Unit} (quiet : Quiet s allowed c)
    (call : Call s allowed program) (returned : (run program c).2 = some ()) :
    Quiet s allowed (Pdwfs.run program c).1 := by
  have performed := Program.exec_run serve program c
  rw [show (Program.run serve program c).2 = some () from returned] at performed
  have next := Session.perform (i := ()) quiet ⟨(), rfl⟩ call performed
  have same : Function.update (fun _ : Unit => (.ret () : Prog Unit)) () (.ret ()) =
      fun _ => .ret () := Function.update_eq_self _ _
  rwa [same] at next

theorem Quiet.reachable (quiet : Quiet s (FileCall.Below s.stripeSize) c) : Reachable s c :=
  ⟨Unit, inferInstance, _, quiet, rfl⟩

/-- What the small store holds after one write to the file `f`. -/
def afterWrite (off : ℤ) (data : List UInt8) (c : Cluster := fun _ _ => none) : Cluster :=
  (run (writeAt (smallStore 2) ['f'] off data) c).1

/-- Five bytes, cut to three. -/
def cutToThree : Cluster := (run (resize (smallStore 2) ['f'] 3) (afterWrite 0 [1, 2, 3, 4, 5])).1

theorem quiet_cutToThree : Quiet (smallStore 2) (FileCall.Below 2) cutToThree :=
  ((quiet_empty _ _).run (.writeAt ['f'] 0 [1, 2, 3, 4, 5] (by decide) (by decide))
    (by decide)).run (.resize ['f'] 3 (by decide)) (by decide +kernel)

theorem cutToThree_evaluated : stringAt (cutToThree ['a']) (key ['f'] 1) ≠ [] ∧
    (Program.run serve (getSize (smallStore 2) ['f']) cutToThree).2 = some 3 := by
  decide +kernel

/-- The second stripe has one byte, and the size is three. -/
theorem registered_and_sized_cutToThree : ∃ c, Quiet (smallStore 2) (FileCall.Below 2) c ∧
    (smallStore 2).Registered c ['f'] 1 ∧ Exec (getSize (smallStore 2) ['f']) c c (some 3) := by
  obtain ⟨c, quiet, stored, three⟩ : ∃ c, Quiet (smallStore 2) (FileCall.Below 2) c ∧
      stringAt (c ['a']) (key ['f'] 1) ≠ [] ∧
      (Program.run serve (getSize (smallStore 2) ['f']) c).2 = some 3 :=
    ⟨cutToThree, quiet_cutToThree, cutToThree_evaluated⟩
  have inRange : InRange (smallStore 2).stripeSize := by decide
  have agreeing := registered_and_sized_of_configuration inRange quiet ['f']
  refine ⟨c, quiet, (agreeing.registered ['a'] 1 stored).2, ?_⟩
  obtain ⟨-, n, returned, isSize⟩ := (agreeing.sized _ _).mp (Program.exec_run serve _ c)
  rw [returned] at three
  exact (agreeing.sized _ _).mpr ⟨rfl, n, three.symm, isSize⟩

/-- A write of the two last bytes of the range: the size that is returned is
negative. -/
theorem not_agreeing_lastBytes : ∃ c, Quiet (smallStore 2) (fun _ => True) c ∧
    ¬Agreeing (smallStore 2) c ['f'] := by
  refine ⟨afterWrite (2 ^ 63 - 2) [1, 2], (quiet_empty _ _).run
    (.writeAt ['f'] (2 ^ 63 - 2) [1, 2] (by decide) trivial) (by decide +kernel),
    fun agreeing => ?_⟩
  have performed := Program.exec_run serve (getSize (smallStore 2) ['f'])
    (afterWrite (2 ^ 63 - 2) [1, 2])
  have negative : (Program.run serve (getSize (smallStore 2) ['f'])
      (afterWrite (2 ^ 63 - 2) [1, 2])).2 = some (-2 ^ 63) := by
    decide +kernel
  rw [negative] at performed
  obtain ⟨-, n, same, isSize⟩ := (agreeing.sized _ _).mp performed
  obtain rfl := Option.some.inj same
  have ends := isSize.stripeEnd_le (2 ^ 62 - 1) (by decide +kernel)
  exact absurd ends (by decide +kernel)

end Wrapped

end Pdwfs
