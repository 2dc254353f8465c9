import Pdwfs.Redisfs.File
import Pdwfs.Util.Wrapping

/-!
# The data store in 64-bit arithmetic

The offsets, the sizes and the identifiers of stripes are signed integers of 64
bits.  The other modules take them as integers.  Here are the functions that
calculate with them once more, with every sum, difference, quotient and product
reduced into the range; what they do not calculate they share with the others.

* `Wrapped.stripeLayout` — the loop of the source.  `stripeLayout_eq`: it is the one
  over the integers as long as the last stripe begins in the range.
  `exists_negative_of_beyond`: else it comes to a negative position, which is in a
  negative stripe, or before the start of one.
* `Wrapped.writeAt`, `Wrapped.readAt`, `Wrapped.getSize` — the data store.
* `Wrapped.MemFile.writeAt`, … — the open files.  The error of a write is always
  `nil`.

## Two versions of a function

A development that had every function in 64-bit arithmetic only would carry the
bounds through each proof, and most of what is proved about the program has nothing
to do with the end of the range.  So there are two versions, and theorems that say
when they agree.  Where a result is about the end of the range, or would be wrong
there, it is stated for the functions of this module.

What is calculated is not much: the number of a stripe and the offset in it, the
length of a piece, the counts of bytes, and the size of a file.  Lengths of slices
are natural numbers, since a slice that is longer than the range does not exist.

## Quotients

The division of the source truncates towards zero, and its remainder has the sign of
the dividend.  This makes a difference where an offset has wrapped around: the
position is negative, and the stripe it is found in has a negative number, or begins
behind the position.
-/

namespace Pdwfs

open Concurrency Wrapping

namespace Wrapped

/-- Quotient and remainder, truncated towards zero.  The quotient of the smallest
integer by `-1` is out of the range. -/
def divmod (n d : ℤ) : ℤ × ℤ := (wrap (n.tdiv d), n.tmod d)

/-- The loop of `stripeLayout`.  A slice expression with a negative length panics; a turn that
takes nothing of the data is repeated until the fuel is used up. -/
def layoutLoop (policy : AppendPolicy) (stripeSize off : ℤ) (data : List UInt8) :
    ℕ → StripeSlice → ℕ → Option (List StripeInfo)
  | 0, _, _ => none
  | fuel + 1, stripes, pos =>
      if data.length ≤ pos then some stripes.items
      else
        let stripes := if stripes.cap ≤ stripes.items.length then stripes.grow else stripes
        if stripeSize = 0 then none
        else
          let (id, offset) := divmod (wrap (off + pos)) stripeSize
          let stripeLen : ℤ :=
            if (data.length : ℤ) - pos > wrap (stripeSize - offset) then wrap (stripeSize - offset)
            else data.length - pos
          if stripeLen < 0 then none
          else
            let hi := pos + stripeLen.toNat
            layoutLoop policy stripeSize off data fuel
              (stripes.append policy { id := id, off := offset, data := Slice.sub data pos hi })
              hi

/-- The pieces of `data` when it is written or read at `off`.  A turn of the loop
takes at least one byte, or none ever, so the fuel is the length and one more. -/
def stripeLayout (policy : AppendPolicy) (stripeSize off : ℤ) (data : List UInt8) :
    Option (List StripeInfo) :=
  layoutLoop policy stripeSize off data (data.length + 1) (StripeSlice.make 100) 0

/-- The last stripe and its length, from the total size; `none` is a division by
zero. -/
def lastStripeInfo (size stripeSize : ℤ) : Option (ℤ × ℤ) :=
  if stripeSize = 0 then none
  else
    let (stripeID, stripeLen) := divmod size stripeSize
    some (if stripeLen = 0 then (wrap (stripeID - 1), stripeSize) else (stripeID, stripeLen))

/-! ## The data store -/

/-- `Flush` panics when the connection fails; an error reply inside of the transaction is none
of its concern. -/
def checkFlush (replies : List ConnReply) : Prog Unit :=
  if ConnReply.protocolError ∈ replies then .panic else .ret ()

/-- Write `data` at the offset `off` of `name`. -/
def writeAt (s : DataStore) (name : GoString) (off : ℤ) (data : List UInt8) : Prog Unit :=
  match stripeLayout s.policy s.stripeSize off data with
  | none => .panic
  | some stripes => do
      let replies ← Program.forkAll (stripes.map (s.writeStripe name))
      checkFlush replies

/-- Read into `dst` from the offset `off` of `name`. -/
def readAt (s : DataStore) (name : GoString) (off : ℤ) (dst : List UInt8) :
    Prog (ℤ × List UInt8) :=
  match stripeLayout s.policy s.stripeSize off dst with
  | none => .panic
  | some stripes => do
      let replies ← Program.forkAll (stripes.map (s.readStripe name))
      match collectReads replies 0 dst with
      | none => .panic
      | some (n, dst') => return (wrap n, dst')

/-- The number of bytes of `name`.  The product and the sum may both leave the
range. -/
def getSize (s : DataStore) (name : GoString) : Prog ℤ := do
  let ilast ← s.searchLastStripe name
  if ilast < 0 then return 0
  else
    let l ← (s.redisRing.getClient (key name ilast)).strlen (key name ilast)
    return wrap (wrap (ilast * s.stripeSize) + l)

/-! ## Open files -/

namespace MemFile

/-- Write `data` at the offset `off`. -/
def writeAt (f : MemFile) (data : List UInt8) (off : ℤ) : Prog (ℤ × Option FileError) :=
  if off < 0 then .panic
  else do
    Wrapped.writeAt f.store f.path off data
    return (data.length, none)

/-- Write at the offset of the handle, and advance it. -/
def write (f : MemFile) (data : List UInt8) : Prog (MemFile × ℤ × Option FileError) := do
  let (wrote, err) ← writeAt f data f.offset
  return ({ f with offset := wrap (f.offset + wrote) }, wrote, err)

/-- Write the buffers one after the other.  Their errors are dropped. -/
def writeVecAt (f : MemFile) : List (List UInt8) → ℤ → Prog (ℤ × Option FileError)
  | [], _ => return (0, none)
  | data :: datav, off => do
      let (wrote, _) ← writeAt f data off
      let (n, err) ← writeVecAt f datav (wrap (off + wrote))
      return (wrap (wrote + n), err)

/-- Write the buffers at the offset of the handle, and advance it. -/
def writeVec (f : MemFile) (datav : List (List UInt8)) :
    Prog (MemFile × ℤ × Option FileError) := do
  let (wrote, err) ← writeVecAt f datav f.offset
  return ({ f with offset := wrap (f.offset + wrote) }, wrote, err)

/-- Read into `dst` from the offset `off`. -/
def readAt (f : MemFile) (dst : List UInt8) (off : ℤ) : Prog MemFile.ReadResult :=
  if off < 0 then .panic
  else if dst.length = 0 then return (0, dst, none)
  else do
    let (n, dst') ← Wrapped.readAt f.store f.path off dst
    if n < dst.length then return (n, dst', some .eof)
    else return (n, dst', none)

/-- Read into the buffers one after the other, until one of them is not filled. -/
def readVecAt (f : MemFile) :
    List (List UInt8) → ℤ → Prog (ℤ × List (List UInt8) × Option FileError)
  | [], _ => return (0, [], none)
  | dst :: dstv, off => do
      let (read, dst', err) ← readAt f dst off
      match err with
      | some .eof => return (read, dst' :: dstv, some .eof)
      | some _ => .panic
      | none => do
          let (n, dstv', err') ← readVecAt f dstv (wrap (off + read))
          return (wrap (read + n), dst' :: dstv', err')

/-- Read into the buffers from the offset of the handle, and advance it. -/
def readVec (f : MemFile) (dstv : List (List UInt8)) :
    Prog (MemFile × ℤ × List (List UInt8) × Option FileError) := do
  let (read, dstv', err) ← readVecAt f dstv f.offset
  return ({ f with offset := wrap (f.offset + read) }, read, dstv', err)

end MemFile

/-! ## The layout -/

variable (policy : AppendPolicy) (S off : ℤ) (data : List UInt8)

/-- How many bytes the turn at `pos` takes. -/
def taken (pos : ℕ) : ℤ :=
  if (data.length : ℤ) - pos > wrap (S - (divmod (wrap (off + pos)) S).2) then
    wrap (S - (divmod (wrap (off + pos)) S).2)
  else data.length - pos

/-- The piece of the turn at `pos`. -/
def pieceAt (pos : ℕ) : StripeInfo where
  id := (divmod (wrap (off + pos)) S).1
  off := (divmod (wrap (off + pos)) S).2
  data := Slice.sub data pos (pos + (taken S off data pos).toNat)

/-- The slice behind a turn with the piece `piece`.  It has been made longer if it
was full. -/
def extended (stripes : StripeSlice) (piece : StripeInfo) : StripeSlice :=
  (if stripes.cap ≤ stripes.items.length then stripes.grow else stripes).append policy piece

variable {policy S off data} {fuel pos : ℕ} {stripes : StripeSlice} {piece stripe : StripeInfo}

/-- What is in the slice stays there, and the new piece is in it. -/
theorem mem_extended (member : stripe ∈ stripes.items ∨ stripe = piece) :
    stripe ∈ (extended policy stripes piece).items := by
  simp only [extended, StripeSlice.append, List.mem_append, List.mem_singleton]
  refine member.imp_left fun old => ?_
  split
  · simp [StripeSlice.grow, old]
  · exact old

/-- One turn of the loop, with data left. -/
theorem layoutLoop_succ (nonzero : S ≠ 0) (left : pos < data.length) :
    layoutLoop policy S off data (fuel + 1) stripes pos =
      if taken S off data pos < 0 then none
      else layoutLoop policy S off data fuel (extended policy stripes (pieceAt S off data pos))
        (pos + (taken S off data pos).toNat) := by
  rw [layoutLoop, if_neg (by omega), if_neg nonzero]
  rfl

/-- The pieces that are in the slice stay in it. -/
theorem mem_of_layoutLoop {items : List StripeInfo}
    (result : layoutLoop policy S off data fuel stripes pos = some items)
    (member : stripe ∈ stripes.items) : stripe ∈ items := by
  induction fuel generalizing stripes pos with
  | zero => simp [layoutLoop] at result
  | succ fuel ih =>
      by_cases left : pos < data.length
      · by_cases zero : S = 0
        · rw [layoutLoop, if_neg (by omega), if_pos zero] at result
          simp at result
        · rw [layoutLoop_succ zero left] at result
          split at result
          · simp at result
          · exact ih result (mem_extended (.inl member))
      · rw [layoutLoop, if_pos (by omega)] at result
        obtain rfl := Option.some.inj result
        exact member

/-- With a stripe size that is positive and not too large every turn takes something, wherever it
begins. -/
theorem taken_pos (positive : 0 < S) (small : S ≤ 2 ^ 62) (left : pos < data.length) :
    0 < taken S off data pos := by
  have lower := Int.lt_tmod_of_pos (wrap (off + pos)) positive
  have upper := Int.tmod_lt_of_pos (wrap (off + pos)) positive
  unfold taken divmod
  generalize (wrap (off + pos)).tmod S = offset at *
  rw [wrap_of_nonneg (by omega : 0 ≤ S - offset) (by omega)]
  split <;> omega

/-- **Then the loop ends without a panic**, for every offset. -/
theorem isSome_layoutLoop (positive : 0 < S) (small : S ≤ 2 ^ 62)
    (enough : data.length - pos < fuel) :
    (layoutLoop policy S off data fuel stripes pos).isSome := by
  induction fuel generalizing stripes pos with
  | zero => omega
  | succ fuel ih =>
      by_cases left : pos < data.length
      · have progress : 0 < taken S off data pos := taken_pos positive small left
        rw [layoutLoop_succ positive.ne' left, if_neg (by omega)]
        exact ih (by omega)
      · rw [layoutLoop, if_pos (by omega)]
        rfl

/-- With any other stripe size the first byte of a file cannot be written. -/
theorem stripeLayout_of_nonpos (policy : AppendPolicy) (inRange : InRange S) (nonpos : S ≤ 0)
    (byte : UInt8) : stripeLayout policy S 0 [byte] = none := by
  unfold stripeLayout
  by_cases zero : S = 0
  · rw [layoutLoop, if_neg (by simp), if_pos zero]
  · have offset : (divmod (wrap (0 + (0 : ℕ))) S).2 = 0 := Int.zero_tmod S
    have start : taken S 0 [byte] 0 = S := by
      rw [taken, offset, sub_zero, wrap_eq_self_iff.mpr inRange, if_pos (by simp; omega)]
    rw [layoutLoop_succ zero (by simp), start, if_pos (by omega)]

/-! ### Below the end of the range -/

/-- The position of a turn is the first one, or it is where a stripe begins. -/
def Aligned (S off : ℤ) (pos : ℕ) : Prop := pos = 0 ∨ (off + pos) % S = 0

/-- A turn that begins in the range is the one over the integers. -/
theorem divmod_wrap (positive : 0 < S) (nonneg : 0 ≤ off) (inRange : off < 2 ^ 63) :
    divmod (wrap off) S = (off / S, off % S) := by
  have below : off / S ≤ off := Int.ediv_le_self S nonneg
  have above : 0 ≤ off / S := Int.ediv_nonneg nonneg positive.le
  rw [divmod, wrap_of_nonneg nonneg inRange, Int.tdiv_eq_ediv_of_nonneg nonneg,
    Int.tmod_eq_emod_of_nonneg nonneg, wrap_of_nonneg above (by omega)]

/-- What a turn that begins in the range takes: the rest of the stripe, or what is left. -/
theorem taken_of_inRange (positive : 0 < S) (inRange : InRange S) (nonneg : 0 ≤ off)
    (here : off + pos < 2 ^ 63) :
    taken S off data pos =
      if (data.length : ℤ) - pos > S - (off + pos) % S then S - (off + pos) % S
      else data.length - pos := by
  have lower := Int.emod_nonneg (off + pos) positive.ne'
  have upper := Int.emod_lt_of_pos (off + pos) positive
  obtain ⟨-, small⟩ := inRange
  rw [taken, divmod_wrap positive (by omega) here, wrap_of_nonneg (by omega) (by omega)]

/-- Behind a turn that begins in the range either nothing is left, or a stripe begins. -/
theorem next_of_inRange (positive : 0 < S) (inRange : InRange S) (nonneg : 0 ≤ off)
    (here : off + pos < 2 ^ 63) (left : pos < data.length) :
    0 < taken S off data pos ∧ pos + (taken S off data pos).toNat ≤ data.length ∧
      (pos + (taken S off data pos).toNat < data.length →
        Aligned S off (pos + (taken S off data pos).toNat)) := by
  have upper := Int.emod_lt_of_pos (off + pos) positive
  have split := Int.mul_ediv_add_emod (off + pos) S
  rw [taken_of_inRange positive inRange nonneg here]
  by_cases wide : (data.length : ℤ) - pos > S - (off + pos) % S
  · rw [if_pos wide]
    refine ⟨by omega, by omega, fun _ => .inr ?_⟩
    have next : off + ((pos + (S - (off + pos) % S).toNat : ℕ) : ℤ) =
        S * ((off + pos) / S + 1) := by
      rw [mul_add, mul_one]
      omega
    rw [next, Int.mul_emod_right]
  · rw [if_neg wide]
    exact ⟨by omega, by omega, fun more => by omega⟩

/-- A turn with data left begins in the range if the last stripe does. -/
theorem turn_inRange (positive : 0 < S) (inRange : off < 2 ^ 63)
    (last : (off + data.length - 1) / S * S < 2 ^ 63) (aligned : Aligned S off pos)
    (left : pos < data.length) : off + pos < 2 ^ 63 := by
  rcases aligned with rfl | begins
  · simpa using inRange
  · have before : (off + pos) / S ≤ (off + data.length - 1) / S :=
      Int.ediv_le_ediv positive (by omega)
    calc off + pos = (off + pos) / S * S := (Int.ediv_mul_cancel_of_emod_eq_zero begins).symm
      _ ≤ (off + data.length - 1) / S * S := mul_le_mul_of_nonneg_right before positive.le
      _ < 2 ^ 63 := last

/-- **Below the end of the range the layout is the one over the integers.** -/
theorem layoutLoop_eq (positive : 0 < S) (inRange : InRange S) (nonneg : 0 ≤ off)
    (offRange : off < 2 ^ 63) (last : (off + data.length - 1) / S * S < 2 ^ 63)
    (aligned : pos < data.length → Aligned S off pos) :
    layoutLoop policy S off data fuel stripes pos =
      Pdwfs.layoutLoop policy S off data fuel stripes pos := by
  induction fuel generalizing stripes pos with
  | zero => rfl
  | succ fuel ih =>
      by_cases left : pos < data.length
      · have here := turn_inRange positive offRange last (aligned left) left
        obtain ⟨progress, -, next⟩ := next_of_inRange positive inRange nonneg here left
        have length : taken S off data pos = _ := taken_of_inRange positive inRange nonneg here
        rw [layoutLoop_succ positive.ne' left, if_neg (by omega), ih next]
        rw [Pdwfs.layoutLoop, if_neg (by omega), if_neg positive.ne',
          divmod_of_nonneg (by omega : 0 ≤ off + (pos : ℤ))]
        simp only [← length]
        rw [if_neg (by omega)]
        simp only [extended, pieceAt, divmod_wrap positive (by omega : 0 ≤ off + (pos : ℤ)) here]
      · rw [layoutLoop, Pdwfs.layoutLoop, if_pos (by omega), if_pos (by omega)]

theorem stripeLayout_eq (positive : 0 < S) (inRange : InRange S) (nonneg : 0 ≤ off)
    (offRange : off < 2 ^ 63) (last : (off + data.length - 1) / S * S < 2 ^ 63) :
    stripeLayout policy S off data = Pdwfs.stripeLayout policy S off data :=
  layoutLoop_eq positive inRange nonneg offRange last fun _ => .inl rfl

/-! ### Beyond the end of the range -/

/-- A turn beyond the range takes its piece from a negative position. -/
theorem negative_pieceAt (positive : 0 < S) (beyond : 2 ^ 63 ≤ off + pos)
    (once : off + pos < 2 ^ 64) :
    (pieceAt S off data pos).id < 0 ∨ (pieceAt S off data pos).off < 0 := by
  obtain ⟨m, mEq⟩ : ∃ m, m = 2 ^ 64 - (off + pos) := ⟨_, rfl⟩
  have above : 0 ≤ m / S := Int.ediv_nonneg (by omega) positive.le
  have below : m / S ≤ m := Int.ediv_le_self S (by omega)
  have split := Int.mul_ediv_add_emod m S
  have position : wrap (off + pos) = -m := by
    rw [wrap_of_le beyond once]
    omega
  simp only [pieceAt, divmod, position, Int.neg_tdiv, Int.neg_tmod]
  rw [Int.tdiv_eq_ediv_of_nonneg (by omega), Int.tmod_eq_emod_of_nonneg (by omega),
    wrap_eq_self_iff.mpr ⟨by omega, by omega⟩]
  by_cases first : m / S = 0
  · rw [first, mul_zero, zero_add] at split
    exact .inr (by omega)
  · exact .inl (by omega)

/-- **Beyond the end of the range a piece is negative.**  Its stripe is, or it begins before the
start of its stripe. -/
theorem exists_negative_of_beyond (positive : 0 < S) (inRange : InRange S) (nonneg : 0 ≤ off)
    (offRange : off < 2 ^ 63) (small : (data.length : ℤ) < 2 ^ 63)
    (last : 2 ^ 63 ≤ (off + data.length - 1) / S * S) (left : pos < data.length)
    (aligned : Aligned S off pos) {items : List StripeInfo}
    (result : layoutLoop policy S off data fuel stripes pos = some items) :
    ∃ stripe ∈ items, stripe.id < 0 ∨ stripe.off < 0 := by
  induction fuel generalizing stripes pos with
  | zero => simp [layoutLoop] at result
  | succ fuel ih =>
      rw [layoutLoop_succ positive.ne' left] at result
      split at result
      · simp at result
      · by_cases here : off + pos < 2 ^ 63
        · obtain ⟨progress, within, next⟩ :=
            next_of_inRange positive inRange nonneg here left
          -- The last stripe begins behind this turn, so it is not the last one.
          have more : pos + (taken S off data pos).toNat < data.length := by
            have later : (off + pos) / S + 1 ≤ (off + data.length - 1) / S := by
              rw [Int.add_one_le_iff, Int.ediv_lt_iff_lt_mul positive]
              omega
            have next := mul_le_mul_of_nonneg_right later positive.le
            have start := Int.ediv_mul_le (off + data.length - 1) positive.ne'
            have split := Int.ediv_mul_add_emod (off + pos) S
            rw [add_mul, one_mul] at next
            rw [taken_of_inRange positive inRange nonneg here, if_pos (by omega)]
            omega
          exact ih more (next more) result
        · exact ⟨_, mem_of_layoutLoop result (mem_extended (.inr rfl)),
            negative_pieceAt positive (by omega) (by omega)⟩

/-! ## Runs below the end of the range -/

section Runs

variable {s : DataStore} {f : MemFile} {c c' : Cluster} {name : GoString}
  {datav : List (List UInt8)}

/-- A range that ends in the range of the integers has no stripe that begins behind it. -/
theorem last_lt (positive : 0 < S) {len : ℕ} (inside : off + len < 2 ^ 63) :
    (off + len - 1) / S * S < 2 ^ 63 := by
  have start := Int.ediv_mul_le (off + len - 1) positive.ne'
  omega

/-- The transactions of a write never fail as such. -/
theorem checkFlush_runAll (stripes : List StripeInfo) (c : Cluster) :
    checkFlush (Program.runAll serve (stripes.map (s.writeStripe name)) c).2 = .ret () := by
  refine if_neg fun failed => ?_
  have arrays := (Program.runAll_preserves (fun _ => True) (fun r => r ≠ ConnReply.protocolError)
    (fun q member c _ => ⟨trivial, ?_⟩) trivial).2 _ failed
  · exact arrays rfl
  · obtain ⟨stripe, -, rfl⟩ := List.mem_map.mp member
    nofun

/-- **Below the end of the range** a write is the one over the integers. -/
theorem exec_writeAt (inRange : InRange s.stripeSize) (nonneg : 0 ≤ off) (offRange : off < 2 ^ 63)
    (last : (off + data.length - 1) / s.stripeSize * s.stripeSize < 2 ^ 63)
    {outcome : Option Unit} (performed : Exec (writeAt s name off data) c c' outcome) :
    Exec (s.writeAt name off data) c c' outcome := by
  rw [writeAt, stripeLayout_eq s.stripeSize_pos inRange nonneg offRange last] at performed
  unfold DataStore.writeAt
  cases layout : Pdwfs.stripeLayout s.policy s.stripeSize off data with
  | none =>
      rw [layout] at performed
      exact performed
  | some stripes =>
      rw [layout] at performed
      obtain ⟨order, perm, rest⟩ := Program.exec_forkAll_map_bind_iff.mp performed
      rw [checkFlush_runAll] at rest
      exact Program.exec_forkAll_map_bind_iff.mpr ⟨order, perm, rest⟩

/-- The size is the one over the integers, reduced into the range. -/
theorem getSize_eq (s : DataStore) (name : GoString) :
    getSize s name = s.getSize name >>= fun n => .ret (wrap n) := by
  rw [getSize, DataStore.getSize, Program.bind_assoc]
  congr
  funext ilast
  split
  · rfl
  · rw [Program.bind_assoc]
    simp only [Program.pure_eq, Program.ret_bind, wrap_wrap_add]

namespace MemFile

/-- The error of a write is `nil`, and its count is the length of the data. -/
theorem yields_writeAt (f : MemFile) (data : List UInt8) (off : ℤ) :
    Program.Yields (fun result => result = ((data.length : ℤ), none)) (writeAt f data off) := by
  unfold writeAt
  split
  · trivial
  · exact (Program.yields_true _).bind fun _ _ => rfl

/-- A write of several buffers returns the number of all bytes, if it returns. -/
theorem yields_writeVecAt (f : MemFile) (datav : List (List UInt8)) (off : ℤ) :
    Program.Yields (fun result => result = (wrap datav.flatten.length, none))
      (writeVecAt f datav off) := by
  induction datav generalizing off with
  | nil => rfl
  | cons data rest ih =>
      refine (yields_writeAt f data off).bind fun first same => (ih _).bind fun others same' => ?_
      obtain rfl := same
      obtain rfl := same'
      refine Prod.ext ?_ rfl
      simp only [wrap_add_wrap, List.flatten_cons, List.length_append]
      push_cast
      rfl

/-- A write moves the handle by its count, reduced into the range. -/
theorem yields_write (f : MemFile) (data : List UInt8) :
    Program.Yields (fun result => result =
      ({ f with offset := wrap (f.offset + data.length) }, (data.length : ℤ), none))
      (write f data) :=
  (yields_writeAt f data f.offset).bind fun result same => by
    rw [same]
    rfl

/-- And it moves the handle by this number. -/
theorem yields_writeVec (f : MemFile) (datav : List (List UInt8)) :
    Program.Yields (fun result => result =
      ({ f with offset := wrap (f.offset + datav.flatten.length) },
        wrap datav.flatten.length, none)) (writeVec f datav) :=
  (yields_writeVecAt f datav f.offset).bind fun result same => by
    rw [same]
    exact Prod.ext (congrArg (fun n => ({ f with offset := n } : Pdwfs.MemFile))
      (wrap_add_wrap _ _)) rfl

theorem exec_writeAt (inRange : InRange f.store.stripeSize) (nonneg : 0 ≤ off)
    (offRange : off < 2 ^ 63)
    (last : (off + data.length - 1) / f.store.stripeSize * f.store.stripeSize < 2 ^ 63)
    {outcome : Option (ℤ × Option FileError)}
    (performed : Exec (writeAt f data off) c c' outcome) :
    ∃ result, Exec (f.writeAt data off) c c' result ∧ outcome = result.map fun n => (n, none) := by
  rw [writeAt, if_neg (by omega)] at performed
  obtain ⟨done, wrote, rfl⟩ := Program.exec_bind_ret_iff.mp performed
  refine ⟨done.map fun _ => (data.length : ℤ), ?_, by cases done <;> rfl⟩
  rw [Pdwfs.MemFile.writeAt, if_neg (by omega)]
  exact Program.exec_bind_ret_iff.mpr
    ⟨done, Wrapped.exec_writeAt inRange nonneg offRange last wrote, rfl⟩

/-- The same for several buffers.  The running offset stays below the end of the range. -/
theorem exec_writeVecAt (inRange : InRange f.store.stripeSize) (nonneg : 0 ≤ off)
    (inside : off + datav.flatten.length < 2 ^ 63) {outcome : Option (ℤ × Option FileError)}
    (performed : Exec (writeVecAt f datav off) c c' outcome) :
    ∃ result, Exec (f.writeVecAt datav off) c c' result ∧
      outcome = result.map fun n => (n, none) := by
  induction datav generalizing off outcome c with
  | nil =>
      obtain ⟨rfl, rfl⟩ := Program.exec_ret_iff.mp performed
      exact ⟨some 0, .ret _ _, rfl⟩
  | cons data rest ih =>
      rw [List.flatten_cons, List.length_append] at inside
      push_cast at inside
      have first := fun {middle : Cluster} {outcome : Option (ℤ × Option FileError)}
          (wrote : Exec (writeAt f data off) c middle outcome) =>
        exec_writeAt inRange nonneg (by omega)
          (last_lt f.store.stripeSize_pos (by omega)) wrote
      rw [writeVecAt] at performed
      rcases Program.exec_bind_iff.mp performed with ⟨one, middle, wrote, later⟩ | ⟨aborted, rfl⟩
      · obtain rfl := (yields_writeAt f data off).of_exec wrote one rfl
        obtain ⟨_ | n, wrote', same⟩ := first wrote
        · simp at same
        obtain ⟨rfl, -⟩ := Prod.mk.inj (Option.some.inj same)
        simp only [wrap_of_nonneg (by omega : 0 ≤ off + (data.length : ℤ)) (by omega)] at later
        obtain ⟨two, others, rfl⟩ := Program.exec_bind_ret_iff.mp later
        have count := (yields_writeVecAt f rest _).of_exec others
        obtain ⟨result, others', rfl⟩ := ih (by omega) (by omega) others
        refine ⟨result.map fun n => (data.length : ℤ) + n, ?_, ?_⟩
        · unfold Pdwfs.MemFile.writeVecAt
          exact Program.exec_bind_iff.mpr (.inl ⟨_, middle, wrote',
            Program.exec_bind_ret_iff.mpr ⟨result, others', rfl⟩⟩)
        · cases result with
          | none => rfl
          | some n =>
              have counted := congrArg Prod.fst (count (n, none) (Option.mem_some_self _))
              rw [wrap_of_nonneg (by omega) (by omega)] at counted
              simp only [Option.map_some]
              rw [wrap_of_nonneg (by omega) (by omega)]
      · obtain ⟨result, aborted', same⟩ := first aborted
        obtain rfl := Option.map_eq_none_iff.mp same.symm
        refine ⟨none, ?_, rfl⟩
        unfold Pdwfs.MemFile.writeVecAt
        exact Program.exec_bind_iff.mpr (.inr ⟨aborted', rfl⟩)

end MemFile

end Runs

end Wrapped

end Pdwfs
