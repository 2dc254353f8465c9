import Pdwfs.Redisfs.Redis

/-!
# The layout of a byte sequence over stripes

`stripeLayout` cuts the bytes written or read at an offset into pieces, each inside
of one stripe.

* `stripeLayout` — the loop of the source, with the slice it appends to: the slice
  starts with room for 100 pieces, and when it is full the loop replaces it by one
  of twice its capacity.  The replacement is made with a length instead of a
  capacity, so the new slots are in the result, as zero values.
* `Tiles` — what a layout is for: consecutive non-empty pieces, each of which stays
  inside of its stripe and fills it up to the end unless it is the last one.
* `stripeLayout_spec` — the loop computes the tiling, plus zero values from the
  moment the first 100 slots are used up.
* `Partition`, `partition_iff` — what the result is to be, and when it is.

## The zero values

A zero value names stripe 0 at offset 0, with a slice that is `nil`.  It is written
as an empty string, which is harmless, except that stripe 0 is put into the set of
the stripes.  It is read as the range from 0 to `-1`, which is the whole of stripe
0, and without a buffer, so that what has been read is counted and goes nowhere.

The layout is therefore described by two things: the tiling, which is what is left
of the result without the zero values, and the condition on the number of pieces.
`Padded` is the relation between the two, and the only thing about the slice that is
used outside of this module.

How much `append` lets a full slice grow is up to the runtime.  It decides how many
zero values there are and where they stand, but not that there are some behind the
first 100 pieces, so it is a parameter (`AppendPolicy`).

## Positions

Positions are integers here and have no upper bound.  The source adds the offset and
the position in the data in 64 bits: once the end of the data is behind `2^63` the
sum wraps, and the stripe of the next piece has a negative number.  That function is
`Wrapped.stripeLayout`, and the two agree up to there.
-/

namespace Pdwfs

/-- Quotient and remainder, truncated towards zero. -/
def divmod (n d : ℤ) : ℤ × ℤ := (n.tdiv d, n.tmod d)

/-- For a position this is the stripe, and the place in it. -/
theorem divmod_of_nonneg {n d : ℤ} (nonneg : 0 ≤ n) : divmod n d = (n / d, n % d) := by
  rw [divmod, Int.tdiv_eq_ediv_of_nonneg nonneg, Int.tmod_eq_emod_of_nonneg nonneg]

/-- A piece of data inside of the stripe `id`, starting at offset `off` of it. -/
structure StripeInfo where
  id : ℤ
  off : ℤ
  data : Slice
  deriving DecidableEq

namespace StripeInfo

/-- The zero value of the type. -/
def zero : StripeInfo := { id := 0, off := 0, data := Slice.nil }

/-- The position in the file of the first byte of the piece. -/
def start (stripeSize : ℤ) (stripe : StripeInfo) : ℤ := stripe.id * stripeSize + stripe.off

/-- The position in the file behind the last byte of the piece. -/
def stop (stripeSize : ℤ) (stripe : StripeInfo) : ℤ :=
  stripe.start stripeSize + stripe.data.bytes.length

end StripeInfo

/-- The capacity that `append` gives to a slice that it has to reallocate, from the
old capacity and the length needed.  It depends on the version of the runtime; it
is never too small. -/
structure AppendPolicy where
  newCap : ℕ → ℕ → ℕ
  needed_le : ∀ old needed, needed ≤ newCap old needed

/-- A slice of stripes with its capacity.  That it has room for what is in it is
part of the slice. -/
structure StripeSlice where
  items : List StripeInfo
  cap : ℕ
  length_le : items.length ≤ cap

namespace StripeSlice

/-- `make([]stripeInfo, 0, cap)`. -/
def make (cap : ℕ) : StripeSlice := { items := [], cap := cap, length_le := by simp }

/-- `newStripes := make([]stripeInfo, 2*cap(stripes))`, then `copy`.  The second
argument is the length: behind what is copied there are zero values, and the next
`append` goes behind these. -/
def grow (stripes : StripeSlice) : StripeSlice where
  items := stripes.items ++
    List.replicate (2 * stripes.cap - stripes.items.length) StripeInfo.zero
  cap := 2 * stripes.cap
  length_le := by
    have := stripes.length_le
    simp only [List.length_append, List.length_replicate]
    omega

/-- `append(stripes, stripe)`. -/
def append (policy : AppendPolicy) (stripes : StripeSlice) (stripe : StripeInfo) :
    StripeSlice where
  items := stripes.items ++ [stripe]
  cap :=
    if stripes.items.length < stripes.cap then stripes.cap
    else policy.newCap stripes.cap (stripes.items.length + 1)
  length_le := by
    have := policy.needed_le stripes.cap (stripes.items.length + 1)
    simp only [List.length_append, List.length_cons, List.length_nil]
    split <;> omega

end StripeSlice

/-- The loop of `stripeLayout` at the position `pos` of the data.  The result is
`none` when the Go program panics (division by zero, a slice expression out of
range).  Every turn consumes data, so `fuel` turns are enough when there are more
of them than bytes left. -/
def layoutLoop (policy : AppendPolicy) (stripeSize off : ℤ) (data : List UInt8) :
    ℕ → StripeSlice → ℕ → Option (List StripeInfo)
  | 0, _, _ => none
  | fuel + 1, stripes, pos =>
      if data.length ≤ pos then some stripes.items
      else
        let stripes := if stripes.cap ≤ stripes.items.length then stripes.grow else stripes
        if stripeSize = 0 then none
        else
          let (id, offset) := divmod (off + pos) stripeSize
          let stripeLen : ℤ :=
            if (data.length : ℤ) - pos > stripeSize - offset then stripeSize - offset
            else data.length - pos
          if stripeLen < 0 then none
          else
            let hi := pos + stripeLen.toNat
            layoutLoop policy stripeSize off data fuel
              (stripes.append policy { id := id, off := offset, data := Slice.sub data pos hi })
              hi

/-- The pieces of `data` when it is written or read at `off`. -/
def stripeLayout (policy : AppendPolicy) (stripeSize off : ℤ) (data : List UInt8) :
    Option (List StripeInfo) :=
  layoutLoop policy stripeSize off data (data.length + 1) (StripeSlice.make 100) 0

/-! ## Tilings -/

/-- `Tiles S start pos data stripes`: the stripes are the pieces of `data`, which
begins at the position `start` of the file and at the index `pos` of its slice. -/
inductive Tiles (S : ℤ) : ℤ → ℕ → List UInt8 → List StripeInfo → Prop
  | nil (start : ℤ) (pos : ℕ) : Tiles S start pos [] []
  | cons {start : ℤ} {pos : ℕ} {piece rest : List UInt8} {stripes : List StripeInfo}
      (nonempty : piece ≠ []) (inside : start % S + piece.length ≤ S)
      (full : rest ≠ [] → start % S + piece.length = S)
      (others : Tiles S (start + piece.length) (pos + piece.length) rest stripes) :
      Tiles S start pos (piece ++ rest)
        ({ id := start / S, off := start % S, data := { bytes := piece, pos := pos } } :: stripes)

namespace Tiles

variable {S start : ℤ} {pos : ℕ} {data : List UInt8} {stripes : List StripeInfo}

/-- A piece of a layout: where it lies and what it holds. -/
structure Piece (S start : ℤ) (pos : ℕ) (data : List UInt8) (stripe : StripeInfo) : Prop where
  id_nonneg : 0 ≤ stripe.id
  off_nonneg : 0 ≤ stripe.off
  nonempty : stripe.data.bytes ≠ []
  notNil : stripe.data.isNil = false
  /-- It stays inside of its stripe. -/
  inside : stripe.off + stripe.data.bytes.length ≤ S
  /-- It begins where its slice begins in the data. -/
  start_eq : stripe.start S = start + (stripe.data.pos - pos)
  pos_le : pos ≤ stripe.data.pos
  /-- It holds the bytes of that part of the data. -/
  bytes_eq : stripe.data.bytes =
    (data.drop (stripe.data.pos - pos)).take stripe.data.bytes.length
  stop_le : stripe.data.pos - pos + stripe.data.bytes.length ≤ data.length

/-- **Every stripe of a tiling is a piece of the data.** -/
theorem piece (tiles : Tiles S start pos data stripes) (positive : 0 < S)
    (nonneg : 0 ≤ start) {stripe : StripeInfo} (member : stripe ∈ stripes) :
    Piece S start pos data stripe := by
  induction tiles with
  | nil start pos => simp at member
  | cons nonempty inside full others ih =>
      rename_i start pos piece rest stripes
      rcases List.mem_cons.mp member with rfl | later
      · exact {
          id_nonneg := Int.ediv_nonneg nonneg positive.le
          off_nonneg := Int.emod_nonneg _ positive.ne'
          nonempty := nonempty
          notNil := rfl
          inside := inside
          start_eq := by
            have := Int.mul_ediv_add_emod start S
            simp only [StripeInfo.start]
            linarith [mul_comm S (start / S)]
          pos_le := le_rfl
          bytes_eq := by simp
          stop_le := by simp }
      · have found := ih (by omega) later
        have shift := found.pos_le
        have skip :
            stripe.data.pos - pos = piece.length + (stripe.data.pos - (pos + piece.length)) := by
          omega
        exact {
          id_nonneg := found.id_nonneg
          off_nonneg := found.off_nonneg
          nonempty := found.nonempty
          notNil := found.notNil
          inside := found.inside
          start_eq := by rw [found.start_eq]; omega
          pos_le := by omega
          bytes_eq := by
            rw [skip, List.drop_append, Nat.add_sub_cancel_left,
              List.drop_eq_nil_of_le (Nat.le_add_right _ _), List.nil_append]
            exact found.bytes_eq
          stop_le := by
            have := found.stop_le
            rw [skip, List.length_append]
            omega }

/-- Every byte of the data is in some stripe of the tiling. -/
theorem covers (tiles : Tiles S start pos data stripes) {i : ℕ} (inside : i < data.length) :
    ∃ stripe ∈ stripes,
      stripe.data.pos ≤ pos + i ∧ pos + i < stripe.data.pos + stripe.data.bytes.length := by
  induction tiles generalizing i with
  | nil start pos => simp at inside
  | cons nonempty inside' full others ih =>
      rename_i start pos piece rest stripes
      by_cases first : i < piece.length
      · exact ⟨_, List.mem_cons_self, Nat.le_add_right _ _, Nat.add_lt_add_left first _⟩
      · rw [List.length_append] at inside
        obtain ⟨stripe, member, lower, upper⟩ := ih (i := i - piece.length) (by omega)
        exact ⟨stripe, by simp [member], by omega, by omega⟩

theorem eq_nil (tiles : Tiles S start pos data stripes) (empty : data = []) : stripes = [] := by
  cases tiles with
  | nil => rfl
  | cons nonempty => simp [nonempty] at empty

/-- The number of pieces is the number of stripes the data touches. -/
theorem length_eq (tiles : Tiles S start pos data stripes) (positive : 0 < S)
    (nonempty : data ≠ []) :
    (stripes.length : ℤ) = (start + data.length - 1) / S - start / S + 1 := by
  induction tiles with
  | nil start pos => exact absurd rfl nonempty
  | cons nonemptyPiece inside full others ih =>
      rename_i start pos piece rest stripes
      have split := Int.mul_ediv_add_emod start S
      have lower := Int.emod_nonneg start positive.ne'
      have count : 0 < piece.length := List.length_pos_iff.mpr nonemptyPiece
      by_cases last : rest = []
      · subst last
        have alone := others.eq_nil rfl
        subst alone
        have same : (start + (piece ++ []).length - 1) / S = start / S := by
          rw [List.append_nil]
          refine (Int.ediv_eq_iff_of_pos positive).mpr ⟨?_, ?_⟩
          · linarith [mul_comm S (start / S), (by omega : (0:ℤ) < piece.length)]
          · linarith [mul_comm S (start / S)]
        rw [same]
        simp
      · have filled := full last
        -- The next piece begins at the start of the next stripe.
        have next : start + piece.length = S * (start / S + 1) := by
          rw [mul_add, mul_one]
          omega
        have quotient : (start + piece.length) / S = start / S + 1 := by
          rw [next, Int.mul_ediv_cancel_left _ positive.ne']
        have total := ih last
        rw [quotient] at total
        rw [List.length_cons, List.length_append]
        push_cast at total ⊢
        rw [show start + (piece.length + rest.length) - 1 =
          start + piece.length + rest.length - 1 by ring, total]
        ring

end Tiles

/-- How many stripes a range of bytes touches. -/
def touchedStripes (S off : ℤ) (len : ℕ) : ℤ :=
  if len = 0 then 0 else (off + len - 1) / S - off / S + 1

/-- The number of pieces is the number of stripes that the data touches, also for no
data. -/
theorem Tiles.length_eq_touched {S off : ℤ} {pos : ℕ} {data : List UInt8}
    {stripes : List StripeInfo} (tiles : Tiles S off pos data stripes) (positive : 0 < S) :
    (stripes.length : ℤ) = touchedStripes S off data.length := by
  by_cases empty : data = []
  · simp [touchedStripes, empty, tiles.eq_nil empty]
  · rw [tiles.length_eq positive empty, touchedStripes, if_neg]
    simpa using empty

/-! ## The loop computes the tiling -/

/-- A layout as the loop builds it: a tiling, and zero values between its pieces.  A
zero value is told apart from a piece by its slice, which is `nil`; a piece has at
least one byte. -/
structure Padded (limit : ℕ) (pieces items : List StripeInfo) : Prop where
  /-- The pieces, in order, are what is not a zero value. -/
  filter_eq : items.filter (fun stripe => !stripe.data.isNil) = pieces
  nil_eq : ∀ stripe ∈ items, stripe.data.isNil = true → stripe = StripeInfo.zero
  /-- Up to the first limit the layout is the tiling. -/
  exact_of_le : pieces.length ≤ limit → items = pieces
  /-- Past the limit it contains zero values. -/
  zero_mem : limit < pieces.length → StripeInfo.zero ∈ items

namespace Padded

variable {limit : ℕ} {pieces items : List StripeInfo}

/-- A layout consists of pieces and zero values. -/
theorem mem_or_zero (padded : Padded limit pieces items) {stripe : StripeInfo}
    (member : stripe ∈ items) : stripe ∈ pieces ∨ stripe = StripeInfo.zero := by
  cases isNil : stripe.data.isNil with
  | true => exact .inr (padded.nil_eq stripe member isNil)
  | false =>
      rw [← padded.filter_eq]
      exact .inl (List.mem_filter.mpr ⟨member, by simp [isNil]⟩)

/-- Every piece of the tiling is in the layout. -/
theorem mem_of_mem (padded : Padded limit pieces items) {stripe : StripeInfo}
    (member : stripe ∈ pieces) : stripe ∈ items := by
  rw [← padded.filter_eq] at member
  exact (List.mem_filter.mp member).1

end Padded

/-- One turn of the loop of `stripeLayout`, with data left and a positive stripe
size.  It goes up to the end of the stripe or of the data, whichever comes first. -/
theorem layoutLoop_succ (policy : AppendPolicy) {S off : ℤ} (positive : 0 < S)
    (nonneg : 0 ≤ off) {data : List UInt8} (fuel : ℕ) (stripes : StripeSlice) {pos : ℕ}
    (left : pos < data.length) :
    ∃ hi : ℕ, pos < hi ∧ hi ≤ data.length ∧ (off + pos) % S + (hi - pos) ≤ S ∧
      (hi < data.length → (off + pos) % S + (hi - pos) = S) ∧
      layoutLoop policy S off data (fuel + 1) stripes pos =
        layoutLoop policy S off data fuel
          ((if stripes.cap ≤ stripes.items.length then stripes.grow else stripes).append policy
            { id := (off + pos) / S, off := (off + pos) % S, data := Slice.sub data pos hi })
          hi := by
  have lower := Int.emod_nonneg (off + pos) positive.ne'
  have upper := Int.emod_lt_of_pos (off + pos) positive
  have running : ¬data.length ≤ pos := by omega
  by_cases wide : (data.length : ℤ) - pos > S - (off + pos) % S
  · have length : ¬S - (off + pos) % S < 0 := by omega
    refine ⟨pos + (S - (off + pos) % S).toNat, by omega, by omega, by omega, by omega, ?_⟩
    simp only [layoutLoop, if_neg running, if_neg positive.ne',
      divmod_of_nonneg (by omega : 0 ≤ off + (pos : ℤ)), if_pos wide, if_neg length]
  · have length : ¬(data.length : ℤ) - pos < 0 := by omega
    have whole : pos + ((data.length : ℤ) - pos).toNat = data.length := by omega
    refine ⟨pos + ((data.length : ℤ) - pos).toNat, by omega, by omega, by omega, by omega, ?_⟩
    simp only [layoutLoop, if_neg running, if_neg positive.ne',
      divmod_of_nonneg (by omega : 0 ≤ off + (pos : ℤ)), if_neg wide, if_neg length]

/-- The loop invariant: from any state of the slice, the rest of the data is tiled,
and the slice is extended by that tiling and by zero values. -/
theorem layoutLoop_spec (policy : AppendPolicy) {S off : ℤ} (positive : 0 < S)
    (nonneg : 0 ≤ off) (data : List UInt8) (fuel : ℕ) {stripes : StripeSlice} {pos : ℕ}
    (enough : data.length - pos < fuel) (room : 0 < stripes.cap) :
    ∃ pieces added, Tiles S (off + pos) pos (data.drop pos) pieces ∧
      layoutLoop policy S off data fuel stripes pos = some (stripes.items ++ added) ∧
      Padded (stripes.cap - stripes.items.length) pieces added := by
  induction fuel generalizing stripes pos with
  | zero => omega
  | succ fuel ih =>
      by_cases finished : data.length ≤ pos
      · refine ⟨[], [], ?_, ?_, ⟨rfl, by simp, fun _ => rfl, by simp⟩⟩
        · rw [List.drop_eq_nil_of_le finished]
          exact .nil _ _
        · simp [layoutLoop, finished]
      · obtain ⟨hi, more, within, inside, full, turn⟩ :=
          layoutLoop_succ policy positive nonneg fuel stripes (by omega : pos < data.length)
        set piece : StripeInfo :=
          { id := (off + pos) / S, off := (off + pos) % S, data := Slice.sub data pos hi }
        have notNil : piece.data.isNil = false := rfl
        have bytes : piece.data.bytes = (data.drop pos).take (hi - pos) := rfl
        have count : ((data.drop pos).take (hi - pos)).length = hi - pos := by
          rw [List.length_take, List.length_drop]
          omega
        -- The piece in front of a tiling of what follows is a tiling.
        have extend : ∀ rest, Tiles S (off + hi) hi (data.drop hi) rest →
            Tiles S (off + pos) pos (data.drop pos) (piece :: rest) := by
          intro rest tiled
          have cut : data.drop pos = (data.drop pos).take (hi - pos) ++ data.drop hi := by
            rw [show data.drop hi = (data.drop pos).drop (hi - pos) by
              rw [List.drop_drop]; congr 1; omega, List.take_append_drop]
          rw [cut]
          refine .cons ?_ ?_ ?_ ?_
          · rw [← List.length_pos_iff, count]
            omega
          · rw [count]
            omega
          · intro nonempty
            rw [ne_eq, List.drop_eq_nil_iff] at nonempty
            rw [count]
            have := full (by omega)
            omega
          · rw [count, show off + (pos : ℤ) + ((hi - pos : ℕ) : ℤ) = off + hi by omega,
              show pos + (hi - pos) = hi by omega]
            exact tiled
        -- The slice is full: it is doubled, and the zero values that `make` puts into it
        -- stay in front of the piece.
        by_cases crowded : stripes.cap ≤ stripes.items.length
        · have limit : stripes.items.length = stripes.cap := le_antisymm stripes.length_le crowded
          rw [if_pos crowded] at turn
          obtain ⟨rest, added, tiled, result, padded⟩ :=
            @ih (stripes.grow.append policy piece) hi (by omega)
              (by have := (stripes.grow.append policy piece).length_le
                  simp only [StripeSlice.append, List.length_append] at this ⊢
                  exact lt_of_lt_of_le (by simp) this)
          refine ⟨piece :: rest,
            List.replicate (2 * stripes.cap - stripes.items.length) StripeInfo.zero ++
              piece :: added, extend rest tiled, ?_, ?_⟩
          · rw [turn, result]
            simp [StripeSlice.append, StripeSlice.grow]
          · refine ⟨?_, ?_, ?_, ?_⟩
            · rw [List.filter_append, List.filter_cons_of_pos (by simp [notNil]),
                padded.filter_eq, List.filter_eq_nil_iff.mpr]
              · rfl
              · intro stripe member
                rw [List.eq_of_mem_replicate member]
                simp [StripeInfo.zero, Slice.nil]
            · intro stripe member isNil
              simp only [List.mem_append, List.mem_cons] at member
              rcases member with zeros | rfl | later
              · exact List.eq_of_mem_replicate zeros
              · simp [notNil] at isNil
              · exact padded.nil_eq stripe later isNil
            · intro few
              simp only [List.length_cons] at few
              omega
            · intro _
              refine List.mem_append_left _ (List.mem_replicate.mpr ⟨?_, rfl⟩)
              omega
        -- There is room, so the piece is appended and the capacity is the same.
        · rw [if_neg crowded] at turn
          have cap : (stripes.append policy piece).cap = stripes.cap := by
            simp only [StripeSlice.append]
            rw [if_pos (by omega)]
          obtain ⟨rest, added, tiled, result, padded⟩ :=
            @ih (stripes.append policy piece) hi (by omega) (by rw [cap]; exact room)
          refine ⟨piece :: rest, piece :: added, extend rest tiled, ?_, ?_⟩
          · rw [turn, result]
            simp [StripeSlice.append]
          · rw [cap] at padded
            have remaining : stripes.cap - (stripes.append policy piece).items.length =
                stripes.cap - stripes.items.length - 1 := by
              simp only [StripeSlice.append, List.length_append, List.length_cons, List.length_nil]
              omega
            rw [remaining] at padded
            refine ⟨?_, ?_, ?_, ?_⟩
            · rw [List.filter_cons_of_pos (by simp [notNil]), padded.filter_eq]
            · intro stripe member isNil
              rcases List.mem_cons.mp member with rfl | later
              · simp [notNil] at isNil
              · exact padded.nil_eq stripe later isNil
            · intro few
              rw [List.length_cons] at few
              rw [padded.exact_of_le (by omega)]
            · intro many
              rw [List.length_cons] at many
              exact List.mem_cons_of_mem _ (padded.zero_mem (by omega))

/-- **The layout of a byte sequence.**  With a positive stripe size and a
non-negative offset the loop ends without a panic.  Its result is the tiling of the
data, up to 100 pieces exactly so, and past them with zero values in between. -/
theorem stripeLayout_spec (policy : AppendPolicy) {S off : ℤ} (positive : 0 < S)
    (nonneg : 0 ≤ off) (data : List UInt8) :
    ∃ pieces items, Tiles S off 0 data pieces ∧
      stripeLayout policy S off data = some items ∧ Padded 100 pieces items := by
  obtain ⟨pieces, items, tiled, result, padded⟩ :=
    layoutLoop_spec policy positive nonneg data (data.length + 1)
      (show data.length - 0 < data.length + 1 by omega)
      (show 0 < (StripeSlice.make 100).cap by decide)
  refine ⟨pieces, items, by simpa using tiled, ?_, by simpa [StripeSlice.make] using padded⟩
  rw [stripeLayout, result]
  rfl

/-! ## Partitions -/

/-- The stripes cut `data`, which is written or read at `off`, at the ends of the stripes. -/
structure Partition (S off : ℤ) (data : List UInt8) (stripes : List StripeInfo) : Prop where
  /-- The ids are consecutive, from the stripe that `off` is in. -/
  ids : ∀ (i : ℕ) stripe, stripes[i]? = some stripe → stripe.id = off / S + i
  nonempty : ∀ stripe ∈ stripes, stripe.data.bytes ≠ []
  bytes : stripes.flatMap (fun stripe => stripe.data.bytes) = data
  /-- A piece starts where those before it end. -/
  start : ∀ before stripe after, stripes = before ++ stripe :: after →
    stripe.start S = off + (before.flatMap fun stripe => stripe.data.bytes).length
  inside : ∀ stripe ∈ stripes, 0 ≤ stripe.off ∧ stripe.off + stripe.data.bytes.length ≤ S
  /-- Only the first piece may start inside of its stripe. -/
  first : ∀ before stripe after, stripes = before ++ stripe :: after → before ≠ [] →
    stripe.off = 0
  /-- Only the last piece may end before its stripe does. -/
  last : ∀ before stripe after, stripes = before ++ stripe :: after → after ≠ [] →
    stripe.off + stripe.data.bytes.length = S

namespace Tiles

variable {S start : ℤ} {pos : ℕ} {data : List UInt8} {stripes : List StripeInfo}

/-- A piece that is followed by another one ends with its stripe. -/
theorem last_full (tiles : Tiles S start pos data stripes) {before after : List StripeInfo}
    {stripe : StripeInfo} (split : stripes = before ++ stripe :: after) (more : after ≠ []) :
    stripe.off + stripe.data.bytes.length = S := by
  induction tiles generalizing before with
  | nil start pos => simp at split
  | cons nonempty inside full others ih =>
      cases before with
      | nil =>
          obtain ⟨rfl, rfl⟩ := List.cons.inj split
          exact full fun empty => more (others.eq_nil empty)
      | cons head tail => exact ih (List.cons.inj split).2

/-- A tiling is a partition. -/
theorem partition (tiles : Tiles S start pos data stripes) (positive : 0 < S) :
    Partition S start data stripes := by
  induction tiles with
  | nil start pos => exact ⟨by simp, by simp, rfl, by simp, by simp, by simp, by simp⟩
  | @cons start pos piece rest stripes nonempty inside full others ih =>
      have lower := Int.emod_nonneg start positive.ne'
      have division := Int.mul_ediv_add_emod start S
      -- Behind a piece that is not the last one the next stripe begins.
      have next : stripes ≠ [] → start + piece.length = S * (start / S + 1) := by
        intro more
        have := full fun empty => more (others.eq_nil empty)
        rw [mul_add, mul_one]
        omega
      refine ⟨?_, ?_, ?_, ?_, ?_, ?_,
        fun before stripe after => (cons nonempty inside full others).last_full⟩
      · rintro (_ | i) stripe here
        · obtain rfl := Option.some.inj here
          simp
        · have later : stripes[i]? = some stripe := here
          have more : stripes ≠ [] := by
            rintro rfl
            simp at later
          rw [ih.ids i stripe later, next more, Int.mul_ediv_cancel_left _ positive.ne']
          push_cast
          ring
      · rintro stripe member
        rcases List.mem_cons.mp member with rfl | later
        · exact nonempty
        · exact ih.nonempty stripe later
      · rw [List.flatMap_cons, ih.bytes]
      · rintro (_ | ⟨head, tail⟩) stripe after split
        · obtain ⟨rfl, -⟩ := List.cons.inj split
          rw [mul_comm] at division
          simpa [StripeInfo.start] using division
        · obtain ⟨rfl, later⟩ := List.cons.inj split
          rw [ih.start tail stripe after later, List.flatMap_cons, List.length_append]
          push_cast
          ring
      · rintro stripe member
        rcases List.mem_cons.mp member with rfl | later
        · exact ⟨lower, inside⟩
        · exact ih.inside stripe later
      · rintro (_ | ⟨head, tail⟩) stripe after split some
        · exact absurd rfl some
        · obtain ⟨-, later⟩ := List.cons.inj split
          have more : stripes ≠ [] := by simp [later]
          cases tail with
          | nil =>
              -- The second piece starts at a multiple of the stripe size.
              have here := ih.start [] stripe after later
              have id := ih.ids 0 stripe (by simp [later])
              rw [next more, Int.mul_ediv_cancel_left _ positive.ne'] at id
              simp only [StripeInfo.start, List.flatMap_nil, List.length_nil, id] at here
              rw [next more] at here
              push_cast at here
              linarith [mul_comm S (start / S + 1)]
          | cons second tail => exact ih.first (second :: tail) stripe after later (by simp)

end Tiles

/-- **The layout is a partition** of the data if and only if the data touches at
most 100 stripes, the capacity that the slice of pieces starts with.  Up to 100
pieces the slice is as long as they are.  Behind that the source makes a new slice
of twice the capacity, where it should make one of this capacity and the old length,
and copies the pieces to its front; the entries in between have no data and are at
offset `0` of stripe `0`. -/
theorem partition_iff (policy : AppendPolicy) {S off : ℤ} (positive : 0 < S) (nonneg : 0 ≤ off)
    (data : List UInt8) :
    (∃ stripes, stripeLayout policy S off data = some stripes ∧ Partition S off data stripes) ↔
      touchedStripes S off data.length ≤ 100 := by
  obtain ⟨pieces, items, tiles, result, padded⟩ := stripeLayout_spec policy positive nonneg data
  have count := tiles.length_eq_touched positive
  rw [result]
  constructor
  · rintro ⟨stripes, same, partition⟩
    obtain rfl := Option.some.inj same
    by_contra many
    exact partition.nonempty _ (padded.zero_mem (by omega)) rfl
  · intro few
    refine ⟨items, rfl, ?_⟩
    rw [padded.exact_of_le (by omega)]
    exact tiles.partition positive

/-- A runtime that doubles the capacity. -/
def AppendPolicy.doubling : AppendPolicy where
  newCap old needed := max (2 * old) needed
  needed_le := by simp

/-- Five bytes from the position 1 on, in stripes of two bytes. -/
theorem partition_threeStripes : ∃ stripes,
    stripeLayout .doubling 2 1 [1, 2, 3, 4] = some stripes ∧ Partition 2 1 [1, 2, 3, 4] stripes :=
  (partition_iff .doubling (by decide) (by decide) [1, 2, 3, 4]).mpr (by decide)

/-- The piece after the first 100 is followed by empty ones. -/
theorem not_partition_manyStripes : ¬∃ stripes,
    stripeLayout .doubling 1 0 (List.replicate 101 0) = some stripes ∧
      Partition 1 0 (List.replicate 101 0) stripes := by
  obtain ⟨pieces, items, tiles, result, padded⟩ :=
    stripeLayout_spec .doubling (show (0 : ℤ) < 1 by decide) le_rfl (List.replicate 101 0)
  rintro ⟨stripes, same, partition⟩
  rw [result] at same
  obtain rfl := Option.some.inj same
  have count := tiles.length_eq_touched (by decide)
  refine partition.nonempty _ (padded.zero_mem ?_) rfl
  have many : touchedStripes 1 0 (List.replicate 101 (0 : UInt8)).length = 101 := by
    simp [touchedStripes]
  omega

end Pdwfs
