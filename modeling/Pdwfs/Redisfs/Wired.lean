import Pdwfs.Concurrency.Workers
import Pdwfs.Redigo.Conversions
import Pdwfs.Redisfs.FastPaths
import Pdwfs.Redisfs.Overlaps
import Pdwfs.Redisfs.Resizes
import Pdwfs.Redisfs.RoundTrips

/-!
# The data store over connections

The operations of the data store as they are over connections: a goroutine is given
what `Do` returns, and converts it.

* `Wire.getInto`, `Wire.strlen`, `Wire.searchLast` — what the methods of a client
  make of a reply.
* `Wire.writeAt`, `Wire.readAt`, `Wire.getSize`, `Wire.remove`, `Wire.resize` — the
  operations.
* `Wire.collectReads_perm` — the goroutines of a read may come back in any order.
* `Wire.Renders` — an operation does what the operation does that is given the
  replies themselves.

## Replies and conversions

So far an operation of the data store has been given replies as they are: an
integer, a string, the members of a set.  The source is given a value of an
interface type and an error, and converts it with a function of the client library,
which has cases for everything that could have come.  Here the operations are
written once more with the conversions in them.  That the two do the same is
`Renders`, which asks that they issue the same requests, and that they agree on
every reply that can come.

What can come depends on the store: the members of a set of stripes are numbers
because nothing else has been put there.  So the relation is relative to an
invariant (`Within`), which the requests keep.

## The order of the goroutines

A read starts a goroutine for each stripe, and each of them adds what it has read to
a sum when it is done.  The model without connections goes through the replies in
the order of the stripes.  Over connections they come in any order, and the sum and
the buffer have to be the same, since the places of the goroutines in the buffer do
not overlap.
-/

namespace Pdwfs

open Concurrency

/-- A program whose goroutines are given what `Do` returns. -/
abbrev WireProg (α : Type) := Program Request (Request × Outcome) α

namespace Wire

/-! ## What a goroutine makes of a reply -/

/-- The errors of the methods of a client. -/
inductive ClientError
  | redisKeyNotFound
  | failure (e : Redigo.Failure)
  deriving DecidableEq

/-- `GetInto` and `GetRangeInto`. -/
def getInto (outcome : Outcome) : ℤ × Option ClientError :=
  let (reply, err) := Redigo.returned outcome
  let (read, err) := Redigo.readBytes reply err
  if err = some .errNil then (0, some .redisKeyNotFound) else (read, err.map .failure)

/-- `Strlen`. -/
def strlen (outcome : Outcome) : ℤ × Option ClientError :=
  let (reply, err) := Redigo.returned outcome
  let (l, err) := Redigo.int reply err
  if err = some .errNil then (l, some .redisKeyNotFound) else (l, err.map .failure)

/-- The destination buffer after a reply: the connection has read into it.  This
happens before the conversion, and whatever comes of it. -/
def filled (reply : Request × Outcome) (dst : List UInt8) : List UInt8 :=
  match reply.2 with
  | .ok (.read p, _) => fillBuffer dst reply.1.dst.pos p
  | _ => dst

/-- What a goroutine of `ReadAt` does at its end: `none` is a panic. -/
def readStripe (state : ℤ × List UInt8) (reply : Request × Outcome) :
    Option (ℤ × List UInt8) :=
  let (n, err) := getInto reply.2
  if err = none ∨ err = some .redisKeyNotFound then some (state.1 + n, filled reply state.2)
  else none

/-- What a goroutine of `searchLastStripe` sends into the channel. -/
def searchLast (outcome : Outcome) : Option ℤ :=
  let (reply, err) := Redigo.returned outcome
  match Redigo.int64s reply err with
  | (ids, none) => some (maxId ids)
  | (_, some _) => none

/-- `Try` and `Check`, for the error of a goroutine that does not look at its reply.
-/
def check (replies : List (Request × Outcome)) : WireProg Unit :=
  if ∀ reply ∈ replies, (Redigo.returned reply.2).2 = none then .ret () else .panic

/-! ## The operations -/

section Operations

variable (s : DataStore)

/-- Write `data` at the offset `off` of `name`. -/
def writeAt (name : GoString) (off : ℤ) (data : List UInt8) : WireProg Unit :=
  match stripeLayout s.policy s.stripeSize off data with
  | none => .panic
  | some stripes => do
      let replies ← Program.forkAll (stripes.map (s.writeStripe name))
      check replies

/-- Read into `dst` from the offset `off` of `name`. -/
def readAt (name : GoString) (off : ℤ) (dst : List UInt8) : WireProg (ℤ × List UInt8) :=
  match stripeLayout s.policy s.stripeSize off dst with
  | none => .panic
  | some stripes => do
      let replies ← Program.forkAll (stripes.map (s.readStripe name))
      match replies.foldlM readStripe (0, dst) with
      | none => .panic
      | some result => return result

/-- The largest number in the sets of all instances, or `-1`. -/
def searchLastStripe (name : GoString) : WireProg ℤ := do
  let replies ← Program.forkAll (s.redisRing.clients.map (DataStore.membersRequest name))
  match replies.mapM fun reply => searchLast reply.2 with
  | none => .panic
  | some ids => return maxId ids

/-- Delete the stripes of `name`, up to the last one. -/
def remove (name : GoString) : WireProg Unit := do
  let lastStripe ← searchLastStripe s name
  let replies ← Program.forkAll ((idsFrom 0 (lastStripe + 1)).map (s.removeStripe name))
  check replies

/-- The number of bytes of `name`. -/
def getSize (name : GoString) : WireProg ℤ := do
  let ilast ← searchLastStripe s name
  if ilast < 0 then return 0
  else
    let reply ← Program.request
      { addr := s.addr name ilast, body := .single (.strlen (key name ilast)) }
    match strlen reply.2 with
    | (l, none) => return ilast * s.stripeSize + l
    | (_, some _) => .panic

/-- Grow or shrink `name`. -/
def resize (name : GoString) (newSize : ℤ) : WireProg Unit :=
  if newSize < 0 then .panic
  else do
    let curSize ← getSize s name
    let (curLastStripeID, curLastStripeLen) := lastStripeInfo curSize s.stripeSize
    let (newLastStripeID, newLastStripeLen) := lastStripeInfo newSize s.stripeSize
    if newSize < curSize then
      let replies ← Program.forkAll
        ((idsFrom (newLastStripeID + 1) (curLastStripeID + 1)).map (s.removeStripe name) ++
          [s.trimStripe name newLastStripeID newLastStripeLen])
      check replies
    else if newSize > curSize then
      let replies ← Program.forkAll
        ((idsFrom (curLastStripeID + 1) newLastStripeID).map
            (fun id => s.writeStripe name (DataStore.zeroByte id (s.stripeSize - 1))) ++
          [s.writeStripe name (DataStore.zeroByte newLastStripeID (newLastStripeLen - 1))] ++
          (if curLastStripeLen < s.stripeSize then
            [s.writeStripe name
              (DataStore.zeroByte curLastStripeID (s.stripeSize - curLastStripeLen - 1))]
          else []))
      check replies
    else return ()

end Operations

/-! ## What the replies can be -/

variable {s : DataStore} {c : Cluster} {name : GoString}

/-- The invariant of all files, and the numbers of their stripes have 64 bits. -/
structure Within (s : DataStore) (c : Cluster) : Prop where
  inv : s.StoreInv c
  id_lt : ∀ name id, s.Registered c name id → id < 2 ^ 63

/-- A request that keeps it. -/
def Keeps (s : DataStore) (q : Request) : Prop := ∀ c, Within s c → Within s (serve q c).1

/-- What a goroutine may be given. -/
abbrev Possible (s : DataStore) (answer : Answer Request ConnReply Outcome) : Prop :=
  answer.Possible serve Delivers (Within s)

/-- The operation over connections does what the operation does, as long as the
store is `Within` and the replies are possible. -/
abbrev Renders {α : Type} (s : DataStore) (good : α → Prop) (program : WireProg α)
    (program' : Prog α) : Prop :=
  program.Renders (Keeps s) (Possible s) good program'

/-- A request that writes keys of one file keeps the invariant, if it keeps that of the file and
what it registers has 64 bits. -/
theorem Within.serve {q : Request} (within : Within s c)
    (ofName : ∀ k ∈ q.writes, k = stripesKey name ∨ ∃ id, k = key name id)
    (inv : s.StoreInv (Pdwfs.serve q c).1)
    (registers : ∀ id, s.Registered (Pdwfs.serve q c).1 name id →
      s.Registered c name id ∨ id < 2 ^ 63) : Within s (Pdwfs.serve q c).1 where
  inv := inv
  id_lt other id registered := by
    by_cases same : other = name
    · subst same
      exact (registers id registered).elim (within.id_lt other id) fun less => less
    · refine within.id_lt other id ?_
      have kept : (Pdwfs.serve q c).1 (s.addr other id) (stripesKey other) =
          c (s.addr other id) (stripesKey other) := by
        refine serve_of_not_mem_writes (fun member => ?_) c _
        rcases ofName _ member with stripes | ⟨id', stripe⟩
        · exact same (stripesKey_inj.mp stripes)
        · exact key_ne_stripesKey name other id' stripe.symm
      rwa [DataStore.Registered, DataStore.idsAt, Redis.membersAt_congr kept] at registered

/-- What the effect of a request on its file means for the registered stripes. -/
theorem registered_of_effect {c' : Cluster} {id id' : ℤ} {bytes : List UInt8}
    {member : GoString → Prop} (effect : s.Effect c c' name id bytes member)
    (adds : member (formatInt id') →
      formatInt id' ∈ DataStore.idsAt c name (s.addr name id) ∨ id' < 2 ^ 63)
    (registered : s.Registered c' name id') : s.Registered c name id' ∨ id' < 2 ^ 63 := by
  rw [DataStore.Registered, effect.mem_idsAt] at registered
  split at registered
  · rename_i here
    rw [DataStore.Registered, here]
    exact adds registered
  · exact .inl registered

/-- A write of a stripe registers its number, which has 64 bits. -/
theorem keeps_writeStripe {piece : StripeInfo} (writable : s.Writable piece)
    (less : piece.id < 2 ^ 63) : Keeps s (s.writeStripe name piece) := by
  intro c within
  have effect := DataStore.effect_writeStripe (within.inv name) writable
  refine within.serve (fun _ member =>
    (DataStore.mem_writes_writeStripe.mp member).imp_right fun same => ⟨_, same⟩)
    (within.inv.writeStripe writable) fun id => registered_of_effect effect ?_
  rintro (old | new)
  · exact .inl old
  · exact .inr (formatInt_injective new ▸ less)

/-- To remove a stripe registers nothing. -/
theorem keeps_removeStripe (id : ℤ) : Keeps s (s.removeStripe name id) := by
  intro c within
  have effect := DataStore.effect_removeStripe (within.inv name) id
  exact within.serve (fun _ member =>
    (DataStore.mem_writes_removeStripe.mp member).imp_right fun same => ⟨_, same⟩)
    (within.inv.removeStripe id)
    fun id' => registered_of_effect effect fun kept => .inl kept.1

/-- To trim one does not either. -/
theorem keeps_trimStripe (id : ℤ) {size : ℤ} (positive : 0 < size) :
    Keeps s (s.trimStripe name id size) := by
  intro c within
  have effect := DataStore.effect_trimStripe (within.inv name) id positive
  exact within.serve (fun _ member => .inr ⟨_, DataStore.mem_writes_trimStripe.mp member⟩)
    (within.inv.trimStripe id positive)
    fun id' => registered_of_effect effect fun kept => .inl kept

theorem keeps_of_readOnly {q : Request} (readOnly : q.writes = []) : Keeps s q := by
  intro c within
  rwa [serve_readOnly readOnly]

/-! ## What the goroutines are given -/

section Answers

variable {q : Request} {r : ConnReply} {view : Outcome}

/-- The replies of a transaction are no error. -/
theorem noError_of_multi {cmds : List (Redis.Cmd GoString GoString)}
    (possible : Possible s ⟨q, r, view⟩) (multi : q.body = .multi cmds) :
    r ≠ .server .err ∧ (Redigo.returned view).2 = none := by
  obtain ⟨⟨c, -, same⟩, delivers⟩ := possible
  simp only [serve, multi, Body.exec] at same
  subst same
  cases delivers
  exact ⟨by simp, rfl⟩

/-- The reply to `trimStripe` is none either. -/
theorem noError_of_trimStripe {id size : ℤ} (positive : 0 < size)
    (possible : Possible s ⟨s.trimStripe name id size, r, view⟩) :
    r ≠ .server .err ∧ (Redigo.returned view).2 = none := by
  obtain ⟨⟨c, within, same⟩, delivers⟩ := possible
  rw [DataStore.serve_trimStripe_reply (within.inv name) id positive] at same
  subst same
  obtain ⟨shows⟩ := delivers
  cases shows
  exact ⟨by simp, rfl⟩

/-- The length of a string is a number. -/
theorem strlen_possible {id : ℤ} (possible : Possible s
    ⟨{ addr := s.addr name id, body := .single (.strlen (key name id)) }, r, view⟩) :
    ∃ n : ℕ, r = .server (.int n) ∧ strlen view = ((n : ℤ), none) := by
  obtain ⟨⟨c, within, same⟩, delivers⟩ := possible
  rw [DataStore.serve_strlen (within.inv name) id] at same
  subst same
  obtain ⟨shows⟩ := delivers
  cases shows
  exact ⟨_, rfl, rfl⟩

/-- The members of a set of stripes are numbers of 64 bits. -/
theorem Within.exists_ids (within : Within s c) (name : GoString) (a : Addr) :
    ∃ ids : List ℤ, (∀ id ∈ ids, Wrapping.InRange id) ∧
      DataStore.idsAt c name a = ids.map formatInt := by
  have each : DataStore.idsAt c name a ∈
      Set.range (List.map fun id : { n : ℤ // Wrapping.InRange n } => formatInt id) := by
    rw [Set.range_list_map]
    intro m member
    obtain ⟨id, nonneg, rfl, -, -⟩ := (within.inv name).ofRegistered a m member
    have less := within.id_lt name id ((within.inv name).registered_of_mem member)
    exact ⟨⟨id, by omega, less⟩, rfl⟩
  obtain ⟨ids, same⟩ := each
  refine ⟨ids.map Subtype.val, fun id member => ?_, by rw [← same, List.map_map]; rfl⟩
  obtain ⟨ranged, -, rfl⟩ := List.mem_map.mp member
  exact ranged.2

/-- They are parsed. -/
theorem searchLast_possible {client : GoString × RedisClient}
    (possible : Possible s ⟨DataStore.membersRequest name client, r, view⟩) :
    ∃ ids, searchLast view = some (maxId ids) ∧ lastIdOf r = some (maxId ids) := by
  obtain ⟨⟨c, within, same⟩, delivers⟩ := possible
  rw [DataStore.serve_membersRequest (within.inv name) client] at same
  subst same
  obtain ⟨shows⟩ := delivers
  cases shows
  obtain ⟨ids, range, listed⟩ := within.exists_ids name client.2.addr
  have parsed : (ids.map formatInt).mapM parseInt = some ids := by
    rw [List.mapM_map]
    simp only [Function.comp_def, parseInt_formatInt]
    exact List.mapM_pure.trans (by simp)
  have read := Redigo.int64s_decimal range
  refine ⟨ids, ?_, ?_⟩
  · simp only [listed, searchLast, Redigo.returned, List.map_map, Function.comp_def, utf8_formatInt,
      errorOf, Option.map_none, read]
  · rw [lastIdOf, listed, parsed]
    rfl

end Answers

/-! ## The order of the reads -/

/-- A reply that is put into the destination buffer. -/
theorem readReplyInto_place {r : ConnReply} {n pos : ℕ} {bytes : List UInt8}
    (found : readReplyInto r = some (n, some (pos, bytes))) :
    r = .filled pos bytes ∧ n = bytes.length := by
  cases r with
  | filled pos' bytes' =>
      simp only [readReplyInto, Option.some.injEq, Prod.mk.injEq] at found
      obtain ⟨rfl, rfl, rfl⟩ := found
      exact ⟨rfl, rfl⟩
  | server reply => cases reply <;> simp [readReplyInto] at found
  | array => simp [readReplyInto] at found
  | protocolError => simp [readReplyInto] at found

/-- It is put at the slice of the request, and is not longer. -/
theorem filled_of_readReply {dst : Slice} {reply : Redis.Reply GoString} {pos : ℕ}
    {bytes : List UInt8} (filled : readReply dst reply = .filled pos bytes) :
    dst.isNil = false ∧ pos = dst.pos ∧ bytes.length ≤ dst.bytes.length := by
  unfold readReply at filled
  split at filled
  · split_ifs at filled with isNil short
    obtain ⟨rfl, rfl⟩ := ConnReply.filled.inj filled
    exact ⟨by simpa using isNil, rfl, by omega⟩
  · cases filled

/-- What a request has put into the buffer is in its own part of it. -/
theorem filled_of_serve {q : Request} {c : Cluster} {pos : ℕ} {bytes : List UInt8}
    (filled : (serve q c).2 = .filled pos bytes) :
    q.dst.isNil = false ∧ pos = q.dst.pos ∧ bytes.length ≤ q.dst.bytes.length := by
  simp only [serve, Body.exec] at filled
  split at filled
  · exact filled_of_readReply filled
  · cases filled
  · split at filled
    · exact filled_of_readReply (show readReply q.dst (Redis.exec (.set _ _) _).2 = _ from filled)
    · exact filled_of_readReply filled

/-- A reply fits into a buffer of this length. -/
def Fits (len : ℕ) (r : ConnReply) : Prop :=
  ∀ pos bytes, r = .filled pos bytes → pos + bytes.length ≤ len

/-- Two replies are put into different places. -/
def Apart (r r' : ConnReply) : Prop :=
  ∀ pos bytes pos' bytes', r = .filled pos bytes → r' = .filled pos' bytes' →
    pos + bytes.length ≤ pos' ∨ pos' + bytes'.length ≤ pos

theorem Apart.symm {r r' : ConnReply} (apart : Apart r r') : Apart r' r :=
  fun pos bytes pos' bytes' here there => (apart pos' bytes' pos bytes there here).symm

/-- Two parts of a buffer that do not overlap are filled in any order. -/
theorem fillBuffer_comm {dst bytes bytes' : List UInt8} {pos pos' : ℕ}
    (fits : pos + bytes.length ≤ dst.length) (fits' : pos' + bytes'.length ≤ dst.length)
    (apart : pos + bytes.length ≤ pos' ∨ pos' + bytes'.length ≤ pos) :
    fillBuffer (fillBuffer dst pos bytes) pos' bytes' =
      fillBuffer (fillBuffer dst pos' bytes') pos bytes := by
  refine List.ext_getElem? fun i => ?_
  rw [getElem?_fillBuffer (by rwa [length_fillBuffer fits]), getElem?_fillBuffer fits,
    getElem?_fillBuffer (by rwa [length_fillBuffer fits']), getElem?_fillBuffer fits']
  split_ifs <;> first | rfl | omega

/-- **The goroutines of a read may come back in any order.** -/
theorem collectReads_perm {replies replies' : List ConnReply} (same : replies.Perm replies')
    {len : ℕ} (fits : ∀ r ∈ replies, Fits len r) (apart : replies.Pairwise Apart) (read : ℤ)
    {buffer : List UInt8} (room : buffer.length = len) :
    collectReads replies read buffer = collectReads replies' read buffer := by
  induction same generalizing read buffer with
  | nil => rfl
  | @cons r rest rest' same ih =>
      have later := fun r' member => fits r' (List.mem_cons_of_mem r member)
      have others := ih later (List.pairwise_cons.mp apart).2
      simp only [collectReads]
      rcases found : readReplyInto r with _ | ⟨n, _ | ⟨pos, bytes⟩⟩
      · rfl
      · exact others _ room
      · have inside := fits r (by simp) pos bytes (readReplyInto_place found).1
        exact others _ (by rw [length_fillBuffer (by omega), room])
  | swap r r' rest =>
      have other := (List.pairwise_cons.mp apart).1 r (by simp)
      simp only [collectReads]
      rcases found : readReplyInto r with _ | ⟨n, _ | ⟨pos, bytes⟩⟩ <;>
        rcases found' : readReplyInto r' with _ | ⟨n', _ | ⟨pos', bytes'⟩⟩ <;>
        simp only [add_right_comm read]
      have inside := fits r (by simp) pos bytes (readReplyInto_place found).1
      have inside' := fits r' (by simp) pos' bytes' (readReplyInto_place found').1
      rw [fillBuffer_comm (by omega) (by omega) (other pos' bytes' pos bytes
        (readReplyInto_place found').1 (readReplyInto_place found).1)]
  | @trans first middle last same same' ih ih' =>
      rw [ih fits apart read room]
      exact ih' (fun r member => fits r (same.symm.subset member))
        (same.pairwise apart Apart.symm) read room

/-- The pieces of a tiling lie one behind the other in the data. -/
theorem pairwise_pos {S start : ℤ} {pos : ℕ} {data : List UInt8} {pieces : List StripeInfo}
    (tiles : Tiles S start pos data pieces) :
    (∀ piece ∈ pieces, pos ≤ piece.data.pos) ∧ pieces.Pairwise fun piece piece' =>
      piece.data.pos + piece.data.bytes.length ≤ piece'.data.pos := by
  induction tiles with
  | nil => simp
  | cons nonempty inside full others ih =>
      refine ⟨fun piece member => ?_, List.pairwise_cons.mpr ⟨ih.1, ih.2⟩⟩
      rcases List.mem_cons.mp member with rfl | later
      · exact le_rfl
      · exact (Nat.le_add_right _ _).trans (ih.1 piece later)

/-- The goroutines of a read have different places in the buffer, if any. -/
def Beside (q q' : Request) : Prop :=
  q.dst.isNil = true ∨ q'.dst.isNil = true ∨ q.dst.pos + q.dst.bytes.length ≤ q'.dst.pos ∨
    q'.dst.pos + q'.dst.bytes.length ≤ q.dst.pos

theorem Beside.symm {q q' : Request} (beside : Beside q q') : Beside q' q := by
  unfold Beside at beside ⊢
  tauto

/-- Goroutines with different places get replies for different places. -/
theorem Beside.apart {q q' : Request} (beside : Beside q q') (c c' : Cluster) :
    Apart (serve q c).2 (serve q' c').2 := by
  intro pos bytes pos' bytes' here there
  obtain ⟨notNil, rfl, short⟩ := filled_of_serve here
  obtain ⟨notNil', rfl, short'⟩ := filled_of_serve there
  simp only [Beside, notNil, notNil', Bool.false_eq_true, false_or] at beside
  omega

/-- What is read from one stripe fits into the buffer of the whole read. -/
theorem fits_readStripe (name : GoString) {off : ℤ} {data : List UInt8}
    {pieces items : List StripeInfo} (nonneg : 0 ≤ off)
    (tiles : Tiles s.stripeSize off 0 data pieces) (padded : Padded 100 pieces items)
    {piece : StripeInfo} (member : piece ∈ items) (c : Cluster) :
    Fits data.length (serve (s.readStripe name piece) c).2 := by
  intro pos bytes filled
  obtain ⟨notNil, rfl, short⟩ := filled_of_serve filled
  rcases padded.mem_or_zero member with tiled | rfl
  · have stop := (tiles.piece s.stripeSize_pos nonneg tiled).stop_le
    exact (Nat.add_le_add_left short _).trans stop
  · cases notNil

/-- The goroutines of a read have places one behind the other; the zero values of
the layout have none. -/
theorem pairwise_readStripe (name : GoString) {start : ℤ} {pos : ℕ} {data : List UInt8}
    {pieces items : List StripeInfo} (tiles : Tiles s.stripeSize start pos data pieces)
    (padded : Padded 100 pieces items) : (items.map (s.readStripe name)).Pairwise Beside := by
  have ordered := (pairwise_pos tiles).2
  rw [← padded.filter_eq, List.pairwise_filter] at ordered
  refine List.pairwise_map.mpr (ordered.imp fun {piece piece'} behind => ?_)
  cases isNil : piece.data.isNil with
  | true => exact .inl isNil
  | false =>
      cases isNil' : piece'.data.isNil with
      | true => exact .inr (.inl isNil')
      | false => exact .inr (.inr (.inl (behind (by simp [isNil]) (by simp [isNil']))))

/-- What a goroutine of a read does with its reply. -/
theorem readStripe_eq {q : Request} {r : ConnReply} {view : Outcome} (delivers : Delivers r view)
    (placed : ∀ pos bytes, r = .filled pos bytes → pos = q.dst.pos)
    (known : (readReplyInto r).isSome) (state : ℤ × List UInt8) (rest : List ConnReply) :
    (readStripe state (q, view)).bind (fun state => collectReads rest state.1 state.2) =
      collectReads (r :: rest) state.1 state.2 := by
  cases delivers with
  | filled pos p =>
      obtain rfl := placed pos p rfl
      rfl
  | server shows =>
      cases shows with
      | bulk p => rfl
      | nil =>
          simp [readStripe, getInto, filled, collectReads, readReplyInto, Redigo.returned,
            Redigo.readBytes, errorOf]
      | ok => simp [readReplyInto] at known
      | int n => simp [readReplyInto] at known
      | members ms => simp [readReplyInto] at known
      | err text => simp [readReplyInto] at known
  | array shows => simp [readReplyInto] at known
  | protocolError e => simp [readReplyInto] at known

/-- What all goroutines of a read do. -/
theorem foldlM_readStripe {answers : List (Answer Request ConnReply Outcome)}
    (each : ∀ answer ∈ answers, Delivers answer.reply answer.view ∧
      (∀ pos bytes, answer.reply = .filled pos bytes → pos = answer.request.dst.pos) ∧
        (readReplyInto answer.reply).isSome) (state : ℤ × List UInt8) :
    (answers.map Answer.shown).foldlM readStripe state =
      collectReads (answers.map Answer.reply) state.1 state.2 := by
  induction answers generalizing state with
  | nil => rfl
  | cons answer rest ih =>
      obtain ⟨delivers, placed, known⟩ := each answer (by simp)
      have others := ih fun answer' member => each answer' (List.mem_cons_of_mem answer member)
      rw [List.map_cons, List.map_cons, List.foldlM_cons, ← readStripe_eq delivers placed known]
      exact Option.bind_congr fun state _ => others state

/-! ## The operations do the same -/

/-- No goroutine has been given an error. -/
theorem check_eq_ret {answers : List (Answer Request ConnReply Outcome)}
    (noError : ∀ answer ∈ answers, (Redigo.returned answer.view).2 = none) :
    check (answers.map Answer.shown) = .ret () := by
  refine if_pos fun reply member => ?_
  obtain ⟨answer, here, rfl⟩ := List.mem_map.mp member
  exact noError answer here

/-- Goroutines with transactions. -/
theorem renders_transactions {tasks : List Request} (keeps : ∀ q ∈ tasks, Keeps s q)
    (multi : ∀ q ∈ tasks, ∃ cmds, q.body = .multi cmds) :
    Renders s (fun _ => True) (Program.forkAll tasks >>= check)
      (Program.forkAll tasks >>= fun _ => .ret ()) := by
  refine Program.renders_forkAll_bind keeps fun answers replies asked possible arrived => ?_
  rw [check_eq_ret fun answer member => ?_]
  · exact Program.renders_ret trivial
  · obtain ⟨cmds, body⟩ := multi answer.request (asked.subset (List.mem_map_of_mem member))
    exact (noError_of_multi (possible answer member) body).2

/-- The number of a stripe is not greater than the position of a byte in it. -/
theorem id_lt_of_layout {off : ℤ} {data : List UInt8} {pieces items : List StripeInfo}
    (nonneg : 0 ≤ off) (fits : off + data.length ≤ 2 ^ 63)
    (tiles : Tiles s.stripeSize off 0 data pieces) (padded : Padded 100 pieces items)
    {piece : StripeInfo} (member : piece ∈ items) : piece.id < 2 ^ 63 := by
  rcases padded.mem_or_zero member with tiled | rfl
  · have found := tiles.piece s.stripeSize_pos nonneg tiled
    have start := found.start_eq
    have stop := found.stop_le
    have some' := List.length_pos_iff.mpr found.nonempty
    have forward := found.off_nonneg
    have scaled : piece.id ≤ piece.id * s.stripeSize :=
      le_mul_of_one_le_right found.id_nonneg s.stripeSize_pos
    rw [StripeInfo.start] at start
    omega
  · decide

/-- **`WriteAt` over connections.**  The replies to the transactions are not looked
at. -/
theorem renders_writeAt (name : GoString) {off : ℤ} {data : List UInt8} (nonneg : 0 ≤ off)
    (fits : off + data.length ≤ 2 ^ 63) :
    Renders s (fun _ => True) (writeAt s name off data) (s.writeAt name off data) := by
  obtain ⟨pieces, items, tiles, layout, padded⟩ :=
    stripeLayout_spec s.policy s.stripeSize_pos nonneg data
  simp only [writeAt, DataStore.writeAt, layout]
  refine renders_transactions (fun q member => ?_) fun q member => ?_
  · obtain ⟨piece, inLayout, rfl⟩ := List.mem_map.mp member
    exact keeps_writeStripe (DataStore.writable_of_layout nonneg tiles padded inLayout)
      (id_lt_of_layout nonneg fits tiles padded inLayout)
  · obtain ⟨piece, -, rfl⟩ := List.mem_map.mp member
    exact ⟨_, rfl⟩

/-- **`ReadAt` over connections.**  What is counted and filled does not depend on
the order in which the goroutines come back. -/
theorem renders_readAt (name : GoString) {off : ℤ} (nonneg : 0 ≤ off) (dst : List UInt8) :
    Renders s (fun _ => True) (readAt s name off dst) (s.readAt name off dst) := by
  obtain ⟨pieces, items, tiles, layout, padded⟩ :=
    stripeLayout_spec s.policy s.stripeSize_pos nonneg dst
  simp only [readAt, DataStore.readAt, layout]
  refine Program.renders_forkAll_bind (fun q member => ?_)
    fun answers replies asked possible arrived => ?_
  · obtain ⟨piece, -, rfl⟩ := List.mem_map.mp member
    exact fun c within => by rwa [DataStore.serve_readStripe_store]
  · have each : ∀ answer ∈ answers, ∃ piece ∈ items, answer.request = s.readStripe name piece ∧
        ∃ c, Within s c ∧ (serve answer.request c).2 = answer.reply := by
      intro answer member
      obtain ⟨piece, inLayout, same⟩ :=
        List.mem_map.mp (asked.subset (List.mem_map_of_mem (f := Answer.request) member))
      exact ⟨piece, inLayout, same.symm, (possible answer member).1⟩
    have fits : ∀ r ∈ answers.map Answer.reply, Fits dst.length r := by
      intro r here
      obtain ⟨answer, member, rfl⟩ := List.mem_map.mp here
      obtain ⟨piece, inLayout, same, c, -, replied⟩ := each answer member
      rw [← replied, same]
      exact fits_readStripe name nonneg tiles padded inLayout c
    have apart : (answers.map Answer.reply).Pairwise Apart := by
      have beside := asked.symm.pairwise (pairwise_readStripe name tiles padded) Beside.symm
      refine List.pairwise_map.mpr ((List.pairwise_map.mp beside).imp_of_mem ?_)
      intro answer answer' member member' beside
      obtain ⟨-, -, -, c, -, replied⟩ := each answer member
      obtain ⟨-, -, -, c', -, replied'⟩ := each answer' member'
      rw [← replied, ← replied']
      exact beside.apart c c'
    have read : (answers.map Answer.shown).foldlM readStripe (0, dst) =
        collectReads (answers.map Answer.reply) 0 dst := by
      refine foldlM_readStripe (fun answer member => ?_) (0, dst)
      obtain ⟨piece, inLayout, same, c, within, replied⟩ := each answer member
      refine ⟨(possible answer member).2, fun pos bytes filled => ?_, ?_⟩
      · exact (filled_of_serve (replied.trans filled)).2.1
      · rw [← replied, same]
        exact (within.inv name).isSome_readReplyInto nonneg tiles padded inLayout
    rw [read, ← collectReads_perm arrived.symm fits apart 0 rfl]
    cases collectReads (answers.map Answer.reply) 0 dst with
    | none => exact Program.renders_panic
    | some result => exact Program.renders_ret trivial

/-- The maximum does not depend on the order of arrival. -/
theorem maxId_perm {ids ids' : List ℤ} (same : ids.Perm ids') : maxId ids = maxId ids' := by
  have commutes : RightCommutative fun max id : ℤ => if id > max then id else max :=
    ⟨fun max a b => by split_ifs <;> omega⟩
  exact same.foldl_eq (-1)

/-- A list of which every element is mapped. -/
theorem mapM_eq_filterMap {κ β : Type} {f : κ → Option β} {l : List κ}
    (all : ∀ x ∈ l, (f x).isSome) : l.mapM f = some (l.filterMap f) := by
  induction l with
  | nil => rfl
  | cons x rest ih =>
      obtain ⟨y, found⟩ := Option.isSome_iff_exists.mp (all x (by simp))
      rw [List.mapM_cons, found, ih fun x' member => all x' (.tail x member),
        List.filterMap_cons_some found]
      rfl

/-- **The search over connections.**  The members of the sets are parsed as numbers,
and there is nothing else in them. -/
theorem renders_searchLastStripe (name : GoString) :
    Renders s (fun _ => True) (searchLastStripe s name) (s.searchLastStripe name) := by
  refine Program.renders_forkAll_bind (fun q member => ?_)
    fun answers replies asked possible arrived => ?_
  · obtain ⟨client, -, rfl⟩ := List.mem_map.mp member
    exact keeps_of_readOnly rfl
  · have each : ∀ answer ∈ answers, ∃ ids, searchLast answer.view = some (maxId ids) ∧
        lastIdOf answer.reply = some (maxId ids) := by
      intro answer member
      obtain ⟨client, -, same⟩ := List.mem_map.mp
        (asked.subset (List.mem_map_of_mem (f := Answer.request) member))
      have possible' := possible answer member
      obtain ⟨q, r, view⟩ := answer
      obtain rfl : DataStore.membersRequest name client = q := same
      exact searchLast_possible possible'
    have parsed : ∀ reply ∈ replies, (lastIdOf reply).isSome := by
      intro reply member
      obtain ⟨answer, here, rfl⟩ := List.mem_map.mp (arrived.subset member)
      obtain ⟨ids, -, found⟩ := each answer here
      simp [found]
    have parsed' : ∀ reply ∈ answers.map Answer.shown, (searchLast reply.2).isSome := by
      intro reply member
      obtain ⟨answer, here, rfl⟩ := List.mem_map.mp member
      obtain ⟨ids, found, -⟩ := each answer here
      simp [Answer.shown, found]
    have numbers : (answers.map Answer.shown).filterMap (fun reply => searchLast reply.2) =
        (answers.map Answer.reply).filterMap lastIdOf := by
      rw [List.filterMap_map, List.filterMap_map]
      refine List.filterMap_congr fun answer member => ?_
      obtain ⟨ids, found, found'⟩ := each answer member
      exact found.trans found'.symm
    rw [mapM_eq_filterMap parsed', mapM_eq_filterMap parsed, numbers]
    simp only
    rw [maxId_perm (arrived.filterMap lastIdOf)]
    exact Program.renders_ret trivial

/-- **`Remove` over connections.** -/
theorem renders_remove (name : GoString) :
    Renders s (fun _ => True) (remove s name) (s.remove name) := by
  refine (renders_searchLastStripe name).bind fun last _ => ?_
  refine renders_transactions (fun q member => ?_) fun q member => ?_
  · obtain ⟨id, -, rfl⟩ := List.mem_map.mp member
    exact keeps_removeStripe id
  · obtain ⟨id, -, rfl⟩ := List.mem_map.mp member
    exact ⟨_, rfl⟩

/-- **`GetSize` over connections.** -/
theorem renders_getSize (name : GoString) :
    Renders s (fun size => 0 ≤ size) (getSize s name) (s.getSize name) := by
  refine (renders_searchLastStripe name).bind fun ilast _ => ?_
  by_cases none : ilast < 0
  · simp only [none, ite_true]
    exact Program.renders_ret le_rfl
  · simp only [none, ite_false]
    rw [RedisClient.strlen, RedisClient.send, Program.bind_assoc]
    refine Program.renders_request_bind (keeps_of_readOnly rfl) fun r view possible => ?_
    obtain ⟨n, rfl, length⟩ := strlen_possible possible
    have scaled := mul_nonneg (by omega : 0 ≤ ilast) s.stripeSize_pos.le
    simp only [length]
    exact Program.renders_ret (by omega)

/-- **`Resize` over connections.**  It asks for the size first, and then does one of
three things, depending on the answer. -/
theorem renders_resize (name : GoString) {newSize : ℤ} (fits : newSize < 2 ^ 63) :
    Renders s (fun _ => True) (resize s name newSize) (s.resize name newSize) := by
  unfold resize DataStore.resize
  by_cases negative : newSize < 0
  · simp only [negative, ite_true]
    exact Program.renders_panic
  simp only [negative, ite_false]
  refine (renders_getSize name).bind fun curSize counted => ?_
  have positive := s.stripeSize_pos
  have lower := Int.emod_nonneg (newSize - 1) positive.ne'
  rw [lastStripeInfo_eq positive counted, lastStripeInfo_eq positive (by omega)]
  simp only
  split
  · -- shrink
    have tasks : ∀ q ∈ s.shrinkTasks name curSize newSize, (∃ id, q = s.removeStripe name id) ∨
        q = s.trimStripe name ((newSize - 1) / s.stripeSize)
          ((newSize - 1) % s.stripeSize + 1) := fun q member =>
      (DataStore.mem_shrinkTasks.mp member).imp_left fun removed =>
        removed.imp fun _ inRange => inRange.2
    refine Program.renders_forkAll_bind (fun q member => ?_)
      fun answers replies asked possible arrived => ?_
    · rcases tasks q member with ⟨id, rfl⟩ | rfl
      · exact keeps_removeStripe id
      · exact keeps_trimStripe _ (by omega)
    · have each : ∀ answer ∈ answers, answer.reply ≠ .server .err ∧
          (Redigo.returned answer.view).2 = none := by
        intro answer member
        have possible' := possible answer member
        rcases tasks _ (asked.subset (List.mem_map_of_mem member)) with ⟨id, same⟩ | same
        · exact noError_of_multi possible' (congrArg Request.body same)
        · obtain ⟨q, r, view⟩ := answer
          obtain rfl : q = _ := same
          exact noError_of_trimStripe (by omega) possible'
      have noError : ConnReply.server .err ∉ replies := by
        intro member
        obtain ⟨answer, here, same⟩ := List.mem_map.mp (arrived.subset member)
        exact (each answer here).1 same
      rw [check_eq_ret fun answer member => (each answer member).2, checkReplies, if_neg noError]
      exact Program.renders_ret trivial
  · split
    · -- grow
      rename_i grows
      rw [← DataStore.map_writeStripe_growPieces]
      refine renders_transactions (fun q member => ?_) fun q member => ?_
      · obtain ⟨piece, inLayout, rfl⟩ := List.mem_map.mp member
        have last := DataStore.id_le_of_mem_growPieces grows inLayout
        have less : (newSize - 1) / s.stripeSize ≤ newSize - 1 := Int.ediv_le_self _ (by omega)
        exact keeps_writeStripe (DataStore.writable_of_mem_growPieces counted grows inLayout)
          (by omega)
      · obtain ⟨piece, -, rfl⟩ := List.mem_map.mp member
        exact ⟨_, rfl⟩
    · exact Program.renders_ret trivial

end Wire

end Pdwfs
