import Pdwfs.Redisfs.Keys
import Pdwfs.Redisfs.Layout

/-!
# The data store

The `DataStore` keeps the content of a file in stripes.  A stripe is a Redis string
under `name:id`, on the instance the ring picks for that key; the same instance
keeps the identifiers of its stripes in the set `name:stripes`.

The goroutines of an operation make one round trip each.  `writeStripe`,
`removeStripe`, `readStripe` and `trimStripe` are the requests of these round trips;
the operations fork them and wait for all of them (`sync.WaitGroup`).  What the
goroutines do with their replies is done when the last one has arrived, in the order
of arrival.

## What the goroutines share

The goroutines of a read share a counter, which they add to atomically, and the
destination, of which each of them fills another part.  Those of the search send the
largest number of their set into a channel, of which the maximum is taken.  In each
case the result does not depend on the order, but this is something to prove and not
something to assume: `collectReads` and `maxId` go through the replies in the order
in which they have arrived.

A stripe that is written as a whole is written by `SET`, and read by `GET`, which
are the cheaper commands; a part of it by `SETRANGE` and `GETRANGE`.  A stripe size
that is cut to zero is another exception.  All of these are branches of the requests
here, and that they make no difference is proved in `FastPaths`.

## Sizes

The size of a file is not stored.  It is found by taking the largest number in the
sets of all instances, and the length of that stripe.  So it rests on what is in the
sets: a number of a stripe that is not there any more, or is empty, would be taken
for the end of the file.

Numbers are integers without a bound here.  The source calculates in 64 bits, and a
size from `2^63` on is no such number.  The functions in 64-bit arithmetic are those
of `Wrapped`; below the end of the range they send the same requests and return the
same (`Wrapped.exec_readAt_iff`, `Wrapped.exec_getSize_iff_of_range` and their
likes).
-/

namespace Pdwfs

open Concurrency

/-- A store of flat sequences of bytes, cut into stripes over the ring.  All clients
of a store have the same ring and the same stripe size. -/
structure DataStore where
  redisRing : RedisRing
  stripeSize : ℤ
  stripeSize_pos : 0 < stripeSize
  /-- How the runtime grows a slice. -/
  policy : AppendPolicy

/-- The numbers from `lo` to `hi`, `hi` excluded, in ascending order. -/
def idsFrom (lo hi : ℤ) : List ℤ := (List.range (hi - lo).toNat).map fun i : ℕ => lo + i

/-- The numbers of a range. -/
@[simp] theorem mem_idsFrom {lo hi id : ℤ} : id ∈ idsFrom lo hi ↔ lo ≤ id ∧ id < hi := by
  simp only [idsFrom, List.mem_map, List.mem_range]
  constructor
  · rintro ⟨i, inRange, rfl⟩
    omega
  · rintro ⟨lower, upper⟩
    exact ⟨(id - lo).toNat, by omega, by omega⟩

/-- The last stripe and its length, from the total size.  A size that is a multiple
of the stripe size ends with a whole stripe, and not with an empty one; the last
stripe of an empty file has the number `-1`. -/
def lastStripeInfo (size stripeSize : ℤ) : ℤ × ℤ :=
  let (stripeID, stripeLen) := divmod size stripeSize
  if stripeLen = 0 then (stripeID - 1, stripeSize) else (stripeID, stripeLen)

/-- A goroutine whose reply is an error panics. -/
def checkReplies (replies : List ConnReply) : Prog Unit :=
  if ConnReply.server .err ∈ replies then .panic else .ret ()

/-- What a goroutine of `ReadAt` makes of its reply: the bytes that have been read,
with the place in the destination where they have been put, if any.  A missing key
counts as nothing read; `none` is a panic.

The second case is that of a zero value of the layout: the bytes are counted, but
there is no buffer for them. -/
def readReplyInto : ConnReply → Option (ℕ × Option (ℕ × List UInt8))
  | .filled pos bytes => some (bytes.length, some (pos, bytes))
  | .server (.bulk bytes) => some (bytes.length, none)
  | .server .nil => some (0, none)
  | _ => none

/-- Put `bytes` at the index `pos` of the buffer. -/
def fillBuffer (dst : List UInt8) (pos : ℕ) (bytes : List UInt8) : List UInt8 :=
  dst.take pos ++ bytes ++ dst.drop (pos + bytes.length)

/-- The counter and the destination buffer when all goroutines of `ReadAt` are done. -/
def collectReads : List ConnReply → ℤ → List UInt8 → Option (ℤ × List UInt8)
  | [], read, dst => some (read, dst)
  | reply :: rest, read, dst =>
      match readReplyInto reply with
      | none => none
      | some (n, none) => collectReads rest (read + n) dst
      | some (n, some (pos, bytes)) => collectReads rest (read + n) (fillBuffer dst pos bytes)

/-- The maximum of the numbers, and of `-1`. -/
def maxId (ids : List ℤ) : ℤ := ids.foldl (fun max id => if id > max then id else max) (-1)

/-- What a goroutine of `searchLastStripe` sends into the channel; `none` is a panic. -/
def lastIdOf : ConnReply → Option ℤ
  | .server (.members ids) => (ids.mapM parseInt).map maxId
  | _ => none

namespace DataStore

variable (s : DataStore)

/-- The instance that stores the stripe `id` of the file `name`. -/
def addr (name : GoString) (id : ℤ) : Addr := (s.redisRing.getClient (key name id)).addr

/-- Write a stripe and register it in the set of its instance, in one transaction.
A whole stripe is written by `SET`, which is faster than `SETRANGE`. -/
def writeStripe (name : GoString) (stripe : StripeInfo) : Request where
  addr := s.addr name stripe.id
  body := .multi [
    .sadd (stripesKey name) (formatInt stripe.id),
    if stripe.off = 0 ∧ (stripe.data.bytes.length : ℤ) = s.stripeSize then
      .set (key name stripe.id) stripe.data.bytes
    else .setrange (key name stripe.id) stripe.off stripe.data.bytes]

/-- Erase a stripe, and take it out of the set. -/
def removeStripe (name : GoString) (id : ℤ) : Request where
  addr := s.addr name id
  body := .multi [
    .srem (stripesKey name) (formatInt id),
    .unlink [key name id]]

/-- Read a stripe into the destination buffer.  The last index of a `GETRANGE` is
inclusive, so a piece without bytes at the start of its stripe asks for everything
up to the index `-1`, which is the end. -/
def readStripe (name : GoString) (stripe : StripeInfo) : Request where
  addr := s.addr name stripe.id
  body :=
    let size : ℤ := stripe.data.bytes.length
    if stripe.off = 0 ∧ size = s.stripeSize then .single (.get (key name stripe.id))
    else .single (.getrange (key name stripe.id) stripe.off (stripe.off + size - 1))
  dst := stripe.data

/-- Cut a stripe to `size` bytes.  A stripe that is shorter stays as it is; one that
is not there is created, and is empty. -/
def trimStripe (name : GoString) (id size : ℤ) : Request where
  addr := s.addr name id
  body :=
    if size = 0 then .single (.set (key name id) [])
    else .trimStripeScript (key name id) (size - 1)

/-- Write `data` at the offset `off` of `name`.  Nothing is read, so there is no
state in which a write does not do the same. -/
def writeAt (name : GoString) (off : ℤ) (data : List UInt8) : Prog Unit :=
  match stripeLayout s.policy s.stripeSize off data with
  | none => .panic
  | some stripes => do
      let _ ← Program.forkAll (stripes.map (s.writeStripe name))
      return ()

/-- Read into `dst` from the offset `off` of `name`; the number of bytes read, and the
buffer afterwards. -/
def readAt (name : GoString) (off : ℤ) (dst : List UInt8) : Prog (ℤ × List UInt8) :=
  match stripeLayout s.policy s.stripeSize off dst with
  | none => .panic
  | some stripes => do
      let replies ← Program.forkAll (stripes.map (s.readStripe name))
      match collectReads replies 0 dst with
      | none => .panic
      | some result => return result

/-- The highest identifier in the sets of all instances, `-1` if they are empty.
Every instance of the ring is asked. -/
def searchLastStripe (name : GoString) : Prog ℤ := do
  let replies ← Program.forkAll (s.redisRing.clients.map fun client =>
    { addr := client.2.addr, body := .single (.smembers (stripesKey name)) })
  match replies.mapM lastIdOf with
  | none => .panic
  | some ids => return maxId ids

/-- Remove all stripes of `name`, from the first one to the one with the highest
identifier that is registered. -/
def remove (name : GoString) : Prog Unit := do
  let lastStripe ← s.searchLastStripe name
  let _ ← Program.forkAll ((idsFrom 0 (lastStripe + 1)).map (s.removeStripe name))
  return ()

/-- The number of bytes of `name`: the end of the stripe with the highest
identifier.  The two requests are made one after the other, and others may come in
between.  `Wrapped.getSize` is the same in 64-bit arithmetic. -/
def getSize (name : GoString) : Prog ℤ := do
  let ilast ← s.searchLastStripe name
  if ilast < 0 then return 0
  else
    let l ← (s.redisRing.getClient (key name ilast)).strlen (key name ilast)
    return ilast * s.stripeSize + l

/-- The stripe that consists of one zero byte at the offset `off`. -/
def zeroByte (id off : ℤ) : StripeInfo := { id := id, off := off, data := { bytes := [0] } }

/-- Grow or shrink `name`.  A file grows by a zero byte at the end of each new
stripe, in front of which Redis pads with zeros; the size is asked for once, at the
start. -/
def resize (name : GoString) (newSize : ℤ) : Prog Unit :=
  if newSize < 0 then .panic
  else do
    let curSize ← s.getSize name
    let (curLastStripeID, curLastStripeLen) := lastStripeInfo curSize s.stripeSize
    let (newLastStripeID, newLastStripeLen) := lastStripeInfo newSize s.stripeSize
    if newSize < curSize then
      -- remove the stripes behind the new last one, and cut that one
      let replies ← Program.forkAll
        ((idsFrom (newLastStripeID + 1) (curLastStripeID + 1)).map (s.removeStripe name) ++
          [s.trimStripe name newLastStripeID newLastStripeLen])
      checkReplies replies
    else if newSize > curSize then
      -- the new stripes but the last, the last, and the rest of the current last one
      let _ ← Program.forkAll
        ((idsFrom (curLastStripeID + 1) newLastStripeID).map
            (fun id => s.writeStripe name (zeroByte id (s.stripeSize - 1))) ++
          [s.writeStripe name (zeroByte newLastStripeID (newLastStripeLen - 1))] ++
          (if curLastStripeLen < s.stripeSize then
            [s.writeStripe name
              (zeroByte curLastStripeID (s.stripeSize - curLastStripeLen - 1))]
          else []))
      return ()
    else return ()

end DataStore

end Pdwfs
