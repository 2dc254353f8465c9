import Pdwfs.Redisfs.Size

/-!
# The requests of a file

Every operation of the data store on a file is made of round trips of six kinds.
What holds of these six holds of everything the operations send.

* `RequestOf` — the round trips of the file `name`.
* `requests_getSize`, `requests_readAt`, … — an operation sends nothing else.

This is how a frame condition is proved here.  A property that the six kinds have,
such as writing no key of another file, is one that every operation keeps, and with
it every run of any number of them; there is no need to go through the operations,
nor through their interleavings.
-/

namespace Pdwfs

open Concurrency Redis

namespace DataStore

/-- The round trips of the operations on the file `name`.  The arguments are not
restricted: a piece may be anything, and the number of a stripe too. -/
inductive RequestOf (s : DataStore) (name : GoString) : Request → Prop
  | members (client : GoString × RedisClient) : RequestOf s name (membersRequest name client)
  | strlen (id : ℤ) : RequestOf s name
      { addr := s.addr name id, body := .single (.strlen (key name id)) }
  | read (stripe : StripeInfo) : RequestOf s name (s.readStripe name stripe)
  | write (stripe : StripeInfo) : RequestOf s name (s.writeStripe name stripe)
  | remove (id : ℤ) : RequestOf s name (s.removeStripe name id)
  | trim (id size : ℤ) : RequestOf s name (s.trimStripe name id size)

variable {s : DataStore} {name : GoString}

theorem requests_searchLastStripe :
    Program.Issues (s.RequestOf name) (s.searchLastStripe name) := by
  refine (Program.issues_forkAll fun q member => ?_).bind fun replies => ?_
  · obtain ⟨client, -, rfl⟩ := List.mem_map.mp member
    exact .members client
  · split <;> trivial

/-- `GetSize` sends requests of its file. -/
theorem requests_getSize : Program.Issues (s.RequestOf name) (s.getSize name) := by
  refine requests_searchLastStripe.bind fun ilast => ?_
  split
  · trivial
  · refine Program.Issues.bind ?_ fun _ => trivial
    rw [RedisClient.strlen, RedisClient.send]
    refine (Program.issues_request (.strlen ilast)).bind fun reply => ?_
    split <;> trivial

theorem requests_remove : Program.Issues (s.RequestOf name) (s.remove name) := by
  refine requests_searchLastStripe.bind fun last => ?_
  refine (Program.issues_forkAll fun q member => ?_).bind fun _ => trivial
  obtain ⟨id, -, rfl⟩ := List.mem_map.mp member
  exact .remove id

/-- So does `WriteAt`. -/
theorem requests_writeAt {off : ℤ} {data : List UInt8} :
    Program.Issues (s.RequestOf name) (s.writeAt name off data) := by
  unfold writeAt
  split
  · trivial
  · refine (Program.issues_forkAll fun q member => ?_).bind fun _ => trivial
    obtain ⟨stripe, -, rfl⟩ := List.mem_map.mp member
    exact .write stripe

/-- So does `ReadAt`. -/
theorem requests_readAt {off : ℤ} {dst : List UInt8} :
    Program.Issues (s.RequestOf name) (s.readAt name off dst) := by
  unfold readAt
  split
  · trivial
  · refine (Program.issues_forkAll fun q member => ?_).bind fun replies => ?_
    · obtain ⟨stripe, -, rfl⟩ := List.mem_map.mp member
      exact .read stripe
    · split <;> trivial

/-- And so does `Resize`, which asks for the size first. -/
theorem requests_resize {newSize : ℤ} :
    Program.Issues (s.RequestOf name) (s.resize name newSize) := by
  unfold resize
  split
  · trivial
  refine requests_getSize.bind fun curSize => ?_
  obtain ⟨curLastStripeID, curLastStripeLen⟩ := lastStripeInfo curSize s.stripeSize
  obtain ⟨newLastStripeID, newLastStripeLen⟩ := lastStripeInfo newSize s.stripeSize
  simp only
  split
  · -- shrink
    refine (Program.issues_forkAll fun q member => ?_).bind fun replies => ?_
    · rcases List.mem_append.mp member with removed | trimmed
      · obtain ⟨id, -, rfl⟩ := List.mem_map.mp removed
        exact .remove id
      · obtain rfl := List.mem_singleton.mp trimmed
        exact .trim _ _
    · unfold checkReplies
      split <;> trivial
  · split
    · -- grow
      refine (Program.issues_forkAll fun q member => ?_).bind fun _ => trivial
      rcases List.mem_append.mp member with new | completion
      · rcases List.mem_append.mp new with whole | last
        · obtain ⟨id, -, rfl⟩ := List.mem_map.mp whole
          exact .write _
        · obtain rfl := List.mem_singleton.mp last
          exact .write _
      · split at completion
        · obtain rfl := List.mem_singleton.mp completion
          exact .write _
        · simp at completion
    · trivial

/-- A goroutine of a read does not write. -/
theorem writes_readStripe (s : DataStore) (name : GoString) (piece : StripeInfo) :
    (s.readStripe name piece).writes = [] := by
  by_cases whole : piece.off = 0 ∧ (piece.data.bytes.length : ℤ) = s.stripeSize
  · simp only [Request.writes, readStripe, if_pos whole]
    rfl
  · simp only [Request.writes, readStripe, if_neg whole]
    rfl

/-- The requests of a file write its stripes and its sets only. -/
theorem RequestOf.writes {q : Request} (request : s.RequestOf name q) :
    ∀ k ∈ q.writes, k = stripesKey name ∨ ∃ id, k = key name id := by
  intro k inWrites
  cases request with
  | members client => exact absurd inWrites List.not_mem_nil
  | strlen id => exact absurd inWrites List.not_mem_nil
  | read stripe =>
      rw [s.writes_readStripe] at inWrites
      exact absurd inWrites List.not_mem_nil
  | write stripe =>
      exact (mem_writes_writeStripe.mp inWrites).imp_right fun same => ⟨_, same⟩
  | remove id => exact (mem_writes_removeStripe.mp inWrites).imp_right fun same => ⟨id, same⟩
  | trim id size => exact .inr ⟨id, mem_writes_trimStripe.mp inWrites⟩

end DataStore

end Pdwfs
