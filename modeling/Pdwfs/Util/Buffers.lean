import Mathlib

/-!
# Buffers that grow

A block of memory that is written from its start on, and that is extended by
`realloc` when it gets full.  What the allocator does is a parameter: what is in the
memory that it hands out, and whether a block can be extended where it is.  It never
runs out of memory.

* `Block.store`, `Block.extend` — write a byte; make room for two more.
* `Block.grown` — the block after it has been extended for so many bytes, without
  them.
* `extend_store`, `storeAll_grown` — bytes may as well be written after the block
  has grown.

## Three sizes

A block has a capacity, which is what the allocator has given to it, and the writer
has a number that it takes for the size.  The two are the same for a block that the
writer has allocated, but a caller may hand over a block and a number that is less.
`bufsiz` is the number of the writer, and `Roomy` says that it does not count on
more than there is.

Whether a byte is written in bounds is recorded in the block (`inBounds`) and not
proved where it is written: the statement that every write is in bounds is then one
about the block at the end.

## Growing first

The writer alternates between extending the block and writing a byte.  The two
commute, by `extend_store`: what is in the block does not decide when it is
extended.  So a run of the writer is described by two functions, the block as it
grows and the bytes that are put into it, and the proofs about the loop deal with
one of them at a time.
-/

namespace Pdwfs

/-- The allocator.  Both fields may be anything: a program must not depend on what
is in fresh memory, nor on where a block is. -/
structure Allocator where
  /-- The byte at an index of a new block of so many bytes. -/
  fresh : ℕ → ℕ → UInt8
  /-- Whether a block has to move to be extended to so many bytes. -/
  moves : ℕ → Bool

/-- A block of memory, and what a writer knows about it. -/
structure Block where
  /-- The memory from the start of the block on. -/
  bytes : ℕ → UInt8
  /-- How many bytes belong to the block. -/
  capacity : ℕ
  /-- How many bytes the writer counts on. -/
  bufsiz : ℕ
  /-- The allocator knows the block. -/
  heap : Bool
  /-- The block is not where it was at first. -/
  moved : Bool := false
  /-- Whatever has been written, its index was below `bufsiz`. -/
  inBounds : Bool := true

/-- A new block. -/
def Allocator.malloc (a : Allocator) (n : ℕ) : Block :=
  { bytes := a.fresh n, capacity := n, bufsiz := n, heap := true, moved := true }

namespace Block

/-- A block of the allocator that is known to the writer as a whole. -/
def onHeap (bytes : ℕ → UInt8) (bufsiz : ℕ) : Block :=
  { bytes := bytes, capacity := bufsiz, bufsiz := bufsiz, heap := true }

variable (a : Allocator) (b : Block)

/-- Write a byte, and remember whether there was room for it. -/
def store (i : ℕ) (x : UInt8) : Block :=
  { b with bytes := Function.update b.bytes i x, inBounds := b.inBounds && decide (i < b.bufsiz) }

/-- Extend the block to `n` bytes: what has been in it is kept, and what is new is
fresh memory.  The block may have to move, and then a pointer to it is no longer
one. -/
def realloc (n : ℕ) : Block :=
  { bytes := fun i => if i < b.capacity then b.bytes i else a.fresh n i
    capacity := n
    bufsiz := n
    heap := true
    moved := b.moved || a.moves n
    inBounds := b.inBounds }

/-- Double the block when there is no room for two more bytes from `ptr` on.  The allocator aborts
the program if it does not know the block. -/
def extend (ptr : ℕ) : Option Block :=
  if b.bufsiz ≤ ptr + 2 then
    if b.heap then some (b.realloc a (b.bufsiz * 2)) else none
  else some b

/-- Extend the block for each of `n` bytes that are put at `ptr` and behind it. -/
def grown (ptr : ℕ) : ℕ → Block → Option Block
  | 0, b => some b
  | n + 1, b => (b.extend a (ptr + 1)).bind (grown (ptr + 1) n)

/-- Write bytes one after the other. -/
def storeAll : Block → ℕ → List UInt8 → Block
  | b, _, [] => b
  | b, ptr, x :: rest => storeAll (b.store ptr x) (ptr + 1) rest

/-- There is room for a byte at `ptr`, and the writer does not count on more than
the block has. -/
structure Roomy (ptr : ℕ) : Prop where
  lt_bufsiz : ptr < b.bufsiz
  le_capacity : b.bufsiz ≤ b.capacity

variable {a b} {b' g : Block} {ptr n i : ℕ} {x : UInt8} {xs : List UInt8}

@[simp] theorem store_bytes_self : (b.store i x).bytes i = x := by
  simp [store]

theorem store_bytes_of_ne {j : ℕ} (other : j ≠ i) : (b.store i x).bytes j = b.bytes j := by
  simp [store, other]

@[simp] theorem store_bufsiz : (b.store i x).bufsiz = b.bufsiz := rfl

@[simp] theorem store_capacity : (b.store i x).capacity = b.capacity := rfl

@[simp] theorem store_heap : (b.store i x).heap = b.heap := rfl

@[simp] theorem store_moved : (b.store i x).moved = b.moved := rfl

/-- Writing a byte leaves the room as it is. -/
theorem Roomy.store (roomy : b.Roomy ptr) (i : ℕ) (x : UInt8) : (b.store i x).Roomy ptr :=
  ⟨roomy.lt_bufsiz, roomy.le_capacity⟩

/-! ## One byte -/

/-- **One extension**: there is room for the next byte, and nothing that was there is lost. -/
theorem Roomy.extend (roomy : b.Roomy ptr) (extended : b.extend a (ptr + 1) = some b') :
    b'.Roomy (ptr + 1) := by
  have := roomy.lt_bufsiz
  unfold Block.extend at extended
  split at extended
  · split at extended
    · obtain rfl := Option.some.inj extended
      exact ⟨show ptr + 1 < b.bufsiz * 2 by omega, le_rfl⟩
    · simp at extended
  · obtain rfl := Option.some.inj extended
    exact ⟨by omega, roomy.le_capacity⟩

/-- A block of the allocator can be extended. -/
theorem exists_extend (heap : b.heap = true) (a : Allocator) (ptr : ℕ) :
    ∃ b', b.extend a ptr = some b' ∧ b'.heap = true := by
  by_cases tight : b.bufsiz ≤ ptr + 2
  · exact ⟨_, by rw [Block.extend, if_pos tight, if_pos heap], rfl⟩
  · exact ⟨b, by rw [Block.extend, if_neg tight], heap⟩

/-- The block is doubled or left as it is. -/
theorem extend_spec (extended : b.extend a ptr = some b') :
    b'.inBounds = b.inBounds ∧
      b'.bufsiz = if b.bufsiz ≤ ptr + 2 then b.bufsiz * 2 else b.bufsiz := by
  rw [Block.extend] at extended
  by_cases tight : b.bufsiz ≤ ptr + 2
  · rw [if_pos tight] at extended ⊢
    split at extended
    · obtain rfl := Option.some.inj extended
      exact ⟨rfl, rfl⟩
    · simp at extended
  · rw [if_neg tight] at extended ⊢
    obtain rfl := Option.some.inj extended
    exact ⟨rfl, rfl⟩

/-- A byte is written before the extension or after it. -/
theorem extend_store (roomy : b.Roomy ptr) (before : i ≤ ptr) (a : Allocator) (x : UInt8) :
    (b.store i x).extend a (ptr + 1) = (b.extend a (ptr + 1)).map fun b' => b'.store i x := by
  have inside := roomy.lt_bufsiz
  have owned := roomy.le_capacity
  unfold Block.extend
  rw [store_bufsiz, store_heap]
  split
  · split
    · rw [Option.map_some, Option.some.injEq, realloc, store, realloc, store]
      simp only [Block.mk.injEq, true_and]
      refine ⟨?_, ?_⟩
      · funext j
        by_cases here : j = i
        · subst here
          rw [if_pos (show j < b.capacity by omega), Function.update_self, Function.update_self]
        · rw [Function.update_of_ne here, Function.update_of_ne here]
      · rw [decide_eq_true (show i < b.bufsiz by omega),
          decide_eq_true (show i < b.bufsiz * 2 by omega)]
    · rfl
  · rfl

/-! ## All bytes -/

/-- There is room behind all bytes that the block has grown for. -/
theorem Roomy.grown (roomy : b.Roomy ptr) (extended : grown a ptr n b = some g) :
    g.Roomy (ptr + n) := by
  induction n generalizing ptr b with
  | zero =>
      obtain rfl := Option.some.inj extended
      exact roomy
  | succ n ih =>
      obtain ⟨b', first, later⟩ := Option.bind_eq_some_iff.mp extended
      have room := ih (roomy.extend first) later
      rwa [Nat.add_assoc, Nat.add_comm 1] at room

/-- A block of the allocator can grow for any number of bytes. -/
theorem exists_grown (heap : b.heap = true) (a : Allocator) (ptr n : ℕ) :
    ∃ g, grown a ptr n b = some g := by
  induction n generalizing ptr b with
  | zero => exact ⟨b, rfl⟩
  | succ n ih =>
      obtain ⟨b', first, heap'⟩ := exists_extend heap a (ptr + 1)
      obtain ⟨g, later⟩ := ih heap' (ptr + 1)
      exact ⟨g, Option.bind_eq_some_iff.mpr ⟨b', first, later⟩⟩

/-- A byte is written before the block grows or after it. -/
theorem grown_store (roomy : b.Roomy ptr) (before : i ≤ ptr) (a : Allocator) (n : ℕ) (x : UInt8) :
    grown a ptr n (b.store i x) = (grown a ptr n b).map fun g => g.store i x := by
  induction n generalizing ptr b with
  | zero => rfl
  | succ n ih =>
      rw [grown, grown, extend_store roomy before]
      cases extended : b.extend a (ptr + 1) with
      | none => rfl
      | some b' => exact ih (roomy.extend extended) (by omega)

/-- What is in front of the bytes that are written stays. -/
theorem bytes_storeAll_of_lt (xs : List UInt8) (b : Block) (before : i < ptr) :
    (b.storeAll ptr xs).bytes i = b.bytes i := by
  induction xs generalizing ptr b with
  | nil => rfl
  | cons x rest ih =>
      rw [storeAll, ih (b.store ptr x) (by omega), store_bytes_of_ne (by omega)]

/-- What has been written is read back. -/
theorem bytes_storeAll (b : Block) (ptr : ℕ) (inside : i < xs.length) :
    xs[i]? = some ((b.storeAll ptr xs).bytes (ptr + i)) := by
  induction xs generalizing ptr b i with
  | nil => simp at inside
  | cons x rest ih =>
      unfold storeAll
      cases i with
      | zero =>
          have kept := bytes_storeAll_of_lt rest (b.store ptr x) (Nat.lt_add_one ptr)
          show some x = some (((b.store ptr x).storeAll (ptr + 1) rest).bytes ptr)
          rw [kept, store_bytes_self]
      | succ i =>
          rw [List.length_cons] at inside
          rw [List.getElem?_cons_succ, ih (b.store ptr x) (ptr + 1) (by omega), Nat.add_assoc,
            Nat.add_comm 1]

/-- The byte behind is what it has been. -/
theorem bytes_storeAll_of_le (xs : List UInt8) (b : Block) (behind : ptr + xs.length ≤ i) :
    (b.storeAll ptr xs).bytes i = b.bytes i := by
  induction xs generalizing ptr b with
  | nil => rfl
  | cons x rest ih =>
      rw [List.length_cons] at behind
      rw [storeAll, ih (b.store ptr x) (by omega), store_bytes_of_ne (by omega)]

@[simp] theorem storeAll_bufsiz (xs : List UInt8) (b : Block) (ptr : ℕ) :
    (b.storeAll ptr xs).bufsiz = b.bufsiz := by
  induction xs generalizing b ptr with
  | nil => rfl
  | cons x rest ih => rw [storeAll, ih, store_bufsiz]

@[simp] theorem storeAll_moved (xs : List UInt8) (b : Block) (ptr : ℕ) :
    (b.storeAll ptr xs).moved = b.moved := by
  induction xs generalizing b ptr with
  | nil => rfl
  | cons x rest ih => rw [storeAll, ih, store_moved]

/-- Bytes that there is room for are written in bounds. -/
theorem inBounds_storeAll (xs : List UInt8) (b : Block) (room : ptr + xs.length ≤ b.bufsiz) :
    (b.storeAll ptr xs).inBounds = b.inBounds := by
  induction xs generalizing b ptr with
  | nil => rfl
  | cons x rest ih =>
      rw [List.length_cons] at room
      rw [storeAll, ih (b.store ptr x) (by rw [store_bufsiz]; omega), store,
        decide_eq_true (by omega), Bool.and_true]

/-! ## The room behind -/

/-- Growing writes nothing. -/
theorem inBounds_grown (extended : grown a ptr n b = some g) : g.inBounds = b.inBounds := by
  induction n generalizing ptr b with
  | zero =>
      obtain rfl := Option.some.inj extended
      rfl
  | succ n ih =>
      obtain ⟨b', first, later⟩ := Option.bind_eq_some_iff.mp extended
      rw [ih later, (extend_spec first).1]

/-- There is room for one more byte behind those that the block has grown for, unless the block
was full but for one byte and has not grown since, or only from one byte to two. -/
theorem lt_bufsiz_grown_iff (roomy : b.Roomy ptr) (extended : grown a ptr n b = some g) :
    ptr + n + 1 < g.bufsiz ↔ ptr + 1 < b.bufsiz ∨ 0 < n ∧ 2 ≤ ptr + n := by
  induction n generalizing ptr b with
  | zero =>
      obtain rfl := Option.some.inj extended
      simp
  | succ n ih =>
      obtain ⟨b', first, later⟩ := Option.bind_eq_some_iff.mp extended
      have behind := ih (roomy.extend first) later
      have size := (extend_spec first).2
      have := roomy.lt_bufsiz
      rw [show ptr + (n + 1) + 1 = ptr + 1 + n + 1 by omega, behind, size]
      split <;> omega

end Block

end Pdwfs
