import Pdwfs.Redisfs.Store

/-!
# The invariant of a stored file

What a file looks like in the instances, and what the requests of the data store do
to it.

* `stripe`, `Registered` — the string of a stripe, and whether its identifier is in
  the set of its instance.
* `FileInv` — the invariant of one file: stripes are no longer than the stripe size,
  they are on the instance the ring picks, a stripe that is not empty is registered,
  and what is registered is a stripe that is not empty, or stripe `0`.  The
  exception is needed: a layout with zero values in it registers stripe `0` without
  storing anything.
* `FileInv.writeStripe`, `FileInv.removeStripe`, `FileInv.trimStripe` — each request
  keeps the invariant of the file it is about; `FileInv.congr` is the frame rule for
  all others.

## One invariant for single requests

The requests of several clients are interleaved, so the invariant has to hold
between any two of them, and not only when a call has returned.  It says nothing
about a file being complete therefore: what a write has done to some stripes and not
yet to others is as good as what it has done in the end.

It is an invariant because a request is a transaction: a stripe and its entry in the
set change at once.  This is the whole reason why a stripe that is not empty is
registered in every configuration.

## Effects

The three requests that write are described in the same way, by what they make of
one stripe and of the set of its instance (`Effect`).  That an effect keeps the
invariant is shown once (`Effect.fileInv`), under conditions that are then checked
for each of the requests: what is stored is not too long, it is registered, and no
other stripe is taken out of the set.
-/

namespace Pdwfs

open Redis

/-- The store after a request, seen from the instance `a`. -/
theorem serve_apply (q : Request) (c : Cluster) (a : Addr) :
    (serve q c).1 a = if a = q.addr then (q.body.exec q.dst (c q.addr)).1 else c a := by
  by_cases same : a = q.addr
  · subst same
    simp [serve]
  · simp [serve, same]

/-- A request leaves no empty set behind. -/
theorem serve_proper {c : Cluster} (proper : ∀ a, Proper (c a)) (q : Request) (a : Addr) :
    Proper ((serve q c).1 a) := by
  rw [serve_apply]
  split
  · obtain ⟨addr, body, dst⟩ := q
    cases body with
    | single cmd => exact (proper addr).exec cmd
    | multi cmds => exact (proper addr).execAll cmds
    | trimStripeScript key stop =>
        have read : exec (.getrange key 0 stop) (c addr) =
            (c addr, (exec (.getrange key 0 stop) (c addr)).2) :=
          Prod.ext (exec_eq_self rfl _) rfl
        simp only [Body.exec]
        rw [read]
        split
        · rename_i read' str reply
          obtain ⟨rfl, -⟩ := Prod.mk.inj reply
          exact (proper addr).exec (.set key str)
        · rename_i read' reply' noString reply
          obtain ⟨rfl, -⟩ := Prod.mk.inj reply
          exact proper addr
  · exact proper a

/-- The keys a request may write. -/
def Body.writes : Body → List GoString
  | .single cmd => cmd.writes
  | .multi cmds => cmds.flatMap Cmd.writes
  | .trimStripeScript key _ => [key]

/-- The keys that a round trip may write. -/
def Request.writes (q : Request) : List GoString := q.body.writes

/-- A request leaves the keys it does not write as they are, on every instance. -/
theorem serve_of_not_mem_writes {q : Request} {k : GoString} (notWritten : k ∉ q.writes)
    (c : Cluster) (a : Addr) : (serve q c).1 a k = c a k := by
  rw [serve_apply]
  by_cases here : a = q.addr
  · subst here
    rw [if_pos rfl]
    obtain ⟨addr, body, dst⟩ := q
    cases body with
    | single cmd => exact exec_of_not_mem_writes notWritten
    | multi cmds =>
        refine execAll_of_not_mem_writes fun cmd member inside => notWritten ?_
        exact List.mem_flatMap.mpr ⟨cmd, member, inside⟩
    | trimStripeScript key stop =>
        have other : k ≠ key := by
          simpa [Request.writes, Body.writes] using notWritten
        have read : (exec (.getrange key 0 stop) (c addr)).1 = c addr := exec_eq_self rfl (c addr)
        simp only [Body.exec]
        split
        · rename_i read' str reply
          have same : read' = c addr := by rw [← read, reply]
          rw [same]
          exact exec_of_not_mem_writes (show k ∉ (Cmd.set key str).writes by
            simpa [Cmd.writes] using other)
        · rename_i read' reply' noString reply
          have same : read' = c addr := by rw [← read, reply]
          rw [same]
  · rw [if_neg here]

/-- A request without keys to write changes nothing. -/
theorem serve_readOnly {q : Request} (readOnly : q.writes = []) (c : Cluster) :
    (serve q c).1 = c := by
  funext a k
  exact serve_of_not_mem_writes (by simp [readOnly]) c a

namespace DataStore

variable (s : DataStore)

/-- The string stored for a stripe, empty when there is none.  A stripe is looked
for on its own instance only. -/
def stripe (c : Cluster) (name : GoString) (id : ℤ) : List UInt8 :=
  stringAt (c (s.addr name id)) (key name id)

/-- The identifiers that an instance has in its set of stripes. -/
def idsAt (c : Cluster) (name : GoString) (a : Addr) : List GoString :=
  membersAt (c a) (stripesKey name)

/-- The stripe is in the set of the instance that stores it. -/
def Registered (c : Cluster) (name : GoString) (id : ℤ) : Prop :=
  formatInt id ∈ idsAt c name (s.addr name id)

/-- The invariant of the file `name`.

A stripe that is stored on another instance than its own would never be read, and a
number in the set of another instance would be taken for a stripe that is there;
`elsewhere` and `ofRegistered` exclude both.  Stripe `0` may be registered while it
is empty. -/
structure FileInv (c : Cluster) (name : GoString) : Prop where
  noSet : ∀ id, NoSet (c (s.addr name id)) (key name id)
  noString : ∀ a, NoString (c a) (stripesKey name)
  length_le : ∀ id, ((s.stripe c name id).length : ℤ) ≤ s.stripeSize
  elsewhere : ∀ a id, a ≠ s.addr name id → stringAt (c a) (key name id) = []
  registered : ∀ id, s.stripe c name id ≠ [] → s.Registered c name id
  ofRegistered : ∀ a, ∀ m ∈ idsAt c name a, ∃ id, 0 ≤ id ∧ m = formatInt id ∧
    s.addr name id = a ∧ (s.stripe c name id ≠ [] ∨ id = 0)

variable {s} {c c' : Cluster} {name : GoString}

/-- The keys of a write: the stripe, and the set. -/
theorem mem_writes_writeStripe {piece : StripeInfo} {k : GoString} :
    k ∈ (s.writeStripe name piece).writes ↔ k = stripesKey name ∨ k = key name piece.id := by
  simp only [Request.writes, Body.writes, DataStore.writeStripe, List.flatMap_cons,
    List.flatMap_nil, List.append_nil]
  split <;> simp [Cmd.writes]

theorem mem_writes_removeStripe {id : ℤ} {k : GoString} :
    k ∈ (s.removeStripe name id).writes ↔ k = stripesKey name ∨ k = key name id := by
  simp [Request.writes, Body.writes, DataStore.removeStripe, Cmd.writes]

theorem mem_writes_trimStripe {id size : ℤ} {k : GoString} :
    k ∈ (s.trimStripe name id size).writes ↔ k = key name id := by
  by_cases empty : size = 0 <;>
    simp [Request.writes, Body.writes, DataStore.trimStripe, empty, Cmd.writes]

/-- An empty store has the invariant for every name. -/
theorem fileInv_empty (s : DataStore) (name : GoString) : s.FileInv (fun _ _ => none) name where
  noSet _ := noSet_of_none rfl
  noString _ := noString_of_none rfl
  length_le _ := by
    rw [stripe, stringAt_of_none rfl]
    simpa using s.stripeSize_pos.le
  elsewhere a id _ := stringAt_of_none rfl
  registered id stored := absurd (stringAt_of_none rfl) stored
  ofRegistered a m member := by
    rw [idsAt, membersAt_of_none rfl] at member
    simp at member

/-- **Frame rule**: the invariant of a file only depends on the keys of the file. -/
theorem FileInv.congr (inv : s.FileInv c name)
    (sameStripes : ∀ a id, c' a (key name id) = c a (key name id))
    (sameIds : ∀ a, c' a (stripesKey name) = c a (stripesKey name)) : s.FileInv c' name := by
  have stripes : ∀ id, s.stripe c' name id = s.stripe c name id :=
    fun id => stringAt_congr (sameStripes _ id)
  have ids : ∀ a, idsAt c' name a = idsAt c name a := fun a => membersAt_congr (sameIds a)
  exact {
    noSet := fun id => (noSet_congr (sameStripes _ id)).mpr (inv.noSet id)
    noString := fun a => (noString_congr (sameIds a)).mpr (inv.noString a)
    length_le := fun id => by rw [stripes]; exact inv.length_le id
    elsewhere := fun a id other => by
      rw [stringAt_congr (sameStripes a id)]
      exact inv.elsewhere a id other
    registered := fun id stored => by
      rw [stripes] at stored
      rw [Registered, ids]
      exact inv.registered id stored
    ofRegistered := fun a m member => by
      rw [ids] at member
      simpa only [stripes] using inv.ofRegistered a m member }

/-- A registered identifier is not negative. -/
theorem FileInv.nonneg_of_registered (inv : s.FileInv c name) {id : ℤ}
    (registered : s.Registered c name id) : 0 ≤ id := by
  obtain ⟨id', nonneg, same, -⟩ := inv.ofRegistered _ _ registered
  rwa [formatInt_injective same]

/-- A stripe that is not empty has a number that is not negative. -/
theorem FileInv.id_nonneg (inv : s.FileInv c name) {id : ℤ}
    (stored : s.stripe c name id ≠ []) : 0 ≤ id :=
  inv.nonneg_of_registered (inv.registered id stored)

/-- What is stored is on the instance that the ring picks, and in its set. -/
theorem FileInv.place_of_stored (inv : s.FileInv c name) {a : Addr} {id : ℤ}
    (stored : stringAt (c a) (key name id) ≠ []) :
    a = s.addr name id ∧ s.Registered c name id := by
  by_cases here : a = s.addr name id
  · subst here
    exact ⟨rfl, inv.registered id stored⟩
  · exact absurd (inv.elsewhere a id here) stored

/-- What is registered is stored, or it is stripe `0`. -/
theorem FileInv.stored_or_zero (inv : s.FileInv c name) {id : ℤ}
    (registered : s.Registered c name id) : s.stripe c name id ≠ [] ∨ id = 0 := by
  obtain ⟨id', -, same, -, stored⟩ := inv.ofRegistered _ _ registered
  rwa [formatInt_injective same]

/-! ## What the requests do to the file they are about -/

/-- The effect of a request on the stripes and the sets of the file `name`: the stripe
`id` becomes `bytes`, and is in the set of its instance if `keep` says so. -/
structure Effect (s : DataStore) (c c' : Cluster) (name : GoString) (id : ℤ)
    (bytes : List UInt8) (member : GoString → Prop) : Prop where
  noSet : NoSet (c' (s.addr name id)) (key name id)
  noString : NoString (c' (s.addr name id)) (stripesKey name)
  stripe_self : s.stripe c' name id = bytes
  ids_self : ∀ m, m ∈ idsAt c' name (s.addr name id) ↔ member m
  stripe_other : ∀ a id', id' ≠ id → c' a (key name id') = c a (key name id')
  elsewhere : ∀ a, a ≠ s.addr name id → c' a = c a

namespace Effect

variable {id : ℤ} {bytes : List UInt8} {member : GoString → Prop}

/-- The stripes after the request. -/
theorem stripe_eq (effect : Effect s c c' name id bytes member) (id' : ℤ) :
    s.stripe c' name id' = if id' = id then bytes else s.stripe c name id' := by
  by_cases same : id' = id
  · subst same
    simpa using effect.stripe_self
  · rw [if_neg same]
    exact stringAt_congr (effect.stripe_other _ id' same)

/-- The sets after the request. -/
theorem mem_idsAt (effect : Effect s c c' name id bytes member) (a : Addr) (m : GoString) :
    m ∈ idsAt c' name a ↔
      if a = s.addr name id then member m else m ∈ idsAt c name a := by
  by_cases same : a = s.addr name id
  · subst same
    simpa using effect.ids_self m
  · rw [if_neg same, idsAt, membersAt_congr (congrFun (effect.elsewhere a same) _), idsAt]

/-- A request keeps the invariant when it stores at most a stripe, registers what it
stores, and takes no other stripe out of the set. -/
theorem fileInv (effect : Effect s c c' name id bytes member) (inv : s.FileInv c name)
    (length_le : (bytes.length : ℤ) ≤ s.stripeSize)
    (keeps : ∀ m, m ≠ formatInt id →
      (member m ↔ m ∈ idsAt c name (s.addr name id)))
    (registers : bytes ≠ [] → member (formatInt id))
    (registered : member (formatInt id) → 0 ≤ id ∧ (bytes ≠ [] ∨ id = 0)) :
    s.FileInv c' name where
  noSet id' := by
    by_cases same : id' = id
    · subst same
      exact effect.noSet
    · exact (noSet_congr (effect.stripe_other _ id' same)).mpr (inv.noSet id')
  noString a := by
    by_cases same : a = s.addr name id
    · subst same
      exact effect.noString
    · exact (noString_congr (congrFun (effect.elsewhere a same) _)).mpr (inv.noString a)
  length_le id' := by
    rw [effect.stripe_eq]
    split
    · exact length_le
    · exact inv.length_le id'
  -- Under the key of the stripe there is a string on its own instance only.
  elsewhere a id' other := by
    have unchanged : c' a (key name id') = c a (key name id') := by
      by_cases same : id' = id
      · subst same
        exact congrFun (effect.elsewhere a other) _
      · exact effect.stripe_other a id' same
    rw [stringAt_congr unchanged]
    exact inv.elsewhere a id' other
  registered id' stored := by
    rw [effect.stripe_eq] at stored
    rw [Registered, effect.mem_idsAt]
    -- The stripe itself is registered if it has bytes; the other members of the set are
    -- as before.
    by_cases same : id' = id
    · subst same
      rw [if_pos rfl] at stored ⊢
      exact registers stored
    · rw [if_neg same] at stored
      have other : formatInt id' ≠ formatInt id := fun h => same (formatInt_injective h)
      have old := inv.registered id' stored
      rw [Registered] at old
      split
      · rename_i here
        rw [here] at old
        exact (keeps _ other).mpr old
      · exact old
  ofRegistered a m inSet := by
    rw [effect.mem_idsAt] at inSet
    by_cases this : m = formatInt id ∧ a = s.addr name id
    · obtain ⟨rfl, rfl⟩ := this
      rw [if_pos rfl] at inSet
      obtain ⟨nonneg, stored⟩ := registered inSet
      exact ⟨id, nonneg, rfl, rfl, by simpa [effect.stripe_self] using stored⟩
    · have old : m ∈ idsAt c name a := by
        split at inSet
        · rename_i here
          subst here
          have other : m ≠ formatInt id := fun h => this ⟨h, rfl⟩
          exact (keeps m other).mp inSet
        · exact inSet
      obtain ⟨id', nonneg, rfl, here, stored⟩ := inv.ofRegistered a m old
      have other : id' ≠ id := fun h => this ⟨by rw [h], by rw [← h]; exact here.symm⟩
      exact ⟨id', nonneg, rfl, here, by rwa [effect.stripe_eq, if_neg other]⟩

end Effect

/-- The piece of data that a request `writeStripe` may carry: a non-empty one inside of
a stripe, or the zero value of a layout. -/
structure Writable (s : DataStore) (stripe : StripeInfo) : Prop where
  id_nonneg : 0 ≤ stripe.id
  off_nonneg : 0 ≤ stripe.off
  inside : stripe.off + stripe.data.bytes.length ≤ s.stripeSize
  nonempty_or_zero : stripe.data.bytes ≠ [] ∨ stripe.id = 0

/-- The string of a stripe after a piece has been written into it.  A zero value
leaves it as it is. -/
def written (bytes : List UInt8) (piece : StripeInfo) : List UInt8 :=
  if piece.data.bytes = [] then bytes else setRange bytes piece.off.toNat piece.data.bytes

/-- **Writing a stripe** is `SETRANGE` on it, also on the fast path, and registers it. -/
theorem effect_writeStripe (inv : s.FileInv c name) {piece : StripeInfo}
    (writable : Writable s piece) :
    Effect s c (serve (s.writeStripe name piece) c).1 name piece.id
      (written (s.stripe c name piece.id) piece)
      (fun m => m ∈ idsAt c name (s.addr name piece.id) ∨ m = formatInt piece.id) := by
  set write : Cmd GoString GoString :=
    if piece.off = 0 ∧ (piece.data.bytes.length : ℤ) = s.stripeSize then
      .set (key name piece.id) piece.data.bytes
    else .setrange (key name piece.id) piece.off piece.data.bytes with writeEq
  have writes : write.writes = [key name piece.id] := by
    rw [writeEq]
    split <;> rfl
  set db := c (s.addr name piece.id)
  set db₁ := (exec (.sadd (stripesKey name) (formatInt piece.id)) db).1
  -- The transaction registers the stripe, and then writes it.
  have after : ∀ a, (serve (s.writeStripe name piece) c).1 a =
      if a = s.addr name piece.id then (exec write db₁).1 else c a :=
    fun a => serve_apply _ c a
  have untouched : db₁ (key name piece.id) = db (key name piece.id) :=
    exec_of_not_mem_writes (by simpa [Cmd.writes] using key_ne_stripesKey name name piece.id)
  have typed : NoSet db₁ (key name piece.id) :=
    (noSet_congr untouched).mpr (inv.noSet piece.id)
  have old : stringAt db₁ (key name piece.id) = s.stripe c name piece.id :=
    stringAt_congr untouched
  obtain ⟨added, setTyped⟩ := exec_sadd (formatInt piece.id) (inv.noString (s.addr name piece.id))
  have kept : (exec write db₁).1 (stripesKey name) = db₁ (stripesKey name) :=
    exec_of_not_mem_writes (by
      rw [writes]
      simpa using (key_ne_stripesKey name name piece.id).symm)
  -- The fast path writes a whole stripe, so nothing of the old string is left.
  have result : stringAt (exec write db₁).1 (key name piece.id) =
      written (s.stripe c name piece.id) piece ∧ NoSet (exec write db₁).1 (key name piece.id) := by
    by_cases fast : piece.off = 0 ∧ (piece.data.bytes.length : ℤ) = s.stripeSize
    · rw [writeEq, if_pos fast]
      obtain ⟨value, valueTyped⟩ := exec_set db₁ (key name piece.id) piece.data.bytes
      refine ⟨value.trans ?_, valueTyped⟩
      have positive := s.stripeSize_pos
      have fits := inv.length_le piece.id
      have nonempty : piece.data.bytes ≠ [] := by
        intro empty
        rw [empty] at fast
        simp only [List.length_nil, Nat.cast_zero] at fast
        omega
      rw [written, if_neg nonempty, fast.1, Int.toNat_zero,
        setRange_zero_of_length_le (by omega)]
    · rw [writeEq, if_neg fast]
      obtain ⟨value, valueTyped⟩ := exec_setrange piece.data.bytes typed writable.off_nonneg
      exact ⟨value.trans (by rw [old, written]), valueTyped⟩
  exact {
    noSet := by rw [after, if_pos rfl]; exact result.2
    noString := by rw [after, if_pos rfl]; exact (noString_congr kept).mpr setTyped
    stripe_self := by rw [stripe, after, if_pos rfl]; exact result.1
    ids_self := fun m => by
      rw [idsAt, after, if_pos rfl, membersAt_congr kept]
      exact added m
    -- Neither of the two keys belongs to another stripe.
    stripe_other := fun a id' other => by
      refine serve_of_not_mem_writes (fun member => ?_) c a
      rcases mem_writes_writeStripe.mp member with same | same
      · exact key_ne_stripesKey name name id' same
      · exact other (key_inj.mp same).2
    elsewhere := fun a other => by rw [after, if_neg other] }

/-- Writing a stripe keeps the invariant. -/
theorem FileInv.writeStripe (inv : s.FileInv c name) {piece : StripeInfo}
    (writable : Writable s piece) :
    s.FileInv (serve (s.writeStripe name piece) c).1 name := by
  refine (effect_writeStripe inv writable).fileInv inv ?_ ?_ ?_ ?_
  · have fits := inv.length_le piece.id
    have inside := writable.inside
    have forward := writable.off_nonneg
    unfold written
    split
    · exact fits
    · rw [length_setRange]
      push_cast
      omega
  · intro m other
    simp [other]
  · intro _
    exact .inr rfl
  · intro _
    refine ⟨writable.id_nonneg, ?_⟩
    rcases writable.nonempty_or_zero with nonempty | zero
    · exact .inl (by rw [written, if_neg nonempty]; exact setRange_ne_nil nonempty)
    · exact .inr zero

/-- **Removing a stripe** deletes its key and its registration. -/
theorem effect_removeStripe (inv : s.FileInv c name) (id : ℤ) :
    Effect s c (serve (s.removeStripe name id) c).1 name id []
      (fun m => m ∈ idsAt c name (s.addr name id) ∧ m ≠ formatInt id) := by
  set db := c (s.addr name id)
  set db₁ := (exec (.srem (stripesKey name) (formatInt id)) db).1
  have after : ∀ a, (serve (s.removeStripe name id) c).1 a =
      if a = s.addr name id then (exec (.unlink [key name id]) db₁).1 else c a :=
    fun a => serve_apply _ c a
  have gone : (exec (.unlink [key name id]) db₁).1 (key name id) = none :=
    exec_unlink (by simp)
  obtain ⟨removed, setTyped⟩ := exec_srem (formatInt id) (inv.noString (s.addr name id))
  have kept : (exec (.unlink [key name id]) db₁).1 (stripesKey name) = db₁ (stripesKey name) :=
    exec_of_not_mem_writes (by
      simpa [Cmd.writes] using (key_ne_stripesKey name name id).symm)
  exact {
    noSet := by rw [after, if_pos rfl]; exact noSet_of_none gone
    noString := by rw [after, if_pos rfl]; exact (noString_congr kept).mpr setTyped
    stripe_self := by rw [stripe, after, if_pos rfl]; exact stringAt_of_none gone
    ids_self := fun m => by
      rw [idsAt, after, if_pos rfl, membersAt_congr kept]
      exact removed m
    stripe_other := fun a id' other => by
      refine serve_of_not_mem_writes (fun member => ?_) c a
      rcases mem_writes_removeStripe.mp member with same | same
      · exact key_ne_stripesKey name name id' same
      · exact other (key_inj.mp same).2
    elsewhere := fun a other => by rw [after, if_neg other] }

/-- A stripe is removed together with its number. -/
theorem FileInv.removeStripe (inv : s.FileInv c name) (id : ℤ) :
    s.FileInv (serve (s.removeStripe name id) c).1 name := by
  refine (effect_removeStripe inv id).fileInv inv ?_ ?_ ?_ ?_
  · simpa using s.stripeSize_pos.le
  · intro m other
    simp [other]
  · simp
  · simp

/-- **Trimming a stripe** cuts its string; an empty one is stored if there was none.
The registration is left as it is. -/
theorem effect_trimStripe (inv : s.FileInv c name) (id : ℤ) {size : ℤ} (positive : 0 < size) :
    Effect s c (serve (s.trimStripe name id size) c).1 name id
      ((s.stripe c name id).take size.toNat)
      (fun m => m ∈ idsAt c name (s.addr name id)) := by
  set db := c (s.addr name id)
  have typed : NoSet db (key name id) := inv.noSet id
  have cut : getRange (stringAt db (key name id)) 0 (size - 1) =
      (s.stripe c name id).take size.toNat := by
    have range := getRange_natCast (stringAt db (key name id)) 0 size.toNat (by omega)
    rw [show ((0 : ℕ) : ℤ) + (size.toNat : ℤ) - 1 = size - 1 by omega] at range
    exact range
  have read := exec_getrange 0 (size - 1) typed
  rw [cut] at read
  set db₁ := (exec (.set (key name id) ((s.stripe c name id).take size.toNat)) db).1
  have script : (Body.trimStripeScript (key name id) (size - 1)).exec Slice.nil db =
      (db₁, .server .ok) := by
    simp only [Body.exec, read]
    rfl
  have after : ∀ a, (serve (s.trimStripe name id size) c).1 a =
      if a = s.addr name id then db₁ else c a := by
    intro a
    rw [serve_apply]
    simp only [trimStripe, if_neg positive.ne', show c (s.addr name id) = db from rfl, script]
  obtain ⟨value, valueTyped⟩ := exec_set db (key name id) ((s.stripe c name id).take size.toNat)
  have kept : ∀ k, k ≠ key name id → db₁ k = db k :=
    fun k other => exec_of_not_mem_writes (by simpa [Cmd.writes] using other)
  have setKept := kept (stripesKey name) (key_ne_stripesKey name name id).symm
  exact {
    noSet := by rw [after, if_pos rfl]; exact valueTyped
    noString := by
      rw [after, if_pos rfl]
      exact (noString_congr setKept).mpr (inv.noString _)
    stripe_self := by rw [stripe, after, if_pos rfl]; exact value
    ids_self := fun m => by
      rw [idsAt, after, if_pos rfl, membersAt_congr setKept]
      rfl
    stripe_other := fun a id' other =>
      serve_of_not_mem_writes
        (fun member => other (key_inj.mp (mem_writes_trimStripe.mp member)).2) c a
    elsewhere := fun a other => by rw [after, if_neg other] }

/-- A stripe that is trimmed to a length of at least one keeps its number. -/
theorem FileInv.trimStripe (inv : s.FileInv c name) (id : ℤ) {size : ℤ} (positive : 0 < size) :
    s.FileInv (serve (s.trimStripe name id size) c).1 name := by
  refine (effect_trimStripe inv id positive).fileInv inv ?_ ?_ ?_ ?_
  · have fits := inv.length_le id
    rw [List.length_take]
    omega
  · intro m _
    rfl
  · intro stored
    refine inv.registered id fun empty => stored ?_
    rw [empty, List.take_nil]
  · intro registered
    refine ⟨inv.nonneg_of_registered registered, ?_⟩
    refine (inv.stored_or_zero registered).imp_left fun stored empty => stored ?_
    rcases List.take_eq_nil_iff.mp empty with none | old
    · omega
    · exact old

/-- Trimming succeeds: the reply of the script is `OK`. -/
theorem serve_trimStripe_reply (inv : s.FileInv c name) (id : ℤ) {size : ℤ}
    (positive : 0 < size) : (serve (s.trimStripe name id size) c).2 = .server .ok := by
  have typed : NoSet (c (s.addr name id)) (key name id) := inv.noSet id
  have read := exec_getrange 0 (size - 1) typed
  simp only [serve, DataStore.trimStripe, if_neg positive.ne', Body.exec, read]
  rfl

/-! ## The invariant of all files -/

variable (s) in
/-- Every file has its invariant. -/
def StoreInv (c : Cluster) : Prop := ∀ name, s.FileInv c name

theorem storeInv_empty (s : DataStore) : s.StoreInv fun _ _ => none := fileInv_empty s

/-- A request that writes keys of the file `other` only keeps the invariant of all
files if it keeps that of `other`. -/
theorem StoreInv.serve {q : Request} {other : GoString} (inv : s.StoreInv c)
    (ofOther : ∀ k ∈ q.writes, k = stripesKey other ∨ ∃ id, k = key other id)
    (kept : s.FileInv (serve q c).1 other) : s.StoreInv (serve q c).1 := by
  intro name
  by_cases same : name = other
  · subst same
    exact kept
  · refine (inv name).congr (fun a id => ?_) (fun a => ?_)
    · refine serve_of_not_mem_writes (fun member => ?_) c a
      rcases ofOther _ member with stripes | ⟨id', stripe⟩
      · exact key_ne_stripesKey name other id stripes
      · exact same (key_inj.mp stripe).1
    · refine serve_of_not_mem_writes (fun member => ?_) c a
      rcases ofOther _ member with stripes | ⟨id', stripe⟩
      · exact same (stripesKey_inj.mp stripes)
      · exact key_ne_stripesKey other name id' stripe.symm

theorem StoreInv.writeStripe (inv : s.StoreInv c) {piece : StripeInfo}
    (writable : Writable s piece) : s.StoreInv (Pdwfs.serve (s.writeStripe name piece) c).1 :=
  inv.serve (fun _ member => (mem_writes_writeStripe.mp member).imp_right fun same => ⟨_, same⟩)
    ((inv name).writeStripe writable)

theorem StoreInv.removeStripe (inv : s.StoreInv c) (id : ℤ) :
    s.StoreInv (Pdwfs.serve (s.removeStripe name id) c).1 :=
  inv.serve (fun _ member => (mem_writes_removeStripe.mp member).imp_right fun same => ⟨_, same⟩)
    ((inv name).removeStripe id)

theorem StoreInv.trimStripe (inv : s.StoreInv c) (id : ℤ) {size : ℤ} (positive : 0 < size) :
    s.StoreInv (Pdwfs.serve (s.trimStripe name id size) c).1 :=
  inv.serve (fun _ member => .inr ⟨_, mem_writes_trimStripe.mp member⟩)
    ((inv name).trimStripe id positive)

end DataStore

end Pdwfs
