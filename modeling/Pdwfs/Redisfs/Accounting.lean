import Pdwfs.Redisfs.Observations
import Pdwfs.Redisfs.Resizes

/-!
# Key accounting

Which keys of a file there are, and which of them the sets know.  A key that is in
no set is never removed.

* `Accounted` — the stripe keys on an instance are those in its set.
* `Tight` — the invariant behind it: no key holds an empty string or an empty set,
  and what is registered is stored.
* `Accountable` — the calls that keep it.  A cut inside of a gap and a cut to zero
  store an empty string under a key that is not registered, and a layout with zero
  values registers stripe `0` without storing it.
* `Tight.perform` — one call keeps the invariant; `Tight.gone` is about the removal
  of the file.

## Two directions

That every stripe with bytes is registered holds in any case, and is part of the
invariant of a file (`FileInv`).  The size of a file and its removal need this
direction.  The other one, that what is registered is there, and the one for empty
strings are not needed by the program, and it does not care for them.

An empty string comes into being when a key is trimmed that is not there: the script
stores what is left of nothing.  An entry of a set without a key comes from the zero
values of a layout of more than 100 stripes.  So `Accountable` is a condition on the
calls that looks at the store in front of them: whether the stripe is there that
would be trimmed, or the first one.

## Removal

`Remove` deletes the stripes up to the last one that is registered. With `Tight`
these are all keys of the file, and the sets get empty on the way, so that Redis
deletes them.
-/

namespace Pdwfs

open Concurrency Redis Striping

/-- The calls that the file system makes: the others are aborted before they get
here. -/
def FileCall.Valid : FileCall → Prop
  | .writeAt off _ => 0 ≤ off
  | .resize newSize => 0 ≤ newSize
  | _ => True

namespace DataStore

variable {s : DataStore} {c c' : Cluster} {name : GoString}

/-- The stripe keys on an instance are those in its set, and none of them is
negative. -/
structure Accounted (s : DataStore) (c : Cluster) (name : GoString) : Prop where
  key_iff : ∀ a id, c a (key name id) ≠ none ↔ formatInt id ∈ idsAt c name a
  id_nonneg : ∀ a id, formatInt id ∈ idsAt c name a → 0 ≤ id

/-- No instance has a key of the file. -/
structure Gone (c : Cluster) (name : GoString) : Prop where
  stripe : ∀ a id, c a (key name id) = none
  stripes : ∀ a, c a (stripesKey name) = none

/-! ## The invariant -/

/-- No key of a stripe holds an empty string. -/
def Filling (c : Cluster) (name : GoString) : Prop :=
  ∀ a id, c a (key name id) ≠ none → stringAt (c a) (key name id) ≠ []

/-- The invariant of a file whose keys are accounted for. -/
structure Tight (s : DataStore) (c : Cluster) (name : GoString) : Prop where
  /-- The invariant of every file. -/
  inv : s.FileInv c name
  /-- No set is empty. -/
  proper : ∀ a, Proper (c a)
  /-- No string is. -/
  filling : Filling c name
  /-- What is registered is stored. -/
  stored : ∀ id, s.Registered c name id → s.stripe c name id ≠ []

/-- At first there are no keys at all. -/
theorem tight_empty (s : DataStore) (name : GoString) : s.Tight (fun _ _ => none) name where
  inv := fileInv_empty s name
  proper _ := fun key => by simp
  filling _ _ there := absurd rfl there
  stored id registered := by
    rw [Registered, idsAt, membersAt_of_none rfl] at registered
    simp at registered

/-- This is what it is for. -/
theorem Tight.accounted (tight : s.Tight c name) : s.Accounted c name where
  key_iff a id := by
    constructor
    · intro there
      have nonempty := tight.filling a id there
      by_cases here : a = s.addr name id
      · subst here
        exact tight.inv.registered id nonempty
      · exact absurd (tight.inv.elsewhere a id here) nonempty
    · intro member missing
      obtain ⟨id', -, same, rfl, -⟩ := tight.inv.ofRegistered a _ member
      obtain rfl := formatInt_injective same
      exact tight.stored id member (stringAt_of_none missing)
  id_nonneg a id member := by
    obtain ⟨id', nonneg, same, -⟩ := tight.inv.ofRegistered a _ member
    rwa [formatInt_injective same]

/-- Without stripes and without members there is no key. -/
theorem Tight.gone (tight : s.Tight c name) (stripes : ∀ id, s.stripe c name id = [])
    (ids : ∀ a, idsAt c name a = []) : Gone c name where
  stripe a id := by
    by_contra there
    have nonempty := tight.filling a id there
    by_cases here : a = s.addr name id
    · subst here
      exact nonempty (stripes id)
    · exact nonempty (tight.inv.elsewhere a id here)
  stripes a := by
    have typed : setAt? (c a) (stripesKey name) = some (idsAt c name a) := tight.inv.noString a
    rw [ids, setAt?] at typed
    split at typed
    · rename_i missing
      exact missing
    · rename_i members held
      obtain rfl : members = [] := Option.some.inj typed
      exact absurd held (tight.proper a _)
    · cases typed

/-! ## The requests -/

/-- A request keeps the strings non-empty if it stores no empty one. -/
theorem Effect.filling {id : ℤ} {bytes : List UInt8} {member : GoString → Prop}
    (effect : Effect s c c' name id bytes member) (filling : Filling c name)
    (here : c' (s.addr name id) (key name id) ≠ none → bytes ≠ []) : Filling c' name := by
  intro a id' there
  by_cases same : id' = id
  · subst same
    by_cases inPlace : a = s.addr name id'
    · subst inPlace
      have held : stringAt (c' (s.addr name id')) (key name id') = bytes := effect.stripe_self
      rw [held]
      exact here there
    · rw [effect.elsewhere a inPlace] at there ⊢
      exact filling a id' there
  · have unchanged := effect.stripe_other a id' same
    rw [stringAt_congr unchanged]
    exact filling a id' (unchanged ▸ there)

/-- Writing nothing into a stripe leaves its key as it is. -/
theorem serve_writeStripe_nothing {piece : StripeInfo} (nothing : piece.data.bytes = []) (a : Addr)
    (id : ℤ) : (serve (s.writeStripe name piece) c).1 a (key name id) = c a (key name id) := by
  have general : ¬(piece.off = 0 ∧ (piece.data.bytes.length : ℤ) = s.stripeSize) := by
    rw [nothing]
    have := s.stripeSize_pos
    simp only [List.length_nil, Nat.cast_zero]
    omega
  rw [serve_apply]
  split
  · rename_i here
    subst here
    simp only [writeStripe, if_neg general]
    simp only [Body.exec, execAll_cons, execAll_nil]
    have written : ∀ db : Database GoString GoString,
        (exec (.setrange (key name piece.id) piece.off []) db).1 = db := by
      intro db
      simp only [exec]
      split
      · rfl
      · split
        · rfl
        · rfl
    rw [nothing, written]
    exact exec_of_not_mem_writes (by simpa [Cmd.writes] using key_ne_stripesKey name name id)
  · rfl

/-- A write of a stripe stores no empty string: if there is nothing to write,
`SETRANGE` does not create the key. -/
theorem filling_writeStripe (inv : s.FileInv c name) (filling : Filling c name) {piece : StripeInfo}
    (writable : Writable s piece) : Filling (serve (s.writeStripe name piece) c).1 name := by
  by_cases nothing : piece.data.bytes = []
  · intro a id there
    have unchanged : (serve (s.writeStripe name piece) c).1 a (key name id) = c a (key name id) :=
      serve_writeStripe_nothing nothing a id
    rw [stringAt_congr unchanged]
    exact filling a id (unchanged ▸ there)
  · refine (effect_writeStripe inv writable).filling filling fun _ => ?_
    rw [written, if_neg nothing]
    exact setRange_ne_nil nothing

/-- What a sequence of writes does to the keys: the strings only grow, what is written is
stored, and only what is written is registered. -/
theorem writes_runAll (inv : s.FileInv c name) (filling : Filling c name)
    {pieces : List StripeInfo} (writable : ∀ piece ∈ pieces, Writable s piece) :
    let after := (Program.runAll serve (pieces.map (s.writeStripe name)) c).1
    s.FileInv after name ∧ Filling after name ∧
      (∀ id, s.stripe c name id ≠ [] → s.stripe after name id ≠ []) ∧
      (∀ piece ∈ pieces, piece.data.bytes ≠ [] → s.stripe after name piece.id ≠ []) ∧
      ∀ id, s.Registered after name id →
        s.Registered c name id ∨ ∃ piece ∈ pieces, piece.id = id := by
  induction pieces generalizing c with
  | nil => exact ⟨inv, filling, fun _ => id, by simp, fun _ => .inl⟩
  | cons piece rest ih =>
      have here := writable piece (by simp)
      have effect := effect_writeStripe inv here
      obtain ⟨inv', filling', grown, stored, registered⟩ :=
        ih (inv.writeStripe here) (filling_writeStripe inv filling here)
          fun piece' member => writable piece' (by simp [member])
      have kept : ∀ id, s.stripe c name id ≠ [] →
          s.stripe (serve (s.writeStripe name piece) c).1 name id ≠ [] := by
        intro id nonempty
        rw [effect.stripe_eq]
        split
        · rename_i same
          subst same
          unfold written
          split
          · exact nonempty
          · exact setRange_ne_nil ‹_›
        · exact nonempty
      refine ⟨inv', filling', fun id nonempty => grown id (kept id nonempty), ?_, ?_⟩
      · intro piece' member nonempty
        rcases List.mem_cons.mp member with rfl | later
        · apply grown _
          rw [effect.stripe_self, written, if_neg nonempty]
          exact setRange_ne_nil nonempty
        · exact stored piece' later nonempty
      · intro id member
        rcases registered id member with before | ⟨piece', later, same⟩
        · rw [Registered, effect.mem_idsAt] at before
          split at before
          · rename_i place
            rcases before with old | new
            · exact .inl (by rwa [Registered, place])
            · exact .inr ⟨piece, by simp, (formatInt_injective new).symm⟩
          · exact .inl before
        · exact .inr ⟨piece', by simp [later], same⟩

/-- No sequence of requests leaves an empty set. -/
theorem runAll_proper (proper : ∀ a, Proper (c a)) (tasks : List Request) (a : Addr) :
    Proper ((Program.runAll serve tasks c).1 a) :=
  (Program.runAll_preserves (fun c : Cluster => ∀ a, Proper (c a)) (fun _ => True)
    (fun q _ _ holds => ⟨serve_proper holds q, trivial⟩) proper).1 a

/-- Writes keep the invariant, unless they only register a stripe. -/
theorem Tight.writes (tight : s.Tight c name) {pieces : List StripeInfo}
    (writable : ∀ piece ∈ pieces, Writable s piece)
    (zero : (∃ piece ∈ pieces, piece.data.bytes = []) →
      s.stripe (Program.runAll serve (pieces.map (s.writeStripe name)) c).1 name 0 ≠ []) :
    s.Tight (Program.runAll serve (pieces.map (s.writeStripe name)) c).1 name := by
  obtain ⟨inv, filling, grown, stored, registered⟩ := writes_runAll tight.inv tight.filling writable
  refine ⟨inv, runAll_proper tight.proper _, filling, fun id member => ?_⟩
  rcases registered id member with before | ⟨piece, inPieces, rfl⟩
  · exact grown id (tight.stored id before)
  · by_cases nothing : piece.data.bytes = []
    · have first : piece.id = 0 :=
        (writable piece inPieces).nonempty_or_zero.resolve_left (by simp [nothing])
      rw [first]
      exact zero ⟨piece, inPieces, nothing⟩
    · exact stored piece inPieces nothing

/-- A stripe is removed together with its number, so that nothing is left of it in
either place. -/
theorem Tight.removeStripe (tight : s.Tight c name) (id : ℤ) :
    s.Tight (serve (s.removeStripe name id) c).1 name := by
  have effect := effect_removeStripe tight.inv id
  have missing : (serve (s.removeStripe name id) c).1 (s.addr name id) (key name id) = none := by
    rw [serve_apply, if_pos (show s.addr name id = (s.removeStripe name id).addr from rfl)]
    exact exec_unlink (List.mem_singleton_self _)
  refine ⟨tight.inv.removeStripe id, serve_proper tight.proper _,
    effect.filling tight.filling fun there => absurd missing there, fun id' member => ?_⟩
  rw [Registered, effect.mem_idsAt] at member
  rw [effect.stripe_eq]
  by_cases same : id' = id
  · subst same
    simp at member
  · rw [if_neg same]
    apply tight.stored id'
    split at member
    · rename_i place
      rw [Registered, place]
      exact member.1
    · exact member

/-- A stripe that is stored can be trimmed. -/
theorem Tight.trimStripe (tight : s.Tight c name) {id size : ℤ} (positive : 0 < size)
    (nonempty : s.stripe c name id ≠ []) :
    s.Tight (serve (s.trimStripe name id size) c).1 name := by
  have effect := effect_trimStripe tight.inv id positive
  have left : (s.stripe c name id).take size.toNat ≠ [] := by
    rw [Ne, List.take_eq_nil_iff]
    rintro (none | empty)
    · omega
    · exact nonempty empty
  refine ⟨tight.inv.trimStripe id positive, serve_proper tight.proper _,
    effect.filling tight.filling fun _ => left, fun id' member => ?_⟩
  rw [Registered, effect.mem_idsAt] at member
  rw [effect.stripe_eq]
  by_cases same : id' = id
  · rwa [if_pos same]
  · rw [if_neg same]
    apply tight.stored id'
    split at member
    · rename_i place
      rwa [Registered, place]
    · exact member

/-! ## The calls -/

variable (s name) in
/-- The calls that keep the keys accounted for.  A write of more than 100 stripes has zero
values in its layout, which register stripe `0`; a cut trims the stripe of the new last
byte, whether it is there or not. -/
def Accountable (c : Cluster) : FileCall → Prop
  | .writeAt off data => touchedStripes s.stripeSize off data.length ≤ 100 ∨ off < s.stripeSize ∨
      c (s.addr name 0) (key name 0) ≠ none
  | .resize newSize => (∃ p, newSize ≤ p ∧ s.Stores c name p) →
      0 < newSize ∧ c (s.addr name ((newSize - 1) / s.stripeSize))
        (key name ((newSize - 1) / s.stripeSize)) ≠ none
  | _ => True

/-- A write, in whatever order its goroutines are served. -/
theorem Tight.exec_writeAt (tight : s.Tight c name) {off : ℤ} {data : List UInt8}
    (nonneg : 0 ≤ off) (accountable : s.Accountable name c (.writeAt off data))
    {outcome : Option Unit} (performed : Exec (s.writeAt name off data) c c' outcome) :
    s.Tight c' name := by
  obtain ⟨pieces, items, tiles, layout, padded⟩ :=
    stripeLayout_spec s.policy s.stripeSize_pos nonneg data
  simp only [writeAt, layout] at performed
  rw [Exec, Program.exec_forkAll_map_bind_iff] at performed
  obtain ⟨order, perm, rest⟩ := performed
  obtain ⟨rfl, -⟩ := Program.exec_ret_iff.mp rest
  have writable : ∀ piece ∈ order, Writable s piece := fun piece member =>
    writable_of_layout nonneg tiles padded (perm.mem_iff.mp member)
  obtain ⟨-, -, grown, stored, -⟩ := writes_runAll tight.inv tight.filling writable
  apply tight.writes writable
  rintro ⟨piece, member, nothing⟩
  have nonempty : ∀ piece ∈ pieces, piece.data.bytes ≠ [] := fun piece member =>
    (tiles.piece s.stripeSize_pos nonneg member).nonempty
  rcases accountable with few | first | there
  · -- There is no zero value in the layout.
    rw [← tiles.length_eq_touched s.stripeSize_pos] at few
    have inLayout := perm.mem_iff.mp member
    rw [padded.exact_of_le (by omega)] at inLayout
    exact absurd nothing (nonempty piece inLayout)
  · -- The write begins in stripe `0`.
    have some : data ≠ [] := by
      intro empty
      have none := tiles.eq_nil empty
      have inLayout := perm.mem_iff.mp member
      rw [padded.exact_of_le (by simp [none]), none] at inLayout
      simp at inLayout
    obtain ⟨head, inTiling, lower, upper⟩ := tiles.covers (List.length_pos_iff.mpr some)
    have tiled := tiles.piece s.stripeSize_pos nonneg inTiling
    have begins := tiled.start_eq
    have zero : head.id = 0 := by
      have id_nonneg := tiled.id_nonneg
      have off_nonneg := tiled.off_nonneg
      rw [StripeInfo.start] at begins
      by_contra other
      have later := mul_le_mul_of_nonneg_right (show 1 ≤ head.id by omega) s.stripeSize_pos.le
      omega
    rw [← zero]
    exact stored head (perm.mem_iff.mpr (padded.mem_of_mem inTiling)) (nonempty head inTiling)
  · exact grown 0 (tight.filling _ 0 there)

/-- A resize to a new size. -/
theorem Tight.exec_resize (tight : s.Tight c name) {newSize : ℤ} (nonneg : 0 ≤ newSize)
    (accountable : s.Accountable name c (.resize newSize)) {outcome : Option Unit}
    (performed : Exec (s.resize name newSize) c c' outcome) : s.Tight c' name := by
  have positive := s.stripeSize_pos
  obtain ⟨size, isSize⟩ := tight.inv.exists_isSize
  have sizeNonneg := isSize.nonneg tight.inv.wellFormed
  obtain ⟨shrink, grow, keep⟩ := DataStore.exec_resize tight.inv isSize nonneg performed
  rcases lt_trichotomy newSize size with less | same | more
  · obtain ⟨order, perm, checked⟩ := shrink less
    obtain ⟨-, there⟩ := accountable ⟨size - 1, by omega,
      isSize.stored_pred tight.inv.wellFormed (by omega)⟩
    have last := Int.emod_nonneg (newSize - 1) positive.ne'
    -- The stripe that is trimmed is not one of those that are removed.
    have kept := (Program.runAll_preserves
      (fun d => s.Tight d name ∧ s.stripe d name ((newSize - 1) / s.stripeSize) ≠ [])
      (fun _ => True) (fun q member d holds => ?_) ⟨tight, tight.filling _ _ there⟩ :
        _ ∧ ∀ r ∈ (Program.runAll serve order c).2, True).1
    · have final : c' = (Program.runAll serve order c).1 := by
        rw [checkReplies] at checked
        split at checked
        · exact (Program.exec_panic_iff.mp checked).1
        · exact (Program.exec_ret_iff.mp checked).1
      rw [final]
      exact kept.1
    · obtain ⟨tight', nonempty⟩ := holds
      refine ⟨?_, trivial⟩
      rcases mem_shrinkTasks.mp (perm.mem_iff.mp member) with ⟨id, inRange, rfl⟩ | rfl
      · refine ⟨tight'.removeStripe id, ?_⟩
        rwa [(effect_removeStripe tight'.inv id).stripe_eq, if_neg (by omega)]
      · refine ⟨tight'.trimStripe (by omega) nonempty, ?_⟩
        rw [(effect_trimStripe tight'.inv _ (by omega)).stripe_self, Ne, List.take_eq_nil_iff]
        rintro (none | empty)
        · omega
        · exact nonempty empty
  · rwa [(keep same).1]
  · obtain ⟨tasks, perm, rfl, -⟩ := grow more
    obtain ⟨order, rfl, perm'⟩ := Program.exists_map_of_perm_map perm
    refine tight.writes (fun piece member =>
      writable_of_mem_growPieces sizeNonneg more (perm'.mem_iff.mp member)) ?_
    rintro ⟨piece, member, nothing⟩
    obtain ⟨id, off, rfl, -⟩ := mem_growPieces (perm'.mem_iff.mp member)
    simp [zeroByte] at nothing

/-- A removal leaves nothing. -/
theorem Tight.exec_remove (tight : s.Tight c name) {outcome : Option Unit}
    (performed : Exec (s.remove name) c c' outcome) : s.Tight c' name := by
  rw [remove, Exec, Program.exec_bind_iff] at performed
  rcases performed with ⟨n, middle, search, rest⟩ | ⟨search, -⟩
  · obtain ⟨rfl, -⟩ := (exec_searchLastStripe_iff tight.inv).mp search
    rw [Program.exec_forkAll_map_bind_iff] at rest
    obtain ⟨order, -, done⟩ := rest
    obtain ⟨rfl, -⟩ := Program.exec_ret_iff.mp done
    refine (Program.runAll_preserves (fun d => s.Tight d name) (fun _ => True) ?_ tight).1
    intro q member d tight'
    obtain ⟨id, -, rfl⟩ := List.mem_map.mp member
    exact ⟨tight'.removeStripe id, trivial⟩
  · obtain ⟨-, n, same, -⟩ := (exec_searchLastStripe_iff tight.inv).mp search
    cases same

/-- **One call** that is accountable keeps the invariant. -/
theorem Tight.perform (tight : s.Tight c name) {call : FileCall} (valid : call.Valid)
    (accountable : s.Accountable name c call) {result : Option FileReturn}
    (performed : Exec (s.perform name call) c c' result) : s.Tight c' name := by
  obtain ⟨outcome, performed⟩ : ∃ outcome, Exec (s.perform name call) c c' outcome := ⟨_, performed⟩
  cases call with
  | writeAt off data =>
      obtain ⟨outcome, performed, -⟩ := Program.exec_bind_ret_iff.mp performed
      exact tight.exec_writeAt valid accountable performed
  | readAt off dst =>
      obtain ⟨outcome, performed, -⟩ := Program.exec_bind_ret_iff.mp performed
      have keeps : Program.Issues (fun q => ∀ d, s.Tight d name → s.Tight (serve q d).1 name)
          (s.readAt name off dst) :=
        issues_readAt.mono fun q readOnly d holds => by rwa [serve_readOnly readOnly]
      exact keeps.preserved tight performed
  | getSize =>
      obtain ⟨outcome, performed, -⟩ := Program.exec_bind_ret_iff.mp performed
      obtain ⟨rfl, -⟩ := (exec_getSize_iff tight.inv).mp performed
      exact tight
  | resize newSize =>
      obtain ⟨outcome, performed, -⟩ := Program.exec_bind_ret_iff.mp performed
      exact tight.exec_resize valid accountable performed
  | remove =>
      obtain ⟨outcome, performed, -⟩ := Program.exec_bind_ret_iff.mp performed
      exact tight.exec_remove performed

end DataStore

end Pdwfs
