import Pdwfs.Concurrency.Simulation
import Pdwfs.Redis.Views
import Pdwfs.Redisfs.Metadata

/-!
# What can be observed of a file

All files share the keys of the instances.  The calls on a file only tell what the
instances hold under the keys of the file, and of that they do not tell a missing
key from an empty string.

* `StoreKey` — what the keys stand for; none of them stands for two things.
* `SameFile` — two stores look the same through the calls on a file.
* `outcomes_congr` — then the calls return the same.
* `separate` — the calls on one file leave everything else as it is.
* `remove_forgets` — a file that has been removed cannot be told from one that never
  was.

## Why not equality

After a removal there may be a key left, with an empty string under a number that is
not registered. A store that has been used is therefore not the empty store, and the
statement that a removed file is forgotten needs a coarser relation, the one that
the calls can see.  `SameFile` is this relation.  It is kept by every request of the
file, on both sides, and the answers are the same up to what the calls make of them
(`SameAnswer`).

The relation is between two stores and the calls are any, so it is a bisimulation,
and the outcomes of whole sequences of calls agree.  Outcomes are sets, because the
goroutines of a call may be served in any order.

## Names with colons

The key of a stripe is the name of the file, a colon and a number, and a file may
have a name that ends like this.  The keys are different all the same, since the
last colon and what is behind it tell which kind of key it is
(`StoreKey.redisKey_injective`).  This holds for all strings and all integers, so
that no condition on names is needed anywhere.
-/

namespace Pdwfs

open Concurrency Redis

/-! ## Keys -/

/-- What a key of an instance is for. -/
inductive StoreKey
  | stripe (name : GoString) (id : ℤ)
  | stripes (name : GoString)
  | mode (path : GoString)
  | children (path : GoString)

/-- The key itself. -/
def StoreKey.redisKey : StoreKey → GoString
  | .stripe name id => key name id
  | .stripes name => stripesKey name
  | .mode path => modeKey path
  | .children path => childrenKey path

/-- No key is for two things. -/
theorem StoreKey.redisKey_injective : Function.Injective StoreKey.redisKey := by
  intro k k' same
  cases k with
  | stripe name id =>
      cases k' with
      | stripe name' id' =>
          obtain ⟨rfl, rfl⟩ := key_inj.mp same
          rfl
      | stripes name' => exact absurd same (key_ne_stripesKey name name' id)
      | mode path' => exact absurd same (key_ne_modeKey name path' id)
      | children path' => exact absurd same (key_ne_childrenKey name path' id)
  | stripes name =>
      cases k' with
      | stripe name' id' => exact absurd same.symm (key_ne_stripesKey name' name id')
      | stripes name' => exact congrArg _ (stripesKey_inj.mp same)
      | mode path' => exact absurd same (stripesKey_ne_modeKey name path')
      | children path' => exact absurd same (stripesKey_ne_childrenKey name path')
  | mode path =>
      cases k' with
      | stripe name' id' => exact absurd same.symm (key_ne_modeKey name' path id')
      | stripes name' => exact absurd same.symm (stripesKey_ne_modeKey name' path)
      | mode path' => exact congrArg _ (modeKey_inj.mp same)
      | children path' => exact absurd same (modeKey_ne_childrenKey path path')
  | children path =>
      cases k' with
      | stripe name' id' => exact absurd same.symm (key_ne_childrenKey name' path id')
      | stripes name' => exact absurd same.symm (stripesKey_ne_childrenKey name' path)
      | mode path' => exact absurd same.symm (modeKey_ne_childrenKey path' path)
      | children path' => exact congrArg _ (childrenKey_inj.mp same)

/-! ## Calls -/

/-- A call of the data store on a file. -/
inductive FileCall
  | writeAt (off : ℤ) (data : List UInt8)
  | readAt (off : ℤ) (dst : List UInt8)
  | getSize
  | resize (newSize : ℤ)
  | remove

/-- What a call returns.  The buffer of a read is part of it. -/
inductive FileReturn
  | done
  | read (n : ℤ) (dst : List UInt8)
  | size (n : ℤ)
  deriving DecidableEq

/-- The outcomes of the runs of a program: what it returns, or that it aborts. -/
def Outcomes {α : Type} (program : Prog α) (c : Cluster) : Set (Option α) :=
  {outcome | ∃ c', Exec program c c' outcome}

namespace DataStore

variable (s : DataStore) (name : GoString)

/-- One call. -/
def perform : FileCall → Prog FileReturn
  | .writeAt off data => do
      s.writeAt name off data
      return .done
  | .readAt off dst => do
      let (n, dst) ← s.readAt name off dst
      return .read n dst
  | .getSize => do
      let n ← s.getSize name
      return .size n
  | .resize newSize => do
      s.resize name newSize
      return .done
  | .remove => do
      s.remove name
      return .done

/-- A sequence of calls, and everything they return.  A call that aborts ends the
sequence. -/
def performAll : List FileCall → Prog (List FileReturn)
  | [] => return []
  | call :: rest => do
      let returned ← s.perform name call
      let others ← performAll rest
      return returned :: others

/-! ## Stores that look the same -/

/-- What the file uses the keys of the instance `a` for.  Keys that are not its own
are not looked at. -/
def sorting (a : Addr) : Redis.Sorting GoString where
  strings k := ∃ id, s.addr name id = a ∧ k = key name id
  sets k := k = stripesKey name
  disjoint := by
    rintro k ⟨id, -, rfl⟩ same
    exact key_ne_stripesKey name name id same

/-- The two stores look the same through the calls on the file `name`. -/
def SameFile (c d : Cluster) : Prop := ∀ a, SameView (s.sorting name a) (c a) (d a)

end DataStore

/-- A reply that `ReadAt` counts as nothing read.  Which of them it is depends on
whether there is a key. -/
inductive Nothing : ConnReply → Prop
  | nil : Nothing (.server .nil)
  | bulk : Nothing (.server (.bulk []))
  | filled (pos : ℕ) : Nothing (.filled pos [])

/-- The replies are the same for the calls on a file: nobody looks into the replies to a
transaction. -/
inductive SameAnswer : ConnReply → ConnReply → Prop
  | refl (reply : ConnReply) : SameAnswer reply reply
  | nothing {reply reply' : ConnReply} (left : Nothing reply) (right : Nothing reply') :
      SameAnswer reply reply'
  | array (replies replies' : List (Reply GoString)) :
      SameAnswer (.array replies) (.array replies')

theorem nothing_readReply_bulk (dst : Slice) : Nothing (readReply dst (.bulk [])) := by
  rw [readReply]
  split
  · exact .bulk
  · exact .filled dst.pos

theorem sameAnswer_readReply (dst : Slice) {reply reply' : Reply GoString}
    (same : SameReply reply reply') : SameAnswer (readReply dst reply) (readReply dst reply') := by
  cases same with
  | refl => exact .refl _
  | missing => exact .nothing .nil (nothing_readReply_bulk dst)
  | empty => exact .nothing (nothing_readReply_bulk dst) .nil

/-- The request uses the keys as they are sorted, and does not count deleted ones. -/
def Request.Sorted (S : Redis.Sorting GoString) (q : Request) : Prop :=
  match q.body with
  | .single cmd => cmd.Sorted S ∧ ∀ keys, cmd ≠ .unlink keys
  | .multi cmds => ∀ cmd ∈ cmds, cmd.Sorted S
  | .trimStripeScript key _ => S.strings key

namespace DataStore

variable {s : DataStore} {name : GoString} {c c' d : Cluster} {α : Type} {outcome : Option α}

theorem SameFile.refl (s : DataStore) (name : GoString) (c : Cluster) : s.SameFile name c c :=
  fun a => .refl _ (c a)

theorem SameFile.symm (same : s.SameFile name c d) : s.SameFile name d c := fun a => (same a).symm

/-- **A sorted request** on stores that look the same keeps them so, and is answered
alike. -/
theorem keeps_of_sorted {q : Request} (sorted : q.Sorted (s.sorting name q.addr)) :
    Program.Keeps serve (s.SameFile name) SameAnswer q := by
  intro c d same
  have here : SameView (s.sorting name q.addr) (q.body.exec q.dst (c q.addr)).1
      (q.body.exec q.dst (d q.addr)).1 ∧
      SameAnswer (q.body.exec q.dst (c q.addr)).2 (q.body.exec q.dst (d q.addr)).2 := by
    obtain ⟨addr, body, dst⟩ := q
    cases body with
    | single cmd =>
        exact ⟨(same addr).exec sorted.1,
          sameAnswer_readReply dst ((same addr).reply sorted.1 sorted.2)⟩
    | multi cmds => exact ⟨(same addr).execAll sorted, .array _ _⟩
    | trimStripeScript key stop =>
        have strings := (same addr).strings key sorted
        simp only [Body.exec, Redis.exec, strings]
        cases strAt? (d addr) key with
        | none => exact ⟨same addr, .refl _⟩
        | some bytes => exact ⟨(same addr).update _ _, .refl _⟩
  refine ⟨fun a => ?_, here.2⟩
  rw [serve_apply, serve_apply]
  split
  · rename_i there
    rw [there]
    exact here.1
  · exact same a

/-- The requests of a file use the keys as the file does. -/
theorem RequestOf.keeps {q : Request} (request : s.RequestOf name q) :
    Program.Keeps serve (s.SameFile name) SameAnswer q := by
  apply keeps_of_sorted
  cases request with
  | members client => exact ⟨rfl, by simp⟩
  | strlen id => exact ⟨⟨id, rfl, rfl⟩, by simp⟩
  | read stripe =>
      simp only [readStripe]
      split <;> exact ⟨⟨stripe.id, rfl, rfl⟩, by simp⟩
  | write stripe =>
      intro cmd member
      rcases List.mem_cons.mp member with rfl | member
      · exact rfl
      · obtain rfl := List.mem_singleton.mp member
        split <;> exact ⟨stripe.id, rfl, rfl⟩
  | remove id =>
      intro cmd member
      rcases List.mem_cons.mp member with rfl | member
      · exact rfl
      · obtain rfl := List.mem_singleton.mp member
        rintro k inKeys
        obtain rfl := List.mem_singleton.mp inKeys
        exact ⟨id, rfl, rfl⟩
  | trim id size =>
      simp only [trimStripe]
      split
      · exact ⟨⟨id, rfl, rfl⟩, by simp⟩
      · exact ⟨id, rfl, rfl⟩

/-! ## The calls make nothing of the differences -/

theorem lastIdOf_congr {r r' : ConnReply} (same : SameAnswer r r') : lastIdOf r = lastIdOf r' := by
  cases same with
  | refl => rfl
  | nothing left right => cases left <;> cases right <;> rfl
  | array => rfl

theorem mapM_lastIdOf_congr {rs rs' : List ConnReply} (same : List.Forall₂ SameAnswer rs rs') :
    rs.mapM lastIdOf = rs'.mapM lastIdOf := by
  induction same with
  | nil => rfl
  | cons first others ih => rw [List.mapM_cons, List.mapM_cons, lastIdOf_congr first, ih]

theorem collectReads_nothing {r : ConnReply} (nothing : Nothing r) (rest : List ConnReply) (n : ℤ)
    (dst : List UInt8) : collectReads (r :: rest) n dst = collectReads rest n dst := by
  cases nothing with
  | nil => simp [collectReads, readReplyInto]
  | bulk => simp [collectReads, readReplyInto]
  | filled pos => simp [collectReads, readReplyInto, fillBuffer]

/-- What a read makes of its replies is the same for answers that are. -/
theorem collectReads_congr {rs rs' : List ConnReply} (same : List.Forall₂ SameAnswer rs rs') (n : ℤ)
    (dst : List UInt8) : collectReads rs n dst = collectReads rs' n dst := by
  induction same generalizing n dst with
  | nil => rfl
  | cons first others ih =>
      cases first with
      | refl r =>
          simp only [collectReads]
          split
          · rfl
          · exact ih _ _
          · exact ih _ _
      | nothing left right =>
          rw [collectReads_nothing left, collectReads_nothing right]
          exact ih n dst
      | array => rfl

/-- So is whether an error is among them. -/
theorem err_mem_congr {rs rs' : List ConnReply} (same : List.Forall₂ SameAnswer rs rs') :
    ConnReply.server .err ∈ rs ↔ ConnReply.server .err ∈ rs' := by
  induction same with
  | nil => exact .rfl
  | cons first others ih =>
      rw [List.mem_cons, List.mem_cons, ih]
      cases first with
      | refl => exact .rfl
      | nothing left right => cases left <;> cases right <;> simp
      | array => simp

theorem respects_checkReplies (rs : List ConnReply) :
    Program.Respects SameAnswer (checkReplies rs) := by
  unfold checkReplies
  split <;> trivial

theorem respects_searchLastStripe : Program.Respects SameAnswer (s.searchLastStripe name) := by
  refine Program.respects_forkAll_bind (fun rs rs' same => ?_) fun rs => ?_
  · rw [mapM_lastIdOf_congr same]
  · split <;> trivial

/-- `GetSize` looks into the replies for the numbers only. -/
theorem respects_getSize : Program.Respects SameAnswer (s.getSize name) := by
  refine respects_searchLastStripe.bind fun ilast => ?_
  split
  · trivial
  · refine Program.Respects.bind ?_ fun _ => trivial
    rw [RedisClient.strlen, RedisClient.send]
    refine Program.respects_request_bind (fun r r' same => ?_) fun r => ?_
    · cases same with
      | refl => rfl
      | nothing left right => cases left <;> cases right <;> rfl
      | array => rfl
    · split <;> trivial

theorem respects_remove : Program.Respects SameAnswer (s.remove name) :=
  respects_searchLastStripe.bind fun _ =>
    Program.respects_forkAll_bind (fun _ _ _ => rfl) fun _ => trivial

theorem respects_writeAt {off : ℤ} {data : List UInt8} :
    Program.Respects SameAnswer (s.writeAt name off data) := by
  unfold writeAt
  split
  · trivial
  · exact Program.respects_forkAll_bind (fun _ _ _ => rfl) fun _ => trivial

/-- `ReadAt` counts a missing key and an empty string alike. -/
theorem respects_readAt {off : ℤ} {dst : List UInt8} :
    Program.Respects SameAnswer (s.readAt name off dst) := by
  unfold readAt
  split
  · trivial
  · refine Program.respects_forkAll_bind (fun rs rs' same => ?_) fun rs => ?_
    · rw [collectReads_congr same]
    · split <;> trivial

/-- `Resize` does not look at what its requests return, beyond errors. -/
theorem respects_resize {newSize : ℤ} :
    Program.Respects SameAnswer (s.resize name newSize) := by
  unfold resize
  split
  · trivial
  refine respects_getSize.bind fun curSize => ?_
  obtain ⟨curLastStripeID, curLastStripeLen⟩ := lastStripeInfo curSize s.stripeSize
  obtain ⟨newLastStripeID, newLastStripeLen⟩ := lastStripeInfo newSize s.stripeSize
  simp only
  split
  · refine Program.respects_forkAll_bind (fun rs rs' same => ?_) respects_checkReplies
    simp only [checkReplies, err_mem_congr same]
  · split
    · exact Program.respects_forkAll_bind (fun _ _ _ => rfl) fun _ => trivial
    · trivial

/-! ## What the calls return -/

/-- A call on a file sends requests of this file. -/
theorem requests_perform (call : FileCall) :
    Program.Issues (s.RequestOf name) (s.perform name call) := by
  cases call with
  | writeAt off data => exact requests_writeAt.bind fun _ => trivial
  | readAt off dst => exact requests_readAt.bind fun _ => trivial
  | getSize => exact requests_getSize.bind fun _ => trivial
  | resize newSize => exact requests_resize.bind fun _ => trivial
  | remove => exact requests_remove.bind fun _ => trivial

/-- No call tells answers apart that are the same. -/
theorem respects_perform (call : FileCall) :
    Program.Respects SameAnswer (s.perform name call) := by
  cases call with
  | writeAt off data => exact respects_writeAt.bind fun _ => trivial
  | readAt off dst => exact respects_readAt.bind fun _ => trivial
  | getSize => exact respects_getSize.bind fun _ => trivial
  | resize newSize => exact respects_resize.bind fun _ => trivial
  | remove => exact respects_remove.bind fun _ => trivial

theorem requests_performAll (calls : List FileCall) :
    Program.Issues (s.RequestOf name) (s.performAll name calls) := by
  induction calls with
  | nil => trivial
  | cons call rest ih => exact (requests_perform call).bind fun _ => ih.bind fun _ => trivial

theorem respects_performAll (calls : List FileCall) :
    Program.Respects SameAnswer (s.performAll name calls) := by
  induction calls with
  | nil => trivial
  | cons call rest ih => exact (respects_perform call).bind fun _ => ih.bind fun _ => trivial

/-- **Stores that look the same** give a program on the file the same outcomes. -/
theorem outcomes_congr {program : Prog α} (issues : Program.Issues (s.RequestOf name) program)
    (respects : Program.Respects SameAnswer program) (same : s.SameFile name c d) :
    Outcomes program c = Outcomes program d := by
  have half : ∀ {c d : Cluster}, s.SameFile name c d → Outcomes program c ⊆ Outcomes program d := by
    rintro c d same outcome ⟨c', performed⟩
    obtain ⟨d', performed', -⟩ := respects.lockstep .refl
      (issues.mono fun _ request => request.keeps) same performed
    exact ⟨d', performed'⟩
  exact Set.Subset.antisymm (half same) (half same.symm)

/-! ## Other files -/

/-- What a call on another file leaves as it is: the stripes and the sets of the
file `name` and the metadata of all inodes, on every instance, and so what is read
of the file. -/
structure Unaffected (s : DataStore) (name : GoString) (c c' : Cluster) : Prop where
  stripe : ∀ a id, c' a (key name id) = c a (key name id)
  stripes : ∀ a, c' a (stripesKey name) = c a (stripesKey name)
  mode : ∀ a path, c' a (modeKey path) = c a (modeKey path)
  children : ∀ a path, c' a (childrenKey path) = c a (childrenKey path)
  getSize : Outcomes (s.getSize name) c' = Outcomes (s.getSize name) c
  readAt : ∀ off dst, Outcomes (s.readAt name off dst) c' = Outcomes (s.readAt name off dst) c

/-- A store with the same keys of the file looks the same. -/
theorem sameFile_of_eq (stripe : ∀ a id, c a (key name id) = d a (key name id))
    (stripes : ∀ a, c a (stripesKey name) = d a (stripesKey name)) : s.SameFile name c d := by
  refine fun a => ⟨?_, ?_⟩
  · rintro k ⟨id, -, rfl⟩
    simp only [strAt?, stripe]
  · rintro k rfl
    simp only [setAt?, stripes]

/-- A key that is not one of the file `name` is left as it is by the calls on `name`. -/
theorem eq_of_perform {call : FileCall} {result : Option FileReturn}
    (performed : Exec (s.perform name call) c c' result) {k : StoreKey}
    (stripe : ∀ id, k ≠ .stripe name id) (stripes : k ≠ .stripes name) (a : Addr) :
    c' a k.redisKey = c a k.redisKey := by
  have kept : Program.Issues (fun q => ∀ d : Cluster, d a k.redisKey = c a k.redisKey →
      (serve q d).1 a k.redisKey = c a k.redisKey) (s.perform name call) := by
    refine (requests_perform call).mono fun q request d same => ?_
    rw [serve_of_not_mem_writes (fun inWrites => ?_) d a, same]
    rcases request.writes _ inWrites with set | ⟨id, string⟩
    · exact stripes (@StoreKey.redisKey_injective k (.stripes name) set)
    · exact stripe id (@StoreKey.redisKey_injective k (.stripe name id) string)
  exact kept.preserved rfl performed

/-- **The calls on one file are not seen by another**: no two things are ever stored
under one key, and a call on the file `name` leaves all that is not its own as it
is.  Names may be any strings, with colons and braces in them, and the call may be
any with any run, also one that is aborted.  What the other file looks like
afterwards is also said in terms of what `GetSize` and `ReadAt` can return. -/
theorem separate : Function.Injective StoreKey.redisKey ∧
    ∀ {s : DataStore} {name other : GoString}, name ≠ other →
      ∀ {call : FileCall} {c c' : Cluster} {result : Option FileReturn},
        Exec (s.perform name call) c c' result → s.Unaffected other c c' := by
  refine ⟨StoreKey.redisKey_injective, ?_⟩
  intro s name other distinct call c c' result performed
  have stripe : ∀ a id, c' a (key other id) = c a (key other id) := fun a id =>
    eq_of_perform (k := .stripe other id) performed (by simpa using Ne.symm distinct)
      (by simp) a
  have stripes : ∀ a, c' a (stripesKey other) = c a (stripesKey other) := fun a =>
    eq_of_perform (k := .stripes other) performed (by simp) (by simpa using Ne.symm distinct) a
  have same : s.SameFile other c' c := sameFile_of_eq stripe stripes
  exact {
    stripe := stripe
    stripes := stripes
    mode := fun a path => eq_of_perform (k := .mode path) performed (by simp) (by simp) a
    children := fun a path => eq_of_perform (k := .children path) performed (by simp) (by simp) a
    getSize := outcomes_congr requests_getSize respects_getSize same
    readAt := fun off dst => outcomes_congr requests_readAt respects_readAt same }

/-- Two files whose names begin alike. -/
theorem separate_from_digits : (smallStore 2).Unaffected ['f', ':', '0'] (fun _ _ => none)
    (run ((smallStore 2).perform ['f'] (.writeAt 0 [1, 2, 3])) fun _ _ => none).1 :=
  separate.2 (by decide) (Program.exec_run serve _ _)

/-! ## Removed files -/

/-- What is left of a file when some of its stripes have been removed.  They may be
removed in any order, and some of them may not be there. -/
theorem removed_runAll (inv : s.FileInv c name) (ids : List ℤ) :
    s.FileInv (Program.runAll serve (ids.map (s.removeStripe name)) c).1 name ∧
      ∀ a, ∀ m ∈ idsAt (Program.runAll serve (ids.map (s.removeStripe name)) c).1 name a,
        m ∈ idsAt c name a ∧ ∀ id ∈ ids, s.addr name id = a → m ≠ formatInt id := by
  induction ids generalizing c with
  | nil => exact ⟨inv, fun a m member => ⟨member, by simp⟩⟩
  | cons id rest ih =>
      obtain ⟨kept, left⟩ := ih (inv.removeStripe id)
      refine ⟨kept, fun a m member => ?_⟩
      obtain ⟨before, others⟩ := left a m member
      rw [(effect_removeStripe inv id).mem_idsAt] at before
      by_cases here : a = s.addr name id
      · subst here
        rw [if_pos rfl] at before
        refine ⟨before.1, fun id' inIds there => ?_⟩
        rcases List.mem_cons.mp inIds with rfl | later
        · exact before.2
        · exact others id' later there
      · rw [if_neg here] at before
        refine ⟨before, fun id' inIds there => ?_⟩
        rcases List.mem_cons.mp inIds with rfl | later
        · exact absurd there.symm here
        · exact others id' later there

/-- **A removed file** has no stripe, and none is registered. -/
theorem empty_of_exec_remove (inv : s.FileInv c name) {result : Option Unit}
    (removed : Exec (s.remove name) c c' result) :
    s.FileInv c' name ∧ (∀ id, s.stripe c' name id = []) ∧ ∀ a, idsAt c' name a = [] := by
  rw [remove, Exec, Program.exec_bind_iff] at removed
  rcases removed with ⟨n, middle, search, rest⟩ | ⟨search, -⟩
  · obtain ⟨rfl, n', same, last⟩ := (exec_searchLastStripe_iff inv).mp search
    obtain rfl := Option.some.inj same
    rw [Program.exec_forkAll_map_bind_iff] at rest
    obtain ⟨order, perm, done⟩ := rest
    obtain ⟨rfl, -⟩ := Program.exec_ret_iff.mp done
    obtain ⟨kept, left⟩ := removed_runAll inv order
    have unregistered : ∀ a, idsAt (Program.runAll serve (order.map (s.removeStripe name))
        middle).1 name a = [] := by
      intro a
      rw [List.eq_nil_iff_forall_not_mem]
      intro m member
      obtain ⟨before, others⟩ := left a m member
      obtain ⟨id, nonneg, rfl, rfl, -⟩ := inv.ofRegistered a m before
      have upper := last.le id before
      exact others id (perm.mem_iff.mpr (mem_idsFrom.mpr ⟨nonneg, by omega⟩)) rfl rfl
    refine ⟨kept, fun id => ?_, unregistered⟩
    by_contra stored
    have registered := kept.registered id stored
    rw [Registered, unregistered] at registered
    exact absurd registered List.not_mem_nil
  · obtain ⟨-, n, same, -⟩ := (exec_searchLastStripe_iff inv).mp search
    cases same

/-- A file without stripes looks like one that has never been used. -/
theorem sameFile_of_empty (inv : s.FileInv c name) (stripes : ∀ id, s.stripe c name id = [])
    (ids : ∀ a, idsAt c name a = []) : s.SameFile name c fun _ _ => none := by
  refine fun a => ⟨?_, ?_⟩
  · rintro k ⟨id, rfl, rfl⟩
    have typed : strAt? (c (s.addr name id)) (key name id) =
      some (s.stripe c name id) := inv.noSet id
    rw [typed, stripes]
    rfl
  · rintro k rfl
    have typed : setAt? (c a) (stripesKey name) = some (idsAt c name a) := inv.noString a
    rw [typed, ids]
    rfl

/-- **A removed file is forgotten**: what a later sequence of calls returns is what
it returns on an empty store.  All calls are compared by the outcomes they can have,
in whatever order their goroutines are served.  The store after the removal need not
be empty; it looks the same through the calls on the file, and such stores stay so.
-/
theorem remove_forgets (reached : s.Reachable c)
    (removed : Exec (s.remove name) c c' (some ())) (calls : List FileCall) :
    Outcomes (s.performAll name calls) c' =
      Outcomes (s.performAll name calls) fun _ _ => none := by
  obtain ⟨inv, stripes, ids⟩ := empty_of_exec_remove (reached.storeInv name) removed
  exact outcomes_congr (requests_performAll calls) (respects_performAll calls)
    (sameFile_of_empty inv stripes ids)

/-- A file of three bytes is removed, and then asked for its size, cut and read. -/
theorem remove_forgets_threeBytes :
    Outcomes ((smallStore 2).performAll ['f'] [.getSize, .resize 1, .readAt 0 [7, 7]])
        (run ((smallStore 2).remove ['f'])
          (smallStore.afterWrite (smallStore 2) 0 [1, 2, 3])).1 =
      Outcomes ((smallStore 2).performAll ['f'] [.getSize, .resize 1, .readAt 0 [7, 7]])
        fun _ _ => none := by
  have performed := Program.exec_run serve ((smallStore 2).remove ['f'])
    (smallStore.afterWrite (smallStore 2) 0 [1, 2, 3])
  have returned : (run ((smallStore 2).remove ['f'])
      (smallStore.afterWrite (smallStore 2) 0 [1, 2, 3])).2 = some () := by decide +kernel
  rw [show (Program.run serve ((smallStore 2).remove ['f'])
    (smallStore.afterWrite (smallStore 2) 0 [1, 2, 3])).2 = _ from returned] at performed
  exact remove_forgets smallStore.quiet_threeBytes.reachable performed _

end DataStore

end Pdwfs
