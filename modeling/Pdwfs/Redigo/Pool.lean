import Mathlib

/-!
# The pool of connections

The connections of a client to its instance are kept in a pool.  Goroutines take a
connection out of it (`Get`) and give it back (`Close` of the connection, `put`);
the pool dials new ones up to a limit, keeps some of them idle and closes the
others.  All of this happens in critical sections, which are the steps below;
connections are dialed and closed outside of them.

* `Pool.Step` — what one goroutine does next, `Pool.Run` — any number of goroutines,
  in any order.
* `Pool.Exclusive` — a connection is idle, or used by one goroutine, and not closed.
* `Pool.Counted` — what `active` and the channel count.

Idle connections are not closed with time, not tested before they are handed out,
and live as long as the pool, as the clients configure it.

## Steps

A goroutine in `Get` or `put` holds the mutex for a while, lets it go to dial or to
close a connection, and takes it again.  Between these parts anything can happen to
the pool.  `Phase` is where a goroutine is, with what it has in its hands, and a
step takes one goroutine from one phase to the next.  The only step that is not one
of a goroutine in `Get` or `put` is the one that closes the pool.

## Two invariants

That no two goroutines have one connection is a matter of who has it: the idle list,
a goroutine, or nobody any more.  Each step hands connections over, and the multiset
of those that somebody has changes only when one is dialed or closed.  This is the
proof (`Exclusive.exchange`).

That there are not too many connections is a matter of counting.  With a limit,
`Get` takes a token from a channel first, and `active` is what is idle or accounted
for by a goroutine.  The sums over all goroutines need them to be finitely many, so
this invariant is stated for these only.
-/

namespace Redigo

/-- A connection, in the order of dialing. -/
abbrev ConnId := ℕ

/-- The limits of a pool. -/
structure PoolConfig where
  maxIdle : ℕ
  maxActive : ℕ
  wait : Bool

/-- Whether `Get` waits for a token of the channel. -/
def PoolConfig.Limited (conf : PoolConfig) : Prop := conf.wait = true ∧ 0 < conf.maxActive

instance (conf : PoolConfig) : Decidable conf.Limited :=
  inferInstanceAs (Decidable (conf.wait = true ∧ 0 < conf.maxActive))

/-- Where a goroutine is. -/
inductive Phase
  /-- It does not use the pool. -/
  | out
  /-- In `Get`, in front of the channel. -/
  | waiting
  /-- In `Get`, in front of the mutex. -/
  | entered
  | dialing
  | holding (c : ConnId)
  /-- In `put`, in front of the mutex. -/
  | putting (c : ConnId) (forceClose : Bool)
  /-- In `put`, with a connection to be closed. -/
  | closing (c : ConnId)
  /-- `Get` has failed. -/
  | failed
  deriving DecidableEq

/-- The connection that a goroutine has to itself. -/
def Phase.conn? : Phase → Option ConnId
  | .holding c => some c
  | .putting c _ => some c
  | .closing c => some c
  | _ => none

/-- Whether a goroutine accounts for one of the open connections. -/
def Phase.counted : Phase → ℕ
  | .dialing => 1
  | .holding _ => 1
  | .putting _ _ => 1
  | .closing _ => 1
  | _ => 0

/-- Whether a goroutine has taken a token. -/
def Phase.token : Phase → ℕ
  | .entered => 1
  | phase => phase.counted

variable {ι : Type}

/-- A pool and its goroutines.  `shut` is not a field of the source; it is there to
say that a connection which has been closed is not used again. -/
structure Pool (ι : Type) where
  closed : Bool
  /-- The number of open connections. -/
  active : ℤ
  /-- The number of tokens in the channel. -/
  ch : ℕ
  /-- Front first. -/
  idle : List ConnId
  /-- The number of connections dialed so far. -/
  dialed : ConnId
  /-- The connections that have been closed. -/
  shut : Set ConnId
  phase : ι → Phase

namespace Pool

/-- A new pool. -/
def new (conf : PoolConfig) : Pool ι where
  closed := false
  active := 0
  ch := conf.maxActive
  idle := []
  dialed := 0
  shut := ∅
  phase := fun _ => .out

/-- Give a token back.  Nothing is sent on the channel of a closed pool. -/
def giveBack (conf : PoolConfig) (p : Pool ι) : Pool ι :=
  if conf.Limited ∧ p.closed = false then { p with ch := p.ch + 1 } else p

section GiveBack

variable (conf : PoolConfig) (p : Pool ι)

@[simp] theorem giveBack_closed : (p.giveBack conf).closed = p.closed := by
  unfold giveBack
  split <;> rfl

@[simp] theorem giveBack_active : (p.giveBack conf).active = p.active := by
  unfold giveBack
  split <;> rfl

@[simp] theorem giveBack_idle : (p.giveBack conf).idle = p.idle := by
  unfold giveBack
  split <;> rfl

@[simp] theorem giveBack_dialed : (p.giveBack conf).dialed = p.dialed := by
  unfold giveBack
  split <;> rfl

@[simp] theorem giveBack_shut : (p.giveBack conf).shut = p.shut := by
  unfold giveBack
  split <;> rfl

@[simp] theorem giveBack_phase : (p.giveBack conf).phase = p.phase := by
  unfold giveBack
  split <;> rfl

theorem giveBack_ch (limited : conf.Limited) (opened : p.closed = false) :
    (p.giveBack conf).ch = p.ch + 1 := by
  rw [giveBack, if_pos ⟨limited, opened⟩]

end GiveBack

variable [DecidableEq ι]

/-- The goroutine `g` goes on to `phase`. -/
def move (p : Pool ι) (g : ι) (phase : Phase) : Pool ι :=
  { p with phase := Function.update p.phase g phase }

section Move

variable (p : Pool ι) (g : ι) (phase : Phase)

@[simp] theorem move_closed : (p.move g phase).closed = p.closed := rfl
@[simp] theorem move_active : (p.move g phase).active = p.active := rfl
@[simp] theorem move_ch : (p.move g phase).ch = p.ch := rfl
@[simp] theorem move_idle : (p.move g phase).idle = p.idle := rfl
@[simp] theorem move_dialed : (p.move g phase).dialed = p.dialed := rfl
@[simp] theorem move_shut : (p.move g phase).shut = p.shut := rfl

theorem move_phase : (p.move g phase).phase = Function.update p.phase g phase := rfl

end Move

/-- One critical section, or what is done between two of them.  A reader can find
each of them in `Get`, `get` or `put`. -/
inductive Step (conf : PoolConfig) : Pool ι → Pool ι → Prop
  | get {p : Pool ι} (g : ι) (here : p.phase g = .out) : Step conf p (p.move g .waiting)
  /-- Receive from the channel. -/
  | receive {p : Pool ι} (g : ι) (here : p.phase g = .waiting) (limited : conf.Limited)
      (token : 0 < p.ch) : Step conf p ({ p with ch := p.ch - 1 }.move g .entered)
  /-- Receive from the channel when it is closed and empty. -/
  | receiveClosed {p : Pool ι} (g : ι) (here : p.phase g = .waiting) (limited : conf.Limited)
      (empty : p.ch = 0) (closed : p.closed = true) : Step conf p (p.move g .entered)
  | pass {p : Pool ι} (g : ι) (here : p.phase g = .waiting) (free : ¬conf.Limited) :
      Step conf p (p.move g .entered)
  /-- Take the connection at the front of the idle list. -/
  | popFront {p : Pool ι} (g : ι) (here : p.phase g = .entered) {c : ConnId} {rest : List ConnId}
      (idle : p.idle = c :: rest) : Step conf p ({ p with idle := rest }.move g (.holding c))
  /-- `Get` on a closed pool. -/
  | refuse {p : Pool ι} (g : ι) (here : p.phase g = .entered) (idle : p.idle = [])
      (closed : p.closed = true) : Step conf p (p.move g .failed)
  /-- The pool is exhausted and does not wait. -/
  | exhausted {p : Pool ι} (g : ι) (here : p.phase g = .entered) (idle : p.idle = [])
      (opened : p.closed = false) (exhausted : conf.wait = false ∧ 0 < conf.maxActive ∧
        (conf.maxActive : ℤ) ≤ p.active) : Step conf p (p.move g .failed)
  | dial {p : Pool ι} (g : ι) (here : p.phase g = .entered) (idle : p.idle = [])
      (opened : p.closed = false) (room : ¬(conf.wait = false ∧ 0 < conf.maxActive ∧
        (conf.maxActive : ℤ) ≤ p.active)) :
      Step conf p ({ p with active := p.active + 1 }.move g .dialing)
  | dialed {p : Pool ι} (g : ι) (here : p.phase g = .dialing) :
      Step conf p ({ p with dialed := p.dialed + 1 }.move g (.holding p.dialed))
  | dialFailed {p : Pool ι} (g : ι) (here : p.phase g = .dialing) :
      Step conf p (({ p with active := p.active - 1 }.giveBack conf).move g .failed)
  /-- The connection is given back; it is closed if there has been an error. -/
  | put {p : Pool ι} (g : ι) {c : ConnId} (here : p.phase g = .holding c) (forceClose : Bool) :
      Step conf p (p.move g (.putting c forceClose))
  /-- Keep the connection. -/
  | pushFront {p : Pool ι} (g : ι) {c : ConnId} (here : p.phase g = .putting c false)
      (opened : p.closed = false) (room : (c :: p.idle).length ≤ conf.maxIdle) :
      Step conf p (({ p with idle := c :: p.idle }.giveBack conf).move g .out)
  /-- Keep the connection, and close the one at the back of the idle list. -/
  | popBack {p : Pool ι} (g : ι) {c : ConnId} (here : p.phase g = .putting c false)
      (opened : p.closed = false) (full : conf.maxIdle < (c :: p.idle).length) :
      Step conf p ({ p with idle := (c :: p.idle).dropLast }.move g
        (.closing ((c :: p.idle).getLast (List.cons_ne_nil _ _))))
  /-- Do not keep the connection. -/
  | discard {p : Pool ι} (g : ι) {c : ConnId} {forceClose : Bool}
      (here : p.phase g = .putting c forceClose) (why : p.closed = true ∨ forceClose = true) :
      Step conf p (p.move g (.closing c))
  /-- Close the connection and leave `put`. -/
  | close {p : Pool ι} (g : ι) {c : ConnId} (here : p.phase g = .closing c) :
      Step conf p (({ p with active := p.active - 1, shut := insert c p.shut }.giveBack
        conf).move g .out)
  /-- `Close` of the pool. -/
  | shutdown {p : Pool ι} (opened : p.closed = false) :
      Step conf p { p with
        closed := true, active := p.active - p.idle.length, idle := [],
        shut := p.shut ∪ {c | c ∈ p.idle} }

/-- What is reached by any number of goroutines, in any order. -/
def Run (conf : PoolConfig) : Pool ι → Pool ι → Prop := Relation.ReflTransGen (Step conf)

/-! ## No connection is used twice -/

/-- Every connection is idle, or used by one goroutine, or closed. -/
structure Exclusive (p : Pool ι) : Prop where
  /-- No connection is in the idle list twice. -/
  nodup : p.idle.Nodup
  idle : ∀ c ∈ p.idle, c < p.dialed ∧ c ∉ p.shut
  held : ∀ g c, (p.phase g).conn? = some c → c < p.dialed ∧ c ∉ p.shut ∧ c ∉ p.idle
  /-- Two goroutines do not have one connection. -/
  once : ∀ g h c, (p.phase g).conn? = some c → (p.phase h).conn? = some c → g = h
  shut : ∀ c ∈ p.shut, c < p.dialed

omit [DecidableEq ι] in
theorem exclusive_new (conf : PoolConfig) : Exclusive (new conf : Pool ι) where
  nodup := List.nodup_nil
  idle := by simp [new]
  held := by simp [new, Phase.conn?]
  once := by simp [new, Phase.conn?]
  shut := by simp [new]

/-- Who holds a connection once `g` has gone on. -/
theorem conn_move {p : Pool ι} {g h : ι} {phase : Phase} {c : ConnId}
    (held : ((p.move g phase).phase h).conn? = some c) :
    h = g ∧ phase.conn? = some c ∨ h ≠ g ∧ (p.phase h).conn? = some c := by
  by_cases same : h = g
  · subst same
    exact .inl ⟨rfl, by simpa [move_phase] using held⟩
  · exact .inr ⟨same, by simpa [move_phase, same] using held⟩

/-- The step of a goroutine that keeps its connection, or has none. -/
theorem Exclusive.move {p p' : Pool ι} (exclusive : p.Exclusive) {g : ι} {phase : Phase}
    (keeps : ∀ c, phase.conn? = some c → (p.phase g).conn? = some c)
    (idle : p'.idle = p.idle) (dialed : p'.dialed = p.dialed) (shut : p'.shut = p.shut)
    (phases : p'.phase = p.phase) : (p'.move g phase).Exclusive := by
  have conn : ∀ h c, ((p'.move g phase).phase h).conn? = some c → (p.phase h).conn? = some c := by
    intro h c held
    rcases conn_move held with ⟨rfl, mine⟩ | ⟨-, other⟩
    · exact keeps c mine
    · rwa [phases] at other
  constructor
  · exact idle ▸ exclusive.nodup
  · simp only [move_idle, move_dialed, move_shut, idle, dialed, shut]
    exact exclusive.idle
  · simp only [move_idle, move_dialed, move_shut, idle, dialed, shut]
    exact fun h c held => exclusive.held h c (conn h c held)
  · exact fun h k c held held' => exclusive.once h k c (conn h c held) (conn k c held')
  · simp only [move_dialed, move_shut, dialed, shut]
    exact exclusive.shut

omit [DecidableEq ι] in
/-- What `g` and the idle list have between them. -/
theorem Exclusive.nodup_own {p : Pool ι} (exclusive : p.Exclusive) (g : ι) :
    (p.idle ++ (p.phase g).conn?.toList).Nodup := by
  refine exclusive.nodup.append (by cases (p.phase g).conn? <;> simp) fun c idle own => ?_
  exact (exclusive.held g c (by simpa using own)).2.2 idle

/-- The step of a goroutine that exchanges connections with the idle list. -/
theorem Exclusive.exchange {p p' : Pool ι} (exclusive : p.Exclusive) {g : ι} {phase : Phase}
    (perm : (p'.idle ++ phase.conn?.toList).Perm (p.idle ++ (p.phase g).conn?.toList))
    (dialed : p'.dialed = p.dialed) (shut : p'.shut = p.shut) (phases : p'.phase = p.phase) :
    (p'.move g phase).Exclusive := by
  have nodup := perm.nodup_iff.mpr (exclusive.nodup_own g)
  have old : ∀ c ∈ p'.idle ++ phase.conn?.toList, c < p.dialed ∧ c ∉ p.shut := by
    intro c member
    rcases List.mem_append.mp (perm.mem_iff.mp member) with idle | own
    · exact exclusive.idle c idle
    · obtain ⟨below, opened, -⟩ := exclusive.held g c (by simpa using own)
      exact ⟨below, opened⟩
  have others (h : ι) (c : ConnId) (other : h ≠ g) (held : (p'.phase h).conn? = some c) :
      c ∉ p'.idle ++ phase.conn?.toList := by
    intro member
    rw [phases] at held
    rcases List.mem_append.mp (perm.mem_iff.mp member) with idle | own
    · exact (exclusive.held h c held).2.2 idle
    · exact other (exclusive.once h g c held (by simpa using own))
  constructor
  · exact (List.nodup_append.mp nodup).1
  · intro c member
    rw [move_dialed, move_shut, dialed, shut]
    exact old c (List.mem_append_left _ member)
  · intro h c held
    rw [move_dialed, move_shut, move_idle, dialed, shut]
    rcases conn_move held with ⟨rfl, mine⟩ | ⟨other, theirs⟩
    · have own : c ∈ phase.conn?.toList := by simpa using mine
      obtain ⟨below, opened⟩ := old c (List.mem_append_right _ own)
      exact ⟨below, opened, fun idle => List.disjoint_of_nodup_append nodup idle own⟩
    · obtain ⟨below, opened, -⟩ := exclusive.held h c (by rwa [phases] at theirs)
      exact ⟨below, opened, fun idle => others h c other theirs (List.mem_append_left _ idle)⟩
  · intro h k c held held'
    rcases conn_move held with ⟨rfl, mine⟩ | ⟨other, theirs⟩ <;>
      rcases conn_move held' with ⟨rfl, mine'⟩ | ⟨other', theirs'⟩
    · rfl
    · exact absurd (List.mem_append_right _ (by simpa using mine)) (others k c other' theirs')
    · exact absurd (List.mem_append_right _ (by simpa using mine')) (others h c other theirs)
    · rw [phases] at theirs theirs'
      exact exclusive.once h k c theirs theirs'
  · intro c member
    rw [move_shut, shut] at member
    rw [move_dialed, dialed]
    exact exclusive.shut c member

/-- A connection that has just been dialed has never been anybody's. -/
theorem Exclusive.dialed {p : Pool ι} (exclusive : p.Exclusive) (g : ι) :
    ({ p with dialed := p.dialed + 1 }.move g (.holding p.dialed)).Exclusive := by
  constructor
  · exact exclusive.nodup
  · intro c member
    obtain ⟨below, opened⟩ := exclusive.idle c member
    exact ⟨Nat.lt_succ_of_lt below, opened⟩
  · intro h c held
    rcases conn_move held with ⟨rfl, mine⟩ | ⟨-, other⟩
    · obtain rfl : p.dialed = c := by simpa [Phase.conn?] using mine
      exact ⟨Nat.lt_succ_self _, fun member => lt_irrefl _ (exclusive.shut _ member),
        fun member => lt_irrefl _ (exclusive.idle _ member).1⟩
    · obtain ⟨below, opened, busy⟩ := exclusive.held h c other
      exact ⟨Nat.lt_succ_of_lt below, opened, busy⟩
  · intro h k c held held'
    rcases conn_move held with ⟨rfl, mine⟩ | ⟨-, other⟩ <;>
      rcases conn_move held' with ⟨rfl, mine'⟩ | ⟨-, other'⟩
    · rfl
    · obtain rfl : p.dialed = c := by simpa [Phase.conn?] using mine
      exact absurd (exclusive.held k _ other').1 (lt_irrefl _)
    · obtain rfl : p.dialed = c := by simpa [Phase.conn?] using mine'
      exact absurd (exclusive.held h _ other).1 (lt_irrefl _)
    · exact exclusive.once h k c other other'
  · exact fun c member => Nat.lt_succ_of_lt (exclusive.shut c member)

/-- A goroutine closes the connection it holds. -/
theorem Exclusive.close {conf : PoolConfig} {p : Pool ι} (exclusive : p.Exclusive) {g : ι}
    {c : ConnId} (here : p.phase g = .closing c) :
    (({ p with active := p.active - 1, shut := insert c p.shut }.giveBack conf).move g
      .out).Exclusive := by
  have mine : (p.phase g).conn? = some c := by simp [here, Phase.conn?]
  obtain ⟨below, -, busy⟩ := exclusive.held g c mine
  constructor
  · simpa using exclusive.nodup
  · intro d member
    rw [move_idle, giveBack_idle] at member
    obtain ⟨below', opened⟩ := exclusive.idle d member
    have other : d ≠ c := fun same => busy (same ▸ member)
    simpa [other] using ⟨below', opened⟩
  · intro h d held
    rcases conn_move held with ⟨-, none⟩ | ⟨other, theirs⟩
    · simp [Phase.conn?] at none
    · rw [giveBack_phase] at theirs
      have different : d ≠ c := fun same => other (exclusive.once h g c (same ▸ theirs) mine)
      simpa [different] using exclusive.held h d theirs
  · intro h k d held held'
    rcases conn_move held with ⟨-, none⟩ | ⟨-, theirs⟩
    · simp [Phase.conn?] at none
    · rcases conn_move held' with ⟨-, none⟩ | ⟨-, theirs'⟩
      · simp [Phase.conn?] at none
      · rw [giveBack_phase] at theirs theirs'
        exact exclusive.once h k d theirs theirs'
  · intro d member
    rw [move_shut, giveBack_shut] at member
    rw [move_dialed, giveBack_dialed]
    rcases member with rfl | old
    · exact below
    · exact exclusive.shut d old

omit [DecidableEq ι] in
/-- When the pool is closed, the connections of the idle list are closed, and those
that are in use are left to their goroutines. -/
theorem Exclusive.shutdown {p : Pool ι} (exclusive : p.Exclusive) :
    Exclusive { p with
      closed := true, active := p.active - p.idle.length, idle := [],
      shut := p.shut ∪ {c | c ∈ p.idle} } where
  nodup := List.nodup_nil
  idle := by simp
  held g c held := by
    obtain ⟨below, opened, busy⟩ := exclusive.held g c held
    exact ⟨below, by simp [opened, busy], by simp⟩
  once := exclusive.once
  shut := by
    rintro c (old | idle)
    · exact exclusive.shut c old
    · exact (exclusive.idle c idle).1

/-- **Every step keeps the connections apart.** -/
theorem Exclusive.step {conf : PoolConfig} {p p' : Pool ι} (exclusive : p.Exclusive)
    (step : Step conf p p') : p'.Exclusive := by
  cases step with
  | get g here => exact exclusive.move (by simp [Phase.conn?]) rfl rfl rfl rfl
  | receive g here limited token => exact exclusive.move (by simp [Phase.conn?]) rfl rfl rfl rfl
  | receiveClosed g here limited empty closed =>
      exact exclusive.move (by simp [Phase.conn?]) rfl rfl rfl rfl
  | pass g here free => exact exclusive.move (by simp [Phase.conn?]) rfl rfl rfl rfl
  | popFront g here idle =>
      refine exclusive.exchange ?_ rfl rfl rfl
      simp [here, idle, Phase.conn?]
  | refuse g here idle closed => exact exclusive.move (by simp [Phase.conn?]) rfl rfl rfl rfl
  | exhausted g here idle opened exhausted =>
      exact exclusive.move (by simp [Phase.conn?]) rfl rfl rfl rfl
  | dial g here idle opened room => exact exclusive.move (by simp [Phase.conn?]) rfl rfl rfl rfl
  | dialed g here => exact exclusive.dialed g
  | dialFailed g here =>
      exact exclusive.move (by simp [Phase.conn?]) (by simp) (by simp) (by simp) (by simp)
  | put g here forceClose => exact exclusive.move (by simp [here, Phase.conn?]) rfl rfl rfl rfl
  | pushFront g here opened room =>
      refine exclusive.exchange ?_ (by simp) (by simp) (by simp)
      simpa [here, Phase.conn?] using (List.perm_append_singleton _ _).symm
  | popBack g here opened full =>
      refine exclusive.exchange ?_ rfl rfl rfl
      simp only [here, Phase.conn?, Option.toList_some]
      rw [List.dropLast_append_getLast]
      exact (List.perm_append_singleton _ _).symm
  | discard g here why => exact exclusive.move (by simp [here, Phase.conn?]) rfl rfl rfl rfl
  | close g here => exact exclusive.close here
  | shutdown opened => exact exclusive.shutdown

/-! ## The limits -/

section Limits

variable [Fintype ι]

/-- The number of goroutines that account for an open connection. -/
def busy (p : Pool ι) : ℕ := ∑ g, (p.phase g).counted

/-- The number of goroutines that have taken a token. -/
def taken (p : Pool ι) : ℕ := ∑ g, (p.phase g).token

/-- What the step of one goroutine changes in a sum over all of them. -/
theorem sum_move (weight : Phase → ℕ) (p : Pool ι) (g : ι) (phase : Phase) :
    (∑ h, weight ((p.move g phase).phase h)) + weight (p.phase g) =
      (∑ h, weight (p.phase h)) + weight phase := by
  have others : ∑ h ∈ Finset.univ.erase g, weight ((p.move g phase).phase h) =
      ∑ h ∈ Finset.univ.erase g, weight (p.phase h) := by
    refine Finset.sum_congr rfl fun h member => ?_
    rw [move_phase, Function.update_of_ne (Finset.ne_of_mem_erase member)]
  rw [← Finset.add_sum_erase _ _ (Finset.mem_univ g), others,
    ← Finset.add_sum_erase _ (fun h => weight (p.phase h)) (Finset.mem_univ g), move_phase,
    Function.update_self]
  omega

theorem counted_le_token (phase : Phase) : phase.counted ≤ phase.token := by
  cases phase <;> simp [Phase.counted, Phase.token]

omit [DecidableEq ι] in
/-- A goroutine with a token that is not used yet leaves room for one more connection. -/
theorem busy_lt_taken {p : Pool ι} {g : ι} (here : p.phase g = .entered) : p.busy < p.taken :=
  Finset.sum_lt_sum (fun h _ => counted_le_token (p.phase h))
    ⟨g, Finset.mem_univ g, by simp [here, Phase.counted, Phase.token]⟩

/-- What the fields of the pool count. -/
structure Counted (conf : PoolConfig) (p : Pool ι) : Prop where
  /-- A connection that counts is idle, or a goroutine has it. -/
  active : p.active = p.idle.length + p.busy
  /-- A token is in the channel, or a goroutine has it. -/
  tokens : conf.Limited → p.closed = false → p.ch + p.taken = conf.maxActive
  idle_le : p.idle.length ≤ conf.maxIdle
  active_le : 0 < conf.maxActive → p.active ≤ conf.maxActive
  idle_of_closed : p.closed = true → p.idle = []

omit [DecidableEq ι] in
theorem counted_new (conf : PoolConfig) : Counted conf (new conf : Pool ι) where
  active := by simp [new, busy, Phase.counted]
  tokens _ _ := by simp [new, taken, Phase.token, Phase.counted]
  idle_le := Nat.zero_le _
  active_le _ := by simp [new]
  idle_of_closed := by simp [new]

/-- The step of one goroutine, when the fields change with what it accounts for. -/
theorem Counted.move {conf : PoolConfig} {p p' : Pool ι} (counts : Counted conf p) {g : ι}
    {phase : Phase} (phases : p'.phase = p.phase) (closed : p'.closed = p.closed)
    (active : p'.active + p.idle.length + (p.phase g).counted =
      p.active + p'.idle.length + phase.counted)
    (tokens : conf.Limited → p.closed = false → p'.ch + phase.token = p.ch + (p.phase g).token)
    (idle_le : p'.idle.length ≤ conf.maxIdle)
    (active_le : 0 < conf.maxActive → p'.active ≤ conf.maxActive)
    (idle_of_closed : p.closed = true → p'.idle = []) : Counted conf (p'.move g phase) := by
  have sums (weight : Phase → ℕ) : (∑ h, weight ((p'.move g phase).phase h)) +
      weight (p.phase g) = (∑ h, weight (p.phase h)) + weight phase := by
    have moved := sum_move weight p' g phase
    rwa [phases] at moved
  constructor
  · have old := counts.active
    have moved := sums Phase.counted
    simp only [busy, move_active, move_idle] at old ⊢
    omega
  · intro limited opened
    rw [move_closed, closed] at opened
    have old := counts.tokens limited opened
    have given := tokens limited opened
    have moved := sums Phase.token
    simp only [taken, move_ch] at old ⊢
    omega
  · exact idle_le
  · exact active_le
  · rwa [move_closed, closed]

omit [DecidableEq ι] in
/-- There is room for the connection that is about to be dialed. -/
theorem Counted.room {conf : PoolConfig} {p : Pool ι} (counts : Counted conf p) {g : ι}
    (here : p.phase g = .entered) (idle : p.idle = []) (opened : p.closed = false)
    (room : ¬(conf.wait = false ∧ 0 < conf.maxActive ∧ (conf.maxActive : ℤ) ≤ p.active))
    (bounded : 0 < conf.maxActive) : p.active + 1 ≤ conf.maxActive := by
  by_cases waits : conf.wait = true
  · -- The token of `g` stands for a connection that is not open yet.
    have tokens := counts.tokens ⟨waits, bounded⟩ opened
    have spare := busy_lt_taken here
    have active := counts.active
    rw [idle, List.length_nil] at active
    omega
  · simp only [Bool.not_eq_true] at waits
    simp only [waits, bounded, true_and] at room
    omega

/-- **Every step keeps the counts.** -/
theorem Counted.step {conf : PoolConfig} {p p' : Pool ι} (counts : Counted conf p)
    (step : Step conf p p') : Counted conf p' := by
  cases step with
  | get g here =>
      exact counts.move rfl rfl (by simp [here, Phase.counted])
        (by simp [here, Phase.token, Phase.counted]) counts.idle_le counts.active_le
        counts.idle_of_closed
  -- A token is taken from the channel: there is one less in it, and the goroutine counts
  -- for one.
  | receive g here limited token =>
      refine counts.move rfl rfl (by simp [here, Phase.counted]) (fun _ _ => ?_)
        counts.idle_le counts.active_le counts.idle_of_closed
      simp only [here, Phase.token, Phase.counted]
      omega
  | receiveClosed g here limited empty closed =>
      exact counts.move rfl rfl (by simp [here, Phase.counted])
        (fun _ opened => by simp [closed] at opened) counts.idle_le counts.active_le
        counts.idle_of_closed
  | pass g here free =>
      exact counts.move rfl rfl (by simp [here, Phase.counted])
        (fun limited _ => absurd limited free) counts.idle_le counts.active_le
        counts.idle_of_closed
  -- A connection leaves the idle list and stays active, so `active` is the same.
  | popFront g here idle =>
      have room := counts.idle_le
      rw [idle, List.length_cons] at room
      refine counts.move rfl rfl ?_ (by simp [here, Phase.token, Phase.counted])
        (Nat.le_of_succ_le room) counts.active_le fun closed => ?_
      · simp only [here, idle, List.length_cons, Phase.counted]
        omega
      · simp [counts.idle_of_closed closed] at idle
  | refuse g here idle closed =>
      exact counts.move rfl rfl (by simp [here, Phase.counted])
        (fun _ opened => by simp [closed] at opened) counts.idle_le counts.active_le
        counts.idle_of_closed
  -- This only happens without `Wait`, and then no tokens are counted.
  | exhausted g here idle opened exhausted =>
      refine counts.move rfl rfl (by simp [here, Phase.counted]) (fun limited _ => ?_)
        counts.idle_le counts.active_le counts.idle_of_closed
      simp [limited.1] at exhausted
  | dial g here idle opened room =>
      refine counts.move rfl rfl ?_ (by simp [here, Phase.token, Phase.counted])
        counts.idle_le (counts.room here idle opened room) counts.idle_of_closed
      simp only [here, Phase.counted]
      omega
  | dialed g here =>
      exact counts.move rfl rfl (by simp [here, Phase.counted])
        (by simp [here, Phase.token, Phase.counted]) counts.idle_le counts.active_le
        counts.idle_of_closed
  -- The connection that could not be opened is not active any more, and the token goes
  -- back.
  | dialFailed g here =>
      refine counts.move (by simp) (by simp) ?_ (fun limited opened => ?_)
        (by simpa using counts.idle_le) (fun bounded => ?_) (by simpa using counts.idle_of_closed)
      · simp only [here, Phase.counted, giveBack_active, giveBack_idle]
        omega
      · rw [giveBack_ch _ _ limited (by exact opened)]
        simp [here, Phase.token, Phase.counted]
      · have before := counts.active_le bounded
        simp only [giveBack_active]
        omega
  | put g here forceClose =>
      exact counts.move rfl rfl (by simp [here, Phase.counted])
        (by simp [here, Phase.token, Phase.counted]) counts.idle_le counts.active_le
        counts.idle_of_closed
  -- The connection is idle now, and whoever waits may have the token.
  | pushFront g here opened room =>
      refine counts.move (by simp) (by simp) ?_ (fun limited _ => ?_) (by simpa using room)
        (by simpa using counts.active_le) (fun closed => by simp [opened] at closed)
      · simp only [here, Phase.counted, giveBack_active, giveBack_idle, List.length_cons]
        omega
      · rw [giveBack_ch _ _ limited (by exact opened)]
        simp [here, Phase.token, Phase.counted]
  -- The idle list is too long: its last connection is to be closed, and the goroutine
  -- holds that one instead.
  | popBack g here opened full =>
      refine counts.move rfl rfl ?_ (by simp [here, Phase.token, Phase.counted])
        (by simpa using counts.idle_le) counts.active_le
        (fun closed => by simp [opened] at closed)
      simp [here, Phase.counted]
  | discard g here why =>
      exact counts.move rfl rfl (by simp [here, Phase.counted])
        (by simp [here, Phase.token, Phase.counted]) counts.idle_le counts.active_le
        counts.idle_of_closed
  | close g here =>
      refine counts.move (by simp) (by simp) ?_ (fun limited opened => ?_)
        (by simpa using counts.idle_le) (fun bounded => ?_) (by simpa using counts.idle_of_closed)
      · simp only [here, Phase.counted, giveBack_active, giveBack_idle]
        omega
      · rw [giveBack_ch _ _ limited (by exact opened)]
        simp [here, Phase.token, Phase.counted]
      · have before := counts.active_le bounded
        simp only [giveBack_active]
        omega
  -- `Close` empties the idle list: the connections in it are not active any more.
  | shutdown opened =>
      constructor
      · have active := counts.active
        simp only [List.length_nil, busy] at active ⊢
        omega
      · intro _ opened'
        simp at opened'
      · exact Nat.zero_le _
      · intro bounded
        have before := counts.active_le bounded
        simp only
        omega
      · simp

theorem Counted.run {conf : PoolConfig} {p p' : Pool ι} (counts : Counted conf p)
    (run : Run conf p p') : Counted conf p' := by
  induction run with
  | refl => exact counts
  | tail _ step ih => exact ih.step step

omit [Fintype ι] in
/-- The first goroutine of a pool that waits gets a new connection. -/
theorem exists_run_holding {conf : PoolConfig} (limited : conf.Limited) (g : ι) :
    ∃ p, Run conf (new conf) p ∧ p.phase g = .holding 0 := by
  have called : Run conf (new conf) ((new conf).move g .waiting) := .single (.get g rfl)
  have received := called.tail (.receive g (by simp [move_phase]) limited limited.2)
  have dialing := received.tail (.dial g (by simp [move_phase]) rfl rfl (by simp [limited.1]))
  have dialed := dialing.tail (.dialed g (by simp [move_phase]))
  exact ⟨_, dialed, by simp [move_phase, new]⟩

/-- **The limits of a pool.**  Whatever goroutines do in whatever order, and however many there
are: not more than `maxIdle` connections are idle, not more than `maxActive` are open, and the
channel has room for every token that is given back, so that nobody blocks inside of the mutex.
When no goroutine is inside of the pool, all tokens are there. -/
theorem run_limits {conf : PoolConfig} {p : Pool ι} (run : Run conf (new conf) p) :
    p.idle.length ≤ conf.maxIdle ∧
      (0 < conf.maxActive → (p.idle.length + p.busy : ℤ) = p.active ∧
        p.active ≤ conf.maxActive) ∧
      (conf.Limited → p.closed = false → ∀ g, (p.phase g).token = 1 →
        p.ch < conf.maxActive) ∧
      (conf.Limited → p.closed = false → (∀ g, (p.phase g).token = 0) →
        p.ch = conf.maxActive) := by
  have counts := (counted_new conf).run run
  refine ⟨counts.idle_le, fun bounded => ⟨counts.active.symm, counts.active_le bounded⟩,
    fun limited opened g token => ?_, fun limited opened nobody => ?_⟩
  · have tokens := counts.tokens limited opened
    have mine : (p.phase g).token ≤ p.taken :=
      Finset.single_le_sum (f := fun h => (p.phase h).token) (fun _ _ => Nat.zero_le _)
        (Finset.mem_univ g)
    omega
  · have tokens := counts.tokens limited opened
    have none : p.taken = 0 := Finset.sum_eq_zero fun g _ => nobody g
    omega

theorem run_limits_holding : ∃ p : Pool (Fin 2), p.phase 0 = .holding 0 ∧ p.idle.length ≤ 1 ∧
    p.idle.length + p.busy = p.active ∧ p.active ≤ 1 := by
  obtain ⟨p, run, holding⟩ := exists_run_holding (show PoolConfig.Limited ⟨1, 1, true⟩ by decide)
    (0 : Fin 2)
  obtain ⟨idle, open', -⟩ := run_limits run
  exact ⟨p, holding, idle, by simpa using open' (by decide)⟩

end Limits

/-! ## Connections that are not used again -/

/-- A connection that has been closed, or is going to be. -/
def Spoiled (p : Pool ι) (c : ConnId) : Prop :=
  c ∈ p.shut ∨ ∃ g, p.phase g = .putting c true ∨ p.phase g = .closing c

/-- The step of a goroutine that does not let go of the connection, or closes it. -/
theorem Spoiled.move {p p' : Pool ι} {c : ConnId} (spoiled : p.Spoiled c) {g : ι} {phase : Phase}
    (shut : c ∈ p.shut → c ∈ p'.shut) (phases : p'.phase = p.phase)
    (keeps : p.phase g = .putting c true ∨ p.phase g = .closing c →
      c ∈ p'.shut ∨ phase = .putting c true ∨ phase = .closing c) :
    (p'.move g phase).Spoiled c := by
  rcases spoiled with closed | ⟨h, here⟩
  · exact .inl (shut closed)
  · by_cases same : h = g
    · subst same
      rcases keeps here with closed | there
      · exact .inl closed
      · exact .inr ⟨h, by simpa [move_phase] using there⟩
    · exact .inr ⟨h, by simpa [move_phase, same, phases] using here⟩

/-- A connection that is going to be closed is not used again. -/
theorem Spoiled.step {conf : PoolConfig} {p p' : Pool ι} {c : ConnId} (spoiled : p.Spoiled c)
    (step : Step conf p p') : p'.Spoiled c := by
  cases step with
  | discard g here why =>
      refine spoiled.move id rfl fun mine => .inr (.inr ?_)
      rcases mine with mine | mine <;> rw [here] at mine <;> cases mine
      rfl
  | close g here =>
      refine spoiled.move (by simp; tauto) (by simp) fun mine => .inl ?_
      rcases mine with mine | mine <;> rw [here] at mine <;> cases mine
      simp
  | shutdown opened =>
      rcases spoiled with closed | there
      · exact .inl (.inl closed)
      · exact .inr there
  | dialFailed g here => exact spoiled.move (by simp) (by simp) (by simp [here])
  | pushFront g here => exact spoiled.move (by simp) (by simp) (by simp [here])
  | get g here => exact spoiled.move id rfl (by simp [here])
  | receive g here => exact spoiled.move id rfl (by simp [here])
  | receiveClosed g here => exact spoiled.move id rfl (by simp [here])
  | pass g here => exact spoiled.move id rfl (by simp [here])
  | popFront g here => exact spoiled.move id rfl (by simp [here])
  | refuse g here => exact spoiled.move id rfl (by simp [here])
  | exhausted g here => exact spoiled.move id rfl (by simp [here])
  | dial g here => exact spoiled.move id rfl (by simp [here])
  | dialed g here => exact spoiled.move id rfl (by simp [here])
  | put g here => exact spoiled.move id rfl (by simp [here])
  | popBack g here => exact spoiled.move id rfl (by simp [here])

theorem Exclusive.run {conf : PoolConfig} {p p' : Pool ι} (exclusive : p.Exclusive)
    (run : Run conf p p') : p'.Exclusive := by
  induction run with
  | refl => exact exclusive
  | tail _ step ih => exact ih.step step

/-- **No connection is used by two goroutines, and none that is closed.**  Whatever goroutines
do in whatever order: the connection of a goroutine is not that of another one, it is not idle,
and it has not been closed. -/
theorem run_exclusive {conf : PoolConfig} {p : Pool ι} (run : Run conf (new conf) p) (g : ι)
    (c : ConnId) (held : (p.phase g).conn? = some c) :
    c ∉ p.idle ∧ c ∉ p.shut ∧ ∀ h, (p.phase h).conn? = some c → h = g := by
  have exclusive := (exclusive_new conf).run run
  obtain ⟨-, opened, busy⟩ := exclusive.held g c held
  exact ⟨busy, opened, fun h other => exclusive.once h g c other held⟩

/-- A goroutine has dialed a connection, and the other one does not get it. -/
theorem run_exclusive_holding : ∃ p : Pool (Fin 2), (p.phase 0).conn? = some 0 ∧ 0 ∉ p.idle ∧
    ∀ h, (p.phase h).conn? = some 0 → h = 0 := by
  obtain ⟨p, run, holding⟩ := exists_run_holding (show PoolConfig.Limited ⟨1, 1, true⟩ by decide)
    (0 : Fin 2)
  have held : (p.phase 0).conn? = some 0 := by rw [holding, Phase.conn?]
  obtain ⟨idle, -, once⟩ := run_exclusive run 0 0 held
  exact ⟨p, held, idle, once⟩

end Pool

end Redigo
