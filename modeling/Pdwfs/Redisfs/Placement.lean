import Pdwfs.Redisfs.Redis
import Pdwfs.Util.Circle
import Mathlib

/-!
# Where a key is placed

The node that a ring gives a key to, whatever the hash function is and in however
many batches the nodes have been added.

* `ConsistentHash.points` — the places of nodes on the ring.
* `ConsistentHash.get_spec` — the node of a key is the one at the next place.
* `ConsistentHash.get_build_append` — with more nodes a key stays where it is, or it
  moves to one of the added nodes.
* `ConsistentHash.get_build_congr` — the order in which nodes are added does not
  matter, if no two of them share a place.
* `RedisRing.getClient_new_append` — more instances, the instances so far first.

## What a ring is for

A key is hashed to a place on a circle, and belongs to the next node.  The point of
this is that the other nodes do not matter: a node that is added takes keys away
from its successors, and no key moves between nodes that have been there.  So a ring
of more instances finds what the smaller one has stored on those that keep their
keys.

The hash function is a parameter.  Two nodes may have places in common, and then the
one that was added last has it.  This is the only case in which the order of the
nodes matters, and the theorem on the order excludes it; with the added nodes behind
the others it does not need to be excluded.

## Batches

The source sorts the ring after each batch, and the model does as well.  A place may
be in the list more than once, which makes no difference to a search.
-/

namespace Pdwfs

namespace ConsistentHash

/-! ## The places of nodes -/

/-- Put a node at a place of the ring. -/
def put (m : ConsistentHash) (point : ℕ × GoString) : ConsistentHash :=
  { m with
    keys := m.keys ++ [point.1]
    hashMap := Function.update m.hashMap point.1 (some point.2) }

/-- The places of nodes on the ring, replica by replica. -/
def points (m : ConsistentHash) (nodes : List GoString) : List (ℕ × GoString) :=
  nodes.flatMap fun key => (List.range m.replicas).map fun (i : ℕ) =>
    (m.hash (formatInt i ++ key), key)

/-- A node has a place for each of its replicas. -/
theorem mem_points {m : ConsistentHash} {nodes : List GoString} {k : ℕ} {node : GoString} :
    (k, node) ∈ m.points nodes ↔
      node ∈ nodes ∧ ∃ i : ℕ, i < m.replicas ∧ m.hash (formatInt i ++ node) = k := by
  simp only [points, List.mem_flatMap, List.mem_map, List.mem_range, Prod.mk.injEq]
  constructor
  · rintro ⟨key, member, i, inside, same, rfl⟩
    exact ⟨member, i, inside, same⟩
  · rintro ⟨member, i, inside, same⟩
    exact ⟨node, member, i, inside, same, rfl⟩

section Put

variable (m : ConsistentHash) (points : List (ℕ × GoString))

@[simp] theorem foldl_put_hash : (points.foldl put m).hash = m.hash := by
  induction points generalizing m with
  | nil => rfl
  | cons point rest ih => exact ih (m.put point)

@[simp] theorem foldl_put_replicas : (points.foldl put m).replicas = m.replicas := by
  induction points generalizing m with
  | nil => rfl
  | cons point rest ih => exact ih (m.put point)

@[simp] theorem foldl_put_keys : (points.foldl put m).keys = m.keys ++ points.map Prod.fst := by
  induction points generalizing m with
  | nil => simp
  | cons point rest ih =>
      rw [List.foldl_cons, ih]
      simp [put]

/-- The last node that has been put at a place is the one that is there. -/
theorem foldl_put_hashMap (k : ℕ) :
    (∃ node, (k, node) ∈ points ∧ (points.foldl put m).hashMap k = some node) ∨
      k ∉ points.map Prod.fst ∧ (points.foldl put m).hashMap k = m.hashMap k := by
  induction points generalizing m with
  | nil => exact .inr ⟨by simp, rfl⟩
  | cons point rest ih =>
      obtain ⟨place, key⟩ := point
      rcases ih (m.put (place, key)) with ⟨node, member, there⟩ | ⟨absent, there⟩
      · exact .inl ⟨node, by simp [member], there⟩
      · by_cases same : k = place
        · subst same
          exact .inl ⟨key, by simp, by simpa [put] using there⟩
        · exact .inr ⟨by simpa [same] using absent, by simpa [put, same] using there⟩

end Put

theorem foldl_addReplica_eq (key : GoString) (replicas : List ℕ) (m : ConsistentHash) :
    replicas.foldl (addReplica key) m =
      (replicas.map fun (i : ℕ) => (m.hash (formatInt i ++ key), key)).foldl put m := by
  induction replicas generalizing m with
  | nil => rfl
  | cons i rest ih => exact ih (addReplica key m i)

/-- To add nodes is to put them at their places, one after the other. -/
theorem foldl_addKey_eq (nodes : List GoString) (m : ConsistentHash) :
    nodes.foldl addKey m = (m.points nodes).foldl put m := by
  induction nodes generalizing m with
  | nil => rfl
  | cons key rest ih =>
      rw [List.foldl_cons, ih, addKey, foldl_addReplica_eq]
      simp [points, List.foldl_append]

/-! ## Batches -/

/-- Sort a ring. -/
def sorted (m : ConsistentHash) : ConsistentHash :=
  { m with keys := m.keys.insertionSort (· ≤ ·) }

/-- Nodes are put at all of their places, then the ring is sorted. -/
theorem add_eq (m : ConsistentHash) (nodes : List GoString) :
    m.add nodes = ((m.points nodes).foldl put m).sorted := by
  rw [add, foldl_addKey_eq, sorted]

theorem add_ordered (m : ConsistentHash) (nodes : List GoString) :
    (m.add nodes).keys.Pairwise (· ≤ ·) :=
  List.pairwise_insertionSort _ _

theorem mem_keys_add {m : ConsistentHash} {nodes : List GoString} {k : ℕ} :
    k ∈ (m.add nodes).keys ↔ k ∈ m.keys ∨ k ∈ (m.points nodes).map Prod.fst := by
  rw [add_eq, sorted, List.mem_insertionSort, foldl_put_keys, List.mem_append]

/-- After sorting, the order in which places have been added is forgotten. -/
theorem sorted_congr {m m' : ConsistentHash} (hash : m.hash = m'.hash)
    (replicas : m.replicas = m'.replicas) (keys : m.keys.Perm m'.keys)
    (hashMap : m.hashMap = m'.hashMap) : m.sorted = m'.sorted := by
  have same := List.Perm.eq_of_pairwise' (List.pairwise_insertionSort (· ≤ ·) m.keys)
    (List.pairwise_insertionSort (· ≤ ·) m'.keys)
    ((List.perm_insertionSort _ _).trans (keys.trans (List.perm_insertionSort _ _).symm))
  simp only [sorted, hash, replicas, hashMap, same]

theorem foldl_put_hashMap_congr {m m' : ConsistentHash} (points : List (ℕ × GoString))
    (hashMap : m.hashMap = m'.hashMap) :
    (points.foldl put m).hashMap = (points.foldl put m').hashMap := by
  induction points generalizing m m' with
  | nil => exact hashMap
  | cons point rest ih => exact ih (by simp only [put, hashMap])

/-- Two batches are one. -/
theorem add_add (m : ConsistentHash) (nodes more : List GoString) :
    (m.add nodes).add more = m.add (nodes ++ more) := by
  have places : (m.add nodes).points more = m.points more := by
    simp only [add_eq, sorted, points, foldl_put_hash, foldl_put_replicas]
  have split : m.points (nodes ++ more) = m.points nodes ++ m.points more := List.flatMap_append
  rw [add_eq, places, add_eq m (nodes ++ more), split, List.foldl_append]
  apply sorted_congr
  · simp [add_eq, sorted]
  · simp [add_eq, sorted]
  · simp only [add_eq, sorted, foldl_put_keys]
    exact (List.perm_insertionSort _ _).append_right _
  · exact foldl_put_hashMap_congr _ (by rw [add_eq, sorted])

/-- A ring that has been built in batches. -/
def build (replicas : ℕ) (fn : GoString → ℕ) (batches : List (List GoString)) : ConsistentHash :=
  batches.foldl add (new replicas fn)

theorem foldl_add (batches : List (List GoString)) (m : ConsistentHash) (nodes : List GoString) :
    batches.foldl add (m.add nodes) = m.add (nodes ++ batches.flatten) := by
  induction batches generalizing nodes with
  | nil => simp
  | cons batch rest ih => rw [List.foldl_cons, add_add, ih, List.flatten_cons, List.append_assoc]

/-- **Batches do not matter.** -/
theorem build_eq (replicas : ℕ) (fn : GoString → ℕ) (batches : List (List GoString)) :
    build replicas fn batches = (new replicas fn).add batches.flatten := by
  have empty : (new replicas fn).add [] = new replicas fn := rfl
  rw [build, ← empty, foldl_add, empty, List.nil_append]

/-! ## The node of a key -/

/-- **The node of a key** is the one at the next place of the ring, after the last
one it is the first. -/
theorem get_spec {m : ConsistentHash} (ordered : m.keys.Pairwise (· ≤ ·)) (nonempty : m.keys ≠ [])
    (key : GoString) : ∃ k, Circle.Next {k | k ∈ m.keys} (m.hash key) k ∧
      m.get key = (m.hashMap k).getD [] := by
  obtain ⟨k, there, next⟩ := Circle.exists_next ordered nonempty (m.hash key)
  refine ⟨k, next, ?_⟩
  have filled : m.isEmpty = false := by simpa [isEmpty] using nonempty
  simp only [Circle.nextIdx] at there
  simp only [get, filled, Bool.false_eq_true, ite_false, List.getD_eq_getElem?_getD, there,
    Option.getD_some]

/-- Without nodes there is no node. -/
theorem get_of_empty {m : ConsistentHash} (empty : m.keys = []) (key : GoString) :
    m.get key = [] := by
  simp [get, isEmpty, empty]

/-- **Adding nodes.**  A key stays where it is, or it moves to one of the added nodes. -/
theorem get_add {m : ConsistentHash} (ordered : m.keys.Pairwise (· ≤ ·)) (nodes : List GoString)
    (key : GoString) : (m.add nodes).get key ∈ nodes ∨ (m.add nodes).get key = m.get key := by
  have hashes : (m.add nodes).hash = m.hash := by simp [add_eq, sorted]
  by_cases nonempty : (m.add nodes).keys = []
  · have before : m.keys = [] := by
      simp only [List.eq_nil_iff_forall_not_mem, mem_keys_add, not_or] at nonempty ⊢
      exact fun k => (nonempty k).1
    rw [get_of_empty nonempty, get_of_empty before]
    exact .inr rfl
  · obtain ⟨k, next, found⟩ := get_spec (m.add_ordered nodes) nonempty key
    have there : (m.add nodes).hashMap k = ((m.points nodes).foldl put m).hashMap k := by
      rw [add_eq, sorted]
    rw [found, there]
    rcases foldl_put_hashMap m (m.points nodes) k with ⟨node, member, added⟩ | ⟨absent, kept⟩
    · rw [added]
      exact .inl (mem_points.mp member).1
    · -- The next place has been there before.
      have old : k ∈ m.keys := (mem_keys_add.mp next.1).resolve_right absent
      have subset : {k | k ∈ m.keys} ⊆ {k | k ∈ (m.add nodes).keys} := fun k member =>
        mem_keys_add.mpr (.inl member)
      have next' := next.of_subset subset old
      obtain ⟨k', before, found'⟩ := get_spec ordered (List.ne_nil_of_mem old) key
      rw [hashes] at next'
      obtain rfl := next'.unique before
      rw [kept, found']
      exact .inr rfl

/-- **More nodes.**  Whatever the hash function is, and in whatever batches nodes are added, a key
stays at the node where it is, or it moves to a node that has been added since. -/
theorem get_build_append (replicas : ℕ) (fn : GoString → ℕ) (batches more : List (List GoString))
    (key : GoString) : (build replicas fn (batches ++ more)).get key ∈ more.flatten ∨
      (build replicas fn (batches ++ more)).get key = (build replicas fn batches).get key := by
  have whole : build replicas fn (batches ++ more) =
      (build replicas fn batches).add more.flatten := by
    rw [build_eq, build_eq, add_add, List.flatten_append]
  rw [whole]
  refine get_add ?_ _ key
  rw [build_eq]
  exact add_ordered _ _

theorem mem_keys_add_new {replicas : ℕ} {fn : GoString → ℕ} {nodes : List GoString} {k : ℕ} :
    k ∈ ((new replicas fn).add nodes).keys ↔
      ∃ node, (k, node) ∈ (new replicas fn).points nodes := by
  simp [mem_keys_add, new]

/-- The node at a place of a new ring. -/
theorem hashMap_add_new {replicas : ℕ} {fn : GoString → ℕ} {nodes : List GoString} {k : ℕ}
    (onRing : k ∈ ((new replicas fn).add nodes).keys) :
    ∃ node, (k, node) ∈ (new replicas fn).points nodes ∧
      ((new replicas fn).add nodes).hashMap k = some node := by
  have place : k ∈ ((new replicas fn).points nodes).map Prod.fst := by
    simpa using mem_keys_add_new.mp onRing
  rw [add_eq, sorted]
  exact (foldl_put_hashMap (new replicas fn) _ k).resolve_right fun absent => absent.1 place

/-- **The order of nodes.**  Two rings of the same nodes, built in whatever order and batches, give
a key to the same node, if no two of the nodes share a place. -/
theorem get_build_congr (replicas : ℕ) (fn : GoString → ℕ) {batches batches' : List (List GoString)}
    (same : ∀ node, node ∈ batches.flatten ↔ node ∈ batches'.flatten)
    (apart : ∀ node ∈ batches.flatten, ∀ node' ∈ batches.flatten, ∀ i j : ℕ, i < replicas →
      j < replicas → fn (formatInt i ++ node) = fn (formatInt j ++ node') → node = node')
    (key : GoString) :
    (build replicas fn batches).get key = (build replicas fn batches').get key := by
  rw [build_eq, build_eq]
  set m := (new replicas fn).add batches.flatten with built
  set m' := (new replicas fn).add batches'.flatten with built'
  have places (k : ℕ) : k ∈ m.keys ↔ k ∈ m'.keys := by
    simp only [built, built', mem_keys_add_new, mem_points, same]
  have hashes : m.hash key = m'.hash key := by simp [built, built', add_eq, sorted]
  by_cases nonempty : m.keys = []
  · have nonempty' : m'.keys = [] := by
      simpa only [List.eq_nil_iff_forall_not_mem, places] using nonempty
    rw [get_of_empty nonempty, get_of_empty nonempty']
  · have nonempty' : m'.keys ≠ [] := by
      simpa only [ne_eq, List.eq_nil_iff_forall_not_mem, places] using nonempty
    obtain ⟨k, next, found⟩ := get_spec (add_ordered _ _) nonempty key
    obtain ⟨k', next', found'⟩ := get_spec (add_ordered _ _) nonempty' key
    obtain rfl : k = k' := by
      have sets : {k | k ∈ m.keys} = {k | k ∈ m'.keys} := Set.ext places
      rw [← built, hashes, sets] at next
      exact next.unique next'
    obtain ⟨node, place, there⟩ := hashMap_add_new next.1
    obtain ⟨node', place', there'⟩ := hashMap_add_new next'.1
    obtain ⟨member, i, inside, hash⟩ := mem_points.mp place
    obtain ⟨member', j, inside', hash'⟩ := mem_points.mp place'
    have meets : node = node' :=
      apart node member node' ((same node').mpr member') i j inside inside' (hash.trans hash'.symm)
    rw [found, found', there, there', meets]

/-- Two nodes in one batch, or in two and the other way round. -/
theorem get_build_congr_lengths : (build 1 List.length [[['a'], ['b', 'b']]]).get ['c'] =
    (build 1 List.length [[['b', 'b']], [['a']]]).get ['c'] := by
  refine get_build_congr 1 List.length (by simp [or_comm]) ?_ ['c']
  intro node member node' member' i j inside inside' same
  obtain rfl : i = 0 := by omega
  obtain rfl : j = 0 := by omega
  rcases (by simpa using member : node = ['a'] ∨ node = ['b', 'b']) with rfl | rfl <;>
    rcases (by simpa using member' : node' = ['a'] ∨ node' = ['b', 'b']) with rfl | rfl <;>
    simp_all

end ConsistentHash

/-! ## The instance of a key -/

namespace RedisRing

/-- The identifiers of instances, from index `start` on. -/
def clientsFrom (start : ℕ) (addrs : List Addr) : List (GoString × RedisClient) :=
  (addrs.zipIdx start).map fun entry => (formatInt entry.2, { addr := entry.1 })

theorem clientsOf_append (addrs more : List Addr) :
    clientsOf (addrs ++ more) = clientsOf addrs ++ clientsFrom addrs.length more := by
  simp [clientsOf, clientsFrom, List.zipIdx_append]

/-- An identifier is the number of a client in the list. -/
theorem mem_clientsFrom {start : ℕ} {addrs : List Addr} {id : GoString} {client : RedisClient}
    (member : (id, client) ∈ clientsFrom start addrs) :
    client.addr ∈ addrs ∧ ∃ i : ℕ, start ≤ i ∧ i < start + addrs.length ∧ id = formatInt i := by
  simp only [clientsFrom, List.mem_map, Prod.mk.injEq] at member
  obtain ⟨⟨addr, i⟩, member, rfl, rfl⟩ := member
  exact ⟨List.fst_mem_of_mem_zipIdx member, i, List.le_snd_of_mem_zipIdx member,
    List.snd_lt_add_of_mem_zipIdx member, rfl⟩

/-- An identifier is that of an old client or of a new one. -/
theorem lookup_clientsOf_append {addrs more : List Addr} {id : GoString} {client : RedisClient}
    (found : (clientsOf (addrs ++ more)).lookup id = some client) :
    (id ∈ (clientsOf addrs).map Prod.fst → (clientsOf addrs).lookup id = some client) ∧
      (id ∈ (clientsFrom addrs.length more).map Prod.fst → client.addr ∈ more) := by
  rw [clientsOf_append, List.lookup_append] at found
  constructor
  · intro member
    obtain ⟨client', first⟩ := Option.isSome_iff_exists.mp (lookup_isSome_of_mem member)
    simpa [first] using found
  · intro member
    have none : (clientsOf addrs).lookup id = none := by
      rw [List.lookup_eq_none_iff]
      rintro ⟨id', client'⟩ old
      obtain ⟨⟨id'', client''⟩, new, same⟩ := List.mem_map.mp member
      obtain ⟨-, i, above, -, rfl⟩ := mem_clientsFrom new
      obtain ⟨-, j, -, below, rfl⟩ :=
        mem_clientsFrom (show (id', client') ∈ clientsFrom 0 addrs from old)
      have other : i ≠ j := by omega
      simpa [← same] using fun meets => other (by exact_mod_cast formatInt_injective meets)
    rw [none, Option.none_or] at found
    obtain ⟨before, after, split, -⟩ := List.lookup_eq_some_iff.mp found
    have new : (id, client) ∈ clientsFrom addrs.length more := by rw [split]; simp
    exact (mem_clientsFrom new).1

theorem lookup_getClient (r : RedisRing) (key : GoString) :
    r.clients.lookup (r.hash.get (hashedPart key)) = some (r.getClient key) := by
  simp [getClient]

/-- **More instances.**  A ring with instances added at the end of its list places a key where it
has been, or on an added instance. -/
theorem getClient_new_append (fn : GoString → ℕ) {addrs : List Addr} (nonempty : addrs ≠ [])
    (more : List Addr) (nonempty' : addrs ++ more ≠ []) (key : GoString) :
    ((new (addrs ++ more) fn nonempty').getClient key).addr ∈ more ∨
      (new (addrs ++ more) fn nonempty').getClient key = (new addrs fn nonempty).getClient key := by
  have found := (new addrs fn nonempty).lookup_getClient key
  have found' := (new (addrs ++ more) fn nonempty').lookup_getClient key
  have grown : (new (addrs ++ more) fn nonempty').hash =
      (new addrs fn nonempty).hash.add ((clientsFrom addrs.length more).map Prod.fst) := by
    simp only [new, clientsOf_append, List.map_append, ConsistentHash.add_add]
  rw [grown] at found'
  obtain ⟨old, added⟩ := lookup_clientsOf_append found'
  have ordered : (new addrs fn nonempty).hash.keys.Pairwise (· ≤ ·) :=
    ConsistentHash.add_ordered _ _
  rcases ConsistentHash.get_add ordered ((clientsFrom addrs.length more).map Prod.fst)
    (hashedPart key) with member | same
  · exact .inl (added member)
  · rw [same] at old
    have known : (new addrs fn nonempty).hash.get (hashedPart key) ∈
        (clientsOf addrs).map Prod.fst := by
      obtain ⟨before, after, split, -⟩ := List.lookup_eq_some_iff.mp found
      have entries : clientsOf addrs = _ := split
      rw [entries]
      simp
    exact .inr (Option.some.inj ((old known).symm.trans found))

/-- One more instance: a key of the old ones. -/
theorem getClient_new_append_one :
    ((new ([['a']] ++ [['b']]) List.length (by simp)).getClient ['/', 'd']).addr ∈ [['b']] ∨
      (new ([['a']] ++ [['b']]) List.length (by simp)).getClient ['/', 'd'] =
        (new [['a']] List.length (by simp)).getClient ['/', 'd'] :=
  getClient_new_append List.length (by simp) [['b']] (by simp) ['/', 'd']

end RedisRing

end Pdwfs
