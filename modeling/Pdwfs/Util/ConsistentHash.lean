import Pdwfs.Util.Strconv
import Mathlib

/-!
# Consistent hashing

The ring of hash values on which each key is given to the next replica of a node.
The hash function is a parameter of the ring, as in the source: every result holds
whatever it is.  `get_mem` is what the rest of the development uses: a ring with a
node answers with one of its nodes.

Two replicas of different nodes may have the same hash value.  Then the list of the
hashed keys has it twice, and the map behind it has the node that has been added
later.  So the ring is not a list of pairs, and the invariant of it (`NodesIn`) is
about the hash values that are in the list: there is a node behind each of them, and
it is one of those that have been added.
-/

namespace Pdwfs

/-- All hashed keys, sorted, and the node behind each of them.  There are `replicas`
keys for each node, unless some of them coincide. -/
structure ConsistentHash where
  hash : GoString → ℕ
  replicas : ℕ
  keys : List ℕ
  hashMap : ℕ → Option GoString

namespace ConsistentHash

/-- An empty ring. -/
def new (replicas : ℕ) (fn : GoString → ℕ) : ConsistentHash where
  hash := fn
  replicas := replicas
  keys := []
  hashMap := fun _ => none

/-- Put replica `i` of the node `key` on the ring.  If the place is taken, the node
that comes later gets it. -/
def addReplica (key : GoString) (m : ConsistentHash) (i : ℕ) : ConsistentHash :=
  let hash := m.hash (formatInt i ++ key)
  { m with
    keys := m.keys ++ [hash]
    hashMap := Function.update m.hashMap hash (some key) }

/-- Put all replicas of the node `key` on the ring. -/
def addKey (m : ConsistentHash) (key : GoString) : ConsistentHash :=
  (List.range m.replicas).foldl (addReplica key) m

/-- Put nodes on the ring and sort it. -/
def add (m : ConsistentHash) (keys : List GoString) : ConsistentHash :=
  let added := keys.foldl addKey m
  { added with keys := added.keys.insertionSort (· ≤ ·) }

/-- There is nothing on the ring. -/
def isEmpty (m : ConsistentHash) : Bool := m.keys.isEmpty

/-- The node of `key`: the first one at or after its hash, the first of all past
the end of the ring. -/
def get (m : ConsistentHash) (key : GoString) : GoString :=
  if m.isEmpty then []
  else
    let hash := m.hash key
    let found := m.keys.findIdx fun k => hash ≤ k
    let idx := if found = m.keys.length then 0 else found
    (m.hashMap (m.keys.getD idx 0)).getD []

/-- Every key on the ring belongs to a node in `nodes`. -/
def NodesIn (m : ConsistentHash) (nodes : List GoString) : Prop :=
  ∀ k ∈ m.keys, ∃ node ∈ nodes, m.hashMap k = some node

/-- One replica of one of the nodes. -/
theorem addReplica_nodesIn {m : ConsistentHash} {nodes : List GoString} {key : GoString}
    (member : key ∈ nodes) (inside : m.NodesIn nodes) (i : ℕ) :
    (addReplica key m i).NodesIn nodes := by
  intro k onRing
  by_cases same : k = m.hash (formatInt i ++ key)
  · exact ⟨key, member, by simp [addReplica, same]⟩
  · have old : k ∈ m.keys := by simpa [addReplica, same] using onRing
    obtain ⟨node, inNodes, mapped⟩ := inside k old
    exact ⟨node, inNodes, by simpa [addReplica, Function.update_of_ne same] using mapped⟩

/-- Adding replicas keeps the nodes inside `nodes`, and fills the ring. -/
theorem foldl_addReplica {nodes : List GoString} {key : GoString} (member : key ∈ nodes)
    (replicas : List ℕ) {m : ConsistentHash} (inside : m.NodesIn nodes) :
    (replicas.foldl (addReplica key) m).NodesIn nodes ∧
      (replicas.foldl (addReplica key) m).replicas = m.replicas ∧
      m.keys.length + replicas.length ≤ (replicas.foldl (addReplica key) m).keys.length := by
  induction replicas generalizing m with
  | nil => exact ⟨inside, rfl, le_rfl⟩
  | cons i rest ih =>
      obtain ⟨kept, same, longer⟩ := ih (addReplica_nodesIn member inside i)
      refine ⟨kept, same, ?_⟩
      simp only [addReplica, List.length_append, List.length_cons, List.length_nil] at longer
      simp only [List.foldl_cons, List.length_cons, addReplica]
      omega

/-- The same for all nodes. -/
theorem foldl_addKey {nodes : List GoString} (keys : List GoString)
    (subset : ∀ key ∈ keys, key ∈ nodes) {m : ConsistentHash} (inside : m.NodesIn nodes) :
    (keys.foldl addKey m).NodesIn nodes ∧
      m.keys.length + keys.length * m.replicas ≤ (keys.foldl addKey m).keys.length := by
  induction keys generalizing m with
  | nil => exact ⟨inside, by simp⟩
  | cons key rest ih =>
      obtain ⟨kept, same, longer⟩ :=
        foldl_addReplica (subset key (by simp)) (List.range m.replicas) inside
      obtain ⟨keptAll, longerAll⟩ := ih (fun k member => subset k (by simp [member])) kept
      refine ⟨keptAll, ?_⟩
      rw [List.length_range] at longer
      rw [same] at longerAll
      rw [List.length_cons, Nat.succ_mul, List.foldl_cons]
      exact le_trans (by omega) longerAll

/-- A key of a ring with something on it is given to a node of the ring. -/
theorem get_mem {m : ConsistentHash} {nodes : List GoString} (inside : m.NodesIn nodes)
    (nonempty : m.keys ≠ []) (key : GoString) : m.get key ∈ nodes := by
  have positive := List.length_pos_iff.mpr nonempty
  have filled : m.isEmpty = false := by simpa [isEmpty] using nonempty
  simp only [get, filled, Bool.false_eq_true, ite_false]
  set found := m.keys.findIdx fun k => m.hash key ≤ k
  have inRange : (if found = m.keys.length then 0 else found) < m.keys.length := by
    have : found ≤ m.keys.length := List.findIdx_le_length
    split <;> omega
  generalize (if found = m.keys.length then 0 else found) = idx at inRange
  have onRing : m.keys.getD idx 0 ∈ m.keys := by
    rw [List.getD_eq_getElem _ _ inRange]
    exact List.getElem_mem inRange
  obtain ⟨node, member, mapped⟩ := inside _ onRing
  rw [mapped]
  exact member

/-- **A ring of nodes answers with one of them**, for every key and every hash
function. -/
theorem get_add_new_mem {replicas : ℕ} (positive : 0 < replicas) (fn : GoString → ℕ)
    {nodes : List GoString} (nonempty : nodes ≠ []) (key : GoString) :
    ((new replicas fn).add nodes).get key ∈ nodes := by
  have empty : (new replicas fn).NodesIn nodes := by
    intro k onRing
    simp [new] at onRing
  obtain ⟨inside, longer⟩ := foldl_addKey nodes (fun _ member => member) empty
  have count : 0 < nodes.length * replicas :=
    Nat.mul_pos (List.length_pos_iff.mpr nonempty) positive
  refine get_mem ?_ ?_ key
  · intro k onRing
    exact inside k ((List.mem_insertionSort _).mp onRing)
  · rw [← List.length_pos_iff]
    simp only [add, List.length_insertionSort]
    simp only [new, List.length_nil, Nat.zero_add] at longer
    exact lt_of_lt_of_le count longer

end ConsistentHash

end Pdwfs
