import Mathlib
import Pdwfs.Filepath.Path
import Pdwfs.Redisfs.Wrapped
import Pdwfs.Util.Strconv

/-!
# The configuration

A configuration is made from a JSON document and from the environment, and then it
is verified.  Whatever panics, or exits the program, has the value `none`.

* `PdwfsField`, `MountField`, `RedisField` — the document, as its members in their
  order.
* `Env` — what the process finds in its environment.
* `load`, `normalize`, `New` — the configuration as it is read, its verification,
  and the result.  The verification comes by the mounts in any order.
* `Usable` — what the data store needs from a mount.
* `usable_iff` — which of the accepted configurations have only such mounts.  The
  verification bounds the size of a stripe from above only.

## The document

A document is decoded into a configuration that is there already, the default one.
So what it leaves out stays as it is, and this is different for the parts: the
connection keeps its default addresses, but a mount of the document starts from the
zero value, since there is no mount in the default configuration that it could be
read into.  Its stripe size is zero then, and not the default one.  `decodeMount` is
where this happens.

A name may come twice in a document; the later member counts.  The document is
therefore modelled as a list of members and not as a record, and `lastMember` and
`stripeSizeOf` say which of them count.

## Two orders

The two loops of the source come by the entries of a map in an order that is not
determined.  For `PDWFS_STRIPESIZE` it does not matter, since every turn writes
another entry with the same size, and the loop is modelled for one order.  For the
verification it does: two mount paths may have one absolute form, and then the mount
that the loop comes by last is the one that is left.  So `New` is a relation, and
`usable_iff` is about all of its results.

## Bytes and MiB

`PDWFS_STRIPESIZE` is a number of MiB, and its product with `1024*1024` is reduced
to 64 bits without a check.  This is why the condition for it is on the number
modulo `2^44`: what is left of the product is then a positive number below `2^63`
exactly if the remainder is below `2^43`.
-/

namespace Pdwfs

open Wrapping

namespace Config

/-- The size of the stripes of a mount that is given by its path alone. -/
def defaultStripeSize : ℤ := 50 * 1024 * 1024

/-- The largest string in Redis. -/
def maxRedisString : ℤ := 512 * 1024 * 1024

/-- A mount point.  The size of its stripes is an `int`, and that it is in the range
of one is part of the mount. -/
structure Mount where
  path : GoString
  stripeSize : ℤ
  inRange : InRange stripeSize
deriving DecidableEq

/-- The connection to Redis. -/
structure Redis where
  addrs : List GoString
  cluster : Bool
  clusterAddrs : List GoString
deriving DecidableEq

/-- The mount of a path alone. -/
def defaultMount (path : GoString) : Mount where
  path := path
  stripeSize := defaultStripeSize
  inRange := by decide

/-- The default connection. -/
def newRedisConf : Redis where
  addrs := [":6379".toList]
  cluster := false
  clusterAddrs :=
    [":7001".toList, ":7002".toList, ":7003".toList, ":7004".toList, ":7005".toList, ":7006".toList]

/-- The mounts are pointers, and `none` is `nil`. -/
abbrev Mounts := AList fun _ : GoString => Option Mount

/-- A configuration that is not verified yet.  The map of the mounts and the
connection may be `nil`: a document can set each of them to `null`. -/
structure Loaded where
  mounts : Option Mounts
  redis : Option Redis

/-- The mounts that a loop over the map comes by. -/
def Loaded.entries (conf : Loaded) : Mounts := conf.mounts.getD ∅

/-- A verified configuration. -/
structure PdwfsConf where
  mounts : AList fun _ : GoString => Mount
  redis : Option Redis

/-! ## The document -/

/-- A member of a mount.  `null` has the value `none`, here and below. -/
inductive MountField where
  | path (value : Option GoString)
  | stripeSize (value : Option ℤ)

/-- A member of the connection. -/
inductive RedisField where
  | addrs (value : Option (List GoString))
  | cluster (value : Option Bool)
  | clusterAddrs (value : Option (List GoString))

/-- A member of the document.  A name may come more than once, also the path of a mount. -/
inductive PdwfsField where
  | mounts (value : Option (List (GoString × Option (List MountField))))
  | redis (value : Option (List RedisField))

/-- What is found at `PDWFS_CONF`.  `broken` is a file that cannot be opened, or that is not a
document of the types of the members. -/
inductive ConfFile where
  | unset
  | broken
  | document (fields : List PdwfsField)

/-- Set a member of a mount.  A number that is not an `int` is an error. -/
def Mount.set (mount : Mount) : MountField → Option Mount
  | .path value => some { mount with path := value.getD mount.path }
  | .stripeSize none => some mount
  | .stripeSize (some n) =>
      if inRange : InRange n then some { mount with stripeSize := n, inRange := inRange } else none

/-- A mount of the document.  It starts from the zero value, so that the stripe size
is zero if the document does not have one. -/
def decodeMount : Option (List MountField) → Option (Option Mount)
  | none => some none
  | some fields =>
      (fields.foldlM Mount.set { path := [], stripeSize := 0, inRange := by decide }).map some

/-- Set a member of the map of the mounts. -/
def setMount (mounts : Mounts) (member : GoString × Option (List MountField)) : Option Mounts :=
  (decodeMount member.2).map fun mount => mounts.insert member.1 mount

/-- Set a member of the connection. -/
def Redis.set (redis : Redis) : RedisField → Redis
  | .addrs value => { redis with addrs := value.getD [] }
  | .cluster value => { redis with cluster := value.getD redis.cluster }
  | .clusterAddrs value => { redis with clusterAddrs := value.getD [] }

/-- Set a member of the configuration. -/
def Loaded.set (conf : Loaded) : PdwfsField → Option Loaded
  | .mounts none => some { conf with mounts := none }
  | .mounts (some members) =>
      (members.foldlM setMount conf.entries).map fun mounts => { conf with mounts := some mounts }
  | .redis none => some { conf with redis := none }
  | .redis (some fields) =>
      let redis := conf.redis.getD { addrs := [], cluster := false, clusterAddrs := [] }
      some { conf with redis := some (fields.foldl Redis.set redis) }

/-! ## The environment -/

/-- What the process finds in its environment.  A variable that is not set is the empty string, and
the working directory may be gone. -/
structure Env where
  conf : ConfFile
  redis : GoString
  mountPath : GoString
  stripeSize : GoString
  getwd : Option Filepath.WorkingDir

/-- A decimal number that is an `int`. -/
def atoi (s : GoString) : Option ℤ := (parseInt s).filter fun n => decide (InRange n)

/-- From MiB to bytes. -/
def bytesOfMiB (size : ℤ) : ℤ := wrap (wrap (size * 1024) * 1024)

/-- The mount with stripes of `size` MiB. -/
def Mount.resized (mount : Mount) (size : ℤ) : Mount where
  path := mount.path
  stripeSize := bytesOfMiB size
  inRange := inRange_wrap _

/-- The default configuration, with the document read into it. -/
def readConf (env : Env) : Option Loaded :=
  let conf : Loaded := { mounts := some ∅, redis := some newRedisConf }
  match env.conf with
  | .unset => some conf
  | .broken => none
  | .document fields => fields.foldlM Loaded.set conf

/-- `PDWFS_REDIS`. -/
def setAddrs (env : Env) (conf : Loaded) : Option Loaded :=
  if env.redis = [] then some conf
  else conf.redis.map fun redis =>
    { conf with
      redis := some { redis with addrs := (env.redis.splitOn ',').filter fun addr => addr ≠ [] } }

/-- `PDWFS_MOUNTPATH`.  An assignment to a map that is `nil` panics. -/
def addMount (env : Env) (conf : Loaded) : Option Loaded :=
  if env.mountPath = [] then some conf
  else conf.mounts.map fun mounts =>
    { conf with
      mounts := some (mounts.insert env.mountPath (some (defaultMount env.mountPath))) }

/-- The loop of `PDWFS_STRIPESIZE` over the mounts that are left.  The variable is
converted in each of its turns, so without a mount it is not looked at, and may be
anything. -/
def setStripeSizes (stripeSize : GoString) :
    List (Σ _ : GoString, Option Mount) → Mounts → Option Mounts
  | [], mounts => some mounts
  | ⟨_, none⟩ :: _, _ => none
  | ⟨path, some mount⟩ :: rest, mounts =>
      match atoi stripeSize with
      | none => none
      | some size =>
          setStripeSizes stripeSize rest
            (mounts.insert path (some (mount.resized size)))

/-- `PDWFS_STRIPESIZE`. -/
def resize (env : Env) (conf : Loaded) : Option Loaded :=
  if env.stripeSize = [] then some conf
  else
    (setStripeSizes env.stripeSize conf.entries.entries conf.entries).map fun mounts =>
      { conf with mounts := conf.mounts.map fun _ => mounts }

/-- The configuration before it is verified. -/
def load (env : Env) : Option Loaded := do
  let conf ← readConf env
  let conf ← setAddrs env conf
  let conf ← addMount env conf
  resize env conf

/-- The absolute form of a mount path.  The warning about a directory that is not
empty is never given: `os.Stat` has no error of the kind it is looked for in. -/
def validateMountPath (getwd : Option Filepath.WorkingDir) (path : GoString) : Option GoString :=
  if Filepath.isAbs path then some (Filepath.clean path)
  else getwd.map fun cwd => Filepath.abs cwd path

/-- The loop of the verification over the mounts that are left.  It builds another
map, with the absolute paths as keys; of two mounts with the same absolute path the
later one is kept. -/
def normalize (getwd : Option Filepath.WorkingDir) :
    List (Σ _ : GoString, Option Mount) → (AList fun _ : GoString => Mount) →
      Option (AList fun _ : GoString => Mount)
  | [], normalized => some normalized
  | ⟨_, none⟩ :: _, _ => none
  | ⟨path, some conf⟩ :: rest, normalized =>
      match validateMountPath getwd path with
      | none => none
      | some path' =>
          if conf.stripeSize > maxRedisString then none
          else normalize getwd rest (normalized.insert path' { conf with path := path' })

/-- `conf` is a result of `New`.  The verification comes by the mounts in the order
`order`, which may be any. -/
def New (env : Env) (conf : PdwfsConf) : Prop :=
  ∃ loaded order, load env = some loaded ∧ order.Perm loaded.entries.entries ∧
    normalize env.getwd order ∅ = some conf.mounts ∧ conf.redis = loaded.redis

/-! ## What the data store needs -/

/-- No division by zero, no slice with a negative length, and progress in each turn
of the loop, wherever the data begins.

The fields are what the functions of the data store need, in their own terms, so
that a mount that has them can be handed to any of these functions. -/
structure Usable (mount : Mount) : Prop where
  positive : 0 < mount.stripeSize
  bounded : mount.stripeSize ≤ maxRedisString
  layout (policy : AppendPolicy) (off : ℤ) (data : List UInt8) :
    (Wrapped.stripeLayout policy mount.stripeSize off data).isSome
  progress (off : ℤ) (data : List UInt8) (pos : ℕ) :
    pos < data.length → 0 < Wrapped.taken mount.stripeSize off data pos
  last (size : ℤ) : (Wrapped.lastStripeInfo size mount.stripeSize).isSome

/-- The stripe size among the members of a mount: the last one, or zero. -/
def stripeSizeOf (fields : List MountField) : ℤ :=
  fields.foldl
    (fun n field => match field with
      | .stripeSize (some m) => m
      | _ => n) 0

/-- The member of the name `path`, after a member of the document. -/
def lastMember (path : GoString) (found : Option (Option (List MountField))) :
    PdwfsField → Option (Option (List MountField))
  | .mounts none => none
  | .mounts (some members) =>
      members.foldl (fun found member => if member.1 = path then some member.2 else found) found
  | .redis _ => found

/-- What the document has at the mount path `path`: nothing, `null`, or the members
of the mount. -/
def Env.configured (env : Env) (path : GoString) : Option (Option (List MountField)) :=
  match env.conf with
  | .document fields => fields.foldl (lastMember path) none
  | _ => none

/-- There is a mount. -/
def Env.Mounted (env : Env) : Prop := env.mountPath ≠ [] ∨ ∃ path, env.configured path ≠ none

/-- The stripe sizes that the environment asks for are positive.  Where `PDWFS_STRIPESIZE` is not
set these are the ones of the document, without the mount of `PDWFS_MOUNTPATH`.  Where it is, the
number of bytes is positive in 64 bits. -/
def Env.Positive (env : Env) : Prop :=
  if env.stripeSize = [] then
    ∀ path fields, env.configured path = some (some fields) →
      env.mountPath = [] ∨ path ≠ env.mountPath → 0 < stripeSizeOf fields
  else env.Mounted →
    ∀ n, atoi env.stripeSize = some n → 0 < n % 2 ^ 44 ∧ n % 2 ^ 44 < 2 ^ 43

/-! ## The document and its mounts -/

section Reading

variable {path : GoString} {found : Option (Option (List MountField))} {mounts : Mounts}

/-- A relation between two loops over one list that each turn keeps. -/
theorem rel_of_foldlM {State Found Item : Type} {R : State → Found → Prop}
    {f : State → Item → Option State} {g : Found → Item → Found}
    (turn : ∀ s t item s', R s t → f s item = some s' → R s' (g t item))
    {items : List Item} {s s' : State} {t : Found} (start : R s t)
    (run : items.foldlM f s = some s') : R s' (items.foldl g t) := by
  induction items generalizing s t with
  | nil =>
      obtain rfl : s = s' := by simpa using run
      exact start
  | cons item rest ih =>
      rw [List.foldlM_cons] at run
      obtain ⟨next, first, run⟩ := Option.bind_eq_some_iff.mp run
      exact ih (turn s t item next start first) run

/-- A mount of the document has the stripe size that is among its members. -/
theorem stripeSize_decodeMount {fields : List MountField} {mount : Mount}
    (decoded : decodeMount (some fields) = some (some mount)) :
    mount.stripeSize = stripeSizeOf fields := by
  obtain ⟨mount', run, same⟩ := Option.map_eq_some_iff.mp decoded
  obtain rfl := Option.some.inj same
  refine rel_of_foldlM (R := fun (mount : Mount) n => mount.stripeSize = n) ?_ rfl run
  intro s n field s' same set
  rcases field with value | _ | m
  · obtain rfl := Option.some.inj set
    exact same
  · obtain rfl := Option.some.inj set
    exact same
  · rw [Mount.set] at set
    split at set
    · obtain rfl := Option.some.inj set
      rfl
    · simp at set

/-- The map has at `path` what the member `found` of the document decodes to.  It is
the relation between the map as it is filled and the member that has been found so
far. -/
def Reads (path : GoString) (mounts : Mounts) : Option (Option (List MountField)) → Prop
  | none => mounts.lookup path = none
  | some value => ∃ mount, decodeMount value = some mount ∧ mounts.lookup path = some mount

/-- Only the mounts of the path matter. -/
theorem Reads.congr {mounts' : Mounts} (reads : Reads path mounts found)
    (same : mounts'.lookup path = mounts.lookup path) : Reads path mounts' found := by
  cases found with
  | none => exact same.trans reads
  | some value =>
      obtain ⟨mount, decoded, at_path⟩ := reads
      exact ⟨mount, decoded, same.trans at_path⟩

/-- There is a mount if and only if one has been read. -/
theorem Reads.eq_none_iff (reads : Reads path mounts found) :
    mounts.lookup path = none ↔ found = none := by
  cases found with
  | none => exact iff_of_true reads rfl
  | some value =>
      obtain ⟨mount, -, at_path⟩ := reads
      simp [at_path]

/-- A mount of the map is one of the document, and it has the stripe size that the document has. -/
theorem Reads.exists_iff (reads : Reads path mounts found) {n : ℤ} :
    (∃ mount, mounts.lookup path = some (some mount) ∧ mount.stripeSize = n) ↔
      ∃ fields, found = some (some fields) ∧ stripeSizeOf fields = n := by
  rcases found with _ | _ | fields
  · change mounts.lookup path = none at reads
    simp [reads]
  · obtain ⟨pointer, decoded, at_path⟩ := reads
    obtain rfl := Option.some.inj decoded
    simp [at_path]
  · obtain ⟨pointer, decoded, at_path⟩ := reads
    obtain ⟨mount, -, rfl⟩ := Option.map_eq_some_iff.mp decoded
    simp [at_path, stripeSize_decodeMount decoded]

/-- The next member of the map of the mounts. -/
theorem Reads.setMount {member : GoString × Option (List MountField)} {mounts' : Mounts}
    (reads : Reads path mounts found) (set : setMount mounts member = some mounts') :
    Reads path mounts' (if member.1 = path then some member.2 else found) := by
  obtain ⟨mount, decoded, rfl⟩ := Option.map_eq_some_iff.mp set
  split
  · rename_i same
    rw [← same]
    exact ⟨mount, decoded, AList.lookup_insert mounts⟩
  · rename_i other
    exact reads.congr (AList.lookup_insert_ne fun same => other same.symm)

/-- The next member of the document. -/
theorem Reads.set {conf conf' : Loaded} {field : PdwfsField}
    (reads : Reads path conf.entries found) (set : conf.set field = some conf') :
    Reads path conf'.entries (lastMember path found field) := by
  rcases field with (_ | members) | (_ | fields)
  · obtain rfl := Option.some.inj set
    exact AList.lookup_empty path
  · obtain ⟨mounts, run, rfl⟩ := Option.map_eq_some_iff.mp set
    exact rel_of_foldlM (f := Config.setMount) (R := Reads path)
      (fun _ _ _ _ reads set => reads.setMount set) reads run
  · obtain rfl := Option.some.inj set
    exact reads
  · obtain rfl := Option.some.inj set
    exact reads

/-- **The document is read into the map**, for each path its last member. -/
theorem reads_readConf {env : Env} {conf : Loaded} (read : readConf env = some conf) :
    Reads path conf.entries (env.configured path) := by
  unfold readConf at read
  unfold Env.configured
  split at read
  · rename_i unset
    obtain rfl := Option.some.inj read
    rw [unset]
    exact AList.lookup_empty path
  · simp at read
  · rename_i document
    rw [document]
    refine rel_of_foldlM (f := Loaded.set)
      (R := fun (conf : Loaded) found => Reads path conf.entries found)
      (fun _ _ _ _ reads set => reads.set set) ?_ read
    exact AList.lookup_empty path

end Reading

/-! ## The environment and the mounts -/

section Loading

variable {env : Env} {conf conf' loaded : Loaded} {path : GoString}

/-- `PDWFS_REDIS` is about the connection only. -/
theorem setAddrs_mounts (set : setAddrs env conf = some conf') : conf'.mounts = conf.mounts := by
  unfold setAddrs at set
  split at set
  · obtain rfl := Option.some.inj set
    rfl
  · obtain ⟨redis, -, rfl⟩ := Option.map_eq_some_iff.mp set
    rfl

/-- The mounts that are asked for: the ones of the document, and the one of `PDWFS_MOUNTPATH`, which
replaces one of the document. -/
structure Env.Asks (env : Env) (conf : Loaded) : Prop where
  mountPath : env.mountPath ≠ [] →
    conf.entries.lookup env.mountPath = some (some (defaultMount env.mountPath))
  document : ∀ path, env.mountPath = [] ∨ path ≠ env.mountPath →
    Reads path conf.entries (env.configured path)

/-- The mounts behind `PDWFS_MOUNTPATH`. -/
theorem asks_of_addMount (reads : ∀ path, Reads path conf.entries (env.configured path))
    (add : addMount env conf = some conf') : env.Asks conf' := by
  unfold addMount at add
  split at add
  · rename_i unset
    obtain rfl := Option.some.inj add
    exact ⟨fun isSet => absurd unset isSet, fun path _ => reads path⟩
  · rename_i isSet
    obtain ⟨mounts, some_mounts, rfl⟩ := Option.map_eq_some_iff.mp add
    refine ⟨fun _ => AList.lookup_insert mounts, fun path other => ?_⟩
    apply (reads path).congr
    have entries : conf.entries = mounts := by rw [Loaded.entries, some_mounts, Option.getD_some]
    rw [entries]
    exact AList.lookup_insert_ne (other.resolve_left isSet)

variable {stripeSize : GoString} {order : List (Σ _ : GoString, Option Mount)}
  {mounts mounts' : Mounts}

/-- The loop leaves what it does not come by. -/
theorem lookup_setStripeSizes_of_notMem
    (set : setStripeSizes stripeSize order mounts = some mounts')
    (notMem : order.dlookup path = none) : mounts'.lookup path = mounts.lookup path := by
  induction order generalizing mounts with
  | nil =>
      obtain rfl := Option.some.inj set
      rfl
  | cons entry rest ih =>
      obtain ⟨path', _ | mount⟩ := entry
      · simp [setStripeSizes] at set
      · rw [setStripeSizes] at set
        split at set
        · simp at set
        · have other : path ≠ path' := by
            rintro rfl
            simp at notMem
          rw [List.dlookup_cons_ne _ _ other] at notMem
          rw [ih set notMem, AList.lookup_insert_ne other]

/-- **The loop sets the stripe size of what it comes by.**  That is not `nil`, and the variable is a
number. -/
theorem lookup_setStripeSizes (nodup : order.NodupKeys)
    (set : setStripeSizes stripeSize order mounts = some mounts') {pointer : Option Mount}
    (member : order.dlookup path = some pointer) :
    ∃ mount size, pointer = some mount ∧ atoi stripeSize = some size ∧
      mounts'.lookup path = some (some (mount.resized size)) := by
  induction order generalizing mounts with
  | nil => simp at member
  | cons entry rest ih =>
      obtain ⟨path', _ | mount⟩ := entry
      · simp [setStripeSizes] at set
      · rw [setStripeSizes] at set
        obtain ⟨fresh, nodup⟩ := List.nodupKeys_cons.mp nodup
        split at set
        · simp at set
        · rename_i size value
          by_cases here : path = path'
          · subst here
            obtain rfl : some mount = pointer := by simpa using member
            refine ⟨mount, size, rfl, value, ?_⟩
            rw [lookup_setStripeSizes_of_notMem set (List.dlookup_eq_none.mpr fresh),
              AList.lookup_insert]
          · rw [List.dlookup_cons_ne _ _ here] at member
            exact ih nodup set member

/-- What `load` does before `PDWFS_STRIPESIZE` is read. -/
theorem load_cases (load : load env = some loaded) :
    ∃ conf, env.Asks conf ∧ resize env conf = some loaded := by
  obtain ⟨read, isRead, load⟩ := Option.bind_eq_some_iff.mp load
  obtain ⟨withAddrs, addrs, load⟩ := Option.bind_eq_some_iff.mp load
  obtain ⟨conf, add, resized⟩ := Option.bind_eq_some_iff.mp load
  refine ⟨conf, asks_of_addMount (fun path => ?_) add, resized⟩
  rw [Loaded.entries, setAddrs_mounts addrs]
  exact reads_readConf isRead

/-- Where `PDWFS_STRIPESIZE` is set it is the size of each of the mounts. -/
theorem lookup_resize (isSet : env.stripeSize ≠ []) (resized : resize env conf = some loaded)
    (path : GoString) :
    (conf.entries.lookup path = none ∧ loaded.entries.lookup path = none) ∨
      ∃ mount size, conf.entries.lookup path = some (some mount) ∧
        atoi env.stripeSize = some size ∧
        loaded.entries.lookup path = some (some (mount.resized size)) := by
  rw [resize, if_neg isSet] at resized
  obtain ⟨mounts, set, rfl⟩ := Option.map_eq_some_iff.mp resized
  rcases conf with ⟨_ | before, redis⟩
  · -- The map is `nil`, and the loop has no turn.
    exact .inl ⟨AList.lookup_empty path, AList.lookup_empty path⟩
  · change setStripeSizes env.stripeSize before.entries before = some mounts at set
    show (before.lookup path = none ∧ mounts.lookup path = none) ∨
      ∃ mount size, before.lookup path = some (some mount) ∧ atoi env.stripeSize = some size ∧
        mounts.lookup path = some (some (mount.resized size))
    cases found : before.lookup path with
    | none => exact .inl ⟨rfl, (lookup_setStripeSizes_of_notMem set found).trans found⟩
    | some pointer =>
        obtain ⟨mount, size, rfl, value, result⟩ :=
          lookup_setStripeSizes before.nodupKeys set found
        exact .inr ⟨mount, size, rfl, value, result⟩

/-- The number of bytes is positive in 64 bits. -/
theorem bytesOfMiB_pos_iff {n : ℤ} :
    0 < bytesOfMiB n ↔ 0 < n % 2 ^ 44 ∧ n % 2 ^ 44 < 2 ^ 43 := by
  unfold bytesOfMiB wrap
  omega

/-- Each of the mounts has a positive stripe size. -/
def Loaded.Positive (conf : Loaded) : Prop :=
  ∀ path mount, conf.entries.lookup path = some (some mount) → 0 < mount.stripeSize

/-- The mounts before `PDWFS_STRIPESIZE` is read. -/
theorem positive_iff_of_unset (asks : env.Asks conf) :
    conf.Positive ↔
      ∀ path fields, env.configured path = some (some fields) →
        env.mountPath = [] ∨ path ≠ env.mountPath → 0 < stripeSizeOf fields := by
  constructor
  · intro positive path fields configured other
    obtain ⟨mount, found, size⟩ :=
      (asks.document path other).exists_iff.mpr ⟨fields, configured, rfl⟩
    rw [← size]
    exact positive path mount found
  · intro positive path mount found
    by_cases other : env.mountPath = [] ∨ path ≠ env.mountPath
    · obtain ⟨fields, configured, size⟩ :=
        (asks.document path other).exists_iff.mp ⟨mount, found, rfl⟩
      rw [← size]
      exact positive path fields configured other
    · obtain ⟨isSet, here⟩ := not_or.mp other
      rw [not_not.mp here, asks.mountPath isSet] at found
      obtain rfl := Option.some.inj (Option.some.inj found)
      show 0 < defaultStripeSize
      decide

/-- There is a mount in the environment or in the document if and only if there is
one in the map. -/
theorem mounted_iff (asks : env.Asks conf) :
    env.Mounted ↔ ∃ path, conf.entries.lookup path ≠ none := by
  by_cases isSet : env.mountPath = []
  · have same : ∀ path, env.configured path ≠ none ↔ conf.entries.lookup path ≠ none :=
      fun path => not_congr (asks.document path (.inl isSet)).eq_none_iff.symm
    simp only [Env.Mounted, isSet, ne_eq, not_true_eq_false, false_or, ← same]
  · refine iff_of_true (.inl isSet) ⟨env.mountPath, ?_⟩
    rw [asks.mountPath isSet]
    exact Option.some_ne_none _

/-- The mounts behind the loop of `PDWFS_STRIPESIZE`. -/
theorem positive_iff_of_isSet (isSet : env.stripeSize ≠ [])
    (resized : resize env conf = some loaded) :
    loaded.Positive ↔
      ((∃ path, conf.entries.lookup path ≠ none) →
        ∀ n, atoi env.stripeSize = some n → 0 < bytesOfMiB n) := by
  constructor
  · rintro positive ⟨path, some_mount⟩ n value
    rcases lookup_resize isSet resized path with ⟨missing, -⟩ | ⟨mount, size, -, value', found⟩
    · exact absurd missing some_mount
    · obtain rfl := Option.some.inj (value.symm.trans value')
      exact positive path _ found
  · intro positive path mount found
    rcases lookup_resize isSet resized path with
      ⟨-, missing⟩ | ⟨before, size, found', value, found''⟩
    · exact absurd (missing.symm.trans found) (by simp)
    · obtain rfl := Option.some.inj (Option.some.inj (found''.symm.trans found))
      exact positive ⟨path, by simp [found']⟩ size value

/-- **When the mounts have positive stripe sizes**, before they are verified.  The
verification changes the paths of the mounts and no size. -/
theorem positive_load_iff (isLoaded : load env = some loaded) :
    loaded.Positive ↔ env.Positive := by
  obtain ⟨conf, asks, resized⟩ := load_cases isLoaded
  unfold Env.Positive
  split
  · rename_i unset
    obtain rfl : conf = loaded := by
      rw [resize, if_pos unset] at resized
      exact Option.some.inj resized
    exact positive_iff_of_unset asks
  · rename_i isSet
    rw [positive_iff_of_isSet isSet resized, mounted_iff asks]
    simp only [bytesOfMiB_pos_iff]

end Loading

/-! ## The verification -/

section Verification

variable {getwd : Option Filepath.WorkingDir} {entry : Σ _ : GoString, Option Mount}
  {order rest : List (Σ _ : GoString, Option Mount)}
  {normalized result : AList fun _ : GoString => Mount} {path : GoString} {mount : Mount}

/-- What the verification accepts. -/
def Accepts (getwd : Option Filepath.WorkingDir) (entry : Σ _ : GoString, Option Mount) : Prop :=
  ∃ mount path, entry.2 = some mount ∧ validateMountPath getwd entry.1 = some path ∧
    mount.stripeSize ≤ maxRedisString

/-- A turn of the verification. -/
theorem normalize_cons_iff :
    normalize getwd (entry :: rest) normalized = some result ↔
      ∃ mount path, entry.2 = some mount ∧ validateMountPath getwd entry.1 = some path ∧
        mount.stripeSize ≤ maxRedisString ∧
        normalize getwd rest (normalized.insert path { mount with path := path }) =
          some result := by
  obtain ⟨path, _ | mount⟩ := entry
  · simp [normalize]
  · rw [normalize]
    cases validateMountPath getwd path with
    | none => simp
    | some path' => simp

/-- The verification accepts when it accepts each of the mounts, in whatever order. -/
theorem isSome_normalize_iff :
    (normalize getwd order normalized).isSome ↔ ∀ entry ∈ order, Accepts getwd entry := by
  induction order generalizing normalized with
  | nil => simp [normalize]
  | cons entry rest ih =>
      rw [List.forall_mem_cons, Option.isSome_iff_exists]
      simp only [normalize_cons_iff]
      constructor
      · rintro ⟨result, mount, path, pointer, valid, bounded, run⟩
        exact ⟨⟨mount, path, pointer, valid, bounded⟩, ih.mp (Option.isSome_of_mem run)⟩
      · rintro ⟨⟨mount, path, pointer, valid, bounded⟩, accepts⟩
        obtain ⟨result, run⟩ := Option.isSome_iff_exists.mp (ih.mpr accepts)
        exact ⟨result, mount, path, pointer, valid, bounded, run⟩

/-- A mount of the result has the stripe size of one that the verification has accepted. -/
theorem of_lookup_normalize (run : normalize getwd order normalized = some result)
    (found : result.lookup path = some mount) :
    normalized.lookup path = some mount ∨
      ∃ entry ∈ order, ∃ before, entry.2 = some before ∧
        mount.stripeSize = before.stripeSize ∧ before.stripeSize ≤ maxRedisString := by
  induction order generalizing normalized with
  | nil =>
      obtain rfl := Option.some.inj run
      exact .inl found
  | cons entry rest ih =>
      obtain ⟨before, path', pointer, -, bounded, run⟩ := normalize_cons_iff.mp run
      rcases ih run with earlier | ⟨entry', member, later⟩
      · by_cases here : path = path'
        · subst here
          rw [AList.lookup_insert] at earlier
          obtain rfl := Option.some.inj earlier
          exact .inr ⟨entry, List.mem_cons_self, before, pointer, rfl, bounded⟩
        · rw [AList.lookup_insert_ne here] at earlier
          exact .inl earlier
      · exact .inr ⟨entry', List.mem_cons_of_mem _ member, later⟩

/-- The mount that the verification comes by last is in the result. -/
theorem exists_lookup_normalize {before : Mount} (pointer : entry.2 = some before)
    (run : normalize getwd (order ++ [entry]) normalized = some result) :
    ∃ path, result.lookup path = some { before with path := path } := by
  induction order generalizing normalized with
  | nil =>
      obtain ⟨mount, path, pointer', -, -, run⟩ := normalize_cons_iff.mp run
      obtain rfl := Option.some.inj (pointer.symm.trans pointer')
      obtain rfl := Option.some.inj run
      exact ⟨path, AList.lookup_insert normalized⟩
  | cons _ rest ih =>
      obtain ⟨_, _, -, -, -, run⟩ := normalize_cons_iff.mp run
      exact ih run

end Verification

/-! ## The accepted configurations -/

section Accepted

variable {env : Env} {conf : PdwfsConf} {path : GoString} {mount : Mount}

/-- A positive stripe size that the verification accepts is all that the data store needs. -/
theorem usable_of_pos (positive : 0 < mount.stripeSize)
    (bounded : mount.stripeSize ≤ maxRedisString) : Usable mount where
  positive := positive
  bounded := bounded
  layout policy off data := by
    have small : maxRedisString ≤ 2 ^ 62 := by decide
    exact Wrapped.isSome_layoutLoop positive (bounded.trans small) (by omega)
  progress off data pos left := by
    have small : maxRedisString ≤ 2 ^ 62 := by decide
    exact Wrapped.taken_pos positive (bounded.trans small) left
  last size := by
    rw [Wrapped.lastStripeInfo, if_neg positive.ne']
    rfl

/-- The stripe sizes of an accepted configuration are bounded, and they are those that were read. -/
theorem usable_of_new {loaded : Loaded} (isLoaded : load env = some loaded)
    (positive : loaded.Positive) (new : New env conf)
    (found : conf.mounts.lookup path = some mount) : Usable mount := by
  obtain ⟨loaded', order, isLoaded', perm, run, -⟩ := new
  obtain rfl := Option.some.inj (isLoaded.symm.trans isLoaded')
  rcases of_lookup_normalize run found with none_yet | ⟨entry, member, before, pointer, same, small⟩
  · exact absurd none_yet (by simp)
  · have here : loaded.entries.lookup entry.1 = some (some before) := by
      rw [← pointer]
      exact AList.mem_lookup_iff.mpr (perm.mem_iff.mp member)
    exact usable_of_pos (same ▸ positive entry.1 before here) (same ▸ small)

/-- Each of the mounts that were read is in the result for some order: the one in
which the loop comes by it last.  So a mount that is not usable shows in some
result, also if it shares its absolute path with another one. -/
theorem exists_new {loaded : Loaded} (isLoaded : load env = some loaded) (accepted : New env conf)
    (found : loaded.entries.lookup path = some (some mount)) :
    ∃ conf' path', New env conf' ∧
      conf'.mounts.lookup path' = some { mount with path := path' } := by
  obtain ⟨loaded', order, isLoaded', perm, run, -⟩ := accepted
  obtain rfl := Option.some.inj (isLoaded.symm.trans isLoaded')
  obtain ⟨before, behind, entries⟩ := List.append_of_mem (AList.mem_lookup_iff.mp found)
  have accepts := isSome_normalize_iff.mp (Option.isSome_of_mem run)
  have last : (before ++ behind ++ [Sigma.mk path (some mount)]).Perm loaded.entries.entries := by
    rw [entries, List.append_assoc]
    exact (List.perm_append_singleton _ behind).append_left before
  obtain ⟨result, run'⟩ := Option.isSome_iff_exists.mp <|
    isSome_normalize_iff.mpr fun entry member =>
      accepts entry ((last.trans perm.symm).mem_iff.mp member)
  obtain ⟨path', found'⟩ := exists_lookup_normalize rfl run'
  exact ⟨⟨result, loaded.redis⟩, path', ⟨loaded, _, isLoaded, last, run', rfl⟩, found'⟩

/-- If the environment or the document asks for a stripe size that is not positive, the first byte
of a file cannot be written. -/
theorem exists_stripeLayout_eq_none (accepted : New env conf) (nonpos : ¬env.Positive) :
    ∃ conf', New env conf' ∧ ∃ path mount, conf'.mounts.lookup path = some mount ∧
      ∀ policy byte, Wrapped.stripeLayout policy mount.stripeSize 0 [byte] = none := by
  have ⟨loaded, _, isLoaded, _⟩ := accepted
  rw [← positive_load_iff isLoaded, Loaded.Positive] at nonpos
  simp only [not_forall, not_lt] at nonpos
  obtain ⟨path, mount, found, small⟩ := nonpos
  obtain ⟨conf', path', new, found'⟩ := exists_new isLoaded accepted found
  exact ⟨conf', new, path', _, found', fun policy byte =>
    Wrapped.stripeLayout_of_nonpos policy mount.inRange small byte⟩

/-- **The mounts of an accepted configuration are usable** if and only if the
environment and the document ask for positive stripe sizes.  A configuration is put
together from defaults, a JSON document and two environment variables, in this
order.  It is accepted without a look at the stripe sizes of the document, so that a
size that is missing there is zero. -/
theorem usable_iff (accepted : ∃ conf, New env conf) :
    (∀ conf, New env conf → ∀ path mount, conf.mounts.lookup path = some mount → Usable mount) ↔
      env.Positive := by
  obtain ⟨conf, new⟩ := accepted
  constructor
  · intro usable
    by_contra nonpos
    obtain ⟨conf', new', path, mount, found, panics⟩ := exists_stripeLayout_eq_none new nonpos
    have layout := (usable conf' new' path mount found).layout .doubling 0 [0]
    rw [panics] at layout
    simp at layout
  · intro positive conf' new' path mount found
    have ⟨loaded, _, isLoaded, _⟩ := new
    exact usable_of_new isLoaded ((positive_load_iff isLoaded).mpr positive) new' found

/-- A mount path and a number of MiB, without a document. -/
theorem usable_eightMiB :
    let env : Env :=
      { conf := .unset, redis := [], mountPath := ['/', 'm'], stripeSize := ['8'],
        getwd := none }
    (∃ conf, New env conf) ∧
      ∀ conf, New env conf → ∀ path mount, conf.mounts.lookup path = some mount → Usable mount := by
  intro env
  let mount := (defaultMount ['/', 'm']).resized 8
  have value : atoi ['8'] = some 8 := by decide +kernel
  have isLoaded :
      load env = some ⟨some (AList.singleton ['/', 'm'] (some mount)), some newRedisConf⟩ := by
    simp [load, readConf, setAddrs, addMount, resize, env, Loaded.entries, setStripeSizes, value,
      mount]
  have accepted : ∃ conf, New env conf :=
    ⟨⟨AList.singleton ['/', 'm'] mount, some newRedisConf⟩, _, _, isLoaded, List.Perm.refl _, rfl,
      rfl⟩
  refine ⟨accepted, (usable_iff accepted).mpr ?_⟩
  rw [Env.Positive, if_neg (by decide)]
  intro _ n value'
  obtain rfl : (8 : ℤ) = n := Option.some.inj (value.symm.trans value')
  decide

/-- A mount of the document without a stripe size is accepted.  The first write to one of its files
divides by zero. -/
theorem not_usable_withoutStripeSize :
    let env : Env :=
      { conf := .document [.mounts (some [(['/', 'm'], some [])])], redis := [], mountPath := [],
        stripeSize := [], getwd := none }
    ¬∀ conf, New env conf → ∀ path mount, conf.mounts.lookup path = some mount → Usable mount := by
  intro env usable
  let mount : Mount := { path := ['/', 'm'], stripeSize := 0, inRange := by decide }
  let read : Mount := { mount with path := [] }
  have isLoaded :
      load env = some ⟨some (AList.singleton ['/', 'm'] (some read)), some newRedisConf⟩ := rfl
  have accepted : New env ⟨AList.singleton ['/', 'm'] mount, some newRedisConf⟩ :=
    ⟨_, _, isLoaded, List.Perm.refl _, rfl, rfl⟩
  have layout := (usable _ accepted ['/', 'm'] mount rfl).layout .doubling 0 [1]
  revert layout
  decide

end Accepted

end Config

end Pdwfs
