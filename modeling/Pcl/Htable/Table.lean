import Pcl.ErrState
import Pcl.Lib.Chain

/-!
# The hash table

`src/htable`. The entries are stored in insertion order in `entries`; the entries of one bucket are
chained through their `next` indices, starting from `entryLookup`. An index of `-1` is `none`, a
`NULL` key or value too. The two arrays stand for the single block that the C code allocates for
both: an access outside an array is undefined behaviour. The callbacks `key_equals` and `hashcode`
are fields, as in C; `remove_entry` is the flag `removeEntry`, and an operation returns the list of
entries it passed to the callback.
-/

namespace Pcl

open LinkedStore

/-- A load factor `num / 2 ^ shift` (a `float` is dyadic), small enough for its product with any
capacity to be an `int`. -/
structure LoadFac where
  num : Nat
  shift : Nat
  lt_two : num < 2 * 2 ^ shift

/-- `(int) (loadfac * (float) capacity)`. The conversion of the capacity and the product are exact,
since a capacity is a power of two. -/
def LoadFac.threshold (f : LoadFac) (capacity : Nat) : Nat := f.num * capacity / 2 ^ f.shift

/-- `MAX_LOADFAC`: `0.75f`. -/
def maxLoadfac : LoadFac := ⟨3, 2, by decide⟩

/-- `MIN_LOADFAC`: the `float` closest to `0.2`. -/
def minLoadfac : LoadFac := ⟨13421773, 26, by decide⟩

/-- `MINTBLSIZE`. -/
def minTblSize : Nat := 8

/-- The largest capacity of the 64-bit build. -/
def maxTblSize : Nat := 2 ^ 30

/-- `pcl_htable_entry_t`. -/
structure Entry (K V : Type) where
  next : Option Nat
  code : UInt64
  key : Option K
  value : Option V

/-- `tag_pcl_htable`. -/
structure HTable (K V : Type) where
  count : Nat
  countUsed : Nat
  capacity : Nat
  tableMask : Nat
  entries : Array (Entry K V)
  entryLookup : Array (Option Nat)
  keyLen : Nat
  minLoadfac : LoadFac
  maxLoadfac : LoadFac
  removeEntry : Bool
  keyEquals : K → K → Nat → Bool
  hashcode : K → Nat → UInt64

variable {K V : Type}

/-- A zeroed entry. -/
def Entry.zero : Entry K V := ⟨some 0, 0, none, none⟩

/-- The content of a deleted slot. -/
def Entry.deleted : Entry K V := ⟨none, 0, none, none⟩

/-! ### Capacities -/

/-- `x |= x >> k`. -/
def smear (x k : Nat) : Nat := x ||| x >>> k

/-- The rounding of `ipcl_htable_chkcapacity`: up to the next power of two. -/
def roundCapacity (capacity : Nat) : Nat :=
  let capacity := max capacity minTblSize
  if capacity &&& (capacity - 1) ≠ 0 then
    smear (smear (smear (smear (smear capacity 1) 2) 4) 8) 16 + 1
  else
    capacity

/-- `ipcl_htable_chkcapacity`. -/
def ipclHtableChkcapacity (capacity : Nat) : ErrM Int :=
  let capacity := roundCapacity capacity
  if capacity > maxTblSize then setErr (loc "htable_chkcapacity.c" "ipcl_htable_chkcapacity" 76) eRange
  else pure capacity

/-- The entries of `ipcl_htable_init`. -/
def initEntries (capacity : Nat) : Array (Entry K V) := Array.replicate capacity Entry.zero

/-- The buckets of `ipcl_htable_init`. -/
def initLookup (capacity : Nat) : Array (Option Nat) := Array.replicate capacity none

/-- An empty table with the default load factors and the callbacks the application assigns. -/
def freshTable (capacity keyLen : Nat) (removeEntry : Bool) (keyEquals : K → K → Nat → Bool)
    (hashcode : K → Nat → UInt64) : HTable K V where
  count := 0
  countUsed := 0
  capacity := capacity
  tableMask := capacity - 1
  entries := initEntries capacity
  entryLookup := initLookup capacity
  keyLen := keyLen
  minLoadfac := Pcl.minLoadfac
  maxLoadfac := Pcl.maxLoadfac
  removeEntry := removeEntry
  keyEquals := keyEquals
  hashcode := hashcode

/-- `pcl_htable`. -/
def htable (capacity : Int) (keyLen : Nat) (removeEntry : Bool) (keyEquals : K → K → Nat → Bool)
    (hashcode : K → Nat → UInt64) : ErrM (Option (HTable K V)) := do
  let capacity ← ipclHtableChkcapacity (if capacity < 0 then 0 else capacity.toNat)
  if capacity < 0 then
    trcNull (loc "htable.c" "pcl_htable" 64)
  else
    return some (freshTable capacity.toNat keyLen removeEntry keyEquals hashcode)

namespace HTable

/-- The bucket of a hash code. -/
def hashIdx (ht : HTable K V) (code : UInt64) : Nat := code.toNat &&& ht.tableMask

/-- The test both chain walks make on an entry. -/
def isEntryOf (ht : HTable K V) (code : UInt64) (key : K) (e : Entry K V) : Bool :=
  e.code == code && e.key.any fun k => ht.keyEquals k key ht.keyLen

/-- The walk along the chain of the bucket of `key`: the entry of `key`, its index and the index
before it on the chain. -/
def walkChain (ht : HTable K V) (key : K) : Option (Option (Option Nat × Nat × Entry K V)) :=
  let code := ht.hashcode key ht.keyLen
  (ht.entryLookup[ht.hashIdx code]?).bind fun entidx =>
    search (fun i => ht.entries[i]?) Entry.next (ht.isEntryOf code key) (ht.entries.size + 1) none entidx

end HTable

/-- `ipcl_htable_lookup`: the index of the entry of `key`. -/
def ipclHtableLookup (ht : HTable K V) (key : K) : ErrM (Option Nat) :=
  match ht.walkChain key with
  | none => ErrM.undef
  | some none => setErrNull (loc "htable_lookup.c" "ipcl_htable_lookup" 71) eNotfound
  | some (some (_, entidx, _)) => pure (some entidx)

/-- `pcl_htable_lookup`. -/
def htableLookup (ht : HTable K V) (key : Option K) : ErrM (Option Nat) :=
  match key with
  | none => setErrNull (loc "htable_lookup.c" "pcl_htable_lookup" 39) eInval
  | some key => do
    match ← ipclHtableLookup ht key with
    | some e => return some e
    | none => trcNull (loc "htable_lookup.c" "pcl_htable_lookup" 43)

/-- `pcl_htable_get`. -/
def htableGet (ht : HTable K V) (key : Option K) : ErrM (Option V) := do
  match ← htableLookup ht key with
  | none => trcNull (loc "htable_get.c" "pcl_htable_get" 41)
  | some e =>
    -- the caller tells a NULL value from a failure by the error code
    let _ ← errClear
    match ht.entries[e]? with
    | none => ErrM.undef
    | some e => return e.value

/-! ### Rehashing -/

/-- Store `ent` at `entries[idx]` and link it into the chain of bucket `hashidx`: behind the head
of the chain, or as its head. -/
def linkEntry (entries : Array (Entry K V)) (entryLookup : Array (Option Nat)) (hashidx idx : Nat)
    (ent : Entry K V) : Option (Array (Entry K V) × Array (Option Nat)) :=
  if idx < entries.size then
    match entryLookup[hashidx]? with
    | none => none
    | some none => some (entries.setIfInBounds idx { ent with next := none },
        entryLookup.setIfInBounds hashidx (some idx))
    | some (some entidx) =>
      match entries[entidx]? with
      | none => none
      | some head => some ((entries.setIfInBounds idx { ent with next := head.next }).modify entidx
          fun head => { head with next := some idx }, entryLookup)
  else
    none

/-- The loop of `ipcl_htable_rehash` over the old entries; `count` entries are in the new arrays. -/
def rehashLoop (newTableMask : Nat) : List (Entry K V) → Nat → Array (Entry K V) →
    Array (Option Nat) → Option (Array (Entry K V) × Array (Option Nat))
  | [], _, newEntries, newEntryLookup => some (newEntries, newEntryLookup)
  | oldent :: rest, count, newEntries, newEntryLookup =>
    -- skip deleted slots
    if oldent.key.isNone then rehashLoop newTableMask rest count newEntries newEntryLookup
    else
      (linkEntry newEntries newEntryLookup (oldent.code.toNat &&& newTableMask) count oldent).bind
        fun new => rehashLoop newTableMask rest (count + 1) new.1 new.2

/-- `ipcl_htable_rehash`. -/
def ipclHtableRehash (ht : HTable K V) (grow : Bool) : ErrM (Int × HTable K V) := do
  let newCapacity ← ipclHtableChkcapacity (if grow then ht.capacity <<< 1 else ht.capacity >>> 1)
  if newCapacity < 0 then
    let r ← trc (loc "htable_rehash.c" "ipcl_htable_rehash" 46)
    return (r, ht)
  else
    let newCapacity := newCapacity.toNat
    match rehashLoop (newCapacity - 1) (ht.entries.toList.take ht.countUsed) 0
      (initEntries newCapacity) (initLookup newCapacity) with
    | none => ErrM.undef
    | some (newEntries, newEntryLookup) => return (0, { ht with
        capacity := newCapacity, tableMask := newCapacity - 1
        entries := newEntries, entryLookup := newEntryLookup, countUsed := ht.count })

/-! ### Put, remove, clear -/

/-- The entries passed to `remove_entry`, when the callback is set. -/
def HTable.removed (ht : HTable K V) (l : List (K × Option V)) : List (K × Option V) :=
  if ht.removeEntry then l else []

/-- The replacement branch of `pcl_htable_put` at `entries[i]`. -/
def replaceEntry (ht : HTable K V) (i : Nat) (key : K) (value : Option V) :
    HTable K V × List (K × Option V) :=
  ({ ht with entries := ht.entries.modify i fun e => { e with key := some key, value := value } },
    ht.removed ((ht.entries[i]?.bind fun e => e.key.map (·, e.value)).toList))

/-- The insertion of `pcl_htable_put` at `entries[count_used]`. -/
def addEntry (ht : HTable K V) (key : K) (value : Option V) (code : UInt64) : Option (HTable K V) :=
  (linkEntry ht.entries ht.entryLookup (ht.hashIdx code) ht.countUsed ⟨none, code, some key, value⟩).map
    fun new => { ht with
      entries := new.1, entryLookup := new.2, count := ht.count + 1, countUsed := ht.countUsed + 1 }

/-- `pcl_htable_put`. -/
def htablePut (ht : HTable K V) (key : Option K) (value : Option V) (unique : Bool) :
    ErrM (Int × HTable K V × List (K × Option V)) :=
  match key with
  | none => do
    let r ← badArg (loc "htable_put.c" "pcl_htable_put" 41)
    return (r, ht, [])
  | some key => do
    errFreeze true
    let e ← ipclHtableLookup ht key
    errFreeze false
    match e with
    | some i =>
      if unique then
        let r ← setErr (loc "htable_put.c" "pcl_htable_put" 53) eExist
        return (r, ht, [])
      else
        let (ht, removed) := replaceEntry ht i key value
        return (0, ht, removed)
    | none =>
      let (r, ht) ← if ht.count ≥ ht.maxLoadfac.threshold ht.capacity then ipclHtableRehash ht true
        else pure (0, ht)
      if r ≠ 0 then
        let r ← trc (loc "htable_put.c" "pcl_htable_put" 74)
        return (r, ht, [])
      else
        match addEntry ht key value (ht.hashcode key ht.keyLen) with
        | none => ErrM.undef
        | some ht => return (0, ht, [])

/-- Unlink `entries[entidx]`, with content `ent`, from its chain and mark the slot as deleted. -/
def unlinkEntry (ht : HTable K V) (hashidx : Nat) (prev : Option Nat) (entidx : Nat) (ent : Entry K V) :
    HTable K V :=
  let ht := match prev with
    | some prev => { ht with entries := ht.entries.modify prev fun e => { e with next := ent.next } }
    | none => { ht with entryLookup := ht.entryLookup.setIfInBounds hashidx ent.next }
  { ht with entries := ht.entries.setIfInBounds entidx Entry.deleted, count := ht.count - 1 }

/-- `pcl_htable_remove`. -/
def htableRemove (ht : HTable K V) (key : Option K) : ErrM (Int × HTable K V × List (K × Option V)) :=
  match key with
  | none => do
    let r ← badArg (loc "htable_remove.c" "pcl_htable_remove" 39)
    return (r, ht, [])
  | some key =>
    match ht.walkChain key with
    | none => ErrM.undef
    | some none => return (ht.count, ht, [])
    | some (some (prev, entidx, ent)) => do
      let removed := ht.removed ((ent.key.map (·, ent.value)).toList)
      let ht := unlinkEntry ht (ht.hashIdx (ht.hashcode key ht.keyLen)) prev entidx ent
      let (r, ht) ← if ht.capacity ≠ minTblSize ∧ ht.count < ht.minLoadfac.threshold ht.capacity then
          ipclHtableRehash ht false
        else pure (0, ht)
      if r < 0 then
        let r ← trc (loc "htable_remove.c" "pcl_htable_remove" 68)
        return (r, ht, removed)
      else
        return (ht.count, ht, removed)

namespace HTable

/-- The entry stored at an index, without its link; `none` for a deleted slot. -/
def pairAt (entries : Array (Entry K V)) (i : Nat) : Option (K × Option V) :=
  entries[i]?.bind fun e => e.key.map (·, e.value)

/-- The live entries, in the order of `entries`. -/
def live (ht : HTable K V) : List (K × Option V) :=
  (List.range ht.countUsed).filterMap (pairAt ht.entries)

end HTable

/-- `pcl_htable_clear`. -/
def htableClear (ht : HTable K V) (shrink : Bool) : HTable K V × List (K × Option V) :=
  let capacity := if shrink && ht.capacity != minTblSize then minTblSize else ht.capacity
  let tableMask := if shrink && ht.capacity != minTblSize then minTblSize - 1 else ht.tableMask
  ({ ht with
      capacity, tableMask, entries := initEntries capacity, entryLookup := initLookup capacity
      count := 0, countUsed := 0 },
    ht.removed ht.live)

/-! ### Iteration -/

/-- `pcl_htable_keys`. -/
def htableKeys (ht : HTable K V) : List K :=
  if ht.count ≠ 0 then (List.range ht.countUsed).filterMap fun i => ht.entries[i]?.bind Entry.key
  else []

/-- `pcl_htable_iter`: the index of the next live entry from `index` on, and the next `index`. -/
def htableIter (ht : HTable K V) (index : Int) : Option Nat × Int :=
  if index < 0 ∨ index ≥ ht.countUsed then (none, index)
  else
    match (List.range' index.toNat (ht.countUsed - index.toNat)).find? fun i =>
      (ht.entries[i]?.bind Entry.key).isSome with
    | some i => (some i, i + 1)
    | none => (none, -1)

/-- `while((ent = pcl_htable_iter(ht, &index)))`: the entries the loop visits, `n` of them at most. -/
def iterLoop (ht : HTable K V) : Nat → Int → List (K × Option V)
  | 0, _ => []
  | n + 1, index =>
    match htableIter ht index with
    | (none, _) => []
    | (some i, index) => (HTable.pairAt ht.entries i).toList ++ iterLoop ht n index

end Pcl
