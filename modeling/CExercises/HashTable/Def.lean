import CExercises.Core.CInt
import CExercises.Core.CString
import CExercises.Core.Chain
import CExercises.Core.Double
import CExercises.Core.Refinement

/-!
# The chained hash table

`hash_table.c`: an array of buckets, each the head of a chain of entries.  Entries live on the
heap of `Core/Memory.lean`; the key of an entry is its own copy of the caller's string, so it is
kept by value.

Three points of the translation.

* `hash_djb2` is computed in `unsigned long`, that is in `UInt64`, which wraps.
* The load test divides two `int`s converted to `double` and compares with `0.75`; the division
  is `roundDouble` of the exact quotient.
* `capacity * 2`, `count + 1`, `count++` and `count--` are `int` arithmetic.  Outside the range of
  `int` they are undefined, and the model stops with `.overflow`.

Loops along a chain carry the step budget `brk + 1`; see `LinkedList/Def.lean` for why running
out of it means that the loop never ends.  Allocation succeeds.
-/

namespace CExercises.HashTable

/-- `struct Entry`. -/
structure Entry where
  key : CStr
  value : ℤ
  next : Ptr
  deriving DecidableEq

/-- `struct HashMap`. -/
structure HashMap where
  buckets : List Ptr
  capacity : ℕ
  count : ℤ
  deriving DecidableEq

/-- The heap together with the one map that lives in it. -/
structure State where
  mem : Memory Entry
  map : HashMap

def initialCapacity : ℕ := 8

def loadMax : ℚ := 3 / 4

/-- `INT_MAX`. -/
def intMax : ℕ := 2 ^ 31 - 1

/-- `hash_djb2`: `h = h * 33 ^ c` for every byte, starting from 5381. -/
def hashDjb2 (key : CStr) : UInt64 :=
  key.bytes.foldl (fun h c => (h * 33) ^^^ c.toUInt64) 5381

/-- `bucket_index`. -/
def bucketIndex (key : CStr) (capacity : ℕ) : ℕ := (hashDjb2 key).toNat % capacity

/-- `map->buckets[i]`. -/
def loadBucket (map : HashMap) (i : ℕ) : Except Stop Ptr :=
  match map.buckets[i]? with
  | none => .error .outOfBounds
  | some p => .ok p

/-- `map->buckets[i] = p`. -/
def storeBucket (map : HashMap) (i : ℕ) (p : Ptr) : Except Stop HashMap :=
  if i < map.buckets.length then .ok { map with buckets := map.buckets.set i p }
  else .error .outOfBounds

/-- `e->next = q`. -/
def storeNext (m : Memory Entry) (p q : Ptr) : Except Stop (Memory Entry) := do
  let e ← m.load p
  m.store p { e with next := q }

/-- `hmap_create`. -/
def hmapCreate : State :=
  ⟨Memory.empty, ⟨List.replicate initialCapacity none, initialCapacity, 0⟩⟩

/-! ## Rehashing -/

/-- `while (cur) { ... }` of `rehash`: take the entries of one old chain off its front and put
each in front of the chain of its new bucket. -/
def rehashChain : ℕ → State → Ptr → Except Stop State
  | 0, _, _ => .error .diverges
  | fuel + 1, s, cur => do
      if cur = none then return s
      let e ← s.mem.load cur
      let next := e.next
      let idx := bucketIndex e.key s.map.capacity
      let head ← loadBucket s.map idx
      let m ← storeNext s.mem cur head
      let map ← storeBucket s.map idx cur
      let count ← intSucc map.count
      rehashChain fuel ⟨m, { map with count := count }⟩ next

/-- `rehash`. -/
def rehash (s : State) : Except Stop State := do
  let oldBkts := s.map.buckets
  if intMax < s.map.capacity * 2 then throw .overflow
  let capacity := s.map.capacity * 2
  let map : HashMap := ⟨List.replicate capacity none, capacity, 0⟩
  oldBkts.foldlM (fun s cur => rehashChain (s.mem.brk + 1) s cur) ⟨s.mem, map⟩

/-! ## The public functions -/

/-- The search loop of `hmap_put`, `hmap_get` and `hmap_delete`: walk the chain from `cur` to the
entry with the given key, remembering the entry before it. -/
def findFrom (m : Memory Entry) (key : CStr) : ℕ → Ptr → Ptr → Except Stop (Ptr × Ptr)
  | 0, _, _ => .error .diverges
  | fuel + 1, prev, cur => do
      if cur = none then return (prev, none)
      let e ← m.load cur
      if CStr.strcmp e.key key = 0 then return (prev, cur)
      findFrom m key fuel cur e.next

/-- `(double)(map->count + 1) / map->capacity > LOAD_MAX`. -/
def overLoaded (map : HashMap) : Bool :=
  loadMax < roundDouble (((map.count + 1 : ℤ) : ℚ) / (map.capacity : ℚ))

section

variable (M : Malloc Entry)

/-- `entry_create`. -/
def entryCreate (m : Memory Entry) (key : CStr) (value : ℤ) : ℕ × Memory Entry :=
  M.alloc m ⟨key, value, none⟩

/-- The last four lines of `hmap_put`: a new entry in front of bucket `idx`. -/
def prependEntry (s : State) (idx : ℕ) (key : CStr) (value : ℤ) : Except Stop State := do
  let (e, m) := entryCreate M s.mem key value
  let head ← loadBucket s.map idx
  let m ← storeNext m (some e) head
  let map ← storeBucket s.map idx (some e)
  let count ← intSucc map.count
  return ⟨m, { map with count := count }⟩

/-- `hmap_put`. -/
def hmapPut (s : State) (key : CStr) (value : ℤ) : Except Stop State := do
  let idx := bucketIndex key s.map.capacity
  let head ← loadBucket s.map idx
  let (_, cur) ← findFrom s.mem key (s.mem.brk + 1) none head
  if cur ≠ none then
    let e ← s.mem.load cur
    let m ← s.mem.store cur { e with value := value }
    return ⟨m, s.map⟩
  -- the sum in the load test
  let _ ← intSucc s.map.count
  if overLoaded s.map then
    let s ← rehash s
    prependEntry M s (bucketIndex key s.map.capacity) key value
  else
    prependEntry M s idx key value

end

/-- `hmap_get`: the hit flag and what `*out` holds afterwards. -/
def hmapGet (s : State) (key : CStr) (out : ℤ) : Except Stop (ℤ × ℤ) := do
  let head ← loadBucket s.map (bucketIndex key s.map.capacity)
  let (_, cur) ← findFrom s.mem key (s.mem.brk + 1) none head
  if cur = none then return (0, out)
  let e ← s.mem.load cur
  return (1, e.value)

/-- `hmap_delete`. -/
def hmapDelete (s : State) (key : CStr) : Except Stop (ℤ × State) := do
  let idx := bucketIndex key s.map.capacity
  let head ← loadBucket s.map idx
  let (prev, cur) ← findFrom s.mem key (s.mem.brk + 1) none head
  if cur = none then return (0, s)
  let e ← s.mem.load cur
  if prev ≠ none then
    let m ← storeNext s.mem prev e.next
    let m ← m.free cur
    let count ← intPred s.map.count
    return (1, ⟨m, { s.map with count := count }⟩)
  else
    let map ← storeBucket s.map idx e.next
    let m ← s.mem.free cur
    let count ← intPred map.count
    return (1, ⟨m, { map with count := count }⟩)

/-- `hmap_contains`: `hmap_get` with an uninitialised `ignored` for its result. -/
def hmapContains (s : State) (key : CStr) (ignored : ℤ) : Except Stop ℤ := do
  let (hit, _) ← hmapGet s key ignored
  return hit

/-! ## Runs -/

/-- A call of one of the four public functions.  `out` is what the caller's variable holds before
`hmap_get`. -/
inductive Call
  | put (key : CStr) (value : ℤ)
  | get (key : CStr) (out : ℤ)
  | delete (key : CStr)
  | contains (key : CStr)
  deriving DecidableEq

/-- What a call returns: nothing, a flag together with the caller's variable, or a flag. -/
inductive Ret
  | unit
  | got (hit out : ℤ)
  | flag (r : ℤ)
  deriving DecidableEq

/-- Carry out one call. -/
def call (M : Malloc Entry) (s : State) : Call → Except Stop (State × Ret)
  | .put key value => do return (← hmapPut M s key value, .unit)
  | .get key out => do
      let (hit, out) ← hmapGet s key out
      return (s, .got hit out)
  | .delete key => do
      let (r, s) ← hmapDelete s key
      return (s, .flag r)
  | .contains key => do return (s, .flag (← hmapContains s key 0))

/-- A client's calls on a map that starts empty. -/
def run (M : Malloc Entry) (cs : List Call) : Except Stop (State × List Ret) :=
  runCalls (call M) hmapCreate cs

/-- The promise a client makes: the capacity stays below `2 ^ 30` throughout. -/
def CapacityBelow (M : Malloc Entry) (cs : List Call) : Prop :=
  Along (fun s => s.map.capacity < 2 ^ 30) (call M) hmapCreate cs

end CExercises.HashTable
