import CExercises.Core.Handle
import CExercises.HashTable.Def

/-!
# The hash table, block by block

`HashTable/Def.lean` keeps the key of an entry and the array of buckets by value.  Here everything
that `hash_table.c` allocates is a block: the header, the array of buckets, each entry, and the copy
of its key that `dup_str` makes.  So the frees that the other model has no room for are there as
well: that of the old array at the end of `rehash`, those of the keys, and the last two lines of
`hmap_free`.

Blocks of different types never overlap, and each type has a heap of its own.  The functions take
the header by value, and the last section puts it behind the pointer that a client holds.
-/

namespace CExercises.HashTable.Heap

/-- `struct Entry`. -/
structure Entry where
  key : Ptr
  value : ℤ
  next : Ptr
  deriving DecidableEq

/-- `struct HashMap`. -/
structure HashMap where
  buckets : Ptr
  capacity : ℕ
  count : ℤ
  deriving DecidableEq

/-- The heaps a header leads to: bucket arrays, entries, and copies of keys. -/
structure Blocks where
  arrays : Memory (List Ptr)
  entries : Memory Entry
  keys : Memory CStr

/-- The heaps together with the header of the one map that lives in them. -/
structure State extends Blocks where
  map : HashMap

/-- Where the blocks of each heap are allocated. -/
structure Mallocs where
  arrays : Malloc (List Ptr)
  entries : Malloc Entry
  keys : Malloc CStr

/-- `bkts[i]`. -/
def loadBucket (arrays : Memory (List Ptr)) (bkts : Ptr) (i : ℕ) : Except Stop Ptr := do
  let ps ← arrays.load bkts
  match ps[i]? with
  | none => .error .outOfBounds
  | some p => return p

/-- `bkts[i] = p`. -/
def storeBucket (arrays : Memory (List Ptr)) (bkts : Ptr) (i : ℕ) (p : Ptr) :
    Except Stop (Memory (List Ptr)) := do
  let ps ← arrays.load bkts
  if i < ps.length then arrays.store bkts (ps.set i p) else .error .outOfBounds

/-- `e->next = q`. -/
def storeNext (entries : Memory Entry) (p q : Ptr) : Except Stop (Memory Entry) := do
  let e ← entries.load p
  entries.store p { e with next := q }

/-! ## Rehashing -/

/-- `while (cur) { ... }` of `rehash`. -/
def rehashChain : ℕ → State → Ptr → Except Stop State
  | 0, _, _ => .error .diverges
  | fuel + 1, s, cur => do
      if cur = none then return s
      let e ← s.entries.load cur
      let next := e.next
      let key ← s.keys.load e.key
      let idx := bucketIndex key s.map.capacity
      let head ← loadBucket s.arrays s.map.buckets idx
      let entries ← storeNext s.entries cur head
      let arrays ← storeBucket s.arrays s.map.buckets idx cur
      let count ← intSucc s.map.count
      rehashChain fuel ⟨⟨arrays, entries, s.keys⟩, { s.map with count := count }⟩ next

/-- `rehash`.  The new array comes zeroed from `calloc`. -/
def rehash (M : Mallocs) (s : State) : Except Stop State := do
  let oldCap := s.map.capacity
  let oldBkts := s.map.buckets
  if intMax < oldCap * 2 then throw .overflow
  let capacity := oldCap * 2
  let (buckets, arrays) := M.arrays.alloc s.arrays (List.replicate capacity none)
  let s ← (List.range oldCap).foldlM (fun s i => do
    let cur ← loadBucket s.arrays oldBkts i
    rehashChain (s.entries.brk + 1) s cur)
    ⟨⟨arrays, s.entries, s.keys⟩, ⟨some buckets, capacity, 0⟩⟩
  let arrays ← s.arrays.free oldBkts
  return { s with arrays := arrays }

/-! ## The public functions -/

/-- The search loop of `hmap_put`, `hmap_get` and `hmap_delete`, with the entry before the one it
stands on. -/
def findFrom (s : State) (key : CStr) : ℕ → Ptr → Ptr → Except Stop (Ptr × Ptr)
  | 0, _, _ => .error .diverges
  | fuel + 1, prev, cur => do
      if cur = none then return (prev, none)
      let e ← s.entries.load cur
      let k ← s.keys.load e.key
      if CStr.strcmp k key = 0 then return (prev, cur)
      findFrom s key fuel cur e.next

/-- `(double)(map->count + 1) / map->capacity > LOAD_MAX`. -/
def overLoaded (map : HashMap) : Bool :=
  loadMax < roundDouble (((map.count + 1 : ℤ) : ℚ) / (map.capacity : ℚ))

/-- `entry_create`.  The copy of the key is made first here; the two blocks are in different
heaps. -/
def entryCreate (M : Mallocs) (s : State) (key : CStr) (value : ℤ) : ℕ × State :=
  let (k, keys) := M.keys.alloc s.keys key
  let (e, entries) := M.entries.alloc s.entries ⟨some k, value, none⟩
  (e, ⟨⟨s.arrays, entries, keys⟩, s.map⟩)

/-- The last four lines of `hmap_put`. -/
def prependEntry (M : Mallocs) (s : State) (idx : ℕ) (key : CStr) (value : ℤ) :
    Except Stop State := do
  let (e, s) := entryCreate M s key value
  let head ← loadBucket s.arrays s.map.buckets idx
  let entries ← storeNext s.entries (some e) head
  let arrays ← storeBucket s.arrays s.map.buckets idx (some e)
  let count ← intSucc s.map.count
  return ⟨⟨arrays, entries, s.keys⟩, { s.map with count := count }⟩

/-- `hmap_put`. -/
def hmapPut (M : Mallocs) (s : State) (key : CStr) (value : ℤ) : Except Stop State := do
  let idx := bucketIndex key s.map.capacity
  let head ← loadBucket s.arrays s.map.buckets idx
  let (_, cur) ← findFrom s key (s.entries.brk + 1) none head
  if cur ≠ none then
    let e ← s.entries.load cur
    let entries ← s.entries.store cur { e with value := value }
    return { s with entries := entries }
  -- the sum in the load test
  let _ ← intSucc s.map.count
  if overLoaded s.map then
    let s ← rehash M s
    prependEntry M s (bucketIndex key s.map.capacity) key value
  else
    prependEntry M s idx key value

/-- `hmap_get`: the hit flag and what `*out` holds afterwards. -/
def hmapGet (s : State) (key : CStr) (out : ℤ) : Except Stop (ℤ × ℤ) := do
  let head ← loadBucket s.arrays s.map.buckets (bucketIndex key s.map.capacity)
  let (_, cur) ← findFrom s key (s.entries.brk + 1) none head
  if cur = none then return (0, out)
  let e ← s.entries.load cur
  return (1, e.value)

/-- `free(cur->key); free(cur);` -/
def freeEntry (s : State) (cur : Ptr) : Except Stop State := do
  let e ← s.entries.load cur
  let keys ← s.keys.free e.key
  let entries ← s.entries.free cur
  return ⟨⟨s.arrays, entries, keys⟩, s.map⟩

/-- `hmap_delete`. -/
def hmapDelete (s : State) (key : CStr) : Except Stop (ℤ × State) := do
  let idx := bucketIndex key s.map.capacity
  let head ← loadBucket s.arrays s.map.buckets idx
  let (prev, cur) ← findFrom s key (s.entries.brk + 1) none head
  if cur = none then return (0, s)
  let e ← s.entries.load cur
  if prev ≠ none then
    let entries ← storeNext s.entries prev e.next
    let s ← freeEntry { s with entries := entries } cur
    let count ← intPred s.map.count
    return (1, { s with map := { s.map with count := count } })
  else
    let arrays ← storeBucket s.arrays s.map.buckets idx e.next
    let s ← freeEntry { s with arrays := arrays } cur
    let count ← intPred s.map.count
    return (1, { s with map := { s.map with count := count } })

/-- `hmap_contains`. -/
def hmapContains (s : State) (key : CStr) (ignored : ℤ) : Except Stop ℤ := do
  let (hit, _) ← hmapGet s key ignored
  return hit

/-- `hmap_create`, up to the block of the header. -/
def hmapCreate (M : Mallocs) : State :=
  let (buckets, arrays) := M.arrays.alloc Memory.empty (List.replicate initialCapacity none)
  ⟨⟨arrays, Memory.empty, Memory.empty⟩, ⟨some buckets, initialCapacity, 0⟩⟩

/-- The inner loop of `hmap_free`. -/
def freeChain : ℕ → State → Ptr → Except Stop State
  | 0, _, _ => .error .diverges
  | fuel + 1, s, cur => do
      if cur = none then return s
      let e ← s.entries.load cur
      let s ← freeEntry s cur
      freeChain fuel s e.next

/-- `hmap_free`, up to its last line. -/
def freeBlocks (s : State) : Except Stop Blocks := do
  let s ← (List.range s.map.capacity).foldlM (fun s i => do
    let cur ← loadBucket s.arrays s.map.buckets i
    freeChain (s.entries.brk + 1) s cur) s
  let arrays ← s.arrays.free s.map.buckets
  return { s.toBlocks with arrays := arrays }

/-! ## Runs -/

/-- Carry out one call. -/
def call (M : Mallocs) (s : State) : Call → Except Stop (State × Ret)
  | .put key value => do return (← hmapPut M s key value, .unit)
  | .get key out => do
      let (hit, out) ← hmapGet s key out
      return (s, .got hit out)
  | .delete key => do
      let (r, s) ← hmapDelete s key
      return (s, .flag r)
  | .contains key => do return (s, .flag (← hmapContains s key 0))

/-- The promise a client makes: the capacity stays below `2 ^ 30` throughout. -/
def CapacityBelow (M : Mallocs) (cs : List Call) : Prop :=
  Along (fun s => s.map.capacity < 2 ^ 30) (call M) (hmapCreate M) cs

/-! ## Behind the pointer -/

/-- The header of a map, and the heaps it leads to. -/
def layout : State ≃ HashMap × Blocks where
  toFun s := (s.map, s.toBlocks)
  invFun p := ⟨p.2, p.1⟩
  left_inv _ := rfl
  right_inv _ := rfl

/-- `HashMap *`. -/
abbrev MapPtr := Handle HashMap Blocks

/-- A client's calls through the pointer that `hmap_create` has returned.  `MH` is where headers are
allocated. -/
def runPtr (MH : Malloc HashMap) (M : Mallocs) (cs : List Call) :
    Except Stop (MapPtr × List Ret) :=
  runCalls (Handle.call layout (call M)) (Handle.create layout MH (hmapCreate M)) cs

/-- `hmap_free`. -/
def hmapFree (map : MapPtr) : Except Stop MapPtr := map.free layout freeBlocks

end CExercises.HashTable.Heap
