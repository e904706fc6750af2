import FiscoBcos.Lib.FlushList
import FiscoBcos.Trie.Hasher
import Mathlib

/-!
# The dirty cache of the trie database

`trie/database.go` keeps the nodes a trie has committed, and the blobs of
`InsertBlob`, in `dirties` until they are written to disk. Each entry counts
its parents, may hold a map of external children (`Reference`), and sits on
the flush-list, a doubly linked list through `flushPrev` and `flushNext` from
`oldest` to `newest` in the order of insertion. Two counters track the memory
in use: `dirtiesSize`, 32 bytes and the blob's length for each entry, and
`childrenSize`, 48 bytes for each children map and 34 for each entry in one.

The operations are modelled as the source writes them: `insert`
(`Trie.Commit` inserts the collapsed nodes the hasher stores, `InsertBlob` a
raw blob), `reference`, `dereference`, which drops unreferenced nodes and
cascades to their children, `Cap`, which flushes the oldest nodes until the
size falls below a limit, and `Commit`, which writes a node and everything
below it in post-order, batch by batch, and replays each written batch
through the `cleaner` to drop the written nodes from the cache. A field of a
missing entry is a nil pointer, and Go panics; the recursions and loops, which
a cycle among the entries would make run forever, are bounded by fuel.

The metaroot, the entry of the empty hash, holds the references of the roots
in its children map; that map has no 48 bytes in `childrenSize`, as `Size`
counts it. `Bookkept` states what the two counters stand for, and
`cleaner_drops_children_from_dirtiesSize` shows where `cleaner.Put` breaks it:
it takes the size of a written node's children map from `dirtiesSize` instead
of `childrenSize`.

Not modelled: the preimages, which `Cap` and `Commit` flush in batches of
their own; the clean cache, where `cleaner.Put` copies what it drops; the
garbage collection statistics and logs; the lock. A Go map is an `AList`, and
the order of a children map is its list's (Go randomises it; no statement here
depends on it).
-/

namespace FiscoBcos.Trie

namespace DirtyCache

/-- `common.HashLength`. -/
def HashLength : Int := 32

/-- `cachedNodeChildrenSize`: the size of an empty children map. -/
def cachedNodeChildrenSize : Int := 48

/-- `cachedNodeSize`, `reflect.TypeOf(cachedNode{}).Size()` on a 64-bit
platform: the node interface (16 bytes), `size` (2, padded to 4), `parents`
(4), the children map (8) and the two flush-list hashes (32 each). -/
def cachedNodeSize : Int := 96

/-- `ethdb.IdealBatchSize`. -/
def IdealBatchSize : Nat := 100 * 1024

/-- A Go map with hash keys. -/
abbrev HashMap (β : Type) := AList fun _ : List UInt8 => β

/-- What an entry holds: a collapsed trie node, or a blob of `InsertBlob`
kept undecoded (`rawNode`). The metaroot holds the nil node. -/
inductive Stored where
  | node (n : Node (List UInt8))
  | raw (blob : List UInt8)

/-- `cachedNode`. -/
structure CachedNode where
  node : Stored
  size : UInt16
  parents : UInt32
  children : Option (HashMap UInt16)
  flushPrev : List UInt8
  flushNext : List UInt8

/-- `gatherChildren`: the hashes below a collapsed node, down to the nodes it
embeds; slot 16 of a full node holds a value. -/
def gatherChildren : Node (List UInt8) → List (List UInt8)
  | .short _ v => gatherChildren v
  | .full cs => (List.finRange 16).flatMap fun i => gatherChildren (cs i.castSucc)
  | .hash h => [bytesToHash h]
  | .value _ => []
  | .nil => []

namespace CachedNode

/-- `childs`: the external children first, then those inside the node. -/
def childs (n : CachedNode) : List (List UInt8) :=
  (n.children.map AList.keys).getD [] ++
    match n.node with
    | .raw _ => []
    | .node c => gatherChildren c

/-- `rlp`: a raw blob as it is, a collapsed node encoded. -/
def rlp (n : CachedNode) : List UInt8 :=
  match n.node with
  | .raw blob => blob
  | .node c => c.encode

/-- The size of the entry's children map, as `Cap` and `cleaner.Put` count
it. -/
def childrenMapSize (n : CachedNode) : Int :=
  match n.children with
  | some children => cachedNodeChildrenSize + children.entries.length * (HashLength + 2)
  | none => 0

end CachedNode

/-- `ethdb.Batch` of the memory database: the puts in order, and `ValueSize`,
the length of the values put. -/
structure Batch where
  writes : List (List UInt8 × List UInt8)
  size : Nat

namespace Batch

/-- A new batch, or one after `Reset`. -/
def empty : Batch := ⟨[], 0⟩

def Put (b : Batch) (key value : List UInt8) : Batch :=
  ⟨b.writes ++ [(key, value)], b.size + value.length⟩

def ValueSize (b : Batch) : Nat := b.size

end Batch

/-- `Database`, the part that keeps dirty nodes, with the disk as the list of
the batches written to it. -/
structure Database where
  diskdb : List (List (List UInt8 × List UInt8))
  dirties : HashMap CachedNode
  oldest : List UInt8
  newest : List UInt8
  dirtiesSize : Int
  childrenSize : Int

/-- The metaroot: no node, an empty children map. -/
def metaroot : CachedNode :=
  { node := .node .nil, size := 0, parents := 0, children := some ∅,
    flushPrev := zeroHash, flushNext := zeroHash }

/-- `NewDatabase`: the metaroot as the only entry. -/
def NewDatabase : Database :=
  { diskdb := [], dirties := AList.singleton zeroHash metaroot, oldest := zeroHash,
    newest := zeroHash, dirtiesSize := 0, childrenSize := 0 }

/-- The panic of the Go runtime on a field of a missing entry. -/
def nilPointer : TrieError := .panic "runtime error: invalid memory address or nil pointer dereference"

/-- A write through the pointer a map holds: a missing entry is a nil
pointer. -/
def modify {β : Type} (m : HashMap β) (key : List UInt8) (f : β → β) : Except TrieError (HashMap β) :=
  match m.lookup key with
  | none => .error nilPointer
  | some v => .ok (m.replace key (f v))

namespace Database

/-- `batch.Write()`. -/
def write (db : Database) (batch : Batch) : Database :=
  { db with diskdb := db.diskdb ++ [batch.writes] }

/-! ## Inserting -/

/-- One more parent for each of the children that are dirty. -/
def addParents (dirties : HashMap CachedNode) (childs : List (List UInt8)) : HashMap CachedNode :=
  childs.foldl (fun dirties child =>
    match dirties.lookup child with
    | some c => dirties.replace child { c with parents := c.parents + 1 }
    | none => dirties) dirties

/-- `insert`: a new entry at the end of the flush-list, unless the hash is
cached already. -/
def insert (db : Database) (hash blob : List UInt8) (node : Stored) : Except TrieError Database :=
  if hash ∈ db.dirties then .ok db
  else
    let entry : CachedNode :=
      { node, size := blob.length.toUInt16, parents := 0, children := none,
        flushPrev := db.newest, flushNext := zeroHash }
    let dirties := (addParents db.dirties entry.childs).insert hash entry
    -- `common.HashLength + entry.size` is a `uint16` sum, which wraps for a
    -- blob of 65504 bytes or more; the removals add in `int`
    let dirtiesSize := db.dirtiesSize + (HashLength.toNat.toUInt16 + entry.size).toNat
    if db.oldest = zeroHash then
      .ok { db with dirties, oldest := hash, newest := hash, dirtiesSize }
    else
      (modify dirties db.newest fun n => { n with flushNext := hash }).map fun dirties =>
        { db with dirties, newest := hash, dirtiesSize }

/-- `InsertBlob`. -/
def InsertBlob (db : Database) (hash blob : List UInt8) : Except TrieError Database :=
  db.insert hash blob (.raw blob)

/-- The inserts of `Trie.Commit`: each node the hasher stores, with its
encoding as the blob. -/
def insertAll (db : Database) (writes : Writes) : Except TrieError Database :=
  writes.foldlM (fun db w => db.insert w.1 w.2.encode (.node w.2)) db

/-! ## References -/

/-- The counting half of `reference`: one more parent of the child, one more
reference in the parent's map, and the size of a new map entry. -/
def addReference (db : Database) (child parent : List UInt8) : Except TrieError Database := do
  let dirties ← modify db.dirties child fun n => { n with parents := n.parents + 1 }
  let some p := dirties.lookup parent | throw nilPointer
  let children := p.children.getD ∅
  let count := (children.lookup child).getD 0 + 1
  pure { db with
    dirties := dirties.replace parent { p with children := some (children.insert child count) },
    childrenSize := if count = 1 then db.childrenSize + (HashLength + 2) else db.childrenSize }

/-- `reference`: a child that is not cached was loaded from disk; a parent
gets its children map on its first reference; only the metaroot counts a
reference twice. -/
def reference (db : Database) (child parent : List UInt8) : Except TrieError Database :=
  if child ∉ db.dirties then .ok db
  else
    match db.dirties.lookup parent with
    | none => .error nilPointer
    | some p =>
      match p.children with
      | some children =>
        if child ∈ children ∧ parent ≠ zeroHash then .ok db else db.addReference child parent
      | none =>
        { db with
          dirties := db.dirties.replace parent { p with children := some ∅ },
          childrenSize := db.childrenSize + cachedNodeChildrenSize }.addReference child parent

/-- The switch that takes an entry off the flush-list, as `dereference` and
`cleaner.Put` write it. -/
def unlink (db : Database) (hash : List UInt8) (node : CachedNode) : Except TrieError Database :=
  if hash = db.oldest then
    (modify db.dirties node.flushNext fun n => { n with flushPrev := zeroHash }).map fun dirties =>
      { db with oldest := node.flushNext, dirties }
  else if hash = db.newest then
    (modify db.dirties node.flushPrev fun n => { n with flushNext := zeroHash }).map fun dirties =>
      { db with newest := node.flushPrev, dirties }
  else do
    let dirties ← modify db.dirties node.flushPrev fun n => { n with flushNext := node.flushNext }
    let dirties ← modify dirties node.flushNext fun n => { n with flushPrev := node.flushPrev }
    pure { db with dirties }

/-- The parent's side of `dereference`: one reference fewer in its children
map, and the map entry dropped at zero. -/
def dropReference (db : Database) (p : CachedNode) (child parent : List UInt8) : Database :=
  match p.children with
  | some children =>
    match children.lookup child with
    | some count =>
      if count > 0 then
        if count - 1 = 0 then
          { db with
            dirties := db.dirties.replace parent { p with children := some (children.erase child) },
            childrenSize := db.childrenSize - (HashLength + 2) }
        else
          { db with dirties := db.dirties.replace parent { p with children := some (children.insert child (count - 1)) } }
      else db
    | none => db
  | none => db

/-- `dereference`: drop the parent's reference; a child left without parents
leaves the flush-list, dereferences its own children and is deleted. -/
def dereference : Nat → Database → List UInt8 → List UInt8 → Except TrieError Database
  | 0, _, _, _ => .error .fuelExhausted
  | fuel + 1, db, child, parent => do
    let some p := db.dirties.lookup parent | throw nilPointer
    let db := db.dropReference p child parent
    -- a child that is not cached was committed before
    let some node := db.dirties.lookup child | pure db
    -- a node reloaded from disk may have no parents left to drop
    let node := if node.parents > 0 then { node with parents := node.parents - 1 } else node
    let db := { db with dirties := db.dirties.replace child node }
    if node.parents = 0 then
      let db ← db.unlink child node
      let db ← node.childs.foldlM (fun db hash => dereference fuel db hash child) db
      pure { db with
        dirties := db.dirties.erase child,
        dirtiesSize := db.dirtiesSize - (HashLength + node.size.toNat),
        childrenSize := if node.children.isSome then db.childrenSize - cachedNodeChildrenSize
          else db.childrenSize }
    else pure db

/-- `Dereference`: the metaroot is never dereferenced. -/
def Dereference (fuel : Nat) (db : Database) (root : List UInt8) : Except TrieError Database :=
  if root = zeroHash then .ok db else dereference fuel db root zeroHash

/-! ## Flushing the oldest nodes -/

/-- The first loop of `Cap`: from `oldest`, put the nodes into the batch,
writing it whenever it is full, until the size is below the limit. -/
def capFlush (limit : Int) : Nat → Database → Batch → Int → List UInt8 →
    Except TrieError (Database × Batch × List UInt8)
  | 0, _, _, _, _ => .error .fuelExhausted
  | fuel + 1, db, batch, size, oldest =>
    if size > limit ∧ oldest ≠ zeroHash then
      match db.dirties.lookup oldest with
      | none => .error nilPointer
      | some node =>
        let batch := batch.Put oldest node.rlp
        let (db, batch) := if batch.ValueSize ≥ IdealBatchSize then (db.write batch, Batch.empty)
          else (db, batch)
        let size := size - (HashLength + node.size.toNat + cachedNodeSize) - node.childrenMapSize
        capFlush limit fuel db batch size node.flushNext
    else .ok (db, batch, oldest)

/-- The second loop of `Cap`: delete the flushed nodes, from the old `oldest`
up to the first one kept. -/
def capRemove (stop : List UInt8) : Nat → Database → Except TrieError Database
  | 0, _ => .error .fuelExhausted
  | fuel + 1, db =>
    if db.oldest ≠ stop then
      match db.dirties.lookup db.oldest with
      | none => .error nilPointer
      | some node =>
        capRemove stop fuel { db with
          dirties := db.dirties.erase db.oldest,
          oldest := node.flushNext,
          dirtiesSize := db.dirtiesSize - (HashLength + node.size.toNat),
          childrenSize := db.childrenSize - node.childrenMapSize }
    else .ok db

/-- `Cap`: the size counts the cached data, the entries' own size and the
children maps but for the metaroot's references. -/
def Cap (fuel : Nat) (db : Database) (limit : Int) : Except TrieError Database := do
  let some root := db.dirties.lookup zeroHash | throw nilPointer
  let size := db.dirtiesSize + (db.dirties.entries.length - 1) * cachedNodeSize +
    (db.childrenSize - ((root.children.map fun c => c.entries.length).getD 0) * (HashLength + 2))
  let (db, batch, oldest) ← capFlush limit fuel db Batch.empty size db.oldest
  let db ← capRemove oldest fuel (db.write batch)
  if db.oldest ≠ zeroHash then
    let dirties ← modify db.dirties db.oldest fun n => { n with flushPrev := zeroHash }
    pure { db with dirties }
  else pure db

/-! ## Committing a trie -/

/-- `cleaner.Put`: a written node leaves the flush-list and the cache. The
size of its children map is taken from `dirtiesSize`. -/
def cleanerPut (db : Database) (key : List UInt8) : Except TrieError Database :=
  let hash := bytesToHash key
  match db.dirties.lookup hash with
  | none => .ok db
  | some node =>
    (db.unlink hash node).map fun db =>
      { db with
        dirties := db.dirties.erase hash,
        dirtiesSize := db.dirtiesSize - (HashLength + node.size.toNat) - node.childrenMapSize }

/-- `batch.Replay(uncacher)`: each put of the batch through `cleaner.Put`. -/
def replay (db : Database) (batch : Batch) : Except TrieError Database :=
  batch.writes.foldlM (fun db w => db.cleanerPut w.1) db

/-- `commit`: the children first, then the node; a full batch is written and
replayed. A node that is not cached was committed before. -/
def commit : Nat → Database × Batch → List UInt8 → Except TrieError (Database × Batch)
  | 0, (db, batch), hash =>
    match db.dirties.lookup hash with
    | none => .ok (db, batch)
    | some _ => .error .fuelExhausted
  | fuel + 1, (db, batch), hash =>
    match db.dirties.lookup hash with
    | none => .ok (db, batch)
    | some node => do
      let (db, batch) ← node.childs.foldlM (fun st child => commit fuel st child) (db, batch)
      let batch := batch.Put hash node.rlp
      if batch.ValueSize ≥ IdealBatchSize then
        let db ← (db.write batch).replay batch
        pure (db, Batch.empty)
      else pure (db, batch)

/-- `Commit`: the trie below `node`, then the last batch written and
replayed. -/
def Commit (fuel : Nat) (db : Database) (node : List UInt8) : Except TrieError Database := do
  let (db, batch) ← commit fuel (db, Batch.empty) node
  (db.write batch).replay batch

end Database

/-- The operations on the dirty cache. -/
inductive Op where
  | commitTrie (writes : Writes)
  | insertBlob (hash blob : List UInt8)
  | reference (child parent : List UInt8)
  | dereference (root : List UInt8)
  | cap (limit : Int)
  | commit (node : List UInt8)

/-- One operation, with `fuel` for its recursions and loops. -/
def Op.run (fuel : Nat) : Op → Database → Except TrieError Database
  | .commitTrie writes, db => db.insertAll writes
  | .insertBlob hash blob, db => db.InsertBlob hash blob
  | .reference child parent, db => db.reference child parent
  | .dereference root, db => db.Dereference fuel root
  | .cap limit, db => db.Cap fuel limit
  | .commit node, db => db.Commit fuel node

/-- The operations in order. -/
def runAll (fuel : Nat) (ops : List Op) (db : Database) : Except TrieError Database :=
  ops.foldlM (fun db op => op.run fuel db) db

/-! ## The bookkeeping -/

/-- The `flushNext` of an entry, the empty hash for a missing one. -/
def nextOf (dirties : HashMap CachedNode) (h : List UInt8) : List UInt8 :=
  ((dirties.lookup h).map CachedNode.flushNext).getD zeroHash

/-- The `flushPrev` of an entry, the empty hash for a missing one. -/
def prevOf (dirties : HashMap CachedNode) (h : List UInt8) : List UInt8 :=
  ((dirties.lookup h).map CachedNode.flushPrev).getD zeroHash

/-- The size an entry adds to `dirtiesSize`, as the removals count it; `insert`
adds the same for a blob below 65504 bytes, and less above, where its
`uint16` sum wraps. -/
def entrySize (dirties : HashMap CachedNode) (h : List UInt8) : Int :=
  ((dirties.lookup h).map fun n => HashLength + n.size.toNat).getD 0

/-- What the children maps add to `childrenSize`: 48 bytes for a map and 34
for each of its entries, the metaroot's map counted by its entries only. -/
def childrenTotal (dirties : HashMap CachedNode) : Int :=
  (dirties.entries.map fun e =>
    match e.2.children with
    | some children =>
      (if e.1 = zeroHash then 0 else cachedNodeChildrenSize) + children.entries.length * (HashLength + 2)
    | none => 0).sum

/-- The flush-list of the dirty cache is `order`: the metaroot is cached;
from `oldest` to `newest`, the list holds every other entry once, linked both
ways. -/
structure FlushListed (db : Database) (order : List (List UInt8)) : Prop where
  metaroot : zeroHash ∈ db.dirties
  nodup : order.Nodup
  entries : ∀ h, h ∈ order ↔ h ∈ db.dirties ∧ h ≠ zeroHash
  linked : Lib.Linked zeroHash (nextOf db.dirties) (prevOf db.dirties) order
  oldest : db.oldest = order.headD zeroHash
  newest : ∀ last ∈ order.getLast?, db.newest = last

/-- The bookkeeping of the dirty cache, with `order` the flush-list: the
counters are the sums of what the entries and their children maps take. -/
structure Bookkept (db : Database) (order : List (List UInt8)) : Prop extends FlushListed db order where
  dirtiesSize : db.dirtiesSize = (order.map (entrySize db.dirties)).sum
  childrenSize : db.childrenSize = childrenTotal db.dirties

/-! ## Where `cleaner.Put` breaks it -/

/-- Two raw blobs, the first referenced from the second. -/
def firstBlob : List UInt8 := List.replicate 32 1

def secondBlob : List UInt8 := List.replicate 32 2

def referencedBlobs : List Op :=
  [.insertBlob firstBlob [1], .insertBlob secondBlob [2], .reference firstBlob secondBlob]

/-- With only the metaroot cached, the flush-list is empty and the entries
take no room. -/
theorem Bookkept.dirtiesSize_of_keys {db : Database} {order : List (List UInt8)} (h : Bookkept db order)
    (keys : db.dirties.keys = [zeroHash]) : db.dirtiesSize = 0 := by
  have empty : order = [] := by
    apply List.eq_nil_iff_forall_not_mem.mpr
    intro x mem
    obtain ⟨cached, ne⟩ := (h.entries x).mp mem
    rw [AList.mem_keys, keys, List.mem_singleton] at cached
    exact ne cached
  rw [h.dirtiesSize, empty, List.map_nil, List.sum_nil]

/-- Two entries besides the metaroot, on the flush-list from the first to
the second. -/
theorem flushListed_pair {db : Database} {a b : List UInt8} (keys : db.dirties.keys = [b, a, zeroHash])
    (ne : a ≠ b) (neA : a ≠ zeroHash) (neB : b ≠ zeroHash) (next : nextOf db.dirties a = b)
    (prev : prevOf db.dirties b = a) (ends : nextOf db.dirties b = zeroHash) (oldest : db.oldest = a)
    (newest : db.newest = b) : FlushListed db [a, b] where
  metaroot := by rw [AList.mem_keys, keys]; simp
  nodup := by simp [ne]
  entries := fun h => by
    rw [AList.mem_keys, keys]
    simp only [List.mem_cons, List.not_mem_nil, or_false]
    grind
  linked := ⟨List.isChain_pair.mpr ⟨next, prev⟩, by simpa using ends⟩
  oldest := oldest
  newest := by simpa using newest

/-- The cache after the two blobs and the reference. -/
def blobCache : Database := (runAll 4 referencedBlobs NewDatabase).toOption.getD NewDatabase

theorem runAll_referencedBlobs : runAll 4 referencedBlobs NewDatabase = .ok blobCache := rfl

/-- The two blobs and the reference keep the bookkeeping, with the first blob
first on the flush-list. -/
theorem bookkept_blobCache : Bookkept blobCache [firstBlob, secondBlob] :=
  ⟨flushListed_pair rfl (by decide) (by decide) (by decide) rfl rfl rfl rfl rfl, rfl, rfl⟩

/-- Committing the second blob writes both blobs and drops both from the
cache, and `cleaner.Put` takes the 82 bytes of the second's children map from
`dirtiesSize`: only the metaroot is left, with `dirtiesSize` at -82 and the
82 bytes still in `childrenSize`, and no flush-list makes the bookkeeping
hold. -/
theorem cleaner_drops_children_from_dirtiesSize :
    (∃ db, runAll 4 referencedBlobs NewDatabase = .ok db ∧ Bookkept db [firstBlob, secondBlob]) ∧
      ∃ db', runAll 4 (referencedBlobs ++ [.commit secondBlob]) NewDatabase = .ok db' ∧
        db'.dirties.keys = [zeroHash] ∧ db'.dirtiesSize = -82 ∧ db'.childrenSize = 82 ∧
        ∀ order, ¬Bookkept db' order := by
  refine ⟨⟨blobCache, runAll_referencedBlobs, bookkept_blobCache⟩, _, rfl, rfl, rfl, rfl, fun order h => ?_⟩
  have empty := h.dirtiesSize_of_keys rfl
  exact absurd empty (by decide)

end DirtyCache

end FiscoBcos.Trie
