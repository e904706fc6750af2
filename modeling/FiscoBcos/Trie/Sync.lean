import FiscoBcos.Trie.Trie
import FiscoBcos.Prque.Prque
import FiscoBcos.Ethdb.Memorydb
import FiscoBcos.Lib.Hex
import Mathlib

/-!
# The trie sync scheduler

`trie/sync.go`: `Sync` downloads a trie node by node. It keeps the pending
requests by hash, queues their hashes by depth for `Missing` to hand out,
and takes node data in `Process`: a trie node is decoded, its children that
are neither in the memory batch nor in the database become new requests, and
the node waits until they are done. A request counts in `deps` the requests
that name it as a parent; `commit` writes a finished request into the memory
batch, in `order`, and commits every parent whose count drops to zero. The
leaf callback sees each value below a node and may register sub-tries and
raw entries below it (`core/state/sync.go` registers an account's storage
trie and code this way); `Commit` flushes the memory batch to a writer.

A parent pointer is the parent's hash here: the pending requests are keyed by
hash, and in every reachable state a request's parents are pending
(`Sync.WF`). The recursion of `commit` runs on fuel, the number of pending
requests; it never runs out there. The bloom filter is a test that may say
yes to a hash the database lacks, which the database then decides; its
metrics are not modelled. A Go panic is an `Except String` error.

`Sync.WF` (in `SyncSpec.lean`) is what every operation keeps: the pending
requests name pending parents, each counts exactly the references to it, and
none has been written. Hence a written hash is the parent of no pending
request (`Sync.Reachable.children_first`).
-/

namespace FiscoBcos.Trie

open Ethdb (Writer)

/-- `emptyState` of `trie.go`, `crypto.Keccak256Hash(nil)`, as the constant
`AddRawEntry` compares with (`Trie.emptyState` takes the hash function as a
parameter). -/
def emptyStateHash : List UInt8 :=
  [0xc5, 0xd2, 0x46, 0x01, 0x86, 0xf7, 0x23, 0x3c, 0x92, 0x7e, 0x7d, 0xb2, 0xdc, 0xc7, 0x03, 0xc0,
   0xe5, 0x00, 0xb6, 0x53, 0xca, 0x82, 0x27, 0x3b, 0x7b, 0xfa, 0xd8, 0x04, 0x5d, 0x85, 0xa4, 0x70]

/-- What a leaf callback registers below the node it is called for:
`AddSubTrie(root, depth, parent, nil)` or `AddRawEntry(hash, depth, parent)`
with that node as the parent. -/
inductive Registration where
  | subTrie (root : List UInt8) (depth : Int)
  | rawEntry (hash : List UInt8) (depth : Int)

/-- `LeafCallback`, called with a leaf and the hash of its node: an error, or
the registrations it makes. -/
abbrev LeafCallback := List UInt8 → List UInt8 → Except String (List Registration)

/-- `request`: a scheduled or in-flight retrieval. -/
structure Request where
  hash : List UInt8
  data : Option (List UInt8)
  raw : Bool
  parents : List (List UInt8)
  depth : Int
  deps : Int
  callback : Option LeafCallback

/-- `SyncResult`. -/
structure SyncResult where
  Hash : List UInt8
  Data : List UInt8

/-- `syncMemBatch`: the finished data and the order it finished in. -/
structure SyncMemBatch where
  batch : AList fun _ : List UInt8 => List UInt8
  order : List (List UInt8)

/-- `newSyncMemBatch`. -/
def newSyncMemBatch : SyncMemBatch := ⟨∅, []⟩

/-- The errors `Process` returns: `ErrNotRequested`, `ErrAlreadyProcessed`,
a node that does not decode, and an error of the leaf callback. -/
inductive SyncError where
  | notRequested
  | alreadyProcessed
  | decode (e : DecodeError)
  | callback (msg : String)

/-- `Sync`: the database read for known nodes, the memory batch, the pending
requests by hash, the queue of hashes to hand out, and the bloom filter. -/
structure Sync where
  database : List UInt8 → Option (List UInt8)
  membatch : SyncMemBatch
  requests : AList fun _ : List UInt8 => Request
  queue : Prque (List UInt8)
  bloom : List UInt8 → Bool

/-- The panic of a nil pointer: a parent that is not pending, which no
reachable state has. -/
def nilParent : String := "runtime error: invalid memory address or nil pointer dereference"

/-- The end of the fuel of `commit`, which no reachable state meets. -/
def commitFuel : String := "commit: out of fuel"

namespace Sync

/-- `schedule`: a request for a hash already pending only adds its parents to
the pending one; a new one is queued at its depth. -/
def schedule (s : Sync) (req : Request) : Except String Sync :=
  match s.requests.lookup req.hash with
  | some old => .ok { s with requests := s.requests.replace req.hash { old with parents := old.parents ++ req.parents } }
  | none => do
    let queue ← s.queue.Push req.hash (Int64.ofInt req.depth)
    .ok { s with queue, requests := s.requests.insert req.hash req }

/-- Link a new request to its parent, if it has one, and schedule it: the
parent counts one more dependency. `what` names the request in the panic of
a parent that is not pending. -/
def link (s : Sync) (what : String) (req : Request) (parent : List UInt8) : Except String Sync :=
  if parent = zeroHash then s.schedule req
  else
    match s.requests.lookup parent with
    | none => .error (what ++ " ancestor not found: " ++ Hex.EncodeToString parent)
    | some ancestor =>
      { s with requests := s.requests.replace parent { ancestor with deps := ancestor.deps + 1 } }.schedule
        { req with parents := req.parents ++ [parent] }

/-- `AddSubTrie`. The bloom filter's yes is checked by decoding the node the
database holds. -/
def AddSubTrie (s : Sync) (root : List UInt8) (depth : Int) (parent : List UInt8)
    (callback : Option LeafCallback) : Except String Sync :=
  if root = emptyRoot then .ok s
  else if (s.membatch.batch.lookup root).isSome then .ok s
  else if s.bloom root && (decodeNode ((s.database root).getD [])).toBool then .ok s
  else s.link "sub-trie" ⟨root, none, false, [], depth, 0, callback⟩ parent

/-- `AddRawEntry`. -/
def AddRawEntry (s : Sync) (hash : List UInt8) (depth : Int) (parent : List UInt8) : Except String Sync :=
  if hash = emptyStateHash then .ok s
  else if (s.membatch.batch.lookup hash).isSome then .ok s
  else if s.bloom hash && (s.database hash).isSome then .ok s
  else s.link "raw-entry" ⟨hash, none, true, [], depth, 0, none⟩ parent

/-- A registration of a leaf callback, below `parent`. -/
def register (s : Sync) (parent : List UInt8) : Registration → Except String Sync
  | .subTrie root depth => s.AddSubTrie root depth parent none
  | .rawEntry hash depth => s.AddRawEntry hash depth parent

/-- `NewSync`. -/
def NewSync (root : List UInt8) (database : List UInt8 → Option (List UInt8)) (callback : Option LeafCallback)
    (bloom : List UInt8 → Bool) : Except String Sync :=
  Sync.AddSubTrie ⟨database, newSyncMemBatch, ∅, Prque.New false, bloom⟩ root 0 zeroHash callback

/-- The write of `commit`: the request's data goes into the memory batch, in
order, and the request is no longer pending. -/
def writeReq (s : Sync) (req : Request) : Sync :=
  { s with
    membatch := ⟨s.membatch.batch.insert req.hash (req.data.getD []), s.membatch.order ++ [req.hash]⟩
    requests := s.requests.erase req.hash }

/-- One turn of the loop of `commit` over the parents: count the parent down,
and commit it by `recur` when it reaches zero. -/
def countDown (recur : Sync → Request → Except String Sync) (s : Sync) (parent : List UInt8) :
    Except String Sync :=
  match s.requests.lookup parent with
  | none => .error nilParent
  | some p =>
    let p := { p with deps := p.deps - 1 }
    let s := { s with requests := s.requests.replace parent p }
    if p.deps = 0 then recur s p else .ok s

/-- `commit`: write the request into the memory batch, drop it, and count
down each parent, committing those that reach zero. -/
def commit : Nat → Sync → Request → Except String Sync
  | 0, _, _ => .error commitFuel
  | fuel + 1, s, req => req.parents.foldlM (countDown (commit fuel)) (s.writeReq req)

/-- `commit`, with the pending requests as fuel. -/
def commitReq (s : Sync) (req : Request) : Except String Sync := commit s.requests.entries.length s req

/-- The children of a decoded node and their depths; any other node is a
panic. -/
def childList (depth : Int) : Node (List Nibble) → Except String (List (Node (List Nibble) × Int))
  | .short key val => .ok [(val, depth + key.length)]
  | .full cs => .ok ((List.finRange 17).filterMap fun i => if (cs i).isNil then none else some (cs i, depth + 1))
  | _ => .error "unknown node"

/-- The leaf callback on a child of `req`: for a value, the callback's
registrations, or its error. -/
def notify (s : Sync) (req : Request) (child : Node (List Nibble)) : Except String (Sync × Option String) :=
  match req.callback, child with
  | some callback, .value leaf =>
    match callback leaf req.hash with
    | .error e => .ok (s, some e)
    | .ok regs => (regs.foldlM (fun (s : Sync) r => s.register req.hash r) s).map fun s => (s, none)
  | _, _ => .ok (s, none)

/-- The request for a child of `req`: a hash that is neither in the memory
batch nor (by the bloom filter and the database) known. -/
def childRequest (s : Sync) (req : Request) (child : Node (List Nibble)) (depth : Int) : Option Request :=
  match child with
  | .hash node =>
    if (s.membatch.batch.lookup (bytesToHash node)).isSome then none
    else if s.bloom node && (s.database node).isSome then none
    else some ⟨bytesToHash node, none, false, [req.hash], depth, 0, req.callback⟩
  | _ => none

/-- The loop of `children` over the children of `req`: the requests for the
unknown ones, or the error of the callback. -/
def childrenLoop (req : Request) :
    Sync → List (Node (List Nibble) × Int) → List Request → Except String (Sync × Except String (List Request))
  | s, [], requests => .ok (s, .ok requests)
  | s, (child, depth) :: rest, requests => do
    let (s, err) ← s.notify req child
    match err with
    | some e => .ok (s, .error e)
    | none => childrenLoop req s rest (requests ++ (s.childRequest req child depth).toList)

/-- `children`. -/
def children (s : Sync) (req : Request) (object : Node (List Nibble)) :
    Except String (Sync × Except String (List Request)) := do
  let list ← childList req.depth object
  childrenLoop req s list []

/-- The rest of `Process` for a trie node whose children are requested: the
node is committed when nothing is pending below it, or waits for its new
children. -/
def settle (s : Sync) (hash : List UInt8) (requests : List Request) : Except String (Sync × Bool) :=
  match s.requests.lookup hash with
  | none => .error nilParent
  | some request =>
    if requests = [] ∧ request.deps = 0 then (s.commitReq request).map fun s => (s, true)
    else
      let s := { s with requests := s.requests.replace hash { request with deps := request.deps + requests.length } }
      (requests.foldlM schedule s).map fun s => (s, false)

/-- The loop of `Process`: what was committed, and the index and error of the
item that failed. -/
def processLoop : Bool → Sync → Nat → List SyncResult → Except String (Sync × Bool × Nat × Option SyncError)
  | committed, s, _, [] => .ok (s, committed, 0, none)
  | committed, s, i, item :: results =>
    match s.requests.lookup item.Hash with
    | none => .ok (s, committed, i, some .notRequested)
    | some request =>
      if request.data.isSome then .ok (s, committed, i, some .alreadyProcessed)
      else if request.raw then do
        let s ← s.commitReq { request with data := some item.Data }
        processLoop true s (i + 1) results
      else
        match decodeNode item.Data with
        | .error e => .ok (s, committed, i, some (.decode e))
        | .ok node => do
          let request := { request with data := some item.Data }
          let s := { s with requests := s.requests.replace item.Hash request }
          let (s, found) ← s.children request node
          match found with
          | .error e => .ok (s, committed, i, some (.callback e))
          | .ok requests => do
            let (s, done) ← s.settle item.Hash requests
            processLoop (committed || done) s (i + 1) results

/-- `Process`. -/
def Process (s : Sync) (results : List SyncResult) : Except String (Sync × Bool × Nat × Option SyncError) :=
  processLoop false s 0 results

/-- The loop of `Missing`: pop hashes while the queue has some and fewer
than `max` (unless `max` is 0) are taken. It runs at most once per item. -/
def missingLoop (max : Int) :
    Nat → Prque (List UInt8) → List (List UInt8) → Except String (Prque (List UInt8) × List (List UInt8))
  | 0, queue, requests => .ok (queue, requests)
  | fuel + 1, queue, requests =>
    if !queue.Empty && (max == 0 || decide (requests.length < max)) then do
      let (queue, hash) ← queue.PopItem
      missingLoop max fuel queue (requests ++ [hash])
    else .ok (queue, requests)

/-- `Missing`. -/
def Missing (s : Sync) (max : Int) : Except String (Sync × List (List UInt8)) := do
  let (queue, requests) ← missingLoop max s.queue.Size s.queue []
  .ok ({ s with queue }, requests)

/-- The loop of `Commit`: put each key of the order, adding it to the bloom
filter, up to the first put that fails, with its index. -/
def commitLoop {σ : Type} (batch : AList fun _ : List UInt8 => List UInt8) (dbw : Writer σ) :
    (List UInt8 → Bool) → σ → Nat → List (List UInt8) → (List UInt8 → Bool) × σ × Option (Nat × String)
  | bloom, w, _, [] => (bloom, w, none)
  | bloom, w, i, key :: keys =>
    match dbw.Put w key ((batch.lookup key).getD []) with
    | .error e => (bloom, w, some (i, e))
    | .ok w => commitLoop batch dbw (fun k => k = key || bloom k) w (i + 1) keys

/-- `Commit`: the number of items written and the error, if any; the memory
batch is dropped only when all are written. -/
def Commit {σ : Type} (s : Sync) (dbw : Writer σ) (w : σ) : Sync × σ × Nat × Option String :=
  match commitLoop s.membatch.batch dbw s.bloom w 0 s.membatch.order with
  | (bloom, w, some (i, e)) => ({ s with bloom }, w, i, some e)
  | (bloom, w, none) => ({ s with bloom, membatch := newSyncMemBatch }, w, s.membatch.order.length, none)

/-- `Pending`. -/
def Pending (s : Sync) : Nat := s.requests.entries.length

end Sync

end FiscoBcos.Trie
