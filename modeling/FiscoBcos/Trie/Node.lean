import FiscoBcos.Trie.Encoding
import FiscoBcos.Rlp.Raw
import Mathlib

/-!
# Trie nodes

`trie/node.go`: the four node types, the RLP encoding of a collapsed node
and `decodeNode`, which parses one back from its encoding (from the
database, or from a Merkle proof).

A node is typed by its keys: HEX (`Node (List Nibble)`) in a live trie,
COMPACT (`Node (List UInt8)`) in the collapsed nodes that the hasher encodes
and the database keeps. Go uses one `shortNode` for both and converts its
key by hand at each crossing (`hexToCompact` in the hasher, `compactToHex`
in `decodeShort` and `expandNode`).

The `nodeFlag` cache of full and short nodes is not modelled: every cached
hash is the hash the hasher computes for the node. `decodeNode` reads nested
(embedded) nodes through fuel that starts at the length of the input, which
every nested encoding is shorter than.
-/

namespace FiscoBcos.Trie

open Rlp (Item)

/-- A trie node: Go's `node` interface with its four implementations, and
the nil interface. -/
inductive Node (K : Type) where
  | nil
  | full (children : Fin 17 → Node K)
  | short (key : K) (val : Node K)
  | hash (h : List UInt8)
  | value (v : List UInt8)

instance {K : Type} : Inhabited (Node K) := ⟨.nil⟩

namespace Node

variable {K K' : Type}

/-- The node is the nil interface. -/
def isNil : Node K → Bool
  | .nil => true
  | _ => false

@[simp] theorem isNil_nil : (Node.nil : Node K).isNil = true := rfl
@[simp] theorem isNil_full (cs : Fin 17 → Node K) : (Node.full cs).isNil = false := rfl
@[simp] theorem isNil_short (k : K) (v : Node K) : (Node.short k v).isNil = false := rfl
@[simp] theorem isNil_hash (h : List UInt8) : (Node.hash h : Node K).isNil = false := rfl
@[simp] theorem isNil_value (v : List UInt8) : (Node.value v : Node K).isNil = false := rfl

/-- A hash node. -/
def isHash : Node K → Bool
  | .hash _ => true
  | _ => false

theorem isNil_iff {n : Node K} : n.isNil = true ↔ n = .nil := by
  cases n <;> simp

@[simp] theorem isNil_eq_false {n : Node K} : n.isNil = false ↔ n ≠ .nil := by
  cases n <;> simp

/-- The same node with its keys read through `f`. -/
def mapKey (f : K → K') : Node K → Node K'
  | .nil => .nil
  | .full cs => .full fun i => mapKey f (cs i)
  | .short k v => .short (f k) (mapKey f v)
  | .hash h => .hash h
  | .value v => .value v

/-- The item `rlp.Encode` writes for a collapsed node: a short node is the
list of its key and value, a full node (`fullNode.EncodeRLP`) the list of its
17 children with a nil child written as `nilValueNode`, the empty string.
Value and hash nodes are strings, and the nil interface is the empty list. -/
def toItem : Node (List UInt8) → Item
  | .nil => .list []
  | .full cs => .list (List.ofFn fun i => if (cs i).isNil then .bytes [] else toItem (cs i))
  | .short k v => .list [.bytes k, toItem v]
  | .hash h => .bytes h
  | .value v => .bytes v

/-- The encoding of a collapsed node. -/
def encode (n : Node (List UInt8)) : List UInt8 := n.toItem.encode

end Node

/-- `expandNode`: a stored node back in HEX keys. -/
def expandNode : Node (List UInt8) → Node (List Nibble)
  | .nil => .nil
  | .full cs => .full fun i => expandNode (cs i)
  | .short k v => .short (compactToHex k) (expandNode v)
  | .hash h => .hash h
  | .value v => .value v

/-- `hashLen`: the length of a `common.Hash`. -/
def hashLen : Nat := 32

/-- `common.BytesToHash`: the last 32 bytes, left-padded with zeros. -/
def bytesToHash (b : List UInt8) : List UInt8 :=
  BigEndian.leftPad hashLen (b.drop (b.length - hashLen))

/-! ## Decoding -/

/-- The errors of `decodeNode`: an error of the RLP splitters, the messages
of `node.go`, and `decodeError`, which wraps an error of a child with the
path to it. -/
inductive DecodeError where
  | rlp (e : Rlp.Error)
  /-- `decode error: %v` -/
  | decode (e : Rlp.Error)
  /-- `invalid number of list elements: %v` -/
  | invalidCount (c : Nat)
  /-- `invalid value node: %v` -/
  | invalidValueNode (e : Rlp.Error)
  /-- `oversized embedded node (size is %d bytes, want size < %d)` -/
  | oversizedEmbedded (size : Nat)
  /-- `invalid RLP string size %d (want 0 or 32)` -/
  | invalidStringSize (size : Nat)
  | decodeError (what : DecodeError) (stack : List String)
deriving Repr

/-- `wrapError`: push a step onto the path of a decoding error. -/
def wrapError (ctx : String) : DecodeError → DecodeError
  | .decodeError what stack => .decodeError what (stack ++ [ctx])
  | e => .decodeError e [ctx]

section Decode

-- the decoder of embedded nodes: `decodeNode` itself, one level down
variable (decode : List UInt8 → Except DecodeError (Node (List Nibble)))

/-- `decodeRef`: a child reference, the node embedded in place, the empty
string for no child, or a 32-byte hash. -/
def decodeRefWith (buf : List UInt8) : Except DecodeError (Node (List Nibble) × List UInt8) :=
  match Rlp.split buf with
  | .error e => .error (.rlp e)
  | .ok (kind, val, rest) =>
    if kind = .list then
      -- an embedded node must be smaller than a hash
      let size := buf.length - rest.length
      if size > hashLen then .error (.oversizedEmbedded size)
      else (decode buf).map fun n => (n, rest)
    else if kind = .string ∧ val.length = 0 then .ok (.nil, rest)
    else if kind = .string ∧ val.length = 32 then .ok (.hash val, rest)
    else .error (.invalidStringSize val.length)

/-- `decodeShort`: a key ending with the terminator holds a value, any other
key a child reference. -/
def decodeShortWith (elems : List UInt8) : Except DecodeError (Node (List Nibble)) :=
  match Rlp.splitString elems with
  | .error e => .error (.rlp e)
  | .ok (kbuf, rest) =>
    let key := compactToHex kbuf
    if hasTerm key then
      match Rlp.splitString rest with
      | .error e => .error (.invalidValueNode e)
      | .ok (val, _) => .ok (.short key (.value val))
    else
      match decodeRefWith decode rest with
      | .error e => .error (wrapError "val" e)
      | .ok (r, _) => .ok (.short key r)

/-- The loop of `decodeFull` over the sixteen child references, for the
children `is`. -/
def decodeRefsWith : List Nat → List UInt8 →
    Except DecodeError (List (Node (List Nibble)) × List UInt8)
  | [], elems => .ok ([], elems)
  | i :: is, elems =>
    match decodeRefWith decode elems with
    | .error e => .error (wrapError s!"[{i}]" e)
    | .ok (cld, rest) => (decodeRefsWith is rest).map fun (cs, r) => (cld :: cs, r)

/-- `decodeFull`: sixteen child references, then the value, which is kept
only when it is not empty. -/
def decodeFullWith (elems : List UInt8) : Except DecodeError (Node (List Nibble)) :=
  match decodeRefsWith decode (List.range 16) elems with
  | .error e => .error e
  | .ok (cs, elems) =>
    match Rlp.splitString elems with
    | .error e => .error (.rlp e)
    | .ok (val, _) =>
      .ok (.full fun i =>
        if i.val < 16 then cs.getD i.val .nil else if val.length > 0 then .value val else .nil)

end Decode

/-- `decodeNode` with the fuel of its nested calls. -/
def decodeNodeFuel : Nat → List UInt8 → Except DecodeError (Node (List Nibble))
  -- not reached from `decodeNode`: a nested encoding is shorter than its parent
  | 0, _ => .error (.rlp .ioErrUnexpectedEOF)
  | fuel + 1, buf =>
    if buf = [] then .error (.rlp .ioErrUnexpectedEOF) else
    match Rlp.splitList buf with
    | .error e => .error (.decode e)
    | .ok (elems, _) =>
      -- an error of CountValues counts as zero values
      match (Rlp.countValues elems).toOption.getD 0 with
      | 2 => (decodeShortWith (decodeNodeFuel fuel) elems).mapError (wrapError "short")
      | 17 => (decodeFullWith (decodeNodeFuel fuel) elems).mapError (wrapError "full")
      | c => .error (.invalidCount c)

/-- `decodeNode`: parse the RLP encoding of a node. -/
def decodeNode (buf : List UInt8) : Except DecodeError (Node (List Nibble)) :=
  decodeNodeFuel buf.length buf


/-! ## What decodes -/

theorem decodeShortWith_short {decode : List UInt8 → Except DecodeError (Node (List Nibble))} {elems : List UInt8}
    {n : Node (List Nibble)} (run : decodeShortWith decode elems = .ok n) : ∃ key val, n = .short key val := by
  unfold decodeShortWith at run
  split at run
  · cases run
  · dsimp only at run
    split_ifs at run
    · split at run
      · cases run
      · cases run
        exact ⟨_, _, rfl⟩
    · split at run
      · cases run
      · cases run
        exact ⟨_, _, rfl⟩

theorem decodeFullWith_full {decode : List UInt8 → Except DecodeError (Node (List Nibble))} {elems : List UInt8}
    {n : Node (List Nibble)} (run : decodeFullWith decode elems = .ok n) : ∃ cs, n = .full cs := by
  unfold decodeFullWith at run
  split at run
  · cases run
  · split at run
    · cases run
    · cases run
      exact ⟨_, rfl⟩

theorem decodeNodeFuel_shape : ∀ {fuel : Nat} {buf : List UInt8} {n : Node (List Nibble)},
    decodeNodeFuel fuel buf = .ok n → (∃ key val, n = .short key val) ∨ ∃ cs, n = .full cs
  | 0, _, _, run => by simp [decodeNodeFuel] at run
  | fuel + 1, buf, n, run => by
    unfold decodeNodeFuel at run
    split_ifs at run
    split at run
    · cases run
    · split at run
      · exact .inl (decodeShortWith_short (Iff.mp Except.mapError_eq_ok_iff run))
      · exact .inr (decodeFullWith_full (Iff.mp Except.mapError_eq_ok_iff run))
      · cases run

/-- `decodeNode` gives a short node or a full node, never a hash, a value or
nil: the `children` of a decoded node do not panic. -/
theorem decodeNode_shape {buf : List UInt8} {n : Node (List Nibble)} (decoded : decodeNode buf = .ok n) :
    (∃ key val, n = .short key val) ∨ ∃ cs, n = .full cs :=
  decodeNodeFuel_shape decoded

end FiscoBcos.Trie
