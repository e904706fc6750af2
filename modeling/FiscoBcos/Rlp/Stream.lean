import FiscoBcos.Rlp.Reflect
import Mathlib

/-!
# The RLP decoding stream

`Stream` from `rlp/decode.go`, over a `bytes.Reader`, which is the reader of
every `DecodeBytes`. `r` is the reader's unread input. `kind` caches the
header `Kind()` has read: `none` is the source's `kind = -1`, which makes the
next `Kind()` read a header. `stack` holds one `listpos` per open list,
innermost first (the source appends to a slice and works on its last
element).

Each operation returns the source's results together with the stream after
it: errors leave the stream in the state the source leaves it in, since a
caller may go on reading after ignoring an error. The exported methods keep
Go's capitalised names; they are protected, so that inside the namespace
`Kind`, `List` and `Bool` still name the types.
-/

namespace FiscoBcos.Rlp

/-- `Kind`: the kind of the value ahead in the stream. -/
inductive Kind where
  | byte
  | string
  | list
deriving DecidableEq, Repr

/-- `listpos`: bytes read so far of an open list, and its payload size. -/
structure Listpos where
  pos : Nat
  size : Nat
deriving DecidableEq, Repr

/-- `Stream`. -/
structure Stream where
  r : List UInt8
  remaining : Nat
  limited : Bool
  kind : Option Kind
  size : Nat
  byteval : UInt8
  kinderr : Option Error
  stack : List Listpos
deriving DecidableEq, Repr

namespace Stream

/-- `Reset(r, inputLimit)` on a `bytes.Reader` over `input`: without an
explicit limit the reader's length is the limit. -/
def reset (input : List UInt8) (inputLimit : Nat) : Stream where
  r := input
  remaining := if inputLimit > 0 then inputLimit else input.length
  limited := true
  kind := none
  size := 0
  byteval := 0
  kinderr := none
  stack := []

/-- `NewListStream(r, len)`: a stream positioned at a list of `len` bytes,
as if its header had been read. -/
def newListStream (input : List UInt8) (len : Nat) : Stream :=
  { reset input len with kind := some .list, size := len }

/-- The limit check of `willRead`. -/
def takeRemaining (s : Stream) (n : Nat) : Option Error × Stream :=
  if s.limited then
    if n > s.remaining then (some .errValueTooLarge, s)
    else (none, { s with remaining := s.remaining - n })
  else (none, s)

/-- `willRead`: re-arm `Kind`, then account for `n` bytes against the
innermost list and the input limit. -/
def willRead (s : Stream) (n : Nat) : Option Error × Stream :=
  let s := { s with kind := none }
  match s.stack with
  | [] => s.takeRemaining n
  | tos :: outer =>
    if n > tos.size - tos.pos then (some .errElemTooLarge, s)
    else { s with stack := { tos with pos := tos.pos + n } :: outer }.takeRemaining n

/-- `readByte`. The reader's `io.EOF` becomes `io.ErrUnexpectedEOF`. -/
def readByte (s : Stream) : Except Error UInt8 × Stream :=
  match s.willRead 1 with
  | (some e, s) => (.error e, s)
  | (none, s) => match s.r with
    | [] => (.error .ioErrUnexpectedEOF, s)
    | b :: rest => (.ok b, { s with r := rest })

/-- `readFull` of a buffer of `n` bytes. -/
def readFull (s : Stream) (n : Nat) : Except Error (List UInt8) × Stream :=
  match s.willRead n with
  | (some e, s) => (.error e, s)
  | (none, s) =>
    if n ≤ s.r.length then (.ok (s.r.take n), { s with r := s.r.drop n })
    else (.error .ioErrUnexpectedEOF, { s with r := [] })

/-- `readUint`: a big-endian integer of `size` bytes (at most eight); one
of two or more bytes must not start with a zero byte. -/
def readUint (s : Stream) (size : Nat) : Except Error Nat × Stream :=
  match size with
  | 0 => (.ok 0, { s with kind := none })
  | 1 => match s.readByte with
    | (.error e, s) => (.error e, s)
    | (.ok b, s) => (.ok b.toNat, s)
  | size + 2 => match s.readFull (size + 2) with
    | (.error e, s) => (.error e, s)
    | (.ok buf, s) =>
      if buf.head? = some 0 then (.error .errCanonSize, s) else (.ok (BigEndian.value buf), s)

/-- A long-form size may not fit in a short header. -/
def canonSize (size : Nat) : Option Error := if size < 56 then some .errCanonSize else none

/-- `readKind`: read a header. Errors reading the first byte at top level
become `io.EOF`. -/
def readKind (s : Stream) : (Kind × Nat × Option Error) × Stream :=
  match s.readByte with
  | (.error e, s) =>
    let e := match s.stack, e with
      | [], .ioErrUnexpectedEOF => .ioEOF
      | [], .errValueTooLarge => .ioEOF
      | _, e => e
    ((.byte, 0, some e), s)
  | (.ok b, s) =>
    let s := { s with byteval := 0 }
    if b < 0x80 then ((.byte, 0, none), { s with byteval := b })
    else if b < 0xB8 then ((.string, (b - 0x80).toNat, none), s)
    else if b < 0xC0 then
      match s.readUint (b - 0xB7).toNat with
      | (.error e, s) => ((.string, 0, some e), s)
      | (.ok size, s) => ((.string, size, canonSize size), s)
    else if b < 0xF8 then ((.list, (b - 0xC0).toNat, none), s)
    else
      match s.readUint (b - 0xF7).toNat with
      | (.error e, s) => ((.list, 0, some e), s)
      | (.ok size, s) => ((.list, size, canonSize size), s)

/-- The size checks of `Kind` after a header was read: against the input
limit at top level, against the innermost list otherwise. -/
def sizeErr (s : Stream) (size : Nat) : Option Error :=
  match s.stack with
  | [] => if s.limited && size > s.remaining then some .errValueTooLarge else none
  | tos :: _ => if size > tos.size - tos.pos then some .errElemTooLarge else none

/-- The header read of `Kind` with its size checks, which see the innermost
list and the limit as they are after the header was read. -/
def readKindChecked (s : Stream) : (Kind × Nat × Option Error) × Stream :=
  let ((kind, size, err), s) := s.readKind
  let err := err <|> s.sizeErr size
  ((kind, size, err), { s with kind := some kind, size := size, kinderr := err })

/-- `Kind`: the kind and size of the next value. The first call reads the
header; later calls return the cached result, sticky error included, until
something re-arms it. -/
protected def Kind (s : Stream) : (Kind × Nat × Option Error) × Stream :=
  match s.kind with
  | some kind => ((kind, s.size, s.kinderr), s)
  | none =>
    let s := { s with kinderr := none }
    match s.stack with
    | tos :: _ => if tos.pos = tos.size then ((.byte, 0, some .eol), s) else s.readKindChecked
    | [] => s.readKindChecked

/-- `Bytes`: the contents of a string; a one-byte string below `0x80` should
have been written as a single byte. -/
protected def Bytes (s : Stream) : Except Error (List UInt8) × Stream :=
  match s.Kind with
  | ((_, _, some e), s) => (.error e, s)
  | ((.byte, _, none), s) => (.ok [s.byteval], { s with kind := none })
  | ((.string, size, none), s) => match s.readFull size with
    | (.error e, s) => (.error e, s)
    | (.ok b, s) =>
      if size = 1 ∧ b.head?.getD 0 < 128 then (.error .errCanonSize, s) else (.ok b, s)
  | ((.list, _, none), s) => (.error .errExpectedString, s)

/-- `Raw`: a value with its header. The header `Kind` read is gone, so the
content is read into a buffer behind a new one. -/
protected def Raw (s : Stream) : Except Error (List UInt8) × Stream :=
  match s.Kind with
  | ((_, _, some e), s) => (.error e, s)
  | ((.byte, _, none), s) => (.ok [s.byteval], { s with kind := none })
  | ((kind, size, none), s) => match s.readFull size with
    | (.error e, s) => (.error e, s)
    | (.ok content, s) =>
      if kind = .string then (.ok (header 0x80 0xB7 size ++ content), s)
      else (.ok (header 0xC0 0xF7 size ++ content), s)

/-- `uint(maxbits)`. On a zero single byte it returns `ErrCanonInt` without
re-arming `Kind`. -/
def uint (s : Stream) (maxbits : Nat) : Except Error UInt64 × Stream :=
  match s.Kind with
  | ((_, _, some e), s) => (.error e, s)
  | ((.byte, _, none), s) =>
    if s.byteval = 0 then (.error .errCanonInt, s)
    else (.ok s.byteval.toUInt64, { s with kind := none })
  | ((.string, size, none), s) =>
    if size > maxbits / 8 then (.error .errUintOverflow, s)
    else match s.readUint size with
      | (.error .errCanonSize, s) => (.error .errCanonInt, s)
      | (.error e, s) => (.error e, s)
      | (.ok v, s) => if size > 0 ∧ v < 128 then (.error .errCanonSize, s) else (.ok v.toUInt64, s)
  | ((.list, _, none), s) => (.error .errExpectedString, s)

/-- `Uint`. -/
protected def Uint (s : Stream) : Except Error UInt64 × Stream := s.uint 64

/-- `Bool`. -/
protected def Bool (s : Stream) : Except Error Bool × Stream :=
  match s.uint 8 with
  | (.error e, s) => (.error e, s)
  | (.ok 0, s) => (.ok false, s)
  | (.ok 1, s) => (.ok true, s)
  | (.ok num, s) => (.error (.invalidBool num), s)

/-- `List`: enter a list; returns its payload size. -/
protected def List (s : Stream) : Except Error Nat × Stream :=
  match s.Kind with
  | ((_, _, some e), s) => (.error e, s)
  | ((.list, size, none), s) =>
    (.ok size, { s with stack := ⟨0, size⟩ :: s.stack, kind := none, size := 0 })
  | ((_, _, none), s) => (.error .errExpectedList, s)

/-- `ListEnd`: leave a list whose payload has been read completely. -/
protected def ListEnd (s : Stream) : Option Error × Stream :=
  match s.stack with
  | [] => (some .errNotInList, s)
  | tos :: outer =>
    if tos.pos ≠ tos.size then (some .errNotAtEOL, s)
    else
      let outer := match outer with
        | [] => []
        | parent :: rest => { parent with pos := parent.pos + tos.size } :: rest
      (none, { s with stack := outer, kind := none, size := 0 })

end Stream

end FiscoBcos.Rlp
