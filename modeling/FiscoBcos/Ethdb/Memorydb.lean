import FiscoBcos.Lib.SortedKeys
import FiscoBcos.Lib.AListUpdate
import FiscoBcos.Lib.Except
import Mathlib

/-!
# The memory database

`ethdb/memorydb/memorydb.go`: a key-value store over a Go map from byte
strings to byte strings, with write batches and iterators over the keys in
byte order.

`Close` sets the map to nil; every later `Has`, `Get`, `Put` and `Delete`
fails with `errMemorydbClosed`, and an iterator ranges over the nil map and
reads nothing. A batch keeps its writes in order and counts in `ValueSize` the
bytes of the values put and one for each deletion; `Write` applies them to its
host's map under the lock, `Replay` sends them to any `ethdb.Writer`. On an
open database the two agree (`Write_eq_Replay`), and the database then holds
what the writes in order leave (`run_view`: the last write of a key wins). On
a closed one they part: `Replay` fails at the first write, `Write` deletes from
the nil map, which Go allows, and panics at the first put (`Write_closed`).

An iterator is a copy of the entries it ranges over, sorted by
`sort.Strings`. A client that calls `Next` until it returns false reads each
entry of the database from the start key on exactly once, in increasing key
order (`drain_NewIteratorWithStart`); the entries with a prefix are the run of
those from the prefix on that the client reads before the first key without it
(`drain_NewIteratorWithPrefix`).

A Go map is an `AList`; the order of its list stands for Go's random iteration
order, and no iterator depends on it (`iterate_congr`). A value is its bytes:
`CopyBytes` gives the same bytes, and a nil slice is the empty one.
-/

namespace FiscoBcos.Ethdb

/-- `errMemorydbClosed`. -/
def errMemorydbClosed : String := "database closed"

/-- `errMemorydbNotFound`. -/
def errMemorydbNotFound : String := "not found"

/-- The panic of the Go runtime on an assignment to an entry of a nil map. -/
def nilMapWrite : String := "assignment to entry in nil map"

/-- A Go `map[string][]byte`. -/
abbrev KeyMap := AList fun _ : List UInt8 => List UInt8

/-- `Database`: the map, nil once closed. -/
structure Database where
  db : Option KeyMap

/-- `keyvalue`: a write of a batch, a deletion when `delete` is set. -/
structure KeyValue where
  key : List UInt8
  value : List UInt8
  delete : Bool
  deriving DecidableEq, Repr

/-- What a write adds to a batch's `ValueSize`: its value's length, one for a
deletion. -/
def KeyValue.size (kv : KeyValue) : Nat := if kv.delete then 1 else kv.value.length

/-- `batch`: the writes in order and their size. The host database is the
one `Write` is given. -/
@[ext]
structure Batch where
  writes : List KeyValue
  size : Nat
  -- what `Put` and `Delete` keep: a deletion has no value, and `size` counts the writes
  deletes_nil : ∀ kv ∈ writes, kv.delete = true → kv.value = []
  size_eq : size = (writes.map KeyValue.size).sum

/-- `iterator`: whether `Next` was called, and the keys and values still to
visit, the current one first. -/
@[ext]
structure Iterator where
  inited : Bool
  keys : List (List UInt8)
  values : List (List UInt8)
  -- the iterators are built with a value for each key, and `Next` drops one of each
  length_eq : keys.length = values.length

/-- `ethdb.Writer`, with the state its writes change. -/
structure Writer (σ : Type) where
  Put : σ → List UInt8 → List UInt8 → Except String σ
  Delete : σ → List UInt8 → Except String σ

namespace Database

/-- `New`. -/
def New : Database := ⟨some ∅⟩

/-- `Close`. -/
def Close (db : Database) : Database := { db with db := none }

/-- `Has`. -/
def Has (db : Database) (key : List UInt8) : Except String Bool :=
  match db.db with
  | none => .error errMemorydbClosed
  | some m => .ok (m.lookup key).isSome

/-- `Get`. -/
def Get (db : Database) (key : List UInt8) : Except String (List UInt8) :=
  match db.db with
  | none => .error errMemorydbClosed
  | some m =>
    match m.lookup key with
    | some entry => .ok entry
    | none => .error errMemorydbNotFound

/-- `Put`. -/
def Put (db : Database) (key value : List UInt8) : Except String Database :=
  match db.db with
  | none => .error errMemorydbClosed
  | some m => .ok ⟨some (m.insert key value)⟩

/-- `Delete`. -/
def Delete (db : Database) (key : List UInt8) : Except String Database :=
  match db.db with
  | none => .error errMemorydbClosed
  | some m => .ok ⟨some (m.erase key)⟩

/-- `Len`: the nil map of a closed database has no entries. -/
def Len (db : Database) : Nat :=
  match db.db with
  | none => 0
  | some m => m.entries.length

/-- The body of `NewIteratorWithStart` and `NewIteratorWithPrefix`, which
differ only in the test a key must pass: the keys that pass it, sorted by
`sort.Strings`, and their values. Ranging over the nil map of a closed
database reads nothing. -/
def iterate (db : Database) (test : List UInt8 → Bool) : Iterator :=
  let m := db.db.getD ∅
  let keys := SortedKeys.sort (m.keys.filter test)
  { inited := false, keys, values := keys.map fun key => (m.lookup key).getD [], length_eq := by simp }

/-- `NewIteratorWithStart`: the keys from `start` on, `key >= st`. -/
def NewIteratorWithStart (db : Database) (start : List UInt8) : Iterator :=
  db.iterate fun key => decide (start ≤ key)

/-- `NewIterator`. -/
def NewIterator (db : Database) : Iterator := db.NewIteratorWithStart []

/-- `NewIteratorWithPrefix`: the keys that `strings.HasPrefix` accepts. -/
def NewIteratorWithPrefix (db : Database) (pr : List UInt8) : Iterator :=
  db.iterate fun key => pr.isPrefixOf key

/-- `NewBatch`. -/
def NewBatch : Batch := ⟨[], 0, by simp, rfl⟩

/-- The database as a writer: its `Put` and `Delete`. -/
def writer : Writer Database := ⟨Put, Delete⟩

end Database

namespace Batch

/-- `Put`. -/
def Put (b : Batch) (key value : List UInt8) : Batch where
  writes := b.writes ++ [⟨key, value, false⟩]
  size := b.size + value.length
  deletes_nil := by
    intro kv mem
    rcases List.mem_append.mp mem with old | new
    · exact b.deletes_nil kv old
    · simp_all
  size_eq := by simp [b.size_eq, KeyValue.size]

/-- `Delete`. -/
def Delete (b : Batch) (key : List UInt8) : Batch where
  writes := b.writes ++ [⟨key, [], true⟩]
  size := b.size + 1
  deletes_nil := by
    intro kv mem
    rcases List.mem_append.mp mem with old | new
    · exact b.deletes_nil kv old
    · simp_all
  size_eq := by simp [b.size_eq, KeyValue.size]

/-- `ValueSize`. -/
def ValueSize (b : Batch) : Nat := b.size

/-- `Reset`. -/
def Reset (_ : Batch) : Batch := Database.NewBatch

/-- One turn of the loop of `Write`: `delete` on a nil map does nothing, an
assignment to one panics. -/
def write (db : Database) (kv : KeyValue) : Except String Database :=
  if kv.delete then .ok ⟨db.db.map fun m => m.erase kv.key⟩
  else
    match db.db with
    | none => .error nilMapWrite
    | some m => .ok ⟨some (m.insert kv.key kv.value)⟩

/-- `Write`, to the host database. -/
def Write (b : Batch) (db : Database) : Except String Database := b.writes.foldlM write db

/-- `Replay`: the writes in order, up to the first that fails. -/
def Replay {σ : Type} (b : Batch) (w : Writer σ) (s : σ) : Except String σ :=
  b.writes.foldlM (fun s kv => if kv.delete then w.Delete s kv.key else w.Put s kv.key kv.value) s

/-- A batch as a writer: its `Put` and `Delete`, which never fail. -/
def writer : Writer Batch := ⟨fun b key value => .ok (b.Put key value), fun b key => .ok (b.Delete key)⟩

end Batch

namespace Iterator

/-- `Next`: the first call starts at the first key, every later one moves
past the current key; it returns whether there is a key. -/
def Next (it : Iterator) : Iterator × Bool :=
  if !it.inited then ({ it with inited := true }, !it.keys.isEmpty)
  else
    let it := if it.keys.isEmpty then it
      else { it with keys := it.keys.tail, values := it.values.tail, length_eq := by simp [it.length_eq] }
    (it, !it.keys.isEmpty)

/-- `Key`: nil when done. -/
def Key (it : Iterator) : List UInt8 := it.keys.head?.getD []

/-- `Value`: nil when done. -/
def Value (it : Iterator) : List UInt8 := it.values.head?.getD []

/-- `Release`. -/
def Release (it : Iterator) : Iterator := { it with keys := [], values := [], length_eq := rfl }

/-- A client's loop `for it.Next() { it.Key(); it.Value() }`, for at most
`fuel` turns: the entries it reads. -/
def drain : Nat → Iterator → List (List UInt8 × List UInt8)
  | 0, _ => []
  | fuel + 1, it =>
    if it.Next.2 then (it.Next.1.Key, it.Next.1.Value) :: drain fuel it.Next.1 else []

/-- `drain` on a started iterator: the entries after the current one. -/
theorem drain_inited : ∀ (ks vs : List (List UInt8)) (k v : List UInt8)
    (h : (k :: ks).length = (v :: vs).length) (fuel : Nat), ks.length ≤ fuel →
      drain fuel ⟨true, k :: ks, v :: vs, h⟩ = ks.zip vs
  | [], vs, k, v, h, fuel, _ => by
    have none : vs = [] := List.eq_nil_of_length_eq_zero (by simpa using h.symm)
    subst none
    cases fuel <;> simp [drain, Next]
  | k' :: ks, vs, k, v, h, fuel, enough => by
    have lengths : ks.length + 1 = vs.length := by simpa using h
    have bound : ks.length + 1 ≤ fuel := by simpa using enough
    obtain ⟨v', vs, rfl⟩ := List.exists_cons_of_ne_nil (List.ne_nil_of_length_pos (by omega : 0 < vs.length))
    obtain ⟨fuel, rfl⟩ := Nat.exists_eq_succ_of_ne_zero (by omega : fuel ≠ 0)
    have rest := drain_inited ks vs k' v' (by simpa using h) fuel (by omega)
    simp [drain, Next, Key, Value, rest]

/-- A client that calls `Next` on a new iterator until it returns false reads
its keys with their values, in order. -/
theorem drain_new (keys values : List (List UInt8)) (h : keys.length = values.length) {fuel : Nat}
    (enough : keys.length < fuel) : drain fuel ⟨false, keys, values, h⟩ = keys.zip values := by
  obtain ⟨fuel, rfl⟩ := Nat.exists_eq_succ_of_ne_zero (by omega : fuel ≠ 0)
  cases keys with
  | nil =>
    have none : values = [] := List.eq_nil_of_length_eq_zero h.symm
    subst none
    simp [drain, Next]
  | cons k ks =>
    have lengths : ks.length + 1 = values.length := by simpa using h
    have bound : ks.length ≤ fuel := by simp at enough; omega
    obtain ⟨v, vs, rfl⟩ := List.exists_cons_of_ne_nil (List.ne_nil_of_length_pos (by omega : 0 < values.length))
    simp [drain, Next, Key, Value, drain_inited ks vs k v h fuel bound]

end Iterator

/-! ## The database as a map -/

namespace KeyValue

/-- The value a write leaves at its key: none for a deletion. -/
def entry (kv : KeyValue) : Option (List UInt8) := if kv.delete then none else some kv.value

/-- A write to the map of an open database, as `Write` makes it. -/
def applyTo (m : KeyMap) (kv : KeyValue) : KeyMap :=
  if kv.delete then m.erase kv.key else m.insert kv.key kv.value

/-- A write to a map from keys to values. -/
def update (f : List UInt8 → Option (List UInt8)) (kv : KeyValue) : List UInt8 → Option (List UInt8) :=
  Function.update f kv.key kv.entry

theorem lookup_applyTo (m : KeyMap) (kv : KeyValue) :
    (fun key => (applyTo m kv).lookup key) = update (fun key => m.lookup key) kv := by
  funext key
  by_cases d : kv.delete <;>
    simp [applyTo, update, entry, d, Function.update_apply, Lib.lookup_erase, Lib.lookup_insert]

theorem lookup_foldl_applyTo (ws : List KeyValue) (m : KeyMap) :
    (fun key => (ws.foldl applyTo m).lookup key) = ws.foldl update (fun key => m.lookup key) := by
  induction ws generalizing m with
  | nil => rfl
  | cons kv ws ih => rw [List.foldl_cons, List.foldl_cons, ih, lookup_applyTo]

end KeyValue

namespace Batch

theorem write_open (m : KeyMap) (kv : KeyValue) : write ⟨some m⟩ kv = .ok ⟨some (KeyValue.applyTo m kv)⟩ := by
  by_cases d : kv.delete <;> simp [write, KeyValue.applyTo, d]

theorem Write_open (b : Batch) (m : KeyMap) :
    b.Write ⟨some m⟩ = .ok ⟨some (b.writes.foldl KeyValue.applyTo m)⟩ :=
  Except.foldlM_eq_ok_foldl (fun m : KeyMap => (⟨some m⟩ : Database)) write_open b.writes m

theorem Replay_open (b : Batch) (m : KeyMap) :
    b.Replay Database.writer ⟨some m⟩ = .ok ⟨some (b.writes.foldl KeyValue.applyTo m)⟩ :=
  Except.foldlM_eq_ok_foldl (fun m : KeyMap => (⟨some m⟩ : Database))
    (fun m kv => by
      by_cases d : kv.delete <;> simp [KeyValue.applyTo, d, Database.writer, Database.Put, Database.Delete])
    b.writes m

/-- On an open database, `Write` does what `Replay` into it does. -/
theorem Write_eq_Replay (b : Batch) (m : KeyMap) : b.Write ⟨some m⟩ = b.Replay Database.writer ⟨some m⟩ := by
  rw [Write_open, Replay_open]

theorem foldlM_write_closed : ∀ ws : List KeyValue,
    ws.foldlM write ⟨none⟩ = if ws.all (·.delete) then .ok ⟨none⟩ else .error nilMapWrite
  | [] => rfl
  | kv :: ws => by
    by_cases d : kv.delete
    · have skip : write ⟨none⟩ kv = .ok ⟨none⟩ := by simp [write, d]
      rw [List.foldlM_cons, skip, Except.bind_eq_bind, Except.bind_ok_eq, foldlM_write_closed ws]
      simp [d]
    · have panic : write ⟨none⟩ kv = .error nilMapWrite := by simp [write, d]
      rw [List.foldlM_cons, panic]
      simp [d]

/-- On a closed database `Write` and `Replay` part: `Replay` fails at the
first write, while `Write` deletes from the nil map, which Go allows, and
panics at the first put. -/
theorem Write_closed (b : Batch) (db : Database) :
    b.Write db.Close = (if b.writes.all (·.delete) then .ok db.Close else .error nilMapWrite) ∧
      b.Replay Database.writer db.Close = if b.writes = [] then .ok db.Close else .error errMemorydbClosed := by
  refine ⟨foldlM_write_closed b.writes, ?_⟩
  unfold Replay
  cases b.writes with
  | nil => rfl
  | cons kv ws =>
    have fails : (if kv.delete then Database.writer.Delete db.Close kv.key
        else Database.writer.Put db.Close kv.key kv.value) = .error errMemorydbClosed := by
      split <;> rfl
    rw [List.foldlM_cons, fails]
    rfl

/-- Sending writes one by one to a batch appends them. -/
theorem foldl_writer (ws : List KeyValue) (nil : ∀ kv ∈ ws, kv.delete = true → kv.value = []) (b : Batch) :
    (ws.foldl (fun b kv => if kv.delete then b.Delete kv.key else b.Put kv.key kv.value) b).writes =
      b.writes ++ ws := by
  induction ws generalizing b with
  | nil => simp
  | cons kv ws ih =>
    rw [List.foldl_cons, ih fun kv' mem => nil kv' (List.mem_cons_of_mem kv mem)]
    -- the write the batch records is `kv` itself: a deletion's value is nil
    have same : (if kv.delete then b.Delete kv.key else b.Put kv.key kv.value).writes = b.writes ++ [kv] := by
      obtain ⟨key, value, delete⟩ := kv
      cases delete with
      | true =>
        have noValue : value = [] := nil _ List.mem_cons_self rfl
        simp [Delete, noValue]
      | false => simp [Put]
    simp [same]

/-- `Replay` into a batch appends the writes, and `ValueSize` adds up. -/
theorem Replay_batch (b b' : Batch) :
    ∃ b'', b.Replay writer b' = .ok b'' ∧ b''.writes = b'.writes ++ b.writes ∧
      b''.ValueSize = b'.ValueSize + b.ValueSize := by
  have step : ∀ (b : Batch) (kv : KeyValue),
      (if kv.delete then writer.Delete b kv.key else writer.Put b kv.key kv.value) =
        .ok (if kv.delete then b.Delete kv.key else b.Put kv.key kv.value) := by
    intro b kv
    by_cases d : kv.delete <;> simp [writer, d]
  refine ⟨_, Except.foldlM_eq_ok_foldl id step b.writes b', foldl_writer b.writes b.deletes_nil b', ?_⟩
  rw [ValueSize, size_eq, id_eq, foldl_writer b.writes b.deletes_nil b', List.map_append, List.sum_append,
    ValueSize, ValueSize, b'.size_eq, b.size_eq]

end Batch

namespace Database

/-! ## Iterating -/

variable (db : Database) (test : List UInt8 → Bool)

theorem length_keys_getD : (db.db.getD ∅).keys.length = db.Len := by
  obtain ⟨_ | m⟩ := db
  · rfl
  · simp [Len, AList.keys, List.keys]

theorem sorted_keys_iterate : (db.iterate test).keys.Pairwise (· < ·) :=
  SortedKeys.pairwise_lt_sort ((db.db.getD ∅).keys_nodup.filter test)

theorem mem_keys_iterate {key : List UInt8} :
    key ∈ (db.iterate test).keys ↔ key ∈ db.db.getD ∅ ∧ test key = true := by
  simp [iterate, SortedKeys.mem_sort, AList.mem_keys]

/-- A client that calls `Next` until it returns false reads each key that
passes the test with its value. -/
theorem drain_iterate {fuel : Nat} (enough : db.Len < fuel) :
    (db.iterate test).drain fuel = (db.iterate test).keys.map fun key => (key, ((db.db.getD ∅).lookup key).getD []) := by
  have short : (db.iterate test).keys.length < fuel := by
    have filtered := List.length_filter_le test (db.db.getD ∅).keys
    have sorted := (SortedKeys.sort_perm ((db.db.getD ∅).keys.filter test)).length_eq
    rw [length_keys_getD] at filtered
    exact lt_of_le_of_lt (sorted ▸ filtered) enough
  rw [show db.iterate test = ⟨false, _, _, (db.iterate test).length_eq⟩ from rfl, Iterator.drain_new _ _ _ short]
  exact List.map_prod_left_eq_zip.symm

/-- The entries a client reads are those of the database whose key passes the
test. -/
theorem mem_drain_iterate {fuel : Nat} (enough : db.Len < fuel) {key value : List UInt8} :
    (key, value) ∈ (db.iterate test).drain fuel ↔ db.Get key = .ok value ∧ test key = true := by
  rw [drain_iterate db test enough, List.mem_map]
  constructor
  · rintro ⟨k, mem, same⟩
    obtain ⟨rfl, rfl⟩ := Prod.mk.inj same
    obtain ⟨present, pass⟩ := (mem_keys_iterate db test).mp mem
    obtain ⟨_ | m⟩ := db
    · simp at present
    · obtain ⟨v, look⟩ := Option.isSome_iff_exists.mp (AList.lookup_isSome.mpr present)
      have found : m.lookup k = some v := look
      simp [Get, found, pass]
  · rintro ⟨get, pass⟩
    obtain ⟨_ | m⟩ := db
    · simp [Get] at get
    · have look : m.lookup key = some value := by
        simp only [Get] at get
        split at get <;> simp_all
      refine ⟨key, (mem_keys_iterate _ test).mpr ⟨AList.lookup_isSome.mp (by simp [look]), pass⟩, ?_⟩
      simp [look]

theorem fst_drain_iterate {fuel : Nat} (enough : db.Len < fuel) :
    ((db.iterate test).drain fuel).map Prod.fst = (db.iterate test).keys := by
  rw [drain_iterate db test enough, List.map_map]
  exact List.map_id' _

/-- A client that calls `Next` on `NewIteratorWithStart` until it returns
false reads each entry of the database from `start` on exactly once, in
increasing key order. -/
theorem drain_NewIteratorWithStart (start : List UInt8) {fuel : Nat} (enough : db.Len < fuel) :
    (((db.NewIteratorWithStart start).drain fuel).map Prod.fst).Pairwise (· < ·) ∧
      ∀ key value, (key, value) ∈ (db.NewIteratorWithStart start).drain fuel ↔
        db.Get key = .ok value ∧ start ≤ key := by
  refine ⟨?_, fun key value => ?_⟩
  · rw [NewIteratorWithStart, fst_drain_iterate db _ enough]
    exact sorted_keys_iterate db _
  · rw [NewIteratorWithStart, mem_drain_iterate db _ enough, decide_eq_true_iff]

theorem drain_NewIteratorWithStart_three :
    let db : Database := ⟨some ((((∅ : KeyMap).insert [2] [9]).insert [1, 2] [7]).insert [0] [5])⟩
    db.Len < 4 ∧
      (((db.NewIteratorWithStart [1]).drain 4).map Prod.fst).Pairwise (· < ·) ∧
        ∀ key value, (key, value) ∈ (db.NewIteratorWithStart [1]).drain 4 ↔
          db.Get key = .ok value ∧ [1] ≤ key :=
  ⟨by decide, drain_NewIteratorWithStart _ [1] (by decide)⟩

example : (Database.NewIteratorWithStart
    ⟨some ((((∅ : KeyMap).insert [2] [9]).insert [1, 2] [7]).insert [0] [5])⟩ [1]).drain 4 =
      [([1, 2], [7]), ([2], [9])] := by
  decide

/-- The keys with a prefix are the run at the front of the keys from the
prefix on. -/
theorem keys_NewIteratorWithPrefix (pr : List UInt8) :
    (db.NewIteratorWithPrefix pr).keys = (db.NewIteratorWithStart pr).keys.takeWhile pr.isPrefixOf := by
  let keys := (db.db.getD ∅).keys
  have above : ∀ k ∈ (db.NewIteratorWithStart pr).keys, pr ≤ k := fun k mem => by
    simpa using ((mem_keys_iterate db _).mp mem).2
  -- a key with the prefix is from the prefix on, so the second filter drops nothing
  have both : (keys.filter fun key => decide (pr ≤ key)).filter pr.isPrefixOf = keys.filter pr.isPrefixOf := by
    rw [List.filter_filter]
    refine List.filter_congr fun k _ => ?_
    by_cases pre : pr.isPrefixOf k = true
    · simp [pre, (List.isPrefixOf_iff_prefix.mp pre).le]
    · simp [pre]
  have sorted : (db.NewIteratorWithStart pr).keys.Pairwise (· < ·) := sorted_keys_iterate db _
  rw [← SortedKeys.filter_prefix_eq_takeWhile sorted above]
  show SortedKeys.sort (keys.filter pr.isPrefixOf) = (SortedKeys.sort (keys.filter fun key => decide (pr ≤ key))).filter _
  rw [SortedKeys.filter_sort, both]

/-- A client that reads `NewIteratorWithPrefix` reads what a client of
`NewIteratorWithStart` from the prefix reads up to the first key without it. -/
theorem drain_NewIteratorWithPrefix (pr : List UInt8) {fuel : Nat} (enough : db.Len < fuel) :
    (db.NewIteratorWithPrefix pr).drain fuel =
      ((db.NewIteratorWithStart pr).drain fuel).takeWhile fun entry => pr.isPrefixOf entry.1 := by
  rw [NewIteratorWithPrefix, drain_iterate db _ enough, NewIteratorWithStart, drain_iterate db _ enough,
    List.takeWhile_map]
  exact congrArg (List.map _) (keys_NewIteratorWithPrefix db pr)

theorem drain_NewIteratorWithPrefix_one :
    let db : Database := ⟨some ((((∅ : KeyMap).insert [2] [9]).insert [1, 2] [7]).insert [1] [5])⟩
    db.Len < 4 ∧
      (db.NewIteratorWithPrefix [1]).drain 4 =
        ((db.NewIteratorWithStart [1]).drain 4).takeWhile fun entry => [1].isPrefixOf entry.1 :=
  ⟨by decide, drain_NewIteratorWithPrefix _ [1] (by decide)⟩

/-- What an iterator reads depends on the entries of the map, not on the
order Go ranges over them in. -/
theorem iterate_congr {m₁ m₂ : KeyMap} (same : ∀ key, m₁.lookup key = m₂.lookup key) :
    (⟨some m₁⟩ : Database).iterate test = (⟨some m₂⟩ : Database).iterate test := by
  have keys : m₁.keys.Perm m₂.keys := by
    refine (List.perm_ext_iff_of_nodup m₁.keys_nodup m₂.keys_nodup).mpr fun key => ?_
    rw [← AList.mem_keys, ← AList.mem_keys, ← AList.lookup_isSome, ← AList.lookup_isSome, same]
  have sorted := SortedKeys.sort_eq_of_perm (keys.filter test)
  ext1
  · rfl
  · exact sorted
  · simp only [iterate, Option.getD_some, sorted, same]

theorem iterate_congr_swapped :
    (⟨some (((∅ : KeyMap).insert [1] [5]).insert [2] [9])⟩ : Database).iterate (fun _ => true) =
      (⟨some (((∅ : KeyMap).insert [2] [9]).insert [1] [5])⟩ : Database).iterate (fun _ => true) :=
  iterate_congr (fun _ => true) fun key => by
    by_cases one : key = [1]
    · subst one
      rfl
    · by_cases two : key = [2]
      · subst two
        rfl
      · simp only [AList.lookup_insert_ne one, AList.lookup_insert_ne two]

end Database

/-! ## Runs of writes -/

/-- The writes a client makes: `Put`, `Delete` and `Write` of a batch. -/
inductive Op where
  | put (key value : List UInt8)
  | delete (key : List UInt8)
  | write (b : Batch)

namespace Op

/-- One write on the database. -/
def run (db : Database) : Op → Except String Database
  | put key value => db.Put key value
  | delete key => db.Delete key
  | write b => b.Write db

/-- The writes of an operation, in order. -/
def writes : Op → List KeyValue
  | put key value => [⟨key, value, false⟩]
  | delete key => [⟨key, [], true⟩]
  | write b => b.writes

theorem run_open (m : KeyMap) (op : Op) :
    op.run ⟨some m⟩ = .ok ⟨some (op.writes.foldl KeyValue.applyTo m)⟩ := by
  cases op with
  | put key value => rfl
  | delete key => rfl
  | write b => exact Batch.Write_open b m

end Op

/-- A run of writes on an open database succeeds, and the database then holds
at each key the value of the last write to it, nothing if that write deleted
it, and what it held before if no write touched it. -/
theorem run_view (m : KeyMap) (ops : List Op) :
    ∃ m', ops.foldlM Op.run ⟨some m⟩ = .ok ⟨some m'⟩ ∧
      ∀ key, m'.lookup key =
        (((ops.flatMap Op.writes).reverse.find? fun kv => kv.key = key).map KeyValue.entry).getD (m.lookup key) := by
  refine ⟨_, Except.foldlM_eq_ok_foldl (fun m : KeyMap => (⟨some m⟩ : Database)) Op.run_open ops m, fun key => ?_⟩
  have all : ops.foldl (fun m op => op.writes.foldl KeyValue.applyTo m) m =
      (ops.flatMap Op.writes).foldl KeyValue.applyTo m := by
    rw [List.foldl_flatMap]
  rw [all, congrFun (KeyValue.lookup_foldl_applyTo _ m) key]
  exact Lib.foldl_update_apply KeyValue.key KeyValue.entry _ key _

end FiscoBcos.Ethdb
