import FiscoBcos.Lib.HeapOrder
import Mathlib

/-!
# The block stack of `common/prque`

`sstack` keeps the heap array of a `Prque` in blocks of `blockSize` entries:
the element at position `i` lives at `blocks[i / blockSize][i % blockSize]`.
`active` is the block `Push` and `Pop` write through and `offset` the next free
entry in it; `Push` allocates a block when the stack is full and steps to the
next one when the active block is. The optional index callback is recorded by
whether it was given and by the calls it received, in order.
-/

namespace FiscoBcos.Prque

/-- `blockSize`. -/
def blockSize : Nat := 4096

/-- `item`. -/
structure Item (α : Type) where
  value : α
  priority : Int64
deriving DecidableEq, Repr

/-- `sstack`. `active` is the index of the block that the `active` slice
aliases; `reported` is the calls of `setIndex`, oldest first. -/
structure Sstack (α : Type) where
  setIndex : Bool
  reported : List (α × Int)
  size : Nat
  capacity : Nat
  offset : Int
  blocks : List (List (Option (Item α)))
  active : Nat

/-- The panic of an index outside a slice. -/
def indexOutOfRange : String := "runtime error: index out of range"

/-- The panic of a field read through a nil pointer. -/
def nilDereference : String := "runtime error: invalid memory address or nil pointer dereference"

/-- `xs[i]`. -/
def index {γ : Type} (xs : List γ) (i : Int) : Except String γ :=
  match xs[i.toNat]? with
  | some x => if 0 ≤ i then .ok x else .error indexOutOfRange
  | none => .error indexOutOfRange

/-- `p` of a pointer that is read through. -/
def deref {γ : Type} : Option γ → Except String γ
  | some x => .ok x
  | none => .error nilDereference

variable {α : Type}

/-- `blocks[b][o] = x`. -/
def store (blocks : List (List (Option (Item α)))) (b o : Int) (x : Option (Item α)) :
    Except String (List (List (Option (Item α)))) := do
  let block ← index blocks b
  let _ ← index block o
  pure (blocks.set b.toNat (block.set o.toNat x))

/-- `newSstack`. -/
def newSstack (setIndex : Bool) : Sstack α where
  setIndex := setIndex
  reported := []
  size := 0
  capacity := blockSize
  offset := 0
  blocks := [List.replicate blockSize none]
  active := 0

namespace Sstack

/-- `setIndex(a, i)`, if a callback was given. -/
def report (s : Sstack α) (a : α) (i : Int) : Sstack α :=
  if s.setIndex then { s with reported := s.reported ++ [(a, i)] } else s

/-- The first statement of `sstack.Push`: a new block when the stack is full,
or the next block when the active one is. -/
def grow (s : Sstack α) : Except String (Sstack α) :=
  if s.size = s.capacity then
    pure { s with
      blocks := s.blocks ++ [List.replicate blockSize none]
      active := s.blocks.length
      capacity := s.capacity + blockSize
      offset := 0 }
  else if s.offset = blockSize then do
    let _ ← index s.blocks (s.size / blockSize : Nat)
    pure { s with active := s.size / blockSize, offset := 0 }
  else pure s

/-- `sstack.Push`. -/
def Push (s : Sstack α) (data : Option (Item α)) : Except String (Sstack α) := do
  let s ← s.grow
  let s ← if s.setIndex then do
      let d ← deref data
      pure (s.report d.value s.size)
    else pure s
  let blocks ← store s.blocks s.active s.offset data
  pure { s with blocks, offset := s.offset + 1, size := s.size + 1 }

/-- The first statements of `sstack.Pop`: one entry less, and the previous
block when the active one is used up. -/
def retreat (s : Sstack α) : Except String (Sstack α) :=
  let s := { s with size := s.size - 1, offset := s.offset - 1 }
  if s.offset < 0 then do
    let _ ← index s.blocks (s.size / blockSize : Nat)
    pure { s with offset := blockSize - 1, active := s.size / blockSize }
  else pure s

/-- `sstack.Pop`. -/
def Pop (s : Sstack α) : Except String (Sstack α × Option (Item α)) := do
  let s ← s.retreat
  let res ← index (← index s.blocks s.active) s.offset
  let blocks ← store s.blocks s.active s.offset none
  let s := { s with blocks }
  let s ← if s.setIndex then do
      let r ← deref res
      pure (s.report r.value (-1))
    else pure s
  pure (s, res)

/-- `sstack.Len`. -/
def Len (s : Sstack α) : Nat := s.size

/-- `sstack.Less`: `i` comes first when its priority minus `j`'s, in wrapping
`int64` arithmetic, is positive. -/
def Less (s : Sstack α) (i j : Nat) : Except String Bool := do
  let a ← deref (← index (← index s.blocks (i / blockSize : Nat)) (i % blockSize : Nat))
  let b ← deref (← index (← index s.blocks (j / blockSize : Nat)) (j % blockSize : Nat))
  pure (a.priority - b.priority > 0)

/-- `sstack.Swap`, with Go's division and remainder, which truncate. -/
def Swap (s : Sstack α) (i j : Int) : Except String (Sstack α) := do
  let ib := i.tdiv blockSize
  let io := i.tmod blockSize
  let jb := j.tdiv blockSize
  let jo := j.tmod blockSize
  let a ← index (← index s.blocks jb) jo
  let b ← index (← index s.blocks ib) io
  let s ← if s.setIndex then do
      let av ← deref a
      let s := s.report av.value i
      let bv ← deref b
      pure (s.report bv.value j)
    else pure s
  let blocks ← store s.blocks ib io a
  let blocks ← store blocks jb jo b
  pure { s with blocks }

/-- `sstack.Reset`: a new stack with the same callback. The calls already
made to the callback stay made. -/
def Reset (s : Sstack α) : Sstack α := { newSstack s.setIndex with reported := s.reported }

/-- The methods of `heap.Interface` that `container/heap` calls on a `sstack`. -/
def iface : GoHeap.Interface (Sstack α) (Option (Item α)) String where
  Len := Len
  Less := Less
  Swap := Swap
  Push := Push
  Pop := Pop

end Sstack



variable {α γ : Type}

/-! ## Slices -/

theorem index_natCast {xs : List γ} {i : Nat} (hi : i < xs.length) : index xs i = .ok xs[i] := by
  simp [index, hi]

theorem index_neg (xs : List γ) {i : Int} (neg : i < 0) : index xs i = .error indexOutOfRange := by
  unfold index
  split <;> simp [Int.not_le.mpr neg]

@[simp] theorem deref_some (x : γ) : deref (some x) = .ok x := rfl

@[simp] theorem deref_none : deref (none : Option γ) = .error nilDereference := rfl

/-! ## The heap positions of the blocks -/

/-- The entry at heap position `p`: `blocks[p / blockSize][p % blockSize]`,
nil outside the blocks. -/
def entry (blocks : List (List (Option (Item α)))) (p : Nat) : Option (Item α) :=
  ((blocks[p / blockSize]?).bind fun block => block[p % blockSize]?).getD none

/-- The blocks after `blocks[p / blockSize][p % blockSize] = x`. -/
def setEntry (blocks : List (List (Option (Item α)))) (p : Nat) (x : Option (Item α)) :
    List (List (Option (Item α))) :=
  blocks.modify (p / blockSize) fun block => block.set (p % blockSize) x

/-- Every block has `blockSize` entries. -/
def Uniform (blocks : List (List (Option (Item α)))) : Prop :=
  ∀ (b : Nat) (block : List (Option (Item α))), blocks[b]? = some block → block.length = blockSize

theorem blockSize_pos : 0 < blockSize := by decide

theorem position_eq_iff {p q : Nat} : q = p ↔ q / blockSize = p / blockSize ∧ q % blockSize = p % blockSize := by
  constructor
  · rintro rfl
    exact ⟨rfl, rfl⟩
  · rintro ⟨hd, hm⟩
    rw [← Nat.div_add_mod q blockSize, ← Nat.div_add_mod p blockSize, hd, hm]

/-- A position below the blocks' capacity is inside a block. -/
theorem getElem?_block {blocks : List (List (Option (Item α)))} (uniform : Uniform blocks) {p : Nat}
    (hp : p < blockSize * blocks.length) :
    ∃ block, blocks[p / blockSize]? = some block ∧ p % blockSize < block.length := by
  have hb : p / blockSize < blocks.length := by
    rw [Nat.div_lt_iff_lt_mul blockSize_pos]
    rwa [Nat.mul_comm]
  refine ⟨blocks[p / blockSize], List.getElem?_eq_getElem hb, ?_⟩
  rw [uniform _ _ (List.getElem?_eq_getElem hb)]
  exact Nat.mod_lt p blockSize_pos

theorem entry_setEntry {blocks : List (List (Option (Item α)))} (uniform : Uniform blocks) {p : Nat}
    (hp : p < blockSize * blocks.length) (x : Option (Item α)) :
    entry (setEntry blocks p x) = Function.update (entry blocks) p x := by
  obtain ⟨block, hblock, ho⟩ := getElem?_block uniform hp
  funext q
  unfold entry setEntry
  rw [List.getElem?_modify, Function.update_apply]
  by_cases hd : q / blockSize = p / blockSize
  · rw [hd, hblock]
    by_cases hm : q % blockSize = p % blockSize
    · have hq : q = p := position_eq_iff.mpr ⟨hd, hm⟩
      simp [hq, ho]
    · have hq : q ≠ p := fun h => hm (position_eq_iff.mp h).2
      simp [hq, Ne.symm hm]
  · have hq : q ≠ p := fun h => hd (position_eq_iff.mp h).1
    simp [hq, Ne.symm hd]

/-- A block of nils at the end changes no entry. -/
theorem entry_append_nils (blocks : List (List (Option (Item α)))) :
    entry (blocks ++ [List.replicate blockSize none]) = entry blocks := by
  funext p
  unfold entry
  rw [List.getElem?_append]
  split
  · rfl
  · rename_i past
    rw [List.getElem?_eq_none (Nat.le_of_not_lt past), List.getElem?_singleton]
    split
    · rw [Option.bind_some, List.getElem?_replicate]
      split <;> rfl
    · rfl

theorem length_setEntry (blocks : List (List (Option (Item α)))) (p : Nat) (x : Option (Item α)) :
    (setEntry blocks p x).length = blocks.length :=
  List.length_modify ..

theorem Uniform.setEntry {blocks : List (List (Option (Item α)))} (uniform : Uniform blocks) (p : Nat)
    (x : Option (Item α)) : Uniform (setEntry blocks p x) := by
  intro b block hb
  rw [Prque.setEntry, List.getElem?_modify] at hb
  obtain ⟨old, hold, rfl⟩ := Option.map_eq_some_iff.mp hb
  have := uniform b old hold
  split <;> simp [this]

/-- `blocks[b][o] = x` inside the blocks writes heap position `b * blockSize + o`. -/
theorem store_eq {blocks : List (List (Option (Item α)))} (uniform : Uniform blocks) {b : Nat} {o : Int}
    (hb : b < blocks.length) (ho0 : 0 ≤ o) (ho : o < blockSize) (x : Option (Item α)) :
    store blocks b o x = .ok (setEntry blocks (blockSize * b + o.toNat) x) := by
  obtain ⟨o, rfl⟩ := Int.eq_ofNat_of_zero_le ho0
  replace ho : o < blockSize := by omega
  have hlen : o < blocks[b].length := by rwa [uniform b _ (List.getElem?_eq_getElem hb)]
  have hdiv : (blockSize * b + o) / blockSize = b := by
    rw [Nat.mul_add_div blockSize_pos, Nat.div_eq_of_lt ho, Nat.add_zero]
  have hmod : (blockSize * b + o) % blockSize = o := by
    rw [Nat.mul_add_mod, Nat.mod_eq_of_lt ho]
  have hset : blocks.set b (blocks[b].set o x) = blocks.modify b fun block => block.set o x := by
    apply List.ext_getElem?
    intro k
    by_cases hk : b = k
    · subst hk
      simp [hb]
    · simp [hk]
  simp only [store, Except.bind_eq_bind, index_natCast hb, Except.bind_ok_eq, index_natCast hlen,
    Except.pure_eq_ok, Int.toNat_natCast, Prque.setEntry, hdiv, hmod, hset]

/-- Reading `blocks[b][o]` inside the blocks reads heap position
`b * blockSize + o`. -/
theorem read_bind {blocks : List (List (Option (Item α)))} (uniform : Uniform blocks) {b : Nat} {o : Int}
    (hb : b < blocks.length) (ho0 : 0 ≤ o) (ho : o < blockSize) (f : Option (Item α) → Except String γ) :
    (index blocks b).bind (fun block => (index block o).bind f) = f (entry blocks (blockSize * b + o.toNat)) := by
  obtain ⟨o, rfl⟩ := Int.eq_ofNat_of_zero_le ho0
  replace ho : o < blockSize := by omega
  have hlen : o < blocks[b].length := by rwa [uniform b _ (List.getElem?_eq_getElem hb)]
  have hdiv : (blockSize * b + o) / blockSize = b := by
    rw [Nat.mul_add_div blockSize_pos, Nat.div_eq_of_lt ho, Nat.add_zero]
  have hmod : (blockSize * b + o) % blockSize = o := by
    rw [Nat.mul_add_mod, Nat.mod_eq_of_lt ho]
  rw [index_natCast hb, Except.bind_ok_eq, index_natCast hlen, Except.bind_ok_eq, Int.toNat_natCast]
  simp [entry, hdiv, hmod, List.getElem?_eq_getElem hb, List.getElem?_eq_getElem hlen]

theorem div_lt_length {blocks : List (List (Option (Item α)))} {p : Nat} (hp : p < blockSize * blocks.length) :
    p / blockSize < blocks.length := by
  rw [Nat.div_lt_iff_lt_mul blockSize_pos, Nat.mul_comm]
  exact hp

/-- Reading `blocks[p / blockSize][p % blockSize]` inside the blocks reads the
entry at `p`. -/
theorem read_position_bind {blocks : List (List (Option (Item α)))} (uniform : Uniform blocks) {p : Nat}
    (hp : p < blockSize * blocks.length) (f : Option (Item α) → Except String γ) :
    (index blocks (p / blockSize : Nat)).bind (fun block => (index block (p % blockSize : Nat)).bind f) =
      f (entry blocks p) := by
  rw [read_bind uniform (div_lt_length hp) (Int.natCast_nonneg _) (by exact_mod_cast Nat.mod_lt p blockSize_pos),
    Int.toNat_natCast, Nat.div_add_mod]

theorem blockSize_eq : blockSize = 4096 := rfl

/-- `blocks[p / blockSize][p % blockSize] = x` inside the blocks writes heap
position `p`. -/
theorem store_position {blocks : List (List (Option (Item α)))} (uniform : Uniform blocks) {p : Nat}
    (hp : p < blockSize * blocks.length) (x : Option (Item α)) :
    store blocks (p / blockSize : Nat) (p % blockSize : Nat) x = .ok (setEntry blocks p x) := by
  rw [store_eq uniform (div_lt_length hp) (Int.natCast_nonneg _) (by exact_mod_cast Nat.mod_lt p blockSize_pos),
    Int.toNat_natCast, Nat.div_add_mod]

/-! ## The layout invariant -/

namespace Sstack

/-- What `newSstack`, `Push` and `Pop` keep: the blocks are full-size and
`capacity` counts their entries; `active` and `offset` point at heap position
`size`, at the end of a block or inside one; the entries below `size` are
items and those from `size` on are nil. -/
structure Valid (s : Sstack α) : Prop where
  uniform : Uniform s.blocks
  capacity : s.capacity = blockSize * s.blocks.length
  size_le : s.size ≤ s.capacity
  active_lt : s.active < s.blocks.length
  offset : (s.size : Int) = blockSize * s.active + s.offset
  offset_nonneg : 0 ≤ s.offset
  offset_le : s.offset ≤ blockSize
  present : ∀ p < s.size, (entry s.blocks p).isSome
  vacant : ∀ p, s.size ≤ p → entry s.blocks p = none

@[simp] theorem report_blocks (s : Sstack α) (a : α) (i : Int) : (s.report a i).blocks = s.blocks := by
  unfold report; split <;> rfl

@[simp] theorem report_size (s : Sstack α) (a : α) (i : Int) : (s.report a i).size = s.size := by
  unfold report; split <;> rfl

@[simp] theorem report_capacity (s : Sstack α) (a : α) (i : Int) : (s.report a i).capacity = s.capacity := by
  unfold report; split <;> rfl

@[simp] theorem report_offset (s : Sstack α) (a : α) (i : Int) : (s.report a i).offset = s.offset := by
  unfold report; split <;> rfl

@[simp] theorem report_active (s : Sstack α) (a : α) (i : Int) : (s.report a i).active = s.active := by
  unfold report; split <;> rfl

@[simp] theorem report_setIndex (s : Sstack α) (a : α) (i : Int) : (s.report a i).setIndex = s.setIndex := by
  unfold report; split <;> rfl

theorem report_reported (s : Sstack α) (a : α) (i : Int) :
    (s.report a i).reported = if s.setIndex then s.reported ++ [(a, i)] else s.reported := by
  unfold report; split <;> simp [*]

/-- A report changes nothing but the calls. -/
theorem Valid.report {s : Sstack α} (hv : Valid s) (a : α) (i : Int) : Valid (s.report a i) := by
  obtain ⟨u, c, sl, al, o, on, ol, pr, va⟩ := hv
  exact ⟨by simpa using u, by simpa using c, by simpa using sl, by simpa using al, by simpa using o,
    by simpa using on, by simpa using ol, by simpa using pr, by simpa using va⟩

theorem newSstack_valid (setIndex : Bool) : Valid (newSstack setIndex : Sstack α) where
  uniform b block h := by
    simp only [newSstack, List.getElem?_singleton] at h
    split at h
    · cases h; simp
    · cases h
  capacity := rfl
  size_le := Nat.zero_le _
  active_lt := Nat.zero_lt_one
  offset := rfl
  offset_nonneg := Int.le_refl 0
  offset_le := Int.natCast_nonneg blockSize
  present p hp := absurd hp (Nat.not_lt_zero p)
  vacant p _ := by
    show entry [List.replicate blockSize none] p = none
    unfold entry
    rw [List.getElem?_singleton]
    split
    · rw [Option.bind_some, List.getElem?_replicate]
      split <;> rfl
    · rfl

/-! ## One lemma for each method -/

/-- The calls after `setIndex` is called with `calls`, if a callback was given. -/
def logged (s : Sstack α) (calls : List (α × Int)) : List (α × Int) :=
  if s.setIndex then s.reported ++ calls else s.reported

/-- `sstack.Less` on two entries: whether both are items and the first comes
first. -/
def before : Option (Item α) → Option (Item α) → Bool
  | some a, some b => a.priority - b.priority > 0
  | _, _ => false

theorem report_of_not {s : Sstack α} (h : s.setIndex = false) (a : α) (i : Int) : s.report a i = s := by
  simp [report, h]

theorem report_report_reported (s : Sstack α) (a b : α) (i j : Int) :
    ((s.report a i).report b j).reported = s.logged [(a, i), (b, j)] := by
  cases h : s.setIndex <;> simp [report_reported, logged, h]

theorem Valid.size_lt {s : Sstack α} (hv : Valid s) {p : Nat} (hp : p < s.size) : p < blockSize * s.blocks.length :=
  Nat.lt_of_lt_of_le hp (hv.capacity ▸ hv.size_le)

/-- `grow` leaves the stack valid with room for position `size` in the active
block, and the entries as they were. -/
theorem grow_spec {s : Sstack α} (hv : Valid s) :
    ∃ g, s.grow = .ok g ∧ Valid g ∧ g.offset < blockSize ∧ g.size = s.size ∧ g.setIndex = s.setIndex ∧
      g.reported = s.reported ∧ entry g.blocks = entry s.blocks := by
  unfold grow
  by_cases full : s.size = s.capacity
  · -- a new block of nils, which becomes the active one
    rw [if_pos full]
    have same := entry_append_nils s.blocks
    refine ⟨_, rfl, ⟨?_, ?_, ?_, ?_, ?_, Int.le_refl 0, ?_, ?_, ?_⟩, ?_, rfl, rfl, rfl, same⟩
    · intro b block hb
      rw [List.getElem?_append] at hb
      split at hb
      · exact hv.uniform b block hb
      · rw [List.getElem?_singleton] at hb
        split at hb
        · cases hb; simp
        · cases hb
    · simp [hv.capacity, Nat.mul_add]
    · simp [hv.capacity] at full ⊢; omega
    · simp
    · simp [full, hv.capacity]
    · simp
    · intro p hp
      simpa [same] using hv.present p hp
    · intro p hp
      simpa [same] using hv.vacant p hp
    · simp [blockSize_pos]
  · rw [if_neg full]
    have below : s.size < s.capacity := Nat.lt_of_le_of_ne hv.size_le full
    by_cases atEnd : s.offset = blockSize
    · -- the active block is full: step to the next one, which exists
      rw [if_pos atEnd]
      have hsize := hv.offset
      rw [atEnd] at hsize
      have next : s.size / blockSize = s.active + 1 := by
        simp [blockSize] at hsize ⊢; omega
      have inside : s.size / blockSize < s.blocks.length := by
        have := hv.capacity; simp [blockSize] at this below ⊢; omega
      rw [index_natCast inside, Except.bind_eq_bind, Except.bind_ok_eq]
      refine ⟨_, rfl, ⟨hv.uniform, hv.capacity, hv.size_le, inside, ?_, Int.le_refl 0, ?_, hv.present, hv.vacant⟩,
        ?_, rfl, rfl, rfl, rfl⟩
      · rw [next, Int.add_zero]
        push_cast
        rw [Int.mul_add, Int.mul_one]
        exact hsize
      · exact Int.natCast_nonneg _
      · exact Int.natCast_pos.mpr blockSize_pos
    · rw [if_neg atEnd]
      have := hv.offset_le
      exact ⟨s, rfl, hv, by omega, rfl, rfl, rfl, rfl⟩

/-- `retreat` steps back one position, to the previous block's last entry
when the active block is used up. -/
theorem retreat_spec {s : Sstack α} (hv : Valid s) (nonempty : 0 < s.size) :
    ∃ a o, s.retreat = .ok { s with size := s.size - 1, offset := o, active := a } ∧ a < s.blocks.length ∧
      0 ≤ o ∧ o < blockSize ∧ ((s.size - 1 : Nat) : Int) = blockSize * a + o := by
  have hsize := hv.offset
  have hlow := hv.offset_nonneg
  have hhigh := hv.offset_le
  have hact := hv.active_lt
  dsimp only [retreat]
  by_cases back : s.offset - 1 < 0
  · -- `size` was the start of the active block, which is not the first
    rw [if_pos back]
    have prev : (s.size - 1) / blockSize < s.blocks.length := by
      rw [blockSize_eq] at hsize ⊢; omega
    rw [Except.bind_eq_bind, index_natCast prev, Except.bind_ok_eq]
    refine ⟨_, _, rfl, prev, ?_, ?_, ?_⟩ <;> rw [blockSize_eq] at * <;> omega
  · rw [if_neg back]
    refine ⟨s.active, s.offset - 1, rfl, hact, by omega, by omega, ?_⟩
    omega

theorem Valid.entry_some {s : Sstack α} (hv : Valid s) {p : Nat} (hp : p < s.size) : ∃ it, entry s.blocks p = some it :=
  Option.isSome_iff_exists.mp (hv.present p hp)

theorem Less_eq {s : Sstack α} (hv : Valid s) {i j : Nat} (hi : i < s.size) (hj : j < s.size) :
    s.Less i j = .ok (before (entry s.blocks i) (entry s.blocks j)) := by
  obtain ⟨a, ha⟩ := hv.entry_some hi
  obtain ⟨b, hb⟩ := hv.entry_some hj
  unfold Less
  simp only [Except.bind_eq_bind]
  rw [read_position_bind hv.uniform (hv.size_lt hi), ha, deref_some, Except.bind_ok_eq,
    read_position_bind hv.uniform (hv.size_lt hj), hb, deref_some, Except.bind_ok_eq]
  rfl

/-- New blocks with the same shape, items below `size` and nils from `size`
on keep a stack valid. -/
theorem Valid.withBlocks {s : Sstack α} (hv : Valid s) {blocks : List (List (Option (Item α)))}
    (uniform : Uniform blocks) (len : blocks.length = s.blocks.length)
    (present : ∀ p < s.size, (entry blocks p).isSome) (vacant : ∀ p, s.size ≤ p → entry blocks p = none) :
    Valid { s with blocks } :=
  ⟨uniform, len ▸ hv.capacity, hv.size_le, len ▸ hv.active_lt, hv.offset, hv.offset_nonneg, hv.offset_le,
    present, vacant⟩

/-- `Swap` exchanges two items, reporting the one moved to `i` first. -/
theorem Swap_spec {s : Sstack α} (hv : Valid s) {i j : Nat} (hi : i < s.size) (hj : j < s.size) {a b : Item α}
    (ha : entry s.blocks j = some a) (hb : entry s.blocks i = some b) :
    ∃ s', s.Swap i j = .ok s' ∧ Valid s' ∧ s'.size = s.size ∧ s'.setIndex = s.setIndex ∧
      s'.reported = s.logged [(a.value, i), (b.value, j)] ∧
      entry s'.blocks = Function.update (Function.update (entry s.blocks) i (some a)) j (some b) := by
  have first := store_position hv.uniform (hv.size_lt hi) (some a)
  have second := store_position (hv.uniform.setEntry i (some a))
    (by rw [length_setEntry]; exact hv.size_lt hj) (some b)
  have moved : entry (setEntry (setEntry s.blocks i (some a)) j (some b)) =
      Function.update (Function.update (entry s.blocks) i (some a)) j (some b) := by
    rw [entry_setEntry (hv.uniform.setEntry i (some a)) (by rw [length_setEntry]; exact hv.size_lt hj),
      entry_setEntry hv.uniform (hv.size_lt hi)]
  refine ⟨{ (s.report a.value i).report b.value j with blocks := setEntry (setEntry s.blocks i (some a)) j (some b) },
    ?_, ?_, by simp, by simp, report_report_reported .., moved⟩
  · unfold Swap
    simp only [← Int.ofNat_tdiv, ← Int.ofNat_tmod, Except.bind_eq_bind]
    rw [read_position_bind hv.uniform (hv.size_lt hj), ha, read_position_bind hv.uniform (hv.size_lt hi), hb]
    cases h : s.setIndex <;>
      simp only [h, Bool.false_eq_true, if_true, if_false, deref_some, Except.pure_eq_ok, Except.bind_ok_eq,
        report_blocks, first, second]
    rw [report_of_not h, report_of_not h, h]
  · -- the entries below `size` are the same items in other places
    refine Valid.withBlocks (hv.report _ _ |>.report _ _) ((hv.uniform.setEntry _ _).setEntry _ _)
      (by simp [length_setEntry]) ?_ ?_
    · intro p hp
      simp only [report_size] at hp
      rw [moved]
      simp only [Function.update_apply]
      split
      · rfl
      · split
        · rfl
        · exact hv.present p hp
    · intro p hp
      simp only [report_size] at hp
      rw [moved, Function.update_of_ne (by omega), Function.update_of_ne (by omega)]
      exact hv.vacant p hp

/-- `Push` of an item writes it at position `size`, reported there. -/
theorem Push_spec {s : Sstack α} (hv : Valid s) (it : Item α) :
    ∃ s', s.Push (some it) = .ok s' ∧ Valid s' ∧ s'.size = s.size + 1 ∧ s'.setIndex = s.setIndex ∧
      s'.reported = s.logged [(it.value, s.size)] ∧
      entry s'.blocks = Function.update (entry s.blocks) s.size (some it) := by
  obtain ⟨g, hg, gv, room, gsize, gset, grep, gentry⟩ := grow_spec hv
  have gpos := gv.offset
  have glow := gv.offset_nonneg
  have gact := gv.active_lt
  have gcap := gv.capacity
  -- the active block and offset point at position `size`, inside the blocks
  have at_size : blockSize * g.active + g.offset.toNat = s.size := by
    rw [blockSize_eq] at gpos ⊢; omega
  have inside : s.size < blockSize * g.blocks.length := by
    rw [blockSize_eq] at gpos room ⊢; rw [← gsize]
    have : g.active + 1 ≤ g.blocks.length := gact
    have : 4096 * (g.active + 1) ≤ 4096 * g.blocks.length := Nat.mul_le_mul_left 4096 this
    omega
  have write := store_eq gv.uniform gact glow room (some it)
  rw [at_size] at write
  have written := entry_setEntry gv.uniform inside (some it)
  rw [gentry] at written
  refine ⟨{ g.report it.value g.size with
      blocks := setEntry g.blocks s.size (some it), offset := g.offset + 1, size := g.size + 1 }, ?_,
    ⟨gv.uniform.setEntry _ _, ?_, ?_, ?_, ?_, ?_, ?_, ?_, ?_⟩, by simp [gsize], by simp [gset], ?_, written⟩
  · unfold Push
    rw [Except.bind_eq_bind, hg, Except.bind_ok_eq]
    cases h : g.setIndex <;>
      simp only [h, Bool.false_eq_true, if_true, if_false, deref_some, Except.pure_eq_ok, Except.bind_ok_eq,
        Except.bind_eq_bind, report_blocks, report_active, report_offset, report_size, write]
    rw [report_of_not h, h]
  · simp [length_setEntry, gcap]
  · simp only [report_capacity]; omega
  · simpa [length_setEntry] using gact
  · simp only [report_active]; push_cast; omega
  · dsimp only; omega
  · dsimp only; omega
  · intro p hp
    simp only [written, Function.update_apply] at hp ⊢
    split
    · rfl
    · exact hv.present p (by omega)
  · intro p hp
    simp only [written] at hp ⊢
    rw [Function.update_of_ne (by omega)]
    exact hv.vacant p (by omega)
  · simp only [report_reported, gset, grep, gsize, logged]

/-- `Pop` takes the item at position `size - 1` and reports it gone. -/
theorem Pop_spec {s : Sstack α} (hv : Valid s) (nonempty : 0 < s.size) {it : Item α}
    (last : entry s.blocks (s.size - 1) = some it) :
    ∃ s', s.Pop = .ok (s', some it) ∧ Valid s' ∧ s'.size = s.size - 1 ∧ s'.setIndex = s.setIndex ∧
      s'.reported = s.logged [(it.value, -1)] ∧
      entry s'.blocks = Function.update (entry s.blocks) (s.size - 1) none := by
  obtain ⟨a, o, hr, ha, ho0, ho, hpos⟩ := retreat_spec hv nonempty
  have at_last : blockSize * a + o.toNat = s.size - 1 := by omega
  have inside : s.size - 1 < blockSize * s.blocks.length := hv.size_lt (by omega)
  have erase := store_eq hv.uniform ha ho0 ho (none : Option (Item α))
  rw [at_last] at erase
  have erased := entry_setEntry hv.uniform inside (none : Option (Item α))
  refine ⟨({ s with
      size := s.size - 1
      offset := o
      active := a
      blocks := setEntry s.blocks (s.size - 1) none }).report it.value (-1), ?_,
    (Valid.report ⟨hv.uniform.setEntry _ _, ?_, ?_, ?_, ?_, ho0, Int.le_of_lt ho, ?_, ?_⟩ _ _),
    by simp, by simp, ?_, by simp [erased]⟩
  · unfold Pop
    rw [Except.bind_eq_bind, hr, Except.bind_ok_eq]
    simp only [Except.bind_eq_bind]
    rw [read_bind hv.uniform ha ho0 ho, at_last, last, erase, Except.bind_ok_eq]
    cases s.setIndex <;>
      simp only [Bool.false_eq_true, if_true, if_false, deref_some, Except.pure_eq_ok, Except.bind_ok_eq]
    rw [report_of_not rfl]
  · simp [length_setEntry, hv.capacity]
  · have := hv.size_le; dsimp only; omega
  · simpa [length_setEntry] using ha
  · simpa using hpos
  · intro p hp
    simp only [erased, Function.update_apply] at hp ⊢
    rw [if_neg (by omega)]
    exact hv.present p (by omega)
  · intro p hp
    simp only [erased, Function.update_apply] at hp ⊢
    split
    · rfl
    · exact hv.vacant p (by omega)
  · simp [report_reported, logged]

/-! ## The heap array the blocks hold -/

/-- The heap array: the entries below `size`. -/
def heap (s : Sstack α) : Array (Option (Item α)) := Array.ofFn fun p : Fin s.size => entry s.blocks p

@[simp] theorem size_heap (s : Sstack α) : (heap s).size = s.size := Array.size_ofFn ..

theorem getElem?_heap (s : Sstack α) (p : Nat) :
    (heap s)[p]? = if p < s.size then some (entry s.blocks p) else none := by
  simp [heap, Array.getElem?_ofFn]

@[simp] theorem getElem_heap (s : Sstack α) {p : Nat} (hp : p < (heap s).size) : (heap s)[p] = entry s.blocks p := by
  simp [heap]

theorem heap_swap {s s' : Sstack α} (hv : Valid s) {i j : Nat} (hi : i < s.size) (hj : j < s.size)
    (run : s.Swap i j = .ok s') : heap s' = (heap s).swapIfInBounds i j := by
  obtain ⟨a, ha⟩ := hv.entry_some hj
  obtain ⟨b, hb⟩ := hv.entry_some hi
  obtain ⟨t, run', -, size, -, -, entries⟩ := Swap_spec hv hi hj ha hb
  rw [run] at run'
  cases run'
  apply Array.ext_getElem?
  intro p
  rw [GoHeap.getElem?_swapIfInBounds (by simpa using hi) (by simpa using hj), getElem?_heap, getElem?_heap,
    getElem?_heap, getElem?_heap, size, entries]
  rcases eq_or_ne p j with rfl | pj
  · -- position `j` receives the item from `i`
    rcases eq_or_ne p i with rfl | pi
    · rw [ha] at hb
      simp [hj, ha, hb]
    · simp [hj, hi, pi, hb]
  · rcases eq_or_ne p i with rfl | pi
    · simp [hi, hj, ha, pj]
    · simp [pi, pj]

theorem heap_push {s s' : Sstack α} (hv : Valid s) {it : Item α} (run : s.Push (some it) = .ok s') :
    heap s' = (heap s).push (some it) := by
  obtain ⟨t, run', -, size, -, -, entries⟩ := Push_spec hv it
  rw [run] at run'
  cases run'
  apply Array.ext_getElem?
  intro p
  rw [Array.getElem?_push, getElem?_heap, getElem?_heap, size, entries, size_heap]
  by_cases ps : p = s.size
  · simp [ps]
  · by_cases lt : p < s.size
    · simp [ps, lt, show p < s.size + 1 by omega]
    · simp [ps, lt, show ¬p < s.size + 1 by omega]

theorem heap_pop {s s' : Sstack α} (hv : Valid s) (nonempty : 0 < s.size) {x : Option (Item α)}
    (run : s.Pop = .ok (s', x)) : heap s' = (heap s).pop ∧ x = entry s.blocks (s.size - 1) := by
  obtain ⟨it, last⟩ := hv.entry_some (show s.size - 1 < s.size by omega)
  obtain ⟨t, run', -, size, -, -, entries⟩ := Pop_spec hv nonempty last
  rw [run] at run'
  cases run'
  refine ⟨?_, last.symm⟩
  apply Array.ext_getElem?
  intro p
  rw [Array.getElem?_pop, getElem?_heap, getElem?_heap, size, entries, size_heap]
  by_cases lt : p < s.size - 1
  · simp [lt, show p < s.size by omega, Function.update_of_ne (show p ≠ s.size - 1 by omega)]
  · simp [lt]

/-- The calls of `container/heap` on a valid `sstack` behave as on its heap
array, a slice of items compared by `before`. -/
theorem refines_arrayHeap :
    GoHeap.Refines (iface : GoHeap.Interface (Sstack α) _ _) (GoHeap.arrayHeap before indexOutOfRange) heap Valid
      fun _ x => x.isSome where
  len _ _ := (size_heap _).symm
  less s i j hv hi hj := by
    change i < s.size at hi
    change j < s.size at hj
    refine ⟨_, Less_eq hv hi hj, ?_⟩
    rw [GoHeap.arrayHeap_less _ _ (by simpa using hi) (by simpa using hj), getElem_heap, getElem_heap]
  swap s i j hv hi hj := by
    change i < s.size at hi
    change j < s.size at hj
    obtain ⟨a, ha⟩ := hv.entry_some hj
    obtain ⟨b, hb⟩ := hv.entry_some hi
    obtain ⟨s', run, hv', size, -⟩ := Swap_spec hv hi hj ha hb
    refine ⟨s', run, hv', size, ?_⟩
    rw [GoHeap.arrayHeap_swap _ _ (by simpa using hi) (by simpa using hj), heap_swap hv hi hj run]
  push s x hv hx := by
    obtain ⟨it, rfl⟩ := Option.isSome_iff_exists.mp hx
    obtain ⟨s', run, hv', size, -⟩ := Push_spec hv it
    exact ⟨s', run, hv', size, by rw [GoHeap.arrayHeap_push, heap_push hv run]⟩
  pop s hv nonempty := by
    change 0 < s.size at nonempty
    obtain ⟨it, last⟩ := hv.entry_some (show s.size - 1 < s.size by omega)
    obtain ⟨s', run, hv', size, -⟩ := Pop_spec hv nonempty last
    refine ⟨s', some it, run, hv', size, ?_⟩
    obtain ⟨popped, -⟩ := heap_pop hv nonempty run
    rw [GoHeap.arrayHeap_pop _ _ (by simpa using nonempty), getElem_heap, size_heap, last, popped]

/-! ## Panics -/

theorem getElem?_of_index {xs : List γ} {n : Nat} {x : γ} (h : index xs n = .ok x) : xs[n]? = some x := by
  unfold index at h
  rw [Int.toNat_natCast] at h
  split at h
  · rw [if_pos (Int.natCast_nonneg n)] at h
    cases h
    assumption
  · cases h

/-- A successful read of `blocks[p / blockSize][p % blockSize]` reads the entry
at `p`. -/
theorem entry_of_index {blocks : List (List (Option (Item α)))} {p : Nat} {block : List (Option (Item α))}
    {x : Option (Item α)} (hb : index blocks (p / blockSize : Nat) = .ok block)
    (ho : index block (p % blockSize : Nat) = .ok x) : entry blocks p = x := by
  simp [entry, getElem?_of_index hb, getElem?_of_index ho]

/-- `Swap(i, -1)` reads `blocks[0][-1]`, out of range. -/
theorem Swap_neg_one (s : Sstack α) (i : Int) (s' : Sstack α) : s.Swap i (-1) ≠ .ok s' := by
  have jb : (-1 : Int).tdiv blockSize = 0 := by decide
  have jo : (-1 : Int).tmod blockSize = -1 := by decide
  unfold Swap
  simp only [jb, jo, Except.bind_eq_bind]
  cases index s.blocks 0 with
  | error e => simp
  | ok block => simp [index_neg block (show (-1 : Int) < 0 by decide)]

/-- `heap.Pop` of an empty stack swaps with index `-1` and panics. -/
theorem pop_empty {s : Sstack α} (empty : s.size = 0) (r : Sstack α × Option (Item α)) :
    GoHeap.pop iface s ≠ .ok r := by
  intro run
  unfold GoHeap.pop at run
  obtain ⟨s1, swap, -⟩ := Except.bind_eq_ok_iff.mp run
  have last : ((iface.Len s : Nat) : Int) - 1 = -1 := by simp [iface, Len, empty]
  rw [last] at swap
  exact Swap_neg_one s 0 s1 swap

/-- With a callback, `Swap` from a position at or past `size` reads the nil
entry there through its pointer, or reads outside the blocks. -/
theorem Swap_past_size {s : Sstack α} (hv : Valid s) (on : s.setIndex = true) {i : Nat} (hi : s.size ≤ i)
    (j : Int) (s' : Sstack α) : s.Swap i j ≠ .ok s' := by
  intro run
  unfold Swap at run
  simp only [← Int.ofNat_tdiv, ← Int.ofNat_tmod, Except.bind_eq_bind] at run
  obtain ⟨block, -, run⟩ := Except.bind_eq_ok_iff.mp run
  obtain ⟨a, -, run⟩ := Except.bind_eq_ok_iff.mp run
  obtain ⟨block', hb, run⟩ := Except.bind_eq_ok_iff.mp run
  obtain ⟨b, ho, run⟩ := Except.bind_eq_ok_iff.mp run
  have nil : b = none := by
    rw [← entry_of_index hb ho]
    exact hv.vacant i hi
  subst nil
  cases a <;> simp [on] at run

/-- With a callback, `heap.Remove` at or past `size` panics. -/
theorem remove_past_size {s : Sstack α} (hv : Valid s) (on : s.setIndex = true) {i : Nat} (hi : s.size ≤ i)
    (r : Sstack α × Option (Item α)) : GoHeap.remove iface s i ≠ .ok r := by
  intro run
  obtain ⟨s2, fix, -⟩ := Except.bind_eq_ok_iff.mp run
  unfold GoHeap.removeFix at fix
  have past : ((iface.Len s : Nat) : Int) - 1 ≠ i := by
    simp only [iface, Len]
    omega
  rw [if_pos past] at fix
  obtain ⟨s1, swap, -⟩ := Except.bind_eq_ok_iff.mp fix
  exact Swap_past_size hv on hi _ s1 swap

theorem logged_of_setIndex {s : Sstack α} (on : s.setIndex = true) (calls : List (α × Int)) :
    s.logged calls = s.reported ++ calls := by
  simp [logged, on]

/-! ## The index callback -/

/-- The stack holds an item with value `v`. -/
def Held (s : Sstack α) (v : α) : Prop := ∃ it, some it ∈ heap s ∧ it.value = v

theorem held_of_entry {s : Sstack α} {p : Nat} (hp : p < s.size) {it : Item α} (hit : entry s.blocks p = some it) :
    Held s it.value :=
  ⟨it, Array.mem_iff_getElem.mpr ⟨p, by simpa using hp, by rw [getElem_heap, hit]⟩, rfl⟩

/-- `Push` of an item whose value the stack does not hold. -/
def Fresh (s : Sstack α) (x : Option (Item α)) : Prop := ∃ it, x = some it ∧ ¬Held s it.value

/-- One more item holds one more value. -/
theorem held_push {s t : Sstack α} {it : Item α} (grown : heap t = (heap s).push (some it)) (v : α) :
    Held t v ↔ Held s v ∨ it.value = v := by
  unfold Held
  rw [grown]
  simp only [Array.mem_push, Option.some_inj]
  constructor
  · rintro ⟨c, held | rfl, rfl⟩
    · exact .inl ⟨c, held, rfl⟩
    · exact .inr rfl
  · rintro (⟨c, held, rfl⟩ | rfl)
    · exact ⟨c, .inl held, rfl⟩
    · exact ⟨it, .inr rfl, rfl⟩

section Callback

variable [DecidableEq α]

/-- The index last reported for `v`, if any. -/
def lastReport (calls : List (α × Int)) (v : α) : Option Int :=
  calls.foldl (fun last c => if c.1 = v then some c.2 else last) none

@[simp] theorem lastReport_append_singleton (calls : List (α × Int)) (a : α) (i : Int) (v : α) :
    lastReport (calls ++ [(a, i)]) v = if a = v then some i else lastReport calls v := by
  simp [lastReport, List.foldl_append]

theorem lastReport_append_pair (calls : List (α × Int)) (a b : α) (i j : Int) (v : α) :
    lastReport (calls ++ [(a, i), (b, j)]) v =
      if b = v then some j else if a = v then some i else lastReport calls v := by
  rw [show calls ++ [(a, i), (b, j)] = calls ++ [(a, i)] ++ [(b, j)] by simp]
  simp only [lastReport_append_singleton]

/-- What the callback has been told, when there is one: every item below
`size` was last reported at its position, and every value the stack does not
hold was last reported gone (`-1`), or never. -/
structure Tracked (s : Sstack α) : Prop where
  setIndex : s.setIndex = true
  current : ∀ p < s.size, ∀ it, entry s.blocks p = some it → lastReport s.reported it.value = some (p : Int)
  gone : ∀ v, ¬Held s v → lastReport s.reported v = none ∨ lastReport s.reported v = some (-1)

theorem newSstack_tracked : Tracked (newSstack true : Sstack α) where
  setIndex := rfl
  current p hp := absurd hp (Nat.not_lt_zero p)
  gone _ _ := .inl rfl

/-- A tracked stack holds each value once. -/
theorem Tracked.injective {s : Sstack α} (ht : Tracked s) {p q : Nat}
    (hp : p < s.size) (hq : q < s.size) {a b : Item α} (ha : entry s.blocks p = some a)
    (hb : entry s.blocks q = some b) (same : a.value = b.value) : p = q := by
  have at_p := ht.current p hp a ha
  have at_q := ht.current q hq b hb
  rw [same, at_q] at at_p
  exact_mod_cast (Option.some_inj.mp at_p).symm

theorem Tracked.swap {s s' : Sstack α} (hv : Valid s) (ht : Tracked s) {i j : Nat} (hi : i < s.size)
    (hj : j < s.size) (run : s.Swap i j = .ok s') : Tracked s' := by
  obtain ⟨a, ha⟩ := hv.entry_some hj
  obtain ⟨b, hb⟩ := hv.entry_some hi
  obtain ⟨t, run', -, size, set, reported, entries⟩ := Swap_spec hv hi hj ha hb
  rw [run] at run'
  cases run'
  have held : ∀ v, Held s' v ↔ Held s v := fun v => by
    unfold Held
    rw [heap_swap hv hi hj run]
    have perm := @GoHeap.perm_swapIfInBounds _ (heap s) i j (by simpa using hi) (by simpa using hj)
    simp only [perm.mem_iff]
  have on := ht.setIndex
  refine ⟨set.trans on, ?_, ?_⟩
  · intro p hp it hit
    rw [size] at hp
    rw [reported, logged_of_setIndex on, lastReport_append_pair]
    rw [entries, Function.update_apply, Function.update_apply] at hit
    split at hit
    · -- position `j` holds the item from `i`
      cases hit
      simp [‹p = j›]
    · split at hit
      · -- position `i` holds the item from `j`, whose value differs from the one at `i`
        cases hit
        have apart : b.value ≠ a.value := fun same =>
          ‹¬p = j› (‹p = i› ▸ ht.injective hi hj hb ha same)
        simp [apart, ‹p = i›]
      · -- any other item has a value of its own
        have not_b : b.value ≠ it.value := fun same => ‹¬p = i› (ht.injective hp hi hit hb same.symm)
        have not_a : a.value ≠ it.value := fun same => ‹¬p = j› (ht.injective hp hj hit ha same.symm)
        simp [not_a, not_b, ht.current p hp it hit]
  · intro v absent
    have not_b : b.value ≠ v := fun same => absent ((held v).mpr (same ▸ held_of_entry hi hb))
    have not_a : a.value ≠ v := fun same => absent ((held v).mpr (same ▸ held_of_entry hj ha))
    rw [reported, logged_of_setIndex on, lastReport_append_pair, if_neg not_b, if_neg not_a]
    exact ht.gone v (fun h => absent ((held v).mpr h))

theorem Tracked.push {s s' : Sstack α} (hv : Valid s) (ht : Tracked s) {it : Item α} (fresh : ¬Held s it.value)
    (run : s.Push (some it) = .ok s') : Tracked s' := by
  obtain ⟨t, run', -, size, set, reported, entries⟩ := Push_spec hv it
  rw [run] at run'
  cases run'
  have held := held_push (heap_push hv run)
  have on := ht.setIndex
  refine ⟨set.trans on, ?_, ?_⟩
  · intro p hp c hc
    rw [reported, logged_of_setIndex on, lastReport_append_singleton]
    rw [entries, Function.update_apply] at hc
    split at hc
    · -- the new item, reported at `size`
      cases hc
      simp [‹p = s.size›]
    · have inside : p < s.size := by omega
      have apart : it.value ≠ c.value := fun same => fresh (same ▸ held_of_entry inside hc)
      simp [apart, ht.current p inside c hc]
  · intro v absent
    have apart : it.value ≠ v := fun same => absent ((held v).mpr (.inr same))
    rw [reported, logged_of_setIndex on, lastReport_append_singleton, if_neg apart]
    exact ht.gone v (fun h => absent ((held v).mpr (.inl h)))

theorem Tracked.pop {s s' : Sstack α} (hv : Valid s) (ht : Tracked s) (nonempty : 0 < s.size)
    {x : Option (Item α)} (run : s.Pop = .ok (s', x)) : Tracked s' := by
  obtain ⟨it, last⟩ := hv.entry_some (show s.size - 1 < s.size by omega)
  obtain ⟨t, run', -, size, set, reported, entries⟩ := Pop_spec hv nonempty last
  rw [run] at run'
  cases run'
  have held : ∀ v, Held s v ↔ Held s' v ∨ it.value = v := by
    have whole := @GoHeap.push_pop_getElem _ (heap s) (by simpa using nonempty)
    rw [getElem_heap, size_heap, last, ← (heap_pop hv nonempty run).1] at whole
    exact held_push whole.symm
  have on := ht.setIndex
  refine ⟨set.trans on, ?_, ?_⟩
  · intro p hp c hc
    rw [size] at hp
    rw [entries, Function.update_of_ne (by omega)] at hc
    -- the popped item is the only one with its value
    have apart : it.value ≠ c.value := fun same =>
      absurd (ht.injective (by omega) (by omega) last hc same) (by omega)
    rw [reported, logged_of_setIndex on, lastReport_append_singleton, if_neg apart]
    exact ht.current p (by omega) c hc
  · intro v absent
    rw [reported, logged_of_setIndex on, lastReport_append_singleton]
    split
    · exact .inr rfl
    · exact ht.gone v fun h => absent (((held v).mp h).resolve_right ‹_›)

/-- The index reports stay accurate through the calls of `container/heap`,
with `Push` of values the stack does not hold. -/
theorem tracked_preserves : GoHeap.Preserves (iface : GoHeap.Interface (Sstack α) _ _) Valid Tracked Fresh where
  swap _ _ _ _ hv ht hi hj run := ht.swap hv hi hj run
  push _ _ _ hv ht fresh run := by
    obtain ⟨it, rfl, fresh⟩ := fresh
    exact ht.push hv fresh run
  pop _ _ _ hv ht nonempty run := ht.pop hv nonempty run

end Callback

end Sstack

end FiscoBcos.Prque
