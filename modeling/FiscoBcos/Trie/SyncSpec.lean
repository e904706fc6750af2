import FiscoBcos.Trie.Sync
import FiscoBcos.Lib.RefCount
import FiscoBcos.Lib.Except
import Mathlib

/-!
# The bookkeeping of the trie sync

`Sync.Books s owed`: the pending requests are keyed by their hashes, name
pending trie requests as parents, have not been written, and each counts in
`deps` the references the pending requests make to it, plus the count-downs
`owed` that `commit` still has to make. The memory batch writes each hash
once, in `order`.

Each change of the map comes with its change of the counts: `link` counts one
more dependency and then adds the reference, `settle` counts the children
and then schedules them, and `commit` drops a request whose count is zero and
then counts down each of its parents (`commit_books`, by induction on the
fuel, with the loop over the parents inside; it never runs out of fuel).

`Sync.WF` is `Books s []` with a valid queue. `Reachable` is the run relation
of the public operations, a parent named to `AddSubTrie` or `AddRawEntry`
being none or a pending trie request, as the leaf callback's always is; every
reachable state has the invariant (`Reachable.wf`), every operation from it
returns without a panic (`Reachable.never_panics`), and no written hash is a parent of
a pending request (`Reachable.children_first`). `Commit` into a memory
database writes the memory batch (`Commit_memorydb`). A parent that is
pending but has no data yet is the case the precondition lets through and
the callback never makes: a raw entry under it commits it with no data
(`NewSync_AddRawEntry_root`).
-/

namespace FiscoBcos.Trie

namespace Sync

/-- The references to `h` among the parents of the pending requests. -/
def refs (s : Sync) (h : List UInt8) : Nat := RefCount.refs Request.parents s.requests h

/-- `h` is a pending request for a trie node: a parent a request may name. -/
def PendingNode (s : Sync) (h : List UInt8) : Prop := ∃ r, s.requests.lookup h = some r ∧ r.raw = false

/-- The bookkeeping of the pending requests, with the count-downs `owed`
still to make. -/
structure Books (s : Sync) (owed : List (List UInt8)) : Prop where
  hash_eq : ∀ {h r}, s.requests.lookup h = some r → r.hash = h
  parents_pending : ∀ {h r}, s.requests.lookup h = some r → ∀ p ∈ r.parents, s.PendingNode p
  owed_pending : ∀ p ∈ owed, s.PendingNode p
  deps_eq : ∀ {h r}, s.requests.lookup h = some r → r.deps = s.refs h + owed.count h
  unwritten : ∀ {h r}, s.requests.lookup h = some r → s.membatch.batch.lookup h = none
  order_nodup : s.membatch.order.Nodup
  mem_order : ∀ h, h ∈ s.membatch.order ↔ (s.membatch.batch.lookup h).isSome

/-- The invariant between operations: the books owe no count-down, and the
queue's stack is valid. -/
structure WF (s : Sync) : Prop where
  books : Books s []
  queue : s.queue.cont.Valid

variable {s : Sync} {owed : List (List UInt8)}

theorem PendingNode.pending {h : List UInt8} (node : s.PendingNode h) : (s.requests.lookup h).isSome := by
  obtain ⟨r, look, -⟩ := node
  simp [look]

/-- A hash that is not pending is named by no pending request and owes
nothing. -/
theorem Books.unnamed (books : Books s owed) {h : List UInt8} (absent : s.requests.lookup h = none) :
    s.refs h = 0 ∧ owed.count h = 0 := by
  constructor
  · by_contra named
    obtain ⟨k, r, look, mem⟩ := Iff.mp RefCount.refs_pos_iff (Nat.pos_of_ne_zero named)
    have pending := (books.parents_pending look h mem).pending
    simp [absent] at pending
  · rw [List.count_eq_zero]
    intro mem
    have pending := (books.owed_pending h mem).pending
    simp [absent] at pending

/-- A request with no dependency left is named by no pending request and
owes nothing. -/
theorem Books.unnamed_of_deps {h : List UInt8} {r : Request} (books : Books s owed) (look : s.requests.lookup h = some r)
    (zero : r.deps = 0) : s.refs h = 0 ∧ owed.count h = 0 := by
  have deps := books.deps_eq look
  omega

theorem pendingNode_congr {s' : Sync} (requests : s'.requests = s.requests) {p : List UInt8} :
    s'.PendingNode p ↔ s.PendingNode p := by
  simp only [PendingNode, requests]

theorem refs_congr {s' : Sync} (requests : s'.requests = s.requests) (h : List UInt8) : s'.refs h = s.refs h := by
  simp only [refs, requests]

/-- The books read only the pending requests and the memory batch. -/
theorem Books.of_eq {s' : Sync} (books : Books s owed) (requests : s'.requests = s.requests)
    (membatch : s'.membatch = s.membatch) : Books s' owed := by
  refine ⟨?_, ?_, ?_, ?_, ?_, ?_, ?_⟩ <;>
    simp only [requests, membatch, pendingNode_congr requests, refs_congr requests]
  exacts [books.hash_eq, books.parents_pending, books.owed_pending, books.deps_eq, books.unwritten,
    books.order_nodup, books.mem_order]

/-- A raw entry is a parent of no pending request: its count is what is owed
to it. -/
theorem Books.deps_raw {h : List UInt8} {r : Request} (books : Books s owed) (look : s.requests.lookup h = some r)
    (raw : r.raw = true) : r.deps = owed.count h := by
  have unnamed : s.refs h = 0 := by
    by_contra named
    obtain ⟨k, q, lq, mem⟩ := Iff.mp RefCount.refs_pos_iff (Nat.pos_of_ne_zero named)
    obtain ⟨r', look', raw'⟩ := books.parents_pending lq h mem
    rw [look, Option.some_inj] at look'
    subst look'
    simp [raw] at raw'
  rw [books.deps_eq look]
  simp [refs] at unnamed ⊢
  omega

/-! ## The changes of the map -/

section Replace

variable {h : List UInt8} {r r' : Request} (look : s.requests.lookup h = some r)
include look

theorem lookup_replace_eq (k : List UInt8) :
    (s.requests.replace h r').lookup k = if k = h then some r' else s.requests.lookup k := by
  have mem : h ∈ s.requests := AList.lookup_isSome.mp (by simp [look])
  rw [Lib.lookup_replace]
  by_cases hk : k = h <;> simp [hk, mem]

theorem pendingNode_replace (raw : r'.raw = r.raw) {p : List UInt8} (node : s.PendingNode p) :
    PendingNode { s with requests := s.requests.replace h r' } p := by
  obtain ⟨q, lq, rq⟩ := node
  rcases eq_or_ne p h with rfl | hp
  · obtain rfl : q = r := Option.some_inj.mp (lq.symm.trans look)
    exact ⟨r', by simp [lookup_replace_eq look], raw.trans rq⟩
  · exact ⟨q, by simp [lookup_replace_eq look, hp, lq], rq⟩

/-- The request put in place is found under its own hash. -/
theorem lookup_replace_self (hash : r'.hash = h) :
    ({ s with requests := s.requests.replace h r' } : Sync).requests.lookup r'.hash = some r' := by
  rw [hash]
  simp [lookup_replace_eq look]

/-- Replacing the pending request at `h` by one of the same hash and kind:
the books hold with the count-downs `owed'` when the references and the
count-downs balance away from `h`, and at `h` the count moves with them. -/
theorem Books.replace (books : Books s owed) (hash : r'.hash = h) (raw : r'.raw = r.raw)
    (parents : ∀ p ∈ r'.parents, s.PendingNode p) {owed' : List (List UInt8)}
    (owedPending : ∀ p ∈ owed', s.PendingNode p)
    (balance : ∀ a, a ≠ h → r.parents.count a + owed.count a = r'.parents.count a + owed'.count a)
    (deps : r'.deps + (r.parents.count h + owed.count h : Nat) = r.deps + (r'.parents.count h + owed'.count h : Nat)) :
    Books { s with requests := s.requests.replace h r' } owed' where
  hash_eq {k q} lq := by
    rw [lookup_replace_eq look] at lq
    split_ifs at lq with hk
    · cases lq
      exact hash.trans hk.symm
    · exact books.hash_eq lq
  parents_pending {k q} lq p mem := by
    rw [lookup_replace_eq look] at lq
    split_ifs at lq with hk
    · cases lq
      exact pendingNode_replace look raw (parents p mem)
    · exact pendingNode_replace look raw (books.parents_pending lq p mem)
  owed_pending p mem := pendingNode_replace look raw (owedPending p mem)
  deps_eq {k q} lq := by
    have counts : RefCount.refs Request.parents (s.requests.replace h r') k + r.parents.count k =
        RefCount.refs Request.parents s.requests k + r'.parents.count k := RefCount.refs_replace look r' k
    simp only [refs] at books ⊢
    rw [lookup_replace_eq look] at lq
    split_ifs at lq with hk
    · cases lq
      subst hk
      have old := books.deps_eq look
      simp only [refs] at old
      omega
    · have old := books.deps_eq lq
      have bal := balance k hk
      simp only [refs] at old
      omega
  unwritten {k q} lq := by
    rw [lookup_replace_eq look] at lq
    split_ifs at lq with hk
    · subst hk
      exact books.unwritten look
    · exact books.unwritten lq
  order_nodup := books.order_nodup
  mem_order := books.mem_order

end Replace

/-- A new request, none of whose parents names it: the books take its
parents' references for count-downs owed. -/
theorem Books.insert {req : Request} (books : Books s (req.parents ++ owed))
    (absent : s.requests.lookup req.hash = none) (parents : ∀ p ∈ req.parents, s.PendingNode p)
    (zero : req.deps = 0) (fresh : s.membatch.batch.lookup req.hash = none) :
    Books { s with requests := s.requests.insert req.hash req } owed := by
  obtain ⟨named, owes⟩ := books.unnamed absent
  have notMem : req.hash ∉ s.requests := AList.lookup_eq_none.mp absent
  have lookup_eq (k : List UInt8) :
      (s.requests.insert req.hash req).lookup k = if k = req.hash then some req else s.requests.lookup k :=
    Lib.lookup_insert _ _ _ _
  -- a pending parent is not the new hash, and stays pending
  have keep {p : List UInt8} (node : s.PendingNode p) : PendingNode { s with requests := s.requests.insert req.hash req } p := by
    obtain ⟨q, lq, rq⟩ := node
    have ne : p ≠ req.hash := by
      rintro rfl
      simp [absent] at lq
    exact ⟨q, by simp [lookup_eq, ne, lq], rq⟩
  refine ⟨?_, ?_, ?_, ?_, ?_, books.order_nodup, books.mem_order⟩
  · intro k q lq
    rw [lookup_eq] at lq
    split_ifs at lq with hk
    · cases lq
      exact hk.symm
    · exact books.hash_eq lq
  · intro k q lq p mem
    rw [lookup_eq] at lq
    split_ifs at lq with hk
    · cases lq
      exact keep (parents p mem)
    · exact keep (books.parents_pending lq p mem)
  · exact fun p mem => keep (books.owed_pending p (List.mem_append_right _ mem))
  · intro k q lq
    have counts : RefCount.refs Request.parents (s.requests.insert req.hash req) k =
        req.parents.count k + RefCount.refs Request.parents s.requests k := RefCount.refs_insert notMem k
    simp only [refs] at books ⊢ named
    rw [lookup_eq] at lq
    rw [List.count_append] at owes
    split_ifs at lq with hk
    · cases lq
      subst hk
      rw [counts, zero]
      omega
    · have old := books.deps_eq lq
      simp only [refs, List.count_append] at old
      omega
  · intro k q lq
    rw [lookup_eq] at lq
    split_ifs at lq with hk
    · exact hk ▸ fresh
    · exact books.unwritten lq

/-! ## `commit` -/

@[simp] theorem writeReq_lookup (req : Request) (k : List UInt8) :
    (s.writeReq req).requests.lookup k = if k = req.hash then none else s.requests.lookup k :=
  Lib.lookup_erase _ _ _

@[simp] theorem writeReq_order (req : Request) :
    (s.writeReq req).membatch.order = s.membatch.order ++ [req.hash] := rfl

@[simp] theorem writeReq_batch_lookup (req : Request) (k : List UInt8) :
    (s.writeReq req).membatch.batch.lookup k = if k = req.hash then some (req.data.getD []) else s.membatch.batch.lookup k :=
  Lib.lookup_insert _ _ _ _

/-- The write of `commit`, for a request no pending request names and none
owes: the books owe instead the count-downs of its parents. -/
theorem Books.writeReq {req r : Request} (books : Books s owed) (look : s.requests.lookup req.hash = some r)
    (same : r.parents = req.parents) (zero : r.deps = 0) : Books (s.writeReq req) (req.parents ++ owed) := by
  obtain ⟨named, owes⟩ := books.unnamed_of_deps look zero
  -- a pending parent is not the request written, and stays pending
  have keep {p : List UInt8} (node : s.PendingNode p) (ne : p ≠ req.hash) : PendingNode (s.writeReq req) p := by
    obtain ⟨q, lq, rq⟩ := node
    exact ⟨q, by simp [ne, lq], rq⟩
  have unnamed {k q p} (lq : s.requests.lookup k = some q) (mem : p ∈ q.parents) : p ≠ req.hash := by
    intro eq
    have pos : 0 < s.refs req.hash := Iff.mpr RefCount.refs_pos_iff ⟨k, q, lq, eq ▸ mem⟩
    omega
  have unwritten : s.membatch.batch.lookup req.hash = none := books.unwritten look
  refine ⟨?_, ?_, ?_, ?_, ?_, ?_, ?_⟩
  · intro k q lq
    simp only [writeReq_lookup] at lq
    split_ifs at lq
    exact books.hash_eq lq
  · intro k q lq p mem
    simp only [writeReq_lookup] at lq
    split_ifs at lq
    exact keep (books.parents_pending lq p mem) (unnamed lq mem)
  · intro p mem
    rcases List.mem_append.mp mem with parent | owing
    · rw [← same] at parent
      exact keep (books.parents_pending look p parent) (unnamed look parent)
    · have ne : p ≠ req.hash := by
        rintro rfl
        exact absurd owes (List.count_pos_iff.mpr owing).ne'
      exact keep (books.owed_pending p owing) ne
  · intro k q lq
    simp only [writeReq_lookup] at lq
    split_ifs at lq
    have counts : RefCount.refs Request.parents (s.writeReq req).requests k + r.parents.count k =
        RefCount.refs Request.parents s.requests k := RefCount.refs_erase look k
    have old := books.deps_eq lq
    simp only [refs, List.count_append, ← same] at old ⊢
    omega
  · intro k q lq
    simp only [writeReq_lookup] at lq
    split_ifs at lq with hk
    simpa [hk] using books.unwritten lq
  · have fresh : req.hash ∉ s.membatch.order := by simp [books.mem_order, unwritten]
    exact books.order_nodup.append (List.nodup_singleton _) (by simpa using fresh)
  · intro k
    rcases eq_or_ne k req.hash with rfl | hk
    · simp
    · simp [hk, books.mem_order]

/-- The turn of the loop of `commit` for `parent`, which the books owe: its
count goes down by the count-down owed. -/
theorem Books.countDown {p : List UInt8} {q : Request} (books : Books s (p :: owed))
    (look : s.requests.lookup p = some q) :
    Books { s with requests := s.requests.replace p { q with deps := q.deps - 1 } } owed := by
  have hash : ({ q with deps := q.deps - 1 } : Request).hash = p := (books.hash_eq look : q.hash = p)
  refine books.replace look hash rfl (books.parents_pending look : ∀ a ∈ q.parents, s.PendingNode a)
    (fun a mem => books.owed_pending a (List.mem_cons_of_mem _ mem)) (fun a ne => ?_) ?_
  · simp [Ne.symm ne]
  · simp only [List.count_cons_self]
    push_cast
    ring

/-- What committing keeps: the queue, the order and the data written so far,
and every hash that is not pending stays so. -/
structure Keeps (s s' : Sync) : Prop where
  queue : s'.queue = s.queue
  order : s.membatch.order <+: s'.membatch.order
  written : ∀ {k}, (s.membatch.batch.lookup k).isSome → s'.membatch.batch.lookup k = s.membatch.batch.lookup k
  gone : ∀ {k}, s.requests.lookup k = none → s'.requests.lookup k = none

theorem Keeps.refl (s : Sync) : Keeps s s := ⟨rfl, List.prefix_refl _, fun _ => rfl, id⟩

theorem Keeps.trans {s₁ s₂ s₃ : Sync} (k₁ : Keeps s₁ s₂) (k₂ : Keeps s₂ s₃) : Keeps s₁ s₃ where
  queue := k₂.queue.trans k₁.queue
  order := k₁.order.trans k₂.order
  written w := (k₂.written (by rwa [k₁.written w])).trans (k₁.written w)
  gone absent := k₂.gone (k₁.gone absent)

theorem keeps_replace {h : List UInt8} {r r' : Request} (look : s.requests.lookup h = some r) :
    Keeps s { s with requests := s.requests.replace h r' } := by
  refine ⟨rfl, List.prefix_refl _, fun _ => rfl, fun {k} absent => ?_⟩
  have ne : k ≠ h := by
    rintro rfl
    simp [look] at absent
  simpa [lookup_replace_eq look, ne] using absent

theorem keeps_writeReq {req : Request} (unwritten : s.membatch.batch.lookup req.hash = none) :
    Keeps s (s.writeReq req) := by
  refine ⟨rfl, List.prefix_append _ _, fun {k} known => ?_, fun {k} absent => by simp [absent]⟩
  have ne : k ≠ req.hash := by
    rintro rfl
    simp [unwritten] at known
  simp [ne]

/-- What a commit does for states of at most `n` pending requests: it commits
a request no pending request names, writing its data and dropping it, keeps
the books and what `Keeps` says, and leaves fewer requests pending. -/
def CommitsWell (recur : Sync → Request → Except String Sync) (n : Nat) : Prop :=
  ∀ {s owed} {req r : Request}, Books s owed → s.requests.lookup req.hash = some r → r.parents = req.parents →
    r.deps = 0 → s.requests.entries.length ≤ n →
      ∃ s', recur s req = .ok s' ∧ Books s' owed ∧ Keeps s s' ∧
        s'.membatch.batch.lookup req.hash = some (req.data.getD []) ∧ s'.requests.lookup req.hash = none ∧
        s'.requests.entries.length < s.requests.entries.length

/-- The loop of `commit` over the parents, with a commit that does its job for
the parents that reach zero: the count-downs owed are made. -/
theorem foldlM_countDown_books {recur : Sync → Request → Except String Sync} {n : Nat} (well : CommitsWell recur n) :
    ∀ (ps : List (List UInt8)) {s : Sync}, Books s (ps ++ owed) → s.requests.entries.length ≤ n →
      ∃ s', ps.foldlM (countDown recur) s = .ok s' ∧ Books s' owed ∧ Keeps s s' ∧
        s'.requests.entries.length ≤ s.requests.entries.length
  | [], s, books, _ => ⟨s, rfl, books, Keeps.refl s, le_refl _⟩
  | p :: ps, s, books, size => by
    obtain ⟨q, look, -⟩ := books.owed_pending p List.mem_cons_self
    have down := books.countDown look
    have keeps : Keeps s { s with requests := s.requests.replace p { q with deps := q.deps - 1 } } :=
      keeps_replace look
    have length : ({ s with requests := s.requests.replace p { q with deps := q.deps - 1 } } : Sync).requests.entries.length =
        s.requests.entries.length := RefCount.length_replace look _
    have turn : countDown recur s p = if q.deps - 1 = 0 then
        recur { s with requests := s.requests.replace p { q with deps := q.deps - 1 } } { q with deps := q.deps - 1 }
        else .ok { s with requests := s.requests.replace p { q with deps := q.deps - 1 } } := by
      simp [countDown, look]
    rw [List.foldlM_cons, turn]
    split_ifs with zero
    · -- the parent reached zero: it is committed, then the loop goes on
      have hash : ({ q with deps := q.deps - 1 } : Request).hash = p := (books.hash_eq look : q.hash = p)
      obtain ⟨s₁, run, books₁, keeps₁, -, -, smaller⟩ := well down (lookup_replace_self look hash) rfl zero (by omega)
      obtain ⟨s₂, loop, books₂, keeps₂, smaller₂⟩ := foldlM_countDown_books well ps books₁ (by omega)
      exact ⟨s₂, by simp [run, loop], books₂, keeps.trans (keeps₁.trans keeps₂), by omega⟩
    · obtain ⟨s₂, loop, books₂, keeps₂, smaller₂⟩ := foldlM_countDown_books well ps down (by omega)
      exact ⟨s₂, by simp [loop], books₂, keeps.trans keeps₂, by omega⟩

/-- `commit` on enough fuel does its job. -/
theorem commit_books : ∀ fuel, CommitsWell (commit fuel) fuel
  | 0, s, _, req, r, _, look, _, _, size => by
    have pos : 0 < s.requests.entries.length := by
      have := RefCount.length_erase look
      omega
    omega
  | fuel + 1, s, owed, req, r, books, look, same, zero, size => by
    have written := books.writeReq look same zero
    have keeps : Keeps s (s.writeReq req) := keeps_writeReq (books.unwritten look)
    have length : (s.writeReq req).requests.entries.length + 1 = s.requests.entries.length :=
      RefCount.length_erase look
    obtain ⟨s', loop, books', keeps', smaller⟩ :=
      foldlM_countDown_books (commit_books fuel) req.parents written (by omega)
    -- the data written first stays written
    have data : s'.membatch.batch.lookup req.hash = some (req.data.getD []) := by
      rw [keeps'.written (by simp)]
      simp
    exact ⟨s', loop, books', keeps.trans keeps', data, keeps'.gone (by simp), by omega⟩

/-- `commitReq` of a request no pending request names: it returns, writes the
request's data, keeps the books and what `Keeps` says, and leaves fewer
requests pending. -/
theorem commitReq_books {req r : Request} (books : Books s owed) (look : s.requests.lookup req.hash = some r)
    (same : r.parents = req.parents) (zero : r.deps = 0) :
    ∃ s', s.commitReq req = .ok s' ∧ Books s' owed ∧ Keeps s s' ∧
      s'.membatch.batch.lookup req.hash = some (req.data.getD []) ∧ s'.requests.lookup req.hash = none ∧
      s'.Pending < s.Pending :=
  commit_books _ books look same zero (le_refl _)

/-- A commit of the last request below `p` commits `p` too, with the data
`p` holds. -/
theorem commitReq_last_child {req r q : Request} {p : List UInt8} (books : Books s [])
    (look : s.requests.lookup req.hash = some r) (same : r.parents = req.parents) (only : req.parents = [p])
    (zero : r.deps = 0) (parent : s.requests.lookup p = some q) (last : q.deps = 1) :
    ∃ s', s.commitReq req = .ok s' ∧ Books s' [] ∧ Keeps s s' ∧
      s'.membatch.batch.lookup p = some (q.data.getD []) ∧ s'.requests.lookup p = none := by
  have size : s.requests.entries.length = (s.requests.erase req.hash).entries.length + 1 :=
    (RefCount.length_erase look).symm
  have ne : p ≠ req.hash := by
    intro eq
    have pos : 0 < s.refs req.hash := Iff.mpr RefCount.refs_pos_iff ⟨req.hash, r, look, by simp [same, only, eq]⟩
    have := (books.unnamed_of_deps look zero).1
    omega
  -- the write owes the count-down of `p`, which takes it to zero
  have written : Books (s.writeReq req) [p] := by simpa [only] using books.writeReq look same zero
  have found : (s.writeReq req).requests.lookup p = some q := by simp [ne, parent]
  have down := written.countDown found
  have named : q.hash = p := books.hash_eq parent
  have hash : ({ q with deps := q.deps - 1 } : Request).hash = p := named
  have length : ({ s.writeReq req with requests := (s.writeReq req).requests.replace p { q with deps := q.deps - 1 } } :
      Sync).requests.entries.length = (s.requests.erase req.hash).entries.length := RefCount.length_replace found _
  obtain ⟨s', run, books', keeps', data, gone, -⟩ := commit_books _ down (lookup_replace_self found hash) rfl (by simp [last]) length.le
  refine ⟨s', ?_, books', (keeps_writeReq (books.unwritten look)).trans ((keeps_replace found).trans keeps'),
    by rw [← hash]; exact data, by rw [← hash]; exact gone⟩
  simp only [last, sub_self] at run
  rw [commitReq, size]
  simp [commit, only, countDown, found, last, run]

/-! ## Scheduling -/

/-- What scheduling and the leaf callback's registrations keep: the memory
batch, and every pending trie request. -/
structure Grows (s s' : Sync) : Prop where
  membatch : s'.membatch = s.membatch
  pending : ∀ {p}, s.PendingNode p → s'.PendingNode p

theorem Grows.refl (s : Sync) : Grows s s := ⟨rfl, id⟩

theorem Grows.trans {s₁ s₂ s₃ : Sync} (g₁ : Grows s₁ s₂) (g₂ : Grows s₂ s₃) : Grows s₁ s₃ :=
  ⟨g₂.membatch.trans g₁.membatch, fun node => g₂.pending (g₁.pending node)⟩

theorem grows_replace {h : List UInt8} {r r' : Request} (look : s.requests.lookup h = some r) (raw : r'.raw = r.raw) :
    Grows s { s with requests := s.requests.replace h r' } :=
  ⟨rfl, pendingNode_replace look raw⟩

/-- `n` more dependencies counted on the pending trie request `p` are owed as
count-downs. -/
theorem Books.addDeps {p : List UInt8} {q : Request} (books : Books s owed) (look : s.requests.lookup p = some q)
    (node : q.raw = false) (n : Nat) :
    Books { s with requests := s.requests.replace p { q with deps := q.deps + n } } (List.replicate n p ++ owed) := by
  have hash : ({ q with deps := q.deps + n } : Request).hash = p := (books.hash_eq look : q.hash = p)
  refine books.replace look hash rfl (books.parents_pending look : ∀ a ∈ q.parents, s.PendingNode a) ?_ ?_ ?_
  · intro a mem
    rcases List.mem_append.mp mem with fresh | old
    · rw [List.eq_of_mem_replicate fresh]
      exact ⟨q, look, node⟩
    · exact books.owed_pending a old
  · intro a ne
    simp [List.count_replicate, Ne.symm ne]
  · simp only [List.count_append, List.count_replicate_self]
    push_cast
    ring

/-- `schedule` of a request whose parents are pending trie requests, owed as
count-downs: a new hash is queued and becomes pending; a pending one takes the
parents. -/
theorem schedule_books {req : Request} (books : Books s (req.parents ++ owed)) (queue : s.queue.cont.Valid)
    (parents : ∀ p ∈ req.parents, s.PendingNode p) (zero : req.deps = 0)
    (fresh : s.membatch.batch.lookup req.hash = none) :
    ∃ s', s.schedule req = .ok s' ∧ Books s' owed ∧ s'.queue.cont.Valid ∧ Grows s s' := by
  cases look : s.requests.lookup req.hash with
  | some old =>
    have hash : ({ old with parents := old.parents ++ req.parents } : Request).hash = req.hash :=
      (books.hash_eq look : old.hash = req.hash)
    refine ⟨{ s with requests := s.requests.replace req.hash { old with parents := old.parents ++ req.parents } },
      by simp [schedule, look], ?_, queue, grows_replace look rfl⟩
    refine books.replace look hash rfl (fun p mem => ?_) (fun p mem => books.owed_pending p (List.mem_append_right _ mem))
      (fun a _ => by simp [List.count_append]; omega) (by simp [List.count_append]; omega)
    rcases List.mem_append.mp mem with before | added
    · exact books.parents_pending look p before
    · exact parents p added
  | none =>
    obtain ⟨queue', push, valid, -⟩ := Prque.Push_valid queue req.hash (Int64.ofInt req.depth)
    have inserted := books.insert look parents zero fresh
    refine ⟨{ s with queue := queue', requests := s.requests.insert req.hash req }, by simp [schedule, look, push],
      inserted.of_eq rfl rfl, valid, rfl, fun {p} node => ?_⟩
    obtain ⟨q, lq, rq⟩ := node
    have ne : p ≠ req.hash := by
      rintro rfl
      simp [look] at lq
    exact ⟨q, by simp [ne, lq], rq⟩

/-- `link` of a new request with no parents: under no parent it is
scheduled, under a pending trie request the parent counts it and it names the
parent. -/
theorem link_wf {req : Request} {parent : List UInt8} (wf : WF s) (what : String) (orphan : req.parents = [])
    (zero : req.deps = 0) (fresh : s.membatch.batch.lookup req.hash = none)
    (node : parent = zeroHash ∨ s.PendingNode parent) :
    ∃ s', s.link what req parent = .ok s' ∧ WF s' ∧ Grows s s' := by
  by_cases root : parent = zeroHash
  · have books : Books s (req.parents ++ []) := by simpa [orphan] using wf.books
    obtain ⟨s', run, books', queue, grows⟩ := schedule_books books wf.queue (by simp [orphan]) zero fresh
    exact ⟨s', by simp [link, root, run], ⟨books', queue⟩, grows⟩
  · obtain ⟨q, look, raw⟩ := node.resolve_left root
    have counted : Books { s with requests := s.requests.replace parent { q with deps := q.deps + 1 } }
        (({ req with parents := req.parents ++ [parent] } : Request).parents ++ []) := by
      simpa [orphan] using wf.books.addDeps look raw 1
    have grows : Grows s { s with requests := s.requests.replace parent { q with deps := q.deps + 1 } } :=
      grows_replace look rfl
    obtain ⟨s', run, books', queue, grows'⟩ := schedule_books counted wf.queue
      (by simpa [orphan] using grows.pending ⟨q, look, raw⟩) zero (by simpa [grows.membatch] using fresh)
    exact ⟨s', by simp [link, root, look, run], ⟨books', queue⟩, grows.trans grows'⟩

/-- `AddSubTrie` under no parent or a pending trie request. -/
theorem AddSubTrie_wf (wf : WF s) (root : List UInt8) (depth : Int) {parent : List UInt8}
    (callback : Option LeafCallback) (node : parent = zeroHash ∨ s.PendingNode parent) :
    ∃ s', s.AddSubTrie root depth parent callback = .ok s' ∧ WF s' ∧ Grows s s' := by
  unfold AddSubTrie
  split_ifs with empty known found
  · exact ⟨s, rfl, wf, Grows.refl s⟩
  · exact ⟨s, rfl, wf, Grows.refl s⟩
  · exact ⟨s, rfl, wf, Grows.refl s⟩
  · exact link_wf wf _ rfl rfl (by simpa using known) node

/-- `AddRawEntry` under no parent or a pending trie request. -/
theorem AddRawEntry_wf (wf : WF s) (hash : List UInt8) (depth : Int) {parent : List UInt8}
    (node : parent = zeroHash ∨ s.PendingNode parent) :
    ∃ s', s.AddRawEntry hash depth parent = .ok s' ∧ WF s' ∧ Grows s s' := by
  unfold AddRawEntry
  split_ifs with empty known found
  · exact ⟨s, rfl, wf, Grows.refl s⟩
  · exact ⟨s, rfl, wf, Grows.refl s⟩
  · exact ⟨s, rfl, wf, Grows.refl s⟩
  · exact link_wf wf _ rfl rfl (by simpa using known) node

theorem register_wf (wf : WF s) {parent : List UInt8} (node : s.PendingNode parent) (r : Registration) :
    ∃ s', s.register parent r = .ok s' ∧ WF s' ∧ Grows s s' := by
  cases r with
  | subTrie root depth => exact AddSubTrie_wf wf root depth none (.inr node)
  | rawEntry hash depth => exact AddRawEntry_wf wf hash depth (.inr node)

/-- The leaf callback of a pending trie request registers below it. -/
theorem notify_wf (wf : WF s) {req : Request} (node : s.PendingNode req.hash) (child : Node (List Nibble)) :
    ∃ s' err, s.notify req child = .ok (s', err) ∧ WF s' ∧ Grows s s' := by
  unfold notify
  split
  · split
    · exact ⟨s, _, rfl, wf, Grows.refl s⟩
    · -- the registrations, one after another, each below the request
      rename_i regs _
      obtain ⟨s', loop, wf', grows⟩ := Except.foldlM_ok_of_step (fun _ b => WF b ∧ Grows s b)
        (fun r _ b hb => by
          obtain ⟨wfb, gb⟩ := hb
          obtain ⟨b', run, wf', g'⟩ := register_wf wfb (gb.pending node) r
          exact ⟨b', run, wf', gb.trans g'⟩) regs s ⟨wf, Grows.refl s⟩
      exact ⟨s', none, by simp [loop], wf', grows⟩
  · exact ⟨s, none, rfl, wf, Grows.refl s⟩

/-! ## `Process` -/

/-- A request `children` makes for a node: it names the node as its only
parent, counts nothing, and is for a hash the memory batch lacks. -/
def ChildOK (m : SyncMemBatch) (parent : List UInt8) (c : Request) : Prop :=
  c.parents = [parent] ∧ c.deps = 0 ∧ m.batch.lookup c.hash = none

theorem childRequest_ok {req c : Request} {child : Node (List Nibble)} {depth : Int}
    (made : s.childRequest req child depth = some c) : ChildOK s.membatch req.hash c := by
  unfold childRequest at made
  split at made
  · split_ifs at made with known
    cases made
    exact ⟨rfl, rfl, by simpa using known⟩
  · cases made

theorem childrenLoop_wf {req : Request} : ∀ (list : List (Node (List Nibble) × Int)) {s : Sync} {acc : List Request},
    WF s → s.PendingNode req.hash → (∀ c ∈ acc, ChildOK s.membatch req.hash c) →
      ∃ s' found, childrenLoop req s list acc = .ok (s', found) ∧ WF s' ∧ Grows s s' ∧
        ∀ cs, found = .ok cs → ∀ c ∈ cs, ChildOK s.membatch req.hash c
  | [], s, acc, wf, _, made => ⟨s, .ok acc, rfl, wf, Grows.refl s, by simpa using made⟩
  | item :: rest, s, acc, wf, node, made => by
    obtain ⟨child, depth⟩ := item
    obtain ⟨s₁, err, run, wf₁, grows₁⟩ := notify_wf wf node child
    cases err with
    | some e => exact ⟨s₁, .error e, by simp [childrenLoop, run], wf₁, grows₁, by simp⟩
    | none =>
      -- the memory batch is as it was, so the requests made so far still hold
      have made₁ : ∀ c ∈ acc ++ (s₁.childRequest req child depth).toList, ChildOK s₁.membatch req.hash c := by
        intro c mem
        rcases List.mem_append.mp mem with old | new
        · exact grows₁.membatch ▸ made c old
        · exact childRequest_ok (Option.mem_toList.mp new)
      obtain ⟨s₂, found, loop, wf₂, grows₂, ok⟩ := childrenLoop_wf rest wf₁ (grows₁.pending node) made₁
      refine ⟨s₂, found, by simp [childrenLoop, run, loop], wf₂, grows₁.trans grows₂, ?_⟩
      rw [← grows₁.membatch]
      exact ok

theorem childList_ok {n : Node (List Nibble)} (shape : (∃ key val, n = .short key val) ∨ ∃ cs, n = .full cs)
    (depth : Int) : ∃ list, childList depth n = .ok list := by
  rcases shape with ⟨key, val, rfl⟩ | ⟨cs, rfl⟩
  · exact ⟨_, rfl⟩
  · exact ⟨_, rfl⟩

/-- `children` of a decoded node of a pending trie request: the callback's
registrations below it, then the requests for its unknown children. -/
theorem children_wf (wf : WF s) {req : Request} (node : s.PendingNode req.hash) {object : Node (List Nibble)}
    (shape : (∃ key val, object = .short key val) ∨ ∃ cs, object = .full cs) :
    ∃ s' found, s.children req object = .ok (s', found) ∧ WF s' ∧ Grows s s' ∧
      ∀ cs, found = .ok cs → ∀ c ∈ cs, ChildOK s.membatch req.hash c := by
  obtain ⟨list, listed⟩ := childList_ok shape req.depth
  have start : ∀ c ∈ ([] : List Request), ChildOK s.membatch req.hash c := by simp
  obtain ⟨s', found, loop, wf', grows, ok⟩ := childrenLoop_wf list wf node start
  exact ⟨s', found, by simp [children, listed, loop], wf', grows, ok⟩

/-- `settle` of a pending trie request with the requests for its children:
it commits when nothing is pending below it, or counts and schedules them. -/
theorem settle_wf (wf : WF s) {hash : List UInt8} (node : s.PendingNode hash) {cs : List Request}
    (made : ∀ c ∈ cs, ChildOK s.membatch hash c) : ∃ s' done, s.settle hash cs = .ok (s', done) ∧ WF s' := by
  obtain ⟨r, look, raw⟩ := node
  by_cases finished : cs = [] ∧ r.deps = 0
  · have found : s.requests.lookup r.hash = some r := (wf.books.hash_eq look).symm ▸ look
    obtain ⟨s', run, books, keeps, -⟩ := commitReq_books wf.books found rfl finished.2
    exact ⟨s', true, by simp [settle, look, finished, run], books, keeps.queue ▸ wf.queue⟩
  · -- the node counts its children, whose parents are the count-downs owed
    have counted := wf.books.addDeps look raw cs.length
    have grows : Grows s { s with requests := s.requests.replace hash { r with deps := r.deps + cs.length } } :=
      grows_replace look rfl
    obtain ⟨s', loop, books, queue, -, -, -⟩ := Except.foldlM_ok_of_step
      (fun l b => Books b (List.replicate l.length hash ++ []) ∧ b.queue.cont.Valid ∧ Grows s b ∧
        b.PendingNode hash ∧ ∀ c ∈ l, ChildOK s.membatch hash c)
      (fun c l b hb => by
        obtain ⟨books, queue, grows, node, made⟩ := hb
        obtain ⟨parents, zero, fresh⟩ := made c List.mem_cons_self
        have books' : Books b (c.parents ++ (List.replicate l.length hash ++ [])) := by
          simpa [parents, List.replicate_succ] using books
        obtain ⟨b', run, books', queue', grows'⟩ := schedule_books books' queue (by simp [parents, node]) zero
          (by rw [grows.membatch]; exact fresh)
        exact ⟨b', run, books', queue', grows.trans grows', grows'.pending node,
          fun c' mem => made c' (List.mem_cons_of_mem _ mem)⟩)
      cs { s with requests := s.requests.replace hash { r with deps := r.deps + cs.length } }
      ⟨counted, wf.queue, grows, grows.pending ⟨r, look, raw⟩, made⟩
    exact ⟨s', false, by simp [settle, look, finished, loop], by simpa using books, queue⟩

/-- The data for a pending trie request, kept in the request: the books do
not read it. -/
theorem Books.setData {h : List UInt8} {r : Request} (books : Books s owed) (look : s.requests.lookup h = some r)
    (data : Option (List UInt8)) : Books { s with requests := s.requests.replace h { r with data } } owed := by
  have hash : ({ r with data } : Request).hash = h := (books.hash_eq look : r.hash = h)
  have parents : ∀ a ∈ r.parents, s.PendingNode a := books.parents_pending look
  exact books.replace look hash rfl parents books.owed_pending (fun _ _ => rfl) (by simp)

/-- `processLoop` from a state with the invariant returns, in a state with the
invariant: every item is refused, committed or decoded and settled. -/
theorem processLoop_wf : ∀ (results : List SyncResult) (committed : Bool) (i : Nat) {s : Sync}, WF s →
    ∃ out, processLoop committed s i results = .ok out ∧ WF out.1
  | [], _, _, s, wf => ⟨_, rfl, wf⟩
  | item :: results, committed, i, s, wf => by
    cases look : s.requests.lookup item.Hash with
    | none => exact ⟨(s, committed, i, some .notRequested), by simp [processLoop, look], wf⟩
    | some request =>
      have hash : request.hash = item.Hash := wf.books.hash_eq look
      by_cases processed : request.data.isSome
      · exact ⟨(s, committed, i, some .alreadyProcessed), by simp [processLoop, look, processed], wf⟩
      by_cases raw : request.raw
      · -- a raw entry is named by no request, so it commits at once
        have zero : request.deps = 0 := by simpa using wf.books.deps_raw look raw
        have found : s.requests.lookup ({ request with data := some item.Data } : Request).hash = some request := by
          rw [show ({ request with data := some item.Data } : Request).hash = item.Hash from hash]
          exact look
        obtain ⟨s₁, run, books₁, keeps₁, -⟩ := commitReq_books wf.books found rfl zero
        simp only [raw] at run
        obtain ⟨out, loop, wf'⟩ := processLoop_wf results true (i + 1) ⟨books₁, keeps₁.queue ▸ wf.queue⟩
        exact ⟨out, by simp [processLoop, look, processed, raw, run, loop], wf'⟩
      replace raw : request.raw = false := by simpa using raw
      cases decoded : decodeNode item.Data with
      | error e =>
        exact ⟨(s, committed, i, some (.decode e)), by simp [processLoop, look, processed, raw, decoded], wf⟩
      | ok object =>
        -- the request keeps its data, and stays a pending trie request
        have wf₁ : WF { s with requests := s.requests.replace item.Hash { request with data := some item.Data } } :=
          ⟨wf.books.setData look _, wf.queue⟩
        have node₁ : PendingNode { s with requests := s.requests.replace item.Hash { request with data := some item.Data } }
            ({ request with data := some item.Data } : Request).hash :=
          ⟨{ request with data := some item.Data }, by simp [hash, lookup_replace_eq look], raw⟩
        obtain ⟨s₂, found, run, wf₂, grows₂, made⟩ := children_wf wf₁ node₁ (decodeNode_shape decoded)
        simp only [raw] at run
        cases found with
        | error e =>
          exact ⟨(s₂, committed, i, some (.callback e)), by simp [processLoop, look, processed, raw, decoded, run], wf₂⟩
        | ok cs =>
          have node₂ : s₂.PendingNode item.Hash := hash ▸ grows₂.pending node₁
          have made₂ : ∀ c ∈ cs, ChildOK s₂.membatch item.Hash c := fun c mem => by
            simpa [hash, grows₂.membatch] using made cs rfl c mem
          obtain ⟨s₃, done, settled, wf₃⟩ := settle_wf wf₂ node₂ made₂
          obtain ⟨out, loop, wf'⟩ := processLoop_wf results (committed || done) (i + 1) wf₃
          exact ⟨out, by simp [processLoop, look, processed, raw, decoded, run, settled, loop], wf'⟩

theorem Process_wf (wf : WF s) (results : List SyncResult) :
    ∃ out, s.Process results = .ok out ∧ WF out.1 :=
  processLoop_wf results false 0 wf

/-! ## `Missing`, `Commit` and `NewSync` -/

/-- `missingLoop` on a valid queue with fuel for all of it returns: it takes
the hashes off the queue until it is empty or, with a nonzero `max`, until
`max` are taken. -/
theorem missingLoop_valid (max : Int) : ∀ (fuel : Nat) {queue : Prque (List UInt8)} (acc : List (List UInt8)),
    queue.cont.Valid → queue.Size ≤ fuel →
      ∃ queue' hashes, missingLoop max fuel queue acc = .ok (queue', hashes) ∧ queue'.cont.Valid ∧
        hashes.length + queue'.Size = acc.length + queue.Size ∧
        (queue'.Empty = true ∨ max ≠ 0 ∧ max ≤ hashes.length)
  | 0, queue, acc, valid, size => by
    have empty : queue.Empty = true := by simpa [Prque.Empty, Prque.Size] using size
    exact ⟨queue, acc, rfl, valid, rfl, .inl empty⟩
  | fuel + 1, queue, acc, valid, size => by
    by_cases more : (!queue.Empty && (max == 0 || decide (acc.length < max))) = true
    · have nonempty : queue.Empty = false := by simpa using (Bool.and_eq_true_iff.mp more).1
      obtain ⟨queue₁, hash, pop, valid₁, size₁⟩ := Prque.PopItem_valid valid nonempty
      obtain ⟨queue', hashes, loop, valid', count, stop⟩ :=
        missingLoop_valid max fuel (acc ++ [hash]) valid₁ (by omega)
      refine ⟨queue', hashes, ?_, valid', by simp at count; omega, stop⟩
      rw [missingLoop, if_pos more]
      simp [pop, loop]
    · refine ⟨queue, acc, by rw [missingLoop, if_neg more], valid, rfl, ?_⟩
      -- the loop stops on an empty queue or at `max`
      simp only [Bool.and_eq_true, Bool.not_eq_true', Bool.or_eq_true, beq_iff_eq, decide_eq_true_eq, not_and,
        not_or, not_lt] at more
      by_cases empty : queue.Empty = true
      · exact .inl empty
      · exact .inr (more (by simpa using empty))

/-- `Missing` on a valid queue returns `max` hashes, or (for `max` 0 or a
queue that runs out) every hash the queue held, and keeps the invariant. -/
theorem Missing_wf (wf : WF s) (max : Int) :
    ∃ s' hashes, s.Missing max = .ok (s', hashes) ∧ WF s' ∧ s'.requests = s.requests ∧
      hashes.length + s'.queue.Size = s.queue.Size ∧ (s'.queue.Empty = true ∨ max ≠ 0 ∧ max ≤ hashes.length) := by
  obtain ⟨queue', hashes, loop, valid, count, stop⟩ := missingLoop_valid max s.queue.Size [] wf.queue le_rfl
  refine ⟨{ s with queue := queue' }, hashes, by simp [Missing, loop], ⟨wf.books.of_eq rfl rfl, valid⟩, rfl,
    by simpa using count, stop⟩

/-- The books with the memory batch dropped: nothing is written any more. -/
theorem Books.flush {s' : Sync} (books : Books s owed) (requests : s'.requests = s.requests)
    (flushed : s'.membatch = newSyncMemBatch) : Books s' owed := by
  refine ⟨?_, ?_, ?_, ?_, ?_, ?_, ?_⟩ <;>
    simp only [requests, flushed, pendingNode_congr requests, refs_congr requests, newSyncMemBatch]
  · exact books.hash_eq
  · exact books.parents_pending
  · exact books.owed_pending
  · exact books.deps_eq
  · simp
  · exact List.nodup_nil
  · simp

/-- `Commit` keeps the invariant, whether every write succeeds (the memory
batch is dropped) or one fails (it is kept). -/
theorem Commit_wf {σ : Type} (wf : WF s) (dbw : Ethdb.Writer σ) (w : σ) : WF (s.Commit dbw w).1 := by
  unfold Commit
  split
  · exact ⟨wf.books.of_eq rfl rfl, wf.queue⟩
  · exact ⟨wf.books.flush rfl rfl, wf.queue⟩

/-- The state `NewSync` starts from has the invariant. -/
theorem empty_wf (database : List UInt8 → Option (List UInt8)) (bloom : List UInt8 → Bool) :
    WF ⟨database, newSyncMemBatch, ∅, Prque.New false, bloom⟩ where
  books := {
    hash_eq := by simp
    parents_pending := by simp
    owed_pending := by simp
    deps_eq := by simp
    unwritten := by simp
    order_nodup := List.nodup_nil
    mem_order := by simp [newSyncMemBatch] }
  queue := Prque.Sstack.newSstack_valid false

/-- `commitLoop` into an open memory database: every put succeeds, each key
gets its data from the batch, and the bloom filter learns each key. -/
theorem commitLoop_memorydb (batch : AList fun _ : List UInt8 => List UInt8) :
    ∀ (keys : List (List UInt8)) (bloom : List UInt8 → Bool) (m : Ethdb.KeyMap) (i : Nat),
      ∃ bloom' m', commitLoop batch Ethdb.Database.writer bloom ⟨some m⟩ i keys = (bloom', ⟨some m'⟩, none) ∧
        (∀ k, bloom' k = (decide (k ∈ keys) || bloom k)) ∧
        ∀ k, m'.lookup k = if k ∈ keys then some ((batch.lookup k).getD []) else m.lookup k
  | [], bloom, m, _ => ⟨bloom, m, rfl, by simp, by simp⟩
  | key :: keys, bloom, m, i => by
    obtain ⟨bloom', m', loop, learnt, stored⟩ := commitLoop_memorydb batch keys (fun k => k = key || bloom k)
      (m.insert key ((batch.lookup key).getD [])) (i + 1)
    have put : Ethdb.Database.writer.Put ⟨some m⟩ key ((batch.lookup key).getD []) =
        .ok ⟨some (m.insert key ((batch.lookup key).getD []))⟩ := rfl
    refine ⟨bloom', m', by simp only [commitLoop, put]; exact loop, fun k => ?_, fun k => ?_⟩
    · rw [learnt]
      rcases eq_or_ne k key with rfl | hk
      · simp
      · simp [hk]
    · rw [stored, Lib.lookup_insert]
      rcases eq_or_ne k key with rfl | hk
      · simp
      · simp [hk]

/-- `Commit` into an open memory database writes the whole memory batch: the
database then reads each written hash's data and every other key as before,
the bloom filter says yes to each written hash, and the batch is dropped. -/
theorem Commit_memorydb (wf : WF s) (m : Ethdb.KeyMap) :
    ∃ m', (s.Commit Ethdb.Database.writer ⟨some m⟩).2 = (⟨some m'⟩, s.membatch.order.length, none) ∧
      (∀ key, m'.lookup key = (s.membatch.batch.lookup key).or (m.lookup key)) ∧
      (s.Commit Ethdb.Database.writer ⟨some m⟩).1.membatch = newSyncMemBatch ∧
      ∀ key, (s.Commit Ethdb.Database.writer ⟨some m⟩).1.bloom key = ((s.membatch.batch.lookup key).isSome || s.bloom key) := by
  obtain ⟨bloom', m', loop, learnt, stored⟩ := commitLoop_memorydb s.membatch.batch s.membatch.order s.bloom m 0
  -- the order holds exactly the keys of the batch
  have order (key : List UInt8) : key ∈ s.membatch.order ↔ (s.membatch.batch.lookup key).isSome :=
    wf.books.mem_order key
  refine ⟨m', by simp [Commit, loop], fun key => ?_, by simp [Commit, loop], fun key => ?_⟩
  · rw [stored]
    cases look : s.membatch.batch.lookup key <;> simp [order, look]
  · simp [Commit, loop, learnt, order]

theorem Commit_memorydb_new :
    ∃ m', ((⟨fun _ => none, newSyncMemBatch, ∅, Prque.New false, fun _ => false⟩ : Sync).Commit Ethdb.Database.writer
      ⟨some ∅⟩).2 = (⟨some m'⟩, 0, none) ∧ (∀ key, m'.lookup key = none) ∧
      ((⟨fun _ => none, newSyncMemBatch, ∅, Prque.New false, fun _ => false⟩ : Sync).Commit Ethdb.Database.writer
        ⟨some ∅⟩).1.membatch = newSyncMemBatch ∧
      ∀ key, ((⟨fun _ => none, newSyncMemBatch, ∅, Prque.New false, fun _ => false⟩ : Sync).Commit
        Ethdb.Database.writer ⟨some ∅⟩).1.bloom key = false := by
  simpa [newSyncMemBatch] using Commit_memorydb (empty_wf (fun _ => none) fun _ => false) ∅

theorem NewSync_wf (root : List UInt8) (database : List UInt8 → Option (List UInt8))
    (callback : Option LeafCallback) (bloom : List UInt8 → Bool) :
    ∃ s, NewSync root database callback bloom = .ok s ∧ WF s := by
  obtain ⟨s, run, wf, -⟩ := AddSubTrie_wf (empty_wf database bloom) root 0 callback (.inl rfl)
  exact ⟨s, run, wf⟩

/-! ## Runs -/

/-- The states the scheduler reaches from `NewSync` through its public
operations, a parent named to `AddSubTrie` or `AddRawEntry` being none or a
pending trie request, as the leaf callback's always is. -/
inductive Reachable : Sync → Prop
  | new {root : List UInt8} {database : List UInt8 → Option (List UInt8)} {callback : Option LeafCallback}
      {bloom : List UInt8 → Bool} {s : Sync} :
      NewSync root database callback bloom = .ok s → Reachable s
  | addSubTrie {s s' : Sync} {root : List UInt8} {depth : Int} {parent : List UInt8} {callback : Option LeafCallback} :
      Reachable s → parent = zeroHash ∨ s.PendingNode parent → s.AddSubTrie root depth parent callback = .ok s' →
        Reachable s'
  | addRawEntry {s s' : Sync} {hash : List UInt8} {depth : Int} {parent : List UInt8} :
      Reachable s → parent = zeroHash ∨ s.PendingNode parent → s.AddRawEntry hash depth parent = .ok s' →
        Reachable s'
  | missing {s s' : Sync} {max : Int} {hashes : List (List UInt8)} :
      Reachable s → s.Missing max = .ok (s', hashes) → Reachable s'
  | process {s : Sync} {results : List SyncResult} {out : Sync × Bool × Nat × Option SyncError} :
      Reachable s → s.Process results = .ok out → Reachable out.1
  | commit {σ : Type} {s : Sync} (dbw : Ethdb.Writer σ) (w : σ) : Reachable s → Reachable (s.Commit dbw w).1

/-- `NewSync` of the empty root schedules nothing. -/
theorem reachable_NewSync_emptyRoot (database : List UInt8 → Option (List UInt8)) (callback : Option LeafCallback)
    (bloom : List UInt8 → Bool) : Reachable ⟨database, newSyncMemBatch, ∅, Prque.New false, bloom⟩ :=
  Reachable.new (show NewSync emptyRoot database callback bloom = .ok ⟨database, newSyncMemBatch, ∅, Prque.New false, bloom⟩
    by simp [NewSync, AddSubTrie])

/-- Every reachable state has the invariant: the pending requests are keyed
by hash, name pending trie requests as parents and count exactly the
references to them, none is written, the memory batch writes each hash once,
and the queue is valid. -/
theorem Reachable.wf (reach : Reachable s) : WF s := by
  induction reach with
  | new run => exact Except.of_exists_ok run (NewSync_wf _ _ _ _)
  | addSubTrie _ node run ih =>
    exact Except.of_exists_ok run (AddSubTrie_wf ih _ _ _ node |>.imp fun _ h => ⟨h.1, h.2.1⟩)
  | addRawEntry _ node run ih =>
    exact Except.of_exists_ok run (AddRawEntry_wf ih _ _ node |>.imp fun _ h => ⟨h.1, h.2.1⟩)
  | missing _ run ih =>
    obtain ⟨s', hashes, run', wf', -⟩ := Missing_wf ih _
    exact Except.of_exists_ok (P := fun out => WF out.1) run ⟨(s', hashes), run', wf'⟩
  | process _ run ih => exact Except.of_exists_ok (P := fun out => WF out.1) run (Process_wf ih _)
  | commit dbw w _ ih => exact Commit_wf ih dbw w

/-- Every reachable state has the invariant, and from it the public
operations return, without a panic, into reachable states: `Process` of any
results, `Missing`, and `AddSubTrie` and `AddRawEntry` under no parent or a
pending trie request. -/
theorem Reachable.never_panics (reach : Reachable s) :
    WF s ∧ (∀ results, ∃ out, s.Process results = .ok out ∧ Reachable out.1) ∧
      (∀ max, ∃ out, s.Missing max = .ok out ∧ Reachable out.1) ∧
      (∀ root depth parent callback, parent = zeroHash ∨ s.PendingNode parent →
        ∃ s', s.AddSubTrie root depth parent callback = .ok s' ∧ Reachable s') ∧
      (∀ hash depth parent, parent = zeroHash ∨ s.PendingNode parent →
        ∃ s', s.AddRawEntry hash depth parent = .ok s' ∧ Reachable s') := by
  have wf := reach.wf
  refine ⟨wf, fun results => ?_, fun max => ?_, fun root depth parent callback node => ?_,
    fun hash depth parent node => ?_⟩
  · obtain ⟨out, run, -⟩ := Process_wf wf results
    exact ⟨out, run, reach.process run⟩
  · obtain ⟨s', hashes, run, -⟩ := Missing_wf wf max
    exact ⟨(s', hashes), run, reach.missing run⟩
  · obtain ⟨s', run, -⟩ := AddSubTrie_wf wf root depth callback node
    exact ⟨s', run, reach.addSubTrie node run⟩
  · obtain ⟨s', run, -⟩ := AddRawEntry_wf wf hash depth node
    exact ⟨s', run, reach.addRawEntry node run⟩

theorem Reachable.never_panics_emptyRoot :
    let s : Sync := ⟨fun _ => none, newSyncMemBatch, ∅, Prque.New false, fun _ => false⟩
    WF s ∧ (∀ results, ∃ out, s.Process results = .ok out ∧ Reachable out.1) ∧
      (∀ max, ∃ out, s.Missing max = .ok out ∧ Reachable out.1) ∧
      (∀ root depth parent callback, parent = zeroHash ∨ s.PendingNode parent →
        ∃ s', s.AddSubTrie root depth parent callback = .ok s' ∧ Reachable s') ∧
      (∀ hash depth parent, parent = zeroHash ∨ s.PendingNode parent →
        ∃ s', s.AddRawEntry hash depth parent = .ok s' ∧ Reachable s') :=
  Reachable.never_panics (reachable_NewSync_emptyRoot _ none _)

/-- In every reachable state no hash written to the memory batch is a parent
of a pending request: a node is written only after every request below it. -/
theorem Reachable.children_first (reach : Reachable s) :
    ∀ h ∈ s.membatch.order, ∀ k r, s.requests.lookup k = some r → h ∉ r.parents := by
  intro h written k r look named
  have books := reach.wf.books
  obtain ⟨q, parent, -⟩ := books.parents_pending look h named
  have unwritten := books.unwritten parent
  have known := (books.mem_order h).mp written
  simp [unwritten] at known

theorem Reachable.children_first_emptyRoot :
    let s : Sync := ⟨fun _ => none, newSyncMemBatch, ∅, Prque.New false, fun _ => false⟩
    ∀ h ∈ s.membatch.order, ∀ k r, s.requests.lookup k = some r → h ∉ r.parents :=
  Reachable.children_first (reachable_NewSync_emptyRoot _ none _)

/-- `AddRawEntry` under a trie request whose data has not come: when the
raw entry arrives, the parent's count drops to zero and the parent is written
with no data, and its data, when it comes, is refused as not requested. The
leaf callback registers only below a node whose data has come. -/
theorem AddRawEntry_unprocessed_parent (wf : WF s) {p h : List UInt8} {r : Request}
    (look : s.requests.lookup p = some r) (trie : r.raw = false) (unprocessed : r.data = none) (alone : r.deps = 0)
    (named : p ≠ zeroHash) (entry : h ≠ emptyStateHash) (absent : s.requests.lookup h = none)
    (unwritten : s.membatch.batch.lookup h = none) (unknown : s.bloom h = false) (depth : Int) (data : List UInt8) :
    ∃ s₁ s₂, s.AddRawEntry h depth p = .ok s₁ ∧ s₁.Process [⟨h, data⟩] = .ok (s₂, true, 0, none) ∧
      s₂.membatch.batch.lookup p = some [] ∧ ∀ d, s₂.Process [⟨p, d⟩] = .ok (s₂, false, 0, some .notRequested) := by
  have ne : h ≠ p := by
    rintro rfl
    simp [look] at absent
  obtain ⟨queue, push, -, -⟩ := Prque.Push_valid wf.queue h (Int64.ofInt depth)
  -- the raw entry is pending below `p`, which counts it
  set s₁ : Sync := { s with
    queue := queue
    requests := (s.requests.replace p { r with deps := r.deps + 1 }).insert h ⟨h, none, true, [p], depth, 0, none⟩ }
  have run₁ : s.AddRawEntry h depth p = .ok s₁ := by
    simp [s₁, AddRawEntry, entry, unwritten, unknown, link, named, look, schedule, lookup_replace_eq look, ne, absent,
      push]
  have wf₁ := Except.of_exists_ok run₁
    (AddRawEntry_wf wf h depth (.inr ⟨r, look, trie⟩) |>.imp fun _ hs => ⟨hs.1, hs.2.1⟩)
  have look₁ : s₁.requests.lookup (⟨h, some data, true, [p], depth, 0, none⟩ : Request).hash =
      some ⟨h, none, true, [p], depth, 0, none⟩ := by
    simp [s₁]
  have parent₁ : s₁.requests.lookup p = some { r with deps := r.deps + 1 } := by
    simp [s₁, Ne.symm ne, lookup_replace_eq look]
  -- its data commits it, and with it `p`, whose count reaches zero
  obtain ⟨s₂, run₂, -, -, written, gone⟩ := commitReq_last_child wf₁.books look₁ rfl rfl rfl parent₁ (by simp [alone])
  refine ⟨_, s₂, run₁, ?_, by simpa [unprocessed] using written, fun d => by simp [Process, processLoop, gone]⟩
  have found₁ : s₁.requests.lookup h = some ⟨h, none, true, [p], depth, 0, none⟩ := look₁
  simp [Process, processLoop, found₁, run₂]

/-- A raw entry registered under the root before the root's data has come:
once the entry arrives the root is written with no data, and the root's data
is then refused as not requested. -/
theorem NewSync_AddRawEntry_root (root h : List UInt8) (database : List UInt8 → Option (List UInt8))
    (bloom : List UInt8 → Bool) (depth : Int) (data : List UInt8) (nonempty : root ≠ emptyRoot)
    (named : root ≠ zeroHash) (entry : h ≠ emptyStateHash) (other : h ≠ root) (rootUnknown : bloom root = false)
    (entryUnknown : bloom h = false) :
    ∃ s₀ s₁ s₂, NewSync root database none bloom = .ok s₀ ∧ s₀.AddRawEntry h depth root = .ok s₁ ∧
      s₁.Process [⟨h, data⟩] = .ok (s₂, true, 0, none) ∧ s₂.membatch.batch.lookup root = some [] ∧
      ∀ d, s₂.Process [⟨root, d⟩] = .ok (s₂, false, 0, some .notRequested) := by
  have empty := empty_wf database bloom
  obtain ⟨queue, push, -, -⟩ := Prque.Push_valid empty.queue root (Int64.ofInt 0)
  -- the root is the one pending request, with no data yet
  set s₀ : Sync := ⟨database, newSyncMemBatch, (∅ : AList _).insert root ⟨root, none, false, [], 0, 0, none⟩, queue, bloom⟩
  have run₀ : NewSync root database none bloom = .ok s₀ := by
    have pushed : (Prque.New false : Prque (List UInt8)).Push root 0 = .ok queue := push
    simp [s₀, NewSync, AddSubTrie, nonempty, rootUnknown, link, schedule, pushed, newSyncMemBatch]
  have wf₀ := Except.of_exists_ok run₀ (NewSync_wf root database none bloom)
  have lookup_eq (k : List UInt8) : s₀.requests.lookup k = if k = root then some ⟨root, none, false, [], 0, 0, none⟩
      else none := by
    rw [Lib.lookup_insert]
    simp
  obtain ⟨s₁, s₂, run₁, run₂, written, refused⟩ := AddRawEntry_unprocessed_parent wf₀
    (show s₀.requests.lookup root = some ⟨root, none, false, [], 0, 0, none⟩ by simp [lookup_eq]) rfl rfl rfl named entry (by simp [lookup_eq, other]) (by simp [s₀, newSyncMemBatch])
    entryUnknown depth data
  exact ⟨s₀, s₁, s₂, run₀, run₁, run₂, written, refused⟩

theorem NewSync_AddRawEntry_root_ones :
    let root : List UInt8 := List.replicate 32 1
    let h : List UInt8 := List.replicate 32 2
    (root ≠ emptyRoot ∧ root ≠ zeroHash ∧ h ≠ emptyStateHash ∧ h ≠ root) ∧
      ∃ s₀ s₁ s₂, NewSync root (fun _ => none) none (fun _ => false) = .ok s₀ ∧ s₀.AddRawEntry h 1 root = .ok s₁ ∧
        s₁.Process [⟨h, [7]⟩] = .ok (s₂, true, 0, none) ∧ s₂.membatch.batch.lookup root = some [] ∧
        ∀ d, s₂.Process [⟨root, d⟩] = .ok (s₂, false, 0, some .notRequested) :=
  ⟨⟨by decide, by decide, by decide, by decide⟩,
    NewSync_AddRawEntry_root _ _ _ _ 1 [7] (by decide) (by decide) (by decide) (by decide) rfl rfl⟩

end Sync

end FiscoBcos.Trie
