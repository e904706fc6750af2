import FiscoBcos.Trie.DirtyCacheSpec
import Mathlib

/-!
# `Commit` writes children before parents

`Database.Commit` walks the dirty nodes below a root in post-order: each
node's children are committed before the node is put into the batch, and a
batch that grows past `IdealBatchSize` is written to disk and replayed
through the cleaner, which drops the written nodes from the cache while the
walk goes on. A node that the walk meets again after a replay is no longer
cached and is skipped: it was written before.

On a cache whose child hashes admit a rank that falls from parent to child,
whose flush-list is well formed, whose hashes are 32 bytes long and whose
metaroot is not below the root, `Commit` returns, every dirty node below the
root is written, every batch written holds the dirty children of its nodes
in it or in an earlier batch, and none of those nodes is cached afterwards
(`Commit_writes_children_first`). The invariant of the walk is `Progress`:
every put so far comes after the puts of its dirty children, what is written
has been replayed, and what left the cache was written.

Without the rank the walk need not end: `Reference` links any two cached
nodes, and two blobs referencing each other make `commit` recurse forever
(`Commit_cycle_never_returns`).
-/

namespace FiscoBcos.Trie

namespace DirtyCache

open Lib

/-- The hashes reachable from `root` through the children of cached
entries. -/
inductive Reach (dirties : HashMap CachedNode) (root : List UInt8) : List UInt8 → Prop
  | root : root ∈ dirties → Reach dirties root root
  | child {h c : List UInt8} {n : CachedNode} : Reach dirties root h → dirties.lookup h = some n →
      c ∈ n.childs → c ∈ dirties → Reach dirties root c

theorem Reach.mem {dirties : HashMap CachedNode} {root h : List UInt8} (reach : Reach dirties root h) :
    h ∈ dirties := by
  cases reach with
  | root mem => exact mem
  | child _ _ _ mem => exact mem

/-- A rank that falls along every child hash between cached entries: the
children form no cycle. -/
def Ranked (dirties : HashMap CachedNode) (rank : List UInt8 → Nat) : Prop :=
  ∀ h n, dirties.lookup h = some n → ∀ c ∈ n.childs, c ∈ dirties → rank c < rank h

/-- The hashes of the puts in a list of batches. -/
def written (batches : List (List (List UInt8 × List UInt8))) : List (List UInt8) :=
  batches.flatten.map Prod.fst

/-- The puts of a walk so far, in order: those written, then the batch. -/
def puts (batches : List (List (List UInt8 × List UInt8))) (batch : Batch) : List (List UInt8 × List UInt8) :=
  batches.flatten ++ batch.writes

/-- Every put comes after puts of all the dirty children of its node. -/
def ChildrenFirst (dirties : HashMap CachedNode) (ws : List (List UInt8 × List UInt8)) : Prop :=
  ∀ i (hi : i < ws.length) n, dirties.lookup (ws.get ⟨i, hi⟩).1 = some n →
    ∀ c ∈ n.childs, c ∈ dirties → c ∈ (ws.take i).map Prod.fst

/-- The invariant of the walk from `base`, with `batches` written and
`batch` pending. -/
structure Progress (base : Database) (root : List UInt8) (db : Database)
    (batches : List (List (List UInt8 × List UInt8))) (batch : Batch) : Prop where
  disk : db.diskdb = base.diskdb ++ batches
  listed : ∃ order, FlushListed db order
  replayed : ∀ h ∈ written batches, h ∉ db.dirties
  data : ∀ x n, db.dirties.lookup x = some n → ∃ n₀, base.dirties.lookup x = some n₀ ∧ n.data = n₀.data
  removed : ∀ x ∈ base.dirties, x ∉ db.dirties → x ∈ written batches
  reach : ∀ w ∈ puts batches batch, Reach base.dirties root w.1
  ordered : ChildrenFirst base.dirties (puts batches batch)

section Walk

variable {base : Database} {root : List UInt8}

theorem progress_start {order : List (List UInt8)} (listed : FlushListed base order) :
    Progress base root base [] Batch.empty where
  disk := by simp
  listed := ⟨order, listed⟩
  replayed := by simp [written]
  data := fun x n look => ⟨n, look, rfl⟩
  removed := fun x mem notMem => absurd mem notMem
  reach := by simp [puts, Batch.empty]
  ordered := fun i hi => by simp [puts, Batch.empty] at hi

theorem ChildrenFirst.append {dirties : HashMap CachedNode} {ws : List (List UInt8 × List UInt8)}
    (ordered : ChildrenFirst dirties ws) {h : List UInt8} (v : List UInt8)
    (first : ∀ n, dirties.lookup h = some n → ∀ c ∈ n.childs, c ∈ dirties → c ∈ ws.map Prod.fst) :
    ChildrenFirst dirties (ws ++ [(h, v)]) := by
  intro i hi n look c mem cached
  rw [List.length_append, List.length_singleton] at hi
  rcases Nat.lt_succ_iff_lt_or_eq.mp hi with lt | rfl
  · -- an earlier put: its index and what comes before it are unchanged
    rw [List.take_append_of_le_length lt.le]
    have same : (ws ++ [(h, v)]).get ⟨i, by simp; omega⟩ = ws.get ⟨i, lt⟩ := List.getElem_append_left lt
    exact ordered i lt n (same ▸ look) c mem cached
  · have look' : dirties.lookup h = some n := by
      rwa [List.get_eq_getElem, List.getElem_concat_length rfl] at look
    rw [List.take_left]
    exact first n look' c mem cached

/-- A put of a reachable node whose dirty children are all put already. -/
theorem Progress.put {db : Database} {batches : List (List (List UInt8 × List UInt8))} {batch : Batch}
    (progress : Progress base root db batches batch) {h : List UInt8} (reach : Reach base.dirties root h)
    (first : ∀ n, base.dirties.lookup h = some n → ∀ c ∈ n.childs, c ∈ base.dirties →
      c ∈ (puts batches batch).map Prod.fst) (v : List UInt8) :
    Progress base root db batches (batch.Put h v) where
  disk := progress.disk
  listed := progress.listed
  replayed := progress.replayed
  data := progress.data
  removed := progress.removed
  reach := fun w mem => by
    rw [puts, Batch.Put, ← List.append_assoc] at mem
    rcases List.mem_append.mp mem with old | new
    · exact progress.reach w old
    · rw [List.mem_singleton] at new
      subst new
      exact reach
  ordered := by
    have ordered := progress.ordered.append v first
    show ChildrenFirst base.dirties (batches.flatten ++ (batch.writes ++ [(h, v)]))
    rw [← List.append_assoc]
    exact ordered

/-- Writing the batch and replaying it: the written nodes leave the cache,
and the puts stay as they were. -/
theorem Progress.flush {db : Database} {batches : List (List (List UInt8 × List UInt8))} {batch : Batch}
    (progress : Progress base root db batches batch) (noMeta : ¬Reach base.dirties root zeroHash)
    (hashes : ∀ h ∈ base.dirties, h.length = hashLen) :
    ∃ db', (db.write batch).replay batch = .ok db' ∧ Progress base root db' (batches ++ [batch.writes]) Batch.empty := by
  obtain ⟨order, listed⟩ := progress.listed
  have keys : ∀ w ∈ batch.writes, w.1.length = hashLen ∧ w.1 ≠ zeroHash := fun w mem => by
    have reach := progress.reach w (List.mem_append_right _ mem)
    exact ⟨hashes _ reach.mem, fun e => noMeta (e ▸ reach)⟩
  obtain ⟨db', order', run, listed', disk, data⟩ := (listed.of_eq rfl rfl rfl : FlushListed (db.write batch) order).replay
    batch.writes keys
  -- a hash that was not cached before the replay is not cached after it
  have gone {x : List UInt8} (notMem : x ∉ db.dirties) : x ∉ db'.dirties := by
    rw [← AList.lookup_eq_none] at notMem ⊢
    have read := data x
    rw [show (db.write batch).dirties = db.dirties from rfl, notMem, Option.map_none] at read
    split at read <;> exact Option.map_eq_none_iff.mp read
  refine ⟨db', run, ⟨?_, ⟨order', listed'⟩, ?_, ?_, ?_, ?_, ?_⟩⟩
  · rw [disk, Database.write, progress.disk, List.append_assoc]
  · intro h mem
    rw [written, List.flatten_append, List.map_append, List.mem_append] at mem
    rcases mem with old | new
    · exact gone (progress.replayed h old)
    · rw [List.flatten_singleton] at new
      rw [← AList.lookup_eq_none]
      have read := data h
      rw [if_pos new] at read
      exact Option.map_eq_none_iff.mp read
  · intro x n look
    have read := data x
    rw [look] at read
    split at read
    · cases read
    · obtain ⟨m, lookOld, same⟩ := Option.map_eq_some_iff.mp read.symm
      obtain ⟨n₀, lookBase, sameBase⟩ := progress.data x m lookOld
      exact ⟨n₀, lookBase, same.symm.trans sameBase⟩
  · intro x mem notMem
    rw [written, List.flatten_append, List.map_append, List.mem_append, List.flatten_singleton]
    by_cases cached : x ∈ db.dirties
    · right
      by_contra notPut
      have read := data x
      rw [if_neg notPut] at read
      obtain ⟨m, lookOld⟩ := Option.isSome_iff_exists.mp (AList.lookup_isSome.mpr cached)
      rw [show (db.write batch).dirties = db.dirties from rfl, lookOld] at read
      apply notMem
      rw [← AList.lookup_isSome]
      cases e : db'.dirties.lookup x with
      | none => rw [e] at read; cases read
      | some _ => rfl
    · exact .inl (progress.removed x mem cached)
  · intro w mem
    exact progress.reach w (by simpa [puts, Batch.empty] using mem)
  · have same : puts (batches ++ [batch.writes]) Batch.empty = puts batches batch := by
      simp [puts, Batch.empty]
    rw [same]
    exact progress.ordered

/-- A prefix of the puts keeps its children first. -/
theorem ChildrenFirst.of_prefix {dirties : HashMap CachedNode} {ws ws' : List (List UInt8 × List UInt8)}
    (ordered : ChildrenFirst dirties ws') (pre : ws <+: ws') : ChildrenFirst dirties ws := by
  intro i hi n look c mem cached
  obtain ⟨rest, rfl⟩ := pre
  have same : (ws ++ rest).get ⟨i, by simp; omega⟩ = ws.get ⟨i, hi⟩ := List.getElem_append_left hi
  have taken := ordered i (by simp; omega) n (same ▸ look) c mem cached
  rwa [List.take_append_of_le_length hi.le] at taken

/-- Every put's dirty children are among the puts. -/
theorem ChildrenFirst.closed {dirties : HashMap CachedNode} {ws : List (List UInt8 × List UInt8)}
    (ordered : ChildrenFirst dirties ws) {h : List UInt8} (mem : h ∈ ws.map Prod.fst) {n : CachedNode}
    (look : dirties.lookup h = some n) {c : List UInt8} (child : c ∈ n.childs) (cached : c ∈ dirties) :
    c ∈ ws.map Prod.fst := by
  obtain ⟨w, memW, rfl⟩ := List.mem_map.mp mem
  obtain ⟨⟨i, hi⟩, rfl⟩ := List.mem_iff_get.mp memW
  exact List.map_subset _ (List.take_subset i ws) (ordered i hi n look c child cached)

/-- With the root among the puts, everything dirty below it is. -/
theorem ChildrenFirst.reach {ws : List (List UInt8 × List UInt8)} (ordered : ChildrenFirst base.dirties ws)
    (rootPut : root ∈ base.dirties → root ∈ ws.map Prod.fst) {h : List UInt8} (reach : Reach base.dirties root h) :
    h ∈ ws.map Prod.fst := by
  induction reach with
  | root mem => exact rootPut mem
  | child _ look child cached ih => exact ordered.closed ih look child cached

theorem mem_puts_of_written {batches : List (List (List UInt8 × List UInt8))} {batch : Batch} {h : List UInt8}
    (mem : h ∈ written batches) : h ∈ (puts batches batch).map Prod.fst := by
  rw [puts, List.map_append]
  exact List.mem_append_left _ mem

variable {rank : List UInt8 → Nat}

/-- The walk over a list of children, one after another. -/
theorem children_walk {f : Nat}
    (ih : ∀ (h : List UInt8) {db : Database} {batches : List (List (List UInt8 × List UInt8))} {batch : Batch},
      Progress base root db batches batch → (h ∈ base.dirties → Reach base.dirties root h ∧ rank h < f) →
      ∃ db' batches' batch', Database.commit f (db, batch) h = .ok (db', batch') ∧
        Progress base root db' batches' batch' ∧ puts batches batch <+: puts batches' batch' ∧
        (h ∈ base.dirties → h ∈ (puts batches' batch').map Prod.fst)) :
    ∀ (cs : List (List UInt8)) {db : Database} {batches : List (List (List UInt8 × List UInt8))} {batch : Batch},
      Progress base root db batches batch →
      (∀ c ∈ cs, c ∈ base.dirties → Reach base.dirties root c ∧ rank c < f) →
      ∃ db' batches' batch', cs.foldlM (fun st c => Database.commit f st c) (db, batch) = .ok (db', batch') ∧
        Progress base root db' batches' batch' ∧ puts batches batch <+: puts batches' batch' ∧
        ∀ c ∈ cs, c ∈ base.dirties → c ∈ (puts batches' batch').map Prod.fst
  | [], db, batches, batch, progress, _ =>
    ⟨db, batches, batch, rfl, progress, List.prefix_refl _, fun _ mem => absurd mem List.not_mem_nil⟩
  | c :: cs, db, batches, batch, progress, below => by
    obtain ⟨db₁, batches₁, batch₁, run₁, progress₁, pre₁, put₁⟩ :=
      ih c progress (below c List.mem_cons_self)
    obtain ⟨db', batches', batch', run', progress', pre', put'⟩ :=
      children_walk ih cs progress₁ fun c' mem => below c' (List.mem_cons_of_mem c mem)
    refine ⟨db', batches', batch', ?_, progress', pre₁.trans pre', fun c' mem cached => ?_⟩
    · rw [List.foldlM_cons, run₁]
      exact run'
    · rcases List.mem_cons.mp mem with rfl | later
      · obtain ⟨w, memW, e⟩ := List.mem_map.mp (put₁ cached)
        exact List.mem_map.mpr ⟨w, pre'.subset memW, e⟩
      · exact put' c' later cached

variable (noMeta : ¬Reach base.dirties root zeroHash) (hashes : ∀ h ∈ base.dirties, h.length = hashLen)
  (ranked : Ranked base.dirties rank)

include noMeta hashes ranked

/-- The walk from a hash: it ends, it keeps the invariant, it only adds puts,
and a dirty hash is among them afterwards. The induction is on the fuel,
which the rank of a dirty hash stays below. -/
theorem commit_walk (fuel : Nat) :
    ∀ (h : List UInt8) {db : Database} {batches : List (List (List UInt8 × List UInt8))} {batch : Batch},
      Progress base root db batches batch → (h ∈ base.dirties → Reach base.dirties root h ∧ rank h < fuel) →
      ∃ db' batches' batch', Database.commit fuel (db, batch) h = .ok (db', batch') ∧
        Progress base root db' batches' batch' ∧ puts batches batch <+: puts batches' batch' ∧
        (h ∈ base.dirties → h ∈ (puts batches' batch').map Prod.fst) := by
  induction fuel with
  | zero =>
    intro h db batches batch progress below
    cases look : db.dirties.lookup h with
    | none =>
      refine ⟨db, batches, batch, by simp [Database.commit, look], progress, List.prefix_refl _, fun mem => ?_⟩
      exact mem_puts_of_written (progress.removed h mem (AList.lookup_eq_none.mp look))
    | some node =>
      obtain ⟨n₀, lookBase, -⟩ := progress.data h node look
      exact absurd (below (AList.lookup_isSome.mp (by rw [lookBase]; rfl))).2 (Nat.not_lt_zero _)
  | succ f ih =>
    intro h db batches batch progress below
    cases look : db.dirties.lookup h with
    | none =>
      refine ⟨db, batches, batch, by simp [Database.commit, look], progress, List.prefix_refl _, fun mem => ?_⟩
      exact mem_puts_of_written (progress.removed h mem (AList.lookup_eq_none.mp look))
    | some node =>
      obtain ⟨n₀, lookBase, same⟩ := progress.data h node look
      obtain ⟨reach, lt⟩ := below (AList.lookup_isSome.mp (by rw [lookBase]; rfl))
      -- the children first, each within the fuel left
      obtain ⟨db₁, batches₁, batch₁, fold, progress₁, pre₁, childrenPut⟩ :=
        children_walk ih node.childs progress fun c mem cached => by
          rw [CachedNode.childs_eq_of_data same] at mem
          exact ⟨.child reach lookBase mem cached, by have := ranked h n₀ lookBase c mem cached; omega⟩
      have first : ∀ n, base.dirties.lookup h = some n → ∀ c ∈ n.childs, c ∈ base.dirties →
          c ∈ (puts batches₁ batch₁).map Prod.fst := by
        intro n lookN c mem cached
        rw [lookBase, Option.some.injEq] at lookN
        subst lookN
        exact childrenPut c (by rwa [CachedNode.childs_eq_of_data same]) cached
      have progress₂ := progress₁.put reach first node.rlp
      have grown : puts batches₁ batch₁ <+: puts batches₁ (batch₁.Put h node.rlp) :=
        ⟨[(h, node.rlp)], by simp [puts, Batch.Put]⟩
      have hPut : h ∈ (puts batches₁ (batch₁.Put h node.rlp)).map Prod.fst := by
        simp [puts, Batch.Put]
      by_cases full : (batch₁.Put h node.rlp).ValueSize ≥ IdealBatchSize
      · obtain ⟨db₃, replay, progress₃⟩ := progress₂.flush noMeta hashes
        have same₃ : puts (batches₁ ++ [(batch₁.Put h node.rlp).writes]) Batch.empty =
            puts batches₁ (batch₁.Put h node.rlp) := by
          simp [puts, Batch.empty]
        refine ⟨db₃, _, Batch.empty, ?_, progress₃, ?_, fun _ => same₃ ▸ hPut⟩
        · simp only [Database.commit, look, bind, Except.bind, fold, if_pos full, replay]
          rfl
        · rw [same₃]
          exact pre₁.trans grown
      · refine ⟨db₁, batches₁, batch₁.Put h node.rlp, ?_, progress₂, pre₁.trans grown, fun _ => hPut⟩
        simp only [Database.commit, look, bind, Except.bind, fold, if_neg full]
        rfl

end Walk

/-! ## `Commit` -/

/-- `Commit` of a root on a cache whose children form no cycle: it returns;
every dirty node below the root is written; the batches written up to any
point hold the dirty children of every node they hold; and none of those
nodes stays cached. -/
theorem Commit_writes_children_first {db : Database} {order : List (List UInt8)} (listed : FlushListed db order)
    (hashes : ∀ h ∈ db.dirties, h.length = hashLen) {rank : List UInt8 → Nat} (ranked : Ranked db.dirties rank)
    {r : List UInt8} (noMeta : ¬Reach db.dirties r zeroHash) {fuel : Nat} (enough : rank r < fuel) :
    ∃ db' batches, db.Commit fuel r = .ok db' ∧ db'.diskdb = db.diskdb ++ batches ∧
      (∀ h, Reach db.dirties r h → h ∈ written batches) ∧
      (∀ k, ∀ h ∈ written (batches.take k), ∀ n, db.dirties.lookup h = some n →
        ∀ c ∈ n.childs, c ∈ db.dirties → c ∈ written (batches.take k)) ∧
      ∀ h, Reach db.dirties r h → h ∉ db'.dirties := by
  obtain ⟨db₁, batches₁, batch₁, run, progress, -, rootPut⟩ :=
    commit_walk noMeta hashes ranked fuel r (progress_start listed) fun mem => ⟨.root mem, enough⟩
  obtain ⟨db', replay, final⟩ := progress.flush noMeta hashes
  -- after the last write every put is on disk
  have allWritten : puts batches₁ batch₁ = (batches₁ ++ [batch₁.writes]).flatten := by
    simp [puts]
  have ordered : ChildrenFirst db.dirties (batches₁ ++ [batch₁.writes]).flatten :=
    allWritten ▸ progress.ordered
  have below {h : List UInt8} (reach : Reach db.dirties r h) : h ∈ written (batches₁ ++ [batch₁.writes]) := by
    have put := ordered.reach (fun mem => allWritten ▸ rootPut mem) reach
    exact put
  refine ⟨db', batches₁ ++ [batch₁.writes], ?_, final.disk, fun h reach => below reach,
    fun k h mem n look c child cached => ?_, fun h reach => final.replayed h (below reach)⟩
  · simp only [Database.Commit, bind, Except.bind, run]
    exact replay
  · -- the batches up to `k` are a prefix of all the puts
    have pre : ((batches₁ ++ [batch₁.writes]).take k).flatten <+: (batches₁ ++ [batch₁.writes]).flatten :=
      ⟨((batches₁ ++ [batch₁.writes]).drop k).flatten, by rw [← List.flatten_append, List.take_append_drop]⟩
    exact (ordered.of_prefix pre).closed mem look child cached

/-- In the cache of the two blobs, the second's child is the first, and no
other entry has a child. -/
theorem blobCache_childs {h : List UInt8} {n : CachedNode} (look : blobCache.dirties.lookup h = some n) :
    n.childs = if h = secondBlob then [firstBlob] else [] := by
  have mem : h ∈ blobCache.dirties.keys := AList.mem_keys.mp (AList.lookup_isSome.mp (by rw [look]; rfl))
  have read : (blobCache.dirties.lookup h).map CachedNode.childs = some n.childs := by rw [look]; rfl
  rw [show blobCache.dirties.keys = [secondBlob, firstBlob, zeroHash] from rfl] at mem
  simp only [List.mem_cons, List.not_mem_nil, or_false] at mem
  rcases mem with rfl | rfl | rfl
  · exact Option.some.inj (read.symm.trans rfl)
  · exact Option.some.inj (read.symm.trans rfl)
  · exact Option.some.inj (read.symm.trans rfl)

/-- Below the second blob lie the two blobs only. -/
theorem reach_blobCache {h : List UInt8} (reach : Reach blobCache.dirties secondBlob h) :
    h = secondBlob ∨ h = firstBlob := by
  induction reach with
  | root => exact .inl rfl
  | child _ look child _ ih =>
    rw [blobCache_childs look] at child
    rcases ih with rfl | rfl
    · exact .inr (List.mem_singleton.mp (by simpa using child))
    · simp [show firstBlob ≠ secondBlob by decide] at child

theorem Commit_writes_children_first_blobs :
    ∃ db' batches, blobCache.Commit 2 secondBlob = .ok db' ∧ db'.diskdb = blobCache.diskdb ++ batches ∧
      (∀ h, Reach blobCache.dirties secondBlob h → h ∈ written batches) ∧
      (∀ k, ∀ h ∈ written (batches.take k), ∀ n, blobCache.dirties.lookup h = some n →
        ∀ c ∈ n.childs, c ∈ blobCache.dirties → c ∈ written (batches.take k)) ∧
      ∀ h, Reach blobCache.dirties secondBlob h → h ∉ db'.dirties := by
  have hashes : ∀ h ∈ blobCache.dirties, h.length = hashLen := by
    intro h mem
    rw [AList.mem_keys, show blobCache.dirties.keys = [secondBlob, firstBlob, zeroHash] from rfl] at mem
    simp only [List.mem_cons, List.not_mem_nil, or_false] at mem
    rcases mem with rfl | rfl | rfl <;> rfl
  have ranked : Ranked blobCache.dirties fun h => if h = secondBlob then 1 else 0 := by
    intro h n look c child _
    rw [blobCache_childs look] at child
    by_cases e : h = secondBlob
    · rw [if_pos e, List.mem_singleton] at child
      subst child e
      decide
    · simp [e] at child
  have noMeta : ¬Reach blobCache.dirties secondBlob zeroHash := fun reach => by
    rcases reach_blobCache reach with e | e <;> exact absurd e (by decide)
  exact Commit_writes_children_first (Bookkept.toFlushListed bookkept_blobCache) hashes ranked noMeta (by decide)

/-- Two entries each the only child of the other: `commit` of either never
returns, whatever the fuel. -/
theorem commit_loops_on_cycle {db : Database} {a b : List UInt8} {na nb : CachedNode}
    (lookA : db.dirties.lookup a = some na) (lookB : db.dirties.lookup b = some nb)
    (childA : na.childs = [b]) (childB : nb.childs = [a]) :
    ∀ fuel batch, Database.commit fuel (db, batch) a = .error .fuelExhausted ∧
      Database.commit fuel (db, batch) b = .error .fuelExhausted := by
  intro fuel
  induction fuel with
  | zero => intro batch; simp [Database.commit, lookA, lookB]
  | succ f ih =>
    intro batch
    simp only [Database.commit, lookA, lookB, childA, childB, List.foldlM_cons, (ih batch).1, (ih batch).2]
    exact ⟨rfl, rfl⟩

theorem Commit_of_commit_error {db : Database} {fuel : Nat} {r : List UInt8} {e : TrieError}
    (fails : Database.commit fuel (db, Batch.empty) r = .error e) : db.Commit fuel r = .error e := by
  simp only [Database.Commit, bind, Except.bind, fails]

/-- Two blobs referencing each other. -/
def cyclicBlobs : List Op :=
  [.insertBlob firstBlob [1], .insertBlob secondBlob [2], .reference firstBlob secondBlob,
    .reference secondBlob firstBlob]

/-- `Reference` makes two cached blobs each other's child, on a flush-list
that is well formed; `Commit` of either then recurses forever, so that no
fuel lets it return. -/
theorem Commit_cycle_never_returns :
    ∃ db, runAll 4 cyclicBlobs NewDatabase = .ok db ∧ FlushListed db [firstBlob, secondBlob] ∧
      ∀ fuel, db.Commit fuel firstBlob = .error .fuelExhausted := by
  refine ⟨_, rfl, flushListed_pair rfl (by decide) (by decide) (by decide) rfl rfl rfl rfl rfl, fun fuel => ?_⟩
  exact Commit_of_commit_error
    (And.left (commit_loops_on_cycle (a := firstBlob) (b := secondBlob) rfl rfl rfl rfl fuel Batch.empty))

end DirtyCache

end FiscoBcos.Trie
