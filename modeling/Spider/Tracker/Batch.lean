import Spider.Tracker.Cached
import Spider.Tracker.Locate
import Spider.Tracker.SQL

/-!
# Spider.Tracker.Batch

Batch lookups and single lookups (`LocateChunkNodesBatch` and `GetPeersBatch` of
`pkg/store/sql.go` and `pkg/store/cached.go`).

The SQL store asks for blocks of 500 keys and appends the rows it gets to the list of
their hash.  A hash that is in several blocks is answered several times, and its list
holds every node once for each (`SQLStore.lookup_locateChunkNodesBatch`).  For peers the
rows are stored under their key, and asking twice does no harm.

The cached store hands the keys it does not know to the store behind it, as one list.  So
its batches are as good as those of that store for these keys (`eval_readBatch`).
-/

namespace Spider

open Conc

/-! ## Blocks -/

theorem flatten_toChunks_go {α : Type} (n : Nat) (xs : List α) (block : Array α)
    (done : Array (List α)) :
    (List.toChunks.go n xs block done).flatten = done.toList.flatten ++ block.toList ++ xs := by
  induction xs generalizing block done with
  | nil => simp [List.toChunks.go]
  | cons x xs ih =>
      rw [List.toChunks.go]
      split
      · rw [ih]
        simp
      · rw [ih]
        simp

/-- The blocks of a list make up the list. -/
theorem flatten_toChunks {α : Type} (n : Nat) (xs : List α) : (xs.toChunks n).flatten = xs := by
  cases xs with
  | nil => cases n <;> rfl
  | cons x xs =>
      cases n with
      | zero => simp [List.toChunks]
      | succ n => simp [List.toChunks, flatten_toChunks_go]

theorem exists_mem_toChunks {α : Type} {n : Nat} {xs : List α} {x : α} :
    (∃ block ∈ xs.toChunks n, x ∈ block) ↔ x ∈ xs := by
  rw [← List.mem_flatten, flatten_toChunks]

section Rows

variable {K V R : Type} [DecidableEq K] {k : K}
variable {key : R → K} {rows : List R} {val : R → V} {out : AList fun _ : K => List V}

/-- Rows stored under their key, where a key determines its row. -/
theorem lookup_foldl_insert {f : K → Option V} (hf : ∀ r ∈ rows, f (key r) = some (val r))
    {out : AList fun _ : K => V} :
    (rows.foldl (fun out r => out.insert (key r) (val r)) out).lookup k =
      if k ∈ rows.map key then f k else out.lookup k := by
  induction rows generalizing out with
  | nil => simp
  | cons r rows ih =>
      obtain ⟨hr, hrows⟩ := List.forall_mem_cons.mp hf
      rw [List.foldl_cons, ih hrows]
      by_cases hk : k = key r
      · subst hk
        simp [hr]
      · simp [hk]

/-- Rows appended to the list of their key, which has been started. -/
theorem lookup_foldl_append {l : List V} (hl : out.lookup k = some l) :
    (rows.foldl (fun out r => out.insert (key r) (((out.lookup (key r)).getD []) ++ [val r]))
      out).lookup k = some (l ++ rows.filterMap fun r => if key r = k then some (val r) else none) := by
  induction rows generalizing out l with
  | nil => simpa using hl
  | cons r rows ih =>
      rw [List.foldl_cons]
      by_cases hk : key r = k
      · rw [hk, hl, ih (AList.lookup_insert ..)]
        simp [hk]
      · rw [ih ((AList.lookup_insert_ne fun h => hk h.symm).trans hl)]
        simp [hk]

theorem lookup_foldl_append_of_notMem (hk : ∀ r ∈ rows, key r ≠ k) :
    (rows.foldl (fun out r => out.insert (key r) (((out.lookup (key r)).getD []) ++ [val r]))
      out).lookup k = out.lookup k := by
  induction rows generalizing out with
  | nil => rfl
  | cons r rows ih =>
      obtain ⟨hr, hrows⟩ := List.forall_mem_cons.mp hk
      rw [List.foldl_cons, ih hrows, AList.lookup_insert_ne fun h => hr h.symm]

end Rows

/-! ## The SQL store -/

/-- In how many blocks of the list a hash is. -/
def blocksWith (hashes : List Str) (h : Str) : Nat :=
  (hashes.toChunks SQLStore.sqlINBatch).countP fun block => decide (h ∈ block)

variable {hashes : List Str}

theorem blocksWith_pos_iff {h : Str} : 0 < blocksWith hashes h ↔ h ∈ hashes := by
  rw [blocksWith, List.countP_pos_iff]
  simp only [decide_eq_true_eq]
  exact exists_mem_toChunks

namespace SQLStore

variable {s : SQLStore} {g g' : Ranging} {h id : Str}
variable {table : AList fun _ : Str × Str => Int}

theorem mem_nodesAt {node : Str} : node ∈ nodesAt g table h ↔ (h, node) ∈ table := by
  rw [nodesAt, List.mem_filterMap]
  constructor
  · rintro ⟨⟨h', node'⟩, hk, hif⟩
    rw [Option.ite_none_right_eq_some, Option.some.injEq] at hif
    obtain ⟨rfl, rfl⟩ := hif
    exact g.mem_order.mp hk
  · intro hk
    exact ⟨(h, node), g.mem_order.mpr hk, by simp⟩

/-- A node is in a table once per key. -/
theorem nodup_nodesAt : (nodesAt g table h).Nodup := by
  have hkeys : (g.order table.keys).Nodup := (g.perm _).nodup_iff.mpr table.keys_nodup
  refine hkeys.filterMap fun k k' node hk hk' => ?_
  rw [Option.mem_def, Option.ite_none_right_eq_some, Option.some.injEq] at hk hk'
  exact Prod.ext (hk.1.trans hk'.1.symm) (hk.2.trans hk'.2.symm)

theorem perm_nodesAt : (nodesAt g table h).Perm (nodesAt g' table h) :=
  ((g.perm _).trans (g'.perm _).symm).filterMap _

/-- What one block adds to the list of a hash. -/
theorem filterMap_block {block : List Str} :
    ((g.order table.keys).filter fun k => decide (k.1 ∈ block)).filterMap
        (fun k => if k.1 = h then some k.2 else none) =
      if h ∈ block then nodesAt g table h else [] := by
  rw [List.filterMap_filter]
  split
  · rename_i hin
    refine List.filterMap_congr fun k _ => ?_
    by_cases hk : k.1 = h
    · simp [hk, hin]
    · simp [hk]
  · rename_i hin
    refine List.filterMap_eq_nil_iff.mpr fun k _ => ?_
    by_cases hk : k.1 = h
    · simp [hk, hin]
    · simp [hk]

/-- The list of a hash has the nodes once for each block the hash is in. -/
theorem lookup_locateChunkNodesBatch {hashes : List Str} :
    (s.locateChunkNodesBatch g hashes).lookup h =
      if h ∈ hashes then
        some (List.replicate (blocksWith hashes h) (nodesAt g s.chunkLocations h)).flatten
      else none := by
  have hstart : (hashes.foldl (fun out h => out.insert h [])
      (∅ : AList fun _ : Str => List Str)).lookup h = if h ∈ hashes then some [] else none :=
    AList.lookup_foldl_collect (f := fun _ => some [])
      (fun _ _ _ hv => by rw [Option.some.inj hv]) (fun _ _ hv => nomatch hv)
  rw [locateChunkNodesBatch]
  simp only [← List.foldl_flatMap]
  split
  · rename_i hmem
    rw [if_pos hmem] at hstart
    rw [lookup_foldl_append hstart, List.nil_append, List.filterMap_flatMap, blocksWith]
    simp only [filterMap_block, Option.some.injEq]
    induction hashes.toChunks sqlINBatch with
    | nil => rfl
    | cons block blocks ih =>
        rw [List.flatMap_cons, ih, List.countP_cons]
        by_cases hin : h ∈ block
        · simp [hin, List.replicate_succ]
        · simp [hin]
  · rename_i hmem
    rw [if_neg hmem] at hstart
    rw [lookup_foldl_append_of_notMem ?_, hstart]
    intro k hk heq
    obtain ⟨block, hblock, hk⟩ := List.mem_flatMap.mp hk
    have hin : h ∈ block := heq ▸ of_decide_eq_true (List.mem_filter.mp hk).2
    exact hmem (exists_mem_toChunks.mp ⟨block, hblock, hin⟩)

theorem lookup_getPeersBatch {ids : List Str} :
    (s.getPeersBatch g ids).lookup id =
      if id ∈ ids then (s.peers.lookup id).map (scanPeer id) else none := by
  rw [getPeersBatch]
  simp only [← List.foldl_flatMap]
  have hrow : ∀ e ∈ s.peers.entries, (s.peers.lookup e.1).map (scanPeer e.1) =
      some (scanPeer e.1 e.2) := by
    intro e he
    rw [AList.mem_lookup_iff.mpr he]
    rfl
  have hrows : ∀ e ∈ (ids.toChunks sqlINBatch).flatMap fun batch =>
      (g.order s.peers.entries).filter fun e => decide (e.1 ∈ batch), e ∈ s.peers.entries := by
    intro e he
    obtain ⟨batch, -, he⟩ := List.mem_flatMap.mp he
    exact g.mem_order.mp (List.mem_filter.mp he).1
  rw [lookup_foldl_insert (f := fun id => (s.peers.lookup id).map (scanPeer id))
    fun e he => hrow e (hrows e he), AList.lookup_empty]
  by_cases hid : id ∈ ids
  · rw [if_pos hid]
    split
    · rfl
    · rename_i hnot
      cases hlook : s.peers.lookup id with
      | none => rfl
      | some r =>
          obtain ⟨batch, hbatch, hin⟩ := exists_mem_toChunks.mpr hid
          have hrow : ⟨id, r⟩ ∈ (g.order s.peers.entries).filter fun e => decide (e.1 ∈ batch) :=
            List.mem_filter.mpr ⟨g.mem_order.mpr (AList.mem_lookup_iff.mp hlook),
              decide_eq_true hin⟩
          refine (hnot (List.mem_map.mpr ⟨⟨id, r⟩, ?_, rfl⟩)).elim
          exact List.mem_flatMap.mpr ⟨batch, hbatch, hrow⟩
  · rw [if_neg hid, if_neg]
    intro hmem
    obtain ⟨e, he, rfl⟩ := List.mem_map.mp hmem
    obtain ⟨batch, hbatch, he⟩ := List.mem_flatMap.mp he
    have hin := of_decide_eq_true (List.mem_filter.mp he).2
    exact hid (exists_mem_toChunks.mp ⟨batch, hbatch, hin⟩)

end SQLStore

/-! ## The cached store -/

/-- A cached store at one moment: the store behind it, and what the cache holds. -/
structure CachedNow (σ : Type) where
  inner : σ
  cached : Key → Option Doc

/-- The commands at this moment: no entry expires or gets lost, and no `Get` fails.  No
lookup comes to the section of `Heartbeat`. -/
def CachedNow.handle {σ : Type} (exec : StoreImpl σ) (now : Time) : Handler cacheSig (CachedNow σ)
  | .inner c, w =>
      ((.ok (exec now c w.inner).1 : Except Str c.Resp), { w with inner := (exec now c w.inner).2 })
  | .get k, w => ((.ok (w.cached k) : Except Str (Option Doc)), w)
  | .set k doc, w => ((), { w with cached := Function.update w.cached k (some doc) })
  | .delete k, w => ((), { w with cached := Function.update w.cached k none })
  | .deletePrefix p, w =>
      ((), { w with cached := fun k => if p.isPrefixOf k.render then none else w.cached k })
  | .now, w => (now, w)
  | .flushDue _, w => (true, w)

section Cached

variable {σ α : Type} {exec : StoreImpl σ} {now : Time} {w : CachedNow σ}

/-- A read of one key. -/
theorem eval_readThrough {k : Key} {c : StoreCall} {decode : Doc → Except Str c.Resp}
    {encode : c.Resp → Option Doc} :
    ((CachedStore.readThrough k decode (callInner c) encode).eval (CachedNow.handle exec now) w).1 =
      match w.cached k with
      | some doc => decode doc
      | none => .ok (exec now c w.inner).1 := by
  have hget : (cacheGet k).eval (CachedNow.handle exec now) w = (.ok (w.cached k), w) := rfl
  have hfill : ((CachedStore.fetchAndFill k (callInner c) encode).eval (CachedNow.handle exec now)
      w).1 = .ok (exec now c w.inner).1 := by
    have hinner : (callInner c).eval (CachedNow.handle exec now) w =
      (.ok (exec now c w.inner).1, { w with inner := (exec now c w.inner).2 }) := rfl
    rw [CachedStore.fetchAndFill, Prog.eval_bind, hinner]
    dsimp only
    cases encode (exec now c w.inner).1 <;> rfl
  rw [CachedStore.readThrough, Prog.eval_bind, hget]
  cases w.cached k with
  | some doc => rfl
  | none => exact hfill

/-- A call that leaves the store behind the cache as it is. -/
theorem eval_callInner {c : StoreCall} (hreads : (exec now c w.inner).2 = w.inner) :
    (callInner c).eval (CachedNow.handle exec now) w = (.ok (exec now c w.inner).1, w) := by
  have hcall : (callInner c).eval (CachedNow.handle exec now) w =
      (.ok (exec now c w.inner).1, { w with inner := (exec now c w.inner).2 }) := rfl
  rw [hcall, hreads]

theorem eval_cacheMGet {ks : List Key} {out : AList fun _ : Key => Doc} :
    (cacheMGet out ks).eval (CachedNow.handle exec now) w =
      (.ok (ks.foldl (fun out k => match w.cached k with
        | some doc => out.insert k doc
        | none => out) out), w) := by
  induction ks generalizing out with
  | nil => rfl
  | cons k ks ih =>
      have hget : (cacheGet k).eval (CachedNow.handle exec now) w = (.ok (w.cached k), w) := rfl
      rw [cacheMGet, Prog.eval_bind, hget, List.foldl_cons]
      cases w.cached k with
      | some doc => exact ih
      | none => exact ih

theorem eval_cacheMSet_fst {items : List (Key × Doc)} {β : Type} {b : β} :
    ((cacheMSet items >>= fun _ => pure b).eval (CachedNow.handle exec now) w).1 = b := by
  rw [Prog.eval_bind, Prog.eval_pure]

/-- A read of several keys: those in the cache as they are there, the others as the store
behind it answers for them. -/
theorem eval_readBatch {ids : List Str} {key : Str → Key} {decode : Doc → Option α}
    {fetch : List Str → CachedM (Except Str (AList fun _ : Str => α))} {encode : α → Doc} {found : List Str → AList fun _ : Str => α}
    (hfetch : ∀ misses, (fetch misses).eval (CachedNow.handle exec now) w = (.ok (found misses), w))
    (hfound : ∀ misses id, id ∉ misses → (found misses).lookup id = none) :
    ∃ out, ((CachedStore.readBatch ids key decode fetch encode).eval
        (CachedNow.handle exec now) w).1 = .ok out ∧
      ∀ id, out.lookup id = if id ∈ ids then
          match w.cached (key id) with
          | some doc => decode doc
          | none => (found (ids.filter fun id => (w.cached (key id)).isNone)).lookup id
        else none := by
  rw [CachedStore.readBatch]
  by_cases hids : ids = []
  · exact ⟨∅, by rw [if_pos hids]; rfl, fun id => by simp [hids]⟩
  · rw [if_neg hids, Prog.eval_bind, eval_cacheMGet]
    generalize hgot : (ids.map key).foldl _ (∅ : AList fun _ : Key => Doc) = got
    have hlook : ∀ id ∈ ids, got.lookup (key id) = w.cached (key id) := by
      intro id hid
      rw [← hgot, AList.lookup_foldl_collect (f := w.cached) (fun _ _ _ hv => by rw [hv])
        (fun _ _ hv => by rw [hv]), if_pos (List.mem_map_of_mem hid)]
    have hmisses : CachedStore.misses got ids key =
        ids.filter fun id => (w.cached (key id)).isNone :=
      List.filter_congr fun id hid => by rw [hlook id hid]
    obtain ⟨hits, hbatch, heq⟩ := CachedStore.completeBatch_eq got ids key decode fetch encode
    dsimp only
    rw [heq, hmisses]
    rw [hmisses] at hbatch
    split
    · rename_i hnone
      refine ⟨hits, rfl, fun id => (hbatch ∅ (fun _ _ => rfl) id).trans ?_⟩
      split
      · rename_i hid
        obtain ⟨d, hd⟩ := CachedStore.exists_of_misses_eq_nil (hmisses.trans hnone) hid
        rw [← hlook id hid, hd]
        rfl
      · rfl
    · rw [Prog.eval_bind, hfetch]
      refine ⟨_, eval_cacheMSet_fst, fun id => ?_⟩
      rw [hbatch _ (hfound _)]
      split
      · rename_i hid
        rw [hlook id hid]
        cases w.cached (key id) <;> rfl
      · rfl

end Cached

/-! ## Batches and single lookups -/

/-- A batch of lists that says what the single lookups say: it has the requested keys and
no others, and each list is the single one in some order. -/
def ListsAlike (batch : Except Str (AList fun _ : Str => List Str))
    (single : Str → Except Str (List Str)) (hashes : List Str) : Prop :=
  ∃ out, batch = .ok out ∧ (∀ h, h ∈ out ↔ h ∈ hashes) ∧
    ∀ h ids, out.lookup h = some ids → ∃ one, single h = .ok one ∧ ids.Perm one

/-- A batch of peers that says what the single lookups say: it has the requested peers that
are there, as they are. -/
def PeersAlike (batch : Except Str (AList fun _ : Str => Peer))
    (single : Str → Except Str (Option Peer)) (nodeIDs : List Str) : Prop :=
  ∃ out, batch = .ok out ∧
    ∀ id, out.lookup id = if id ∈ nodeIDs then (single id).toOption.join else none

/-- No hash that a node holds is in two blocks. -/
def SQLStore.AskedOnce (s : SQLStore) (hashes : List Str) : Prop :=
  ∀ h node, s.Located (.chunk h) node → blocksWith hashes h ≤ 1

section Alike

variable {σ : Type} {exec exec' : StoreImpl σ} {now now' : Time} {w : CachedNow σ}
variable {hashes nodeIDs : List Str}

/-- The hashes that are not in the cache. -/
def CachedNow.missing (w : CachedNow σ) (key : Str → Key) (ids : List Str) : List Str :=
  ids.filter fun id => (w.cached (key id)).isNone

theorem CachedNow.mem_missing {key : Str → Key} {ids : List Str} {id : Str} :
    id ∈ w.missing key ids ↔ id ∈ ids ∧ w.cached (key id) = none := by
  simp [CachedNow.missing]

/-- The lists of the cached store are those of the store behind it for the missing
hashes. -/
theorem listsAlike_cached_iff
    (hreads : ∀ misses, (exec now (.locateChunkNodesBatch misses) w.inner).2 = w.inner)
    (hkeys : ∀ misses h, h ∈ (exec now (.locateChunkNodesBatch misses) w.inner).1 ↔ h ∈ misses) :
    ListsAlike
        ((CachedStore.locateChunkNodesBatch hashes).eval (CachedNow.handle exec now) w).1
        (fun h => ((CachedStore.locateChunkNodes h).eval (CachedNow.handle exec' now') w).1) hashes ↔
      ListsAlike (.ok (exec now (.locateChunkNodesBatch (w.missing .chunks hashes)) w.inner).1)
        (fun h => .ok (exec' now' (.locateChunkNodes h) w.inner).1) (w.missing .chunks hashes) := by
  obtain ⟨out, hout, hlook⟩ := @eval_readBatch σ (List Str) exec now w hashes .chunks
    (fun doc => some (unmarshalStrings doc)) (fun misses => callInner (.locateChunkNodesBatch misses))
    marshalStrings (fun misses => (exec now (.locateChunkNodesBatch misses) w.inner).1)
    (fun misses => eval_callInner (hreads misses))
    fun misses h hh => AList.lookup_eq_none.mpr fun hmem => hh ((hkeys misses h).mp hmem)
  have hsingle : ∀ h, ((CachedStore.locateChunkNodes h).eval (CachedNow.handle exec' now') w).1 =
      match w.cached (.chunks h) with
      | some doc => .ok (unmarshalStrings doc)
      | none => .ok (exec' now' (.locateChunkNodes h) w.inner).1 :=
    fun h => @eval_readThrough σ exec' now' w (.chunks h) (.locateChunkNodes h)
      (fun doc => .ok (unmarshalStrings doc)) _
  have hmissed : ∀ h, h ∈ w.missing .chunks hashes → out.lookup h =
      (exec now (.locateChunkNodesBatch (w.missing .chunks hashes)) w.inner).1.lookup h := by
    intro h hh
    obtain ⟨hmem, hnone⟩ := w.mem_missing.mp hh
    rw [hlook, if_pos hmem, hnone]
    rfl
  constructor
  · rintro ⟨out', hout', -, hlists⟩
    obtain rfl : out = out' := Except.ok.inj (hout.symm.trans hout')
    refine ⟨_, rfl, fun h => hkeys _ h, fun h ids hids => ?_⟩
    have hmem : h ∈ w.missing .chunks hashes :=
      (hkeys _ h).mp (AList.lookup_isSome.mp (by rw [hids]; rfl))
    obtain ⟨one, hone, hperm⟩ := hlists h ids ((hmissed h hmem).trans hids)
    simp only [hsingle, (w.mem_missing.mp hmem).2] at hone
    exact ⟨one, hone, hperm⟩
  · rintro ⟨found, hfound, -, hlists⟩
    obtain rfl := Except.ok.inj hfound
    refine ⟨out, hout, fun h => ?_, fun h ids hids => ?_⟩
    · rw [← AList.lookup_isSome]
      by_cases hmem : h ∈ hashes
      · refine iff_of_true ?_ hmem
        cases hk : w.cached (.chunks h) with
        | some doc => simp [hlook, hmem, hk]
        | none =>
            have hmiss := w.mem_missing.mpr ⟨hmem, hk⟩
            rw [hmissed h hmiss]
            exact AList.lookup_isSome.mpr ((hkeys _ h).mpr hmiss)
      · simp [hlook, hmem]
    · by_cases hmem : h ∈ hashes
      · cases hk : w.cached (.chunks h) with
        | some doc =>
            rw [hlook, if_pos hmem, hk] at hids
            obtain rfl := Option.some.inj hids
            exact ⟨_, by simp only [hsingle, hk], .refl _⟩
        | none =>
            rw [hmissed h (w.mem_missing.mpr ⟨hmem, hk⟩)] at hids
            obtain ⟨one, hone, hperm⟩ := hlists h ids hids
            exact ⟨one, by simp only [hsingle, hk, hone], hperm⟩
      · rw [hlook, if_neg hmem] at hids
        contradiction

/-- The peers of the cached store, if those of the store behind it are right. -/
theorem peersAlike_cached
    (hreads : ∀ misses, (exec now (.getPeersBatch misses) w.inner).2 = w.inner)
    (hinner : ∀ misses id, (exec now (.getPeersBatch misses) w.inner).1.lookup id =
      if id ∈ misses then (exec' now' (.getPeer id) w.inner).1 else none) :
    PeersAlike ((CachedStore.getPeersBatch nodeIDs).eval (CachedNow.handle exec now) w).1
      (fun id => ((CachedStore.getPeer id).eval (CachedNow.handle exec' now') w).1) nodeIDs := by
  obtain ⟨out, hout, hlook⟩ := @eval_readBatch σ Peer exec now w nodeIDs .peer
    (fun doc => (unmarshalPeer doc).toOption) (fun misses => callInner (.getPeersBatch misses))
    marshalPeer (fun misses => (exec now (.getPeersBatch misses) w.inner).1)
    (fun misses => eval_callInner (hreads misses))
    fun misses id hid => by rw [hinner, if_neg hid]
  have hsingle : ∀ id, ((CachedStore.getPeer id).eval (CachedNow.handle exec' now') w).1 =
      match w.cached (.peer id) with
      | some doc => (unmarshalPeer doc).map some
      | none => .ok (exec' now' (.getPeer id) w.inner).1 :=
    fun id => @eval_readThrough σ exec' now' w (.peer id) (.getPeer id)
      (fun doc => (unmarshalPeer doc).map some) _
  refine ⟨out, hout, fun id => ?_⟩
  rw [hlook]
  by_cases hmem : id ∈ nodeIDs
  · simp only [hsingle, if_pos hmem]
    cases hk : w.cached (.peer id) with
    | some doc =>
        dsimp only
        cases unmarshalPeer doc <;> rfl
    | none =>
        have hmiss : id ∈ w.missing .peer nodeIDs := w.mem_missing.mpr ⟨hmem, hk⟩
        exact (hinner _ id).trans (if_pos hmiss)
  · rw [if_neg hmem, if_neg hmem]

end Alike

theorem SQLStore.mem_locateChunkNodesBatch {s : SQLStore} {g : Ranging} {h : Str} :
    h ∈ s.locateChunkNodesBatch g hashes ↔ h ∈ hashes := by
  rw [← AList.lookup_isSome, SQLStore.lookup_locateChunkNodesBatch]
  by_cases hmem : h ∈ hashes <;> simp [hmem]

theorem mem_locateChunkNodesBatch {m : Memory} {g : Ranging} {h : Str} :
    h ∈ m.locateChunkNodesBatch g hashes ↔ h ∈ hashes := by
  rw [← AList.lookup_isSome, lookup_locateChunkNodesBatch]
  by_cases hmem : h ∈ hashes <;> simp [hmem]

/-- The SQL store's lists are right exactly if it asks for no held hash twice. -/
theorem SQLStore.listsAlike_iff {s : SQLStore} {g g' : Ranging} :
    ListsAlike (.ok (s.locateChunkNodesBatch g hashes))
        (fun h => .ok (nodesAt g' s.chunkLocations h)) hashes ↔ s.AskedOnce hashes := by
  constructor
  · rintro ⟨out, hout, -, hlists⟩ h node hnode
    obtain rfl := Except.ok.inj hout
    by_cases hmem : h ∈ hashes
    · obtain ⟨one, hone, hperm⟩ := hlists h _
        (by rw [lookup_locateChunkNodesBatch, if_pos hmem])
      obtain rfl := Except.ok.inj hone
      have horder : (nodesAt g' s.chunkLocations h).Perm (nodesAt g s.chunkLocations h) :=
        perm_nodesAt
      have hlen := (hperm.trans horder).length_eq
      rw [List.length_flatten, List.map_replicate, List.sum_replicate_nat] at hlen
      have hpos : 0 < (nodesAt g s.chunkLocations h).length :=
        List.length_pos_of_mem (mem_nodesAt.mpr hnode)
      have hone : blocksWith hashes h = 1 := Nat.eq_of_mul_eq_mul_right hpos (by omega)
      omega
    · have hzero := mt blocksWith_pos_iff.mp hmem
      omega
  · intro honce
    refine ⟨_, rfl, fun h => mem_locateChunkNodesBatch, fun h ids hids => ⟨_, rfl, ?_⟩⟩
    rw [lookup_locateChunkNodesBatch, Option.ite_none_right_eq_some, Option.some.injEq] at hids
    obtain ⟨hmem, rfl⟩ := hids
    have hperm : (nodesAt g s.chunkLocations h).Perm (nodesAt g' s.chunkLocations h) := perm_nodesAt
    refine List.Perm.trans ?_ hperm
    cases hnodes : nodesAt g s.chunkLocations h with
    | nil => simp
    | cons node rest =>
        have hnode : s.Located (.chunk h) node :=
          mem_nodesAt.mp (hnodes ▸ List.mem_cons_self : node ∈ nodesAt g s.chunkLocations h)
        have hle := honce h node hnode
        have hpos := blocksWith_pos_iff.mpr hmem
        have hone : blocksWith hashes h = 1 := by omega
        simp [hone]

/-- **Batch lookups.**  For every SQL store and every list of hashes, the batch gives each
hash the nodes of the single lookup, none of them twice, exactly if no hash that a node
holds is in two blocks of 500; and the cached store over it does so exactly if that is so
for the hashes that are not in the cache.  The batches of peers, and the cached store over
the memory store, agree with the single lookups for every list. -/
theorem batch_lookups_iff (g g' : Ranging) (now now' : Time) (s : SQLStore) (m : Memory)
    (cached : Key → Option Doc) (hashes nodeIDs : List Str) :
    ((ListsAlike (.ok (SQLStore.exec g now (.locateChunkNodesBatch hashes) s).1)
          (fun h => .ok (SQLStore.exec g' now' (.locateChunkNodes h) s).1) hashes ∧
        ∀ h ids, (SQLStore.exec g now (.locateChunkNodesBatch hashes) s).1.lookup h = some ids →
          ids.Nodup) ↔ s.AskedOnce hashes) ∧
    PeersAlike (.ok (SQLStore.exec g now (.getPeersBatch nodeIDs) s).1)
      (fun id => .ok (SQLStore.exec g' now' (.getPeer id) s).1) nodeIDs ∧
    (ListsAlike
        ((CachedStore.locateChunkNodesBatch hashes).eval (CachedNow.handle (SQLStore.exec g) now)
          ⟨s, cached⟩).1
        (fun h => ((CachedStore.locateChunkNodes h).eval
          (CachedNow.handle (SQLStore.exec g') now') ⟨s, cached⟩).1) hashes ↔
      s.AskedOnce (hashes.filter fun h => (cached (.chunks h)).isNone)) ∧
    PeersAlike
      ((CachedStore.getPeersBatch nodeIDs).eval (CachedNow.handle (SQLStore.exec g) now)
        ⟨s, cached⟩).1
      (fun id => ((CachedStore.getPeer id).eval (CachedNow.handle (SQLStore.exec g') now')
        ⟨s, cached⟩).1) nodeIDs ∧
    ListsAlike
      ((CachedStore.locateChunkNodesBatch hashes).eval (CachedNow.handle (Memory.exec g) now)
        ⟨m, cached⟩).1
      (fun h => ((CachedStore.locateChunkNodes h).eval (CachedNow.handle (Memory.exec g') now')
        ⟨m, cached⟩).1) hashes ∧
    PeersAlike
      ((CachedStore.getPeersBatch nodeIDs).eval (CachedNow.handle (Memory.exec g) now)
        ⟨m, cached⟩).1
      (fun id => ((CachedStore.getPeer id).eval (CachedNow.handle (Memory.exec g') now')
        ⟨m, cached⟩).1) nodeIDs := by
  refine ⟨⟨fun h => SQLStore.listsAlike_iff.mp h.1, fun h => ?_⟩, ?_, ?_, ?_, ?_, ?_⟩
  · have hlists : ListsAlike (.ok (s.locateChunkNodesBatch g hashes))
        (fun h => .ok (SQLStore.nodesAt g' s.chunkLocations h)) hashes :=
      SQLStore.listsAlike_iff.mpr h
    refine ⟨hlists, fun h ids hids => ?_⟩
    obtain ⟨out, hout, -, hperm⟩ := hlists
    obtain rfl := Except.ok.inj hout
    obtain ⟨one, hone, hperm⟩ := hperm h ids hids
    obtain rfl := Except.ok.inj hone
    exact hperm.nodup_iff.mpr SQLStore.nodup_nodesAt
  · exact ⟨_, rfl, fun id => SQLStore.lookup_getPeersBatch⟩
  · exact (listsAlike_cached_iff (fun _ => rfl) fun _ _ => SQLStore.mem_locateChunkNodesBatch).trans
      SQLStore.listsAlike_iff
  · exact peersAlike_cached (fun _ => rfl) fun _ _ => SQLStore.lookup_getPeersBatch
  · refine (listsAlike_cached_iff (fun _ => rfl) fun misses h => ?_).mpr
      ⟨_, rfl, fun h => ?_, fun h ids hids => ⟨_, rfl, ?_⟩⟩
    · exact mem_locateChunkNodesBatch
    · exact mem_locateChunkNodesBatch
    · rw [Memory.exec, lookup_locateChunkNodesBatch, Option.ite_none_right_eq_some,
        Option.some.injEq] at hids
      obtain ⟨-, rfl⟩ := hids
      exact (g.perm _).trans (g'.perm _).symm
  · exact peersAlike_cached (fun _ => rfl) fun _ _ => lookup_getPeersBatch

/-- A hash asked for 501 times is in two blocks, and its one node is listed twice. -/
theorem batch_lists_node_twice :
    let s := SQLStore.new.reportChunks 0 (str "n") [str "h"]
    (SQLStore.exec .plain 0 (.locateChunkNodes (str "h")) s).1 = [str "n"] ∧
      (SQLStore.exec .plain 0 (.locateChunkNodesBatch (List.replicate 501 (str "h"))) s).1.lookup
        (str "h") = some [str "n", str "n"] := by
  have hblocks : blocksWith (List.replicate 501 (str "h")) (str "h") = 2 := by decide +kernel
  refine ⟨by decide +kernel, ?_⟩
  decide +kernel

end Spider
