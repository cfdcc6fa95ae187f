import Spider.Cache.Saved
import Spider.Cache.Sections

/-!
# Spider.Cache.Agreement

Index and disk agree whenever nothing is in progress, for any interleaving of
commits, `Pin`, `Unpin` and `MaybeEvict` on a node that opened an index which
was true of the disk (`index_agrees`).
-/

namespace Spider

open Conc

/-! ## Opening the index -/

/-- Whether a response is one of a disk that lists the chunks and whose `stat`
works. -/
def opensCache : (c : Cmd) → c.Resp → Bool
  | .store .listChunks, none => false
  | .store (.statChunk _), .failed _ => false
  | _, _ => true

/-- The entries of the index are true of the files. -/
structure Truthful (files : AList fun _ : Str => Bytes) (i : Index) : Prop where
  exact : ∀ h m b, i.chunks.lookup h = some m → files.lookup h = some b →
    m.size = Int64.ofInt b.length
  backed : Backed i files

variable {files : AList fun _ : Str => Bytes}

theorem truthful_empty : Truthful files Index.empty :=
  ⟨by simp [Index.empty], by simp [Backed, Index.empty]⟩

theorem Truthful.setEntry {i : Index} (ht : Truthful files i) {h : Str} {m : ChunkMeta} {b : Bytes}
    (hb : files.lookup h = some b) (hm : m.size = Int64.ofInt b.length) :
    Truthful files (i.setEntry h m) := by
  refine ⟨fun h' m' b' hm' hb' => ?_, ht.backed.setEntry fun _ => by rw [hb]; rfl⟩
  by_cases hh : h' = h
  · rw [hh, Index.setEntry, AList.lookup_insert, Option.some.injEq] at hm'
    rw [hh, hb, Option.some.injEq] at hb'
    rw [← hm', ← hb', hm]
  · rw [Index.setEntry, AList.lookup_insert_ne hh] at hm'
    exact ht.exact h' m' b' hm' hb'

section Opening

variable {t : Tid} {s : Node} {α : Type} {Q : α → Node → Prop}

theorem post_statChunk {h : Str} {k : Stat → NodeM α}
    (hsize : ∀ b, s.store.chunks.lookup h = some b →
      Post (nodeSystem.restrict opensCache) t Q (k (.size b.length)) s)
    (habsent : s.store.chunks.lookup h = none →
      Post (nodeSystem.restrict opensCache) t Q (k .absent) s) :
    Post (nodeSystem.restrict opensCache) t Q (onStore (.statChunk h) >>= k) s := by
  refine Post.perform fun r s' hx => ?_
  obtain ⟨hok, hx⟩ := System.restrict_eq_some hx
  obtain ⟨y, hpart, rfl⟩ := nodeExec_store hx
  rw [execStore_asks rfl hpart]
  cases r with
  | failed m => contradiction
  | absent =>
      by_cases hnone : s.store.chunks.lookup h = none
      · exact habsent hnone
      · rw [execStore, if_neg hnone] at hpart
        contradiction
  | size n =>
      by_cases hlen : (s.store.chunks.lookup h).map List.length = some n
      · obtain ⟨b, hb, rfl⟩ := Option.map_eq_some_iff.mp hlen
        exact hsize b hb
      · rw [execStore, if_neg hlen] at hpart
        contradiction

/-- `reconcileFromDisk` finds the size of every file it asks for. -/
theorem post_chunkSizeOnDisk {h : Str} {k : Option Int64 → NodeM α} (hh : (parseHash h).isSome = true)
    (hsize : ∀ b, s.store.chunks.lookup h = some b →
      Post (nodeSystem.restrict opensCache) t Q (k (some (Int64.ofInt b.length))) s)
    (habsent : s.store.chunks.lookup h = none →
      Post (nodeSystem.restrict opensCache) t Q (k none) s) :
    Post (nodeSystem.restrict opensCache) t Q (chunkSizeOnDisk h >>= k) s := by
  obtain ⟨hex, hhex⟩ := Option.isSome_iff_exists.mp hh
  simp only [chunkSizeOnDisk, hasChunk, committedChunkSize, hhex]
  rw [Prog.bind_assoc', Prog.bind_assoc']
  refine post_statChunk (fun b hb => ?_) habsent
  simp only [Prog.pure_bind', Bool.not_true, Bool.false_eq_true, if_false]
  refine post_statChunk (fun b hb => hsize b hb) habsent

theorem post_reconcileHashes_truthful {hs : List Str} {now : Int64} {k : Unit → NodeM α}
    (hparse : ∀ h ∈ hs, (parseHash h).isSome = true)
    (ht : Truthful s.store.chunks s.quota.index)
    (hk : ∀ i, Truthful s.store.chunks i →
      (∀ h, (s.quota.index.chunks.lookup h).isSome = true ∨
        h ∈ hs ∧ (s.store.chunks.lookup h).isSome = true → (i.chunks.lookup h).isSome = true) →
      Post (nodeSystem.restrict opensCache) t Q (k ()) (s.withIndex i)) :
    Post (nodeSystem.restrict opensCache) t Q (reconcileHashes now hs >>= k) s := by
  induction hs generalizing s with
  | nil => exact hk s.quota.index ht fun h hh => hh.elim id fun hh => by simp at hh
  | cons h hs ih =>
      have hparse' : ∀ h ∈ hs, (parseHash h).isSome = true := fun h' hh' =>
        hparse h' (List.mem_cons_of_mem h hh')
      -- when this hash needs no entry, the rest of the loop does it
      have hskip (hdone : (s.store.chunks.lookup h).isSome = true →
            (s.quota.index.chunks.lookup h).isSome = true) :
          Post (nodeSystem.restrict opensCache) t Q (reconcileHashes now hs >>= k) s := by
        refine ih hparse' ht fun i hi hall => hk i hi fun h' hh' => hall h' ?_
        rcases hh' with hh' | ⟨hmem, hfile⟩
        · exact .inl hh'
        · cases List.mem_cons.mp hmem with
          | inl he =>
              rw [he] at hfile ⊢
              exact .inl (hdone hfile)
          | inr hmem => exact .inr ⟨hmem, hfile⟩
      rw [reconcileHashes, Prog.bind_assoc']
      refine Post.perform fun idx s1 hget => ?_
      obtain ⟨-, hget⟩ := System.restrict_eq_some hget
      obtain ⟨q, hq, rfl⟩ := nodeExec_quota hget
      by_cases hidx : idx = s.quota.index
      · rw [execQuota, if_pos hidx, Option.some.injEq] at hq
        rw [← hq, hidx]
        by_cases hp : (s.quota.index.chunks.lookup h).isSome = true
        · simp only [if_pos hp]
          exact hskip fun _ => hp
        · simp only [if_neg hp]
          rw [Prog.bind_assoc']
          refine post_chunkSizeOnDisk (hparse h List.mem_cons_self) (fun b hb => ?_) fun hnone => ?_
          · rw [Prog.bind_assoc']
            refine Post.perform fun _ s2 hset => ?_
            obtain ⟨-, hset⟩ := System.restrict_eq_some hset
            obtain ⟨q', hq', rfl⟩ := nodeExec_quota hset
            rw [execQuota, Option.some.injEq] at hq'
            rw [← hq']
            let entry : ChunkMeta := ⟨h, Int64.ofInt b.length, now, 0⟩
            refine @ih (s.withIndex (s.quota.index.setEntry h entry)) hparse' (ht.setEntry hb rfl)
              fun i hi hall => hk i hi fun h' hh' => hall h' ?_
            rcases hh' with hh' | ⟨hmem, hfile⟩
            · exact .inl (isSome_setEntry (.inl hh'))
            · cases List.mem_cons.mp hmem with
              | inl he => exact .inl (isSome_setEntry (.inr he))
              | inr hmem => exact .inr ⟨hmem, hfile⟩
          · refine hskip fun hsome => ?_
            rw [hnone] at hsome
            contradiction
      · rw [execQuota, if_neg hidx] at hq
        contradiction

/-- Index and disk agree. -/
structure IndexAgrees (s : Node) : Prop where
  files : ∀ h b, s.store.chunks.lookup h = some b →
    ∃ m, s.quota.index.chunks.lookup h = some m ∧ m.size = Int64.ofInt b.length
  entries : ∀ h m, s.quota.index.chunks.lookup h = some m → m.size ≠ 0 →
    (s.store.chunks.lookup h).isSome = true

/-- Opening an index whose entries are true of the files. -/
theorem post_newQuotaManager_agrees
    (hnames : ∀ h, (s.store.chunks.lookup h).isSome = true → (parseHash h).isSome = true)
    (hsaved : ∀ i, s.quota.saved = some i → Truthful s.store.chunks i) :
    Post (nodeSystem.restrict opensCache) t
      (fun _ s' => IndexAgrees s' ∧ s'.store = s.store ∧ s'.quota.mu = s.quota.mu) newQuotaManager s := by
  refine Post.perform fun _ s1 hset => Post.perform fun loaded s2 hload => ?_
  obtain ⟨-, hset⟩ := System.restrict_eq_some hset
  obtain ⟨q1, hq1, rfl⟩ := nodeExec_quota hset
  rw [execQuota, Option.some.injEq] at hq1
  obtain ⟨-, hload⟩ := System.restrict_eq_some hload
  obtain ⟨q2, hq2, rfl⟩ := nodeExec_quota hload
  -- what has been loaded is the file, or nothing
  have ht : Truthful s.store.chunks q2.index ∧ q2.mu = s.quota.mu := by
    rw [← hq1] at hq2
    cases loaded with
    | false =>
        rw [execQuota, Option.some.injEq] at hq2
        rw [← hq2]
        exact ⟨truthful_empty, rfl⟩
    | true =>
        cases hfile : s.quota.saved with
        | none => simp [execQuota, hfile] at hq2
        | some i =>
            simp only [execQuota, hfile, Option.some.injEq] at hq2
            rw [← hq2]
            exact ⟨hsaved i hfile, rfl⟩
  refine Post.seq ?_ fun _ _ h => h
  refine Post.perform fun listed s3 hlist => ?_
  obtain ⟨hok, hlist⟩ := System.restrict_eq_some hlist
  obtain ⟨y, hy, rfl⟩ := nodeExec_store hlist
  have hsame := execStore_asks rfl hy
  cases listed with
  | none => contradiction
  | some hashes =>
      have hperm : hashes.Perm s.store.chunks.keys := by
        by_cases hp : hashes.isPerm s.store.chunks.keys = true
        · exact List.isPerm_iff.mp hp
        · rw [execStore, if_neg hp] at hy
          contradiction
      have hmem : ∀ h, h ∈ hashes ↔ (s.store.chunks.lookup h).isSome = true := fun h =>
        hperm.mem_iff.trans AList.lookup_isSome.symm
      refine Post.perform fun now s4 hnow => ?_
      obtain ⟨-, hnow⟩ := System.restrict_eq_some hnow
      obtain ⟨q4, hq4, rfl⟩ := nodeExec_quota hnow
      rw [execQuota, Option.some.injEq] at hq4
      rw [← hq4]
      refine post_reconcileHashes_truthful (fun h hh => hnames h ((hmem h).mp hh)) (by rw [hsame]; exact ht.1)
        fun i hi hall => ?_
      rw [hsame] at hi hall ⊢
      have hagrees : IndexAgrees (({ s with quota := q2 } : Node).withIndex i) := by
        refine ⟨fun h b hb => ?_, hi.backed⟩
        have hsome : (i.chunks.lookup h).isSome = true := by
          have hfile : (s.store.chunks.lookup h).isSome = true := by
            rw [show s.store.chunks.lookup h = some b from hb]
            rfl
          exact hall h (.inr ⟨(hmem h).mpr hfile, hfile⟩)
        obtain ⟨m, hm⟩ := Option.isSome_iff_exists.mp hsome
        exact ⟨m, hm, hi.exact h m b hm hb⟩
      intro r s5 hsave
      obtain ⟨-, hsave⟩ := System.restrict_eq_some hsave
      obtain ⟨q5, hq5, rfl⟩ := nodeExec_quota hsave
      cases r with
      | none | some e =>
          rw [execQuota, Option.some.injEq] at hq5
          rw [← hq5]
          exact ⟨⟨hagrees.files, hagrees.entries⟩, rfl, ht.2⟩

end Opening

/-! ## Used bytes -/

/-- Zeros do not count. -/
theorem wrapSum_filter (acc : Int64) (l : List Int64) :
    wrapSum acc (l.filter fun n => decide (n ≠ 0)) = wrapSum acc l := by
  induction l generalizing acc with
  | nil => rfl
  | cons n l ih =>
      by_cases hn : n = 0
      · rw [List.filter_cons_of_neg (by simp [hn]), ih, hn]
        simp [wrapSum]
      · rw [List.filter_cons_of_pos (by simp [hn])]
        exact ih (acc + n)

/-- The sizes that count, with their hashes. -/
def sizesOf {β : Type} (l : AList fun _ : Str => β) (size : β → Int64) : List (Str × Int64) :=
  (l.entries.map fun e => (e.1, size e.2)).filter fun p => decide (p.2 ≠ 0)

theorem mem_sizesOf {β : Type} {l : AList fun _ : Str => β} {size : β → Int64} {h : Str} {n : Int64} :
    (h, n) ∈ sizesOf l size ↔ ∃ b, l.lookup h = some b ∧ size b = n ∧ n ≠ 0 := by
  have hmem : ∀ b, (⟨h, b⟩ : Sigma fun _ : Str => β) ∈ l.entries ↔ l.lookup h = some b := fun b =>
    AList.mem_lookup_iff.symm
  constructor
  · intro hp
    obtain ⟨hp, hn⟩ := List.mem_filter.mp hp
    obtain ⟨⟨h', b⟩, he, heq⟩ := List.mem_map.mp hp
    obtain ⟨rfl, rfl⟩ := Prod.mk.inj heq
    exact ⟨b, (hmem b).mp he, rfl, by simpa using hn⟩
  · rintro ⟨b, hb, rfl, hn⟩
    exact List.mem_filter.mpr ⟨List.mem_map.mpr ⟨⟨h, b⟩, (hmem b).mpr hb, rfl⟩, by simpa using hn⟩

theorem nodup_sizesOf {β : Type} (l : AList fun _ : Str => β) (size : β → Int64) :
    (sizesOf l size).Nodup := by
  refine List.Nodup.filter _ (List.Nodup.of_map Prod.fst ?_)
  rw [List.map_map]
  exact l.nodupKeys

theorem wrapSum_sizesOf {β : Type} (l : AList fun _ : Str => β) (size : β → Int64) :
    wrapSum 0 ((sizesOf l size).map Prod.snd) = wrapSum 0 (l.entries.map fun e => size e.2) := by
  rw [← wrapSum_filter 0 (l.entries.map fun e => size e.2), sizesOf, List.filter_map,
    List.filter_map, List.map_map]
  rfl

/-- When they agree, `UsedBytes` is `TotalCachedBytes`. -/
theorem IndexAgrees.used_eq {s : Node} (h : IndexAgrees s) : s.quota.index.used = s.store.totalCachedBytes := by
  have hperm : (sizesOf s.quota.index.chunks ChunkMeta.size).Perm
      (sizesOf s.store.chunks fun b => Int64.ofInt b.length) := by
    refine (List.perm_ext_iff_of_nodup (nodup_sizesOf ..) (nodup_sizesOf ..)).mpr fun ⟨x, n⟩ => ?_
    rw [mem_sizesOf, mem_sizesOf]
    constructor
    · rintro ⟨m, hm, rfl, hn⟩
      obtain ⟨b, hb⟩ := Option.isSome_iff_exists.mp (h.entries x m hm hn)
      obtain ⟨m', hm', hsize⟩ := h.files x b hb
      rw [hm, Option.some.injEq] at hm'
      exact ⟨b, hb, by rw [hm', hsize], hn⟩
    · rintro ⟨b, hb, rfl, hn⟩
      obtain ⟨m, hm, hsize⟩ := h.files x b hb
      exact ⟨m, hm, hsize, hn⟩
  have hused := wrapSum_sizesOf s.quota.index.chunks ChunkMeta.size
  have htotal := wrapSum_sizesOf s.store.chunks fun b => Int64.ofInt b.length
  exact hused.symm.trans ((wrapSum_perm (hperm.map Prod.snd)).trans htotal)

/-! ## Any interleaving -/

/-- What the threads do: commits of chunks read from somewhere or already
downloaded, and the operations of the quota manager. -/
inductive CacheOp where
  | put (h : Str) (reads : List Bytes) (fin : Option RemoteErr)
  | commit (h : Str)
  | pin (manifest : ArtifactManifest)
  | unpin (artifactID : Str)
  | maybeEvict

def CacheOp.run (H : Sha256) (w : Watermarks) : CacheOp → NodeM Unit
  | .put h reads fin => do
      let _ ← putChunkFromReader H touchOnCommit h reads fin
      pure ()
  | .commit h => do
      let _ ← withHashLock h id (commitPartial H touchOnCommit h)
      pure ()
  | .pin m => do
      let _ ← Spider.pin m
      pure ()
  | .unpin id => do
      let _ ← Spider.unpin id
      pure ()
  | .maybeEvict => do
      let _ ← Spider.maybeEvict w
      pure ()

/-- One operation per thread; the threads without one have nothing to do. -/
def cacheThreads (H : Sha256) (w : Watermarks) (ops : Tid → Option CacheOp) (t : Tid) : NodeM Unit :=
  match ops t with
  | some op => op.run H w
  | none => pure ()

theorem wp_cacheThreads {H : Sha256} {w : Watermarks} {ops : Tid → Option CacheOp} {t : Tid}
    {x : Node × (Str → Bool)} (hl : Ledger (view x)) (hf : Outside t none (view x)) :
    ledgerProtocol.wp t (fun _ x => Outside t none (view x)) (cacheThreads H w ops t) x := by
  have hdone {α : Type} {p : NodeM α}
      (hp : ledgerProtocol.wp t (fun _ x => Outside t none (view x)) p x) :
      ledgerProtocol.wp t (fun _ x => Outside t none (view x)) (p >>= fun _ => pure ()) x :=
    Protocol.wp_seq hl hp fun _ _ _ hf => wp_outside hf
  unfold cacheThreads
  split
  · rename_i op _
    cases op with
    | put h reads fin => exact hdone (wp_put hf)
    | commit h => exact hdone (wp_commitChunk hf)
    | pin m => exact hdone (wp_pin hf)
    | unpin id => exact hdone (wp_unpin hf)
    | maybeEvict => exact hdone (wp_evict hf)
  · exact wp_outside hf

/-- **Index and disk agree.**  If the entries of `index.json` are true of the
files a process starts with, no chunk is deleted while its hash is locked and no
empty chunk is committed, then whenever each operation has returned or has not
begun, every file has an entry with its size, every entry with a size has a
file, and `UsedBytes` is `TotalCachedBytes`. -/
theorem index_agrees (H : Sha256) (w : Watermarks) (s₀ s₁ : Node)
    (hnames : ∀ h, (s₀.store.chunks.lookup h).isSome = true → (parseHash h).isSome = true)
    (hsaved : ∀ i, s₀.quota.saved = some i → Truthful s₀.store.chunks i)
    (hopen : Runs (nodeSystem.restrict opensCache) 0 newQuotaManager s₀.restarted () s₁)
    (ops : Tid → Option CacheOp) (cfg : Config nodeSig Node Tid Unit)
    (hreach : Reachable steadySystem ⟨s₁, cacheThreads H w ops⟩ cfg)
    (hquiet : ∀ t, cfg.prog t = .ret () ∨ cfg.prog t = cacheThreads H w ops t) :
    (∀ h b, cfg.st.store.chunks.lookup h = some b →
      ∃ m, cfg.st.quota.index.chunks.lookup h = some m ∧ m.size = Int64.ofInt b.length) ∧
    (∀ h m, cfg.st.quota.index.chunks.lookup h = some m → m.size ≠ 0 →
      (cfg.st.store.chunks.lookup h).isSome = true) ∧
    cfg.st.quota.index.used = cfg.st.store.totalCachedBytes := by
  obtain ⟨hagrees, hstore, hmu⟩ := (@post_newQuotaManager_agrees 0 s₀.restarted hnames hsaved).of_runs hopen
  -- with nothing owed, the start is in order and no thread has anything locked
  have hlocks : ∀ h, s₁.store.locks h = none := fun h => by rw [hstore]; rfl
  have hledger : Ledger (view (s₁, fun _ => false)) :=
    ⟨fun h b hb => .inr (hagrees.files h b hb), fun _ => hagrees.entries, by simp [view]⟩
  have hfree : ∀ t, Outside t none (view (s₁, fun _ => false)) := fun t =>
    ⟨by simp [view, hmu, Node.restarted], by simp [view, hlocks], by simp⟩
  obtain ⟨owed, hrec⟩ : ∃ owed, Reachable ledgerSystem
      ⟨(s₁, fun _ => false), cacheThreads H w ops⟩ ⟨(cfg.st, owed), cfg.prog⟩ := hreach.record _
  have hwp : ∀ t, ledgerProtocol.wp t (fun _ x => Outside t none (view x)) (cacheThreads H w ops t)
      (s₁, fun _ => false) := fun t => wp_cacheThreads hledger (hfree t)
  have hend : ∀ t, Outside t none (view (cfg.st, owed)) := by
    intro t
    cases hquiet t with
    | inl h => exact Protocol.post_of_reachable hledger hwp hrec h
    | inr h => exact (hfree t).rely (Protocol.rely_of_unmoved hledger hwp hrec h)
  obtain ⟨hinv, -⟩ := Protocol.sound hledger hwp hrec
  have hmu' : (view (cfg.st, owed)).mu = none := by
    cases hm : (view (cfg.st, owed)).mu with
    | none => rfl
    | some t => exact absurd hm (hend t).mu
  have howed : ∀ h, (view (cfg.st, owed)).owed h = false := by
    intro h
    by_contra ho
    obtain ⟨t, ht⟩ := hinv.owed h (by simpa using ho)
    exact (hend t).owns.locks_ne h ht
  have hfinal : IndexAgrees cfg.st := by
    refine ⟨fun h b hb => ?_, hinv.backed hmu'⟩
    cases hinv.filed h b hb with
    | inl ho => exact absurd ho (by simp [howed h])
    | inr hx => exact hx
  exact ⟨hfinal.files, hfinal.entries, hfinal.used_eq⟩

/-! ### One chunk -/

/-- An index with one entry, of one byte. -/
def oneEntry : Index := ⟨AList.insert zeroHash ⟨zeroHash, 1, 0, 0⟩ ∅, ∅⟩

/-- A node with one chunk, and an index that says so; every content has the
digest zero. -/
def oneChunk : Node :=
  { emptyNode with
    store := { emptyNode.store with chunks := AList.insert zeroHash [1] ∅ }
    quota := ⟨oneEntry, some oneEntry, false, none⟩ }

theorem agrees_oneChunk : IndexAgrees oneChunk := by
  constructor
  · intro h b hb
    by_cases hh : h = zeroHash
    · rw [hh, oneChunk, AList.lookup_insert, Option.some.injEq] at hb
      exact ⟨⟨zeroHash, 1, 0, 0⟩, by rw [hh]; exact AList.lookup_insert .., by rw [← hb]; rfl⟩
    · rw [oneChunk, AList.lookup_insert_ne hh, AList.lookup_empty] at hb
      contradiction
  · intro h m hm _
    by_cases hh : h = zeroHash
    · rw [hh, oneChunk, AList.lookup_insert]
      rfl
    · rw [oneChunk, oneEntry, AList.lookup_insert_ne hh, AList.lookup_empty] at hm
      contradiction

theorem truthful_oneEntry : Truthful oneChunk.store.chunks oneEntry := by
  refine ⟨fun h m b hm hb => ?_, agrees_oneChunk.entries⟩
  obtain ⟨m', hm', hsize⟩ := agrees_oneChunk.files h b hb
  rw [show oneEntry.chunks.lookup h = some m' from hm', Option.some.injEq] at hm
  rw [← hm]
  exact hsize

theorem parseHash_oneChunk (h : Str) (hh : (oneChunk.store.chunks.lookup h).isSome = true) :
    (parseHash h).isSome = true := by
  have hzero : h = zeroHash := by
    by_contra hne
    rw [oneChunk, AList.lookup_insert_ne hne] at hh
    contradiction
  rw [hzero]
  decide +kernel

/-- A process that opened it. -/
def oneOpened : Node :=
  newQuotaManager.finalState (nodeSystem.restrict opensCache) 0 (World.originOnly []).answer
    oneChunk.restarted

/-- One thread puts the chunk again, another one evicts. -/
def putAndEvict (t : Tid) : Option CacheOp :=
  if t = 0 then some (.put zeroHash [[1]] none) else if t = 1 then some .maybeEvict else none

/-- Some steps of the put, the eviction, and the rest of the put. -/
def putAround (M : System nodeSig Node Tid) (n : Nat) : Config nodeSig Node Tid Unit :=
  Config.play M (fun _ c s => (World.originOnly []).answer c s)
    (List.replicate n 0 ++ List.replicate 8 1 ++ List.replicate 19 0)
    ⟨oneOpened, cacheThreads (.numbering []) ⟨0, 0⟩ putAndEvict⟩

theorem quiet_putAround {M : System nodeSig Node Tid} {n : Nat}
    (h0 : ((putAround M n).prog 0).value = some ()) (h1 : ((putAround M n).prog 1).value = some ())
    (t : Tid) : (putAround M n).prog t = .ret () := by
  by_cases ht0 : t = 0
  · rw [ht0]
    exact Prog.eq_ret_of_value h0
  · by_cases ht1 : t = 1
    · rw [ht1]
      exact Prog.eq_ret_of_value h1
    · have hidle : t ∉ List.replicate n 0 ++ List.replicate 8 1 ++ List.replicate 19 0 := by
        simp [List.mem_replicate, ht0, ht1]
      have hnone : putAndEvict t = none := by simp [putAndEvict, ht0, ht1]
      rw [putAround, Config.prog_play hidle]
      simp only [cacheThreads, hnone]
      rfl

/-- An eviction before the put. -/
theorem index_agrees_putAround :
    (putAround steadySystem 0).st.quota.index.used =
      (putAround steadySystem 0).st.store.totalCachedBytes := by
  refine (index_agrees (.numbering []) ⟨0, 0⟩ oneChunk oneOpened parseHash_oneChunk (fun i hi => ?_)
    (runs_finalState (by decide +kernel)) putAndEvict (putAround steadySystem 0)
    Config.reachable_play fun t => .inl ?_).2.2
  · rw [← Option.some.inj hi]
    exact truthful_oneEntry
  · exact quiet_putAround (by decide +kernel) (by decide +kernel) t

/-- An eviction that stops after its first deletion. -/
def evictCut : Config nodeSig Node Tid Unit :=
  Config.play nodeSystem (fun _ c s => (World.originOnly []).answer c s) (List.replicate 4 1)
    ⟨oneOpened, cacheThreads (.numbering []) ⟨0, 0⟩ putAndEvict⟩

/-- The process that starts after it. -/
def reopenedCut : Node :=
  newQuotaManager.finalState (nodeSystem.restrict opensCache) 0 (World.originOnly []).answer
    evictCut.st.restarted

/-- An eviction that stops between the deletion and the save leaves an entry that
the next process keeps; and an eviction between the `stat` and the `Touch` of a
commit leaves an entry without a file. -/
theorem index_disagrees :
    (IndexAgrees oneOpened ∧
      Reachable nodeSystem ⟨oneOpened, cacheThreads (.numbering []) ⟨0, 0⟩ putAndEvict⟩ evictCut ∧
      Runs (nodeSystem.restrict opensCache) 0 newQuotaManager evictCut.st.restarted () reopenedCut ∧
      (reopenedCut.quota.index.entry zeroHash).size = 1 ∧
      reopenedCut.store.chunks.lookup zeroHash = none ∧
      reopenedCut.quota.index.used ≠ reopenedCut.store.totalCachedBytes) ∧
    Reachable nodeSystem ⟨oneOpened, cacheThreads (.numbering []) ⟨0, 0⟩ putAndEvict⟩
      (putAround nodeSystem 12) ∧
    (∀ t, (putAround nodeSystem 12).prog t = .ret ()) ∧
    ((putAround nodeSystem 12).st.quota.index.entry zeroHash).size = 1 ∧
    (putAround nodeSystem 12).st.store.chunks.lookup zeroHash = none ∧
    (putAround nodeSystem 12).st.quota.index.used ≠
      (putAround nodeSystem 12).st.store.totalCachedBytes := by
  have hopened : IndexAgrees oneOpened := by
    have hrun : Runs (nodeSystem.restrict opensCache) 0 newQuotaManager oneChunk.restarted ()
        oneOpened := runs_finalState (by decide +kernel)
    refine ((@post_newQuotaManager_agrees 0 oneChunk.restarted parseHash_oneChunk ?_).of_runs hrun).1
    intro i hi
    rw [← Option.some.inj hi]
    exact truthful_oneEntry
  exact ⟨⟨hopened, Config.reachable_play, runs_finalState (by decide +kernel), by decide +kernel,
      by decide +kernel, by decide +kernel⟩,
    Config.reachable_play, quiet_putAround (by decide +kernel) (by decide +kernel),
    by decide +kernel, by decide +kernel, by decide +kernel⟩

end Spider
