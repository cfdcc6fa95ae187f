import Spider.Engine.Handout

/-!
# Spider.Engine.Stock

What a sync finds missing, and what it has when it succeeds.

The inventory asks for every reference of the manifest whether its chunk is in
the store; a hash is missing once one of its references has not been found
(`missingItems`), while every reference that has been found is counted
(`countSkips`).  A `Sync` that returns metrics has handed out and credited the
missing items, each once, and all chunks of the manifest are in the store
(`SyncEnds`).  Evictions may run beside it as long as they spare these chunks.
-/

namespace Spider

open Conc

/-! ## The inventory -/

/-- What `HasValidCommittedChunk` finds out about a reference when nothing fails. -/
def hasValid (chunks : AList fun _ : Str => Bytes) (c : ChunkRef) : Bool :=
  (parseHash c.hash).isSome &&
    match chunks.lookup c.hash with
    | none => false
    | some b => decide (c.size.toInt ≤ 0 ∨ (b.length : Int) = c.size.toInt)

/-- `os.Stat` of a chunk does not fail. -/
def StatWorks (ok : Tid → (c : Cmd) → c.Resp → Node → Bool) : Prop :=
  ∀ t h msg s, ok t (.store (.statChunk h)) (.failed msg) s = false

/-- The item of a reference. -/
def itemOf (ref : Str × ChunkRef) : WorkItem := ⟨ref.2.hash, ref.1, ref.2.offset, ref.2.size⟩

/-- The missing items, from the references and what was found out about each. -/
def missingItems : List ((Str × ChunkRef) × Bool) → List WorkItem → List WorkItem
  | [], missing => missing
  | (ref, valid) :: rest, missing =>
      if valid then missingItems rest missing
      else if ref.2.hash ∈ missing.map WorkItem.hash then missingItems rest missing
      else missingItems rest (missing ++ [itemOf ref])

/-- The counters after the references that were found. -/
def countSkips (checked : List ((Str × ChunkRef) × Bool)) (c : Counters) : Counters :=
  (checked.filter (·.2)).foldl (fun c p => c.skip p.1.2.size) c

/-- What may be found out about the references of a manifest with these chunks in the
store: a chunk may be overlooked if `os.Stat` fails, but none is made up. -/
structure Checked (ok : Tid → (c : Cmd) → c.Resp → Node → Bool)
    (chunks : AList fun _ : Str => Bytes) (refs : List (Str × ChunkRef))
    (checked : List ((Str × ChunkRef) × Bool)) : Prop where
  refs : checked.map Prod.fst = refs
  valid : ∀ p ∈ checked, p.2 = true → hasValid chunks p.1.2 = true
  exact : StatWorks ok → ∀ p ∈ checked, p.2 = hasValid chunks p.1.2

/-- The sync has not started its workers, and these are the chunks and counters. -/
structure Quiet (K : Terms) (chunks : AList fun _ : Str => Bytes) (c : Counters)
    (x : Node × Trail) : Prop where
  items : x.1.job.items = []
  running : x.1.job.running = []
  err : x.1.job.downloadErr = none
  chunks : ∀ h ∈ K.hashes, x.1.store.chunks.lookup h = chunks.lookup h
  counters : x.1.job.counters = c

section Inventory

variable {ok : Tid → (c : Cmd) → c.Resp → Node → Bool} {K : Terms} {x x' : Node × Trail}
variable {chunks : AList fun _ : Str => Bytes} {cnt : Counters}

theorem Quiet.rely (h : Quiet K chunks cnt x) (hr : TrailRely K 0 x x') : Quiet K chunks cnt x' := by
  obtain ⟨hitems, -, -, hrun⟩ := hr.hand.main rfl
  obtain ⟨hrunning, herr, hcounters, -⟩ := hrun h.running
  exact ⟨hitems.trans h.items, hrunning, herr.trans h.err,
    fun c hc => (hr.chunks rfl h.items c hc).trans (h.chunks c hc), hcounters.trans h.counters⟩

/-- The answers to a `stat`. -/
def Stat.Of (ok : Tid → (c : Cmd) → c.Resp → Node → Bool) (chunks : AList fun _ : Str => Bytes)
    (h : Str) : Stat → Prop
  | .size n => ∃ b, chunks.lookup h = some b ∧ b.length = n
  | .absent => chunks.lookup h = none
  | .failed _ => ¬ StatWorks ok

theorem wp_trailStat {α : Type} {Q : α → Node × Trail → Prop} {h : Str} {k : Stat → NodeM α}
    (hh : h ∈ K.hashes) (hq : Quiet K chunks cnt x)
    (hk : ∀ r x', Quiet K chunks cnt x' → TrailInv K x' → r.Of ok chunks h →
      (trailProtocol ok K).wp 0 Q (k r) x') :
    (trailProtocol ok K).wp 0 Q (onStore (.statChunk h) >>= k) x := by
  apply Protocol.wp_perform
  intro x1 hr1 _
  have hq1 := hq.rely hr1
  have habout : aboutTrail K 0 (.store (.statChunk h)) x1 := fun hc => nomatch hc
  refine ⟨habout, fun r x2 hx hi2 => hk r x2 (hq1.rely ?_) hi2 ?_⟩
  · refine .of_other ?_ habout hx
    exact fun _ hc => nomatch hc
  · obtain ⟨hok, hexec, -⟩ := trail_eq_some hx
    obtain ⟨y, hpart, -⟩ := nodeExec_store hexec
    have hchunks := hq1.chunks h hh
    cases r with
    | size n =>
        simp only [execStore, Option.ite_none_right_eq_some] at hpart
        rw [hchunks] at hpart
        exact Option.map_eq_some_iff.mp hpart.1
    | absent =>
        simp only [execStore, Option.ite_none_right_eq_some] at hpart
        rw [hchunks] at hpart
        exact hpart.1
    | failed msg =>
        intro htrue
        rw [htrue 0 h msg x1.1] at hok
        contradiction

theorem wp_trailHas {h : Str} {d : Str} (hparse : parseHash h = some d) (hh : h ∈ K.hashes)
    (hq : Quiet K chunks cnt x) :
    (trailProtocol ok K).wp 0
      (fun found x' => Quiet K chunks cnt x' ∧
        (found = true → (chunks.lookup h).isSome = true) ∧
        (found = false → StatWorks ok → chunks.lookup h = none))
      (hasChunk h) x := by
  unfold hasChunk
  rw [hparse]
  refine wp_trailStat hh hq fun r x1 hq1 _ hr => ?_
  cases r with
  | size n =>
      obtain ⟨b, hb, -⟩ := hr
      exact fun x2 hr2 _ => ⟨hq1.rely hr2, fun _ => by simp [hb], fun h => nomatch h⟩
  | absent => exact fun x2 hr2 _ => ⟨hq1.rely hr2, (fun h => nomatch h), fun _ _ => hr⟩
  | failed msg =>
      exact fun x2 hr2 _ => ⟨hq1.rely hr2, (fun h => nomatch h), fun _ htrue => absurd htrue hr⟩

theorem wp_trailSize {h : Str} {d : Str} (hparse : parseHash h = some d) (hh : h ∈ K.hashes)
    (hq : Quiet K chunks cnt x) :
    (trailProtocol ok K).wp 0
      (fun size x' => Quiet K chunks cnt x' ∧
        (∀ n, size = some n → ∃ b, chunks.lookup h = some b ∧ (b.length : Int) = n) ∧
        (size = none → StatWorks ok → chunks.lookup h = none))
      (committedChunkSize h) x := by
  unfold committedChunkSize
  rw [hparse]
  refine wp_trailStat hh hq fun r x1 hq1 _ hr => ?_
  cases r with
  | size n =>
      obtain ⟨b, hb, hlen⟩ := hr
      refine fun x2 hr2 _ => ⟨hq1.rely hr2, ?_, fun h => nomatch h⟩
      rintro n' ⟨⟩
      exact ⟨b, hb, by rw [hlen]⟩
  | absent => exact fun x2 hr2 _ => ⟨hq1.rely hr2, (fun _ h => nomatch h), fun _ _ => hr⟩
  | failed msg =>
      exact fun x2 hr2 _ => ⟨hq1.rely hr2, (fun _ h => nomatch h), fun _ htrue => absurd htrue hr⟩

theorem hasValid_of_parse {c : ChunkRef} {d : Str} (hparse : parseHash c.hash = some d) :
    hasValid chunks c = true ↔
      ∃ b, chunks.lookup c.hash = some b ∧ (c.size.toInt ≤ 0 ∨ (b.length : Int) = c.size.toInt) := by
  unfold hasValid
  rw [hparse]
  cases chunks.lookup c.hash with
  | none => simp
  | some b => simp

theorem wp_trailValid {c : ChunkRef} (hh : c.hash ∈ K.hashes) (hi : TrailInv K x)
    (hq : Quiet K chunks cnt x) :
    (trailProtocol ok K).wp 0
      (fun valid x' => Quiet K chunks cnt x' ∧ (valid = true → hasValid chunks c = true) ∧
        (StatWorks ok → valid = hasValid chunks c))
      (hasValidCommittedChunk c.hash c.size.toInt) x := by
  unfold hasValidCommittedChunk
  cases hparse : parseHash c.hash with
  | none =>
      have hfalse : hasValid chunks c = false := by simp [hasValid, hparse]
      have hhas : hasChunk c.hash = pure false := by simp [hasChunk, hparse]
      rw [hhas]
      intro x' hr _
      exact ⟨hq.rely hr, (fun h => nomatch h), fun _ => hfalse.symm⟩
  | some d =>
      refine Protocol.wp_seq hi (wp_trailHas hparse hh hq) fun found x1 hi1 ⟨hq1, hyes, hno⟩ => ?_
      have hvalid := @hasValid_of_parse chunks c d hparse
      cases found with
      | false =>
          refine fun x2 hr2 _ => ⟨hq1.rely hr2, (fun h => nomatch h), fun htrue => ?_⟩
          rw [eq_comm, ← Bool.not_eq_true, hvalid, hno rfl htrue]
          simp
      | true =>
          obtain ⟨b, hb⟩ := Option.isSome_iff_exists.mp (hyes rfl)
          by_cases hsize : c.size.toInt ≤ 0
          · have hok : hasValid chunks c = true := hvalid.mpr ⟨b, hb, .inl hsize⟩
            simp only [Bool.not_true, Bool.false_eq_true, if_false, if_pos hsize]
            exact fun x2 hr2 _ => ⟨hq1.rely hr2, fun _ => hok, fun _ => hok.symm⟩
          · simp only [Bool.not_true, Bool.false_eq_true, if_false, if_neg hsize]
            refine Protocol.wp_seq hi1 (wp_trailSize hparse hh hq1) fun size x2 _ ⟨hq2, hsome, hnone⟩ => ?_
            cases size with
            | none =>
                refine fun x3 hr3 _ => ⟨hq2.rely hr3, (fun h => nomatch h), fun htrue => ?_⟩
                rw [hnone rfl htrue] at hb
                contradiction
            | some n =>
                obtain ⟨b', hb', hlen⟩ := hsome n rfl
                have hiff : hasValid chunks c = true ↔ n = c.size.toInt := by
                  rw [hvalid, hb']
                  simp [hsize, hlen]
                refine fun x3 hr3 _ => ⟨hq2.rely hr3, fun h => ?_, fun _ => ?_⟩
                · exact hiff.mpr (of_decide_eq_true h)
                · rw [Bool.eq_iff_iff, hiff, decide_eq_true_eq]

/-- The inventory goes through the references in order. -/
theorem wp_trailInventory {refs : List (Str × ChunkRef)} {missing : List WorkItem}
    (hrefs : ∀ ref ∈ refs, ref.2.hash ∈ K.hashes) (hi : TrailInv K x) (hq : Quiet K chunks cnt x) :
    (trailProtocol ok K).wp 0
      (fun res x' => ∃ checked, Checked ok chunks refs checked ∧ res = missingItems checked missing ∧
        Quiet K chunks (countSkips checked cnt) x')
      (inventoryChunks refs missing) x := by
  induction refs generalizing missing cnt x with
  | nil => exact fun x' hr _ => ⟨[], ⟨rfl, by simp, by simp⟩, rfl, hq.rely hr⟩
  | cons ref refs ih =>
      obtain ⟨hh, hrest⟩ := List.forall_mem_cons.mp hrefs
      refine Protocol.wp_seq hi (wp_trailValid hh hi hq) fun valid x1 hi1 ⟨hq1, hvalid, hexact⟩ => ?_
      -- what was found out about the first goes in front of the rest
      have hcons : ∀ checked, Checked ok chunks refs checked →
          Checked ok chunks (ref :: refs) ((ref, valid) :: checked) := by
        intro checked hch
        refine ⟨by simp [hch.refs], ?_, fun htrue => ?_⟩
        · exact List.forall_mem_cons.mpr ⟨hvalid, hch.valid⟩
        · exact List.forall_mem_cons.mpr ⟨hexact htrue, hch.exact htrue⟩
      cases valid with
      | true =>
          refine wp_trailJob fun x2 hr2 _ => ⟨rfl, fun r j2 _ hx2 hi2 => ?_⟩
          cases hx2
          have hq2 := hq1.rely hr2
          have hcounters : x2.1.job.counters.skip ref.2.size = cnt.skip ref.2.size := by
            rw [hq2.counters]
          refine Protocol.wp_mono (fun res x' _ hres => ?_)
            (ih hrest hi2 ⟨hq2.items, hq2.running, hq2.err, hq2.chunks, hcounters⟩)
          obtain ⟨checked, hch, hres, hq'⟩ := hres
          exact ⟨_, hcons checked hch, hres, hq'⟩
      | false =>
          simp only [Bool.false_eq_true, if_false]
          split
          · rename_i hmem
            refine Protocol.wp_mono (fun res x' _ hres => ?_) (ih hrest hi1 hq1)
            obtain ⟨checked, hch, hres, hq'⟩ := hres
            refine ⟨_, hcons checked hch, ?_, hq'⟩
            rw [hres, missingItems, if_neg (by simp), if_pos hmem]
          · rename_i hmem
            refine Protocol.wp_mono (fun res x' _ hres => ?_) (ih hrest hi1 hq1)
            obtain ⟨checked, hch, hres, hq'⟩ := hres
            refine ⟨_, hcons checked hch, ?_, hq'⟩
            rw [hres, missingItems, if_neg (by simp), if_neg hmem]
            rfl

end Inventory

/-! ## The missing items -/

section Missing

variable {checked : List ((Str × ChunkRef) × Bool)} {missing : List WorkItem}

theorem nodup_missingItems (hmissing : (missing.map WorkItem.hash).Nodup) :
    ((missingItems checked missing).map WorkItem.hash).Nodup := by
  induction checked generalizing missing with
  | nil => exact hmissing
  | cons p rest ih =>
      rw [missingItems]
      split
      · exact ih hmissing
      · split
        · exact ih hmissing
        · rename_i hnew
          refine ih ?_
          rw [List.map_append, List.nodup_append_comm]
          exact List.nodup_cons.mpr ⟨hnew, hmissing⟩

variable {it : WorkItem}

theorem mem_missingItems_of_mem (h : it ∈ missing) : it ∈ missingItems checked missing := by
  induction checked generalizing missing with
  | nil => exact h
  | cons p rest ih =>
      rw [missingItems]
      split
      · exact ih h
      · split
        · exact ih h
        · exact ih (List.mem_append_left _ h)

/-- A missing item is that of the first reference to its hash that was not found. -/
theorem find_of_mem_missingItems (h : it ∈ missingItems checked missing) :
    it ∈ missing ∨ it.hash ∉ missing.map WorkItem.hash ∧
      ∃ p, checked.find? (fun p => !p.2 && p.1.2.hash = it.hash) = some p ∧ it = itemOf p.1 := by
  induction checked generalizing missing with
  | nil => exact .inl h
  | cons q rest ih =>
      obtain ⟨ref, valid⟩ := q
      rw [missingItems] at h
      cases valid with
      | true =>
          simpa using ih h
      | false =>
          simp only [Bool.false_eq_true, if_false] at h
          split at h
          · rename_i hmem
            refine (ih h).imp_right fun ⟨hnew, p, hp, hit⟩ => ⟨hnew, p, ?_, hit⟩
            have hne : ref.2.hash ≠ it.hash := fun he => hnew (he ▸ hmem)
            simpa [hne] using hp
          · rename_i hfresh
            rcases ih h with hmem | ⟨hnew, p, hp, hit⟩
            · rcases List.mem_append.mp hmem with hold | hlast
              · exact .inl hold
              · obtain rfl := List.mem_singleton.mp hlast
                exact .inr ⟨hfresh, (ref, false), by simp [itemOf], rfl⟩
            · rw [List.map_append, List.mem_append, not_or] at hnew
              have hne : ref.2.hash ≠ it.hash := fun he => hnew.2 (by simp [← he, itemOf])
              exact .inr ⟨hnew.1, p, by simpa [hne] using hp, hit⟩

/-- Every missing item is that of a reference that was not found. -/
theorem exists_of_mem_missingItems (h : it ∈ missingItems checked missing) :
    it ∈ missing ∨ ∃ p ∈ checked, p.2 = false ∧ it = itemOf p.1 := by
  refine (find_of_mem_missingItems h).imp_right fun ⟨_, p, hp, hit⟩ => ?_
  have htest := List.find?_some hp
  exact ⟨p, List.mem_of_find?_eq_some hp, by simpa using (Bool.and_eq_true_iff.mp htest).1, hit⟩

/-- The hash of every reference that was not found is missing. -/
theorem hash_mem_missingItems {p : (Str × ChunkRef) × Bool} (hp : p ∈ checked)
    (hmiss : p.2 = false) : p.1.2.hash ∈ (missingItems checked missing).map WorkItem.hash := by
  induction checked generalizing missing with
  | nil => contradiction
  | cons q rest ih =>
      rw [missingItems]
      cases List.mem_cons.mp hp with
      | inr hrest =>
          split
          · exact ih hrest
          · split
            · exact ih hrest
            · exact ih hrest
      | inl he =>
          subst he
          rw [if_neg (by simp [hmiss])]
          split
          · rename_i hmem
            obtain ⟨it, hit, hhash⟩ := List.mem_map.mp hmem
            exact hhash ▸ List.mem_map_of_mem (mem_missingItems_of_mem hit)
          · refine List.mem_map.mpr ⟨itemOf p.1, mem_missingItems_of_mem ?_, rfl⟩
            exact List.mem_append_right _ List.mem_cons_self

end Missing

/-! ## Evictors -/

/-- Evictions do not find chunks of the terms among the entries they may evict. -/
def SparesHashes (ok : Tid → (c : Cmd) → c.Resp → Node → Bool) (K : Terms) : Prop :=
  ∀ t cands (r : List Candidate) s, ok t (.quota (.orderByAccess cands)) r s = true →
    ∀ c ∈ cands, c.1 ∉ K.hashes

/-- Commands on the quota index, and deletions of other chunks. -/
def Cmd.spares (hashes : List Str) : Cmd → Prop
  | .store (.deleteChunk h) => h ∉ hashes
  | .quota _ => True
  | _ => False

section Evictors

variable {ok : Tid → (c : Cmd) → c.Resp → Node → Bool} {K : Terms} {t : Tid} {x : Node × Trail}
variable {α : Type} {Q : α → Node × Trail → Prop}

theorem wp_spares {p : NodeM α} (hp : p.Only (Cmd.spares K.hashes)) :
    (trailProtocol ok K).wp t (fun _ _ => True) p x := by
  refine Protocol.wp_only (P := trailProtocol ok K) (F := fun _ => True) hp (fun _ _ _ _ => trivial)
    (fun c s hc _ _ => ?_) (fun _ _ _ _ _ _ _ _ => trivial) trivial
  cases c with
  | store c =>
      cases c with
      | deleteChunk h => exact hc
      | _ => exact hc.elim
  | quota c => exact fun h => nomatch h
  | _ => exact hc.elim

theorem wp_trailQuota {c : QuotaCmd} {k : c.Resp → NodeM α}
    (h : ∀ (r : c.Resp) (x' : Node × Trail) q, ok t (.quota c) r x'.1 = true →
      execQuota t c r x'.1.quota = some q →
      (trailProtocol ok K).wp t Q (k r) ({ x'.1 with quota := q }, x'.2)) :
    (trailProtocol ok K).wp t Q (onQuota c >>= k) x := by
  apply Protocol.wp_perform
  intro x' _ _
  refine ⟨(fun hc => nomatch hc), fun r x'' hx _ => ?_⟩
  obtain ⟨hok, hexec, hnote⟩ := trail_eq_some hx
  obtain ⟨q, hpart, hq⟩ := nodeExec_quota hexec
  rw [show x'' = ({ x'.1 with quota := q }, x'.2) from Prod.ext hq hnote]
  exact h r x' q hok hpart

/-- An eviction that is over the watermark has no chunk of the sync in its list. -/
theorem wp_maybeEvict {w : Watermarks} (hok : SparesHashes ok K) :
    (trailProtocol ok K).wp t (fun _ _ => True) (maybeEvict w) x := by
  refine wp_trailQuota fun _ x1 q1 _ _ => wp_trailQuota fun idx x2 q2 _ _ => ?_
  by_cases hused : idx.used < w.high
  · simp only [if_pos hused]
    exact wp_spares (Prog.only_call trivial fun _ => Prog.only_pure _)
  · simp only [if_neg hused]
    refine wp_trailQuota fun order x3 q3 hspare hx => wp_spares ?_
    simp only [execQuota, Option.ite_none_right_eq_some] at hx
    have hperm : order.Perm idx.evictable :=
      List.isPerm_iff.mp (Bool.and_eq_true_iff.mp hx.1).1
    have horder : ∀ c ∈ order, c.1 ∉ K.hashes :=
      fun c hc => hok t _ order x3.1 hspare c (hperm.mem_iff.mp hc)
    refine (only_evictLoop trivial (fun _ => trivial) horder _ _ _).bind fun n => ?_
    exact Prog.only_call trivial fun _ => Prog.only_call trivial fun _ => Prog.only_pure _

theorem wp_evictor {w : Watermarks} {turns : Nat} (hok : SparesHashes ok K ∨ turns = 0)
    (hi : TrailInv K x) : (trailProtocol ok K).wp t (fun _ _ => True) (evictor w turns) x := by
  induction turns generalizing x with
  | zero => exact fun _ _ _ => trivial
  | succ turns ih =>
      have hok : SparesHashes ok K := hok.resolve_right (Nat.succ_ne_zero turns)
      exact Protocol.wp_seq hi (wp_maybeEvict hok) fun _ _ hi' _ => ih (.inl hok) hi'

end Evictors

/-! ## Sync -/

/-- The terms of a sync of a manifest with these chunks in the store. -/
def syncTerms (ok : Tid → (c : Cmd) → c.Resp → Node → Bool) (cfg : EngineConfig)
    (m : ArtifactManifest) (chunks : AList fun _ : Str => Bytes) (good : Credit → Prop) : Terms where
  workers := cfg.workers
  stock items := ∃ checked, Checked ok chunks (chunkRefs m) checked ∧ items = missingItems checked []
  good := good
  errs _ := True
  calm := False
  hashes := allChunkHashes m

/-- What `Sync` knows while its workers run. -/
structure Underway (K : Terms) (missing : List WorkItem) (cnt : Counters) (x : Node × Trail) :
    Prop where
  items : x.1.job.items = missing
  skipped : x.1.job.counters.skippedChunks = cnt.skippedChunks
  reused : x.1.job.counters.cacheBytesReused = cnt.cacheBytesReused
  covered : ∀ h ∈ K.hashes, Committed h x.1 ∨ h ∈ missing.map WorkItem.hash

/-- What `Sync` knows once they have succeeded. -/
structure Downloaded (K : Terms) (missing : List WorkItem) (cnt : Counters) (x : Node × Trail) :
    Prop where
  items : x.1.job.items = missing
  running : x.1.job.running = []
  err : x.1.job.downloadErr = none
  skipped : x.1.job.counters.skippedChunks = cnt.skippedChunks
  reused : x.1.job.counters.cacheBytesReused = cnt.cacheBytesReused
  committed : AllCommitted K.hashes x.1

section Sync

variable {ok : Tid → (c : Cmd) → c.Resp → Node → Bool} {K : Terms} {x x' : Node × Trail}
variable {chunks : AList fun _ : Str => Bytes} {cnt : Counters}
variable {missing : List WorkItem} {H : Sha256} {J : Marshal} {cfg : EngineConfig}
variable {m : ArtifactManifest} {destDir : Str} {good : Credit → Prop}

theorem Underway.rely (h : Underway K missing cnt x) (hr : TrailRely K 0 x x') :
    Underway K missing cnt x' := by
  obtain ⟨hitems, hskip, hreuse, -⟩ := hr.hand.main rfl
  exact ⟨hitems.trans h.items, hskip.trans h.skipped, hreuse.trans h.reused,
    fun c hc => (h.covered c hc).imp_left (hr.committed c hc)⟩

theorem Downloaded.rely (h : Downloaded K missing cnt x) (hr : TrailRely K 0 x x') :
    Downloaded K missing cnt x' := by
  obtain ⟨hitems, hskip, hreuse, hrun⟩ := hr.hand.main rfl
  obtain ⟨hrunning, herr, -, -⟩ := hrun h.running
  exact ⟨hitems.trans h.items, hrunning, herr.trans h.err, hskip.trans h.skipped,
    hreuse.trans h.reused, fun c hc => hr.committed c hc (h.committed c hc)⟩

theorem Underway.settled (h : Underway K missing cnt x) (hi : TrailInv K x)
    (hrun : x.1.job.running = []) (herr : x.1.job.downloadErr = none) :
    Downloaded K missing cnt x := by
  refine ⟨h.items, hrun, herr, h.skipped, h.reused, fun c hc => ?_⟩
  cases h.covered c hc with
  | inl hcomm => exact hcomm
  | inr hmem =>
      obtain ⟨it, hit, rfl⟩ := List.mem_map.mp hmem
      exact hi.all_committed hrun herr it (h.items ▸ hit) hc

/-- What the download comes to. -/
def DownloadEnds (K : Terms) (missing : List WorkItem) (cnt : Counters) (r : Option Err)
    (x : Node × Trail) : Prop :=
  (r = none → Downloaded K missing cnt x) ∧
    ∀ e, r = some e → K.errs e ∧ x.1.job.downloadErr ≠ none

theorem wp_trailLoadErr (hu : Underway K missing cnt x) (hrun : x.1.job.running = []) :
    (trailProtocol ok K).wp 0 (DownloadEnds K missing cnt) (onJob .loadErr) x := by
  intro x1 hr1 hi1
  refine ⟨trivial, fun err x2 hx => ?_⟩
  obtain ⟨j, hpart, rfl⟩ := trail_job hx
  obtain ⟨herr, ⟨⟩⟩ := Option.ite_none_right_eq_some.mp hpart
  refine fun x3 hr3 _ => ⟨fun hnone => ?_, fun e he => ?_⟩
  · have hrun1 := ((hr1.hand.main rfl).2.2.2 hrun).1
    exact ((hu.rely hr1).settled hi1 hrun1 (herr ▸ hnone)).rely hr3
  · have hstored : x1.1.job.downloadErr = some e := herr ▸ he
    exact ⟨hi1.ledgered.known e hstored, hr3.hand.err (by simp [hstored])⟩

theorem wp_trailDownload (hq : Quiet K chunks cnt x) (hworkers : K.workers = cfg.workers)
    (hstock : K.stock missing) (hdistinct : (missing.map WorkItem.hash).Nodup)
    (hcovered : ∀ h ∈ K.hashes, (chunks.lookup h).isSome = true ∨ h ∈ missing.map WorkItem.hash) :
    (trailProtocol ok K).wp 0 (DownloadEnds K missing cnt) (download cfg missing) x := by
  unfold download
  by_cases hmissing : missing = []
  · rw [if_pos hmissing]
    refine fun x' hr _ => ⟨fun _ => ?_, fun e he => nomatch he⟩
    have hq' := hq.rely hr
    refine ⟨hq'.items.trans hmissing.symm, hq'.running, hq'.err, by rw [hq'.counters],
      by rw [hq'.counters], fun h hh => ?_⟩
    have hfound := hcovered h hh
    rw [hmissing] at hfound
    rw [Committed, hq'.chunks h hh]
    exact hfound.resolve_right (by simp)
  · rw [if_neg hmissing]
    refine wp_trailJob fun x1 hr1 _ => ?_
    have hq1 := hq.rely hr1
    refine ⟨⟨rfl, hworkers.symm, cfg.workers_pos, hq1.items, hmissing, hstock, hdistinct⟩,
      fun _ j1 _ hx1 _ => ?_⟩
    cases hx1
    have hu : Underway K missing cnt
        ({ x1.1 with job := { x1.1.job with
            items := missing, queue := missing, running := List.range' 1 cfg.workers } }, x1.2) := by
      refine ⟨rfl, congrArg Counters.skippedChunks hq1.counters,
        congrArg Counters.cacheBytesReused hq1.counters, fun h hh => ?_⟩
      rw [Committed, hq1.chunks h hh]
      exact hcovered h hh
    refine wp_trailJob fun x2 hr2 _ => ⟨rfl, fun _ j2 _ hx2 _ => ?_⟩
    obtain ⟨hrun, ⟨⟩⟩ := Option.ite_none_right_eq_some.mp hx2
    exact wp_trailLoadErr (hu.rely hr2) hrun

theorem aboutTrail_of_finishes {c : Cmd} (hc : c.finishes = true) (h : AllCommitted K.hashes x.1) :
    aboutTrail K 0 c x := by
  cases c with
  | store c =>
      cases c with
      | deleteChunk h => contradiction
      | renamePartial h => contradiction
      | _ => exact fun _ => h
  | job c =>
      cases c with
      | ctxErr => trivial
      | loadCounters => trivial
      | _ => contradiction
  | dest c => exact fun _ => h
  | link h' p => exact fun _ => h
  | quota c => contradiction
  | net c => contradiction

theorem Downloaded.finish {c : Cmd} {r : c.Resp} (h : Downloaded K missing cnt x)
    (hc : c.finishes = true) (hx : (trailSystem ok).exec 0 c r x = some x') :
    Downloaded K missing cnt x' := by
  by_cases hother : ∃ c', c = .job c'
  · obtain ⟨c, rfl⟩ := hother
    obtain ⟨j, hpart, rfl⟩ := trail_job hx
    have hsame : j = x.1.job := by
      cases c with
      | ctxErr | loadCounters => exact execJob_asks hpart (by simp)
      | _ => contradiction
    rw [hsame]
    exact ⟨h.items, h.running, h.err, h.skipped, h.reused, h.committed⟩
  · exact h.rely (.of_other (not_exists.mp hother) (aboutTrail_of_finishes hc h.committed) hx)

theorem wp_trailFinish (hashes : K.hashes = allChunkHashes m) (hi : TrailInv K x)
    (h : Downloaded K missing cnt x) :
    (trailProtocol ok K).wp 0
      (fun res x' => (∀ metrics, res = .ok metrics → Downloaded K missing cnt x' ∧
          metrics = ⟨(allChunkHashes m).length, x'.1.job.counters⟩) ∧
        ∀ e, res = .error e → e.isMissing = false)
      (finishSync H J cfg m destDir) x := by
  have hsave : (saveManifest H J m).Only fun c : Cmd => c.finishes = true :=
    only_saveManifest fun _ => rfl
  have hkeep : ∀ (c : Cmd) (r : c.Resp) (x x' : Node × Trail), c.finishes = true →
      Downloaded K missing cnt x → (trailSystem ok).exec 0 c r x = some x' →
      Downloaded K missing cnt x' ∧ found (allChunkHashes m) c r := by
    intro c r x x' hc hs hx
    exact ⟨hs.finish hc hx, found_of_step (hashes ▸ hs.committed) (trail_eq_some hx).2.1⟩
  have hsaved := Protocol.wp_all (P := trailProtocol ok K) (t := 0) (F := Downloaded K missing cnt)
    hsave.all (fun _ _ hr hs => hs.rely hr)
    (fun c x hc hs _ => aboutTrail_of_finishes hc hs.committed) hkeep h
  refine Protocol.wp_seq hi hsaved fun _ x1 hi1 ⟨h1, _⟩ => ?_
  have hplaced := Protocol.wp_all (P := trailProtocol ok K) (t := 0) (F := Downloaded K missing cnt)
    (@finds_materialize H cfg.opts J m destDir) (fun _ _ hr hs => hs.rely hr)
    (fun c x hc hs _ => aboutTrail_of_finishes hc hs.committed) hkeep h1
  refine Protocol.wp_seq hi1 hplaced fun res x2 _ ⟨h2, hfound⟩ => ?_
  cases res with
  | some e =>
      refine fun _ _ _ => ⟨(fun _ hres => nomatch hres), ?_⟩
      rintro _ ⟨⟩
      exact hfound e rfl
  | none =>
      refine wp_trailJob fun x3 hr3 _ => ⟨trivial, fun counters j3 _ hx3 _ => ?_⟩
      obtain ⟨hcounters, ⟨⟩⟩ := Option.ite_none_right_eq_some.mp hx3
      have h3 := h2.rely hr3
      refine fun x4 hr4 _ => ⟨fun metrics hres => ⟨h3.rely hr4, ?_⟩, fun _ he => nomatch he⟩
      have hsame : x4.1.job.counters = x3.1.job.counters :=
        ((hr4.hand.main rfl).2.2.2 h3.running).2.2.1
      rw [hsame, ← hcounters]
      exact (Except.ok.inj hres).symm

/-- What a `Sync` that succeeds has counted and knows. -/
def SyncEnds (ok : Tid → (c : Cmd) → c.Resp → Node → Bool) (H : Sha256) (J : Marshal)
    (cfg : EngineConfig) (m : ArtifactManifest) (chunks : AList fun _ : Str => Bytes)
    (good : Credit → Prop) (metrics : SyncMetrics) (x : Node × Trail) : Prop :=
  validate H J m = .ok () ∧ ∃ checked, Checked ok chunks (chunkRefs m) checked ∧
    Downloaded (syncTerms ok cfg m chunks good) (missingItems checked [])
      (countSkips checked ⟨0, 0, 0, 0, 0, 0, 0⟩) x ∧
    metrics = ⟨(allChunkHashes m).length, x.1.job.counters⟩

theorem isSome_of_hasValid {c : ChunkRef} (h : hasValid chunks c = true) :
    (chunks.lookup c.hash).isSome = true := by
  unfold hasValid at h
  cases hl : chunks.lookup c.hash with
  | none => simp [hl] at h
  | some b => rfl

/-- After the inventory every chunk of the manifest is in the store or missing. -/
theorem Checked.covered {checked : List ((Str × ChunkRef) × Bool)}
    (hch : Checked ok chunks (chunkRefs m) checked) :
    ∀ h ∈ allChunkHashes m, (chunks.lookup h).isSome = true ∨
      h ∈ (missingItems checked []).map WorkItem.hash := by
  intro h hh
  rw [← mem_chunkRefs, ← hch.refs, List.map_map] at hh
  obtain ⟨p, hp, rfl⟩ := List.mem_map.mp hh
  cases hv : p.2 with
  | true => exact .inl (isSome_of_hasValid (hch.valid p hp hv))
  | false => exact .inr (hash_mem_missingItems hp hv)

theorem wp_trailSync (hi : TrailInv (syncTerms ok cfg m chunks good) x)
    (hq : Quiet (syncTerms ok cfg m chunks good) chunks ⟨0, 0, 0, 0, 0, 0, 0⟩ x) :
    (trailProtocol ok (syncTerms ok cfg m chunks good)).wp 0
      (fun res x' => (∀ metrics, res = .ok metrics → SyncEnds ok H J cfg m chunks good metrics x') ∧
        ∀ e, res = .error e → e.isMissing = true → x'.1.job.downloadErr ≠ none)
      (sync H J cfg m destDir) x := by
  rw [sync]
  cases hvalid : validate H J m with
  | error e =>
      refine fun _ _ _ => ⟨(fun _ hres => nomatch hres), ?_⟩
      rintro _ ⟨⟩ hmissing
      contradiction
  | ok u =>
      have hrefs : ∀ ref ∈ chunkRefs m, ref.2.hash ∈ allChunkHashes m :=
        fun ref href => mem_chunkRefs.mp (List.mem_map_of_mem href)
      refine Protocol.wp_seq hi (wp_trailInventory hrefs hi hq) ?_
      rintro missing x1 hi1 ⟨checked, hch, rfl, hq1⟩
      have hdownload : (trailProtocol ok (syncTerms ok cfg m chunks good)).wp 0 _
          (download cfg (missingItems checked [])) x1 :=
        wp_trailDownload hq1 rfl ⟨checked, hch, rfl⟩ (nodup_missingItems List.nodup_nil) hch.covered
      refine Protocol.wp_seq hi1 hdownload fun res x2 hi2 hends => ?_
      cases res with
      | some e =>
          refine fun x3 hr3 _ => ⟨(fun _ hres => nomatch hres), fun _ _ _ => ?_⟩
          exact hr3.hand.err (hends.2 e rfl).2
      | none =>
          refine Protocol.wp_mono (fun res x3 _ hres => ?_) (wp_trailFinish rfl hi2 (hends.1 rfl))
          refine ⟨fun metrics he => ⟨hvalid, checked, hch, hres.1 metrics he⟩, fun e he hmissing => ?_⟩
          rw [hres.2 e he] at hmissing
          contradiction

/-- The threads of a sync whose chunks evictions spare. -/
theorem wp_trailThreads {w : Watermarks} {turns : Tid → Nat} {t : Tid}
    (hearn : Earns ok good H cfg)
    (hevict : SparesHashes ok (syncTerms ok cfg m x.1.store.chunks good) ∨
      ∀ u, cfg.workers < u → turns u = 0)
    (hi : TrailInv (syncTerms ok cfg m x.1.store.chunks good) x)
    (hjob : x.1.job = .fresh) (htrail : x.2 = ⟨[], []⟩) :
    (trailProtocol ok (syncTerms ok cfg m x.1.store.chunks good)).wp t
      (fun res x' => (∀ metrics, res = some (.ok metrics) →
          SyncEnds ok H J cfg m x.1.store.chunks good metrics x') ∧
        (∀ e, res = some (.error e) → e.isMissing = true → x'.1.job.downloadErr ≠ none) ∧
        (0 < t → t ≤ cfg.workers → x'.1.job.items ≠ [] ∧
          (x'.1.job.items.length < turns t → t ∉ x'.1.job.running)))
      (syncThreads H J cfg m destDir w turns t) x := by
  rw [syncThreads]
  by_cases ht : t = 0
  · rw [if_pos ht, ht]
    have hq : Quiet (syncTerms ok cfg m x.1.store.chunks good) x.1.store.chunks
        ⟨0, 0, 0, 0, 0, 0, 0⟩ x := by
      refine ⟨?_, ?_, ?_, fun _ _ => rfl, ?_⟩ <;> rw [hjob] <;> rfl
    refine Protocol.wp_seq hi (wp_trailSync hi hq) fun res x1 _ hres x2 hr2 _ => ?_
    refine ⟨fun metrics he => ?_, fun e he hmissing => ?_, fun hpos => absurd rfl hpos.ne⟩
    · obtain ⟨hvalid, checked, hch, hsettled, hmetrics⟩ := hres.1 metrics (Option.some.inj he)
      refine ⟨hvalid, checked, hch, hsettled.rely hr2, ?_⟩
      rw [((hr2.hand.main rfl).2.2.2 hsettled.running).2.2.1]
      exact hmetrics
    · exact hr2.hand.err (hres.2 e (Option.some.inj he) hmissing)
  · rw [if_neg ht]
    by_cases hcrew : t ≤ cfg.workers
    · rw [if_pos hcrew]
      have hstaff : Staffed ok (syncTerms ok cfg m x.1.store.chunks good)
          (fetchChunk H cfg.onCommit cfg.retryAttempts cfg.hasOrigin) :=
        staffed_fetchChunk hearn (fun _ => trivial) id
      have hworker := wp_trailWorker hstaff (turns t) ht hcrew hjob htrail
      rw [← workerLoop_eq] at hworker
      refine Protocol.wp_seq hi hworker ?_
      intro _ x1 _ ⟨hitems, hgone⟩ x2 hr2 _
      refine ⟨(fun _ he => nomatch he), (fun _ he => nomatch he), fun _ _ => ?_⟩
      have hsame := hr2.hand.items hitems
      rw [hsame]
      exact ⟨hitems, fun hless => hr2.hand.gone hitems (hgone hless)⟩
    · rw [if_neg hcrew]
      have hturns := hevict.imp_right fun h => h t (Nat.lt_of_not_le hcrew)
      refine Protocol.wp_seq hi (wp_evictor hturns hi) fun _ _ _ _ _ _ _ => ?_
      exact ⟨(fun _ he => nomatch he), (fun _ he => nomatch he), fun _ hle => absurd hle hcrew⟩

end Sync

end Spider
