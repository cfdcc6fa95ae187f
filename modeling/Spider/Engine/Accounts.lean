import Spider.Engine.Presence

/-!
# Spider.Engine.Accounts

Whether the metrics of a `Sync` add up.

`TotalChunks` counts the distinct hashes of the manifest, `DownloadedChunks` the
items of the queue (one per missing hash), but `SkippedChunks` and
`CacheBytesReused` count references: a cached chunk that occurs twice is counted
twice.  `PeerBytes` and `OriginBytes` count what the transfer that brought the
chunk reports as its total; the origin reports what it has read itself, so what
is resumed from a peer's broken transfer is credited to nobody.
-/

namespace Spider

open Conc

/-! ## What transfers report -/

/-- What is assumed of the answers: whether `os.Stat` of a chunk may fail, and whether
every transfer that ends without an error reports the size of the item its worker is
at.  For an empty chunk the partial counts instead, so that has to be empty. -/
def reports (statFails fitting : Bool) : Tid → (c : Cmd) → c.Resp → Node → Bool
  | _, .store (.statChunk _), .failed _, _ => statFails
  | t, .store (.statPartial _), .size n, s =>
      !fitting || (s.job.busy t).all fun work => decide (0 < work.size.toInt ∨ n = 0)
  | t, .net (.openStream addr _ offset), reply, s =>
      !fitting || (s.job.busy t).all fun work =>
        let tr := downloadChunkTo addr offset reply
        tr.err.isSome || decide (tr.total = work.size.toInt)
  | t, .net (.readOrigin _ _ _), reply, s =>
      !fitting || (s.job.busy t).all fun work =>
        reply.err.isSome || decide (reply.total = work.size.toInt)
  | _, _, _, _ => true

/-- What a worker at `work` may hear. -/
abbrev HeardAt (statFails : Bool) (work : WorkItem) (c : Cmd) (r : c.Resp) : Prop :=
  ∃ t s, s.job.busy t = some work ∧ reports statFails true t c r s = true

/-- A download of the item that, if it succeeds, counts its size. -/
abbrev Sized (statFails : Bool) (work : WorkItem) {α : Type} (count : α → Option Int)
    (p : NodeM α) : Prop :=
  p.All (fun c : Cmd => c.transfers = true) (HeardAt statFails work)
    fun r => ∀ n, count r = some n → n = work.size.toInt

/-- The byte count of a download. -/
def byteCount : Except Err Int → Option Int
  | .ok n => some n
  | .error _ => none

section Sized

variable {statFails : Bool} {work : WorkItem} {H : Sha256} {onCommit : OnCommit} {addr : Str}

/-- The partial of an empty chunk is empty. -/
theorem all_partialSize :
    (partialSize work.hash).All (fun c : Cmd => c.transfers = true) (HeardAt statFails work)
      fun n => work.size.toInt ≤ 0 → n = 0 := by
  unfold partialSize
  split
  · exact fun _ => rfl
  · refine Prog.all_call rfl fun r hr => ?_
    cases r with
    | size n =>
        intro hempty
        obtain ⟨t, s, hbusy, hok⟩ := hr
        simp only [reports, hbusy, Option.all_some, Bool.not_true, Bool.false_or,
          decide_eq_true_eq] at hok
        have hn : n = 0 := hok.resolve_left (by omega)
        rw [hn]
        rfl
    | absent => exact fun _ => rfl
    | failed msg => exact fun _ => rfl

variable (hhook : HookTransfers onCommit) (hsize : 0 ≤ work.size.toInt)
include hhook hsize

theorem sized_finishTransfer {total : Int} {fail : Err → Err} (htotal : total = work.size.toInt) :
    Sized statFails work byteCount (finishTransfer H onCommit work.hash total fail) := by
  have hcommit := (@marks_commitPartial H onCommit hhook false work.hash).only
  refine all_partialSize.bind fun got hgot => ?_
  by_cases hshort : total > 0 ∧ got < total
  · simp only [if_pos hshort]
    exact fun _ h => nomatch h
  · simp only [if_neg hshort]
    refine hcommit.all.bind fun res _ => ?_
    cases res with
    | none =>
        intro n hn
        have hn : (if total ≤ 0 then got else total) = n := Option.some.inj hn
        rw [← hn]
        split
        · have hzero := hgot (by omega)
          omega
        · exact htotal
    | some e =>
        by_cases hmis : e.isHashMismatch = true
        · simp only [if_pos hmis]
          exact (only_discardPartial transfers_of_fills).all.bind fun _ _ => fun _ h => nomatch h
        · simp only [if_neg hmis]
          exact fun _ h => nomatch h

omit hhook hsize in
theorem sized_withHashLock {α : Type} {count : α → Option Int} {result : α → Option Err}
    {body : NodeM α} (hbody : Sized statFails work count body) :
    Sized statFails work count (withHashLock work.hash result body) :=
  Prog.all_call rfl fun _ _ => hbody.bind fun _ ha => Prog.all_call rfl fun _ _ => ha

omit hhook hsize in
/-- A transfer without an error reports the size of the item. -/
theorem all_request {src : ChunkSource} {offset : Int} :
    (src.request work offset).All (fun c : Cmd => c.transfers = true) (HeardAt statFails work)
      fun tr => tr.err = none → tr.total = work.size.toInt := by
  cases src with
  | peer addr =>
      refine Prog.all_call rfl fun reply hreply hnone => ?_
      obtain ⟨t, s, hbusy, hok⟩ := hreply
      simpa [reports, hbusy, hnone] using hok
  | origin =>
      refine Prog.all_call rfl fun reply hreply hnone => ?_
      obtain ⟨t, s, hbusy, hok⟩ := hreply
      have hnone : reply.err = none := hnone
      simpa [reports, hbusy, hnone] using hok

theorem sized_download {src : ChunkSource} :
    Sized statFails work byteCount (src.download H onCommit work) := by
  refine sized_withHashLock ?_
  refine (only_partialSize transfers_of_fills).all.bind fun size _ => ?_
  refine (transfers_resumeFrom work.hash size _).all.bind fun offset _ => ?_
  refine all_request.bind fun tr hfits => ?_
  refine (only_appendPartial transfers_of_fills _ tr.err).all.bind fun (appendErr, unread) _ => ?_
  refine Prog.all_call rfl fun _ _ => ?_
  cases htr : tr.err with
  | some e =>
      by_cases hspoils : src.spoils e = true
      · simp only [if_pos hspoils]
        exact (only_discardPartial transfers_of_fills).all.bind fun _ _ => fun _ h => nomatch h
      · simp only [if_neg hspoils]
        exact fun _ h => nomatch h
  | none =>
      cases appendErr with
      | some e => exact fun _ h => nomatch h
      | none => exact sized_finishTransfer hhook hsize (hfits htr)

theorem sized_downloadFromOrigin :
    Sized statFails work byteCount (downloadFromOrigin H onCommit work) := by
  refine Prog.all_call rfl fun acquired _ => ?_
  cases acquired with
  | some deadline => exact fun _ h => nomatch h
  | none =>
      rw [readFromOrigin_eq]
      refine (sized_download hhook hsize).bind fun res hres => ?_
      exact Prog.all_call rfl fun _ _ => hres

theorem sized_tryPeers {addrs : List Str} :
    Sized statFails work id (tryPeers H onCommit work addrs) := by
  induction addrs with
  | nil => exact fun _ h => nomatch h
  | cons addr addrs ih =>
      rw [tryPeers]
      by_cases haddr : addr = []
      · rw [if_pos haddr]
        exact ih
      · rw [if_neg haddr]
        refine Prog.all_call rfl fun begun _ => ?_
        cases begun with
        | false => exact ih
        | true =>
            rw [downloadFromPeer_eq]
            refine (sized_download hhook hsize).bind fun res hres => ?_
            cases res with
            | ok n => exact hres
            | error e => exact ih

/-- What a fetch has counted. -/
def fetchCount : Except Err (Bool × Int) → Option Int
  | .ok (_, n) => some n
  | .error _ => none

theorem sized_fetchAttempts {hasOrigin : Bool} {left : Nat} :
    Sized statFails work fetchCount (fetchAttempts H onCommit hasOrigin work left) := by
  induction left with
  | zero =>
      cases hasOrigin with
      | false => exact fun _ h => nomatch h
      | true =>
          refine (sized_downloadFromOrigin hhook hsize).bind fun res hres => ?_
          cases res with
          | error e => exact fun _ h => nomatch h
          | ok n => exact hres
  | succ left ih =>
      refine Prog.all_call rfl fun cands _ => ?_
      refine (sized_tryPeers hhook hsize).bind fun res hres => ?_
      cases res with
      | some n => exact hres
      | none =>
          by_cases hleft : left = 0
          · simp only [if_pos hleft]
            exact ih
          · simp only [if_neg hleft]
            refine Prog.all_call rfl fun waited _ => ?_
            cases waited with
            | some deadline => exact fun _ h => nomatch h
            | none => exact ih

end Sized

/-- Under the assumption about totals, a credit counts the size of its item. -/
def Credit.fits (fitting : Bool) (k : Credit) : Prop :=
  fitting = true → 0 ≤ k.item.size.toInt → k.n = k.item.size.toInt

theorem earns_reports {H : Sha256} {cfg : EngineConfig} {statFails fitting : Bool} :
    Earns (reports statFails fitting) (Credit.fits fitting) H cfg := by
  intro work
  by_cases hsize : fitting = true ∧ 0 ≤ work.size.toInt
  · obtain ⟨rfl, hsize⟩ := hsize
    refine Prog.All.mono (sized_fetchAttempts cfg.hookTransfers hsize) fun res hres => ?_
    rintro fromPeer got rfl - -
    exact hres got rfl
  · have hmarks := @marks_fetchChunk H _ cfg.hookTransfers false cfg.hasOrigin work cfg.retryAttempts
    refine hmarks.only.all.mono fun res _ fromPeer got _ hfit hpos => ?_
    exact absurd ⟨hfit, hpos⟩ hsize

/-! ## References and hashes -/

/-- The hashes of a list of references. -/
abbrev refHashes (refs : List (Str × ChunkRef)) : List Str := refs.map fun ref => ref.2.hash

/-- Every hash with a reference that the store can serve occurs once in the manifest. -/
def CachedOnce (m : ArtifactManifest) (chunks : AList fun _ : Str => Bytes) : Prop :=
  ∀ ref ∈ chunkRefs m, hasValid chunks ref.2 = true → (refHashes (chunkRefs m)).count ref.2.hash = 1

instance (m : ArtifactManifest) (chunks : AList fun _ : Str => Bytes) :
    Decidable (CachedOnce m chunks) :=
  inferInstanceAs (Decidable (∀ ref ∈ chunkRefs m, _ → _))

/-- The size of a chunk of the manifest, from the first reference to it. -/
def sizeOf (m : ArtifactManifest) (h : Str) : Int :=
  match (chunkRefs m).find? fun ref => ref.2.hash = h with
  | some ref => ref.2.size.toInt
  | none => 0

section Pure

variable {checked : List ((Str × ChunkRef) × Bool)} {h : Str}

/-- The hashes of the references that were found, one for each reference. -/
def foundHashes (checked : List ((Str × ChunkRef) × Bool)) : List Str :=
  (checked.filter (·.2)).map fun p => p.1.2.hash

/-- Those of the missing items. -/
def missingHashes (checked : List ((Str × ChunkRef) × Bool)) : List Str :=
  (missingItems checked []).map WorkItem.hash

theorem mem_foundHashes :
    h ∈ foundHashes checked ↔ ∃ p ∈ checked, p.2 = true ∧ p.1.2.hash = h := by
  simp only [foundHashes, List.mem_map, List.mem_filter, and_assoc]

theorem mem_missingHashes :
    h ∈ missingHashes checked ↔ ∃ p ∈ checked, p.2 = false ∧ p.1.2.hash = h := by
  constructor
  · intro hh
    obtain ⟨it, hit, rfl⟩ := List.mem_map.mp hh
    obtain ⟨p, hp, hmiss, rfl⟩ := (exists_of_mem_missingItems hit).resolve_left (by simp)
    exact ⟨p, hp, hmiss, rfl⟩
  · rintro ⟨p, hp, hmiss, rfl⟩
    exact hash_mem_missingItems hp hmiss

/-- The occurrences of a hash among the references. -/
theorem count_refHashes :
    (refHashes (checked.map Prod.fst)).count h =
      (foundHashes checked).count h +
        ((checked.filter (!·.2)).map fun p => p.1.2.hash).count h := by
  have hsplit := List.filter_append_perm (fun p : (Str × ChunkRef) × Bool => p.2) checked
  have hperm := (hsplit.map fun p => p.1.2.hash).count_eq h
  rw [List.map_append, List.count_append] at hperm
  rw [refHashes, List.map_map]
  exact hperm.symm

theorem count_unfound_eq_zero (hh : h ∉ missingHashes checked) :
    ((checked.filter (!·.2)).map fun p => p.1.2.hash).count h = 0 := by
  refine List.count_eq_zero_of_not_mem fun hmem => hh ?_
  obtain ⟨p, hp, rfl⟩ := List.mem_map.mp hmem
  rw [List.mem_filter] at hp
  exact mem_missingHashes.mpr ⟨p, hp.1, by simpa using hp.2, rfl⟩

/-- No hash is counted twice exactly if every hash that was found occurs once. -/
theorem nodup_counted_iff :
    (foundHashes checked ++ missingHashes checked).Nodup ↔
      ∀ p ∈ checked, p.2 = true → (refHashes (checked.map Prod.fst)).count p.1.2.hash = 1 := by
  constructor
  · intro hnodup p hp hfound
    have hmem : p.1.2.hash ∈ foundHashes checked := mem_foundHashes.mpr ⟨p, hp, hfound, rfl⟩
    have hnot : p.1.2.hash ∉ missingHashes checked := fun hmiss =>
      (List.nodup_append.mp hnodup).2.2 _ hmem _ hmiss rfl
    rw [count_refHashes, count_unfound_eq_zero hnot,
      List.count_eq_one_of_mem hnodup.of_append_left hmem]
  · intro honce
    have hle : ∀ h, h ∈ foundHashes checked → (refHashes (checked.map Prod.fst)).count h = 1 := by
      intro h hh
      obtain ⟨p, hp, hfound, rfl⟩ := mem_foundHashes.mp hh
      exact honce p hp hfound
    refine List.nodup_append.mpr ⟨?_, nodup_missingItems List.nodup_nil, ?_⟩
    · rw [List.nodup_iff_count_le_one]
      intro h
      by_cases hh : h ∈ foundHashes checked
      · have hone := hle h hh
        rw [count_refHashes] at hone
        omega
      · rw [List.count_eq_zero_of_not_mem hh]
        omega
    · rintro h hfound h' hmiss rfl
      have hone := hle h hfound
      have hpos : 0 < (foundHashes checked).count h := List.count_pos_iff.mpr hfound
      obtain ⟨p, hp, hunfound, rfl⟩ := mem_missingHashes.mp hmiss
      have hother : 0 < ((checked.filter (!·.2)).map fun p => p.1.2.hash).count p.1.2.hash := by
        refine List.count_pos_iff.mpr (List.mem_map.mpr ⟨p, List.mem_filter.mpr ⟨hp, ?_⟩, rfl⟩)
        simpa using hunfound
      rw [count_refHashes] at hone
      omega

variable {m : ArtifactManifest} (hrefs : checked.map Prod.fst = chunkRefs m)
include hrefs

theorem mem_counted : h ∈ foundHashes checked ++ missingHashes checked ↔ h ∈ allChunkHashes m := by
  rw [List.mem_append, mem_foundHashes, mem_missingHashes, ← mem_chunkRefs, ← hrefs, List.map_map,
    List.mem_map]
  constructor
  · rintro (⟨p, hp, -, hh⟩ | ⟨p, hp, -, hh⟩) <;> exact ⟨p, hp, hh⟩
  · rintro ⟨p, hp, hh⟩
    cases hv : p.2 with
    | true => exact .inl ⟨p, hp, hv, hh⟩
    | false => exact .inr ⟨p, hp, hv, hh⟩

/-- The counted hashes are as many as the distinct ones exactly if none is counted
twice. -/
theorem length_counted_iff :
    (foundHashes checked).length + (missingHashes checked).length = (allChunkHashes m).length ↔
      (foundHashes checked ++ missingHashes checked).Nodup := by
  rw [← List.length_append]
  have hsub : (allChunkHashes m).Subperm (foundHashes checked ++ missingHashes checked) :=
    (nodup_allChunkHashes m).subperm fun h hh => (mem_counted hrefs).mpr hh
  constructor
  · intro hlen
    exact ((hsub.perm_of_length_le hlen.le).nodup_iff).mp (nodup_allChunkHashes m)
  · intro hnodup
    have hback : (foundHashes checked ++ missingHashes checked).Subperm (allChunkHashes m) :=
      hnodup.subperm fun h hh => (mem_counted hrefs).mp hh
    exact le_antisymm hback.length_le hsub.length_le

theorem sizeOf_found {p : (Str × ChunkRef) × Bool} (hp : p ∈ checked)
    (honce : (refHashes (checked.map Prod.fst)).count p.1.2.hash = 1) :
    sizeOf m p.1.2.hash = p.1.2.size.toInt := by
  rw [hrefs] at honce
  have hmem : p.1 ∈ chunkRefs m := hrefs ▸ List.mem_map_of_mem hp
  have hlen : ((chunkRefs m).filter fun ref => decide (ref.2.hash = p.1.2.hash)).length = 1 := by
    rw [← List.countP_eq_length_filter, ← honce, refHashes, List.count, List.countP_map]
    refine List.countP_congr fun ref _ => ?_
    simp
  obtain ⟨only, honly⟩ := List.length_eq_one_iff.mp hlen
  have hthis : ∀ ref ∈ chunkRefs m, ref.2.hash = p.1.2.hash → ref = only := by
    intro ref href hhash
    have hin : ref ∈ (chunkRefs m).filter fun ref => decide (ref.2.hash = p.1.2.hash) :=
      List.mem_filter.mpr ⟨href, decide_eq_true hhash⟩
    rw [honly] at hin
    exact List.mem_singleton.mp hin
  unfold sizeOf
  cases hfind : (chunkRefs m).find? fun ref => decide (ref.2.hash = p.1.2.hash) with
  | none => exact absurd (decide_eq_true rfl) (List.find?_eq_none.mp hfind p.1 hmem)
  | some ref =>
      have hhash : ref.2.hash = p.1.2.hash := by simpa using List.find?_some hfind
      rw [hthis ref (List.mem_of_find?_eq_some hfind) hhash, hthis p.1 hmem rfl]

theorem sizeOf_missing {it : WorkItem} (hit : it ∈ missingItems checked [])
    (hnot : it.hash ∉ foundHashes checked) : sizeOf m it.hash = it.size.toInt := by
  obtain ⟨-, p, hfind, hitem⟩ := (find_of_mem_missingItems hit).resolve_left (by simp)
  have hsame : checked.find? (fun p => decide (p.1.2.hash = it.hash)) = some p := by
    rw [← hfind, ← List.head?_filter, ← List.head?_filter]
    refine congrArg List.head? (List.filter_congr fun q hq => ?_)
    by_cases hhash : q.1.2.hash = it.hash
    · have hunfound : q.2 = false := by
        by_contra hfound
        exact hnot (mem_foundHashes.mpr ⟨q, hq, by simpa using hfound, hhash⟩)
      simp [hhash, hunfound]
    · simp [hhash]
  have hfirst : (chunkRefs m).find? (fun ref => decide (ref.2.hash = it.hash)) = some p.1 := by
    rw [← hrefs, List.find?_map]
    exact congrArg (Option.map Prod.fst) hsame
  rw [sizeOf, hfirst, hitem]
  rfl

/-- If no hash is counted twice, the found references and the missing items have the
sizes of the distinct chunks. -/
theorem sum_sizes (hnodup : (foundHashes checked ++ missingHashes checked).Nodup) :
    ((checked.filter (·.2)).map fun p => p.1.2.size.toInt).sum +
      ((missingItems checked []).map fun it => it.size.toInt).sum =
      ((allChunkHashes m).map (sizeOf m)).sum := by
  have hperm : (foundHashes checked ++ missingHashes checked).Perm (allChunkHashes m) :=
    (List.perm_ext_iff_of_nodup hnodup (nodup_allChunkHashes m)).mpr fun _ => mem_counted hrefs
  rw [← (hperm.map (sizeOf m)).sum_eq, List.map_append, List.sum_append]
  have honce := nodup_counted_iff.mp hnodup
  have hfound : (foundHashes checked).map (sizeOf m) =
      (checked.filter (·.2)).map fun p => p.1.2.size.toInt := by
    rw [foundHashes, List.map_map]
    refine List.map_congr_left fun p hp => ?_
    obtain ⟨hp, hv⟩ := List.mem_filter.mp hp
    exact sizeOf_found hrefs hp (honce p hp hv)
  have hmissing : (missingHashes checked).map (sizeOf m) =
      (missingItems checked []).map fun it => it.size.toInt := by
    rw [missingHashes, List.map_map]
    refine List.map_congr_left fun it hit => sizeOf_missing hrefs hit fun hmem => ?_
    exact (List.nodup_append.mp hnodup).2.2 _ hmem _ (List.mem_map_of_mem hit) rfl
  rw [hfound, hmissing]

end Pure

variable {checked : List ((Str × ChunkRef) × Bool)}

theorem skipped_countSkips {c : Counters} :
    (countSkips checked c).skippedChunks = c.skippedChunks + (foundHashes checked).length := by
  rw [countSkips, foundHashes, List.length_map]
  generalize checked.filter (·.2) = found
  induction found generalizing c with
  | nil => rfl
  | cons p found ih =>
      rw [List.foldl_cons, ih, List.length_cons]
      simp only [Counters.skip]
      omega

theorem reused_countSkips {c : Counters} :
    (countSkips checked c).cacheBytesReused =
      c.cacheBytesReused + .ofInt ((checked.filter (·.2)).map fun p => p.1.2.size.toInt).sum := by
  rw [countSkips]
  generalize checked.filter (·.2) = found
  induction found generalizing c with
  | nil => simp
  | cons p found ih =>
      rw [List.foldl_cons, ih, List.map_cons, List.sum_cons, Int64.ofInt_add, Int64.ofInt_toInt,
        ← Int64.add_assoc]
      rfl

/-! ## The metrics -/

/-- The bytes reused and received are those of the distinct chunks, as `int64`. -/
def SyncMetrics.BytesAddUp (m : ArtifactManifest) (k : SyncMetrics) : Prop :=
  k.counters.cacheBytesReused + .ofInt (k.counters.peerBytes + k.counters.originBytes) =
    .ofInt ((allChunkHashes m).map (sizeOf m)).sum

/-- Every chunk is skipped or downloaded. -/
def SyncMetrics.ChunksAddUp (k : SyncMetrics) : Prop :=
  k.counters.skippedChunks + k.counters.downloadedChunks = k.totalChunks

/-- Every downloaded chunk is from a peer or the origin. -/
def SyncMetrics.SourcesAddUp (k : SyncMetrics) : Prop :=
  k.counters.downloadedChunks = k.counters.peerChunks + k.counters.originChunks

/-- The sizes of the missing items of a valid manifest. -/
theorem size_nonneg_of_missing {H : Sha256} {J : Marshal} {m : ArtifactManifest}
    (hvalid : validate H J m = .ok ()) (hrefs : checked.map Prod.fst = chunkRefs m) {it : WorkItem}
    (hit : it ∈ missingItems checked []) : 0 ≤ it.size.toInt := by
  obtain ⟨p, hp, -, rfl⟩ := (exists_of_mem_missingItems hit).resolve_left (by simp)
  have hmem : p.1 ∈ chunkRefs m := hrefs ▸ List.mem_map_of_mem hp
  obtain ⟨f, hf, hc⟩ := List.mem_flatMap.mp hmem
  obtain ⟨c, hc, hpc⟩ := List.mem_map.mp hc
  rw [← hpc]
  exact ((validate_eq_ok_iff.mp hvalid).files f hf).size_nonneg c hc

/-- An artifact with the same chunk in two files. -/
def twinManifest : ArtifactManifest :=
  finalize (.numbering [[1, 2]]) (fun _ => []) ⟨1, [], str "twin", str "1", 2, 0,
    [⟨str "f", 2, [], [⟨loneHash, 0, 2⟩]⟩, ⟨str "g", 2, [], [⟨loneHash, 0, 2⟩]⟩]⟩

/-- A node that has the chunk. -/
def stockedNode : Node :=
  { emptyNode with store := { emptyNode.store with
      chunks := AList.insert loneHash [1, 2] ∅ } }

/-- A sync of an artifact by one worker. -/
def accountsStart (m : ArtifactManifest) (s : Node) :
    Config nodeSig (Node × Trail) Tid (Option (Except Err SyncMetrics)) :=
  ⟨(s, ⟨[], []⟩), syncThreads (.numbering [[1, 2]]) (fun _ => [])
    ⟨1, 1, true, true, defaultOptions⟩ m (str "/srv") ⟨100, 50⟩ fun t => if t = 1 then 2 else 0⟩

/-- The sync: `Sync` until the workers are started, the worker to its end, then the
rest. -/
def accountsRun (fitting : Bool) (world : World) (m : ArtifactManifest) (s : Node) :
    Config nodeSig (Node × Trail) Tid (Option (Except Err SyncMetrics)) :=
  (accountsStart m s).play (trailSystem (reports false fitting)) (fun _ c x => world.answer c x.1)
    (List.replicate 10 0 ++ List.replicate 80 1 ++ List.replicate 40 0)

/-- The chunk is downloaded from the origin. -/
def loneAccounts : Config nodeSig (Node × Trail) Tid (Option (Except Err SyncMetrics)) :=
  accountsRun true (.originOnly [(str "f", [1, 2])]) loneManifest emptyNode

/-- A peer that ends its stream after the first byte. -/
def brokenPeer : World where
  candidates _ := [str "10.0.0.2:9000"]
  reply _ _ offset := .stream [⟨2, offset, [1], false⟩] .eof
  files := [(str "f", [1, 2])]

end Spider
