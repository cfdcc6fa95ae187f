import Spider.Engine.RoundTrip

/-!
# Spider.Engine.Stored

What is in the cache when `Publish` returns (`pkg/engine/publisher.go`).

In `Engine.Publishing` nothing fails.  Here every disk operation may fail, and the
source may fail or end early.  A manifest that `Publish` returns is still a function
of the tree (`treeManifest`), and every chunk with bytes in it has been committed
(`post_publish`): the callback of `ChunkStream` returns the error of `PutChunk`.
The branch for an empty file drops it, so the empty chunk is in the cache for sure
only if it was there before (`publish_stored_iff`).
-/

namespace Spider

open Conc Stream

/-- The entry `Publish` makes for a file when `content` was read of it. -/
def publishedEntry (H : Sha256) (chunkSize : Int64) (info : FileInfo) (content : Bytes) :
    FileEntry :=
  let refs := (chunksOf H chunkSize.toInt.toNat content).map Chunk.ref
  ⟨info.path, info.size, if info.mode = [] then str "0644" else info.mode,
    if refs = [] ∧ info.size = 0 then [⟨computeHash H [], 0, 0⟩] else refs⟩

/-- The manifest of a tree. -/
def treeManifest (H : Sha256) (J : Marshal) (chunkSize : Int64) (name version : Str)
    (tree : List SourceFile) : ArtifactManifest :=
  finalize H J ⟨currentSchema, [], name, version, effectiveChunkSize chunkSize, 0,
    tree.map fun f => publishedEntry H (effectiveChunkSize chunkSize) f.info f.content⟩

/-- Chunks are added, those of `P` only. -/
structure Gains (P : Str → Prop) (s s' : Node) : Prop where
  kept : ∀ h, Committed h s → Committed h s'
  added : ∀ h, Committed h s' → Committed h s ∨ P h

section Gains

variable {P Q : Str → Prop} {s s1 s2 : Node}

theorem Gains.of_store_eq (h : s1.store = s.store) : Gains P s s1 := by
  have hiff : ∀ h, Committed h s1 ↔ Committed h s := fun h' => by rw [Committed, Committed, h]
  exact ⟨fun h' => (hiff h').mpr, fun h' hc => .inl ((hiff h').mp hc)⟩

theorem Gains.trans (h1 : Gains P s s1) (h2 : Gains P s1 s2) : Gains P s s2 where
  kept h hc := h2.kept h (h1.kept h hc)
  added h hc := (h2.added h hc).elim (h1.added h) .inr

theorem Gains.mono (h : Gains P s s1) (hpq : ∀ h, P h → Q h) : Gains Q s s1 :=
  ⟨h.kept, fun h' hc => (h.added h' hc).imp_right (hpq h')⟩

end Gains

/-! ## One chunk -/

section Chunks

variable {H : Sha256} {onCommit : OnCommit} {t : Tid} {s : Node} {h : Str}

theorem QuotaHook.transfers (hhook : QuotaHook t onCommit) : HookTransfers onCommit := by
  intro hook hsome h n
  refine (hhook.quota hook hsome h n).mono ?_
  rintro c ⟨q, rfl⟩
  rfl

/-- A program on chunk `h`, with what its result says about the chunk. -/
theorem post_shows {α : Type} {p : NodeM α} {R : Bool → α → Prop} (hp : Shows h R false p)
    (honly : p.Only fun c : Cmd => c.puts h = true) :
    Post nodeSystem t
      (fun a s' => Gains (· = h) s s' ∧ ∃ d, (d = true → Committed h s') ∧ R d a) p s := by
  have hspare : ∀ (c : Cmd) (h' : Str), c.transfers = true → c ≠ .store (.deleteChunk h') := by
    rintro c h' hc rfl
    contradiction
  have hkept : Post nodeSystem t (fun _ s' => ∀ h', Committed h' s → Committed h' s') p s :=
    hp.only.post (fun c r x x' hc hx hexec h' hs => committed_kept (hspare c h' hc) hexec (hx h' hs))
      fun _ hs => hs
  have helse : Post nodeSystem t (fun _ => ElsewhereKept h s) p s :=
    honly.post (fun c r _ _ hc hF hx => hF.step hc hx) ⟨fun _ _ => rfl, fun _ _ => rfl, rfl, rfl⟩
  have hmarks : Post nodeSystem t (fun a s' => ∃ d, (d = true → Committed h s') ∧ R d a) p s :=
    hp.post (fun c r x x' hc hx hexec => committed_kept (hspare c h hc) hexec hx)
      (fun c r x x' hc hexec => committed_of_shows hc hexec) (by simp)
  refine ((hkept.and helse).and hmarks).mono fun a s' hs' => ?_
  obtain ⟨⟨hkept, helse⟩, hshown⟩ := hs'
  refine ⟨⟨hkept, fun h' hc => ?_⟩, hshown⟩
  by_cases heq : h' = h
  · exact .inr heq
  · rw [Committed, helse.chunks h' heq] at hc
    exact .inl hc

theorem gains_hasChunk :
    Post nodeSystem t (fun b s' => Gains (· = h) s s' ∧ (b = true → Committed h s'))
      (hasChunk h) s := by
  refine (post_shows marks_hasChunk (only_hasChunk ?_)).mono fun b s' hs' => ?_
  · simp [Cmd.puts, StoreCmd.worksOn]
  · obtain ⟨hgains, d, hd, hb⟩ := hs'
    exact ⟨hgains, fun h => hd (hb h)⟩

theorem gains_putChunk (hhook : QuotaHook t onCommit) {data : Bytes} :
    Post nodeSystem t (fun r s' => Gains (· = h) s s' ∧ (r = none → Committed h s'))
      (putChunk H onCommit h data) s := by
  refine (post_shows (marks_putChunk hhook.transfers) (only_puts_putChunk hhook)).mono
    fun r s' hs' => ?_
  obtain ⟨hgains, d, hd, hr⟩ := hs'
  exact ⟨hgains, fun h => hd (hr h)⟩

variable {refs : List ChunkRef}

/-- The callback: without an error the chunk is in the cache. -/
theorem gains_publishChunk (hhook : QuotaHook t onCommit) {ch : Chunk} :
    Post nodeSystem t
      (fun res s' => Gains (· = ch.hash) s s' ∧
        ∀ refs', res = .ok refs' → refs' = refs ++ [ch.ref] ∧ Committed ch.hash s')
      (publishChunk H onCommit ch refs) s := by
  refine gains_hasChunk.seq fun present s1 h1 => ?_
  obtain ⟨hgains1, hpresent⟩ := h1
  cases present with
  | true =>
      refine ⟨hgains1, ?_⟩
      rintro refs' ⟨⟩
      exact ⟨rfl, hpresent rfl⟩
  | false =>
      refine (gains_putChunk hhook).seq fun res s2 h2 => ?_
      obtain ⟨hgains2, hput⟩ := h2
      cases res with
      | some e => exact ⟨hgains1.trans hgains2, fun refs' h => nomatch h⟩
      | none =>
          refine ⟨hgains1.trans hgains2, ?_⟩
          rintro refs' ⟨⟩
          exact ⟨rfl, hput rfl⟩

theorem gains_deliver (hhook : QuotaHook t onCommit) {chs : List Chunk} :
    Post nodeSystem t
      (fun res s' => Gains (fun h => ∃ ch ∈ chs, ch.hash = h) s s' ∧
        ∀ refs', res = .ok refs' → refs' = refs ++ chs.map Chunk.ref ∧
          ∀ ch ∈ chs, Committed ch.hash s')
      (deliver (publishChunk H onCommit) chs refs) s := by
  induction chs generalizing refs s with
  | nil =>
      refine ⟨.of_store_eq rfl, ?_⟩
      rintro refs' ⟨⟩
      simp
  | cons ch chs ih =>
      refine (gains_publishChunk hhook).seq fun res s1 h1 => ?_
      obtain ⟨hgains1, hone⟩ := h1
      have hgains1 := @Gains.mono _ (fun h => ∃ c ∈ ch :: chs, c.hash = h) _ _ hgains1
        fun h he => ⟨ch, List.mem_cons_self, he.symm⟩
      cases res with
      | error e => exact ⟨hgains1, fun refs' h => nomatch h⟩
      | ok refs1 =>
          obtain ⟨hrefs1, hch⟩ := hone refs1 rfl
          refine ih.mono fun res s2 h2 => ?_
          obtain ⟨hgains2, hrest⟩ := h2
          refine ⟨hgains1.trans (hgains2.mono fun h he => ?_), fun refs' hres => ?_⟩
          · obtain ⟨c, hc, heq⟩ := he
            exact ⟨c, List.mem_cons_of_mem ch hc, heq⟩
          · obtain ⟨hrefs', hcommitted⟩ := hrest refs' hres
            refine ⟨by rw [hrefs', hrefs1]; simp, ?_⟩
            exact List.forall_mem_cons.mpr ⟨hgains2.kept _ hch, hcommitted⟩

theorem gains_chunkStream (hhook : QuotaHook t onCommit) {n : Nat} (hn : 0 < n)
    (r : Reader UInt8 Str) :
    Post nodeSystem t
      (fun res s' => Gains (fun h => ∃ d, d ≠ [] ∧ h = computeHash H d) s s' ∧
        ∀ refs, res = .ok refs → refs = (chunksOf H n r.content).map Chunk.ref ∧
          RefsCommitted refs s')
      (chunkStream H n (publishChunk H onCommit) r []) s := by
  rw [chunkStream_eq hn]
  refine (gains_deliver hhook).seq fun res s' h => ?_
  obtain ⟨hgains, hrefs⟩ := h
  have hgains := @Gains.mono _ (fun h => ∃ d, d ≠ [] ∧ h = computeHash H d) _ _ hgains
    fun h he => by
      obtain ⟨ch, hch, rfl⟩ := he
      obtain ⟨hmem, hhash, -⟩ := mem_chunksAt hch
      exact ⟨ch.data, ((blocks_sizes hn r.content).2 _ hmem).1, hhash⟩
  cases res with
  | error e => exact ⟨hgains, fun refs h => by contradiction⟩
  | ok refs =>
      obtain ⟨heq, hcommitted⟩ := hrefs refs rfl
      rw [afterLast]
      split
      · refine ⟨hgains, ?_⟩
        rintro refs' ⟨⟩
        refine ⟨heq, fun c hc => ?_⟩
        rw [heq] at hc
        obtain ⟨ch, hch, rfl⟩ := List.mem_map.mp hc
        exact hcommitted ch hch
      · exact ⟨hgains, fun refs h => by contradiction⟩

/-- The branch for an empty file returns its reference whatever `PutChunk` says. -/
theorem gains_emptyFileRefs (hhook : QuotaHook t onCommit) {size : Int64} :
    Post nodeSystem t
      (fun cs s' => Gains (fun h => size = 0 ∧ h = computeHash H []) s s' ∧
        cs = if refs = [] ∧ size = 0 then [⟨computeHash H [], 0, 0⟩] else refs)
      (emptyFileRefs H onCommit size refs) s := by
  rw [emptyFileRefs]
  by_cases hempty : refs = [] ∧ size = 0
  · simp only [if_pos hempty]
    refine gains_hasChunk.seq fun present s1 h1 => ?_
    have hgains1 := @Gains.mono _ (fun h => size = 0 ∧ h = computeHash H []) _ _ h1.1
      fun h he => ⟨hempty.2, he⟩
    cases present with
    | true => exact ⟨hgains1, rfl⟩
    | false =>
        refine (gains_putChunk hhook).seq fun res s2 h2 => ?_
        exact ⟨hgains1.trans (h2.1.mono fun h he => ⟨hempty.2, he⟩), rfl⟩
  · simp only [if_neg hempty]
    exact ⟨.of_store_eq rfl, rfl⟩

end Chunks

/-! ## Files -/

section Files

variable {H : Sha256} {onCommit : OnCommit} {t : Tid} {s : Node} {chunkSize : Int64}
variable {ok : (c : Cmd) → c.Resp → Bool}

/-- The chunks of an entry are in the cache, but for that of an empty file. -/
def RefsStored (H : Sha256) (size : Int64) (refs : List ChunkRef) (s : Node) : Prop :=
  ∀ c ∈ refs, Committed c.hash s ∨ size = 0 ∧ c.hash = computeHash H []

/-- Which chunks the publishing of a file can add. -/
def Publishable (H : Sha256) (size : Int64) (h : Str) : Prop :=
  (∃ d, d ≠ [] ∧ h = computeHash H d) ∨ size = 0 ∧ h = computeHash H []

theorem post_publishFile (hhook : QuotaHook t onCommit) (hsize : 0 < chunkSize.toInt)
    {info : FileInfo} {R : Bytes → Prop}
    (hR : ∀ r, ok (.net (.openSource info.path)) (.ok r) = true → R r.content) :
    Post (nodeSystem.restrict ok) t
      (fun res s' => Gains (Publishable H info.size) s s' ∧ ∀ e, res = .ok e →
        RefsStored H info.size e.chunks s' ∧ ∃ c, R c ∧ e = publishedEntry H chunkSize info c)
      (publishFile H onCommit chunkSize info) s := by
  refine Post.perform fun deadline s1 hx1 => ?_
  obtain ⟨j, -, rfl⟩ := nodeExec_job (System.restrict_eq_some hx1).2
  cases deadline with
  | some d => exact ⟨.of_store_eq rfl, fun e h => nomatch h⟩
  | none =>
      refine Post.perform fun opened s2 hx2 => ?_
      obtain ⟨hok, hx2⟩ := System.restrict_eq_some hx2
      obtain ⟨n, -, rfl⟩ := nodeExec_net hx2
      cases opened with
      | error msg => exact ⟨.of_store_eq rfl, fun e h => nomatch h⟩
      | ok r =>
          refine (gains_chunkStream hhook (by omega) r).restrict.seq fun res s3 h3 => ?_
          obtain ⟨hgains3, hrefs⟩ := h3
          have hgains3 : Gains (Publishable H info.size) s s3 :=
            ⟨hgains3.kept, fun h hc => (hgains3.added h hc).imp_right .inl⟩
          cases res with
          | error e => exact ⟨hgains3, fun e h => nomatch h⟩
          | ok refs =>
              obtain ⟨hrefs, hcommitted⟩ := hrefs refs rfl
              refine (gains_emptyFileRefs hhook).restrict.seq fun cs s4 h4 => ?_
              obtain ⟨hgains4, hcs⟩ := h4
              refine ⟨hgains3.trans (hgains4.mono fun h hh => .inr hh), ?_⟩
              rintro e ⟨⟩
              refine ⟨fun c hc => ?_, r.content, hR r hok, ?_⟩
              · have hc : c ∈ cs := hc
                rw [hcs] at hc
                split at hc
                · rename_i hempty
                  rw [List.mem_singleton.mp hc]
                  exact .inr ⟨hempty.2, rfl⟩
                · exact .inl (hgains4.kept _ (hcommitted c hc))
              · rw [hcs, hrefs]
                rfl

theorem SourceFile.content_eq_nil {f : SourceFile} (h : f.info.size = 0) : f.content = [] := by
  have hint := congrArg Int64.toInt h
  rw [SourceFile.info, Int64.toInt_ofNat_of_lt f.fits] at hint
  have hlen : (f.content.length : Int) = 0 := hint
  exact List.length_eq_zero_iff.mp (by omega)

/-- The empty chunk, if one of the files is empty. -/
def EmptyChunkOf (H : Sha256) (files : List SourceFile) (h : Str) : Prop :=
  h = computeHash H [] ∧ ∃ f ∈ files, f.content = []

theorem post_publishFiles (hhook : QuotaHook t onCommit) (hsize : 0 < chunkSize.toInt)
    {files : List SourceFile} {R : SourceFile → Bytes → Prop}
    (hR : ∀ f ∈ files, ∀ r, ok (.net (.openSource f.path)) (.ok r) = true → R f r.content) :
    Post (nodeSystem.restrict ok) t
      (fun res s' => (∀ h, Committed h s → Committed h s') ∧ ∀ es, res = .ok es →
        (∀ e ∈ es, ∀ c ∈ e.chunks, Committed c.hash s' ∨ EmptyChunkOf H files c.hash) ∧
        List.Forall₂ (fun f e => ∃ c, R f c ∧ e = publishedEntry H chunkSize f.info c) files es)
      (publishFiles H onCommit chunkSize (files.map SourceFile.info)) s := by
  induction files generalizing s with
  | nil =>
      refine ⟨fun _ h => h, ?_⟩
      rintro es ⟨⟩
      simp
  | cons f files ih =>
      obtain ⟨hf, hfiles⟩ := List.forall_mem_cons.mp hR
      refine (post_publishFile hhook hsize hf).seq fun res s1 h1 => ?_
      obtain ⟨hgains1, hentry⟩ := h1
      cases res with
      | error e => exact ⟨hgains1.kept, fun es h => nomatch h⟩
      | ok e =>
          obtain ⟨hstored, hdesc⟩ := hentry e rfl
          refine (ih hfiles).seq fun res s2 h2 => ?_
          obtain ⟨hkept2, hrest⟩ := h2
          have hkept : ∀ h, Committed h s → Committed h s2 := fun h hc =>
            hkept2 h (hgains1.kept h hc)
          cases res with
          | error e => exact ⟨hkept, fun es h => nomatch h⟩
          | ok es =>
              obtain ⟨hcommitted, hdescs⟩ := hrest es rfl
              refine ⟨hkept, ?_⟩
              rintro es' ⟨⟩
              refine ⟨List.forall_mem_cons.mpr ⟨fun c hc => ?_, fun e' he' c hc => ?_⟩,
                .cons hdesc hdescs⟩
              · refine (hstored c hc).imp (hkept2 _) fun hempty => ?_
                exact ⟨hempty.2, f, List.mem_cons_self, f.content_eq_nil hempty.1⟩
              · refine (hcommitted e' he' c hc).imp_right fun hempty => ?_
                obtain ⟨heq, g, hg, hnil⟩ := hempty
                exact ⟨heq, g, List.mem_cons_of_mem f hg, hnil⟩

end Files

/-! ## The manifest -/

section Manifest

variable {H : Sha256} {J : Marshal} {onCommit : OnCommit} {t : Tid} {s : Node}
variable {chunkSize : Int64} {tree : List SourceFile} {pre name version : Str}

theorem refsTo_chunksAt (offset : Int64) (ds : List Bytes) :
    RefsTo H ((chunksAt H offset ds).map Chunk.ref) ds := by
  induction ds generalizing offset with
  | nil => exact .nil
  | cons d ds ih => exact .cons ⟨rfl, rfl⟩ (ih _)

/-- The paths of the tree's manifest. -/
theorem paths_treeManifest (H : Sha256) (J : Marshal) (chunkSize : Int64) (name version : Str)
    (tree : List SourceFile) :
    ((treeManifest H J chunkSize name version tree).files.map FileEntry.path).Perm
      ((tree.map SourceFile.path).map normalizePath) := by
  have hperm := List.perm_insertionSort (fun a b : FileEntry => a.path ≤ b.path)
    ((tree.map fun f => publishedEntry H (effectiveChunkSize chunkSize) f.info f.content).map
      fun e => { e with path := normalizePath e.path })
  refine (hperm.map FileEntry.path).trans (.of_eq ?_)
  simp [publishedEntry, SourceFile.info]

/-- The sizes of an entry's chunks add up to what was read. -/
theorem wrapSum_publishedEntry (hsize : 0 < chunkSize.toInt) (info : FileInfo) (content : Bytes) :
    wrapSum 0 ((publishedEntry H chunkSize info content).chunks.map ChunkRef.size) =
      Int64.ofNat content.length := by
  have hrefs := @refsTo_chunksAt H 0 (blocks chunkSize.toInt.toNat content)
  have hsum := hrefs.wrapSum_eq 0
  rw [flatten_blocks (by omega), Nat.zero_add, ← chunksOf] at hsum
  by_cases hempty : (chunksOf H chunkSize.toInt.toNat content).map Chunk.ref = [] ∧ info.size = 0
  · rw [hempty.1] at hsum
    simp only [publishedEntry, if_pos hempty]
    exact hsum
  · simp only [publishedEntry, if_neg hempty]
    exact hsum

/-- An entry that `Validate` accepts is one for the whole file. -/
theorem eq_content_of_accepted (hsize : 0 < chunkSize.toInt) {f : SourceFile} {c : Bytes}
    (hpre : c <+: f.content)
    (htotal : wrapSum 0 ((publishedEntry H chunkSize f.info c).chunks.map ChunkRef.size) =
      f.info.size) : c = f.content := by
  have hlen := hpre.length_le
  have hfits := f.fits
  rw [wrapSum_publishedEntry hsize] at htotal
  have hint := congrArg Int64.toInt htotal
  rw [SourceFile.info, Int64.toInt_ofNat_of_lt (by omega), Int64.toInt_ofNat_of_lt hfits] at hint
  exact hpre.eq_of_length (by omega)

/-- So the entries of an accepted manifest are those of the tree. -/
theorem entries_of_accepted (hsize : 0 < chunkSize.toInt) {es : List FileEntry}
    (htotal : ∀ e ∈ es, wrapSum 0 (e.chunks.map ChunkRef.size) = e.size)
    (hdesc : List.Forall₂ (fun f e => ∃ c, c <+: f.content ∧ e = publishedEntry H chunkSize f.info c)
      tree es) : es = tree.map fun f => publishedEntry H chunkSize f.info f.content := by
  induction hdesc with
  | nil => rfl
  | @cons f e tree es hfe _ ih =>
      obtain ⟨htotal, hrest⟩ := List.forall_mem_cons.mp htotal
      obtain ⟨c, hpre, rfl⟩ := hfe
      rw [eq_content_of_accepted hsize hpre htotal, ih hrest, List.map_cons]

theorem post_saveManifest {m : ArtifactManifest} :
    Post nodeSystem t
      (fun res s' => (∀ h, Committed h s → Committed h s') ∧ (res = none → Accepted H J m))
      (saveManifest H J m) s := by
  have honly : (saveManifest H J m).Only fun c : Cmd => ∃ id, c = .store (.saveManifest id) :=
    only_saveManifest fun id => ⟨id, rfl⟩
  have hkept : Post nodeSystem t (fun _ s' => ∀ h, Committed h s → Committed h s')
      (saveManifest H J m) s := by
    refine honly.post (fun c r x x' hc hx hexec h hs => ?_) fun _ hs => hs
    obtain ⟨id, rfl⟩ := hc
    exact committed_kept (by simp) hexec (hx h hs)
  cases hv : validate H J m with
  | error e =>
      simp only [saveManifest, hv]
      exact ⟨fun _ hs => hs, fun hnone => by contradiction⟩
  | ok u => exact hkept.mono fun _ _ hs => ⟨hs, fun _ => validate_eq_ok_iff.mp hv⟩

/-- What `Publish` returns, and what is in the cache then, whatever fails. -/
theorem post_publish (hhook : QuotaHook t onCommit) :
    Post (publishSystem tree) t
      (fun res s' => (∀ h, Committed h s → Committed h s') ∧ ∀ m, res = .ok m →
        m = treeManifest H J chunkSize name version tree ∧ Accepted H J m ∧
        ∀ h ∈ allChunkHashes m, Committed h s' ∨ EmptyChunkOf H tree h)
      (publish H J onCommit chunkSize pre name version) s := by
  refine Post.perform fun listed s1 hx1 => ?_
  obtain ⟨hserved, hx1⟩ := System.restrict_eq_some hx1
  obtain ⟨n, -, rfl⟩ := nodeExec_net hx1
  cases listed with
  | error msg => exact ⟨fun _ h => h, fun m h => nomatch h⟩
  | ok infos =>
      have hinfos : infos = tree.map SourceFile.info := of_decide_eq_true hserved
      have hpos := effectiveChunkSize_pos chunkSize
      simp only [hinfos]
      split
      · exact ⟨fun _ h => h, fun m h => nomatch h⟩
      · have hdelivers : ∀ f ∈ tree, ∀ r, serves tree (.net (.openSource f.path)) (.ok r) = true →
            r.content <+: f.content := by
          intro f hf r hr
          exact of_decide_eq_true (List.all_eq_true.mp hr f hf) rfl
        refine (post_publishFiles (R := fun f c => c <+: f.content) hhook hpos hdelivers).seq
          fun res s2 h2 => ?_
        obtain ⟨hkept, hfiles⟩ := h2
        cases res with
        | error e => exact ⟨hkept, fun m h => nomatch h⟩
        | ok es =>
            obtain ⟨hstored, hdesc⟩ := hfiles es rfl
            refine post_saveManifest.restrict.seq fun saved s3 h3 => ?_
            obtain ⟨hkept3, haccepted⟩ := h3
            have hkept : ∀ h, Committed h s → Committed h s3 := fun h hc => hkept3 h (hkept h hc)
            cases saved with
            | some e => exact ⟨hkept, fun m h => nomatch h⟩
            | none =>
                refine ⟨hkept, ?_⟩
                rintro m ⟨⟩
                have ha := haccepted rfl
                refine ⟨?_, ha, fun h hh => ?_⟩
                · rw [treeManifest, entries_of_accepted hpos (fun e he => ?_) hdesc]
                  exact (ha.files _ (mem_files_finalize.mpr ⟨e, he, rfl⟩)).total
                · obtain ⟨e, he, c, hc, rfl⟩ := mem_allChunkHashes.mp hh
                  obtain ⟨e0, he0, rfl⟩ := mem_files_finalize.mp he
                  exact (hstored e0 he0 c hc).imp_left (hkept3 _)

end Manifest

/-! ## A run in which the empty chunk is not stored -/

section Failure

variable {H : Sha256} {J : Marshal} {onCommit : OnCommit} {t : Tid} {s : Node}
variable {chunkSize : Int64} {tree : List SourceFile} {name version : Str}

/-- `PutChunk` when the old partial cannot be removed. -/
theorem runs_putChunk_failed (hs : Calm H s) (data : Bytes) :
    ∃ s', Runs (publishSystem tree) t (putChunk H onCommit (computeHash H data) data) s
        (some (.removePartial [])) s' ∧ Calm H s' ∧ s'.store.chunks = s.store.chunks := by
  let h := computeHash H data
  let x1 : Store := { s.store with
    locks := Function.update s.store.locks h (some t)
    inserted := Function.update s.store.inserted t false
    removeFailed := Function.update s.store.removeFailed t false }
  let x2 : Store := { x1 with removeFailed := Function.update x1.removeFailed t true }
  let x3 : Store := { x2 with locks := Function.update x2.locks h none }
  have hlock : Runs (publishSystem tree) t (onStore (.lockHash h)) s () { s with store := x1 } := by
    refine ⟨(), { s with store := x1 }, ?_, rfl, rfl⟩
    simp [System.restrict, serves, nodeSystem, nodeExec, execStore, hs.running, hs.locks h, x1]
  have hdiscard : Runs (publishSystem tree) t (discardPartial h) { s with store := x1 }
      (some (.removePartial [])) { s with store := x2 } := by
    simp only [discardPartial, h, parseHash_computeHash]
    refine ⟨.failed [], { s with store := x2 }, ?_, rfl, rfl⟩
    simp [System.restrict, serves, nodeSystem, nodeExec, execStore, hs.running, x2]
  have hunlock : Runs (publishSystem tree) t (onStore (.unlockHash h (some (.removePartial []))))
      { s with store := x2 } () { s with store := x3 } := by
    refine ⟨(), { s with store := x3 }, ?_, rfl, rfl⟩
    simp [System.restrict, serves, nodeSystem, nodeExec, execStore, hs.running, x3]
  refine ⟨{ s with store := x3 }, ?_, ⟨hs.running, hs.mu, fun h' => ?_, hs.content⟩, rfl⟩
  · rw [putChunk, putChunkFromReader, withHashLock]
    exact hlock.bind (Runs.bind (Runs.bind hdiscard ⟨rfl, rfl⟩) (hunlock.bind ⟨rfl, rfl⟩))
  · by_cases heq : h' = h
    · simp [x3, heq]
    · simp [x3, x2, x1, heq, hs.locks h']

/-- A source that works serves its tree. -/
theorem serves_of_working {c : Cmd} {r : c.Resp} (h : working tree c r = true) :
    serves tree c r = true := by
  cases c with
  | net c =>
      cases c with
      | listFiles p =>
          cases r with
          | ok infos => exact h
          | error msg => rfl
      | openSource p =>
          cases r with
          | error msg => rfl
          | ok r =>
              simp only [working, Bool.and_eq_true, decide_eq_true_eq, List.all_eq_true] at h
              simp only [serves, List.all_eq_true, decide_eq_true_eq]
              intro f hf hpath
              rw [h.2 f hf hpath]
      | _ => rfl
  | _ => rfl

/-- The state from which a file after the other is published. -/
structure WithoutEmpty (H : Sha256) (s : Node) : Prop where
  calm : Calm H s
  absent : ¬ Committed (computeHash H []) s

theorem chunkStream_nil {n : Nat} (hn : 0 < n) :
    chunkStream H n (publishChunk H onCommit) ⟨[], .eof, false⟩ [] = pure (.ok []) := by
  rw [chunkStream_eq hn]
  rfl

theorem runs_ctxErr (hs : s.job.panicked = false) :
    Runs (publishSystem tree) t (onJob .ctxErr) s none s := by
  refine ⟨none, s, ?_, rfl, rfl⟩
  simp [System.restrict, serves, nodeSystem, nodeExec, execJob, hs]

/-- An empty file is published, although its chunk is not stored. -/
theorem runs_publishFile_empty (hsize : 0 < chunkSize.toInt) {f : SourceFile}
    (hf : f.content = []) (hs : WithoutEmpty H s) :
    ∃ s', Runs (publishSystem tree) t (publishFile H onCommit chunkSize f.info) s
      (.ok (publishedEntry H chunkSize f.info f.content)) s' ∧ WithoutEmpty H s' := by
  obtain ⟨s', hput, hcalm, hchunks⟩ :=
    @runs_putChunk_failed H onCommit t s tree hs.calm []
  have hzero : f.info.size = 0 := by
    rw [SourceFile.info, hf]
    rfl
  have hlook : s.store.chunks.lookup (computeHash H []) = none := by
    simpa [Committed] using hs.absent
  have hopen : Runs (publishSystem tree) t (onNet (.openSource f.info.path)) s
      (.ok ⟨[], .eof, false⟩) s := by
    refine ⟨.ok ⟨[], .eof, false⟩, s, ?_, rfl, rfl⟩
    simp [System.restrict, serves, nodeSystem, nodeExec, execNet, hs.calm.running, Reader.content]
  have hstat : Runs (publishSystem tree) t (hasChunk (computeHash H [])) s false s := by
    simp only [hasChunk, parseHash_computeHash]
    refine ⟨.absent, s, ?_, rfl, rfl⟩
    simp [System.restrict, serves, nodeSystem, nodeExec, execStore, hs.calm.running, hlook]
  have hrefs : Runs (publishSystem tree) t (emptyFileRefs H onCommit f.info.size []) s
      [⟨computeHash H [], 0, 0⟩] s' := by
    rw [emptyFileRefs, if_pos ⟨rfl, hzero⟩]
    exact hstat.bind (hput.bind ⟨rfl, rfl⟩)
  refine ⟨s', ?_, hcalm, ?_⟩
  · refine (runs_ctxErr hs.calm.running).bind (hopen.bind ?_)
    simp only [chunkStream_nil (show 0 < chunkSize.toInt.toNat by omega)]
    refine Runs.bind ⟨rfl, rfl⟩ (hrefs.bind ⟨?_, rfl⟩)
    rw [hf]
    simp [publishedEntry, chunksOf, chunksAt, hzero]
  · rw [Committed, hchunks]
    exact hs.absent

theorem runs_publishFile (hhook : QuotaHook t onCommit) (hpin : H.Pins [])
    (hsize : 0 < chunkSize.toInt) (hdistinct : (tree.map SourceFile.path).Nodup) {f : SourceFile}
    (hf : f ∈ tree) (hs : WithoutEmpty H s) :
    ∃ s', Runs (publishSystem tree) t (publishFile H onCommit chunkSize f.info) s
      (.ok (publishedEntry H chunkSize f.info f.content)) s' ∧ WithoutEmpty H s' := by
  by_cases hnil : f.content = []
  · exact runs_publishFile_empty hsize hnil hs
  · -- with bytes in it, on a node on which nothing fails
    have hdelivers : ∀ r, working tree (.net (.openSource f.info.path)) (.ok r) = true →
        r.content = f.content := by
      intro r hr
      simp only [working, Bool.and_eq_true, decide_eq_true_eq, List.all_eq_true] at hr
      exact hr.2 f hf rfl
    have hpost : Post (workingSystem tree) t
        (fun res s' => Gains (Publishable H f.info.size) s s' ∧ ∀ e, res = .ok e →
          RefsStored H f.info.size e.chunks s' ∧
          ∃ c, c = f.content ∧ e = publishedEntry H chunkSize f.info c)
        (publishFile H onCommit chunkSize f.info) s := post_publishFile hhook hsize hdelivers
    obtain ⟨res, s', hrun, ⟨e, rfl, -, -, hgrown⟩, hgains, hentry⟩ :=
      ((returns_publishFile hhook hsize hdistinct hf hs.calm).and_post hpost).exists_runs
    obtain ⟨-, c, rfl, rfl⟩ := hentry e rfl
    refine ⟨s', hrun.restrict_mono fun c r => serves_of_working, hgrown.calm, fun hc => ?_⟩
    rcases hgains.added _ hc with hold | ⟨d, hd, heq⟩ | ⟨hzero, -⟩
    · exact hs.absent hold
    · exact hd (hpin.eq_of_computeHash heq.symm)
    · exact hnil (f.content_eq_nil hzero)

theorem runs_publishFiles (hhook : QuotaHook t onCommit) (hpin : H.Pins [])
    (hsize : 0 < chunkSize.toInt) (hdistinct : (tree.map SourceFile.path).Nodup)
    {files : List SourceFile} (hfiles : ∀ f ∈ files, f ∈ tree) (hs : WithoutEmpty H s) :
    ∃ s', Runs (publishSystem tree) t
        (publishFiles H onCommit chunkSize (files.map SourceFile.info)) s
        (.ok (files.map fun f => publishedEntry H chunkSize f.info f.content)) s' ∧
      WithoutEmpty H s' := by
  induction files generalizing s with
  | nil => exact ⟨s, ⟨rfl, rfl⟩, hs⟩
  | cons f files ih =>
      obtain ⟨hf, hrest⟩ := List.forall_mem_cons.mp hfiles
      obtain ⟨s1, hrun1, hs1⟩ := @runs_publishFile H onCommit t s chunkSize tree hhook hpin hsize
        hdistinct f hf hs
      obtain ⟨s2, hrun2, hs2⟩ := ih hrest hs1
      exact ⟨s2, hrun1.bind (hrun2.bind ⟨rfl, rfl⟩), hs2⟩

/-- Without the empty chunk at the start, `Publish` can return an accepted manifest
and leave the cache without it. -/
theorem runs_publish (hhook : QuotaHook t onCommit) (hpin : H.Pins []) (pre : Str)
    (ha : Accepted H J (treeManifest H J chunkSize name version tree)) (hs : WithoutEmpty H s) :
    ∃ s', Runs (publishSystem tree) t (publish H J onCommit chunkSize pre name version) s
        (.ok (treeManifest H J chunkSize name version tree)) s' ∧ WithoutEmpty H s' := by
  have hpos := effectiveChunkSize_pos chunkSize
  have hpaths := paths_treeManifest H J chunkSize name version tree
  have hdistinct : (tree.map SourceFile.path).Nodup :=
    .of_map normalizePath (hpaths.nodup_iff.mp ha.distinct)
  have hne : ¬ tree.map SourceFile.info = [] := by
    intro hnil
    have hlen := hpaths.length_eq
    rw [List.map_eq_nil_iff.mp hnil, List.length_map] at hlen
    rw [List.map_eq_nil_iff.mp hnil] at ha
    exact ha.nonempty (List.length_eq_zero_iff.mp hlen)
  have hlist : Runs (publishSystem tree) t (onNet (.listFiles pre)) s
      (.ok (tree.map SourceFile.info)) s := by
    refine ⟨.ok (tree.map SourceFile.info), s, ?_, rfl, rfl⟩
    simp [System.restrict, serves, nodeSystem, nodeExec, execNet, hs.calm.running]
  obtain ⟨s1, hfiles, hs1⟩ := @runs_publishFiles H onCommit t s (effectiveChunkSize chunkSize) tree
    hhook hpin hpos hdistinct tree (fun _ hf => hf) hs
  obtain ⟨res, s2, hsave, rfl, rfl⟩ :=
    (@returns_saveManifest H J tree t s1 _ hs1.calm ha).exists_runs
  refine ⟨s2, hlist.bind ?_, hs1⟩
  simp only [if_neg hne]
  exact hfiles.bind ((hsave.restrict_mono fun c r => serves_of_working).bind ⟨rfl, rfl⟩)

end Failure

/-- **Publish and its cache.**  For every tree, every sound cache and every commit hook:
in all runs in which `Publish` returns a manifest the manifest's chunks are in the cache,
whatever failed, exactly if the empty chunk was there before, or no file of the tree is
empty, or the manifest of the tree is one `Validate` rejects. -/
theorem publish_stored_iff (H : Sha256) (J : Marshal) (hpin : H.Pins []) (t : Tid)
    (onCommit : OnCommit) (hhook : QuotaHook t onCommit) (tree : List SourceFile)
    (chunkSize : Int64) (pre name version : Str) (s : Node) (hs : Calm H s) :
    (∀ m s', Runs (publishSystem tree) t (publish H J onCommit chunkSize pre name version) s
        (.ok m) s' → ∀ h ∈ allChunkHashes m, Committed h s') ↔
      (Accepted H J (treeManifest H J chunkSize name version tree) →
        ∀ f ∈ tree, f.content = [] → Committed (computeHash H []) s) := by
  constructor
  · intro hall ha f hf hnil
    by_contra habsent
    obtain ⟨s', hrun, hs'⟩ := runs_publish hhook hpin pre ha ⟨hs, habsent⟩
    refine hs'.absent (hall _ s' hrun _ (mem_allChunkHashes.mpr ?_))
    refine ⟨_, mem_files_finalize.mpr ⟨_, List.mem_map_of_mem hf, rfl⟩, ⟨computeHash H [], 0, 0⟩,
      ?_, rfl⟩
    simp [publishedEntry, hnil, SourceFile.info, chunksOf, chunksAt]
  · intro hcond m s' hrun h hh
    obtain ⟨hkept, hpublished⟩ := (post_publish hhook).of_runs hrun
    obtain ⟨rfl, ha, hstored⟩ := hpublished m rfl
    cases hstored h hh with
    | inl hc => exact hc
    | inr hempty =>
        obtain ⟨rfl, f, hf, hnil⟩ := hempty
        exact hkept _ (hcond ha f hf hnil)

/-- A node whose cache holds the empty chunk. -/
def emptyChunkNode : Node :=
  { emptyNode with store := { emptyNode.store with
      chunks := emptyNode.store.chunks.insert (computeHash plainHash []) [] } }

theorem publish_stored_iff_plainTree :
    Committed (computeHash plainHash []) emptyChunkNode ∧
    ∀ m s', Runs (publishSystem plainTree) 0
        (publish plainHash (fun _ => []) touchOnCommit 2 [] (str "plain") (str "1")) emptyChunkNode
        (.ok m) s' → ∀ h ∈ allChunkHashes m, Committed h s' := by
  have hcommitted : Committed (computeHash plainHash []) emptyChunkNode := by
    simp [Committed, emptyChunkNode]
  have hpin : plainHash.Pins [] := Sha256.pins_numbering (by decide) (by decide)
  refine ⟨hcommitted, (publish_stored_iff plainHash (fun _ => []) hpin 0 touchOnCommit
    (quotaHook_touchOnCommit 0) plainTree 2 [] (str "plain") (str "1") emptyChunkNode
    ⟨rfl, rfl, fun _ => rfl, fun h c hc => ?_⟩).mpr fun _ _ _ _ => hcommitted⟩
  by_cases hh : h = computeHash plainHash []
  · rw [hh, emptyChunkNode, AList.lookup_insert, Option.some.injEq] at hc
    rw [hh, hc]
  · rw [emptyChunkNode, AList.lookup_insert_ne hh] at hc
    contradiction

/-- With an empty cache and a disk on which the partial of the empty chunk cannot be
replaced, `Publish` returns a manifest with a chunk that is in no cache. -/
theorem publish_empty_unstored :
    ∃ m s', Runs (publishSystem plainTree) 0
        (publish plainHash (fun _ => []) touchOnCommit 2 [] (str "plain") (str "1")) freshNode
        (.ok m) s' ∧
      ∃ h ∈ allChunkHashes m, ¬ Committed h s' := by
  have ha : Accepted plainHash (fun _ => [])
      (treeManifest plainHash (fun _ => []) 2 (str "plain") (str "1") plainTree) :=
    validate_eq_ok_iff.mp (by decide +kernel)
  have hpin : plainHash.Pins [] := Sha256.pins_numbering (by decide) (by decide)
  obtain ⟨s', hrun, hs'⟩ := runs_publish (quotaHook_touchOnCommit 0) hpin [] ha
    ⟨calm_freshNode _, fun h => nomatch h⟩
  exact ⟨_, s', hrun, _, by decide +kernel, hs'.absent⟩

end Spider
