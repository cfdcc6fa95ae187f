import Spider.Engine.Sync

/-!
# Spider.Engine.EndToEnd

From a published tree to the files a sync leaves behind.

Publishing gives a manifest whose chunks are the pieces of the tree
(`publish_spec`).  Of the threads of a node that syncs only `Sync` itself writes
to the destination, and it returns no error only after `Materialize` has
written, for each entry, pieces with the entry's hashes and sizes
(`writes_sync`).  Where the hashes pin their contents the two are the same
bytes, whatever peers, origin, cache and scheduler have done in between.
-/

namespace Spider

open Conc

/-! ## Who writes to the destination -/

section DestFree

variable {H : Sha256} {cfg : EngineConfig} {α : Type} {p : NodeM α}

theorem destFree_of_transfers (hp : Transfers p) : p.Only fun c : Cmd => c.destFree = true := by
  refine hp.mono fun c hc => ?_
  cases c with
  | store c => rfl
  | quota c => rfl
  | net c => rfl
  | job c => rfl
  | dest c => contradiction
  | link h p => contradiction

theorem destFree_inventoryChunks (refs : List (Str × ChunkRef)) (missing : List WorkItem) :
    (inventoryChunks refs missing).Only fun c : Cmd => c.destFree = true := by
  induction refs generalizing missing with
  | nil => exact Prog.only_pure _
  | cons ref refs ih =>
      have hcheck := destFree_of_transfers
        (@marks_hasValidCommittedChunk ref.2.hash ref.2.size.toInt false).only
      refine hcheck.bind fun valid => ?_
      cases valid with
      | true => exact Prog.only_call rfl fun _ => ih missing
      | false =>
          simp only [Bool.false_eq_true, if_false]
          split
          · exact ih missing
          · exact ih _

theorem destFree_workerLoop (turns : Nat) :
    (workerLoop H cfg turns).Only fun c : Cmd => c.destFree = true := by
  rw [workerLoop_eq]
  refine only_workerLoopWith (fun _ => rfl) (fun work => ?_) turns
  exact destFree_of_transfers
    (@marks_fetchChunk H _ cfg.hookTransfers false cfg.hasOrigin work cfg.retryAttempts).only

theorem destFree_maybeEvict (w : Watermarks) :
    (maybeEvict w).Only fun c : Cmd => c.destFree = true := by
  refine Prog.only_call rfl fun _ => Prog.only_call rfl fun idx => ?_
  by_cases hused : idx.used < w.high
  · simp only [if_pos hused]
    exact Prog.only_call rfl fun _ => Prog.only_pure _
  · simp only [if_neg hused]
    refine Prog.only_call rfl fun order => ?_
    have hevict : (evictLoop w.low order idx.used 0).Only fun c : Cmd => c.destFree = true := by
      apply only_evictLoop
      · rfl
      · exact fun _ => rfl
      · exact fun _ _ => rfl
    refine hevict.bind fun n => ?_
    exact Prog.only_call rfl fun _ => Prog.only_call rfl fun _ => Prog.only_pure _

theorem destFree_evictor (w : Watermarks) (turns : Nat) :
    (evictor w turns).Only fun c : Cmd => c.destFree = true := by
  induction turns with
  | zero => exact Prog.only_pure _
  | succ turns ih => exact (destFree_maybeEvict w).bind fun _ => ih

end DestFree

/-! ## What a sync without error has written -/

section Writes

variable {H : Sha256} {J : Marshal} {cfg : EngineConfig} {m : ArtifactManifest}
variable {destDir : Str} {t : Tid} {d : Dest}

theorem writes_finishSync :
    Writes t (fun r d' => ∀ x, r = .ok x →
      ∃ targets, FilesPlaced H cfg.opts destDir m.files targets d d')
      (finishSync H J cfg m destDir) d := by
  refine (Writes.only (only_saveManifest fun _ => rfl)).seq fun _ d1 hd1 => ?_
  rw [hd1]
  refine writes_materialize.seq fun err d2 hd2 => ?_
  cases err with
  | some e => exact .pure (by simp)
  | none => exact .elsewhere rfl fun _ => .pure fun _ _ => hd2 rfl

theorem writes_sync :
    Writes t (fun r d' => ∀ x, r = .ok x →
      ∃ targets, FilesPlaced H cfg.opts destDir m.files targets d d')
      (sync H J cfg m destDir) d := by
  rw [sync]
  cases validate H J m with
  | error e => exact .pure (by simp)
  | ok u =>
      refine (Writes.only (destFree_inventoryChunks _ _)).seq fun missing d1 hd1 => ?_
      rw [hd1]
      refine (Writes.only (only_download (fun _ => rfl) cfg missing)).seq fun err d2 hd2 => ?_
      rw [hd2]
      cases err with
      | some e => exact .pure (by simp)
      | none => exact writes_finishSync

/-- A thread that is not `Sync` leaves the destination alone. -/
theorem destFree_syncThreads {w : Watermarks} {turns : Tid → Nat} (ht : t ≠ 0) :
    (syncThreads H J cfg m destDir w turns t).Only fun c : Cmd => c.destFree = true := by
  rw [syncThreads, if_neg ht]
  split
  · have hworker : (worker H cfg (turns t)).Only fun c : Cmd => c.destFree = true :=
      Prog.only_call rfl fun _ => destFree_workerLoop (turns t)
    exact hworker.bind fun _ => Prog.only_pure _
  · exact (destFree_evictor w (turns t)).bind fun _ => Prog.only_pure _

/-- In every interleaving, when `Sync` has returned without error the files are in
place. -/
theorem filesPlaced_of_reachable {w : Watermarks} {turns : Tid → Nat} {s : Node}
    {c : Config nodeSig Node Tid (Option (Except Err SyncMetrics))} {metrics : SyncMetrics}
    (hreach : Reachable nodeSystem (syncStart H J cfg m destDir w turns s) c)
    (hret : c.prog 0 = .ret (some (.ok metrics))) :
    ∃ targets, FilesPlaced H cfg.opts destDir m.files targets s.dest c.st.dest := by
  have hwp : ∀ t, (destProtocol 0).wp t
      (fun a s' => t = 0 → ∀ x, a = some (.ok x) →
        ∃ targets, FilesPlaced H cfg.opts destDir m.files targets s.dest s'.dest)
      (syncThreads H J cfg m destDir w turns t) s := by
    intro t
    by_cases ht : t = 0
    · rw [ht, syncThreads, if_pos rfl]
      have hmain : Writes 0 (fun r d' => 0 = 0 → ∀ x, r = some (.ok x) →
          ∃ targets, FilesPlaced H cfg.opts destDir m.files targets s.dest d')
          (sync H J cfg m destDir >>= fun res => pure (some res)) s.dest := by
        refine writes_sync.seq fun res d' hres => .pure fun _ x hx => ?_
        exact hres x (Option.some.inj hx)
      exact hmain s rfl
    · refine Protocol.wp_mono (fun a s' _ _ h => absurd h ht) (Protocol.wp_only
        (F := fun _ => True) (destFree_syncThreads ht) ?_ ?_ ?_ trivial)
      · exact fun _ _ _ _ => trivial
      · exact fun c _ hc _ _ hd => absurd hd (by simp [hc])
      · exact fun _ _ _ _ _ _ _ _ => trivial
  have hpost := Protocol.post_of_reachable (P := destProtocol 0) trivial hwp hreach hret
  exact hpost rfl metrics rfl

/-- Placed files of a tree's manifest are the files of the tree. -/
theorem restored_of_filesPlaced {tree : List SourceFile} {opts : Options} {targets : List Str}
    {d' : Dest} (hm : ManifestOf H J tree m)
    (hpins : ∀ b, computeHash H b ∈ allChunkHashes m → H.Pins b) (hcopy : opts.strategy = .copy)
    (h : FilesPlaced H opts destDir m.files targets d d') :
    ∀ f ∈ tree, ∃ target perm, safeJoin destDir (normalizePath f.path) = .ok target ∧
      d'.entries.lookup target = some (.file f.content perm) := by
  have hclean : (m.files.map fun e => clean e.path).Nodup := by
    rw [List.map_congr_left hm.clean]
    exact hm.accepted.distinct
  have hnodup : targets.Nodup := nodup_targets hm.accepted hclean h.joined
  intro f hf
  obtain ⟨e, he, hpath, ds, hds, hflat⟩ := hm.entries f hf
  have hboth := List.Forall₂.mp (fun _ _ => And.intro) h.joined (h.placed hcopy hnodup)
  obtain ⟨target, -, hjoin, ps, perm, hps, hlook⟩ := exists_entry_of_mem hboth.flip he
  have hsame : ps = ds := by
    refine hps.unique hds fun b hb => hpins b ?_
    obtain ⟨c, hc, hcb⟩ := List.mem_map.mp hb
    exact mem_allChunkHashes.mpr ⟨e, he, c, hc, hcb⟩
  exact ⟨target, perm, hpath ▸ hjoin, by rw [hlook, hsame, hflat]⟩

end Writes

/-- **End-to-end integrity.**  Let `m` be a manifest `Publish` returned for a
tree, and let no two contents share one of its chunk hashes.  On any node, with
any cache, any answers of tracker, peers, origin and disk, and in any
interleaving of `Sync`, its workers and evictions: when `Sync` with the default
options has returned without error, every file of the tree is in place. -/
theorem sync_restores_tree (H : Sha256) (J : Marshal) (tree : List SourceFile)
    (onCommit : OnCommit) (chunkSize : Int64) (pre name version : Str) (publisher : Tid)
    (p p' : Node) (m : ArtifactManifest)
    (hpub : Runs (publishSystem tree) publisher
      (publish H J onCommit chunkSize pre name version) p (.ok m) p')
    (hpins : ∀ b, computeHash H b ∈ allChunkHashes m → H.Pins b)
    (cfg : EngineConfig) (hopts : cfg.opts = defaultOptions) (destDir : Str) (w : Watermarks)
    (turns : Tid → Nat) (s : Node)
    (c : Config nodeSig Node Tid (Option (Except Err SyncMetrics)))
    (hreach : Reachable nodeSystem (syncStart H J cfg m destDir w turns s) c)
    (metrics : SyncMetrics) (hret : c.prog 0 = .ret (some (.ok metrics))) :
    ∀ f ∈ tree, ∃ target perm, safeJoin destDir (normalizePath f.path) = .ok target ∧
      c.st.dest.entries.lookup target = some (.file f.content perm) := by
  obtain ⟨targets, hplaced⟩ := filesPlaced_of_reachable hreach hret
  have hcopy : cfg.opts.strategy = .copy := by rw [hopts]; rfl
  exact restored_of_filesPlaced (publish_spec hpub) hpins hcopy hplaced

/-! ### A tree of two files -/

/-- A file of two chunks and an empty one. -/
def smallTree : List SourceFile :=
  [⟨str "./data/a.bin", [], [1, 2, 3], by decide⟩, ⟨str "empty", [], [], by decide⟩]

def smallWorld : World :=
  .originOnly (smallTree.map fun f => (normalizePath f.path, f.content))

/-- A hash that tells the chunks of the tree apart. -/
def smallHash : Sha256 := .numbering [[1, 2], [3], []]

/-- The answers of a source that holds the tree. -/
def smallSource : (c : Cmd) → Node → c.Resp
  | .net (.listFiles _), _ => .ok (smallTree.map SourceFile.info)
  | .net (.openSource p), _ =>
      .ok ⟨[((smallTree.find? fun f => f.path = p).map SourceFile.content).getD []], .eof, false⟩
  | c, s => smallWorld.answer c s

def smallManifest : ArtifactManifest :=
  finalize smallHash (fun _ => []) ⟨1, [], str "small", str "1", 2, 0,
    [⟨str "./data/a.bin", 3, str "0644",
        [⟨computeHash smallHash [1, 2], 0, 2⟩, ⟨computeHash smallHash [3], 2, 1⟩]⟩,
      ⟨str "empty", 0, str "0644", [⟨computeHash smallHash [], 0, 0⟩]⟩]⟩

def smallConfig : EngineConfig := ⟨1, 1, true, true, defaultOptions⟩

/-- A sync of the tree from its origin by one worker. -/
def smallSync : Config nodeSig Node Tid (Option (Except Err SyncMetrics)) :=
  (syncStart smallHash (fun _ => []) smallConfig smallManifest (str "/srv") ⟨100, 50⟩
    (fun _ => 4) emptyNode).play nodeSystem (fun _ => smallWorld.answer)
    (List.replicate 20 0 ++ List.replicate 100 1 ++ List.replicate 40 0)

theorem publish_smallTree :
    ((publish smallHash (fun _ => []) touchOnCommit 2 [] (str "small") (str "1")).runWith
      (publishSystem smallTree) 0 smallSource emptyNode).map Prod.fst = some (.ok smallManifest) := by
  decide +kernel

theorem pins_smallManifest (b : Bytes)
    (hb : computeHash smallHash b ∈ allChunkHashes smallManifest) : smallHash.Pins b := by
  have hhashes : allChunkHashes smallManifest = [[1, 2], [3], []].map (computeHash smallHash) := by
    decide +kernel
  rw [hhashes] at hb
  obtain ⟨c, hc, hcb⟩ := List.mem_map.mp hb
  have hpin : smallHash.Pins c := Sha256.pins_numbering hc (by decide)
  exact hpin.eq_of_computeHash hcb.symm ▸ hpin

theorem sync_smallTree :
    (smallSync.prog 0).value = some (some (.ok ⟨3, ⟨0, 0, 3, 0, 0, 3, 3⟩⟩)) := by
  decide +kernel

/-- Both files are in place. -/
theorem sync_restores_smallTree :
    (∃ perm, smallSync.st.dest.entries.lookup (str "/srv/data/a.bin") =
      some (.file [1, 2, 3] perm)) ∧
    ∃ perm, smallSync.st.dest.entries.lookup (str "/srv/empty") = some (.file [] perm) := by
  have hall := sync_restores_tree smallHash (fun _ => []) smallTree touchOnCommit 2 []
    (str "small") (str "1") 0 emptyNode _ smallManifest (runs_finalState publish_smallTree)
    pins_smallManifest smallConfig rfl (str "/srv") ⟨100, 50⟩ (fun _ => 4) emptyNode smallSync
    Config.reachable_play _ (Prog.eq_ret_of_value sync_smallTree)
  have hdata : safeJoin (str "/srv") (normalizePath (str "./data/a.bin")) =
      .ok (str "/srv/data/a.bin") := by decide +kernel
  have hempty : safeJoin (str "/srv") (normalizePath (str "empty")) = .ok (str "/srv/empty") := by
    decide +kernel
  obtain ⟨t₁, perm₁, hj₁, hl₁⟩ := hall _ List.mem_cons_self
  obtain ⟨t₂, perm₂, hj₂, hl₂⟩ := hall _ (List.mem_cons_of_mem _ List.mem_cons_self)
  rw [← Except.ok.inj (hdata.symm.trans hj₁)] at hl₁
  rw [← Except.ok.inj (hempty.symm.trans hj₂)] at hl₂
  exact ⟨⟨perm₁, hl₁⟩, ⟨perm₂, hl₂⟩⟩

end Spider
