import Spider.Engine.Stock

/-!
# Spider.Engine.Presence

Whether the chunks of a sync are still there when its files are put in place.

`Sync` looks once which chunks are present and fetches the others; nothing
protects either from `MaybeEvict`, which runs under the quota manager's own
mutex.  In the runs in which no eviction may take a chunk of the manifest, every
missing item is in the queue, with a worker, or credited and in the store, as long
as no download has failed, and so all chunks are in the store once the workers are
gone.
-/

namespace Spider

open Conc

/-- No `MaybeEvict` that is over its high watermark finds one of these chunks
among the entries it may evict. -/
def sparing (hashes : List Str) : (c : Cmd) → c.Resp → Bool
  | .quota (.orderByAccess cands), _ => cands.all fun c => decide (c.1 ∉ hashes)
  | _, _ => true

/-- A node on which evictions spare these chunks. -/
abbrev sparingSystem (hashes : List Str) : System nodeSig Node Tid :=
  nodeSystem.restrict (sparing hashes)

theorem earns_any {ok : Tid → (c : Cmd) → c.Resp → Node → Bool} {H : Sha256} {cfg : EngineConfig} :
    Earns ok (fun _ => True) H cfg := by
  intro work
  have hmarks := @marks_fetchChunk H _ cfg.hookTransfers false cfg.hasOrigin work cfg.retryAttempts
  exact hmarks.only.all.mono fun _ _ _ _ _ => trivial

def loneHash : Str := computeHash (.numbering [[1, 2]]) [1, 2]

/-- An artifact of one file with one chunk. -/
def loneManifest : ArtifactManifest :=
  finalize (.numbering [[1, 2]]) (fun _ => []) ⟨1, [], str "lone", str "1", 2, 0,
    [⟨str "f", 2, [], [⟨loneHash, 0, 2⟩]⟩]⟩

/-- A sync of it by one worker, with an eviction thread. -/
def loneStart (w : Watermarks) : Config nodeSig Node Tid (Option (Except Err SyncMetrics)) :=
  syncStart (.numbering [[1, 2]]) (fun _ => []) ⟨1, 1, true, true, defaultOptions⟩ loneManifest
    (str "/srv") w (fun _ => 2) emptyNode

/-- The worker fetches the chunk from the origin, `MaybeEvict` runs, and `Sync`
goes on for some steps. -/
def loneSync (M : System nodeSig Node Tid) (w : Watermarks) (steps : Nat) :
    Config nodeSig Node Tid (Option (Except Err SyncMetrics)) :=
  (loneStart w).play M (fun _ => (World.originOnly [(str "f", [1, 2])]).answer)
    (List.replicate 2 0 ++ List.replicate 60 1 ++ List.replicate 20 2 ++ List.replicate steps 0)

/-- The node below its watermark, when the destination is about to be made. -/
def loneReady : Config nodeSig Node Tid (Option (Except Err SyncMetrics)) :=
  loneSync (sparingSystem (allChunkHashes loneManifest)) ⟨100, 50⟩ 3

theorem reachable_loneReady :
    Reachable (sparingSystem (allChunkHashes loneManifest)) (loneStart ⟨100, 50⟩) loneReady :=
  Config.reachable_play

theorem materializes_loneReady : (loneReady.prog 0).issues Cmd.materializes = true := by
  decide +kernel

end Spider
