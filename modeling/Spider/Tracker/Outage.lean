import Spider.Tracker.Transparency

/-!
# Spider.Tracker.Outage

Reads of the cached store while the cache fails.  A read of one key falls back to
the inner store when its `Get` fails.  A batch hands the error of `MGet` on, and
`LocateChunks` makes of it an answer that lists nobody.
-/

namespace Spider

open Conc

/-- The answer to a read is what the inner store has, up to the order of lists and
the heartbeats of peers.  The active peers are those at some time of the call. -/
def Faithful (E : CacheEnv) (w w' : CacheWorld) : (c : StoreCall) → c.Resp → Prop
  | .listPeers expiry, peers => ∃ all n, w.steps ≤ n ∧ n ≤ w'.steps ∧
      (∀ g now, (StoreCall.listPeers 0).Same all (w.inner.listPeers g now 0)) ∧
      peers = if expiry ≤ 0 then all
        else all.filter fun p => decide (durationSub (E.clock n).1 p.lastHeartbeat ≤ expiry)
  | c, r => ∀ g now, c.Same r (Memory.exec g now c w.inner).1

section Outage

open CacheWorld

variable {E : CacheEnv} {w w' : CacheWorld}

theorem faithful_of_answered {c : StoreCall} {r : Except Str c.Resp} (hw : w.Sound)
    (hread : w.Read E w') (hc : c.isRead = true) (h : Answered E w w' c r) :
    ∃ a, r = .ok a ∧ Faithful E w w' c a := by
  cases c with
  | listPeers expiry =>
      obtain ⟨all, hall, hr⟩ := h
      have hsame : ∀ g now, (StoreCall.listPeers 0).Same all (w.inner.listPeers g now 0) := by
        intro g now
        show (all.map Peer.identity).Perm ((w.inner.listPeers g now 0).map Peer.identity)
        rw [listPeers_zero (le_refl 0)]
        exact (hw.lists_peers_answered hall).perm (lists_peers hw.clean)
      by_cases hexp : expiry ≤ 0
      · rw [if_pos hexp] at hr
        exact ⟨all, hr, all, w.steps, Nat.le_refl _, hread.steps, hsame, (if_pos hexp).symm⟩
      · rw [if_neg hexp] at hr
        obtain ⟨n, hn, hn', hr⟩ := hr
        exact ⟨_, hr, all, n, hn, Nat.le_of_lt hn', hsame, (if_neg hexp).symm⟩
  | getPeer nodeID | getArtifact artifactID | listSeeds artifactID | locateChunkNodes hash
  | locateChunkNodesBatch hashes | getPeersBatch nodeIDs => exact same_of_answered hw rfl h
  | _ => contradiction

theorem ends_requesterLoc {node : Str} :
    (overCache (Tracker.requesterLoc node)).Ends E.handle (fun _ w' => w.Read E w') w := by
  rw [Tracker.requesterLoc, overCache_bind, overCache_callStore]
  have hpeer : (CachedStore.call (.getPeer node)).Ends E.handle _ w := ends_read rfl
  refine hpeer.seq fun r w' h => ?_
  have hread := h.1
  cases r with
  | error msg => exact hread
  | ok p => cases p <;> exact hread

/-- While the cache is down, `LocateChunks` lists nobody. -/
theorem ends_locateChunks_down (r : Registry) (node : Str) (hashes : List Str)
    (hdown : ∀ n, w.steps ≤ n → E.fault n ≠ none) :
    (overCache (Tracker.locateChunks r node hashes)).Ends E.handle
      (fun locations _ => locations = hashes.map fun h => ⟨h, []⟩) w := by
  rw [Tracker.locateChunks, overCache_bind]
  refine ends_requesterLoc.seq fun loc w1 hread => ?_
  rw [overCache_bind, overCache_readClock, cachedNow, Prog.ends_perform, overCache_bind,
    overCache_callStore]
  have hlocated : (CachedStore.call (.locateChunkNodesBatch hashes)).Ends E.handle _ w1.tick :=
    ends_read rfl
  refine hlocated.seq fun found w2 h => ?_
  rcases h.2 with ⟨_, msg, rfl⟩ | ⟨hquiet, _⟩
  · exact Prog.ends_pure.mpr rfl
  · -- without an error nothing has been asked for
    have hempty : hashes = [] := by
      cases hashes with
      | nil => rfl
      | cons h hashes =>
          have hstart : w.steps ≤ w1.tick.steps := Nat.le_succ_of_le hread.steps
          exact absurd (quiet_succ.mp hquiet).1 (hdown _ hstart)
    subst hempty
    cases found with
    | error msg => exact Prog.ends_pure.mpr rfl
    | ok located =>
        have hpeers : (overCache (callStore (.getPeersBatch
            (Tracker.uniqueIDs located node)))).Ends E.handle (fun _ _ => True) w2 := trivial
        rw [overCache_bind]
        exact hpeers.seq fun _ _ _ => Prog.ends_pure.mpr rfl

end Outage

/-- Every live holder of a requested chunk is in its location. -/
def HoldersListed (r : Registry) (m : Memory) (t : Time) (requesterNodeID : Str)
    (chunkHashes : List Str) (locations : List ChunkLocation) : Prop :=
  ∀ h ∈ chunkHashes, ∀ p, r.Alive m.view t requesterNodeID (m.nodes (.chunk h)) p →
    ∃ loc ∈ locations, loc.chunkHash = h ∧ p.proto ∈ loc.peers

/-- A cache whose reads all fail, while the clock stands still. -/
def CacheEnv.down : CacheEnv := { CacheEnv.still with fault := fun _ => some (str "redis mget") }

/-- A node that holds a chunk. -/
def holderCalls : List StoreCall :=
  [.upsertPeer ⟨str "n1", str "h:1", [], [], [], [], [], 0⟩, .reportChunks (str "n1") [str "c1"]]

end Spider
