import Spider.Tracker.Registry

/-!
# Spider.Engine.Locations

Where a sync looks for chunks: the location map of a job and its refresh from
the tracker (`pkg/engine/engine.go`).

`refreshLocations` first gives every hash the artifact's seeds and then replaces
them by the holders of the hash.  `LocateChunks` answers for every requested
hash, so nothing of the seeds is left unless their addresses are those of
holders.
-/

namespace Spider

/-- `locationMap`. -/
structure LocationMap where
  locs : Str → List PeerInfo

/-- One peer of `replace`: kept if its address is set and new. -/
def keepPeer (out : List PeerInfo) (p : PeerInfo) : List PeerInfo :=
  if p.address = [] ∨ p.address ∈ out.map PeerInfo.address then out else out ++ [p]

def LocationMap.get (m : LocationMap) (h : Str) : List PeerInfo := m.locs h

def LocationMap.replace (m : LocationMap) (h : Str) (peers : List PeerInfo) : LocationMap :=
  ⟨Function.update m.locs h (peers.foldl keepPeer [])⟩

/-- The seeds of the artifact, if any, for every hash. -/
def LocationMap.putSeeds (m : LocationMap) (hashes : List Str) (seeds : List PeerInfo) :
    LocationMap :=
  if seeds.length > 0 then hashes.foldl (fun m h => m.replace h seeds) m else m

def LocationMap.putLocations (m : LocationMap) (locations : List ChunkLocation) : LocationMap :=
  locations.foldl (fun m loc => m.replace loc.chunkHash loc.peers) m

/-- `refreshLocations` with the answers of the two calls; `none` is an error. -/
def refreshLocations (hasTracker : Bool) (hashes : List Str) (art : Option (List PeerInfo))
    (resp : Option (List ChunkLocation)) (m : LocationMap) : LocationMap :=
  if !hasTracker ∨ hashes = [] then m
  else
    let m := match art with
      | some seeds => m.putSeeds hashes seeds
      | none => m
    match resp with
    | some locations => m.putLocations locations
    | none => m

/-! ## What is kept -/

/-- A dialable peer of the list has its address among those of the map. -/
def Covers (known peers : List PeerInfo) : Prop :=
  ∀ p ∈ peers, p.address ≠ [] → ∃ q ∈ known, q.address = p.address

variable {out peers : List PeerInfo} {q : PeerInfo} {locations : List ChunkLocation}

theorem mem_keepPeer {p : PeerInfo} (h : q ∈ keepPeer out p) : q ∈ out ∨ q = p := by
  unfold keepPeer at h
  split at h
  · exact .inl h
  · simpa using h

theorem mem_foldl_keepPeer (h : q ∈ peers.foldl keepPeer out) : q ∈ out ∨ q ∈ peers := by
  induction peers generalizing out with
  | nil => exact .inl h
  | cons p peers ih =>
      cases ih h with
      | inl h =>
          cases mem_keepPeer h with
          | inl h => exact .inl h
          | inr h => exact .inr (by simp [h])
      | inr h => exact .inr (List.mem_cons_of_mem _ h)

theorem subset_foldl_keepPeer (h : q ∈ out) : q ∈ peers.foldl keepPeer out := by
  induction peers generalizing out with
  | nil => exact h
  | cons p peers ih =>
      apply ih
      unfold keepPeer
      split
      · exact h
      · exact List.mem_append_left _ h

theorem covers_foldl_keepPeer : Covers (peers.foldl keepPeer out) peers := by
  induction peers generalizing out with
  | nil => intro p hp; simp at hp
  | cons p peers ih =>
      intro x hx haddr
      cases List.mem_cons.mp hx with
      | inr hx => exact ih x hx haddr
      | inl hx =>
          subst hx
          -- the address is there already, or the peer is added
          have hkept : ∃ q ∈ keepPeer out x, q.address = x.address := by
            unfold keepPeer
            by_cases hseen : x.address ∈ out.map PeerInfo.address
            · rw [if_pos (.inr hseen)]
              exact List.mem_map.mp hseen
            · rw [if_neg (by simp [haddr, hseen])]
              exact ⟨x, by simp, rfl⟩
          obtain ⟨q, hq, hqa⟩ := hkept
          refine ⟨q, ?_, hqa⟩
          rw [List.foldl_cons]
          exact subset_foldl_keepPeer hq

/-- A hash that occurs in no location keeps what it has. -/
theorem get_putLocations_of_not {m : LocationMap} {h : Str}
    (hno : ¬ ∃ loc ∈ locations, loc.chunkHash = h) :
    (m.putLocations locations).get h = m.get h := by
  induction locations generalizing m with
  | nil => rfl
  | cons loc locations ih =>
      have hne : h ≠ loc.chunkHash := fun he => hno ⟨loc, List.mem_cons_self, he.symm⟩
      have hrest : ¬ ∃ loc ∈ locations, loc.chunkHash = h :=
        fun ⟨x, hx, hxe⟩ => hno ⟨x, List.mem_cons_of_mem _ hx, hxe⟩
      have hstep : (m.replace loc.chunkHash loc.peers).get h = m.get h :=
        Function.update_of_ne hne _ _
      exact (ih hrest).trans hstep

/-- A hash that occurs in the locations has the peers of one of them. -/
theorem get_putLocations {m : LocationMap} {h : Str} (hmem : ∃ loc ∈ locations, loc.chunkHash = h) :
    ∃ loc ∈ locations, loc.chunkHash = h ∧
      (m.putLocations locations).get h = loc.peers.foldl keepPeer [] := by
  induction locations generalizing m with
  | nil => simp at hmem
  | cons loc locations ih =>
      by_cases hlater : ∃ loc ∈ locations, loc.chunkHash = h
      · obtain ⟨loc', hloc', heq, hget⟩ := ih (m := m.replace loc.chunkHash loc.peers) hlater
        exact ⟨loc', List.mem_cons_of_mem _ hloc', heq, hget⟩
      · have hfirst : loc.chunkHash = h := by
          obtain ⟨loc', hloc', heq⟩ := hmem
          cases List.mem_cons.mp hloc' with
          | inl he => rw [← he]; exact heq
          | inr hin => exact absurd ⟨loc', hin, heq⟩ hlater
        refine ⟨loc, List.mem_cons_self, hfirst, ?_⟩
        have hrest : (m.putLocations (loc :: locations)).get h =
            (m.replace loc.chunkHash loc.peers).get h := get_putLocations_of_not hlater
        rw [hrest, hfirst]
        exact Function.update_self ..

/-! ## Seeds and holders -/

/-- The map after a refresh in which both calls succeed.  The tracker may have
changed between the two. -/
def refreshed (r : Registry) (S₁ S₂ : StoreView) (now₁ now₂ : Time) (node artifactID : Str)
    (hashes : List Str) (m : LocationMap) : LocationMap :=
  refreshLocations true hashes (some (r.locateArtifact S₁ now₁ node artifactID))
    (some (r.locateChunks S₂ now₂ node hashes)) m

section Refresh

variable {r : Registry} {S1 S2 : StoreView} {now1 now2 : Time} {node artifactID h : Str}
variable {hashes : List Str} {m : LocationMap} {q : PeerInfo}

/-- For a requested hash only the holders are left. -/
theorem get_refreshed (r : Registry) (S1 S2 : StoreView) (now1 now2 : Time) (node artifactID : Str)
    (m : LocationMap) (hh : h ∈ hashes) :
    ∃ loc ∈ r.locateChunks S2 now2 node hashes, loc.chunkHash = h ∧
      (refreshed r S1 S2 now1 now2 node artifactID hashes m).get h =
        loc.peers.foldl keepPeer [] := by
  have hne : hashes ≠ [] := List.ne_nil_of_mem hh
  simp only [refreshed, refreshLocations, hne, Bool.not_true, Bool.false_eq_true, or_self, if_false]
  exact get_putLocations ⟨_, List.mem_map.mpr ⟨h, hh, rfl⟩, rfl⟩

theorem mem_get_refreshed (hh : h ∈ hashes)
    (hq : q ∈ (refreshed r S1 S2 now1 now2 node artifactID hashes m).get h) :
    ∃ p, r.Alive S2 now2 node (S2.locateChunkNodes h) p ∧ p.proto = q := by
  obtain ⟨loc, hloc, rfl, hget⟩ :=
    get_refreshed r S1 S2 now1 now2 node artifactID m hh
  rw [hget] at hq
  cases mem_foldl_keepPeer hq with
  | inl hnil => simp at hnil
  | inr hq => exact ((mem_locateChunks hloc).2 q).mp hq

/-- Every holder that can be dialed is there. -/
theorem covers_holders (hh : h ∈ hashes) {p : Peer}
    (hp : r.Alive S2 now2 node (S2.locateChunkNodes h) p) (haddr : p.address ≠ []) :
    ∃ q ∈ (refreshed r S1 S2 now1 now2 node artifactID hashes m).get h, q.address = p.address := by
  obtain ⟨loc, hloc, rfl, hget⟩ :=
    get_refreshed r S1 S2 now1 now2 node artifactID m hh
  rw [hget]
  exact covers_foldl_keepPeer p.proto (((mem_locateChunks hloc).2 _).mpr ⟨p, hp, rfl⟩) haddr

end Refresh

/-- **Discovery.**  After a refresh in which both calls succeed, each requested
hash has every seed and every holder that can be dialed, up to equal addresses,
exactly if each such seed has the address of a live holder of the hash. -/
theorem seeds_discoverable_iff (r : Registry) (S₁ S₂ : StoreView) (now₁ now₂ : Time)
    (node artifactID : Str) (hashes : List Str) (m : LocationMap) :
    (∀ h ∈ hashes,
      Covers ((refreshed r S₁ S₂ now₁ now₂ node artifactID hashes m).get h)
        (r.locateArtifact S₁ now₁ node artifactID) ∧
      ∀ loc ∈ r.locateChunks S₂ now₂ node hashes, loc.chunkHash = h →
        Covers ((refreshed r S₁ S₂ now₁ now₂ node artifactID hashes m).get h) loc.peers) ↔
    ∀ h ∈ hashes, ∀ p, r.Alive S₁ now₁ node (S₁.listSeeds artifactID) p → p.address ≠ [] →
      ∃ p', r.Alive S₂ now₂ node (S₂.locateChunkNodes h) p' ∧ p'.address = p.address := by
  constructor
  · intro hall h hh p hp haddr
    obtain ⟨q, hq, hqa⟩ := (hall h hh).1 p.proto (mem_locateArtifact.mpr ⟨p, hp, rfl⟩) haddr
    obtain ⟨p', hp', rfl⟩ := mem_get_refreshed hh hq
    exact ⟨p', hp', hqa⟩
  · intro hshared h hh
    refine ⟨fun q hq haddr => ?_, fun loc hloc hlh q hq haddr => ?_⟩
    · obtain ⟨p, hp, rfl⟩ := mem_locateArtifact.mp hq
      obtain ⟨p', hp', hpa⟩ := hshared h hh p hp haddr
      have haddr' : p'.address ≠ [] := by rw [hpa]; exact haddr
      obtain ⟨q, hq, hqa⟩ := covers_holders hh hp' haddr'
      exact ⟨q, hq, hqa.trans hpa⟩
    · obtain ⟨p, hp, rfl⟩ := ((mem_locateChunks hloc).2 q).mp hq
      rw [hlh] at hp
      exact covers_holders hh hp haddr

/-- A tracker to which one node has reported a complete artifact. -/
def oneSeed : StoreView :=
  ((Memory.new.upsertPeer 1 (.ofProto ⟨str "n1", str "10.0.0.1:9000", [], [], [], [], 0⟩ 1)).reportSeed
    1 (str "art") (str "n1")).view

/-- The only seed is returned for the artifact and lost for its chunk. -/
theorem oneSeed_lost :
    (newRegistry 0 (· == ·)).locateArtifact oneSeed 2 (str "n2") (str "art") =
      [⟨str "n1", str "10.0.0.1:9000", [], [], [], [], 0⟩] ∧
    (refreshed (newRegistry 0 (· == ·)) oneSeed oneSeed 2 2 (str "n2") (str "art") [str "sha256:c"]
      ⟨fun _ => []⟩).get (str "sha256:c") = [] := by
  constructor
  · decide +kernel
  · decide +kernel

end Spider
