import Spider.Strings

/-!
# Spider.Topology

Peers as the tracker hands them out and their order by proximity
(`pkg/topology`).

`strings.EqualFold` rests on the case-folding tables of the standard library
and is a parameter `eqFold`.
-/

namespace Spider

/-- `proto.PeerInfo`. -/
structure PeerInfo where
  nodeID : Str
  address : Str
  region : Str
  zone : Str
  rack : Str
  host : Str
  lastSeenUnix : Int
  deriving DecidableEq

/-- Topological domain identifiers. -/
structure Locality where
  region : Str
  zone : Str
  rack : Str
  host : Str
  deriving DecidableEq

/-- `FromProto`. -/
def Locality.ofProto (p : PeerInfo) : Locality :=
  ⟨trimSpace p.region, trimSpace p.zone, trimSpace p.rack, trimSpace p.host⟩

def scoreSameHost : Nat := 0
def scoreSameRack : Nat := 10
def scoreSameZone : Nat := 20
def scoreSameRegion : Nat := 30
def scoreRemote : Nat := 40

/-- Both identifiers are set and equal up to case. -/
def sameDomain (eqFold : Str → Str → Bool) (a b : Str) : Bool :=
  a != [] && b != [] && eqFold a b

/-- `Distance`. -/
def distance (eqFold : Str → Str → Bool) (a b : Locality) : Nat :=
  if sameDomain eqFold a.host b.host then scoreSameHost
  else if sameDomain eqFold a.rack b.rack then scoreSameRack
  else if sameDomain eqFold a.zone b.zone then scoreSameZone
  else if sameDomain eqFold a.region b.region then scoreSameRegion
  else scoreRemote

/-- The order of `SortPeersByProximity`: by distance, then by node id. -/
def closer (eqFold : Str → Str → Bool) (self : Locality) (p q : PeerInfo) : Bool :=
  let dp := distance eqFold self (.ofProto p)
  let dq := distance eqFold self (.ofProto q)
  if dp = dq then decide (p.nodeID < q.nodeID) else decide (dp < dq)

/-- `SortPeersByProximity`, a stable sort. -/
def sortPeersByProximity (eqFold : Str → Str → Bool) (self : Locality) (peers : List PeerInfo) :
    List PeerInfo :=
  peers.insertionSort fun p q => !closer eqFold self q p

section Proximity

variable {eqFold : Str → Str → Bool} {self : Locality} {peers : List PeerInfo} {p q w : PeerInfo}

theorem mem_sortPeersByProximity : p ∈ sortPeersByProximity eqFold self peers ↔ p ∈ peers :=
  List.mem_insertionSort _

theorem perm_sortPeersByProximity : (sortPeersByProximity eqFold self peers).Perm peers :=
  List.perm_insertionSort _ _

/-- A smaller distance, or the same one and a smaller node id. -/
def Nearer (eqFold : Str → Str → Bool) (self : Locality) (p q : PeerInfo) : Prop :=
  distance eqFold self (.ofProto p) < distance eqFold self (.ofProto q) ∨
    distance eqFold self (.ofProto p) = distance eqFold self (.ofProto q) ∧ p.nodeID < q.nodeID

theorem closer_iff : closer eqFold self p q = true ↔ Nearer eqFold self p q := by
  unfold closer Nearer
  by_cases hd : distance eqFold self (.ofProto p) = distance eqFold self (.ofProto q)
  · simp [hd]
  · simp [hd]

theorem not_nearer_total : ¬ Nearer eqFold self q p ∨ ¬ Nearer eqFold self p q := by
  by_contra hboth
  simp only [not_or, not_not] at hboth
  obtain ⟨hd | ⟨hd, hid⟩, hd' | ⟨hd', hid'⟩⟩ := hboth
  · omega
  · omega
  · omega
  · exact List.lt_irrefl _ (List.lt_trans hid hid')

theorem not_nearer_trans (hpq : ¬ Nearer eqFold self q p) (hqw : ¬ Nearer eqFold self w q) :
    ¬ Nearer eqFold self w p := by
  simp only [Nearer, not_or, not_and, Nat.not_lt] at hpq hqw ⊢
  refine ⟨by omega, fun hd => ?_⟩
  have hpq' := hpq.2 (by omega)
  have hqw' := hqw.2 (by omega)
  exact List.not_lt.mpr (List.le_trans (List.not_lt.mp hpq') (List.not_lt.mp hqw'))

theorem sorted_sortPeersByProximity :
    (sortPeersByProximity eqFold self peers).Pairwise fun p q => ¬ Nearer eqFold self q p := by
  have hrel : ∀ p q, (!closer eqFold self q p) = true ↔ ¬ Nearer eqFold self q p := by
    intro p q
    rw [← closer_iff, Bool.not_eq_true', Bool.not_eq_true]
  have htotal : Std.Total fun p q => (!closer eqFold self q p) = true :=
    ⟨fun p q => by simpa only [hrel] using not_nearer_total⟩
  have htrans : IsTrans PeerInfo fun p q => (!closer eqFold self q p) = true :=
    ⟨fun p q w => by simpa only [hrel] using not_nearer_trans⟩
  refine (List.pairwise_insertionSort _ peers).imp fun {p q} h => ?_
  exact (hrel p q).mp h

/-- Peers of distinct nodes are put in a strict order. -/
theorem strict_sortPeersByProximity (hnodup : (peers.map PeerInfo.nodeID).Nodup) :
    (sortPeersByProximity eqFold self peers).Pairwise (Nearer eqFold self) := by
  have hids : ((sortPeersByProximity eqFold self peers).map PeerInfo.nodeID).Nodup :=
    (perm_sortPeersByProximity.map _).nodup_iff.mpr hnodup
  rw [List.Nodup, List.pairwise_map] at hids
  refine (sorted_sortPeersByProximity.and hids).imp fun {p q} ⟨hle, hne⟩ => ?_
  simp only [Nearer, not_or, not_and, Nat.not_lt] at hle ⊢
  by_cases hd : distance eqFold self (.ofProto p) = distance eqFold self (.ofProto q)
  · have hid : p.nodeID ≤ q.nodeID := List.not_lt.mp (hle.2 hd.symm)
    have hlt : p.nodeID < q.nodeID := by
      by_contra hlt
      exact hne (List.le_antisymm hid (List.not_lt.mp hlt))
    exact .inr ⟨hd, hlt⟩
  · exact .inl (by omega)

end Proximity

/-! ## Regions and zones

`Distance` compares the name of each level on its own, so a peer that has the requester's rack
name counts as one of its rack, in whatever zone and region it is. -/

section Hierarchy

variable (eqFold : Str → Str → Bool) (self : Locality)

/-- The requester and a peer are in the same domain at a level. -/
def sameLevel (level : Locality → Str) (p : PeerInfo) : Bool :=
  sameDomain eqFold (level self) (level (.ofProto p))

/-- A peer outside the requester's domain at a level, and on another host. -/
def outside (level : Locality → Str) (p : PeerInfo) : Bool :=
  !sameLevel eqFold self level p && !sameLevel eqFold self Locality.host p

/-- One peer should not stand before the other: it is outside the requester's region and the
other one inside, or the same with the zone. -/
def Inverted (p q : PeerInfo) : Prop :=
  outside eqFold self Locality.region p = true ∧ sameLevel eqFold self Locality.region q = true ∨
    outside eqFold self Locality.zone p = true ∧ sameLevel eqFold self Locality.zone q = true

instance (p q : PeerInfo) : Decidable (Inverted eqFold self p q) :=
  inferInstanceAs (Decidable (_ ∨ _))

/-- An order in which regions and zones come first. -/
def Hierarchical (peers : List PeerInfo) : Prop :=
  peers.Pairwise fun p q => ¬ Inverted eqFold self p q

instance (peers : List PeerInfo) : Decidable (Hierarchical eqFold self peers) :=
  inferInstanceAs (Decidable (List.Pairwise _ _))

/-- The names of a peer do not bring it closer than those it should follow: if it has the
requester's rack name, only peers on the requester's host are among the latter, and if a peer
of another region has its zone name, only those on its host or rack. -/
def NamesNested (peers : List PeerInfo) : Prop :=
  ∀ p ∈ peers, ∀ q ∈ peers,
    (outside eqFold self Locality.region p = true → sameLevel eqFold self Locality.region q = true →
      (sameLevel eqFold self Locality.rack p = true → sameLevel eqFold self Locality.host q = true) ∧
      (sameLevel eqFold self Locality.zone p = true → sameLevel eqFold self Locality.host q = true ∨
        sameLevel eqFold self Locality.rack q = true)) ∧
    (outside eqFold self Locality.zone p = true → sameLevel eqFold self Locality.zone q = true →
      sameLevel eqFold self Locality.rack p = true → sameLevel eqFold self Locality.host q = true)

variable {eqFold self} {p q : PeerInfo} {peers : List PeerInfo}

theorem distance_eq : distance eqFold self (.ofProto p) =
    if sameLevel eqFold self Locality.host p then 0
    else if sameLevel eqFold self Locality.rack p then 10
    else if sameLevel eqFold self Locality.zone p then 20
    else if sameLevel eqFold self Locality.region p then 30
    else 40 := rfl

theorem distance_lt_of_region (hp : outside eqFold self Locality.region p = true)
    (hq : sameLevel eqFold self Locality.region q = true) :
    distance eqFold self (.ofProto q) < distance eqFold self (.ofProto p) ↔
      (sameLevel eqFold self Locality.rack p = true → sameLevel eqFold self Locality.host q = true) ∧
      (sameLevel eqFold self Locality.zone p = true → sameLevel eqFold self Locality.host q = true ∨
        sameLevel eqFold self Locality.rack q = true) := by
  simp only [outside, Bool.and_eq_true, Bool.not_eq_true'] at hp
  simp only [distance_eq, hp, hq]
  generalize sameLevel eqFold self Locality.rack p = rackP
  generalize sameLevel eqFold self Locality.zone p = zoneP
  generalize sameLevel eqFold self Locality.host q = hostQ
  generalize sameLevel eqFold self Locality.rack q = rackQ
  generalize sameLevel eqFold self Locality.zone q = zoneQ
  revert rackP zoneP hostQ rackQ zoneQ
  decide

theorem distance_lt_of_zone (hp : outside eqFold self Locality.zone p = true)
    (hq : sameLevel eqFold self Locality.zone q = true) :
    distance eqFold self (.ofProto q) < distance eqFold self (.ofProto p) ↔
      (sameLevel eqFold self Locality.rack p = true →
        sameLevel eqFold self Locality.host q = true) := by
  simp only [outside, Bool.and_eq_true, Bool.not_eq_true'] at hp
  simp only [distance_eq, hp, hq]
  generalize sameLevel eqFold self Locality.rack p = rackP
  generalize sameLevel eqFold self Locality.region p = regionP
  generalize sameLevel eqFold self Locality.host q = hostQ
  generalize sameLevel eqFold self Locality.rack q = rackQ
  generalize sameLevel eqFold self Locality.region q = regionQ
  revert rackP regionP hostQ rackQ regionQ
  decide

/-- The names are nested if every inverted pair is told apart by the distance. -/
theorem namesNested_iff : NamesNested eqFold self peers ↔ ∀ p ∈ peers, ∀ q ∈ peers,
    Inverted eqFold self p q →
      distance eqFold self (.ofProto q) < distance eqFold self (.ofProto p) := by
  refine forall₂_congr fun p _ => forall₂_congr fun q _ => ?_
  constructor
  · rintro ⟨hregion, hzone⟩ (⟨hp, hq⟩ | ⟨hp, hq⟩)
    · exact (distance_lt_of_region hp hq).mpr (hregion hp hq)
    · exact (distance_lt_of_zone hp hq).mpr (hzone hp hq)
  · intro h
    exact ⟨fun hp hq => (distance_lt_of_region hp hq).mp (h (.inl ⟨hp, hq⟩)),
      fun hp hq => (distance_lt_of_zone hp hq).mp (h (.inr ⟨hp, hq⟩))⟩

/-- Two peers of a sorted list, whichever comes first. -/
theorem sorted_or_flip (hp : p ∈ peers) (hq : q ∈ peers) (hne : p ≠ q) {R : PeerInfo → PeerInfo → Prop}
    (h : (sortPeersByProximity eqFold self peers).Pairwise R) :
    (R p q ∧ ¬ Nearer eqFold self q p) ∨ (R q p ∧ ¬ Nearer eqFold self p q) := by
  have hboth := h.and sorted_sortPeersByProximity
  have hsymm : (sortPeersByProximity eqFold self peers).Pairwise fun p q =>
      (R p q ∧ ¬ Nearer eqFold self q p) ∨ (R q p ∧ ¬ Nearer eqFold self p q) :=
    hboth.imp .inl
  have : Std.Symm fun p q =>
      (R p q ∧ ¬ Nearer eqFold self q p) ∨ (R q p ∧ ¬ Nearer eqFold self p q) := ⟨fun _ _ => Or.symm⟩
  exact hsymm.forall (mem_sortPeersByProximity.mpr hp) (mem_sortPeersByProximity.mpr hq) hne

/-- The same peers, with node ids that put one of them first among its equals. -/
def favoured (p q : PeerInfo) : PeerInfo :=
  { q with nodeID := if Locality.ofProto q = .ofProto p then [] else [0] }

end Hierarchy

/-- **The order respects regions and zones**, whatever the node ids of the peers, exactly if
their names are nested. -/
theorem hierarchical_sort_iff (eqFold : Str → Str → Bool) (self : Locality)
    (peers : List PeerInfo) :
    (∀ peers' : List PeerInfo, peers'.map Locality.ofProto = peers.map Locality.ofProto →
      Hierarchical eqFold self (sortPeersByProximity eqFold self peers')) ↔
    NamesNested eqFold self peers := by
  rw [namesNested_iff]
  constructor
  · intro h p hp q hq hinv
    by_contra hle
    have hne : Locality.ofProto q ≠ .ofProto p := by
      intro heq
      simp only [Inverted, outside, sameLevel, heq] at hinv
      grind
    have hsorted := h (peers.map (favoured p)) (by simp [favoured, Locality.ofProto])
    have hpq : favoured p p ≠ favoured p q := by simp [favoured, hne]
    -- the peer outside comes first: it is nearer, or as near and has the smaller id
    have hnearer : Nearer eqFold self (favoured p p) (favoured p q) := by
      have hid : (favoured p p).nodeID < (favoured p q).nodeID := by simp [favoured, hne]
      rcases Nat.lt_or_eq_of_le (Nat.not_lt.mp hle) with hlt | heq
      · exact .inl hlt
      · exact .inr ⟨heq, hid⟩
    rcases sorted_or_flip (List.mem_map_of_mem hp) (List.mem_map_of_mem hq) hpq hsorted with
      ⟨hkeeps, _⟩ | ⟨_, hnot⟩
    · exact hkeeps hinv
    · exact hnot hnearer
  · intro h peers' heq
    refine sorted_sortPeersByProximity.imp_of_mem fun {p q} hp hq hnot hinv => ?_
    have hmem : ∀ p ∈ sortPeersByProximity eqFold self peers', ∃ p₀ ∈ peers,
        Locality.ofProto p₀ = .ofProto p := by
      intro p hp
      have hloc : Locality.ofProto p ∈ peers.map Locality.ofProto :=
        heq ▸ List.mem_map_of_mem (mem_sortPeersByProximity.mp hp)
      exact List.mem_map.mp hloc
    obtain ⟨p₀, hp₀, hpeq⟩ := hmem p hp
    obtain ⟨q₀, hq₀, hqeq⟩ := hmem q hq
    have hlt := h p₀ hp₀ q₀ hq₀ (by simpa [Inverted, outside, sameLevel, hpeq, hqeq] using hinv)
    rw [hpeq, hqeq] at hlt
    exact hnot (.inl hlt)

/-- A peer of another region whose rack has the requester's rack name comes before one of the
requester's own zone. -/
theorem rackName_inverts :
    ¬ Hierarchical (· == ·) ⟨str "us-east-1", str "us-east-1a", str "rack-1", str "node-01"⟩
      (sortPeersByProximity (· == ·) ⟨str "us-east-1", str "us-east-1a", str "rack-1", str "node-01"⟩
        [⟨str "p1", str "10.0.0.1:1", str "us-east-1", str "us-east-1a", str "rack-2",
          str "node-02", 0⟩,
        ⟨str "p2", str "10.0.0.2:1", str "eu-west-1", str "eu-west-1a", str "rack-1",
          str "node-99", 0⟩]) := by
  decide

end Spider
