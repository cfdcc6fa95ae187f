import Spider.Cache.Integrity
import Spider.Engine.Fetch
import Spider.Engine.Resume
import Spider.Engine.Section
import Spider.Lib.History

/-!
# Spider.Engine.Blame

What the circuit breaker of the scheduler holds against a peer that serves
chunks correctly or refuses to serve them.

`fetchChunk` reports every transfer that does not end with a committed chunk as
a failure of the peer it came from: a refusal, and also a hash mismatch over
bytes that another peer has left in the partial file.  A transfer is in neither
danger if the peer does not refuse and the partial it continues is a beginning
of the chunk.  The others are harmless as long as they are few: at most two, those
in flight included (`fairTo`).

The proof follows the threads' transfers from one peer through a record beside
the state (`Pending`).  What a transfer does under its hash lock is seen through
the partial of its chunk, which no other thread touches (`sectionSystem`).
-/

namespace Spider

open Conc

/-! ## An honest peer -/

/-- The error of a call that the server ended with this status code. -/
def RemoteErr.hasCode (e : RemoteErr) (code : StatusCode) : Bool :=
  decide (e = (⟨code, e.msg.drop
    (str "rpc error: code = " ++ code.text ++ str " desc = ").length⟩ : Status).remoteErr)

/-- The peer has no upload slot, or not the chunk. -/
def refusal : PeerReply → Bool
  | .stream [] (.failed e) => e.hasCode .resourceExhausted || e.hasCode .notFound
  | _ => false

/-- A reply with the requested bytes of a chunk. -/
def delivers (H : Sha256) (h : Str) (content : Bytes) (offset : Int) (reply : PeerReply) : Bool :=
  decide (computeHash H content = h) && honestReply content false offset reply

/-- The peer serves the chunks it is asked for, to the end, or refuses. -/
def honestPeer (H : Sha256) (peer : Str) (contents : Str → Bytes) (refuses : Bool) :
    (c : FetchCmd) → c.Resp → Bool
  | .node (.net (.openStream addr h offset)), reply =>
      decide (addr ≠ peer) || delivers H h (contents h) offset reply || (refuses && refusal reply)
  | _, _ => true

/-- Any number of fetches, with one honest peer among the peers. -/
abbrev peerSystem (H : Sha256) (peer : Str) (contents : Str → Bytes) (refuses : Bool) :
    System fetchSig (Node × Scheduler) Tid :=
  fetchSystem.restrict (honestPeer H peer contents refuses)

/-- The transfer is bound to fail, or may do so: it is refused, or continues what
is no beginning of the chunk. -/
def spoiled (content : Bytes) (part : Option Bytes) (reply : PeerReply) : Bool :=
  refusal reply || !(part.getD []).isPrefixOf content

/-- The disk works, and a transfer from the peer is spoiled only while its failures
and its transfers in flight, this one included, are fewer than mark it. -/
def fairTo (peer : Str) (contents : Str → Bytes) :
    (c : FetchCmd) → c.Resp → Node × Scheduler → Bool
  | .node (.store c), r, _ => diskOk c r
  | .node (.net (.openStream addr h _)), reply, (n, sch) =>
      decide (addr ≠ peer) || !spoiled (contents h) (n.store.partials h) reply ||
        decide ((sch.stats peer).failures + (sch.stats peer).inflight < untrustedAfter)
  | _, _, _ => true

/-! ## Threads that fetch -/

/-- A call of `fetchChunk`. -/
structure FetchCall where
  work : WorkItem
  hasOrigin : Bool

def fetchAll (H : Sha256) (cfg : EngineConfig) : List FetchCall → FetchM Unit
  | [] => pure ()
  | call :: calls => do
      let _ ← Scheduled.fetchChunk H cfg.onCommit cfg.retryAttempts call.hasOrigin call.work
      fetchAll H cfg calls

/-! ## The partial of one chunk

What the commands of a lock section do to the partial of its chunk on a working
disk, and whether a transfer from the peer has been spoiled. -/

def sectionSystem (H : Sha256) (h : Str) (content : Bytes) :
    System nodeSig (Option Bytes × Bool) Tid where
  exec _ c r v := match c, r with
    | .store c, r => if diskOk c r then (partialAfter c r v.1).map (·, v.2) else none
    | .net (.openStream _ _ offset), reply =>
        if delivers H h content offset reply || refusal reply then
          some (v.1, v.2 || spoiled content v.1 reply)
        else none
    | _, _ => some v

theorem onPartial_section (H : Sha256) (h : Str) (content : Bytes) :
    OnPartial (sectionSystem H h content) := ⟨fun _ _ _ _ => rfl, fun _ _ _ _ => rfl⟩

section Section

variable {H : Sha256} {h : Str} {content : Bytes} {t : Tid} {p : Option Bytes} {d : Bool}
variable {α : Type} {Q : α → Option Bytes × Bool → Prop}

/-- What has been spoiled stays so. -/
theorem section_spoiled (body : NodeM α) :
    Post (sectionSystem H h content) t (fun _ v => v.2 = true) body (p, true) := by
  refine (Prog.only_true body).post (F := fun v : Option Bytes × Bool => v.2 = true)
    (fun c r v v' _ hd hx => ?_) rfl
  simp only [sectionSystem] at hx
  split at hx
  · split at hx
    · obtain ⟨q, -, rfl⟩ := Option.map_eq_some_iff.mp hx
      exact hd
    · contradiction
  · obtain ⟨-, ⟨⟩⟩ := Option.ite_none_right_eq_some.mp hx
    simp [hd]
  · rw [← Option.some.inj hx]
    exact hd

/-- The request to the peer: it serves the chunk, or the transfer is spoiled. -/
theorem section_openStream {addr : Str} {offset : Int} {k : PeerReply → NodeM α}
    (hk : ∀ reply, delivers H h content offset reply = true → (p.getD []) <+: content →
      Post (sectionSystem H h content) t Q (k reply) (p, d))
    (hspoiled : ∀ a q, Q a (q, true)) :
    Post (sectionSystem H h content) t Q (onNet (.openStream addr h offset) >>= k) (p, d) := by
  apply Post.perform
  intro reply v hx
  obtain ⟨hreply, ⟨⟩⟩ := Option.ite_none_right_eq_some.mp hx
  cases hs : spoiled content p reply with
  | true =>
      rw [Bool.or_true]
      exact (section_spoiled _).mono fun a v hv => by
        rw [← Prod.mk.eta (p := v), hv]
        exact hspoiled a v.1
  | false =>
      simp only [spoiled, Bool.or_eq_false_iff, Bool.not_eq_false'] at hs
      rw [hs.1, Bool.or_false] at hreply
      rw [Bool.or_false]
      exact hk reply hreply (List.isPrefixOf_iff_prefix.mp hs.2)

end Section

/-! ## Inside the lock sections of a fetch -/

/-- If a transfer from the peer is not spoiled, it ends with a committed chunk. -/
theorem section_fromPeer (H : Sha256) (cfg : EngineConfig) (work : WorkItem) (t : Tid)
    (peer : Str) (content : Bytes) (p : Option Bytes) :
    Post (sectionSystem H work.hash content) t (fun res v => errorOf res = none ∨ v.2 = true)
      (transferSection H cfg.onCommit (.peer peer) work) (p, false) := by
  by_cases hhash : computeHash H content = work.hash
  · have hh : (parseHash work.hash).isSome = true := by
      rw [← hhash, parseHash_computeHash]
      rfl
    apply (section_partialSize (onPartial_section _ _ _) hh).seq
    rintro _ _ ⟨rfl, rfl⟩
    apply (section_resumeFrom (onPartial_section _ _ _) hh _).seq
    rintro _ _ ⟨q, rfl, rfl⟩
    apply section_openStream _ fun _ _ => .inr rfl
    intro reply hreply hq
    simp only [delivers, Bool.and_eq_true, decide_eq_true_eq] at hreply
    obtain ⟨hsent, hwhole⟩ := downloadChunkTo_sent peer (Int.natCast_nonneg _)
      (Int.ofNat_le.mpr hq.length_le) hreply.2
    have herr := hwhole rfl
    obtain ⟨hblocks, htotal⟩ := hsent.complete herr
    simp only [herr]
    apply (section_appendPartial (onPartial_section _ _ _) hh _).seq
    rintro _ _ ⟨rfl, rfl⟩
    apply Post.perform
    intro _ v hv
    have hfull : q.getD [] ++ (copyReads (downloadChunkTo peer
        ((q.getD []).length : Int) reply).blocks).flatten = content := by
      rw [flatten_copyReads, hblocks]
      exact List.prefix_iff_eq_append.mp hq
    rw [hfull] at hv
    rw [← Option.some.inj hv]
    exact (section_finishTransfer (onPartial_section _ _ _) hh cfg hhash htotal).mono fun _ _ h => .inl h
  · -- no bytes are those of the chunk, so the peer refuses
    refine (post_true _).seq fun size v _ => (post_true _).seq fun offset v _ => ?_
    apply section_openStream _ fun _ _ => .inr rfl
    intro reply hreply _
    simp [delivers, hhash] at hreply

/-! ## The transfers from one peer -/

/-- The threads with a transfer from the peer in flight, and those among them whose
transfer has been spoiled. -/
structure Pending where
  running : List Tid
  failing : List Tid

def Pending.note (peer : Str) (contents : Str → Bytes) (t : Tid) :
    (c : FetchCmd) → c.Resp → Node × Scheduler → Pending → Pending
  | .beginTransfer addr, began, _, g =>
      if addr = peer ∧ began = true then { g with running := t :: g.running } else g
  | .endTransfer addr _, _, _, g =>
      if addr = peer then ⟨g.running.erase t, g.failing.erase t⟩ else g
  | .node (.net (.openStream addr h _)), reply, (n, _), g =>
      if addr = peer ∧ spoiled (contents h) (n.store.partials h) reply = true then
        { g with failing := g.failing.insert t }
      else g
  | _, _, _, g => g

/-- The fetches, with a record of the transfers from the peer. -/
abbrev pendingSystem (H : Sha256) (peer : Str) (contents : Str → Bytes) (refuses : Bool) :
    System fetchSig ((Node × Scheduler) × Pending) Tid :=
  ((peerSystem H peer contents refuses).meeting (fairTo peer contents)).record
    (Pending.note peer contents)

/-- The peer is not marked, and would not be if every spoiled transfer failed. -/
structure Trusted (peer : Str) (x : (Node × Scheduler) × Pending) : Prop where
  nodup : x.2.running.Nodup
  nodup_failing : x.2.failing.Nodup
  subset : x.2.failing ⊆ x.2.running
  inflight : (x.1.2.stats peer).inflight = x.2.running.length
  room : (x.1.2.stats peer).failures + x.2.failing.length < untrustedAfter
  unmarked : (x.1.2.stats peer).untrustedAt = none

/-- What a thread must have made sure of before a command. -/
def fetchAbout (peer : Str) (t : Tid) (x : (Node × Scheduler) × Pending) : FetchCmd → Prop
  | .node (.store c) => ∀ h, c.hash? = some h → c = .lockHash h ∨ x.1.1.store.locks h = some t
  | .node (.net (.openStream addr _ _)) => addr = peer → t ∈ x.2.running
  | .beginTransfer addr => addr = peer → t ∉ x.2.running
  | .endTransfer addr ok => addr = peer → t ∈ x.2.running ∧ (ok = true ∨ t ∈ x.2.failing)
  | _ => True

/-- What the other threads leave a thread: the partials it has locked, and its own
transfers. -/
structure FetchRely (t : Tid) (x x' : (Node × Scheduler) × Pending) : Prop where
  held : ∀ h, x.1.1.store.locks h = some t →
    x'.1.1.store.locks h = some t ∧ x'.1.1.store.partials h = x.1.1.store.partials h
  running : t ∈ x'.2.running ↔ t ∈ x.2.running
  failing : t ∈ x'.2.failing ↔ t ∈ x.2.failing

section Protocol

variable {H : Sha256} {peer : Str} {contents : Str → Bytes} {refuses : Bool} {t t' : Tid}
variable {x x' : (Node × Scheduler) × Pending}

theorem FetchRely.refl (t : Tid) (x : (Node × Scheduler) × Pending) : FetchRely t x x :=
  ⟨fun _ h => ⟨h, rfl⟩, Iff.rfl, Iff.rfl⟩

theorem FetchRely.trans {x1 x2 x3 : (Node × Scheduler) × Pending} (h1 : FetchRely t x1 x2)
    (h2 : FetchRely t x2 x3) : FetchRely t x1 x3 := by
  refine ⟨fun h hl => ?_, h2.running.trans h1.running, h2.failing.trans h1.failing⟩
  obtain ⟨hl2, hp2⟩ := h1.held h hl
  obtain ⟨hl3, hp3⟩ := h2.held h hl2
  exact ⟨hl3, hp3.trans hp2⟩

variable {c : FetchCmd}

/-- A step of the fetches. -/
theorem pending_eq_some {r : c.Resp}
    (hx : (pendingSystem H peer contents refuses).exec t c r x = some x') :
    fairTo peer contents c r x.1 = true ∧ honestPeer H peer contents refuses c r = true ∧
      fetchExec t c r x.1 = some x'.1 ∧ x'.2 = Pending.note peer contents t c r x.1 x.2 := by
  obtain ⟨hmeet, hnote⟩ := System.record_eq_some hx
  obtain ⟨hfair, hrestrict⟩ := System.meeting_eq_some hmeet
  obtain ⟨hhonest, hexec⟩ := System.restrict_eq_some hrestrict
  exact ⟨hfair, hhonest, hexec, hnote⟩

theorem fetchExec_node {c : Cmd} {r : c.Resp} {s s' : Node × Scheduler}
    (hx : fetchExec t (.node c) r s = some s') :
    ∃ n, nodeSystem.exec t c r s.1 = some n ∧ s' = (n, s.2) := by
  obtain ⟨n, hn, rfl⟩ := Option.map_eq_some_iff.mp hx
  exact ⟨n, hn, rfl⟩

theorem Trusted.of_stats {s : Node × Scheduler} (hi : Trusted peer x)
    (hstats : s.2.stats peer = x.1.2.stats peer) : Trusted peer (s, x.2) :=
  ⟨hi.nodup, hi.nodup_failing, hi.subset, by rw [hstats]; exact hi.inflight,
    by rw [hstats]; exact hi.room, by rw [hstats]; exact hi.unmarked⟩

/-- A request that is spoiled counts as a failure from now on. -/
theorem trusted_openStream {addr h : Str} {offset : Int} {reply : PeerReply} {n : Node}
    (hi : Trusted peer x) (ha : fetchAbout peer t x (.node (.net (.openStream addr h offset))))
    (hfair : fairTo peer contents (.node (.net (.openStream addr h offset))) reply x.1 = true) :
    Trusted peer ((n, x.1.2), Pending.note peer contents t (.node (.net (.openStream addr h offset)))
      reply x.1 x.2) := by
  simp only [Pending.note]
  split
  · rename_i hs
    have hin : t ∈ x.2.running := ha hs.1
    simp only [fairTo, hs.1, hs.2, ne_eq, not_true_eq_false, decide_false, Bool.not_true,
      Bool.false_or, decide_eq_true_eq] at hfair
    have hnodup : (x.2.failing.insert t).Nodup := hi.nodup_failing.insert
    have hsub : x.2.failing.insert t ⊆ x.2.running := by
      intro u hu
      rcases List.mem_insert_iff.mp hu with rfl | hu
      · exact hin
      · exact hi.subset hu
    have hlen : (x.2.failing.insert t).length ≤ x.2.running.length :=
      (hnodup.subperm hsub).length_le
    rw [← hi.inflight] at hlen
    exact ⟨hi.nodup, hnodup, hsub, hi.inflight, lt_of_le_of_lt (Nat.add_le_add_left hlen _) hfair,
      hi.unmarked⟩
  · exact hi.of_stats rfl

theorem trusted_beginTransfer {addr : Str} (hi : Trusted peer x)
    (ha : fetchAbout peer t x (.beginTransfer addr)) {n : Node} :
    Trusted peer ((n, (x.1.2.beginTransfer addr).2), Pending.note peer contents t
      (.beginTransfer addr) (x.1.2.beginTransfer addr).1 x.1 x.2) := by
  have hstats := x.1.2.beginTransfer_stats addr
  simp only [Pending.note]
  split
  · rename_i hb
    obtain ⟨rfl, hbegan⟩ := hb
    rw [hbegan] at hstats
    exact ⟨List.nodup_cons.mpr ⟨ha rfl, hi.nodup⟩, hi.nodup_failing,
      List.subset_cons_of_subset t hi.subset,
      by rw [hstats, List.length_cons, ← hi.inflight]; rfl,
      by rw [hstats]; exact hi.room, by rw [hstats]; exact hi.unmarked⟩
  · rename_i hb
    apply hi.of_stats
    by_cases haddr : addr = peer
    · have hbegan : (x.1.2.beginTransfer addr).1 = false := by simpa [haddr] using hb
      rw [hbegan] at hstats
      rw [← haddr, hstats]
      rfl
    · exact Scheduler.beginTransfer_stats_of_ne (Ne.symm haddr)

theorem trusted_endTransfer {addr : Str} {ok : Bool} {now : Time} (hi : Trusted peer x)
    (ha : fetchAbout peer t x (.endTransfer addr ok)) {n : Node} :
    Trusted peer ((n, x.1.2.endTransfer now addr ok),
      Pending.note peer contents t (.endTransfer addr ok) now x.1 x.2) := by
  simp only [Pending.note]
  split
  · rename_i haddr
    obtain ⟨hin, hok⟩ := ha haddr
    have hstats := x.1.2.endTransfer_stats now addr ok
    rw [haddr] at hstats ⊢
    have hroom := hi.room
    -- a transfer that fails has been spoiled, so its failure is counted already
    have hfew : ok = false → (x.1.2.stats peer).failures + 1 + (x.2.failing.erase t).length <
        untrustedAfter := by
      intro hfailed
      have hmem : t ∈ x.2.failing := hok.resolve_left (by simp [hfailed])
      have hpos := List.length_pos_of_mem hmem
      rw [List.length_erase_of_mem hmem]
      omega
    refine ⟨hi.nodup.erase t, hi.nodup_failing.erase t, fun u hu => ?_, ?_, ?_, ?_⟩
    · obtain ⟨hne, hu⟩ := hi.nodup_failing.mem_erase_iff.mp hu
      exact hi.nodup.mem_erase_iff.mpr ⟨hne, hi.subset hu⟩
    · rw [hstats, List.length_erase_of_mem hin, ← hi.inflight]
    · rw [hstats]
      cases ok with
      | false => exact hfew rfl
      | true =>
          have hle := List.length_erase_le (a := t) (l := x.2.failing)
          show 0 + (x.2.failing.erase t).length < untrustedAfter
          omega
    · rw [hstats]
      refine (if_neg ?_).trans hi.unmarked
      rintro ⟨hfailed, hle⟩
      have hless := hfew hfailed
      omega
  · rename_i haddr
    exact hi.of_stats (Scheduler.endTransfer_stats_of_ne (Ne.symm haddr))

theorem trusted_step {r : c.Resp} (hi : Trusted peer x) (ha : fetchAbout peer t x c)
    (hx : (pendingSystem H peer contents refuses).exec t c r x = some x') : Trusted peer x' := by
  obtain ⟨hfair, -, hexec, hg⟩ := pending_eq_some hx
  obtain ⟨s', g'⟩ := x'
  dsimp only at hexec hg
  subst hg
  cases c with
  | node c =>
      obtain ⟨n, -, rfl⟩ := fetchExec_node hexec
      cases c with
      | net c =>
          cases c with
          | openStream addr h offset => exact trusted_openStream hi ha hfair
          | _ => exact hi.of_stats rfl
      | _ => exact hi.of_stats rfl
  | endTransfer addr ok =>
      rw [← Option.some.inj hexec]
      exact trusted_endTransfer hi ha
  | rankPeers h =>
      obtain ⟨-, ⟨⟩⟩ := Option.ite_none_right_eq_some.mp hexec
      exact hi.of_stats (Scheduler.rankPeers_stats hi.unmarked)
  | isUntrusted addr =>
      obtain ⟨-, ⟨⟩⟩ := Option.ite_none_right_eq_some.mp hexec
      exact hi.of_stats rfl
  | beginTransfer addr =>
      obtain ⟨rfl, ⟨⟩⟩ := Option.ite_none_right_eq_some.mp hexec
      exact trusted_beginTransfer hi ha

/-- The store after a step of another thread. -/
theorem held_step {r : c.Resp} (ha : fetchAbout peer t x c) (hx : fetchExec t c r x.1 = some x'.1)
    (ht : t' ≠ t) {h : Str} (hl : x.1.1.store.locks h = some t') :
    x'.1.1.store.locks h = some t' ∧ x'.1.1.store.partials h = x.1.1.store.partials h := by
  have hkeep : x'.1.1.store = x.1.1.store → x'.1.1.store.locks h = some t' ∧
      x'.1.1.store.partials h = x.1.1.store.partials h := fun he => by rw [he]; exact ⟨hl, rfl⟩
  cases c with
  | node c =>
      obtain ⟨n, hn, hx'⟩ := fetchExec_node hx
      rw [hx']
      cases c with
      | store c =>
          obtain ⟨y, hy, rfl⟩ := nodeExec_store hn
          have heff := execStore_effect hy
          have hne : c.hash? ≠ some h := by
            intro hc
            cases ha h hc with
            | inl hlock =>
                rw [heff.lockFree h hlock] at hl
                contradiction
            | inr hmine =>
                rw [hmine, Option.some.injEq] at hl
                exact ht hl.symm
          obtain ⟨hp, hk⟩ := heff.other h hne
          exact ⟨hk.trans hl, hp⟩
      | _ =>
          have hsame := nodeExec_storeFree rfl hn
          rw [hsame]
          exact ⟨hl, rfl⟩
  | endTransfer addr ok => exact hkeep (by rw [← Option.some.inj hx])
  | rankPeers _ | isUntrusted _ | beginTransfer _ =>
      simp only [fetchExec, Option.ite_none_right_eq_some, Option.some.injEq] at hx
      exact hkeep (by rw [← hx.2])

/-- The record of another thread's transfers. -/
theorem note_of_ne (peer : Str) (contents : Str → Bytes) (c : FetchCmd) (r : c.Resp)
    (ht : t' ≠ t) (s : Node × Scheduler) (g : Pending) :
    (t' ∈ (Pending.note peer contents t c r s g).running ↔ t' ∈ g.running) ∧
      (t' ∈ (Pending.note peer contents t c r s g).failing ↔ t' ∈ g.failing) := by
  unfold Pending.note
  split
  · split <;> simp [ht]
  · split <;> simp [List.mem_erase_of_ne ht]
  · split <;> simp [ht]
  · exact ⟨Iff.rfl, Iff.rfl⟩

/-- The discipline of the fetches. -/
def fetchProtocol (H : Sha256) (peer : Str) (contents : Str → Bytes) (refuses : Bool) :
    Protocol (pendingSystem H peer contents refuses) where
  Inv x := Trusted peer x
  rely t x x' := FetchRely t x x'
  about t c x := fetchAbout peer t x c
  rely_refl := FetchRely.refl
  rely_trans := FetchRely.trans
  step_inv := trusted_step
  step_rely := by
    intro t c r x x' t' _ ha hx ht
    obtain ⟨-, -, hexec, hg⟩ := pending_eq_some hx
    obtain ⟨hrun, hfail⟩ := note_of_ne peer contents c r ht x.1 x.2
    rw [← hg] at hrun hfail
    exact ⟨fun h hl => held_step ha hexec ht hl, hrun, hfail⟩

end Protocol

/-! ## One thread -/

/-- Whether the thread has a transfer from the peer in flight, and whether that has
been spoiled. -/
structure Standing (t : Tid) (run fail : Bool) (x : (Node × Scheduler) × Pending) : Prop where
  running : t ∈ x.2.running ↔ run = true
  failing : t ∈ x.2.failing ↔ fail = true

section Thread

variable {H : Sha256} {peer : Str} {contents : Str → Bytes} {refuses : Bool} {t : Tid}
variable {x x' : (Node × Scheduler) × Pending} {run fail : Bool}
variable {α : Type} {Q : α → (Node × Scheduler) × Pending → Prop}

theorem Standing.rely (hs : Standing t run fail x) (hr : FetchRely t x x') :
    Standing t run fail x' :=
  ⟨hr.running.trans hs.running, hr.failing.trans hs.failing⟩

theorem Standing.of_pending (hs : Standing t run fail x) (hg : x'.2 = x.2) :
    Standing t run fail x' :=
  ⟨hg ▸ hs.running, hg ▸ hs.failing⟩

variable {c : Cmd} {h : Str} {addr : Option Str} {result : α → Option Err}

/-- A command of the node that is no request to a peer. -/
theorem wp_onNode {k : c.Resp → NodeM α}
    (h : ∀ x', FetchRely t x x' → Trusted peer x' → fetchAbout peer t x' (.node c) ∧
      ∀ r x'', (pendingSystem H peer contents refuses).exec t (.node c) r x' = some x'' →
        Trusted peer x'' → (fetchProtocol H peer contents refuses).wp t Q (onNode (k r)) x'') :
    (fetchProtocol H peer contents refuses).wp t Q (onNode (@Prog.perform nodeSig c >>= k)) x :=
  Protocol.wp_perform h

/-- What a thread sees of its section: the partial of the chunk, and whether its
transfer has been spoiled. -/
def sectionView (t : Tid) (h : Str) (x : (Node × Scheduler) × Pending) : Option Bytes × Bool :=
  (x.1.1.store.partials h, decide (t ∈ x.2.failing))

/-- The thread is in a section of a transfer from the peer. -/
structure InSection (t : Tid) (h : Str) (x : (Node × Scheduler) × Pending) : Prop where
  lock : x.1.1.store.locks h = some t
  running : t ∈ x.2.running

theorem InSection.rely (hs : InSection t h x) (hr : FetchRely t x x') :
    InSection t h x' ∧ sectionView t h x' = sectionView t h x := by
  obtain ⟨hl, hpart⟩ := hr.held h hs.lock
  exact ⟨⟨hl, hr.running.mpr hs.running⟩, by simp only [sectionView, hpart, hr.failing]⟩

/-- A command of a section of a transfer from the peer. -/
theorem section_step {r : c.Resp} (hc : c.carries (some peer) h = true) (hs : InSection t h x)
    (hx : (pendingSystem H peer contents refuses).exec t (.node c) r x = some x') :
    InSection t h x' ∧ (sectionSystem H h (contents h)).exec t c r (sectionView t h x) =
      some (sectionView t h x') := by
  obtain ⟨hl, hrun⟩ := hs
  obtain ⟨hfair, hhonest, hexec, hg⟩ := pending_eq_some hx
  obtain ⟨n, hn, hx'⟩ := fetchExec_node hexec
  cases c with
  | store c =>
      obtain ⟨y, hy, rfl⟩ := nodeExec_store hn
      obtain ⟨hpart, hlocks⟩ := partialAfter_execStore hc hfair hy
      have hg : x'.2 = x.2 := hg
      refine ⟨⟨?_, hg ▸ hrun⟩, ?_⟩
      · rw [hx']
        exact (congrFun hlocks h).trans hl
      · have hok : diskOk c r = true := hfair
        simp only [sectionSystem, sectionView, hok, if_true, hpart, hx', hg, Option.map_some]
  | net c =>
      have hstore : x'.1.1.store = x.1.1.store := by
        rw [hx']
        exact nodeExec_storeFree rfl hn
      cases c with
      | openStream addr h' offset =>
          simp only [Cmd.carries, decide_eq_true_eq, Option.some.injEq] at hc
          obtain ⟨rfl, rfl⟩ := hc
          have hreply : (delivers H h' (contents h') offset r || refusal r) = true := by
            simp only [honestPeer, ne_eq, not_true_eq_false, decide_false, Bool.false_or,
              Bool.or_eq_true, Bool.and_eq_true] at hhonest ⊢
            exact hhonest.imp_right And.right
          have hg : x'.2 = if addr = addr ∧
              spoiled (contents h') (x.1.1.store.partials h') r = true then
                { x.2 with failing := x.2.failing.insert t } else x.2 := hg
          refine ⟨⟨by rw [hstore]; exact hl, ?_⟩, ?_⟩
          · rw [hg]
            split <;> exact hrun
          · simp only [sectionSystem, sectionView, hreply, if_true, hstore, hg, true_and]
            cases spoiled (contents h') (x.1.1.store.partials h') r <;> simp
      | joinDownloader _ | readOrigin _ _ _ =>
          have hg : x'.2 = x.2 := hg
          exact ⟨⟨by rw [hstore]; exact hl, hg ▸ hrun⟩,
            by simp only [sectionSystem, sectionView, hstore, hg]⟩
      | _ => contradiction
  | quota c =>
      have hstore : x'.1.1.store = x.1.1.store := by
        rw [hx']
        exact nodeExec_storeFree rfl hn
      have hg : x'.2 = x.2 := hg
      exact ⟨⟨by rw [hstore]; exact hl, hg ▸ hrun⟩,
        by simp only [sectionSystem, sectionView, hstore, hg]⟩
  | _ => contradiction

/-- A command of a section of a transfer from elsewhere. -/
theorem elsewhere_step {r : c.Resp} (haddr : addr ≠ some peer) (hc : c.carries addr h = true)
    (hx : (pendingSystem H peer contents refuses).exec t (.node c) r x = some x') :
    x'.1.1.store.locks = x.1.1.store.locks ∧ x'.2 = x.2 := by
  obtain ⟨hfair, -, hexec, hg⟩ := pending_eq_some hx
  obtain ⟨n, hn, hx'⟩ := fetchExec_node hexec
  cases c with
  | store c =>
      obtain ⟨y, hy, rfl⟩ := nodeExec_store hn
      exact ⟨by rw [hx']; exact (partialAfter_execStore hc hfair hy).2, hg⟩
  | net c =>
      refine ⟨by rw [hx', nodeExec_storeFree rfl hn], ?_⟩
      cases c with
      | openStream a h' offset =>
          simp only [Cmd.carries, decide_eq_true_eq] at hc
          refine hg.trans (if_neg ?_)
          rintro ⟨he, -⟩
          exact haddr (by rw [← hc.1, he])
      | _ => exact hg
  | quota c => exact ⟨by rw [hx', nodeExec_storeFree rfl hn], hg⟩
  | _ => contradiction

/-- A section works on the partial it has locked. -/
theorem hash?_of_inSection {h' : Str} {c : StoreCmd} (hc : c.inSection h = true)
    (hh : c.hash? = some h') : h' = h := by
  have hname := worksOn_of_inSection hc
  cases c with
  | removePartial _ | openPartial _ | writePartial _ _ | renamePartial _ =>
      simp only [StoreCmd.worksOn, decide_eq_true_eq] at hname
      rw [← Option.some.inj hh, hname]
  | _ => contradiction

theorem about_of_carries (hc : c.carries addr h = true) (hl : x.1.1.store.locks h = some t)
    (hrun : addr = some peer → t ∈ x.2.running) : fetchAbout peer t x (.node c) := by
  cases c with
  | store c =>
      intro h' hh
      right
      rw [hash?_of_inSection hc hh]
      exact hl
  | net c =>
      cases c with
      | openStream a h' offset =>
          simp only [Cmd.carries, decide_eq_true_eq] at hc
          exact fun he => hrun (by rw [← hc.1, he])
      | _ => exact trivial
  | _ => exact trivial

theorem onNode_bind {β : Type} (p : NodeM α) (f : α → NodeM β) :
    onNode (p >>= f) = onNode p >>= fun a => onNode (f a) :=
  Prog.interp_bind p f

/-- A function of the node under its hash lock. -/
theorem wp_underLock {body : NodeM α} {R : α → Bool → Prop} (hs : Standing t run fail x)
    (hbody : ∀ x', Trusted peer x' → Standing t run fail x' → x'.1.1.store.locks h = some t →
      (fetchProtocol H peer contents refuses).wp t (fun a x'' => x''.1.1.store.locks h = some t ∧
        ∃ fail', Standing t run fail' x'' ∧ R a fail') (onNode body) x') :
    (fetchProtocol H peer contents refuses).wp t
      (fun a x' => ∃ fail', Standing t run fail' x' ∧ R a fail')
      (onNode (withHashLock h result body)) x := by
  apply wp_onNode
  intro x1 hr1 _
  refine ⟨fun h' hc => .inl (by rw [← Option.some.inj hc]), fun r x2 hx hi2 => ?_⟩
  obtain ⟨-, -, hexec, hg⟩ := pending_eq_some hx
  have hs2 : Standing t run fail x2 := (hs.rely hr1).of_pending hg
  have hl2 : x2.1.1.store.locks h = some t := by
    obtain ⟨n, hn, hx2⟩ := fetchExec_node hexec
    obtain ⟨y, hy, rfl⟩ := nodeExec_store hn
    simp only [execStore, Option.ite_none_right_eq_some, Option.some.injEq] at hy
    rw [hx2, ← hy.2]
    exact Function.update_self ..
  rw [onNode_bind]
  apply Protocol.wp_seq hi2 (hbody x2 hi2 hs2 hl2)
  rintro a x3 _ ⟨hl3, fail', hs3, hR⟩
  apply wp_onNode
  intro x4 hr4 _
  refine ⟨fun h' hc => .inr ?_, fun r x5 hx5 _ => ?_⟩
  · rw [← Option.some.inj hc]
    exact (hr4.held h hl3).1
  · obtain ⟨-, -, -, hg5⟩ := pending_eq_some hx5
    apply Protocol.wp_pure
    intro x6 hr6 _
    exact ⟨fail', ((hs3.rely hr4).of_pending hg5).rely hr6, hR⟩

/-- A download from the peer: it succeeds, or it has been spoiled. -/
theorem wp_fromPeer (cfg : EngineConfig) (work : WorkItem) (hs : Standing t true false x) :
    (fetchProtocol H peer contents refuses).wp t
      (fun res x' => ∃ fail', Standing t true fail' x' ∧ (errorOf res = none ∨ fail' = true))
      (onNode (downloadFromPeer H cfg.onCommit peer work)) x := by
  rw [downloadFromPeer_eq]
  apply wp_underLock hs
  intro x1 hi1 hs1 hl1
  have hview : sectionView t work.hash x1 = (x1.1.1.store.partials work.hash, false) := by
    have hnot : t ∉ x1.2.failing := fun h => by simpa using hs1.failing.mp h
    simp [sectionView, hnot]
  have hin : InSection t work.hash x1 := ⟨hl1, hs1.running.mpr rfl⟩
  refine Protocol.wp_mono ?_ (Protocol.wp_interp (G := InSection t work.hash)
    (N := sectionSystem H work.hash (contents work.hash)) (v := sectionView t work.hash)
    (fun _ _ hr h => h.rely hr) ?_ only_transferSection hi1 hin
    (by rw [hview]; exact section_fromPeer H cfg work t peer _ _))
  · rintro res x2 _ ⟨⟨hl2, hrun2⟩, hres⟩
    exact ⟨hl2, decide (t ∈ x2.2.failing), ⟨by simp [hrun2], by simp⟩, hres⟩
  · intro c x2 hc hin2 _ x3 hr _
    obtain ⟨hin3, hsame⟩ := hin2.rely hr
    refine ⟨about_of_carries hc hin3.lock fun _ => hin3.running, fun r x4 hx x5 hr5 _ => ?_⟩
    obtain ⟨hin4, hstep⟩ := section_step hc hin3 hx
    obtain ⟨hin5, hsame5⟩ := hin4.rely hr5
    rw [hsame] at hstep
    exact ⟨hin5, by rw [hsame5]; exact hstep⟩

/-- A transfer from elsewhere, under its lock. -/
theorem wp_elsewhere {body : NodeM α} (haddr : addr ≠ some peer)
    (hbody : body.Only fun c : Cmd => c.carries addr h = true) (hs : Standing t false false x) :
    (fetchProtocol H peer contents refuses).wp t (fun _ x' => Standing t false false x')
      (onNode (withHashLock h result body)) x := by
  refine Protocol.wp_mono (Q := fun _ x' => ∃ fail', Standing t false fail' x' ∧ fail' = false)
    (by rintro _ _ _ ⟨_, hs, rfl⟩; exact hs) (wp_underLock hs fun x1 hi1 hs1 hl1 => ?_)
  refine Protocol.wp_mono ?_ (Protocol.wp_interp (N := ⟨fun _ _ _ _ => some ()⟩) (v := fun _ => ())
    (G := fun x => x.1.1.store.locks h = some t ∧ Standing t false false x) ?_ ?_ hbody hi1
    ⟨hl1, hs1⟩ (post_true _))
  · rintro a x2 _ ⟨⟨hl2, hs2⟩, -⟩
    exact ⟨hl2, false, hs2, rfl⟩
  · rintro x2 x3 hr ⟨hl2, hs2⟩
    exact ⟨⟨(FetchRely.held hr h hl2).1, hs2.rely hr⟩, rfl⟩
  · intro c x2 hc ⟨hl2, hs2⟩ _ x3 hr _
    have hl3 := (FetchRely.held hr h hl2).1
    refine ⟨about_of_carries hc hl3 fun he => absurd he haddr, fun r x4 hx x5 hr5 _ => ?_⟩
    obtain ⟨hlocks, hg⟩ := elsewhere_step haddr hc hx
    have hl4 : x4.1.1.store.locks h = some t := by rw [hlocks]; exact hl3
    have hs4 : Standing t false false x4 := (hs2.rely hr).of_pending hg
    exact ⟨⟨(FetchRely.held hr5 h hl4).1, hs4.rely hr5⟩, rfl⟩

/-- A command that touches neither the store nor the peer. -/
theorem wp_onNode_net {c : NetCmd} {k : c.Resp → NodeM α}
    (hc : ∀ addr h offset, c ≠ .openStream addr h offset) (hs : Standing t run fail x)
    (hk : ∀ r x', Trusted peer x' → Standing t run fail x' →
      (fetchProtocol H peer contents refuses).wp t Q (onNode (k r)) x') :
    (fetchProtocol H peer contents refuses).wp t Q (onNode (onNet c >>= k)) x := by
  apply wp_onNode
  intro x1 hr _
  refine ⟨?_, fun r x2 hx hi2 => ?_⟩
  · cases c with
    | openStream addr h offset => exact absurd rfl (hc addr h offset)
    | _ => exact trivial
  · obtain ⟨-, -, -, hg⟩ := pending_eq_some hx
    refine hk r x2 hi2 ((hs.rely hr).of_pending ?_)
    cases c with
    | openStream addr h offset => exact absurd rfl (hc addr h offset)
    | _ => exact hg

theorem wp_throughSemaphore (cfg : EngineConfig) (work : WorkItem)
    (hs : Standing t false false x) :
    (fetchProtocol H peer contents refuses).wp t (fun _ x' => Standing t false false x')
      (onNode (downloadFromOrigin H cfg.onCommit work)) x := by
  apply wp_onNode_net (by simp) hs
  intro acquired x1 hi1 hs1
  cases acquired with
  | some deadline => exact Protocol.wp_pure fun x' hr _ => hs1.rely hr
  | none =>
      rw [onNode_bind, readFromOrigin_eq]
      apply Protocol.wp_seq hi1 (wp_elsewhere (by simp [ChunkSource.addr]) only_transferSection hs1)
      intro res x2 _ hs2
      exact wp_onNode_net (by simp) hs2 fun _ x3 _ hs3 =>
        Protocol.wp_pure fun x' hr _ => hs3.rely hr

theorem wp_fetchFromOrigin (cfg : EngineConfig) (hasOrigin : Bool) (work : WorkItem)
    (hi : Trusted peer x) (hs : Standing t false false x) :
    (fetchProtocol H peer contents refuses).wp t (fun _ x' => Standing t false false x')
      (onNode (fetchFromOrigin H cfg.onCommit hasOrigin work)) x := by
  rw [fetchFromOrigin]
  split
  · exact Protocol.wp_pure fun x' hr _ => hs.rely hr
  · rw [onNode_bind]
    apply Protocol.wp_seq hi (wp_throughSemaphore cfg work hs)
    intro res x1 _ hs1
    cases res <;> exact Protocol.wp_pure fun x' hr _ => hs1.rely hr

/-- A command of the scheduler. -/
theorem wp_onFetch {c : FetchCmd} {k : c.Resp → FetchM α}
    (h : ∀ x', FetchRely t x x' → Trusted peer x' → fetchAbout peer t x' c ∧
      ∀ r x'', x''.2 = Pending.note peer contents t c r x'.1 x'.2 → Trusted peer x'' →
        (fetchProtocol H peer contents refuses).wp t Q (k r) x'') :
    (fetchProtocol H peer contents refuses).wp t Q (onFetch c >>= k) x := by
  apply Protocol.wp_perform
  intro x' hr hi'
  obtain ⟨ha, hk⟩ := h x' hr hi'
  refine ⟨ha, fun r x'' hx hi => ?_⟩
  obtain ⟨-, -, -, hg⟩ := pending_eq_some hx
  exact hk r x'' hg hi

theorem wp_isUntrusted {addr : Str} {k : Time × Bool → FetchM α} (hs : Standing t run fail x)
    (hk : ∀ r x', Trusted peer x' → Standing t run fail x' →
      (fetchProtocol H peer contents refuses).wp t Q (k r) x') :
    (fetchProtocol H peer contents refuses).wp t Q (onFetch (.isUntrusted addr) >>= k) x := by
  apply wp_onFetch
  intro x1 hr _
  exact ⟨trivial, fun r x2 hg hi => hk r x2 hi ((hs.rely hr).of_pending hg)⟩

/-- The transfer from a peer between its beginning and its end. -/
theorem wp_attempt (cfg : EngineConfig) (work : WorkItem) (addr : Str)
    (hi : Trusted peer x) (hs : Standing t (decide (addr = peer)) false x)
    {k : Except Err Int → FetchM α}
    (hk : ∀ res x', Trusted peer x' → Standing t false false x' →
      (fetchProtocol H peer contents refuses).wp t Q (k res) x') :
    (fetchProtocol H peer contents refuses).wp t Q
      (do
        let res ← onNode (downloadFromPeer H cfg.onCommit addr work)
        let _ ← onFetch (.endTransfer addr (errorOf res).isNone)
        k res) x := by
  by_cases haddr : addr = peer
  · subst haddr
    simp only [decide_true] at hs
    apply Protocol.wp_seq hi (wp_fromPeer cfg work hs)
    rintro res x1 _ ⟨fail', hs1, hres⟩
    apply wp_onFetch
    intro x2 hr hi2
    have hs2 := hs1.rely hr
    refine ⟨fun _ => ⟨hs2.running.mpr rfl, hres.imp (fun h => by rw [h]; rfl) hs2.failing.mpr⟩, ?_⟩
    intro now x3 hg hi3
    have hg : x3.2 = ⟨x2.2.running.erase t, x2.2.failing.erase t⟩ := hg.trans (if_pos rfl)
    refine hk res x3 hi3 ⟨?_, ?_⟩
    · simp [hg, hi2.nodup.mem_erase_iff]
    · simp [hg, hi2.nodup_failing.mem_erase_iff]
  · simp only [haddr, decide_false] at hs
    rw [downloadFromPeer_eq]
    apply Protocol.wp_seq hi (wp_elsewhere (by simpa [ChunkSource.addr] using haddr) only_transferSection hs)
    intro res x1 _ hs1
    apply wp_onFetch
    intro x2 hr _
    exact ⟨fun he => absurd he haddr, fun now x3 hg hi3 =>
      hk res x3 hi3 ((hs1.rely hr).of_pending (hg.trans (if_neg haddr)))⟩

theorem wp_tryPeers (cfg : EngineConfig) (work : WorkItem) (addrs : List Str)
    (hi : Trusted peer x) (hs : Standing t false false x) :
    (fetchProtocol H peer contents refuses).wp t (fun _ x' => Standing t false false x')
      (Scheduled.tryPeers H cfg.onCommit work addrs) x := by
  induction addrs generalizing x with
  | nil => exact Protocol.wp_pure fun x' hr _ => hs.rely hr
  | cons addr addrs ih =>
      rw [Scheduled.tryPeers]
      split
      · exact ih hi hs
      · apply wp_isUntrusted hs
        rintro ⟨_, untrusted⟩ x1 hi1 hs1
        cases untrusted with
        | true => exact ih hi1 hs1
        | false =>
            apply wp_onFetch
            intro x2 hr _
            have hs2 := hs1.rely hr
            refine ⟨fun _ h => by simpa using hs2.running.mp h, fun began x3 hg hi3 => ?_⟩
            cases began with
            | false =>
                exact ih hi3 (hs2.of_pending (hg.trans (if_neg (by simp))))
            | true =>
                have hs3 : Standing t (decide (addr = peer)) false x3 := by
                  by_cases haddr : addr = peer
                  · have hg' := hg.trans (if_pos ⟨haddr, rfl⟩)
                    exact ⟨by rw [hg']; simp [haddr], by rw [hg']; exact hs2.failing⟩
                  · simp only [haddr, decide_false]
                    exact hs2.of_pending (hg.trans (if_neg fun h => haddr h.1))
                apply wp_attempt cfg work addr hi3 hs3
                intro res x4 hi4 hs4
                cases res with
                | ok n => exact Protocol.wp_pure fun x' hr _ => hs4.rely hr
                | error e => exact wp_isUntrusted hs4 fun _ x5 hi5 hs5 => ih hi5 hs5

theorem wp_fetchAttempts (cfg : EngineConfig) (hasOrigin : Bool) (work : WorkItem) (left : Nat)
    (hi : Trusted peer x) (hs : Standing t false false x) :
    (fetchProtocol H peer contents refuses).wp t (fun _ x' => Standing t false false x')
      (Scheduled.fetchAttempts H cfg.onCommit hasOrigin work left) x := by
  induction left generalizing x with
  | zero => exact wp_fetchFromOrigin cfg hasOrigin work hi hs
  | succ left ih =>
      apply wp_onFetch
      intro x1 hr _
      refine ⟨trivial, fun cands x2 hg hi2 => ?_⟩
      have hs2 : Standing t false false x2 := (hs.rely hr).of_pending hg
      apply Protocol.wp_seq hi2 (wp_tryPeers cfg work cands.order hi2 hs2)
      intro delivered x3 hi3 hs3
      cases delivered with
      | some n => exact Protocol.wp_pure fun x' hr _ => hs3.rely hr
      | none =>
          dsimp only
          split
          · exact ih hi3 hs3
          · apply Protocol.wp_seq hi3 (R := fun _ x' => Standing t false false x')
            · exact wp_onNode_net (k := pure) (by simp) hs3 fun _ x4 _ hs4 =>
                Protocol.wp_pure fun x' hr _ => hs4.rely hr
            · intro r x4 hi4 hs4
              cases r with
              | some deadline => exact Protocol.wp_pure fun x' hr _ => hs4.rely hr
              | none => exact ih hi4 hs4

theorem wp_fetchAll (cfg : EngineConfig) (calls : List FetchCall) (hi : Trusted peer x)
    (hs : Standing t false false x) :
    (fetchProtocol H peer contents refuses).wp t (fun _ _ => True) (fetchAll H cfg calls) x := by
  induction calls generalizing x with
  | nil => exact Protocol.wp_pure fun _ _ _ => trivial
  | cons call calls ih =>
      apply Protocol.wp_seq hi (wp_fetchAttempts cfg call.hasOrigin call.work _ hi hs)
      intro _ x1 hi1 hs1
      exact ih hi1 hs1

end Thread

/-! ## The circuit breaker -/

/-- **A peer that is fair to is not marked.**  In every run of any number of
fetches in which the disk works and a request to the honest peer is refused, or
finds a partial that is no beginning of the chunk, only while the peer's failures
and transfers in flight are fewer than three, the peer is never marked as
untrusted. -/
theorem honest_peer_trusted (H : Sha256) (cfg : EngineConfig) (peer : Str)
    (contents : Str → Bytes) (refuses : Bool) (calls : Tid → List FetchCall) (n : Node)
    (maxInflight : Int) (c : Config fetchSig (Node × Scheduler) Tid Unit)
    (hreach : Reachable ((peerSystem H peer contents refuses).meeting (fairTo peer contents))
      ⟨(n, .new maxInflight), fun t => fetchAll H cfg (calls t)⟩ c) :
    (c.st.2.stats peer).untrustedAt = none := by
  have hstart : Trusted peer ((n, Scheduler.new maxInflight), ⟨[], []⟩) :=
    ⟨List.nodup_nil, List.nodup_nil, List.nil_subset _, rfl, Nat.zero_lt_succ 2, rfl⟩
  have hwp : ∀ t, (fetchProtocol H peer contents refuses).wp t (fun _ _ => True)
      (fetchAll H cfg (calls t)) ((n, Scheduler.new maxInflight), ⟨[], []⟩) := fun t =>
    wp_fetchAll cfg (calls t) hstart ⟨by simp, by simp⟩
  have hrec : ∃ g, Reachable (pendingSystem H peer contents refuses)
      ⟨((n, Scheduler.new maxInflight), ⟨[], []⟩), fun t => fetchAll H cfg (calls t)⟩
      ⟨(c.st, g), c.prog⟩ := hreach.record _
  obtain ⟨g, hrec⟩ := hrec
  have hinv : Trusted peer (c.st, g) := (Protocol.sound hstart hwp hrec).1
  exact hinv.unmarked

/-! ## Runs of one fetch -/

/-- The answers on a node on which nothing fails, to fetches that know these
peers. -/
def World.answerFetch (W : World) (known : List Str) :
    (c : FetchCmd) → Node × Scheduler → c.Resp
  | .node c, (n, _) => W.answer c n
  | .rankPeers _, (_, sch) => ⟨known, 0, (sch.rankPeers 0 known).1⟩
  | .isUntrusted addr, (_, sch) => (0, sch.isUntrusted 0 addr)
  | .beginTransfer addr, (_, sch) => (sch.beginTransfer addr).1
  | .endTransfer _ _, _ => 0

/-- One thread fetches one chunk, in three attempts, with no origin. -/
def oneFetch : Config fetchSig (Node × Scheduler) Tid Unit :=
  ⟨(emptyNode, .new 4), fun t => fetchAll (.numbering [twoBytes])
    ⟨8, 3, false, false, defaultOptions⟩ (if t = 0 then [⟨twoBytesWork, false⟩] else [])⟩

/-- A peer that has not got the chunk. -/
def refusingPeer : World where
  candidates _ := []
  reply _ _ _ := .stream []
    (.failed (⟨.notFound, str "chunk not found in local cache"⟩ : Status).remoteErr)
  files := []

/-- One peer sends a wrong byte and drops the connection, the other one serves the
chunk from where it is asked to. -/
def honestAmongDropping : World where
  candidates _ := []
  reply addr h offset :=
    if addr = str "10.0.0.2:9000" then droppingPeer.reply addr h offset
    else .stream (sendFrames 2 offset [twoBytes.drop offset.toNat]) .eof
  files := []

/-- Where two refusals lead, and what is left of the fetch. -/
def refusedTwice : Config fetchSig (Node × Scheduler) Tid Unit :=
  oneFetch.play
    ((peerSystem (.numbering [twoBytes]) (str "10.0.0.3:9000") (fun _ => twoBytes) true).meeting
      (fairTo (str "10.0.0.3:9000") fun _ => twoBytes))
    (fun _ => refusingPeer.answerFetch [str "10.0.0.3:9000"]) (List.replicate 28 0)

theorem honest_peer_trusted_refusedTwice :
    (refusedTwice.st.2.stats (str "10.0.0.3:9000")).failures = 2 ∧
      (refusedTwice.st.2.stats (str "10.0.0.3:9000")).untrustedAt = none :=
  ⟨by decide +kernel, honest_peer_trusted (.numbering [twoBytes])
    ⟨8, 3, false, false, defaultOptions⟩ (str "10.0.0.3:9000") (fun _ => twoBytes) true _ emptyNode 4
    refusedTwice Config.reachable_play⟩

/-- Three refusals mark a peer; so do three downloads that complete what another
peer has begun with a wrong byte, though this one never refuses. -/
theorem honest_peers_marked :
    (∃ c, Reachable (peerSystem (.numbering [twoBytes]) (str "10.0.0.3:9000") (fun _ => twoBytes)
        true) oneFetch c ∧ (c.st.2.stats (str "10.0.0.3:9000")).untrustedAt ≠ none) ∧
      ∃ c, Reachable (peerSystem (.numbering [twoBytes]) (str "10.0.0.3:9000") (fun _ => twoBytes)
        false) oneFetch c ∧ (c.st.2.stats (str "10.0.0.3:9000")).untrustedAt ≠ none := by
  refine ⟨⟨oneFetch.play _ (fun _ => refusingPeer.answerFetch [str "10.0.0.3:9000"])
    (List.replicate 60 0), Config.reachable_play, ?_⟩,
    oneFetch.play _ (fun _ => honestAmongDropping.answerFetch
      [str "10.0.0.2:9000", str "10.0.0.3:9000"]) (List.replicate 150 0),
    Config.reachable_play, ?_⟩
  · decide +kernel
  · decide +kernel

end Spider
