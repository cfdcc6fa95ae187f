import Spider.Lib.Utf8
import Spider.Tracker.Store

/-!
# Spider.Tracker.Cached

The metadata cache in front of a store (`pkg/store/cached.go`): reads go through
the cache and fill it, writes go to the inner store first and then invalidate
keys of the cache.

Each method is a program whose commands are the calls on the inner store and
on the cache, readings of the clock, and the section of `Heartbeat` under the
mutex.  The batch operations of the cache are loops of the single ones, as in
the memory driver.  A `Get` may fail; the errors of the other cache operations
are dropped by the source, and these operations are taken to succeed.
-/

namespace Spider

open Conc

/-! ## Keys and documents -/

/-- The keys of the cache. -/
inductive Key where
  | peer (nodeID : Str)
  | peersList
  | artifact (artifactID : Str)
  | seeds (artifactID : Str)
  | locate (artifactID : Str)
  | chunks (hash : Str)
  deriving DecidableEq

def keyPeerPrefix : Str := str "peer:"
def keyPeersList : Str := str "peers:list"
def keyArtifactPrefix : Str := str "artifact:"
def keySeedsPrefix : Str := str "seeds:"
def keyLocatePrefix : Str := str "locate:"
def keyChunksPrefix : Str := str "chunks:"

/-- The family of a key. -/
def Key.family : Key → Str
  | .peer _ => keyPeerPrefix
  | .peersList => keyPeersList
  | .artifact _ => keyArtifactPrefix
  | .seeds _ => keySeedsPrefix
  | .locate _ => keyLocatePrefix
  | .chunks _ => keyChunksPrefix

/-- What a key adds to its family. -/
def Key.name : Key → Str
  | .peer nodeID => nodeID
  | .peersList => []
  | .artifact artifactID => artifactID
  | .seeds artifactID => artifactID
  | .locate artifactID => artifactID
  | .chunks hash => hash

/-- A key as the string the cache sees. -/
def Key.render (k : Key) : Str := k.family ++ k.name

/-- No family extends another one: in particular `peer:` is no prefix of
`peers:list`. -/
theorem family_eq_of_le {a b : Key} (h : a.family <+: b.family) : a.family = b.family := by
  revert h
  cases a <;> cases b <;> simp only [Key.family] <;> decide

theorem family_le_render {a b : Key} : a.family <+: b.render ↔ b.family = a.family := by
  constructor
  · intro h
    rcases List.prefix_or_prefix_of_prefix h (List.prefix_append b.family b.name) with hp | hp
    · exact (family_eq_of_le hp).symm
    · exact family_eq_of_le hp
  · intro h
    rw [← h]
    exact List.prefix_append _ _

/-- No two keys share a string. -/
theorem Key.render_injective : Function.Injective Key.render := by
  intro a b h
  have hfam : b.family = a.family := by
    rw [← family_le_render, ← h]
    exact List.prefix_append _ _
  have hname : a.name = b.name := by
    rw [Key.render, Key.render, hfam] at h
    exact List.append_cancel_left h
  cases a <;> cases b <;>
    first
    | exact congrArg _ hname
    | rfl
    | exact absurd hfam (by simp only [Key.family]; decide)

/-- The JSON documents of the cache; `empty` is what is stored for a value that
could not be marshalled. -/
inductive Doc where
  | peer (p : Peer)
  | peers (ps : List Peer)
  | artifact (a : ArtifactRecord)
  | strings (ss : List Str)
  | empty
  deriving DecidableEq

/-- `time.Time.MarshalJSON` takes the years 0 to 9999. -/
def jsonTime (t : Time) : Bool :=
  decide (-62167219200000000000 ≤ t) && decide (t < 253402300800000000000)

/-- A peer through JSON: bytes that are not UTF-8 are replaced. -/
def jsonPeer (p : Peer) : Option Peer :=
  if jsonTime p.lastHeartbeat then
    some ⟨Utf8.toValid p.nodeID, Utf8.toValid p.address, Utf8.toValid p.region,
      Utf8.toValid p.zone, Utf8.toValid p.rack, Utf8.toValid p.host, Utf8.toValid p.status,
      p.lastHeartbeat⟩
  else none

/-- `marshal` of a peer. -/
def marshalPeer (p : Peer) : Doc :=
  match jsonPeer p with
  | some q => .peer q
  | none => .empty

/-- `marshal` of a list of peers. -/
def marshalPeers (ps : List Peer) : Doc :=
  match ps.mapM jsonPeer with
  | some qs => .peers qs
  | none => .empty

/-- `marshal` of an artifact; the manifest is written in base64. -/
def marshalArtifact (a : ArtifactRecord) : Doc :=
  .artifact ⟨Utf8.toValid a.artifactID, Utf8.toValid a.name, Utf8.toValid a.version, a.manifestJSON⟩

/-- `marshalStrings`. -/
def marshalStrings (ss : List Str) : Doc := .strings (ss.map Utf8.toValid)

/-- `unmarshalPeer`. -/
def unmarshalPeer : Doc → Except Str Peer
  | .peer p => .ok p
  | _ => .error (str "unexpected end of JSON input")

/-- `unmarshalArtifact`. -/
def unmarshalArtifact : Doc → Except Str ArtifactRecord
  | .artifact a => .ok a
  | _ => .error (str "unexpected end of JSON input")

/-- `unmarshalStrings`; an error leaves nothing. -/
def unmarshalStrings : Doc → List Str
  | .strings ss => ss
  | _ => []

/-- The decoding of `ListPeers`; an error leaves nothing. -/
def unmarshalPeers : Doc → List Peer
  | .peers ps => ps
  | _ => []

/-! ## Commands -/

inductive CacheCmd where
  | inner (c : StoreCall)
  | get (k : Key)
  | set (k : Key) (doc : Doc)
  | delete (k : Key)
  | deletePrefix (p : Str)
  | now
  | flushDue (nodeID : Str)

abbrev CacheCmd.Resp : CacheCmd → Type
  | .inner c => Except Str c.Resp
  | .get _ => Except Str (Option Doc)
  | .set _ _ => Unit
  | .delete _ => Unit
  | .deletePrefix _ => Unit
  | .now => Time
  | .flushDue _ => Bool

abbrev cacheSig : Sig := ⟨CacheCmd, CacheCmd.Resp⟩

abbrev CachedM := Prog cacheSig

def callInner (c : StoreCall) : CachedM (Except Str c.Resp) :=
  Prog.perform (S := cacheSig) (.inner c)

def cacheGet (k : Key) : CachedM (Except Str (Option Doc)) := Prog.perform (S := cacheSig) (.get k)

def cacheSet (k : Key) (doc : Doc) : CachedM Unit := Prog.perform (S := cacheSig) (.set k doc)

def cacheDelete (k : Key) : CachedM Unit := Prog.perform (S := cacheSig) (.delete k)

def cacheDeletePrefix (p : Str) : CachedM Unit := Prog.perform (S := cacheSig) (.deletePrefix p)

def cachedNow : CachedM Time := Prog.perform (S := cacheSig) .now

/-- The section of `Heartbeat` under the mutex: whether the last heartbeat handed
to the inner store is long enough ago; if so, this one counts as the last. -/
def flushDue (nodeID : Str) : CachedM Bool := Prog.perform (S := cacheSig) (.flushDue nodeID)

/-- `MGet`, as the loop of the memory driver. -/
def cacheMGet (out : AList fun _ : Key => Doc) :
    List Key → CachedM (Except Str (AList fun _ : Key => Doc))
  | [] => pure (.ok out)
  | k :: ks => do
      match ← cacheGet k with
      | .error e => pure (.error e)
      | .ok none => cacheMGet out ks
      | .ok (some doc) => cacheMGet (out.insert k doc) ks

/-- `MSet`, as the loop of the memory driver. -/
def cacheMSet : List (Key × Doc) → CachedM Unit
  | [] => pure ()
  | (k, doc) :: items => do
      cacheSet k doc
      cacheMSet items

/-! ## Methods -/

namespace CachedStore

/-- `UpsertPeer`. -/
def upsertPeer (peer : Peer) : CachedM (Except Str Unit) := do
  match ← callInner (.upsertPeer peer) with
  | .error e => pure (.error e)
  | .ok _ =>
      cacheDelete (.peer peer.nodeID)
      cacheDelete .peersList
      pure (.ok ())

/-- A heartbeat noted in the cached peer, if there is one. -/
def touchCached (nodeID : Str) : CachedM Bool := do
  match ← cacheGet (.peer nodeID) with
  | .ok (some doc) =>
      match unmarshalPeer doc with
      | .ok p =>
          let now ← cachedNow
          cacheSet (.peer nodeID) (marshalPeer { p with lastHeartbeat := now })
          pure true
      | .error _ => pure false
  | _ => pure false

/-- A heartbeat handed on to the inner store. -/
def heartbeatInner (nodeID : Str) : CachedM (Except Str Bool) := do
  match ← callInner (.heartbeat nodeID) with
  | .error e => pure (.error e)
  | .ok false => pure (.ok false)
  | .ok true =>
      let _ ← touchCached nodeID
      pure (.ok true)

/-- `Heartbeat`: between those handed on it is only noted in the cache. -/
def heartbeat (nodeID : Str) : CachedM (Except Str Bool) := do
  if ← flushDue nodeID then heartbeatInner nodeID
  else if ← touchCached nodeID then pure (.ok true)
  else heartbeatInner nodeID

/-- A read from the inner store, with which the cache is filled. -/
def fetchAndFill {α : Type} (k : Key) (fetch : CachedM (Except Str α)) (encode : α → Option Doc) :
    CachedM (Except Str α) := do
  match ← fetch with
  | .error e => pure (.error e)
  | .ok a =>
      match encode a with
      | some doc => cacheSet k doc
      | none => pure ()
      pure (.ok a)

/-- A read of one key: through the cache or, also after an error of the cache, from
the inner store. -/
def readThrough {α : Type} (k : Key) (decode : Doc → Except Str α) (fetch : CachedM (Except Str α))
    (encode : α → Option Doc) : CachedM (Except Str α) := do
  match ← cacheGet k with
  | .ok (some doc) => pure (decode doc)
  | _ => fetchAndFill k fetch encode

/-- `GetPeer`; that there is none is not cached. -/
def getPeer (nodeID : Str) : CachedM (Except Str (Option Peer)) :=
  readThrough (.peer nodeID) (fun doc => (unmarshalPeer doc).map some) (callInner (.getPeer nodeID))
    fun p => p.map marshalPeer

/-- `filterExpiry`. -/
def filterExpiry (peers : List Peer) (expiry : Time) : CachedM (List Peer) :=
  if expiry ≤ 0 then pure peers
  else do
    let now ← cachedNow
    pure (peers.filter fun p => decide (durationSub now p.lastHeartbeat ≤ expiry))

/-- `ListPeers`: all peers are cached, and filtered at each call. -/
def listPeers (expiry : Time) : CachedM (Except Str (List Peer)) := do
  match ← readThrough .peersList (fun doc => .ok (unmarshalPeers doc)) (callInner (.listPeers 0))
      fun peers => some (marshalPeers peers) with
  | .error e => pure (.error e)
  | .ok peers =>
      let peers ← filterExpiry peers expiry
      pure (.ok peers)

/-- `DeregisterPeer`. -/
def deregisterPeer (nodeID : Str) : CachedM (Except Str Unit) := do
  match ← callInner (.deregisterPeer nodeID) with
  | .error e => pure (.error e)
  | .ok _ =>
      cacheDelete (.peer nodeID)
      cacheDelete .peersList
      cacheDeletePrefix keySeedsPrefix
      cacheDeletePrefix keyLocatePrefix
      cacheDeletePrefix keyChunksPrefix
      pure (.ok ())

/-- `PruneExpiredPeers`; nothing is invalidated if nothing was pruned. -/
def pruneExpiredPeers (expiry : Time) : CachedM (Except Str Nat) := do
  match ← callInner (.pruneExpiredPeers expiry) with
  | .error e => pure (.error e)
  | .ok n =>
      if n = 0 then pure (.ok n)
      else
        cacheDelete .peersList
        cacheDeletePrefix keyPeerPrefix
        cacheDeletePrefix keySeedsPrefix
        cacheDeletePrefix keyLocatePrefix
        cacheDeletePrefix keyChunksPrefix
        pure (.ok n)

/-- `PutArtifact`. -/
def putArtifact (rec : ArtifactRecord) : CachedM (Except Str Unit) := do
  match ← callInner (.putArtifact rec) with
  | .error e => pure (.error e)
  | .ok _ =>
      cacheDelete (.artifact rec.artifactID)
      pure (.ok ())

/-- `GetArtifact`; that there is none is not cached. -/
def getArtifact (artifactID : Str) : CachedM (Except Str (Option ArtifactRecord)) :=
  readThrough (.artifact artifactID) (fun doc => (unmarshalArtifact doc).map some)
    (callInner (.getArtifact artifactID)) fun a => a.map marshalArtifact

/-- `ReportSeed`. -/
def reportSeed (artifactID nodeID : Str) : CachedM (Except Str Unit) := do
  match ← callInner (.reportSeed artifactID nodeID) with
  | .error e => pure (.error e)
  | .ok _ =>
      cacheDelete (.seeds artifactID)
      cacheDelete (.locate artifactID)
      pure (.ok ())

/-- `ListSeeds`. -/
def listSeeds (artifactID : Str) : CachedM (Except Str (List Str)) :=
  readThrough (.seeds artifactID) (fun doc => .ok (unmarshalStrings doc))
    (callInner (.listSeeds artifactID)) fun ids => some (marshalStrings ids)

/-- The invalidations of `ReportChunks`. -/
def deleteChunks : List Str → CachedM Unit
  | [] => pure ()
  | h :: hashes => do
      cacheDelete (.chunks h)
      deleteChunks hashes

/-- `ReportChunks`. -/
def reportChunks (nodeID : Str) (hashes : List Str) : CachedM (Except Str Nat) := do
  match ← callInner (.reportChunks nodeID hashes) with
  | .error e => pure (.error e)
  | .ok n =>
      deleteChunks hashes
      pure (.ok n)

/-- `LocateChunkNodes`. -/
def locateChunkNodes (h : Str) : CachedM (Except Str (List Str)) :=
  readThrough (.chunks h) (fun doc => .ok (unmarshalStrings doc)) (callInner (.locateChunkNodes h))
    fun ids => some (marshalStrings ids)

/-- What was found in the cache, and the others from the inner store, with which
the cache is filled. -/
def completeBatch {α : Type} (got : AList fun _ : Key => Doc) (ids : List Str) (key : Str → Key)
    (decode : Doc → Option α)
    (fetch : List Str → CachedM (Except Str (AList fun _ : Str => α))) (encode : α → Doc) :
    CachedM (Except Str (AList fun _ : Str => α)) :=
  let misses := ids.filter fun id => (got.lookup (key id)).isNone
  let out := ids.foldl (fun out id =>
    match (got.lookup (key id)).bind decode with
    | some a => out.insert id a
    | none => out) (∅ : AList fun _ : Str => α)
  if misses = [] then pure (.ok out)
  else do
    match ← fetch misses with
    | .error e => pure (.error e)
    | .ok inner =>
        cacheMSet (inner.entries.map fun e => (key e.1, encode e.2))
        pure (.ok (inner.entries.foldl (fun out e => out.insert e.1 e.2) out))

section Batches

variable {α : Type} (got : AList fun _ : Key => Doc) (ids : List Str) (key : Str → Key)

/-- The ids that the cache does not have. -/
def misses : List Str := ids.filter fun id => (got.lookup (key id)).isNone

variable {got ids key}

theorem mem_misses {id : Str} : id ∈ misses got ids key ↔ id ∈ ids ∧ got.lookup (key id) = none := by
  simp [misses]

/-- Nothing has to be asked for. -/
theorem exists_of_misses_eq_nil (h : misses got ids key = []) {id : Str} (hid : id ∈ ids) :
    ∃ d, got.lookup (key id) = some d :=
  Option.ne_none_iff_exists'.mp (by simpa using List.filter_eq_nil_iff.mp h id hid)

/-- The map of a batch has what the cache had got, and the rest from the inner store. -/
theorem completeBatch_eq (got : AList fun _ : Key => Doc) (ids : List Str) (key : Str → Key)
    (decode : Doc → Option α) (fetch : List Str → CachedM (Except Str (AList fun _ : Str => α))) (encode : α → Doc) :
    ∃ hits : AList fun _ : Str => α,
      (∀ inner : AList fun _ : Str => α,
        (∀ id, id ∉ misses got ids key → inner.lookup id = none) → ∀ id,
        (inner.entries.foldl (fun out e => out.insert e.1 e.2) hits).lookup id =
          if id ∈ ids then (got.lookup (key id)).elim (inner.lookup id) decode else none) ∧
      completeBatch got ids key decode fetch encode =
        if misses got ids key = [] then pure (.ok hits)
        else (fetch (misses got ids key) >>= fun
          | .error e => pure (.error e)
          | .ok inner => do
              cacheMSet (inner.entries.map fun e => (key e.1, encode e.2))
              pure (.ok (inner.entries.foldl (fun out e => out.insert e.1 e.2) hits))) := by
  refine ⟨_, fun inner hinner id => ?_, rfl⟩
  have hnone := hinner id
  rw [mem_misses] at hnone
  rw [AList.lookup_foldl_copy,
    AList.lookup_foldl_collect (f := fun id => (got.lookup (key id)).bind decode)
      (fun _ _ _ hv => by rw [hv]) (fun _ _ hv => by rw [hv])]
  by_cases hid : id ∈ ids
  · cases hg : got.lookup (key id) with
    | none => simp [hid]
    | some d => simp [hnone (by simp [hg]), hid]
  · simp [hnone (fun h => hid h.1), hid]

/-- What the cache is filled with. -/
theorem mem_fetched {fetched : AList fun _ : Str => α} {encode : α → Doc}
    (h : ∀ id, id ∉ misses got ids key → fetched.lookup id = none) {i : Key × Doc}
    (hi : i ∈ fetched.entries.map fun e => (key e.1, encode e.2)) :
    ∃ id a, i = (key id, encode a) ∧ id ∈ misses got ids key ∧ fetched.lookup id = some a := by
  obtain ⟨⟨id, a⟩, he, rfl⟩ := List.mem_map.mp hi
  have hla : fetched.lookup id = some a := AList.mem_lookup_iff.mpr he
  refine ⟨id, a, rfl, ?_, hla⟩
  by_contra hnot
  rw [h id hnot] at hla
  contradiction

end Batches

/-- A read of several keys.  An error of the cache is returned. -/
def readBatch {α : Type} (ids : List Str) (key : Str → Key) (decode : Doc → Option α)
    (fetch : List Str → CachedM (Except Str (AList fun _ : Str => α))) (encode : α → Doc) :
    CachedM (Except Str (AList fun _ : Str => α)) :=
  if ids = [] then pure (.ok ∅)
  else do
    match ← cacheMGet ∅ (ids.map key) with
    | .error e => pure (.error e)
    | .ok got => completeBatch got ids key decode fetch encode

/-- `LocateChunkNodesBatch`. -/
def locateChunkNodesBatch (hashes : List Str) :
    CachedM (Except Str (AList fun _ : Str => List Str)) :=
  readBatch hashes .chunks (fun doc => some (unmarshalStrings doc))
    (fun misses => callInner (.locateChunkNodesBatch misses)) marshalStrings

/-- `GetPeersBatch`; a peer that does not decode is left out. -/
def getPeersBatch (nodeIDs : List Str) : CachedM (Except Str (AList fun _ : Str => Peer)) :=
  readBatch nodeIDs .peer (fun doc => (unmarshalPeer doc).toOption)
    (fun misses => callInner (.getPeersBatch misses)) marshalPeer

/-- The methods of the cached store. -/
def call : (c : StoreCall) → CachedM (Except Str c.Resp)
  | .upsertPeer peer => upsertPeer peer
  | .heartbeat nodeID => heartbeat nodeID
  | .getPeer nodeID => getPeer nodeID
  | .listPeers expiry => listPeers expiry
  | .deregisterPeer nodeID => deregisterPeer nodeID
  | .pruneExpiredPeers expiry => pruneExpiredPeers expiry
  | .putArtifact rec => putArtifact rec
  | .getArtifact artifactID => getArtifact artifactID
  | .reportSeed artifactID nodeID => reportSeed artifactID nodeID
  | .listSeeds artifactID => listSeeds artifactID
  | .reportChunks nodeID hashes => reportChunks nodeID hashes
  | .locateChunkNodes h => locateChunkNodes h
  | .locateChunkNodesBatch hashes => locateChunkNodesBatch hashes
  | .getPeersBatch nodeIDs => getPeersBatch nodeIDs

end CachedStore

/-- The tracker over the cached store. -/
def overCache {α : Type} (p : TrackerM α) : CachedM α :=
  p.interp (S := trackerSig) fun
    | .store c => CachedStore.call c
    | .now => cachedNow

section OverCache

variable {α β : Type}

theorem overCache_bind (p : TrackerM α) (f : α → TrackerM β) :
    overCache (p >>= f) = overCache p >>= fun a => overCache (f a) :=
  Prog.interp_bind p f

theorem overCache_callStore (c : StoreCall) : overCache (callStore c) = CachedStore.call c :=
  Prog.interp_perform (S := trackerSig) (.store c)

theorem overCache_readClock : overCache readClock = cachedNow :=
  Prog.interp_perform (S := trackerSig) .now

end OverCache

end Spider
