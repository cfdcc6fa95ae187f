import Spider.Engine.Missing
import Spider.Engine.Rescue

/-!
# Spider.Engine.Publishing

Publishing when the source and the disk work.

`publish_spec` says what a manifest is that `Publish` returned.  Here nothing
fails (`workingSystem`): the source lists and delivers the tree, every disk
operation succeeds and the context is not cancelled.  Then `Publish` and
`PublishFromMemory` return a manifest of the tree (`PublishedAs`): `Validate`
accepts it, each file has one entry with all its pieces, and their chunks are
committed.
-/

namespace Spider

open Conc Stream

/-! ## A node on which nothing fails -/

/-- The answers of a working disk and of a source that delivers a tree.  A hard
link may fail. -/
def working (tree : List SourceFile) : (c : Cmd) → c.Resp → Bool
  | .store c, r => diskOk c r
  | .job .ctxErr, r => r.isNone
  | .net (.listFiles _), .ok infos => decide (infos = tree.map SourceFile.info)
  | .net (.listFiles _), .error _ => false
  | .net (.openSource p), .ok r =>
      decide (r.last = .eof) && tree.all fun f => decide (f.path = p → r.content = f.content)
  | .net (.openSource _), .error _ => false
  | .dest (.mkdirAll _), r | .dest (.openTarget _), r | .dest (.chmodTarget _ _), r => r.isNone
  | .dest (.removeTarget _), .failed _ => false
  | .dest (.writeTarget _ _), r => r.isNone
  | _, _ => true

abbrev workingSystem (tree : List SourceFile) : System nodeSig Node Tid :=
  nodeSystem.restrict (working tree)

/-- A commit hook that works on the quota index alone, and returns. -/
structure QuotaHook (t : Tid) (onCommit : OnCommit) : Prop where
  quota : ∀ hook, onCommit = some hook → ∀ h n, (hook h n).Only fun c : Cmd => ∃ q, c = .quota q
  returns : HookReturns (fun _ => []) t onCommit

/-- A node nobody works on, with a sound cache. -/
structure Calm (H : Sha256) (s : Node) : Prop where
  running : s.job.panicked = false
  mu : s.quota.mu = none
  locks : ∀ h, s.store.locks h = none
  content : ContentAddressed H s.store

/-- What publishing leaves of a node: chunks are added only. -/
structure Grown (H : Sha256) (s s' : Node) : Prop where
  calm : Calm H s'
  kept : ∀ h, Committed h s → Committed h s'
  dest : s'.dest = s.dest

variable {H : Sha256} {refs : List ChunkRef}

theorem Grown.refl {s : Node} (hs : Calm H s) : Grown H s s := ⟨hs, fun _ h => h, rfl⟩

theorem Grown.trans {s s1 s2 : Node} (h1 : Grown H s s1) (h2 : Grown H s1 s2) : Grown H s s2 :=
  ⟨h2.calm, fun h hc => h2.kept h (h1.kept h hc), h2.dest.trans h1.dest⟩

/-! ## Putting one chunk -/

/-- The commands with which chunk `h` is put. -/
def Cmd.puts (h : Str) : Cmd → Bool
  | .store c => c.worksOn h
  | .quota _ => true
  | _ => false

/-- Nothing but chunk `h`, its lock and its partial has changed in the store, and
nothing in the job and the destination. -/
structure ElsewhereKept (h : Str) (s s' : Node) : Prop where
  chunks : ∀ h', h' ≠ h → s'.store.chunks.lookup h' = s.store.chunks.lookup h'
  locks : ∀ h', h' ≠ h → s'.store.locks h' = s.store.locks h'
  job : s'.job = s.job
  dest : s'.dest = s.dest

section Put

variable {H : Sha256} {J : Marshal} {onCommit : OnCommit} {tree : List SourceFile} {t : Tid}
variable {s s0 s' : Node} {h : Str} {data : Bytes}

theorem hash?_of_worksOn {c : StoreCmd} (hc : c.worksOn h = true) {h' : Str} (hne : h' ≠ h) :
    c.hash? ≠ some h' := by
  cases c <;> simp_all [StoreCmd.worksOn, StoreCmd.hash?, eq_comm]

theorem ElsewhereKept.step {c : Cmd} {r : c.Resp} (hc : c.puts h = true) (hF : ElsewhereKept h s0 s)
    (hx : nodeSystem.exec t c r s = some s') : ElsewhereKept h s0 s' := by
  cases c with
  | store c =>
      obtain ⟨x, hstep, rfl⟩ := nodeExec_store hx
      have heff := execStore_effect hstep
      refine ⟨fun h' hne => ?_, fun h' hne => ?_, hF.job, hF.dest⟩
      · rw [← hF.chunks h' hne]
        rcases heff.chunks with hsame | ⟨h'', b, rfl, -, hins, -⟩ | ⟨h'', rfl, -⟩
        · exact congrArg (AList.lookup h') hsame
        · have heq : h'' = h := of_decide_eq_true hc
          simp only [hins, heq]
          exact AList.lookup_insert_ne hne
        · contradiction
      · rw [← hF.locks h' hne]
        exact (heff.other h' (hash?_of_worksOn hc hne)).2
  | quota c =>
      obtain ⟨x, -, rfl⟩ := nodeExec_quota hx
      exact ⟨hF.chunks, hF.locks, hF.job, hF.dest⟩
  | _ => contradiction

theorem only_puts_putChunk (hhook : QuotaHook t onCommit) :
    (putChunk H onCommit h data).Only fun c : Cmd => c.puts h = true := by
  refine only_putChunk (fun hook hsome h' n => ?_) (fun c hc => hc) H data
  refine (hhook.quota hook hsome h' n).mono ?_
  rintro c ⟨q, rfl⟩
  rfl

/-- `PutChunk` alone on a working disk, followed at one hash. -/
theorem rescue_putChunk (hhook : QuotaHook t onCommit) (hs : Calm H s) :
    Returns (rescueSystem fun _ => []) t
      (fun r s' => r = none ∧ s'.store.chunks.lookup (computeHash H data) = some data ∧
        Fetching (computeHash H data) none none s.net.originSlots s.net.transfers s')
      (putChunk H onCommit (computeHash H data) data) s := by
  have hh : (parseHash (computeHash H data)).isSome = true := by rw [parseHash_computeHash]; rfl
  have hfetch : Fetching (computeHash H data) (s.store.partials (computeHash H data)) none
      s.net.originSlots s.net.transfers s := ⟨rfl, hs.locks _, hs.running, hs.mu, rfl, rfl⟩
  have hreads : (if data = [] then [] else [data]).flatten = data := by
    split <;> simp_all
  have hok := diskWorks_honest fun _ => []
  refine returns_underLock hok hfetch fun s1 hs1 => ?_
  refine (returns_discardPartial hok hh hs1).seq fun r s2 hr => ?_
  obtain ⟨rfl, hs2⟩ := hr
  refine (returns_appendPartial hok hh hs2).seq fun r s3 hr => ?_
  obtain ⟨rfl, hs3⟩ := hr
  rw [Option.getD_none, List.nil_append, hreads] at hs3
  refine (returns_commitPartial hok hhook.returns hh hs3).mono fun r s4 hr => ?_
  rw [if_pos rfl] at hr
  obtain ⟨hs4, rfl, hlook⟩ := hr
  exact ⟨hs4.running, rfl, hlook, hs4.unlock⟩

/-- `PutChunk` adds the chunk and leaves the rest. -/
theorem returns_putChunk (hhook : QuotaHook t onCommit) (hs : Calm H s) :
    Returns (workingSystem tree) t
      (fun r s' => r = none ∧ Grown H s s' ∧ Committed (computeHash H data) s')
      (putChunk H onCommit (computeHash H data) data) s := by
  have honly : (putChunk H onCommit (computeHash H data) data).Only
      fun c : Cmd => c.puts (computeHash H data) = true := only_puts_putChunk hhook
  have hagree : ∀ (c : Cmd) (r : c.Resp) s, c.puts (computeHash H data) = true →
      (workingSystem tree).exec t c r s = (rescueSystem fun _ => []).exec t c r s := by
    intro c r s hc
    cases c with
    | store c => rfl
    | quota c => rfl
    | _ => contradiction
  have hkept : Post (workingSystem tree) t
      (fun _ => ElsewhereKept (computeHash H data) s) (putChunk H onCommit (computeHash H data) data) s :=
    honly.post (fun c r _ _ hc hF hx => hF.step hc (System.restrict_eq_some hx).2)
      ⟨fun _ _ => rfl, fun _ _ => rfl, rfl, rfl⟩
  refine (((rescue_putChunk hhook hs).of_agree honly hagree).and_post hkept).mono fun r s' hr => ?_
  obtain ⟨⟨rfl, hlook, hfetch⟩, hkept⟩ := hr
  have hlocks : ∀ h, s'.store.locks h = none := by
    intro h
    by_cases hh : h = computeHash H data
    · rw [hh]
      exact hfetch.lock
    · rw [hkept.locks h hh]
      exact hs.locks h
  have hcontent : ContentAddressed H s'.store := by
    intro h c hc
    by_cases hh : h = computeHash H data
    · rw [hh] at hc ⊢
      rw [Option.some.inj (hlook.symm.trans hc)]
    · rw [hkept.chunks h hh] at hc
      exact hs.content h c hc
  have hcommitted : Committed (computeHash H data) s' := by
    rw [Committed, hlook]
    rfl
  refine ⟨rfl, ⟨⟨hfetch.running, hfetch.mu, hlocks, hcontent⟩, fun h hc => ?_, hkept.dest⟩, hcommitted⟩
  by_cases hh : h = computeHash H data
  · rw [hh]
    exact hcommitted
  · rw [Committed, hkept.chunks h hh]
    exact hc

theorem returns_hasChunk (hs : Calm H s) :
    Returns (workingSystem tree) t
      (fun b s' => (b = true ↔ Committed (computeHash H data) s) ∧ s' = s)
      (hasChunk (computeHash H data)) s := by
  simp only [hasChunk, parseHash_computeHash]
  cases hlook : s.store.chunks.lookup (computeHash H data) with
  | none | some b =>
      refine returns_diskOk (fun _ _ => rfl) (x := s.store) (by simp) hs.running
        (by simp [answerStore, execStore, hlook]) ?_
      simp only [answerStore, hlook]
      exact ⟨by simp [Committed, hlook], rfl⟩

/-- What both callbacks do with a chunk; `fail` is what they make of an error. -/
theorem returns_ensureChunk {β : Type} (hhook : QuotaHook t onCommit) (hs : Calm H s)
    (fail : Err → Err) (x : β) :
    Returns (workingSystem tree) t
      (fun res s' => res = .ok x ∧ Grown H s s' ∧ Committed (computeHash H data) s')
      (do if ← hasChunk (computeHash H data) then pure (.ok x)
          else
            match ← putChunk H onCommit (computeHash H data) data with
            | some e => pure (.error (fail e))
            | none => pure (.ok x) : NodeM (Except Err β)) s := by
  refine (returns_hasChunk hs).seq fun b s1 hb => ?_
  obtain ⟨hb, rfl⟩ := hb
  cases b with
  | true => exact ⟨rfl, .refl hs, hb.mp rfl⟩
  | false =>
      refine (returns_putChunk hhook hs).seq fun r s2 hr => ?_
      obtain ⟨rfl, hgrown, hcommitted⟩ := hr
      exact ⟨rfl, hgrown, hcommitted⟩

end Put

/-! ## One file -/

/-- An entry with all the pieces of a file. -/
structure Complete (H : Sha256) (f : SourceFile) (e : FileEntry) : Prop where
  path : e.path = f.path
  size : e.size = Int64.ofNat f.content.length
  tiled : Tiled 0 e.chunks
  pieces : ∃ ds, RefsTo H e.chunks ds ∧ ds.flatten = f.content

/-- The chunks of an entry are in the store. -/
def RefsCommitted (refs : List ChunkRef) (s : Node) : Prop := ∀ c ∈ refs, Committed c.hash s

theorem RefsCommitted.grown {s s' : Node} (h : RefsCommitted refs s) (hg : Grown H s s') :
    RefsCommitted refs s' :=
  fun c hc => hg.kept c.hash (h c hc)

/-- The references collected so far, on a node that has grown from `s0`. -/
structure Collected (H : Sha256) (s₀ : Node) (refs : List ChunkRef) (ds : List Bytes) (s : Node) :
    Prop where
  pieces : RefsTo H refs ds
  tiled : Tiled 0 refs
  committed : RefsCommitted refs s
  grown : Grown H s₀ s

theorem Tiled.concat {acc : Int64} {c : ChunkRef} (h : Tiled acc refs)
    (hc : c.offset = wrapSum acc (refs.map ChunkRef.size)) : Tiled acc (refs ++ [c]) := by
  induction refs generalizing acc with
  | nil => exact ⟨hc, trivial⟩
  | cons d refs ih => exact ⟨h.1, ih h.2 hc⟩

theorem RefsTo.wrapSum_eq {ds : List Bytes} (h : RefsTo H refs ds) (n : Nat) :
    wrapSum (Int64.ofNat n) (refs.map ChunkRef.size) = Int64.ofNat (n + ds.flatten.length) := by
  induction h generalizing n with
  | nil => simp [wrapSum]
  | @cons c d refs ds hcd _ ih =>
      have hstep : Int64.ofNat n + c.size = Int64.ofNat (n + d.length) := by
        rw [hcd.2, Int64.ofNat_add]
      rw [List.map_cons, wrapSum, List.foldl_cons, hstep, List.flatten_cons, List.length_append,
        ← Nat.add_assoc]
      exact ih (n + d.length)

section Files

variable {H : Sha256} {J : Marshal} {onCommit : OnCommit} {tree : List SourceFile} {t : Tid}
variable {s s0 s' : Node} {chunkSize : Int64}

theorem Collected.append {refs : List ChunkRef} {done : List Bytes} {data : Bytes}
    (h : Collected H s0 refs done s) (hg : Grown H s s') (hc : Committed (computeHash H data) s') :
    Collected H s0 (refs ++ [(chunkAt H (Int64.ofNat done.flatten.length) data).ref])
      (done ++ [data]) s' := by
  have hsum := h.pieces.wrapSum_eq 0
  rw [Nat.zero_add] at hsum
  refine ⟨h.pieces.append _ data, h.tiled.concat hsum.symm, fun c hmem => ?_, h.grown.trans hg⟩
  cases List.mem_append.mp hmem with
  | inl hold => exact hg.kept _ (h.committed c hold)
  | inr hnew =>
      rw [List.mem_singleton.mp hnew]
      exact hc

theorem absorbs_publishChunk (hhook : QuotaHook t onCommit) :
    Absorbs (workingSystem tree) t H (publishChunk H onCommit) (Collected H s0) := by
  intro refs done data s _ hacc
  let ch := chunkAt H (Int64.ofNat done.flatten.length) data
  refine (returns_ensureChunk hhook hacc.grown.calm (.cacheChunk ch.hash) (refs ++ [ch.ref])).mono
    fun res s' hres => ?_
  obtain ⟨hres, hgrown, hcommitted⟩ := hres
  exact ⟨_, hres, hacc.append hgrown hcommitted⟩

theorem absorbs_memoryChunk (hhook : QuotaHook t onCommit) :
    Absorbs (workingSystem tree) t H (memoryChunk H onCommit) (Collected H s0) := by
  intro refs done data s _ hacc
  let ch := chunkAt H (Int64.ofNat done.flatten.length) data
  refine (returns_ensureChunk hhook hacc.grown.calm id (refs ++ [ch.ref])).mono fun res s' hres => ?_
  obtain ⟨hres, hgrown, hcommitted⟩ := hres
  exact ⟨_, hres, hacc.append hgrown hcommitted⟩

theorem collected_nil (hs : Calm H s) : Collected H s [] [] s :=
  ⟨.nil, trivial, fun _ h => absurd h List.not_mem_nil, .refl hs⟩

/-- The empty file's chunk is put as well. -/
theorem returns_emptyFileRefs (hhook : QuotaHook t onCommit) {size : Int64} {refs : List ChunkRef}
    {ds : List Bytes} (h : Collected H s0 refs ds s) :
    Returns (workingSystem tree) t
      (fun cs s' => ∃ ds', ds'.flatten = ds.flatten ∧ Collected H s0 cs ds' s')
      (emptyFileRefs H onCommit size refs) s := by
  rw [emptyFileRefs]
  by_cases hempty : refs = [] ∧ size = 0
  · have hds : ds = [] := by
      have hrefs := h.pieces
      rw [hempty.1] at hrefs
      cases hrefs
      rfl
    have hone : ∀ s', Grown H s s' → Committed (computeHash H []) s' →
        ∃ ds', ds'.flatten = ds.flatten ∧
          Collected H s0 [⟨computeHash H [], 0, 0⟩] ds' s' := by
      intro s' hg hc
      refine ⟨[[]], by simp [hds], .cons ⟨rfl, rfl⟩ .nil, ⟨rfl, trivial⟩, fun c hmem => ?_,
        h.grown.trans hg⟩
      rw [List.mem_singleton.mp hmem]
      exact hc
    rw [if_pos hempty]
    refine (returns_hasChunk h.grown.calm).seq fun b s1 hb => ?_
    obtain ⟨hb, rfl⟩ := hb
    cases b with
    | true => exact hone _ (.refl h.grown.calm) (hb.mp rfl)
    | false =>
        refine (returns_putChunk hhook h.grown.calm).seq fun r s2 hr => ?_
        obtain ⟨-, hg, hc⟩ := hr
        exact hone s2 hg hc
  · rw [if_neg hempty]
    exact ⟨ds, rfl, h⟩

/-- A command on another part of a working node. -/
theorem returns_working {α : Type} {Q : α → Node → Prop} {c : Cmd} {k : c.Resp → NodeM α}
    {r0 : c.Resp} (hok : working tree c r0 = true) (hx : nodeSystem.exec t c r0 s = some s0)
    (hk : ∀ r s', working tree c r = true → nodeSystem.exec t c r s = some s' →
      Returns (workingSystem tree) t Q (k r) s') :
    Returns (workingSystem tree) t Q (@Prog.perform nodeSig c >>= k) s :=
  Returns.restrict_perform hok hx hk

theorem returns_ctxErr {α : Type} {Q : α → Node → Prop} {k : Option Bool → NodeM α}
    (hp : s.job.panicked = false) (hk : Returns (workingSystem tree) t Q (k none) s) :
    Returns (workingSystem tree) t Q (onJob .ctxErr >>= k) s := by
  have hx : nodeSystem.exec t (.job .ctxErr) none s = some s := by
    simp [nodeSystem, nodeExec, hp, execJob]
  refine returns_working (c := .job .ctxErr) rfl hx fun r s' hr hexec => ?_
  obtain ⟨x, hjob, rfl⟩ := nodeExec_job hexec
  have hnone : r = none := Option.isNone_iff_eq_none.mp hr
  simp only [execJob, Option.some.injEq] at hjob
  rw [hnone, ← hjob]
  exact hk

/-- A question to the source: any answer it may give, on the same state. -/
theorem returns_source {α : Type} {Q : α → Node → Prop} {c : NetCmd} {k : c.Resp → NodeM α}
    (hp : s.job.panicked = false) (hsame : ∀ r, execNet c r s.net = some s.net) {r0 : c.Resp}
    (hok : working tree (.net c) r0 = true)
    (hk : ∀ r, working tree (.net c) r = true → Returns (workingSystem tree) t Q (k r) s) :
    Returns (workingSystem tree) t Q (onNet c >>= k) s := by
  have hx : nodeSystem.exec t (.net c) r0 s = some s := by
    simp [nodeSystem, nodeExec, hp, hsame]
  refine returns_working (c := .net c) hok hx fun r s' hr hexec => ?_
  obtain ⟨x, hnet, rfl⟩ := nodeExec_net hexec
  rw [hsame, Option.some.injEq] at hnet
  rw [← hnet]
  exact hk r hr

theorem working_openSource {f : SourceFile} (hf : f ∈ tree)
    (hdistinct : (tree.map SourceFile.path).Nodup) :
    working tree (.net (.openSource f.path)) (.ok ⟨[f.content], .eof, false⟩) = true := by
  simp only [working, decide_true, Bool.true_and, List.all_eq_true, decide_eq_true_eq]
  intro g hg hpath
  have heq : g = f := List.inj_on_of_nodup_map hdistinct hg hf hpath
  simp [heq, Reader.content]

theorem returns_publishFile (hhook : QuotaHook t onCommit) (hsize : 0 < chunkSize.toInt)
    (hdistinct : (tree.map SourceFile.path).Nodup) {f : SourceFile} (hf : f ∈ tree) (hs : Calm H s) :
    Returns (workingSystem tree) t
      (fun res s' => ∃ e, res = .ok e ∧ Complete H f e ∧ RefsCommitted e.chunks s' ∧ Grown H s s')
      (publishFile H onCommit chunkSize f.info) s := by
  refine returns_ctxErr hs.running ?_
  refine returns_source hs.running (fun _ => rfl) (working_openSource hf hdistinct) fun r hr => ?_
  cases r with
  | error msg => exact absurd hr (by simp [working])
  | ok r =>
      simp only [working, Bool.and_eq_true, decide_eq_true_eq, List.all_eq_true] at hr
      obtain ⟨hlast, hdelivered⟩ := hr
      have hcontent : r.content = f.content := hdelivered f hf rfl
      have hchunks : Returns (workingSystem tree) t
          (fun res s' => ∃ refs ds, res = .ok refs ∧ ds.flatten = r.content ∧
            Collected H s refs ds s')
          (chunkStream H chunkSize.toInt.toNat (publishChunk H onCommit) r []) s :=
        returns_chunkStream (absorbs_publishChunk hhook) (by omega) hlast (collected_nil hs)
      refine hchunks.seq fun res s1 hres => ?_
      obtain ⟨refs, ds, rfl, hflat, hcollected⟩ := hres
      refine (returns_emptyFileRefs hhook hcollected).seq fun cs s2 hcs => ?_
      obtain ⟨ds', hflat', hall⟩ := hcs
      refine ⟨_, rfl, ⟨rfl, rfl, hall.tiled, ds', hall.pieces, ?_⟩, hall.committed, hall.grown⟩
      rw [hflat', hflat, hcontent]

theorem returns_publishFiles (hhook : QuotaHook t onCommit) (hsize : 0 < chunkSize.toInt)
    (hdistinct : (tree.map SourceFile.path).Nodup) {files : List SourceFile}
    (hfiles : ∀ f ∈ files, f ∈ tree) (hs : Calm H s) :
    Returns (workingSystem tree) t
      (fun res s' => ∃ es, res = .ok es ∧ List.Forall₂ (Complete H) files es ∧
        (∀ e ∈ es, RefsCommitted e.chunks s') ∧ Grown H s s')
      (publishFiles H onCommit chunkSize (files.map SourceFile.info)) s := by
  induction files generalizing s with
  | nil => exact ⟨[], rfl, .nil, fun _ h => absurd h List.not_mem_nil, .refl hs⟩
  | cons f files ih =>
      obtain ⟨hf, hrest⟩ := List.forall_mem_cons.mp hfiles
      refine (returns_publishFile hhook hsize hdistinct hf hs).seq fun res s1 hres => ?_
      obtain ⟨e, rfl, hcomplete, hcommitted, hgrown⟩ := hres
      refine (ih hrest hgrown.calm).seq fun res s2 hres => ?_
      obtain ⟨es, rfl, hcompletes, hcommitteds, hgrown2⟩ := hres
      refine ⟨e :: es, rfl, .cons hcomplete hcompletes, ?_, hgrown.trans hgrown2⟩
      exact List.forall_mem_cons.mpr ⟨hcommitted.grown hgrown2, hcommitteds⟩

theorem content_bytesReader (data : Bytes) : (bytesReader data).content = data := by
  unfold bytesReader Reader.content
  split <;> simp_all

theorem returns_memoryFiles (hhook : QuotaHook t onCommit) (hsize : 0 < chunkSize.toInt)
    {files : List SourceFile} (hs : Calm H s) :
    Returns (workingSystem tree) t
      (fun res s' => ∃ es, res = .ok es ∧ List.Forall₂ (Complete H) files es ∧
        (∀ e ∈ es, RefsCommitted e.chunks s') ∧ Grown H s s')
      (memoryFiles H onCommit chunkSize (files.map fun f => (f.path, f.content))) s := by
  induction files generalizing s with
  | nil => exact ⟨[], rfl, .nil, fun _ h => absurd h List.not_mem_nil, .refl hs⟩
  | cons f files ih =>
      have hchunks : Returns (workingSystem tree) t
          (fun res s' => ∃ refs ds, res = .ok refs ∧ ds.flatten = (bytesReader f.content).content ∧
            Collected H s refs ds s')
          (chunkStream H chunkSize.toInt.toNat (memoryChunk H onCommit) (bytesReader f.content) []) s :=
        returns_chunkStream (absorbs_memoryChunk hhook) (by omega) rfl (collected_nil hs)
      refine hchunks.seq fun res s1 hres => ?_
      obtain ⟨refs, ds, rfl, hflat, hcollected⟩ := hres
      refine (ih hcollected.grown.calm).seq fun res s2 hres => ?_
      obtain ⟨es, rfl, hcompletes, hcommitteds, hgrown2⟩ := hres
      refine ⟨_, rfl, .cons ⟨rfl, rfl, hcollected.tiled, ds, hcollected.pieces, ?_⟩ hcompletes, ?_,
        hcollected.grown.trans hgrown2⟩
      · rw [hflat, content_bytesReader]
      · exact List.forall_mem_cons.mpr ⟨hcollected.committed.grown hgrown2, hcommitteds⟩

end Files

/-! ## The manifest -/

/-- A tree as a file system holds it: relative paths in normal form, none of which
is a directory of another. -/
structure WellFormedTree (tree : List SourceFile) : Prop where
  normalized : ∀ f ∈ tree, normalizePath f.path = f.path
  valid : ∀ f ∈ tree, validManifestPath f.path = true
  distinct : (tree.map SourceFile.path).Nodup
  separate : ∀ f ∈ tree, ∀ g ∈ tree, pathElems f.path <+: pathElems g.path → f.path = g.path

/-- A manifest of a tree on a node that has its chunks. -/
structure PublishedAs (H : Sha256) (J : Marshal) (tree : List SourceFile) (m : ArtifactManifest)
    (s : Node) : Prop where
  accepted : Accepted H J m
  entries : ∃ files, files.Perm tree ∧ List.Forall₂ (Complete H) files m.files
  committed : ∀ e ∈ m.files, RefsCommitted e.chunks s

section Manifest

variable {H : Sha256} {J : Marshal} {onCommit : OnCommit} {tree files : List SourceFile} {t : Tid}
variable {s : Node} {name version : Str} {chunkSize : Int64} {es : List FileEntry}

theorem sortFiles_idem (l : List FileEntry) : sortFiles (sortFiles l) = sortFiles l := by
  have hsorted := List.pairwise_insertionSort (fun a b : FileEntry => a.path ≤ b.path) l
  exact List.Pairwise.insertionSort_eq hsorted

/-- Each complete entry passes the checks of `Validate`. -/
theorem Complete.fileAccepted {f : SourceFile} {e : FileEntry} (h : Complete H f e)
    (hvalid : validManifestPath f.path = true) : FileAccepted e := by
  obtain ⟨ds, hrefs, hflat⟩ := h.pieces
  have hfits : ds.flatten.length < 2 ^ 63 := by
    rw [hflat]
    exact f.fits
  have hpiece : ∀ c ∈ e.chunks, ∃ d ∈ ds, c.hash = computeHash H d ∧ c.size = Int64.ofNat d.length :=
    fun c hc => exists_entry_of_mem hrefs.flip hc
  refine ⟨by rw [h.path]; exact hvalid, fun c hc => ?_, fun c hc => ?_, h.tiled, ?_⟩
  · obtain ⟨d, -, hhash, -⟩ := hpiece c hc
    rw [hhash]
    simp [validHashName, hasPrefix_computeHash, length_computeHash]
  · obtain ⟨d, hd, -, hsize⟩ := hpiece c hc
    have hlen : d.length ≤ ds.flatten.length := (List.sublist_flatten_of_mem hd).length_le
    rw [hsize, Int64.le_iff_toInt_le, Int64.toInt_ofNat_of_lt (by omega)]
    exact Int.natCast_nonneg _
  · have hsum := hrefs.wrapSum_eq 0
    rw [Nat.zero_add, hflat, ← h.size] at hsum
    exact hsum

/-- What `Finalize` makes of entries with normalised paths. -/
theorem finalize_eq (hnorm : ∀ e ∈ es, normalizePath e.path = e.path) :
    ∃ id, finalize H J ⟨currentSchema, [], name, version, effectiveChunkSize chunkSize, 0, es⟩ =
      ⟨currentSchema, id, name, version, effectiveChunkSize chunkSize,
        wrapSum 0 (es.map FileEntry.size), sortFiles es⟩ := by
  have hmap : es.map (fun e => { e with path := normalizePath e.path }) = es := by
    refine (List.map_congr_left fun e he => ?_).trans (List.map_id es)
    rw [hnorm e he]
    rfl
  have hpos := effectiveChunkSize_pos chunkSize
  have hchunk : effectiveChunkSize chunkSize ≠ 0 := by
    intro hzero
    rw [hzero] at hpos
    exact absurd hpos (by decide)
  simp only [finalize, hmap, if_neg hchunk, show currentSchema ≠ 0 by decide, if_false]
  exact ⟨_, rfl⟩

/-- `ComputeID` does not depend on the id or on a sorting of the files. -/
theorem artifactID_finalize {m : ArtifactManifest} :
    (finalize H J m).artifactID = computeID H J (finalize H J m) := by
  simp only [finalize, computeID, sortFiles_idem]

/-- Finalizing complete entries of a tree gives a manifest that `Validate`
accepts. -/
theorem publishedAs_finalize (htree : WellFormedTree tree) (hname : isBlank name = false)
    (hversion : isBlank version = false) (hperm : files.Perm tree) (hne : tree ≠ [])
    (hes : List.Forall₂ (Complete H) files es) (hcommitted : ∀ e ∈ es, RefsCommitted e.chunks s) :
    PublishedAs H J tree
      (finalize H J ⟨currentSchema, [], name, version, effectiveChunkSize chunkSize, 0, es⟩) s := by
  have hfile : ∀ e ∈ es, ∃ f ∈ tree, Complete H f e := by
    intro e he
    obtain ⟨f, hf, hcomplete⟩ := exists_entry_of_mem hes he
    exact ⟨f, hperm.mem_iff.mp hf, hcomplete⟩
  have hpaths : es.map FileEntry.path = files.map SourceFile.path := by
    clear hcommitted hfile hperm
    induction hes with
    | nil => rfl
    | cons hcomplete _ ih => rw [List.map_cons, List.map_cons, hcomplete.path, ih]
  have hid : (finalize H J ⟨currentSchema, [], name, version, effectiveChunkSize chunkSize, 0, es⟩).artifactID
      = _ := artifactID_finalize
  obtain ⟨id, heq⟩ := @finalize_eq H J name version chunkSize es fun e he => by
    obtain ⟨f, hf, hcomplete⟩ := hfile e he
    rw [hcomplete.path, htree.normalized f hf]
  have hsorted : (sortFiles es).Perm es := List.perm_insertionSort _ es
  have hnil : sortFiles es ≠ [] := by
    intro hnil
    have hes' : es = [] := (hnil ▸ hsorted).nil_eq.symm
    rw [hes'] at hes
    cases hes
    exact hne hperm.nil_eq.symm
  rw [heq] at hid ⊢
  refine ⟨⟨rfl, hname, hversion, ?_, hnil, fun e he => ?_, ?_, ?_, hid⟩, ?_, fun e he => ?_⟩
  · exact Int64.lt_iff_toInt_lt.mpr (effectiveChunkSize_pos chunkSize)
  · obtain ⟨f, hf, hcomplete⟩ := hfile e (hsorted.mem_iff.mp he)
    exact hcomplete.fileAccepted (htree.valid f hf)
  · have hdistinct : (files.map SourceFile.path).Nodup :=
      ((hperm.map SourceFile.path).nodup_iff).mpr htree.distinct
    rw [← hpaths] at hdistinct
    exact ((hsorted.map FileEntry.path).nodup_iff).mpr hdistinct
  · exact wrapSum_perm (hsorted.map FileEntry.size)
  · -- the files in the order of the sorted entries
    have hcomp : (Relation.Comp (List.Forall₂ (Complete H)) List.Perm) files (sortFiles es) :=
      ⟨es, hes, hsorted.symm⟩
    rw [List.forall₂_comp_perm_eq_perm_comp_forall₂] at hcomp
    obtain ⟨files', hperm', hes'⟩ := hcomp
    exact ⟨files', hperm'.symm.trans hperm, hes'⟩
  · exact hcommitted e (hsorted.mem_iff.mp he)

/-- `SaveManifest` of an accepted manifest. -/
theorem returns_saveManifest {m : ArtifactManifest} (hs : Calm H s) (hm : Accepted H J m) :
    Returns (workingSystem tree) t (fun r s' => r = none ∧ s' = s) (saveManifest H J m) s := by
  have hhash : ∃ x, parseHash m.artifactID = some x := by
    rw [hm.id]
    exact ⟨_, parseHash_computeHash H _⟩
  obtain ⟨x, hx⟩ := hhash
  simp only [saveManifest, validate_eq_ok_iff.mpr hm, hx]
  refine returns_diskOk (fun _ _ => rfl) (x := s.store) (by simp) hs.running rfl ?_
  exact ⟨rfl, rfl⟩

/-- `Publish` of a tree, when nothing fails. -/
theorem returns_publish (hhook : QuotaHook t onCommit) (htree : WellFormedTree tree)
    (hne : tree ≠ []) (hname : isBlank name = false) (hversion : isBlank version = false)
    (pre : Str) (hs : Calm H s) :
    Returns (workingSystem tree) t
      (fun res s' => ∃ m, res = .ok m ∧ PublishedAs H J tree m s' ∧ Grown H s s')
      (publish H J onCommit chunkSize pre name version) s := by
  have hlist : working tree (.net (.listFiles pre)) (.ok (tree.map SourceFile.info)) = true := by
    simp [working]
  refine returns_source hs.running (fun _ => rfl) hlist fun r hr => ?_
  cases r with
  | error msg => exact absurd hr (by simp [working])
  | ok infos =>
      have hinfos : infos = tree.map SourceFile.info := of_decide_eq_true hr
      have hsome : ¬ tree.map SourceFile.info = [] := by simpa using hne
      simp only [hinfos, if_neg hsome]
      refine (returns_publishFiles hhook (effectiveChunkSize_pos chunkSize) htree.distinct
        (fun _ hf => hf) hs).seq fun res s1 hres => ?_
      obtain ⟨es, rfl, hes, hcommitted, hgrown⟩ := hres
      have hpub := @publishedAs_finalize H J tree tree s1 name version chunkSize es htree hname
        hversion (.refl tree) hne hes hcommitted
      refine (returns_saveManifest hgrown.calm hpub.accepted).seq fun r s2 hr => ?_
      obtain ⟨rfl, rfl⟩ := hr
      exact ⟨_, rfl, hpub, hgrown⟩

/-- `PublishFromMemory` of a tree, its files in any order. -/
theorem returns_publishFromMemory (hhook : QuotaHook t onCommit) (htree : WellFormedTree tree)
    (hne : tree ≠ []) (hname : isBlank name = false) (hversion : isBlank version = false)
    (hperm : files.Perm tree) (hs : Calm H s) :
    Returns (workingSystem tree) t
      (fun res s' => ∃ m, res = .ok m ∧ PublishedAs H J tree m s' ∧ Grown H s s')
      (publishFromMemory H J onCommit chunkSize name version
        (files.map fun f => (f.path, f.content))) s := by
  refine (returns_memoryFiles hhook (effectiveChunkSize_pos chunkSize) hs).seq fun res s1 hres => ?_
  obtain ⟨es, rfl, hes, hcommitted, hgrown⟩ := hres
  have hpub := @publishedAs_finalize H J tree files s1 name version chunkSize es htree hname
    hversion hperm hne hes hcommitted
  refine (returns_saveManifest hgrown.calm hpub.accepted).seq fun r s2 hr => ?_
  obtain ⟨rfl, rfl⟩ := hr
  exact ⟨_, rfl, hpub, hgrown⟩

end Manifest

end Spider
