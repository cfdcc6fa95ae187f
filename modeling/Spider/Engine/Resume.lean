import Spider.Engine.Rescue
import Spider.Peer.Server

/-!
# Spider.Engine.Resume

Transfers of one chunk from honest sources, each of which may break off.

A source is a peer that serves the chunk with this repository's `GetChunk`, or
an origin whose `ReadChunkTo` writes the bytes of the published file.  What such
a transfer appends continues what is already in the partial: the peer is asked
for the bytes behind it and sends frames with their true offsets, the origin is
asked for exactly the rest.  So the partial stays a beginning of the chunk over
any number of broken transfers, and the first one that is not broken commits the
chunk, also when nothing is left to be sent.
-/

namespace Spider

open Conc

/-! ## Honest sources -/

/-- A reply to a request for `n` bytes of a file: the bytes, or, if the transfer is
cut off, a beginning of them.  `ReadChunkTo` takes an unexpected end of its input
for the end, so a read that is cut off need not report an error. -/
def honestRead (file : Bytes) (cut : Bool) (offset n : Int) (r : OriginReply) : Bool :=
  if cut then r.blocks.flatten.isPrefixOf (bytesAt file offset n)
  else decide (r.blocks.flatten = bytesAt file offset n ∧ r.total = n ∧ r.err = none)

/-- A working disk and honest sources; a transfer breaks off only if `cut` is set. -/
def resuming (content : Bytes) (files : Str → Bytes) (cut : Bool) : (c : Cmd) → c.Resp → Bool
  | .store c, r => diskOk c r
  | .net (.openStream _ _ offset), r => honestReply content cut offset r
  | .net .acquireOrigin, r => cut || r.isNone
  | .net (.readOrigin path offset n), r => honestRead (files path) cut offset n r
  | _, _ => true

abbrev resumeSystem (content : Bytes) (files : Str → Bytes) (cut : Bool) :
    System nodeSig Node Tid :=
  nodeSystem.restrict (resuming content files cut)

theorem diskWorks_resuming (content : Bytes) (files : Str → Bytes) (cut : Bool) :
    DiskWorks (resuming content files cut) :=
  ⟨fun _ _ => rfl, fun _ _ => rfl, fun _ _ => rfl⟩

/-- A whole transfer. -/
def ChunkSource.transfer (src : ChunkSource) (H : Sha256) (onCommit : OnCommit) (work : WorkItem) :
    NodeM (Except Err Int) :=
  match src with
  | .peer addr => downloadFromPeer H onCommit addr work
  | .origin => downloadFromOrigin H onCommit work

/-- The work item of a chunk of a published file. -/
structure ChunkOf (H : Sha256) (files : Str → Bytes) (work : WorkItem) (content : Bytes) : Prop where
  hash : work.hash = computeHash H content
  size : work.size.toInt = content.length
  offset : 0 ≤ work.offset.toInt
  bytes : bytesAt (files work.filePath) work.offset.toInt work.size.toInt = content

variable {content : Bytes}

theorem ChunkOf.parseHash {H : Sha256} {files : Str → Bytes} {work : WorkItem}
    (hw : ChunkOf H files work content) : (parseHash work.hash).isSome = true := by
  rw [hw.hash, parseHash_computeHash]
  rfl

theorem of_honestRead {file : Bytes} {cut : Bool} {offset n : Int} {r : OriginReply}
    (h : honestRead file cut offset n r = true) :
    r.blocks.flatten <+: bytesAt file offset n ∧
      (cut = false → r.blocks.flatten = bytesAt file offset n ∧ r.total = n ∧ r.err = none) := by
  cases cut with
  | true => exact ⟨List.isPrefixOf_iff_prefix.mp h, fun hc => by contradiction⟩
  | false =>
      simp only [honestRead, Bool.false_eq_true, if_false, decide_eq_true_eq] at h
      exact ⟨⟨[], by rw [List.append_nil, h.1]⟩, fun _ => h⟩

/-! ## One transfer -/

/-- What a transfer leaves: a partial that is absent or a beginning of the chunk,
and the committed chunk unless it was cut off. -/
structure Resumed (h : Str) (content : Bytes) (lock : Option Tid) (slots : Nat) (cut : Bool)
    (r : Except Err Int) (s : Node) : Prop where
  left : ∃ p log, p.getD [] <+: content ∧ Fetching h p lock slots log s
  done : cut = false → (∃ n, r = .ok n) ∧ s.store.chunks.lookup h = some content

/-- What continues a beginning is a longer beginning. -/
theorem isPrefix_append {kept more : Bytes} (hk : kept <+: content)
    (hm : more <+: content.drop kept.length) : kept ++ more <+: content := by
  have happ := (List.prefix_append_right_inj kept).mpr hm
  rwa [List.prefix_iff_eq_append.mp hk] at happ

section Transfer

variable {H : Sha256} {files : Str → Bytes} {t : Tid} {p : Option Bytes} {lock : Option Tid}
variable {slots : Nat} {log : List Transfer} {s : Node} {onCommit : OnCommit} {work : WorkItem}
variable {content : Bytes} {cut : Bool}

/-- A transfer that continues a beginning of the chunk, and completes it unless it was
cut off. -/
structure Continues (content kept : Bytes) (cut : Bool) (tr : Transfer) : Prop where
  sent : kept ++ tr.blocks.flatten <+: content
  whole : cut = false →
    tr.err = none ∧ kept ++ tr.blocks.flatten = content ∧ tr.total ≤ content.length

theorem Continues.resumed {h : Str} {kept : Bytes} {src : ChunkSource} {tr : Transfer}
    {r : Except Err Int} (hh : h = computeHash H content) (htr : Continues content kept cut tr)
    (hout : Outcome h (kept ++ tr.blocks.flatten) lock slots log
      (afterDownload H src h kept tr) (errorOf r).isNone s) :
    Resumed h content lock slots cut r s := by
  have hdone : cut = false → afterDownload H src h kept tr = none := by
    intro hc
    obtain ⟨herr, hall, htotal⟩ := htr.whole hc
    have hlong : ¬ (tr.total > 0 ∧ (content.length : Int) < tr.total) := by omega
    simp only [afterDownload, herr, afterCommit, hall, if_neg hlong, ← hh, if_true]
  have hleft : ∀ q, afterDownload H src h kept tr = some q → q.getD [] <+: content := by
    intro q hq
    have hgot : q = none ∨ q = some (kept ++ tr.blocks.flatten) := by
      unfold afterDownload afterCommit at hq
      grind
    cases hgot with
    | inl h => exact h ▸ List.nil_prefix
    | inr h => exact h ▸ htr.sent
  cases hA : afterDownload H src h kept tr with
  | none =>
      rw [hA] at hout
      refine ⟨⟨none, log, List.nil_prefix, hout.2.2⟩, fun hc => ⟨?_, ?_⟩⟩
      · cases r with
        | ok n => exact ⟨n, rfl⟩
        | error e => exact absurd hout.1 (by simp [errorOf])
      · rw [← (htr.whole hc).2.1]
        exact hout.2.1
  | some q =>
      rw [hA] at hout
      refine ⟨⟨q, log, hleft q hA, hout.2⟩, fun hc => ?_⟩
      rw [hdone hc] at hA
      contradiction

/-- What an honest source is asked for, and what it answers. -/
theorem resumes_request (src : ChunkSource) (hw : ChunkOf H files work content)
    (hp : p.getD [] <+: content) (hs : Fetching work.hash p lock slots log s) :
    Returns (resumeSystem content files cut) t
      (fun tr s' => ∃ log', Continues content (p.getD []) cut tr ∧
        Fetching work.hash p lock slots log' s')
      (src.request work (p.getD []).length) s := by
  have hlen : (p.getD []).length ≤ content.length := hp.length_le
  have happ := List.prefix_iff_eq_append.mp hp
  cases src with
  | peer addr =>
      have hsome : resuming content files cut (.net (.openStream addr work.hash (p.getD []).length))
          (.stream (sendFrames content.length (p.getD []).length [content.drop (p.getD []).length])
            .eof) = true := honestReply_sendFrames cut (by simp)
      refine returns_net hs.running ⟨_, _, hsome, rfl⟩ fun reply x hreply hx => ?_
      obtain ⟨hsent, hwhole⟩ := downloadChunkTo_sent addr (Int.natCast_nonneg _)
        (Int.ofNat_le.mpr hlen) hreply
      simp only [execNet, Option.some.injEq] at hx
      refine ⟨x.transfers, ⟨isPrefix_append hp hsent.blocks, fun hc => ?_⟩, hs.part, hs.lock,
        hs.running, hs.mu, by rw [← hx]; exact hs.slots, rfl⟩
      obtain ⟨hblocks, htotal⟩ := hsent.complete (hwhole hc)
      exact ⟨hwhole hc, by rw [hblocks]; exact happ, htotal⟩
  | origin =>
      have hbytes : bytesAt (files work.filePath) (work.offset.toInt + ((p.getD []).length : Int))
          (work.size.toInt - ((p.getD []).length : Int)) = content.drop (p.getD []).length := by
        rw [bytesAt_add hw.offset (by rw [hw.size]; omega), hw.bytes]
      have hsome : resuming content files cut (.net (.readOrigin work.filePath
          (work.offset.toInt + ((p.getD []).length : Int)) (work.size.toInt - (p.getD []).length)))
          ⟨[content.drop (p.getD []).length], work.size.toInt - (p.getD []).length, none⟩ = true := by
        simp [resuming, honestRead, hbytes]
      refine returns_net hs.running ⟨_, _, hsome, rfl⟩ fun reply x hreply hx => ?_
      obtain ⟨hpre, hwhole⟩ := of_honestRead hreply
      rw [hbytes] at hpre hwhole
      simp only [execNet, Option.some.injEq] at hx
      refine ⟨log, ⟨isPrefix_append hp hpre, fun hc => ?_⟩, by rw [← hx]; exact hs⟩
      obtain ⟨hblocks, htotal, herr⟩ := hwhole hc
      have hle : reply.total ≤ content.length := by
        rw [htotal, hw.size]
        omega
      exact ⟨herr, by rw [hblocks]; exact happ, hle⟩

/-- A download from an honest source. -/
theorem resumes_download (src : ChunkSource)
    (hhook : HookEnds (resuming content files cut) t onCommit)
    (hw : ChunkOf H files work content) (hp : p.getD [] <+: content)
    (hs : Fetching work.hash p none slots log s) :
    Returns (resumeSystem content files cut) t (Resumed work.hash content none slots cut)
      (src.download H onCommit work) s := by
  have hlen : (p.getD []).length ≤ content.length := hp.length_le
  -- a beginning of the chunk is not too long
  have hkept : src.kept work p = p := by
    have hfits : src.tooLong work (p.getD []).length = false := by
      cases src with
      | peer addr | origin =>
          rw [ChunkSource.tooLong, hw.size, decide_eq_false_iff_not]
          omega
    simp [ChunkSource.kept, hfits]
  have hdown := @returns_download H t p slots log s onCommit work _
    (diskWorks_resuming content files cut) (fun tr _ => Continues content (p.getD []) cut tr) src hhook
    hw.parseHash hs
  rw [hkept] at hdown
  refine (hdown fun s1 hs1 => resumes_request src hw hp hs1).mono fun r s' hr => ?_
  obtain ⟨tr, log', htr, hout⟩ := hr
  exact htr.resumed hw.hash hout

theorem resumes_transfer (src : ChunkSource)
    (hhook : HookEnds (resuming content files cut) t onCommit)
    (hw : ChunkOf H files work content) (hp : p.getD [] <+: content) (hslots : 0 < slots)
    (hs : Fetching work.hash p none slots log s) :
    Returns (resumeSystem content files cut) t (Resumed work.hash content none slots cut)
      (src.transfer H onCommit work) s := by
  cases src with
  | peer addr => exact resumes_download (.peer addr) hhook hw hp hs
  | origin =>
      refine returns_downloadFromOrigin_of (by simp [resuming]) (fun _ => rfl) hslots hs
        (fun deadline hr => ?_) fun s1 hs1 => ?_
      · -- a cancelled context: nothing has been done
        exact ⟨⟨p, log, hp, hs⟩, fun hc => by simp [resuming, hc] at hr⟩
      · refine (resumes_download .origin hhook hw hp hs1).mono fun r s' hr => ?_
        obtain ⟨⟨q, log', hq, hs'⟩, hdone⟩ := hr
        exact ⟨hs'.running, ⟨q, log', hq, hs'.release hslots⟩, hdone⟩

end Transfer

/-! ## Any number of transfers -/

/-- One transfer, from any source, cut off or not. -/
def ResumeStep (H : Sha256) (files : Str → Bytes) (t : Tid) (onCommit : OnCommit)
    (work : WorkItem) (content : Bytes) (s s' : Node) : Prop :=
  ∃ (src : ChunkSource) (cut : Bool) (res : Except Err Int),
    Runs (resumeSystem content files cut) t (src.transfer H onCommit work) s res s'

/-- Between transfers nothing works on the chunk, and its partial is absent or a
beginning of it. -/
structure Resumable (h : Str) (content : Bytes) (s : Node) : Prop where
  idle : Idle h s
  part : (s.store.partials h).getD [] <+: content

theorem Resumable.returns {H : Sha256} {files : Str → Bytes} {t : Tid} {onCommit : OnCommit}
    {work : WorkItem} {s : Node} {cut : Bool} (src : ChunkSource)
    (hhook : HookEnds (resuming content files cut) t onCommit) (hw : ChunkOf H files work content)
    (hs : Resumable work.hash content s) :
    Returns (resumeSystem content files cut) t
      (fun res s' => Resumable work.hash content s' ∧
        (cut = false → (∃ n, res = .ok n) ∧ s'.store.chunks.lookup work.hash = some content))
      (src.transfer H onCommit work) s := by
  have hfetch : Fetching work.hash (s.store.partials work.hash) none s.net.originSlots
      s.net.transfers s := ⟨rfl, hs.idle.lock, hs.idle.running, hs.idle.mu, rfl, rfl⟩
  refine (resumes_transfer src hhook hw hs.part hs.idle.slots hfetch).mono fun res s' hres => ?_
  obtain ⟨⟨p, log, hp, hs'⟩, hdone⟩ := hres
  refine ⟨⟨⟨hs'.lock, hs'.running, hs'.mu, ?_⟩, ?_⟩, hdone⟩
  · rw [hs'.slots]
    exact hs.idle.slots
  · rw [hs'.part]
    exact hp

/-- **Resume.**  After any number of transfers from honest sources, cut off or not,
the partial is absent or a beginning of the chunk; and from there every transfer
that is not cut off returns without an error and commits the chunk. -/
theorem transfers_resume (H : Sha256) (files : Str → Bytes) (t : Tid) (onCommit : OnCommit)
    (work : WorkItem) (content : Bytes)
    (hhook : ∀ cut, HookEnds (resuming content files cut) t onCommit)
    (hw : ChunkOf H files work content) {s₀ s : Node} (hs₀ : Resumable work.hash content s₀)
    (hruns : Relation.ReflTransGen (ResumeStep H files t onCommit work content) s₀ s) :
    (∀ p, s.store.partials work.hash = some p → p <+: content) ∧
      ∀ src : ChunkSource, Returns (resumeSystem content files false) t
        (fun res s' => (∃ n, res = .ok n) ∧ s'.store.chunks.lookup work.hash = some content)
        (src.transfer H onCommit work) s := by
  have hs : Resumable work.hash content s := by
    induction hruns with
    | refl => exact hs₀
    | tail _ hstep ih =>
        obtain ⟨src, cut, res, hrun⟩ := hstep
        exact ((ih.returns src (hhook cut) hw).post.of_runs hrun).1
  refine ⟨fun p hp => ?_, fun src => ?_⟩
  · have hpart := hs.part
    rwa [hp] at hpart
  · exact (hs.returns src (hhook false) hw).mono fun _ _ h => h.2 rfl

/-- A download of two bytes that breaks off behind the first. -/
def brokenDownload : Node :=
  (downloadFromPeer (.numbering [twoBytes]) touchOnCommit (str "p") twoBytesWork).finalState
    (resumeSystem twoBytes (fun _ => twoBytes) true) 0
    { World.originOnly [] with
      reply := fun _ _ _ => .stream (sendFrames 2 0 [[0x61]]) (.failed
        ⟨false, false, .other (str "*status.Error"), str "connection reset"⟩) }.answer emptyNode

theorem transfers_resume_twoBytes :
    brokenDownload.store.partials twoBytesWork.hash = some [0x61] ∧
      ∀ src : ChunkSource, Returns (resumeSystem twoBytes (fun _ => twoBytes) false) 0
        (fun res s' => (∃ n, res = .ok n) ∧
          s'.store.chunks.lookup twoBytesWork.hash = some twoBytes)
        (src.transfer (.numbering [twoBytes]) touchOnCommit twoBytesWork) brokenDownload := by
  have hw : ChunkOf (.numbering [twoBytes]) (fun _ => twoBytes) twoBytesWork twoBytes :=
    ⟨rfl, by decide, by decide, by decide⟩
  have hstep : ResumeStep (.numbering [twoBytes]) (fun _ => twoBytes) 0 touchOnCommit twoBytesWork
      twoBytes emptyNode brokenDownload :=
    ⟨.peer (str "p"), true, _, runs_finalState rfl⟩
  have hstart : Resumable twoBytesWork.hash twoBytes emptyNode :=
    ⟨idle_emptyNode _, List.nil_prefix⟩
  have hhook : ∀ cut, HookEnds (resuming twoBytes (fun _ => twoBytes) cut) 0 touchOnCommit :=
    fun cut => hookEnds_touchOnCommit (diskWorks_resuming _ _ cut) 0
  exact ⟨by decide +kernel, (transfers_resume (.numbering [twoBytes]) (fun _ => twoBytes) 0
    touchOnCommit twoBytesWork twoBytes hhook hw hstart (.single hstep)).2⟩

end Spider
