import Spider.Lib.Pipe
import Spider.Node.State

/-!
# Spider.Engine.Pipe

The two goroutines of a chunk download and the pipe between them: the body of
`downloadFromPeer` and `downloadFromOrigin` (`pkg/engine/engine.go`), with
`AppendPartial` reading from the pipe (`pkg/cache/cache.go`), and the goroutine
that receives the chunk and writes it to the pipe.

Both functions have the same shape.  `outer` is the resource held around the
call: the scheduler slot of a peer, or a place in the origin semaphore.

`AppendPartial` may give up before the end of the stream.  The function then
waits for the goroutine, and nobody reads what the goroutine still writes: the
reader's end of the pipe is never closed.  A transfer therefore gets stuck
exactly if `AppendPartial` gives up during a `Write` or a `Write` begins after
it has given up (`calm`).
-/

namespace Spider

open SyncPipe

/-- Where the downloading goroutine is. -/
inductive DownloaderStage where
  | notStarted
  /-- inside `DownloadChunkTo` or `ReadChunkTo`, not writing -/
  | receiving
  /-- inside `pw.Write` -/
  | writing
  /-- back from the download, about to close the pipe -/
  | returning (err : Option RemoteErr)
  /-- about to close the done channel -/
  | signalling
  | exited
  deriving DecidableEq

/-- Where the function is.  The stages from `checking` to `closing` are
`AppendPartial`. -/
inductive FunctionStage where
  | acquiring
  | locking
  /-- `PartialSize` and `DiscardPartial`, up to the `go` statement -/
  | preparing
  | checking
  | makingDir
  | opening
  /-- inside `io.Copy`, at `pr.Read` -/
  | reading
  /-- inside `io.Copy`, at the write to the file -/
  | storing (b : Bytes)
  | syncing
  | closing (err : Option Err)
  /-- at `<-done` -/
  | joining (err : Option Err)
  /-- the size check, the commit and the discards -/
  | settling
  | unlocking
  | releasing
  | returned
  deriving DecidableEq

structure TransferState where
  fn : FunctionStage
  dl : DownloaderStage
  pipe : Pipe UInt8 RemoteErr
  done : Bool
  outer : Bool
  lock : Bool
  /-- `AppendPartial` has given up before the end of the stream. -/
  abandoned : Bool
  deriving DecidableEq

/-- Before the call. -/
def TransferState.start : TransferState :=
  ⟨.acquiring, .notStarted, .new, false, false, false, false⟩

inductive TransferEvent where
  -- the goroutine
  | write (b : Bytes)
  | writeReturns
  | writeFails (err : RemoteErr)
  | finish (err : Option RemoteErr)
  | closeWriter
  | closeDone
  -- the function
  | acquire
  | lock
  | go
  | check (ok : Bool)
  | mkdir (err : Option Str)
  | openFile (err : Option Str)
  | read
  | store (err : Option Str)
  | sync (err : Option Str)
  | closeFile (err : Option Str)
  | join
  | settle
  | unlock
  | release
  deriving DecidableEq

/-- A failure of `AppendPartial` before it has read the end of the stream. -/
def TransferState.giveUp (s : TransferState) (fn : FunctionStage) : TransferState :=
  { s with fn := fn, abandoned := true }

/-- The steps of the downloading goroutine. -/
def downloaderStep (s : TransferState) : TransferEvent → Option TransferState
  | .write b =>
      if s.dl = .receiving then
        (s.pipe.offer b).map fun p => { s with pipe := p, dl := .writing }
      else none
  | .writeReturns =>
      if s.dl = .writing ∧ s.pipe.pending = none then some { s with dl := .receiving } else none
  | .writeFails err =>
      if s.dl = .writing ∧ s.pipe.readerClosed then some { s with dl := .returning (some err) }
      else none
  | .finish err => if s.dl = .receiving then some { s with dl := .returning err } else none
  | .closeWriter =>
      match s.dl with
      | .returning err => some { s with dl := .signalling, pipe := s.pipe.closeWriter err }
      | _ => none
  | .closeDone => if s.dl = .signalling then some { s with dl := .exited, done := true } else none
  | _ => none

/-- The steps of `AppendPartial`. -/
def appendStep (s : TransferState) : TransferEvent → Option TransferState
  | .check ok =>
      if s.fn = .checking then
        if ok then some { s with fn := .makingDir } else some (s.giveUp (.joining (some .invalidHashName)))
      else none
  | .mkdir err =>
      if s.fn = .makingDir then
        match err with
        | none => some { s with fn := .opening }
        | some msg => some (s.giveUp (.joining (some (.mkdirPartial msg))))
      else none
  | .openFile err =>
      if s.fn = .opening then
        match err with
        | none => some { s with fn := .reading }
        | some msg => some (s.giveUp (.joining (some (.openPartial msg))))
      else none
  | .read =>
      if s.fn = .reading then
        match s.pipe.read copyBuffer with
        | some (.data b, p) => some { s with fn := .storing b, pipe := p }
        | some (.ended none, p) => some { s with fn := .syncing, pipe := p }
        | some (.ended (some e), p) => some { s with fn := .closing (some (.readStream e)), pipe := p }
        | none => none
      else none
  | .store err =>
      match s.fn, err with
      | .storing _, none => some { s with fn := .reading }
      | .storing _, some msg => some (s.giveUp (.closing (some (.writePartial msg))))
      | _, _ => none
  | .sync err =>
      if s.fn = .syncing then some { s with fn := .closing (err.map Err.syncPartial) } else none
  | .closeFile err =>
      match s.fn with
      | .closing (some e) => some { s with fn := .joining (some e) }
      | .closing none => some { s with fn := .joining (err.map Err.closePartial) }
      | _ => none
  | _ => none

/-- The steps of the function around `AppendPartial`. -/
def frameStep (s : TransferState) : TransferEvent → Option TransferState
  | .acquire => if s.fn = .acquiring then some { s with fn := .locking, outer := true } else none
  | .lock => if s.fn = .locking then some { s with fn := .preparing, lock := true } else none
  | .go => if s.fn = .preparing then some { s with fn := .checking, dl := .receiving } else none
  | .join =>
      match s.fn with
      | .joining _ => if s.done then some { s with fn := .settling } else none
      | _ => none
  | .settle => if s.fn = .settling then some { s with fn := .unlocking } else none
  | .unlock => if s.fn = .unlocking then some { s with fn := .releasing, lock := false } else none
  | .release => if s.fn = .releasing then some { s with fn := .returned, outer := false } else none
  | _ => none

/-- A step of one of the two goroutines. -/
def transferStep (s : TransferState) (e : TransferEvent) : Option TransferState :=
  ((downloaderStep s e).or (appendStep s e)).or (frameStep s e)

/-- `AppendPartial` fails before it has read the end of the stream. -/
def TransferEvent.givesUp : TransferEvent → Bool
  | .check false | .mkdir (some _) | .openFile (some _) | .store (some _) => true
  | _ => false

/-- The condition a step must meet: `AppendPartial` does not give up during a
`Write`, and no `Write` begins after it has given up. -/
def calm (s : TransferState) : TransferEvent → Bool
  | .write _ => !s.abandoned
  | e => !e.givesUp || s.pipe.pending.isNone

/-! ## Invariant -/

/-- The goroutine has not been started. -/
@[simp] def FunctionStage.beforeGo : FunctionStage → Bool
  | .acquiring | .locking | .preparing => true
  | _ => false

/-- `AppendPartial` reads no more. -/
@[simp] def FunctionStage.readNoMore : FunctionStage → Bool
  | .syncing | .closing _ | .joining _ | .settling | .unlocking | .releasing | .returned => true
  | _ => false

/-- The function has received from the done channel. -/
@[simp] def FunctionStage.joined : FunctionStage → Bool
  | .settling | .unlocking | .releasing | .returned => true
  | _ => false

@[simp] def FunctionStage.holdsLock : FunctionStage → Bool
  | .acquiring | .locking | .releasing | .returned => false
  | _ => true

@[simp] def FunctionStage.holdsOuter : FunctionStage → Bool
  | .acquiring | .returned => false
  | _ => true

/-- Between the start of the goroutine and the end of the wait for it. -/
@[simp] def FunctionStage.inAppend : FunctionStage → Bool
  | .checking | .makingDir | .opening | .reading | .storing _ | .syncing | .closing _
  | .joining _ => true
  | _ => false

/-- The goroutine has closed its end of the pipe. -/
@[simp] def DownloaderStage.hasClosed : DownloaderStage → Bool
  | .signalling | .exited => true
  | _ => false

structure TransferInv (s : TransferState) : Prop where
  conserved : s.pipe.Conserved
  readerOpen : s.pipe.readerClosed = false
  writing : s.pipe.pending.isSome = true → s.dl = .writing
  closed : s.pipe.closed.isSome = s.dl.hasClosed
  done : s.done = true ↔ s.dl = .exited
  started : s.dl = .notStarted ↔ s.fn.beforeGo = true
  joined : s.fn.joined = true → s.done = true
  abandoned : s.abandoned = true → s.fn.readNoMore = true
  -- without giving up, reading stops at the end of the stream
  ended : s.fn.readNoMore = true → s.abandoned = false → s.dl.hasClosed = true
  lock : s.lock = s.fn.holdsLock
  outer : s.outer = s.fn.holdsOuter

theorem transferInv_start : TransferInv .start :=
  ⟨rfl, rfl, by decide, rfl, by decide, by decide, by decide, by decide, by decide, rfl, rfl⟩

section Invariant

variable {s s' : TransferState} {e : TransferEvent}

/-- A step is one of the goroutine, of `AppendPartial` or of the function around
it. -/
theorem transferStep_cases (h : transferStep s e = some s') :
    downloaderStep s e = some s' ∨ appendStep s e = some s' ∨ frameStep s e = some s' := by
  simp only [transferStep, Option.or_eq_some_iff] at h
  grind

theorem TransferInv.downloader (hi : TransferInv s) (h : downloaderStep s e = some s') :
    TransferInv s' := by
  obtain ⟨hcons, hopen, hwr, hcl, hdone, hst, hj, hab, hend, hlock, hout⟩ := hi
  cases e with
  | write b =>
      simp only [downloaderStep] at h
      split at h
      · obtain ⟨p, hp, rfl⟩ := Option.map_eq_some_iff.mp h
        have hcons' := hcons.offer hp
        obtain ⟨hpend, hclosed, rfl⟩ := Pipe.offer_eq_some hp
        constructor <;> simp_all
      · contradiction
  | writeReturns | writeFails err | finish err | closeDone =>
      simp only [downloaderStep] at h
      split at h
      · cases h; constructor <;> simp_all
      · contradiction
  | closeWriter =>
      simp only [downloaderStep] at h
      split at h
      · cases h; constructor <;> simp_all [Pipe.closeWriter, Pipe.Conserved]
      · contradiction
  | _ => contradiction

theorem TransferInv.frame (hi : TransferInv s) (h : frameStep s e = some s') : TransferInv s' := by
  obtain ⟨hcons, hopen, hwr, hcl, hdone, hst, hj, hab, hend, hlock, hout⟩ := hi
  cases e with
  | acquire | lock | go | settle | unlock | release =>
      simp only [frameStep] at h
      split at h
      · cases h; constructor <;> simp_all
      · contradiction
  | join =>
      simp only [frameStep] at h
      split at h
      · split at h
        · cases h; constructor <;> simp_all
        · contradiction
      · contradiction
  | _ => contradiction

variable {p : Pipe UInt8 RemoteErr} {fn : FunctionStage}

/-- What a read does to the state of the pipe. -/
theorem read_effect {buf : Nat} {p' : Pipe UInt8 RemoteErr} {r : Read UInt8 RemoteErr}
    (h : p.read buf = some (r, p')) :
    p'.closed = p.closed ∧ p'.readerClosed = p.readerClosed ∧
      (p'.pending.isSome = true → p.pending.isSome = true) ∧
      ((∃ err, r = .ended err) → p.closed.isSome = true) := by
  unfold Pipe.read at h
  split at h
  · cases h; simp_all
  · split at h
    · cases h; simp_all
    · contradiction

theorem FunctionStage.of_inAppend (h : fn.inAppend = true) :
    fn.beforeGo = false ∧ fn.joined = false ∧ fn.holdsLock = true ∧ fn.holdsOuter = true := by
  cases fn <;> simp_all

/-- A move within `AppendPartial`, giving up or not. -/
theorem TransferInv.move {gaveUp : Bool} (hi : TransferInv s) (hs : s.fn.inAppend = true)
    (hfn : fn.inAppend = true) (hab : gaveUp = true → fn.readNoMore = true)
    (hend : fn.readNoMore = true → gaveUp = false → s.dl.hasClosed = true) :
    TransferInv { s with fn := fn, abandoned := gaveUp } := by
  obtain ⟨hb, -, hl, ho⟩ := FunctionStage.of_inAppend hs
  obtain ⟨hb', hj', hl', ho'⟩ := FunctionStage.of_inAppend hfn
  refine ⟨hi.conserved, hi.readerOpen, hi.writing, hi.closed, hi.done, ?_, ?_, hab, hend, ?_, ?_⟩
  · rw [hi.started, hb, hb']
  · exact fun hj => absurd hj (by rw [hj']; simp)
  · rw [hi.lock, hl, hl']
  · rw [hi.outer, ho, ho']

/-- A move that does not concern the end of the stream. -/
theorem TransferInv.advance (hi : TransferInv s) (hs : s.fn.inAppend = true)
    (hfn : fn.inAppend = true) (hr : fn.readNoMore = s.fn.readNoMore) :
    TransferInv { s with fn := fn } :=
  hi.move hs hfn (fun hab => hr.trans (hi.abandoned hab)) (fun h => hi.ended (hr.symm.trans h))

/-- `AppendPartial` gives up. -/
theorem TransferInv.giveUp (hi : TransferInv s) (hs : s.fn.inAppend = true)
    (hfn : fn.inAppend = true) (hr : fn.readNoMore = true) : TransferInv (s.giveUp fn) :=
  hi.move hs hfn (fun _ => hr) (fun _ h => by contradiction)

/-- A read leaves the rest of the invariant alone. -/
theorem TransferInv.setPipe {r : Read UInt8 RemoteErr} (hi : TransferInv s)
    (h : s.pipe.read copyBuffer = some (r, p)) : TransferInv { s with pipe := p } := by
  obtain ⟨hclosed, hro, hpend, -⟩ := read_effect h
  exact ⟨hi.conserved.read h, hro.trans hi.readerOpen, fun hp => hi.writing (hpend hp),
    by rw [hclosed]; exact hi.closed, hi.done, hi.started, hi.joined, hi.abandoned, hi.ended, hi.lock,
    hi.outer⟩

/-- The end of the stream has been read. -/
theorem TransferInv.readEnd {err : Option RemoteErr} (hi : TransferInv s)
    (hs : s.fn.inAppend = true) (hfn : fn.inAppend = true) (hr : fn.readNoMore = true)
    (h : s.pipe.read copyBuffer = some (.ended err, p)) :
    TransferInv { s with fn := fn, pipe := p } := by
  have hclosed : s.dl.hasClosed = true := by
    rw [← hi.closed]
    exact (read_effect h).2.2.2 ⟨err, rfl⟩
  exact (hi.setPipe h).move hs hfn (fun _ => hr) (fun _ _ => hclosed)

theorem TransferInv.append (hi : TransferInv s) (h : appendStep s e = some s') : TransferInv s' := by
  cases e with
  | check ok =>
      obtain ⟨hfn, h⟩ := Option.ite_none_right_eq_some.mp h
      cases ok with
      | true => cases h; exact hi.advance (by simp [hfn]) rfl (by simp [hfn])
      | false => cases h; exact hi.giveUp (by simp [hfn]) rfl rfl
  | mkdir err | openFile err =>
      obtain ⟨hfn, h⟩ := Option.ite_none_right_eq_some.mp h
      cases err with
      | none => cases h; exact hi.advance (by simp [hfn]) rfl (by simp [hfn])
      | some msg => cases h; exact hi.giveUp (by simp [hfn]) rfl rfl
  | read =>
      obtain ⟨hfn, h⟩ := Option.ite_none_right_eq_some.mp h
      cases hread : s.pipe.read copyBuffer with
      | none => simp [hread] at h
      | some res =>
          obtain ⟨r, p⟩ := res
          rw [hread] at h
          cases r with
          | data b =>
              cases h
              exact (hi.setPipe hread).advance (by simp [hfn]) rfl (by simp [hfn])
          | ended err =>
              cases err with
              | none | some e => cases h; exact hi.readEnd (by simp [hfn]) rfl rfl hread
  | store err =>
      simp only [appendStep] at h
      split at h
      · rename_i b hfn
        cases h; exact hi.advance (by simp [hfn]) rfl (by simp [hfn])
      · rename_i b msg hfn
        cases h; exact hi.giveUp (by simp [hfn]) rfl rfl
      · contradiction
  | sync err =>
      obtain ⟨hfn, h⟩ := Option.ite_none_right_eq_some.mp h
      cases h; exact hi.advance (by simp [hfn]) rfl (by simp [hfn])
  | closeFile err =>
      simp only [appendStep] at h
      split at h
      · rename_i e hfn
        cases h; exact hi.advance (by simp [hfn]) rfl (by simp [hfn])
      · rename_i hfn
        cases h; exact hi.advance (by simp [hfn]) rfl (by simp [hfn])
      · contradiction
  | _ => contradiction

theorem TransferInv.step (hi : TransferInv s) (h : transferStep s e = some s') : TransferInv s' := by
  rcases transferStep_cases h with h | h | h
  · exact hi.downloader h
  · exact hi.append h
  · exact hi.frame h

/-! ## Giving up -/

/-- `AppendPartial` has given up and something is left to be read. -/
def Doomed (s : TransferState) : Prop := s.abandoned = true ∧ s.pipe.pending.isSome = true

/-- What a step does to the write in progress and to `abandoned`. -/
theorem transferStep_effect (h : transferStep s e = some s') :
    (∃ b, e = .write b ∧ s'.abandoned = s.abandoned ∧ s'.pipe.pending = some b) ∨
    (e = .read ∧ s.fn = .reading ∧ s'.abandoned = s.abandoned) ∨
    ((∀ b, e ≠ .write b) ∧ s'.abandoned = (s.abandoned || e.givesUp) ∧
      s'.pipe.pending = s.pipe.pending) := by
  cases e with
  | write b =>
      left
      simp only [transferStep, downloaderStep, appendStep, frameStep, Option.or_none] at h
      split at h
      · obtain ⟨p, hp, rfl⟩ := Option.map_eq_some_iff.mp h
        obtain ⟨-, -, rfl⟩ := Pipe.offer_eq_some hp
        exact ⟨b, rfl, rfl, rfl⟩
      · contradiction
  | read =>
      right; left
      simp only [transferStep, downloaderStep, appendStep, frameStep, Option.or_none,
        Option.none_or] at h
      obtain ⟨hfn, h⟩ := Option.ite_none_right_eq_some.mp h
      refine ⟨rfl, hfn, ?_⟩
      split at h <;> first | contradiction | (cases h; rfl)
  | check ok =>
      right; right
      simp only [transferStep, downloaderStep, appendStep, frameStep, Option.or_none,
        Option.none_or] at h
      split at h
      · cases ok <;> (cases h; simp [TransferEvent.givesUp, TransferState.giveUp])
      · contradiction
  | mkdir err | openFile err =>
      right; right
      simp only [transferStep, downloaderStep, appendStep, frameStep, Option.or_none,
        Option.none_or] at h
      split at h
      · cases err <;> (cases h; simp [TransferEvent.givesUp, TransferState.giveUp])
      · contradiction
  | store err =>
      right; right
      simp only [transferStep, downloaderStep, appendStep, frameStep, Option.or_none,
        Option.none_or] at h
      split at h
      · cases h; simp [TransferEvent.givesUp]
      · cases h; simp [TransferEvent.givesUp, TransferState.giveUp]
      · contradiction
  | _ =>
      right; right
      simp only [transferStep, downloaderStep, appendStep, frameStep, Option.or_none,
        Option.none_or, Pipe.closeWriter] at h
      simp only [TransferEvent.givesUp, Bool.or_false]
      grind

theorem not_reading_of_abandoned (hi : TransferInv s) (ha : s.abandoned = true) : s.fn ≠ .reading := by
  intro hfn
  have hr := hi.abandoned ha
  rw [hfn] at hr
  contradiction

/-- Nothing gets a doomed transfer out of it. -/
theorem Doomed.step (hd : Doomed s) (hi : TransferInv s) (h : transferStep s e = some s') :
    Doomed s' := by
  obtain ⟨ha, hp⟩ := hd
  rcases transferStep_effect h with ⟨b, -, ha', hp'⟩ | ⟨-, hfn, -⟩ | ⟨-, ha', hp'⟩
  · exact ⟨ha'.trans ha, by rw [hp']; rfl⟩
  · exact absurd hfn (not_reading_of_abandoned hi ha)
  · exact ⟨by rw [ha', ha]; rfl, by rw [hp']; exact hp⟩

/-- A step that is not calm dooms the transfer. -/
theorem doomed_of_not_calm (hc : calm s e = false) (h : transferStep s e = some s') :
    Doomed s' := by
  rcases transferStep_effect h with ⟨b, rfl, ha', hp'⟩ | ⟨rfl, -, -⟩ | ⟨hw, ha', hp'⟩
  · refine ⟨ha'.trans ?_, by rw [hp']; rfl⟩
    simpa [calm] using hc
  · simp [calm, TransferEvent.givesUp] at hc
  · have hgive : e.givesUp = true ∧ s.pipe.pending.isSome = true := by
      cases e with
      | write b => exact absurd rfl (hw b)
      | _ => simpa [calm] using hc
    exact ⟨by rw [ha', hgive.1, Bool.or_true], by rw [hp']; exact hgive.2⟩

/-- A calm step dooms nothing. -/
theorem not_doomed_of_calm (hd : ¬ Doomed s) (hc : calm s e = true) (h : transferStep s e = some s')
    (hi : TransferInv s) : ¬ Doomed s' := by
  intro ⟨ha, hp⟩
  rcases transferStep_effect h with ⟨b, rfl, ha', -⟩ | ⟨-, hfn, ha'⟩ | ⟨hw, ha', hp'⟩
  · rw [ha'] at ha
    simp [calm, ha] at hc
  · rw [ha'] at ha
    exact not_reading_of_abandoned hi ha hfn
  · rw [hp'] at hp
    have hgive : e.givesUp = true := by
      by_contra hno
      rw [Bool.not_eq_true] at hno
      rw [ha', hno, Bool.or_false] at ha
      exact hd ⟨ha, hp⟩
    cases e with
    | write b => exact absurd rfl (hw b)
    | _ => simp_all [calm]

/-! ## Progress -/

/-- As long as the goroutine has not exited and waits for nobody, it can go on. -/
theorem downloader_progress (hi : TransferInv s) (hstart : s.fn.beforeGo = false)
    (hp : s.dl = .writing → s.pipe.pending = none) (hx : s.dl ≠ .exited) :
    ∃ e s', transferStep s e = some s' := by
  cases hdl : s.dl with
  | notStarted =>
      have hb := hi.started.mp hdl
      rw [hstart] at hb
      contradiction
  | receiving => exact ⟨.finish none, _, by simp [transferStep, downloaderStep, hdl]; rfl⟩
  | writing => exact ⟨.writeReturns, _, by simp [transferStep, downloaderStep, hdl, hp hdl]; rfl⟩
  | returning err => exact ⟨.closeWriter, _, by simp [transferStep, downloaderStep, hdl]; rfl⟩
  | signalling => exact ⟨.closeDone, _, by simp [transferStep, downloaderStep, hdl]; rfl⟩
  | exited => exact absurd hdl hx

/-- A transfer that is not doomed and has not returned can take a step. -/
theorem transfer_progress (hi : TransferInv s) (hd : ¬ Doomed s) (hr : s.fn ≠ .returned) :
    ∃ e s', transferStep s e = some s' := by
  cases hfn : s.fn with
  | acquiring => exact ⟨.acquire, _, by simp [transferStep, downloaderStep, appendStep, frameStep, hfn]; rfl⟩
  | locking => exact ⟨.lock, _, by simp [transferStep, downloaderStep, appendStep, frameStep, hfn]; rfl⟩
  | preparing => exact ⟨.go, _, by simp [transferStep, downloaderStep, appendStep, frameStep, hfn]; rfl⟩
  | checking => exact ⟨.check true, _, by simp [transferStep, downloaderStep, appendStep, hfn]; rfl⟩
  | makingDir => exact ⟨.mkdir none, _, by simp [transferStep, downloaderStep, appendStep, hfn]; rfl⟩
  | opening => exact ⟨.openFile none, _, by simp [transferStep, downloaderStep, appendStep, hfn]; rfl⟩
  | reading =>
      cases hread : s.pipe.read copyBuffer with
      | some res =>
          obtain ⟨r, p⟩ := res
          cases r with
          | data b => exact ⟨.read, _, by simp [transferStep, downloaderStep, appendStep, hfn, hread]; rfl⟩
          | ended err =>
              cases err with
              | none | some e =>
                  exact ⟨.read, _, by simp [transferStep, downloaderStep, appendStep, hfn, hread]; rfl⟩
      | none =>
          -- nothing to read: the goroutine has not closed its end yet
          have hpend : s.pipe.pending = none := by
            cases hp : s.pipe.pending with
            | none => rfl
            | some b => simp [Pipe.read, hp] at hread
          have hopen : s.pipe.closed = none := by
            cases hc : s.pipe.closed with
            | none => rfl
            | some err => simp [Pipe.read, hpend, hc] at hread
          refine downloader_progress hi (by simp [hfn]) (fun _ => hpend) fun hdl => ?_
          have hcl := hi.closed
          rw [hdl, hopen] at hcl
          contradiction
  | storing b => exact ⟨.store none, _, by simp [transferStep, downloaderStep, appendStep, hfn]; rfl⟩
  | syncing => exact ⟨.sync none, _, by simp [transferStep, downloaderStep, appendStep, hfn]; rfl⟩
  | closing err =>
      cases err with
      | none | some e =>
          exact ⟨.closeFile none, _, by simp [transferStep, downloaderStep, appendStep, hfn]; rfl⟩
  | joining err =>
      by_cases hdl : s.dl = .exited
      · have hdone : s.done = true := hi.done.mpr hdl
        exact ⟨.join, _, by simp [transferStep, downloaderStep, appendStep, frameStep, hfn, hdone]; rfl⟩
      · refine downloader_progress hi (by simp [hfn]) (fun hwr => ?_) hdl
        -- a write in progress here means that `AppendPartial` has given up
        have hab : s.abandoned = true := by
          by_contra hno
          have hclosed := hi.ended (by simp [hfn]) (by simpa using hno)
          rw [hwr] at hclosed
          contradiction
        cases hp : s.pipe.pending with
        | none => rfl
        | some b => exact absurd ⟨hab, by rw [hp]; rfl⟩ hd
  | settling => exact ⟨.settle, _, by simp [transferStep, downloaderStep, appendStep, frameStep, hfn]; rfl⟩
  | unlocking => exact ⟨.unlock, _, by simp [transferStep, downloaderStep, appendStep, frameStep, hfn]; rfl⟩
  | releasing => exact ⟨.release, _, by simp [transferStep, downloaderStep, appendStep, frameStep, hfn]; rfl⟩
  | returned => exact absurd hfn hr

theorem not_returned_of_doomed (hi : TransferInv s) (hd : Doomed s) : s.fn.joined = false := by
  by_contra hj
  have hdl := hi.done.mp (hi.joined (by simpa using hj))
  have hwr := hi.writing hd.2
  rw [hdl] at hwr
  contradiction

end Invariant

/-! ## Runs -/

/-- One step of a transfer. -/
def TransferStep (s s' : TransferState) : Prop := ∃ e, transferStep s e = some s'

/-- One step that meets the condition. -/
def CalmStep (s s' : TransferState) : Prop := ∃ e, calm s e = true ∧ transferStep s e = some s'

variable {s s' : TransferState}

theorem not_doomed_of_run (h : Relation.ReflTransGen CalmStep .start s) :
    TransferInv s ∧ ¬ Doomed s := by
  induction h with
  | refl => exact ⟨transferInv_start, by simp [Doomed, TransferState.start]⟩
  | tail _ hstep ih =>
      obtain ⟨e, hc, he⟩ := hstep
      exact ⟨ih.1.step he, not_doomed_of_calm ih.2 hc he ih.1⟩

theorem Doomed.of_run (hi : TransferInv s) (hd : Doomed s)
    (h : Relation.ReflTransGen TransferStep s s') : TransferInv s' ∧ Doomed s' := by
  induction h with
  | refl => exact ⟨hi, hd⟩
  | tail _ hstep ih =>
      obtain ⟨e, he⟩ := hstep
      exact ⟨ih.1.step he, ih.2.step ih.1 he⟩

/-- Once the function has received from the done channel, everything that was
written has been read: `joinDownloader` of the node's programs waits for this. -/
theorem all_read_of_joined (h : Relation.ReflTransGen TransferStep .start s)
    (hj : s.fn.joined = true) : s.pipe.taken.flatten = s.pipe.written.flatten := by
  have hi : TransferInv s := by
    clear hj
    induction h with
    | refl => exact transferInv_start
    | tail _ hstep ih => exact ih.step hstep.choose_spec
  cases hp : s.pipe.pending with
  | none => simpa [Pipe.Conserved, hp] using hi.conserved
  | some b =>
      have hwr := hi.writing (by rw [hp]; rfl)
      rw [hi.done.mp (hi.joined hj)] at hwr
      contradiction

/-- A download of one block. -/
theorem all_read_of_joined_oneBlock : ∃ s, Relation.ReflTransGen TransferStep .start s ∧
    s.pipe.taken.flatten = s.pipe.written.flatten := by
  obtain ⟨s, hs, hj⟩ : ∃ s, [.acquire, .lock, .go, .check true, .mkdir none, .openFile none,
      .write [1], .read, .store none, .writeReturns, .finish none, .closeWriter, .closeDone, .read,
      .sync none, .closeFile none, .join].foldlM transferStep .start = some s ∧ s.fn.joined :=
    ⟨_, rfl, rfl⟩
  have hrun := Conc.reachable_of_foldlM hs
  exact ⟨s, hrun, all_read_of_joined hrun hj⟩

/-- **No deadlock.**  In every state a run of calm steps leads to: if the function
has not returned, some goroutine can take a step; if it has, it holds nothing.
After a step that is not calm the function never returns. -/
theorem transfer_never_stuck (s : TransferState) (h : Relation.ReflTransGen CalmStep .start s) :
    (s.fn ≠ .returned → ∃ s', TransferStep s s') ∧
    (s.fn = .returned → s.lock = false ∧ s.outer = false) ∧
    (∀ e s' s'', calm s e = false → transferStep s e = some s' →
      Relation.ReflTransGen TransferStep s' s'' → s''.fn ≠ .returned) := by
  obtain ⟨hi, hd⟩ := not_doomed_of_run h
  refine ⟨fun hr => ?_, fun hr => ?_, fun e s' s'' hc he h' hr => ?_⟩
  · obtain ⟨e, s', he⟩ := transfer_progress hi hd hr
    exact ⟨s', e, he⟩
  · exact ⟨by rw [hi.lock, hr]; rfl, by rw [hi.outer, hr]; rfl⟩
  · obtain ⟨hi', hd'⟩ := (doomed_of_not_calm hc he).of_run (hi.step he) h'
    have hj := not_returned_of_doomed hi' hd'
    rw [hr] at hj
    contradiction

/-- The state after a run of calm steps. -/
def TransferState.calmAfter (s : TransferState) (es : List TransferEvent) : Option TransferState :=
  es.foldlM (fun s e => if calm s e then transferStep s e else none) s

theorem calmRun_of_calmAfter {es : List TransferEvent} (h : s.calmAfter es = some s') :
    Relation.ReflTransGen CalmStep s s' := by
  refine Relation.ReflTransGen.mono (fun a b hab => ?_) _ _ (Conc.reachable_of_foldlM h)
  obtain ⟨e, he⟩ := hab
  by_cases hc : calm a e = true
  · exact ⟨e, hc, by simpa [hc] using he⟩
  · simp [hc] at he

/-- A disk that refuses the partial before the goroutine writes. -/
def refusedEarly : List TransferEvent :=
  [.acquire, .lock, .go, .check true, .mkdir none, .openFile (some (str "ENOSPC"))]

theorem transfer_never_stuck_early :
    ∃ s, TransferState.start.calmAfter refusedEarly = some s ∧ ∃ s', TransferStep s s' := by
  have hrun : ∃ s, TransferState.start.calmAfter refusedEarly = some s ∧ s.fn ≠ .returned :=
    ⟨_, rfl, by decide⟩
  obtain ⟨s, hs, hr⟩ := hrun
  exact ⟨s, hs, (transfer_never_stuck s (calmRun_of_calmAfter hs)).1 hr⟩

/-- A disk that refuses the partial while the goroutine writes its first block. -/
def refusedOpen : List TransferEvent :=
  [.acquire, .lock, .go, .check true, .mkdir none, .write [1], .openFile (some (str "ENOSPC"))]

/-- The function waits for the goroutine, the goroutine waits for a reader, and
the lock and the slot stay taken. -/
theorem refusedOpen_stuck :
    ∃ s, Relation.ReflTransGen TransferStep .start s ∧ s.fn ≠ .returned ∧
      s.lock = true ∧ s.outer = true ∧ ∀ e, transferStep s e = none := by
  have hrun : ∃ s, refusedOpen.foldlM transferStep .start = some s ∧ s.fn ≠ .returned ∧
      s.lock = true ∧ s.outer = true ∧ ∀ e, transferStep s e = none := by
    refine ⟨_, rfl, by decide, rfl, rfl, fun e => ?_⟩
    cases e <;> rfl
  obtain ⟨s, hs, hstuck⟩ := hrun
  exact ⟨s, Conc.reachable_of_foldlM hs, hstuck⟩

end Spider
