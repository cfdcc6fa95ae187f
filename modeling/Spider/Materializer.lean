import Spider.Cache.Store
import Spider.Node.Answers
import Spider.Node.Rules

/-!
# Spider.Materializer

Assembling a manifest's files from committed chunks
(`pkg/materializer/materializer.go`): `Materialize`, `materializeFile` and the
hard-link shortcut.

The results are stated for a thread that is the only one to write to the
destination (`destProtocol`); other threads may do anything else meanwhile.
`wp_materialize` says what a run without error has done: it has written the
target of each entry, one after another, and with the copy strategy each target
holds pieces that hash to the entry's chunks.  Two entries meet on disk exactly
if their paths clean to the same path.
-/

namespace Spider

open Conc

inductive Strategy where
  | copy
  | hardLink
  deriving DecidableEq

/-- Options of a materializer. -/
structure Options where
  strategy : Strategy
  overwrite : Bool
  preservePerms : Bool
  deriving DecidableEq

def defaultOptions : Options := ⟨.copy, true, true⟩

/-- The permission bits `chmod` gets for a Go `os.FileMode`: the nine low bits,
and the set-id and sticky bits from their high positions. -/
def syscallMode (mode : Nat) : Nat :=
  mode % 0o1000 + (if mode.testBit 23 then 0o4000 else 0) + (if mode.testBit 22 then 0o2000 else 0) +
    (if mode.testBit 20 then 0o1000 else 0)

/-! ## Reading chunks -/

/-- `GetChunkReader`; the result is what the open file reads. -/
def getChunkReader (h : Str) : NodeM (Except Err Bytes) :=
  match parseHash h with
  | none => pure (.error .invalidHashName)
  | some _ => do
      match ← onStore (.openChunk h) with
      | .content b => pure (.ok b)
      | .absent => pure (.error .chunkNotFound)
      | .failed msg => pure (.error (.openChunk msg))

/-- `verifyCachedChunk`. -/
def verifyCachedChunk (H : Sha256) (h : Str) : NodeM (Option Err) := do
  match ← getChunkReader h with
  | .error e => pure (some e)
  | .ok b =>
    match ← onStore (.readChunk h) with
    | some msg => pure (some (.hashReader msg))
    | none =>
        if computeHash H b ≠ h then pure (some (.verifyHash b.length h (computeHash H b)))
        else pure none

/-! ## One file -/

/-- `io.Copy` of a chunk to the target. -/
def copyToTarget (h target : Str) : List Bytes → NodeM (Option Str)
  | [] => pure none
  | b :: bs => do
      match ← onStore (.readChunk h) with
      | some msg => pure (some msg)
      | none =>
        match ← onDest (.writeTarget target b) with
        | some e => pure (some e.msg)
        | none => copyToTarget h target bs

/-- The chunk loop of `materializeFile`; `written` is `bytesWritten` so far. -/
def copyChunks (H : Sha256) (path target : Str) :
    Nat → Int64 → List ChunkRef → NodeM (Except Err Int64)
  | _, written, [] => pure (.ok written)
  | i, written, c :: cs => do
      match ← getChunkReader c.hash with
      | .error e => pure (.error (.missingChunk c.hash path i e))
      | .ok content =>
        -- the limit reader stops at the declared size
        let data := content.take c.size.toInt.toNat
        match ← copyToTarget c.hash target (blockReads data) with
        | some msg => pure (.error (.writeTarget c.hash target msg))
        | none =>
            if (data.length : Int) ≠ c.size.toInt then
              pure (.error (.shortWrite c.hash c.size.toInt data.length))
            else if computeHash H data ≠ c.hash then do
              let _ ← onDest (.removeTarget target)
              pure (.error (.targetIntegrity c.hash path (computeHash H data)))
            else copyChunks H path target (i + 1) (written + Int64.ofInt data.length) cs

/-- `_ = os.Remove(target)` if files are to be overwritten. -/
def removeOld (opts : Options) (target : Str) : NodeM Unit :=
  if opts.overwrite then do
    let _ ← onDest (.removeTarget target)
    pure ()
  else pure ()

/-- `materializeFile`. -/
def materializeFile (H : Sha256) (opts : Options) (entry : FileEntry) (target : Str) :
    NodeM (Option Err) := do
  let () ← removeOld opts target
  match ← onDest (.openTarget target) with
  | some msg => pure (some (.openTarget target msg))
  | none =>
    match ← copyChunks H entry.path target 0 0 entry.chunks with
    | .error e => pure (some e)
    | .ok written =>
        if written ≠ entry.size then pure (some (.targetSize entry.path entry.size written))
        else pure none

/-- The end of the loop body: the copy, then the permissions. -/
def copyFile (H : Sha256) (opts : Options) (entry : FileEntry) (target : Str) :
    NodeM (Option Err) := do
  match ← materializeFile H opts entry target with
  | some e => pure (some (.materializeFile entry.path e))
  | none =>
      if opts.preservePerms ∧ entry.mode ≠ [] then
        match parseOctal entry.mode with
        | some perm => do
            let _ ← onDest (.chmodTarget target (syscallMode perm))
            pure none
        | none => pure none
      else pure none

/-- The chunk a file can be linked to: its only one, of the file's size. -/
def linkChunk (opts : Options) (entry : FileEntry) : Option ChunkRef :=
  match opts.strategy, entry.chunks with
  | .hardLink, [c] => if c.size = entry.size then some c else none
  | _, _ => none

/-- The loop body of `Materialize` behind the parent directory: a hard link if
that is asked for and possible, otherwise a copy. -/
def placeFile (H : Sha256) (opts : Options) (entry : FileEntry) (target : Str) :
    NodeM (Option Err) :=
  match linkChunk opts entry with
  | none => copyFile H opts entry target
  | some c => do
      match ← verifyCachedChunk H c.hash with
      | some e => pure (some (.unverifiedLink c.hash entry.path e))
      | none =>
        if ← hasChunk c.hash then do
          let () ← removeOld opts target
          match ← onLink c.hash target with
          | none => pure none
          | some _ => copyFile H opts entry target
        else copyFile H opts entry target

/-! ## The whole manifest -/

/-- The file loop of `Materialize`. -/
def materializeFiles (H : Sha256) (opts : Options) (destDir : Str) :
    List FileEntry → NodeM (Option Err)
  | [] => pure none
  | entry :: entries => do
      match ← onJob .ctxErr with
      | some deadline => pure (some (.ctx deadline))
      | none =>
        match safeJoin destDir entry.path with
        | .error e => pure (some (.join e))
        | .ok target =>
          match ← onDest (.mkdirAll (dir target)) with
          | some msg => pure (some (.mkdirParent entry.path msg))
          | none =>
            match ← placeFile H opts entry target with
            | some e => pure (some e)
            | none => materializeFiles H opts destDir entries

/-- `Materialize`. -/
def materialize (H : Sha256) (J : Marshal) (opts : Options) (m : ArtifactManifest)
    (destDir : Str) : NodeM (Option Err) :=
  match validate H J m with
  | .error e => pure (some (.invalidManifest e))
  | .ok () => do
      match ← onDest (.mkdirAll destDir) with
      | some msg => pure (some (.mkdirDest destDir msg))
      | none => materializeFiles H opts destDir m.files

/-! ## The only thread that writes to the destination -/

/-- Commands that leave the destination as it is. -/
def Cmd.destFree : Cmd → Bool
  | .dest _ | .link _ _ => false
  | _ => true

theorem nodeExec_destFree {t : Tid} {s s' : Node} {c : Cmd} {r : c.Resp} (hc : c.destFree = true)
    (h : nodeSystem.exec t c r s = some s') : s'.dest = s.dest := by
  cases c with
  | store c => obtain ⟨x, hx, rfl⟩ := nodeExec_store h; rfl
  | quota c => obtain ⟨x, hx, rfl⟩ := nodeExec_quota h; rfl
  | job c => obtain ⟨x, hx, rfl⟩ := nodeExec_job h; rfl
  | net c => obtain ⟨x, hx, rfl⟩ := nodeExec_net h; rfl
  | dest c => contradiction
  | link h p => contradiction

/-- Only `main` writes to the destination. -/
def destProtocol (main : Tid) : Protocol nodeSystem where
  Inv _ := True
  rely t s s' := t = main → s'.dest = s.dest
  about t c _ := c.destFree = false → t = main
  rely_refl _ _ _ := rfl
  rely_trans h₁ h₂ ht := (h₂ ht).trans (h₁ ht)
  step_inv := fun _ _ _ => trivial
  step_rely := by
    intro t c r s s' t' _ ha hx ht hmain
    cases hc : c.destFree with
    | true => exact nodeExec_destFree hc hx
    | false => exact absurd (hmain.trans (ha hc).symm) ht

/-- Thread `t` runs `p` from a destination `d`, the others write elsewhere, and
`R` relates its result and the destination it leaves. -/
def Writes (t : Tid) {α : Type} (R : α → Dest → Prop) (p : NodeM α) (d : Dest) : Prop :=
  ∀ s : Node, s.dest = d → (destProtocol t).wp t (fun a s' => R a s'.dest) p s

section Writes

variable {t : Tid} {d : Dest} {α β : Type} {R : α → Dest → Prop}

theorem Writes.pure {a : α} (h : R a d) : Writes t R (pure a) d := by
  intro s hs
  refine Protocol.wp_pure fun s' hr _ => ?_
  rw [hr rfl, hs]
  exact h

variable {p : NodeM α}

theorem Writes.mono {R' : α → Dest → Prop} (hp : Writes t R p d) (hR : ∀ a d', R a d' → R' a d') :
    Writes t R' p d :=
  fun s hs => Protocol.wp_mono (fun a s' _ h => hR a s'.dest h) (hp s hs)

theorem Writes.seq {R' : β → Dest → Prop} {f : α → NodeM β} (hp : Writes t R p d)
    (hf : ∀ a d', R a d' → Writes t R' (f a) d') : Writes t R' (p >>= f) d :=
  fun s hs => Protocol.wp_seq trivial (hp s hs) fun a s' _ h => hf a s'.dest h s' rfl

/-- A command on another part of the node. -/
theorem Writes.elsewhere {c : Cmd} {k : c.Resp → NodeM α} (hc : c.destFree = true)
    (hk : ∀ r, Writes t R (k r) d) : Writes t R (@Prog.perform nodeSig c >>= k) d := by
  intro s hs
  apply Protocol.wp_perform
  intro s1 hr _
  refine ⟨fun hd => absurd hd (by simp [hc]), fun r s2 hx _ => hk r s2 ?_⟩
  rw [nodeExec_destFree hc hx, hr rfl, hs]

/-- A program on other parts of the node. -/
theorem Writes.only (hp : p.Only fun c : Cmd => c.destFree = true) :
    Writes t (fun _ d' => d' = d) p d := by
  intro s hs
  refine Protocol.wp_only (F := fun s' : Node => s'.dest = d) hp ?_ ?_ ?_ hs
  · exact fun _ _ hr hF => (hr rfl).trans hF
  · exact fun c _ hc _ _ hd => absurd hd (by simp [hc])
  · exact fun c r _ _ hc hF _ hx => (nodeExec_destFree hc hx).trans hF

theorem Writes.dest {c : DestCmd} {k : c.Resp → NodeM α}
    (hk : ∀ r d', execDest c r d = some d' → Writes t R (k r) d') :
    Writes t R (onDest c >>= k) d := by
  intro s hs
  apply Protocol.wp_perform
  intro s1 hr _
  refine ⟨fun _ => rfl, fun r s2 hx _ => ?_⟩
  obtain ⟨x, hpart, rfl⟩ := nodeExec_dest hx
  rw [hr rfl, hs] at hpart
  exact hk r x hpart _ rfl

theorem Writes.link {h p : Str} {k : Option Str → NodeM α}
    (hk : ∀ r d' x, execLink x h p r d = some d' → Writes t R (k r) d') :
    Writes t R (onLink h p >>= k) d := by
  intro s hs
  apply Protocol.wp_perform
  intro s1 hr _
  refine ⟨fun _ => rfl, fun r s2 hx _ => ?_⟩
  obtain ⟨x, hpart, rfl⟩ := nodeExec_link hx
  rw [hr rfl, hs] at hpart
  exact hk r x _ hpart _ rfl

/-- A run alone. -/
theorem Writes.of_runs {s s' : Node} {a : α} (hp : Writes t R p s.dest)
    (hrun : Runs nodeSystem t p s a s') : R a s'.dest :=
  (Protocol.post_of_wp trivial (hp s rfl)).of_runs hrun

end Writes

/-! ## What the destination commands do -/

/-- Nothing but the file at `target` changes. -/
structure OnlyTarget (target : Str) (d d' : Dest) : Prop where
  other : ∀ p, p ≠ target → d'.entries.lookup p = d.entries.lookup p
  opened : d'.opened = d.opened

section Effects

variable {target : Str} {d d' : Dest}

theorem OnlyTarget.refl : OnlyTarget target d d := ⟨fun _ _ => rfl, rfl⟩

theorem OnlyTarget.trans {d'' : Dest} (h1 : OnlyTarget target d d') (h2 : OnlyTarget target d' d'') :
    OnlyTarget target d d'' :=
  ⟨fun p hp => (h2.other p hp).trans (h1.other p hp), h2.opened.trans h1.opened⟩

theorem OnlyTarget.insert {e : Entry} :
    OnlyTarget target d { d with entries := d.entries.insert target e } :=
  ⟨fun _ hp => AList.lookup_insert_ne hp, rfl⟩

variable {data : Bytes} {r : Option Str}

theorem onlyTarget_append : OnlyTarget target d (d.append target data) := by
  unfold Dest.append
  split
  · exact .insert
  · exact .refl

theorem lookup_append {old : Bytes} {perm : Nat}
    (h : d.entries.lookup target = some (.file old perm)) :
    (d.append target data).entries.lookup target = some (.file (old ++ data) perm) := by
  simp only [Dest.append, h]
  exact AList.lookup_insert ..

theorem onlyTarget_writeTarget {r : Option ShortWrite}
    (h : execDest (.writeTarget target data) r d = some d') : OnlyTarget target d d' := by
  cases r with
  | none => simp only [execDest, Option.some.injEq] at h; rw [← h]; exact onlyTarget_append
  | some e =>
      obtain ⟨-, ⟨⟩⟩ := Option.ite_none_right_eq_some.mp h
      exact onlyTarget_append

theorem onlyTarget_removeTarget {r : Removal} (h : execDest (.removeTarget target) r d = some d') :
    OnlyTarget target d d' := by
  cases r with
  | removed =>
      obtain ⟨-, ⟨⟩⟩ := Option.ite_none_right_eq_some.mp h
      exact ⟨fun _ hp => AList.lookup_erase_ne hp, rfl⟩
  | absent =>
      obtain ⟨-, ⟨⟩⟩ := Option.ite_none_right_eq_some.mp h
      exact .refl
  | failed m => simp only [execDest, Option.some.injEq] at h; rw [← h]; exact .refl

/-- After a successful open the target is an empty file. -/
theorem openTarget_effect (h : execDest (.openTarget target) none d = some d') :
    (∃ perm, d'.entries.lookup target = some (.file [] perm)) ∧ d'.opened = d.opened ++ [target] ∧
      ∀ p, p ≠ target → d'.entries.lookup p = d.entries.lookup p := by
  simp only [execDest] at h
  split at h
  · contradiction
  · rw [← Option.some.inj h]
    exact ⟨⟨_, AList.lookup_insert ..⟩, rfl, fun _ hp => AList.lookup_insert_ne hp⟩
  · obtain ⟨-, ⟨⟩⟩ := Option.ite_none_right_eq_some.mp h
    exact ⟨⟨_, AList.lookup_insert ..⟩, rfl, fun _ hp => AList.lookup_insert_ne hp⟩

theorem onlyTarget_chmodTarget {perm : Nat} (h : execDest (.chmodTarget target perm) r d = some d') :
    OnlyTarget target d d' := by
  cases r with
  | none =>
      simp only [execDest] at h
      split at h
      · rw [← Option.some.inj h]; exact .insert
      · contradiction
  | some m => simp only [execDest, Option.some.injEq] at h; rw [← h]; exact .refl

/-- A change of permissions keeps the bytes. -/
theorem lookup_chmodTarget {perm : Nat} {content : Bytes} {old : Nat}
    (h : execDest (.chmodTarget target perm) r d = some d')
    (hf : d.entries.lookup target = some (.file content old)) :
    ∃ new, d'.entries.lookup target = some (.file content new) := by
  cases r with
  | none =>
      simp only [execDest, hf, Option.some.injEq] at h
      rw [← h]
      exact ⟨perm, AList.lookup_insert ..⟩
  | some m =>
      simp only [execDest, Option.some.injEq] at h
      rw [← h]
      exact ⟨old, hf⟩

theorem execLink_effect {x : Store} {h : Str} (hx : execLink x h target none d = some d') :
    d'.opened = d.opened ++ [target] ∧
      ∀ p, p ≠ target → d'.entries.lookup p = d.entries.lookup p := by
  simp only [execLink] at hx
  split at hx
  · obtain ⟨-, ⟨⟩⟩ := Option.ite_none_right_eq_some.mp hx
    exact ⟨rfl, fun _ hp => AList.lookup_insert_ne hp⟩
  · contradiction

/-- Files stay what they are when directories are made. -/
structure FilesKept (d d' : Dest) : Prop where
  files : ∀ p content perm, d.entries.lookup p = some (.file content perm) →
    d'.entries.lookup p = some (.file content perm)
  opened : d'.opened = d.opened

theorem filesKept_mkdir (p : Str) : FilesKept d (d.mkdir p) := by
  unfold Dest.mkdir
  by_cases hp : (d.entries.lookup p).isSome = true
  · rw [if_pos hp]
    exact ⟨fun _ _ _ h => h, rfl⟩
  · rw [if_neg hp]
    refine ⟨fun q content perm h => ?_, rfl⟩
    have hne : q ≠ p := by
      intro he
      rw [he] at h
      simp [h] at hp
    exact (AList.lookup_insert_ne hne).trans h

theorem filesKept_mkdirs (ps : List Str) : FilesKept d (ps.foldl Dest.mkdir d) := by
  induction ps generalizing d with
  | nil => exact ⟨fun _ _ _ h => h, rfl⟩
  | cons p ps ih =>
      have h1 := filesKept_mkdir (d := d) p
      have h2 := ih (d := d.mkdir p)
      exact ⟨fun q c m h => h2.files q c m (h1.files q c m h), h2.opened.trans h1.opened⟩

theorem mkdirAll_effect {p : Str} (h : execDest (.mkdirAll p) r d = some d') : FilesKept d d' := by
  cases r with
  | none =>
      obtain ⟨-, ⟨⟩⟩ := Option.ite_none_left_eq_some.mp h
      exact filesKept_mkdirs _
  | some m =>
      simp only [execDest, Option.some.injEq] at h
      rw [← h]
      exact ⟨fun _ _ _ h => h, rfl⟩

end Effects

/-! ## What a run without error has done -/

/-- The target holds pieces that hash to the entry's chunks, one after another. -/
def Placed (H : Sha256) (entry : FileEntry) (target : Str) (d : Dest) : Prop :=
  ∃ ps perm, Pieces H entry.chunks ps ∧ d.entries.lookup target = some (.file ps.flatten perm)

/-- What placing one file has done to the destination. -/
structure FilePlaced (H : Sha256) (opts : Options) (entry : FileEntry) (target : Str)
    (d d' : Dest) : Prop where
  opened : d'.opened = d.opened ++ [target]
  other : ∀ p, p ≠ target → d'.entries.lookup p = d.entries.lookup p
  placed : opts.strategy = .copy → Placed H entry target d'

section Runs

variable {H : Sha256} {opts : Options} {t : Tid} {d : Dest} {target path h : Str} {old : Bytes}
variable {perm : Nat} {entry : FileEntry}

theorem only_getChunkReader (h : Str) :
    (getChunkReader h).Only fun c : Cmd => c.destFree = true := by
  unfold getChunkReader
  split
  · trivial
  · refine ⟨rfl, fun r => ?_⟩
    cases r <;> exact trivial

theorem only_verifyCachedChunk (H : Sha256) (h : Str) :
    (verifyCachedChunk H h).Only fun c : Cmd => c.destFree = true := by
  refine (only_getChunkReader h).bind fun r => ?_
  cases r with
  | error e => trivial
  | ok b =>
      refine ⟨rfl, fun r => ?_⟩
      cases r with
      | some m => trivial
      | none =>
          split <;> trivial

variable {ok : Cmd → Prop} {destDir : Str}

theorem only_copyToTarget (hread : ok (.store (.readChunk h)))
    (hwrite : ∀ b, ok (.dest (.writeTarget target b))) (bs : List Bytes) :
    (copyToTarget h target bs).Only ok := by
  induction bs with
  | nil => exact Prog.only_pure _
  | cons b bs ih =>
      refine Prog.only_call hread fun r => ?_
      cases r with
      | some m => exact Prog.only_pure _
      | none =>
          refine Prog.only_call (hwrite b) fun r => ?_
          cases r with
          | some e => exact Prog.only_pure _
          | none => exact ih

theorem only_copyChunks (hfree : ∀ c : Cmd, c.destFree = true → ok c)
    (hwrite : ∀ b, ok (.dest (.writeTarget target b))) (hremove : ok (.dest (.removeTarget target)))
    (i : Nat) (written : Int64) (cs : List ChunkRef) :
    (copyChunks H path target i written cs).Only ok := by
  induction cs generalizing i written with
  | nil => exact Prog.only_pure _
  | cons c cs ih =>
      refine ((only_getChunkReader c.hash).mono hfree).bind fun r => ?_
      cases r with
      | error e => exact Prog.only_pure _
      | ok content =>
          refine (only_copyToTarget (hfree _ rfl) hwrite _).bind fun r => ?_
          cases r with
          | some m => exact Prog.only_pure _
          | none =>
              dsimp only
              split
              · exact Prog.only_pure _
              · split
                · exact Prog.only_call hremove fun _ => Prog.only_pure _
                · exact ih ..

theorem only_removeOld (hremove : ok (.dest (.removeTarget target))) :
    (removeOld opts target).Only ok := by
  unfold removeOld
  split
  · exact Prog.only_call hremove fun _ => Prog.only_pure _
  · exact Prog.only_pure _

theorem writes_copyToTarget {blocks : List Bytes}
    (hf : d.entries.lookup target = some (.file old perm)) :
    Writes t
      (fun r d' => OnlyTarget target d d' ∧
        (r = none → d'.entries.lookup target = some (.file (old ++ blocks.flatten) perm)))
      (copyToTarget h target blocks) d := by
  induction blocks generalizing old d with
  | nil => exact .pure ⟨.refl, fun _ => by simpa using hf⟩
  | cons b bs ih =>
      refine .elsewhere rfl fun r => ?_
      cases r with
      | some m => exact .pure ⟨.refl, by simp⟩
      | none =>
          refine .dest fun r d1 hx => ?_
          have honly := onlyTarget_writeTarget hx
          cases r with
          | some e => exact .pure ⟨honly, by simp⟩
          | none =>
              simp only [execDest, Option.some.injEq] at hx
              have hf1 : d1.entries.lookup target = some (.file (old ++ b) perm) := by
                rw [← hx]
                exact lookup_append hf
              refine (ih hf1).mono fun r d' hpost => ?_
              obtain ⟨hrest, hfile⟩ := hpost
              refine ⟨honly.trans hrest, fun hr => ?_⟩
              rw [hfile hr, List.flatten_cons, List.append_assoc]

/-- The chunk loop appends pieces with the chunks' hashes. -/
theorem writes_copyChunks {i : Nat} {written : Int64} {cs : List ChunkRef}
    (hf : d.entries.lookup target = some (.file old perm)) :
    Writes t
      (fun r d' => OnlyTarget target d d' ∧ ∀ w, r = .ok w → ∃ ps, Pieces H cs ps ∧
        d'.entries.lookup target = some (.file (old ++ ps.flatten) perm))
      (copyChunks H path target i written cs) d := by
  induction cs generalizing i written old d with
  | nil => exact .pure ⟨.refl, fun w _ => ⟨[], .nil, by simpa using hf⟩⟩
  | cons c cs ih =>
      refine (Writes.only (only_getChunkReader c.hash)).seq fun r d1 h1 => ?_
      subst h1
      cases r with
      | error e => exact .pure ⟨.refl, by simp⟩
      | ok content =>
          dsimp only
          generalize content.take c.size.toInt.toNat = data
          refine (writes_copyToTarget hf).seq fun r d2 hpost => ?_
          obtain ⟨honly, hfile⟩ := hpost
          cases r with
          | some m => exact .pure ⟨honly, by simp⟩
          | none =>
              have hf2 := hfile rfl
              rw [blockReads, flatten_blockReads_go (Nat.le_refl _)] at hf2
              by_cases hsize : (data.length : Int) ≠ c.size.toInt
              · simp only [if_pos hsize]
                exact .pure ⟨honly, by simp⟩
              · simp only [if_neg hsize]
                by_cases hhash : computeHash H data ≠ c.hash
                · simp only [if_pos hhash]
                  refine .dest fun r d3 hx => ?_
                  exact .pure ⟨honly.trans (onlyTarget_removeTarget hx), by simp⟩
                · simp only [if_neg hhash]
                  refine (ih hf2).mono fun r d' hrest => ?_
                  obtain ⟨honly', hok⟩ := hrest
                  refine ⟨honly.trans honly', fun w hr => ?_⟩
                  obtain ⟨ps, hps, hlook⟩ := hok w hr
                  refine ⟨data :: ps, .cons ⟨by simpa using hhash, by simpa using hsize⟩ hps, ?_⟩
                  rw [hlook, List.flatten_cons, List.append_assoc]

theorem writes_removeOld :
    Writes t (fun _ d' => OnlyTarget target d d') (removeOld opts target) d := by
  unfold removeOld
  split
  · exact .dest fun r d' hx => .pure (onlyTarget_removeTarget hx)
  · exact .pure .refl

theorem writes_materializeFile :
    Writes t (fun r d' => r = none → FilePlaced H opts entry target d d')
      (materializeFile H opts entry target) d := by
  refine writes_removeOld.seq fun _ d1 h1 => ?_
  refine .dest fun r d2 hx => ?_
  cases r with
  | some m => exact .pure (by simp)
  | none =>
      obtain ⟨⟨perm, hempty⟩, hopened, hother⟩ := openTarget_effect hx
      refine (writes_copyChunks hempty).seq fun r d3 hpost => ?_
      obtain ⟨honly, hok⟩ := hpost
      cases r with
      | error e => exact .pure (by simp)
      | ok w =>
          obtain ⟨ps, hps, hlook⟩ := hok w rfl
          have hplaced : FilePlaced H opts entry target d d3 := by
            refine ⟨?_, fun p hp => ?_, fun _ => ⟨ps, perm, hps, hlook⟩⟩
            · rw [honly.opened, hopened, h1.opened]
            · rw [honly.other p hp, hother p hp, h1.other p hp]
          by_cases hw : w ≠ entry.size
          · simp only [if_pos hw]
            exact .pure (by simp)
          · simp only [if_neg hw]
            exact .pure fun _ => hplaced

theorem writes_copyFile :
    Writes t (fun r d' => r = none → FilePlaced H opts entry target d d')
      (copyFile H opts entry target) d := by
  refine writes_materializeFile.seq fun r d1 h1 => ?_
  cases r with
  | some e => exact .pure (by simp)
  | none =>
      have hplaced := h1 rfl
      by_cases hperm : opts.preservePerms = true ∧ entry.mode ≠ []
      · simp only [if_pos hperm]
        cases parseOctal entry.mode with
        | none => exact .pure fun _ => hplaced
        | some perm =>
            refine .dest fun r d2 hx => .pure fun _ => ?_
            have honly := onlyTarget_chmodTarget hx
            refine ⟨honly.opened.trans hplaced.opened, fun p hp => ?_, fun hcopy => ?_⟩
            · rw [honly.other p hp, hplaced.other p hp]
            · obtain ⟨ps, old, hps, hlook⟩ := hplaced.placed hcopy
              obtain ⟨new, hnew⟩ := lookup_chmodTarget hx hlook
              exact ⟨ps, new, hps, hnew⟩
      · simp only [if_neg hperm]
        exact .pure fun _ => hplaced

theorem linkChunk_copy (h : opts.strategy = .copy) : linkChunk opts entry = none := by
  simp [linkChunk, h]

theorem writes_placeFile :
    Writes t (fun r d' => r = none → FilePlaced H opts entry target d d')
      (placeFile H opts entry target) d := by
  rw [placeFile]
  cases hlink : linkChunk opts entry with
  | none => exact writes_copyFile
  | some c =>
      have hhard : opts.strategy ≠ .copy := by
        intro hcopy
        rw [linkChunk_copy hcopy] at hlink
        contradiction
      refine (Writes.only (only_verifyCachedChunk H c.hash)).seq fun r d1 h1 => ?_
      subst h1
      cases r with
      | some e => exact .pure (by simp)
      | none =>
          refine (Writes.only (only_hasChunk rfl)).seq fun r d2 h2 => ?_
          subst h2
          cases r with
          | false => exact writes_copyFile
          | true =>
              refine writes_removeOld.seq fun _ d3 h3 => ?_
              refine .link fun r d4 x hx => ?_
              cases r with
              | none =>
                  obtain ⟨hopened, hother⟩ := execLink_effect hx
                  refine .pure fun _ => ⟨?_, fun p hp => ?_, fun hcopy => absurd hcopy hhard⟩
                  · rw [hopened, h3.opened]
                  · rw [hother p hp, h3.other p hp]
              | some m =>
                  -- a link that failed has changed nothing
                  simp only [execLink, Option.some.injEq] at hx
                  subst hx
                  refine writes_copyFile.mono fun r d' hplaced hr => ?_
                  have hp := hplaced hr
                  refine ⟨?_, fun p hne => ?_, hp.placed⟩
                  · rw [hp.opened, h3.opened]
                  · rw [hp.other p hne, h3.other p hne]

/-- What placing several files has done. -/
structure FilesPlaced (H : Sha256) (opts : Options) (destDir : Str) (entries : List FileEntry)
    (targets : List Str) (d d' : Dest) : Prop where
  joined : List.Forall₂ (fun e p => safeJoin destDir e.path = .ok p) entries targets
  opened : d'.opened = d.opened ++ targets
  kept : ∀ p, p ∉ targets → ∀ content perm, d.entries.lookup p = some (.file content perm) →
    d'.entries.lookup p = some (.file content perm)
  placed : opts.strategy = .copy → targets.Nodup →
    List.Forall₂ (fun e p => Placed H e p d') entries targets

theorem FilesPlaced.cons {entries : List FileEntry} {targets : List Str} {d1 d2 d' : Dest}
    (hjoin : safeJoin destDir entry.path = .ok target) (h1 : FilesKept d d1)
    (h2 : FilePlaced H opts entry target d1 d2)
    (h : FilesPlaced H opts destDir entries targets d2 d') :
    FilesPlaced H opts destDir (entry :: entries) (target :: targets) d d' := by
  refine ⟨.cons hjoin h.joined, ?_, fun p hp content perm hf => ?_, fun hcopy hnodup => ?_⟩
  · rw [h.opened, h2.opened, h1.opened, List.append_assoc, List.singleton_append]
  · have hne : p ≠ target := List.ne_of_not_mem_cons hp
    have hnot : p ∉ targets := List.not_mem_of_not_mem_cons hp
    apply h.kept p hnot
    rw [h2.other p hne]
    exact h1.files p content perm hf
  · -- the first file is still there because its target is written once
    obtain ⟨hnot, hnodup'⟩ := List.nodup_cons.mp hnodup
    obtain ⟨ps, perm, hps, hlook⟩ := h2.placed hcopy
    exact .cons ⟨ps, perm, hps, h.kept target hnot _ _ hlook⟩ (h.placed hcopy hnodup')

theorem writes_materializeFiles {entries : List FileEntry} :
    Writes t (fun r d' => r = none → ∃ targets, FilesPlaced H opts destDir entries targets d d')
      (materializeFiles H opts destDir entries) d := by
  induction entries generalizing d with
  | nil =>
      exact .pure fun _ => ⟨[], .nil, by simp, fun _ _ _ _ h => h, fun _ _ => .nil⟩
  | cons entry entries ih =>
      refine .elsewhere rfl fun r => ?_
      cases r with
      | some deadline => exact .pure (by simp)
      | none =>
          cases hjoin : safeJoin destDir entry.path with
          | error e => exact .pure (by simp)
          | ok target =>
              refine .dest fun r d1 hx => ?_
              have hkept := mkdirAll_effect hx
              cases r with
              | some m => exact .pure (by simp)
              | none =>
                  refine writes_placeFile.seq fun r d2 hplaced => ?_
                  cases r with
                  | some e => exact .pure (by simp)
                  | none =>
                      refine ih.mono fun r d' hrest hr => ?_
                      obtain ⟨targets, htargets⟩ := hrest hr
                      exact ⟨target :: targets, .cons hjoin hkept (hplaced rfl) htargets⟩

theorem writes_materialize {J : Marshal} {m : ArtifactManifest} :
    Writes t (fun r d' => r = none → ∃ targets, FilesPlaced H opts destDir m.files targets d d')
      (materialize H J opts m destDir) d := by
  rw [materialize]
  cases validate H J m with
  | error e => exact .pure (by simp)
  | ok u =>
      refine .dest fun r d1 hx => ?_
      have hkept := mkdirAll_effect hx
      cases r with
      | some msg => exact .pure (by simp)
      | none =>
          refine writes_materializeFiles.mono fun r d' hpost hr => ?_
          obtain ⟨targets, h⟩ := hpost hr
          refine ⟨targets, h.joined, ?_, fun p hp content perm hf => ?_, h.placed⟩
          · rw [h.opened, hkept.opened]
          · exact h.kept p hp content perm (hkept.files p content perm hf)

end Runs

/-! ## Targets -/

variable {destDir : Str}

/-- Entries of a valid manifest whose paths clean to the same path meet on disk. -/
theorem safeJoin_eq_of_clean_eq {p q target : Str} (hp : PathAccepted p) (hq : PathAccepted q)
    (hc : clean p = clean q) (hj : safeJoin destDir p = .ok target) :
    safeJoin destDir q = .ok target := by
  rw [safeJoin_of_accepted hp] at hj
  rw [safeJoin_of_accepted hq]
  by_cases hd : pathElems destDir = []
  · simp [hd] at hj
  · rw [if_neg hd] at hj ⊢
    rw [← hc]
    exact hj

/-- If the cleaned paths are pairwise distinct, so are the targets. -/
theorem nodup_targets {H : Sha256} {J : Marshal} {m : ArtifactManifest} (hm : Accepted H J m)
    (hclean : (m.files.map fun f => clean f.path).Nodup) {targets : List Str}
    (hj : List.Forall₂ (fun e p => safeJoin destDir e.path = .ok p) m.files targets) :
    targets.Nodup := by
  have hpaths : ∀ f ∈ m.files, PathAccepted f.path :=
    fun f hf => pathAccepted_of_valid (hm.files f hf).path
  generalize m.files = files at hclean hj hpaths
  induction hj with
  | nil => exact List.nodup_nil
  | @cons e p es ps hjoin hrest ih =>
      obtain ⟨hnot, hclean'⟩ := List.nodup_cons.mp hclean
      have htail : ∀ f ∈ es, PathAccepted f.path := fun f hf => hpaths f (List.mem_cons_of_mem _ hf)
      refine List.nodup_cons.mpr ⟨fun hp => hnot ?_, ih hclean' htail⟩
      obtain ⟨f, hf, hfp⟩ := exists_entry_of_mem hrest hp
      refine List.mem_map.mpr ⟨f, hf, ?_⟩
      exact clean_eq_of_safeJoin_eq (htail f hf) (hpaths e List.mem_cons_self) hfp hjoin

/-- No two entries resolve to the same target. -/
def DistinctTargets (m : ArtifactManifest) (destDir : Str) : Prop :=
  m.files.Pairwise fun e f => ∀ p q, safeJoin destDir e.path = .ok p →
    safeJoin destDir f.path = .ok q → p ≠ q

/-- A run of `Materialize` without error writes no target twice. -/
def NoOverwrite (H : Sha256) (J : Marshal) (m : ArtifactManifest) (destDir : Str) : Prop :=
  ∀ opts t s s', Runs nodeSystem t (materialize H J opts m destDir) s none s' →
    ∃ targets, s'.dest.opened = s.dest.opened ++ targets ∧ targets.Nodup

theorem noOverwrite_of_nodup {H : Sha256} {J : Marshal} {m : ArtifactManifest}
    (hnodup : ∀ targets, List.Forall₂ (fun e p => safeJoin destDir e.path = .ok p) m.files targets →
      targets.Nodup) : NoOverwrite H J m destDir := by
  intro opts t s s' hrun
  obtain ⟨targets, h⟩ := writes_materialize.of_runs hrun rfl
  exact ⟨targets, h.opened, hnodup targets h.joined⟩

/-- **Targets.**  For a manifest `Validate` accepts, the entries resolve to
distinct targets, and `Materialize` overwrites none of its own files, exactly if
the destination is `.` or `/`, where nothing resolves, or the paths are pairwise
distinct after cleaning. -/
theorem targets_distinct_iff (H : Sha256) (J : Marshal) (m : ArtifactManifest) (destDir : Str)
    (hm : validate H J m = .ok ()) :
    (DistinctTargets m destDir ∧ NoOverwrite H J m destDir) ↔
      (clean destDir = str "." ∨ clean destDir = str "/") ∨
        (m.files.map fun f => clean f.path).Nodup := by
  have hacc := validate_eq_ok_iff.mp hm
  have hpaths : ∀ f ∈ m.files, PathAccepted f.path :=
    fun f hf => pathAccepted_of_valid (hacc.files f hf).path
  rw [← pathElems_eq_nil_iff]
  constructor
  · intro ⟨hdist, _⟩
    by_cases hd : pathElems destDir = []
    · exact .inl hd
    · right
      rw [List.nodup_iff_pairwise_ne, List.pairwise_map]
      refine hdist.imp_of_mem fun {e f} he hf hne hclean => ?_
      have hj : safeJoin destDir e.path = .ok (clean destDir ++ slash :: clean e.path) := by
        rw [safeJoin_of_accepted (hpaths e he), if_neg hd]
      exact hne _ _ hj (safeJoin_eq_of_clean_eq (hpaths e he) (hpaths f hf) hclean hj) rfl
  · intro h
    cases h with
    | inl hd =>
        have hnone : ∀ f ∈ m.files, ∀ p, safeJoin destDir f.path ≠ .ok p := by
          intro f hf p hj
          simp [safeJoin_of_accepted (hpaths f hf), hd] at hj
        refine ⟨?_, noOverwrite_of_nodup fun targets hj => ?_⟩
        · exact List.pairwise_of_forall_mem_list fun e he f _ p q hp => absurd hp (hnone e he p)
        · have hnil : targets = [] := by
            refine List.eq_nil_iff_forall_not_mem.mpr fun p hp => ?_
            obtain ⟨f, hf, hfp⟩ := exists_entry_of_mem hj hp
            exact hnone f hf p hfp
          rw [hnil]
          exact List.nodup_nil
    | inr hclean =>
        refine ⟨?_, noOverwrite_of_nodup fun targets hj => nodup_targets hacc hclean hj⟩
        rw [List.nodup_iff_pairwise_ne, List.pairwise_map] at hclean
        refine hclean.imp_of_mem fun {e f} he hf hne p q hp hq hpq => hne ?_
        exact clean_eq_of_safeJoin_eq (hpaths e he) (hpaths f hf) hp (hpq ▸ hq)

/-- A manifest that lists two empty files, and the id that belongs to it. -/
def twoPathsManifest (p q : Str) : ArtifactManifest :=
  let m : ArtifactManifest := ⟨1, [], str "m", str "1", 1, 0, [⟨p, 0, [], []⟩, ⟨q, 0, [], []⟩]⟩
  { m with artifactID := computeID (.numbering []) (fun _ => []) m }

theorem targets_distinct_two :
    DistinctTargets (twoPathsManifest (str "a") (str "a/b")) (str "/d") ∧
      NoOverwrite (.numbering []) (fun _ => []) (twoPathsManifest (str "a") (str "a/b"))
        (str "/d") :=
  (targets_distinct_iff (.numbering []) (fun _ => []) (twoPathsManifest (str "a") (str "a/b"))
    (str "/d") (by decide +kernel)).mpr (.inr (by decide +kernel))

/-- The node after a materialization of two spellings of one path. -/
def twiceWritten : Node :=
  (materialize (.numbering []) (fun _ => []) defaultOptions
    (twoPathsManifest (str "a/b") (str "a//b")) (str "/d")).finalState nodeSystem 0
    (World.originOnly []).answer emptyNode

/-- `Validate` accepts two spellings of one path, and `Materialize` writes the
same target twice without an error. -/
theorem spellings_collide :
    validate (.numbering []) (fun _ => []) (twoPathsManifest (str "a/b") (str "a//b")) = .ok () ∧
    safeJoin (str "/d") (str "a/b") = .ok (str "/d/a/b") ∧
    safeJoin (str "/d") (str "a//b") = .ok (str "/d/a/b") ∧
    Runs nodeSystem 0 (materialize (.numbering []) (fun _ => []) defaultOptions
      (twoPathsManifest (str "a/b") (str "a//b")) (str "/d")) emptyNode none twiceWritten ∧
    twiceWritten.dest.opened = [str "/d/a/b", str "/d/a/b"] :=
  ⟨by decide +kernel, by decide +kernel, by decide +kernel, runs_finalState (by decide +kernel),
    by decide +kernel⟩

end Spider
