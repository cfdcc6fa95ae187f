import Spider.Engine.Rescue
import Spider.Placement
import Spider.Verified

/-!
# Spider.Leftovers

What is at the target when `materializeFile` returns an error.

The disk works: a command on the destination fails only if it cannot be carried
out, and chunk files that are there can be read.  The cache may hold anything.
`materializeFile` removes the target at a chunk with the wrong hash, but leaves
what it has written when a chunk is missing or too short.
-/

namespace Spider

open Conc

/-! ## A disk that works -/

/-- A command on the destination fails only if it cannot be carried out. -/
def destOk : (c : DestCmd) → c.Resp → Dest → Bool
  | .mkdirAll p, some _, d => (execDest (.mkdirAll p) none d).isNone
  | .openTarget p, some _, d => (execDest (.openTarget p) none d).isNone
  | .chmodTarget p perm, some _, d => (execDest (.chmodTarget p perm) none d).isNone
  | .removeTarget p, .failed _, d => (d.entries.lookup p).isSome && d.hasChild p
  | .writeTarget _ _, some _, _ => false
  | _, _, _ => true

/-- The answers of a working disk in a context that stays open.  Hard links to
chunk files can be made only if the destination is on their file system. -/
def soundDisk (links : Bool) : (c : Cmd) → c.Resp → Node → Bool
  | .store c, r, _ => diskOk c r
  | .dest c, r, s => destOk c r s.dest
  | .job .ctxErr, r, _ => r.isNone
  | .link _ _, none, _ => links
  | .link h p, some _, s => !links || (execLink s.store h p none s.dest).isNone
  | _, _, _ => true

abbrev soundDiskSystem (links : Bool) : System nodeSig Node Tid := nodeSystem.meeting (soundDisk links)

theorem exists_destOk (c : DestCmd) (d : Dest) :
    ∃ r d', destOk c r d = true ∧ execDest c r d = some d' := by
  cases c with
  | mkdirAll p =>
      cases hx : execDest (.mkdirAll p) none d with
      | none => exact ⟨some [], d, by simp [destOk, hx], rfl⟩
      | some d' => exact ⟨none, d', rfl, hx⟩
  | openTarget p =>
      cases hx : execDest (.openTarget p) none d with
      | none => exact ⟨some [], d, by simp [destOk, hx], rfl⟩
      | some d' => exact ⟨none, d', rfl, hx⟩
  | chmodTarget p perm =>
      cases hx : execDest (.chmodTarget p perm) none d with
      | none => exact ⟨some [], d, by simp [destOk, hx], rfl⟩
      | some d' => exact ⟨none, d', rfl, hx⟩
  | writeTarget p data => exact ⟨none, _, rfl, rfl⟩
  | removeTarget p =>
      cases hlook : d.entries.lookup p with
      | none => exact ⟨.absent, d, rfl, by simp [execDest, hlook]⟩
      | some e =>
          cases hchild : d.hasChild p with
          | true => exact ⟨.failed [], d, by simp [destOk, hlook, hchild], rfl⟩
          | false => exact ⟨.removed, _, rfl, by simp [execDest, hlook, hchild]; rfl⟩

section Rules

variable {links : Bool} {t : Tid} {s : Node} {α : Type} {Q : α → Node → Prop}

theorem returns_onDest {c : DestCmd} {k : c.Resp → NodeM α} (hp : s.job.panicked = false)
    (hk : ∀ r d', destOk c r s.dest = true → execDest c r s.dest = some d' →
      Returns (soundDiskSystem links) t Q (k r) { s with dest := d' }) :
    Returns (soundDiskSystem links) t Q (onDest c >>= k) s := by
  obtain ⟨r0, d0, hok, hx⟩ := exists_destOk c s.dest
  have hgo : nodeSystem.exec t (.dest c) r0 s = some { s with dest := d0 } := by
    simp [nodeSystem, nodeExec, hp, hx]
  have hsound : soundDisk links (.dest c) r0 s = true := hok
  refine Returns.meeting_perform hsound hgo fun r s' hr hexec => ?_
  obtain ⟨x, hdest, rfl⟩ := nodeExec_dest hexec
  exact hk r x hr hdest

/-- A question to the store has one answer. -/
theorem returns_askStore {c : StoreCmd} {k : c.Resp → NodeM α} (hc : c ≠ .listChunks)
    (hp : s.job.panicked = false)
    (hx : execStore t c (answerStore s.store c) s.store = some s.store)
    (hk : Returns (soundDiskSystem links) t Q (k (answerStore s.store c)) s) :
    Returns (soundDiskSystem links) t Q (onStore c >>= k) s := by
  have hgo : nodeSystem.exec t (.store c) (answerStore s.store c) s = some s := by
    simp [nodeSystem, nodeExec, hp, hx]
  have hsound : soundDisk links (.store c) (answerStore s.store c) s = true :=
    diskOk_answerStore s.store c
  refine Returns.meeting_perform hsound hgo ?_
  intro r s' hok hexec
  obtain ⟨y, hy, rfl⟩ := nodeExec_store hexec
  have hr : r = answerStore s.store c := eq_answerStore hc hok hy
  subst hr
  rw [hx, Option.some.injEq] at hy
  rw [← hy]
  exact hk

/-- A command that can be carried out is. -/
theorem succeeds_of_destOk {c : DestCmd} {r r' : c.Resp} {d d' : Dest} (hr : c.succeeds r = true)
    (hx : execDest c r d = some d') (hok : destOk c r' d = true) : c.succeeds r' = true := by
  cases c with
  | removeTarget p =>
      cases r' with
      | removed => rfl
      | absent => rfl
      | failed msg =>
          simp only [destOk, Bool.and_eq_true] at hok
          cases r with
          | removed => simp [execDest, hok.2] at hx
          | absent =>
              simp only [execDest, Option.ite_none_right_eq_some] at hx
              simp [hx.1] at hok
          | failed msg => contradiction
  | _ =>
      cases r' with
      | none => rfl
      | some msg =>
          rw [Option.isNone_iff_eq_none.mp hr] at hx
          simp_all [destOk]

theorem copies_soundDisk : Copies (soundDiskSystem links) t where
  ask := returns_askStore
  dest hp hr hx hk := by
    refine returns_onDest hp fun r' d' hok hd' => ?_
    have hsame := DestCmd.succeeds_unique (succeeds_of_destOk hr hx hok) hr hd' hx
    subst hsame
    rw [hx, Option.some.injEq] at hd'
    rw [← hd']
    exact hk
  ctxErr {_ _ s _} hp hk := by
    have hgo : nodeSystem.exec t (.job .ctxErr) none s = some s := by
      simp [nodeSystem, nodeExec, hp, execJob]
    have hok : soundDisk links (.job .ctxErr) none s = true := rfl
    refine Returns.meeting_perform hok hgo fun r s' hr hexec => ?_
    obtain ⟨x, hjob, rfl⟩ := nodeExec_job hexec
    have hnone : r = none := Option.isNone_iff_eq_none.mp hr
    simp only [execJob, Option.some.injEq] at hjob
    rw [hnone, ← hjob]
    exact hk

end Rules

/-! ## Opening the target -/

/-- The destination after the old target has been removed, if that is asked for
and can be done. -/
def Dest.cleared (d : Dest) (opts : Options) (target : Str) : Dest :=
  if opts.overwrite && (d.entries.lookup target).isSome && !d.hasChild target then
    { d with entries := d.entries.erase target }
  else d

/-- Whether a file can be opened for writing there. -/
def Dest.opens (d : Dest) (target : Str) : Bool := (execDest (.openTarget target) none d).isSome

/-- The permissions of an opened file: an old one keeps its own. -/
def Dest.permAt (d : Dest) (target : Str) : Nat :=
  match d.entries.lookup target with
  | some (.file _ perm) => perm
  | _ => 0o644

section Open

variable {links : Bool} {t : Tid} {s : Node} {opts : Options} {target : Str} {d d' : Dest}

theorem cleared_other {p : Str} (hne : p ≠ target) :
    (d.cleared opts target).entries.lookup p = d.entries.lookup p := by
  unfold Dest.cleared
  split
  · exact AList.lookup_erase_ne hne
  · rfl

theorem returns_soundDisk_removeOld (hp : s.job.panicked = false) :
    Returns (soundDiskSystem links) t (fun _ s' => s' = { s with dest := s.dest.cleared opts target })
      (removeOld opts target) s := by
  unfold removeOld
  cases hover : opts.overwrite with
  | false =>
      have hkept : s.dest.cleared opts target = s.dest := by simp [Dest.cleared, hover]
      rw [hkept]
      rfl
  | true =>
      refine returns_onDest hp fun r d' hok hx => ?_
      have hclear : d' = s.dest.cleared opts target := by
        cases r with
        | removed =>
            simp only [execDest, Option.ite_none_right_eq_some, Option.some.injEq] at hx
            rw [Dest.cleared, hover, Bool.true_and, if_pos hx.1, ← hx.2]
        | absent =>
            simp only [execDest, Option.ite_none_right_eq_some, Option.some.injEq] at hx
            rw [← hx.2]
            simp [Dest.cleared, hx.1]
        | failed msg =>
            simp only [execDest, Option.some.injEq] at hx
            simp only [destOk, Bool.and_eq_true] at hok
            rw [← hx]
            simp [Dest.cleared, hok.2]
      rw [hclear]
      rfl

/-- An opened file is empty. -/
theorem lookup_openTarget (h : execDest (.openTarget target) none d = some d') :
    d'.entries.lookup target = some (.file [] (d.permAt target)) ∧
      ∀ p, p ≠ target → d'.entries.lookup p = d.entries.lookup p := by
  simp only [execDest] at h
  split at h
  · contradiction
  · next content perm hfile =>
      rw [← Option.some.inj h]
      have hperm : d.permAt target = perm := by simp [Dest.permAt, hfile]
      rw [hperm]
      exact ⟨AList.lookup_insert .., fun _ hp => AList.lookup_insert_ne hp⟩
  · next hnone =>
      obtain ⟨-, ⟨⟩⟩ := Option.ite_none_right_eq_some.mp h
      have hperm : d.permAt target = 0o644 := by simp [Dest.permAt, hnone]
      rw [hperm]
      exact ⟨AList.lookup_insert .., fun _ hp => AList.lookup_insert_ne hp⟩

/-- Where no file can be opened there is none. -/
theorem no_file_of_closed (h : d.opens target = false) {content : Bytes} :
    ¬ d.FileAt target content := by
  rintro ⟨perm, hfile⟩
  simp [Dest.opens, execDest, hfile] at h

/-- What can be opened has nothing below it. -/
theorem no_child_of_opens (htree : d.hasChild target = true → d.entries.lookup target = some .dir)
    (h : (d.cleared opts target).opens target = true) :
    (d.cleared opts target).hasChild target = false := by
  rw [hasChild_congr fun q hne => cleared_other hne]
  cases hchild : d.hasChild target with
  | false => rfl
  | true =>
      have hkept : d.cleared opts target = d := by simp [Dest.cleared, hchild]
      rw [hkept] at h
      simp [Dest.opens, execDest, htree hchild] at h

end Open

/-! ## The file -/

/-- The result and the target after `materializeFile`. -/
def FileEnds (target : Str) (perm : Nat) (r : Option Err) (d : Dest) : Bytes × Assembled → Prop
  | (bytes, .complete) => r = none ∧ d.entries.lookup target = some (.file bytes perm)
  | (bytes, .broken) =>
      (∃ e, r = some e) ∧ d.entries.lookup target = some (.file bytes perm)
  | (_, .mismatch) => (∃ e, r = some e) ∧ d.entries.lookup target = none

section File

variable {links : Bool} {t : Tid} {H : Sha256} {s : Node} {opts : Options} {target : Str}
variable {entry : FileEntry}

theorem returns_soundDisk_materializeFile (hp : s.job.panicked = false) (hf : FileAccepted entry)
    (htree : (assemble H s.store entry.chunks).2 = .mismatch → s.dest.hasChild target = true →
      s.dest.entries.lookup target = some .dir) :
    Returns (soundDiskSystem links) t
      (fun r s' => ∃ d', s' = { s with dest := d' } ∧
        (∀ p, p ≠ target → d'.entries.lookup p = s.dest.entries.lookup p) ∧
        if (s.dest.cleared opts target).opens target = true then
          FileEnds target ((s.dest.cleared opts target).permAt target) r d'
            (assemble H s.store entry.chunks)
        else (∃ e, r = some e) ∧ d' = s.dest.cleared opts target)
      (materializeFile H opts entry target) s := by
  refine (returns_soundDisk_removeOld hp).seq fun _ s1 hs1 => ?_
  subst hs1
  refine returns_onDest hp fun r d1 hok hx => ?_
  cases r with
  | some msg =>
      have hclosed : ¬ (s.dest.cleared opts target).opens target = true := by
        simp only [destOk, Option.isNone_iff_eq_none] at hok
        simp [Dest.opens, hok]
      simp only [execDest, Option.some.injEq] at hx
      subst hx
      simp only [if_neg hclosed]
      exact ⟨_, rfl, fun p hne => cleared_other hne, ⟨_, rfl⟩, rfl⟩
  | none =>
      have hopen : (s.dest.cleared opts target).opens target = true := by
        simp only [Dest.opens, hx, Option.isSome_some]
      obtain ⟨hfile, hother⟩ := lookup_openTarget hx
      have hchild : (assemble H s.store entry.chunks).2 = .mismatch → d1.hasChild target = false :=
        fun hbad => (hasChild_congr hother).trans (no_child_of_opens (htree hbad) hopen)
      simp only [if_pos hopen]
      refine Returns.seq (copies_soundDisk.copyChunks (s := { s with dest := d1 }) hp
        (fun c hc => parseHash_of_validHashName (hf.hashes c hc)) hfile hchild) ?_
      intro r s2 hr
      obtain ⟨d2, rfl, honly, hends⟩ := hr
      rw [hf.total] at hends
      have hsame : ∀ p, p ≠ target → d2.entries.lookup p = s.dest.entries.lookup p :=
        fun p hne => (honly.other p hne).trans ((hother p hne).trans (cleared_other hne))
      generalize assemble H s.store entry.chunks = out at hends ⊢
      obtain ⟨bytes, how⟩ := out
      cases how with
      | complete =>
          obtain ⟨rfl, hlook⟩ := hends
          simp only [ne_eq, not_true_eq_false, if_false]
          exact ⟨d2, rfl, hsame, rfl, hlook⟩
      | broken | mismatch =>
          obtain ⟨⟨e, rfl⟩, hlook⟩ := hends
          exact ⟨d2, rfl, hsame, ⟨e, rfl⟩, hlook⟩

end File

/-! ## Incomplete files -/

/-- The chunk file is missing or shorter than declared. -/
def Lacking (x : Store) (c : ChunkRef) : Prop :=
  ∀ content, x.chunks.lookup c.hash = some content → (content.length : Int) < c.size.toInt

/-- A chunk of no bytes. -/
def EmptyChunk (H : Sha256) (c : ChunkRef) : Prop := c.size = 0 ∧ c.hash = computeHash H []

/-- The first chunk that is not intact is there in full length, or it and all
chunks after it are empty. -/
def FailsClean (H : Sha256) (x : Store) : List ChunkRef → Prop
  | [] => True
  | c :: cs =>
      (Lacking x c → ∀ d ∈ c :: cs, EmptyChunk H d) ∧
        ((∃ content, Intact H x c content) → FailsClean H x cs)

section Clean

variable {H : Sha256} {x : Store} {c : ChunkRef} {cs : List ChunkRef}

theorem pieces_nil_iff (hsizes : ∀ c ∈ cs, 0 ≤ c.size) :
    (∃ ps, Pieces H cs ps ∧ ps.flatten = []) ↔ ∀ d ∈ cs, EmptyChunk H d := by
  induction cs with
  | nil => simp [Pieces]
  | cons c cs ih =>
      have hrest := ih fun d hd => hsizes d (by simp [hd])
      rw [List.forall_mem_cons, ← hrest]
      constructor
      · rintro ⟨ps, hps, hflat⟩
        cases hps with
        | @cons _ p _ ps hp hps =>
            rw [List.flatten_cons, List.append_eq_nil_iff] at hflat
            obtain ⟨rfl, hflat⟩ := hflat
            have hsize : c.size = 0 := by
              rw [← Int64.toInt_inj]
              exact hp.2.symm
            exact ⟨⟨hsize, hp.1.symm⟩, ps, hps, hflat⟩
      · rintro ⟨hc, ps, hps, hflat⟩
        have hzero : (([] : Bytes).length : Int) = c.size.toInt := by
          rw [hc.1]
          rfl
        exact ⟨[] :: ps, .cons ⟨hc.2.symm, hzero⟩ hps, by simpa using hflat⟩

theorem consists_cons_intact {content bytes : Bytes} (h : Intact H x c content) :
    (∃ ps, Pieces H (c :: cs) ps ∧ ps.flatten = content.take c.size.toInt.toNat ++ bytes) ↔
      ∃ ps, Pieces H cs ps ∧ ps.flatten = bytes := by
  constructor
  · rintro ⟨ps, hps, hflat⟩
    cases hps with
    | @cons _ p _ ps hp hps =>
        -- the first piece has the declared length, so the two sides are cut alike
        have hlen : p.length = (content.take c.size.toInt.toNat).length :=
          Int.ofNat_inj.mp (hp.2.trans h.long.symm)
        exact ⟨ps, hps, (List.append_inj hflat hlen).2⟩
  · rintro ⟨ps, hps, hflat⟩
    exact ⟨_ :: ps, .cons ⟨h.hash, h.long⟩ hps, by rw [List.flatten_cons, hflat]⟩

/-- What the loop has written when it stops at a missing or short chunk is all of
the file exactly if nothing was left to write. -/
theorem failsClean_iff (hsizes : ∀ c ∈ cs, 0 ≤ c.size) :
    (∀ bytes, assemble H x cs = (bytes, .broken) → ∃ ps, Pieces H cs ps ∧ ps.flatten = bytes) ↔
      FailsClean H x cs := by
  induction cs with
  | nil => simp [assemble, FailsClean]
  | cons c cs ih =>
      have hpos : 0 ≤ c.size.toInt := Int64.le_iff_toInt_le.mp (hsizes c (by simp))
      have hrest := ih fun d hd => hsizes d (by simp [hd])
      rw [FailsClean]
      cases hlook : x.chunks.lookup c.hash with
      | none =>
          have hlack : Lacking x c := by
            intro content hthere
            rw [hlook] at hthere
            contradiction
          have hnot : ¬ ∃ content, Intact H x c content := by
            rintro ⟨content, hc⟩
            simp [hc.there] at hlook
          have hstep : assemble H x (c :: cs) = ([], .broken) := by simp [assemble, hlook]
          rw [hstep, ← pieces_nil_iff hsizes]
          simp [hlack, hnot]
      | some content =>
          by_cases hlen : ((content.take c.size.toInt.toNat).length : Int) = c.size.toInt
          · have hfull : ¬ Lacking x c := by
              intro hlack
              have hshort := hlack content hlook
              rw [List.length_take] at hlen
              omega
            by_cases hsum : computeHash H (content.take c.size.toInt.toNat) = c.hash
            · have hintact : Intact H x c content := ⟨hlook, hlen, hsum⟩
              have hsome : ∃ content, Intact H x c content := ⟨content, hintact⟩
              rw [assemble_cons_intact hintact, ← hrest]
              simp only [hfull, false_imp_iff, true_and, hsome, true_imp_iff, Prod.mk.injEq]
              constructor
              · intro hall bytes hbytes
                have hcut := hall (content.take c.size.toInt.toNat ++ bytes) (by simp [hbytes])
                exact (consists_cons_intact hintact).mp hcut
              · rintro hall bytes ⟨rfl, hhow⟩
                exact (consists_cons_intact hintact).mpr (hall _ (Prod.ext rfl hhow))
            · have hnot : ¬ ∃ content, Intact H x c content := by
                rintro ⟨other, hc⟩
                have hsame : content = other := Option.some.inj (hlook.symm.trans hc.there)
                exact hsum (hsame ▸ hc.hash)
              have hstep : assemble H x (c :: cs) =
                  (content.take c.size.toInt.toNat, .mismatch) := by
                simp only [assemble, hlook, hlen, hsum, ne_eq, not_true_eq_false, if_false,
                  not_false_eq_true, if_true]
              simp [hstep, hfull, hnot]
          · -- a short chunk: the file is not complete, and its chunk is not empty
            have hshort : (content.length : Int) < c.size.toInt := by
              rw [List.length_take] at hlen
              omega
            have hlack : Lacking x c := by
              intro other hthere
              rwa [Option.some.inj (hthere.symm.trans hlook)]
            have hstep : assemble H x (c :: cs) = (content.take c.size.toInt.toNat, .broken) := by
              simp only [assemble, hlook, hlen, ne_eq, not_false_eq_true, if_true]
            constructor
            · intro hall
              obtain ⟨ps, hps, hflat⟩ := hall _ hstep
              cases hps with
              | @cons _ p _ ps hp hps =>
                  have hle := congrArg List.length hflat
                  rw [List.flatten_cons, List.length_append, List.length_take] at hle
                  omega
            · intro hclean
              have hempty := (hclean.1 hlack c (by simp)).1
              rw [hempty, Int64.toInt_zero] at hshort
              omega

end Clean

/-- A digest that tells the content `[1]` from all others. -/
abbrev oneDigest : Sha256 := Sha256.numbering [[1]]

/-- A file of two bytes, 1 and 2, in two chunks. -/
def oneThenTwo : FileEntry :=
  ⟨str "f", 2, [], [⟨computeHash oneDigest [1], 0, 1⟩, ⟨computeHash oneDigest [2], 1, 1⟩]⟩

theorem oneThenTwo_accepted : FileAccepted oneThenTwo :=
  ⟨by decide, by decide +kernel, by decide, ⟨rfl, rfl, trivial⟩, by decide⟩

/-- A node with these chunk files. -/
def nodeWithChunks (chunks : AList fun _ : Str => Bytes) : Node :=
  { emptyNode with store := { emptyNode.store with chunks := chunks } }

/-- The second chunk has the bytes of the first one. -/
def wrongSecond : Node :=
  nodeWithChunks ((AList.singleton (computeHash oneDigest [2]) [1]).insert
    (computeHash oneDigest [1]) [1])

end Spider
