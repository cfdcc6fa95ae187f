import Spider.Materializer

/-!
# Spider.Assembly

The chunk loop of `materializeFile` on a disk that works, for any content of the
cache.

`assemble` is what the loop writes and how it ends: with all chunks, at a chunk
that is missing or too short, or at a chunk with other bytes.  Only in the last
case is the target removed.  `Copies` is what the loop needs of the disk.
-/

namespace Spider

open Conc

/-! ## What is written -/

inductive Assembled where
  | complete
  /-- A chunk is missing or too short. -/
  | broken
  /-- A chunk has another hash. -/
  | mismatch
  deriving DecidableEq

/-- The bytes the chunk loop writes. -/
def assemble (H : Sha256) (x : Store) : List ChunkRef → Bytes × Assembled
  | [] => ([], .complete)
  | c :: cs =>
      match x.chunks.lookup c.hash with
      | none => ([], .broken)
      | some content =>
          let data := content.take c.size.toInt.toNat
          if (data.length : Int) ≠ c.size.toInt then (data, .broken)
          else if computeHash H data ≠ c.hash then (data, .mismatch)
          else (data ++ (assemble H x cs).1, (assemble H x cs).2)

/-- A chunk file whose first bytes, as many as declared, hash to the chunk. -/
structure Intact (H : Sha256) (x : Store) (c : ChunkRef) (content : Bytes) : Prop where
  there : x.chunks.lookup c.hash = some content
  long : ((content.take c.size.toInt.toNat).length : Int) = c.size.toInt
  hash : computeHash H (content.take c.size.toInt.toNat) = c.hash

theorem assemble_cons_intact {H : Sha256} {x : Store} {c : ChunkRef} {cs : List ChunkRef}
    {content : Bytes} (h : Intact H x c content) :
    assemble H x (c :: cs) =
      (content.take c.size.toInt.toNat ++ (assemble H x cs).1, (assemble H x cs).2) := by
  simp only [assemble, h.there, h.long, h.hash, ne_eq, not_true_eq_false, if_false]

/-- Whether something lies below a path depends on the other paths alone. -/
theorem hasChild_congr {d d' : Dest} {p : Str}
    (h : ∀ q, q ≠ p → d'.entries.lookup q = d.entries.lookup q) : d'.hasChild p = d.hasChild p := by
  have hkeys : ∀ q, q ≠ p → (q ∈ d'.entries.keys ↔ q ∈ d.entries.keys) := by
    intro q hne
    rw [← AList.mem_keys, ← AList.mem_keys, ← AList.lookup_isSome, ← AList.lookup_isSome, h q hne]
  rw [Bool.eq_iff_iff]
  simp only [Dest.hasChild, List.any_eq_true, Bool.and_eq_true, decide_eq_true_eq]
  exact exists_congr fun q => ⟨fun ⟨hq, hne, hdir⟩ => ⟨(hkeys q hne).mp hq, hne, hdir⟩,
    fun ⟨hq, hne, hdir⟩ => ⟨(hkeys q hne).mpr hq, hne, hdir⟩⟩

/-! ## The loop -/

/-- The answer of a command on the destination that has been carried out. -/
def DestCmd.succeeds : (c : DestCmd) → c.Resp → Bool
  | .mkdirAll _, r | .openTarget _, r | .chmodTarget _ _, r => r.isNone
  | .writeTarget _ _, r => r.isNone
  | .removeTarget _, .failed _ => false
  | .removeTarget _, _ => true

/-- Nodes on which nothing fails that can be done: the store answers as it is, and a
command on the destination that can be carried out is. -/
structure Copies (M : System nodeSig Node Tid) (t : Tid) : Prop where
  ask : ∀ {α : Type} {Q : α → Node → Prop} {s : Node} {c : StoreCmd} {k : c.Resp → NodeM α},
    c ≠ .listChunks → s.job.panicked = false →
    execStore t c (answerStore s.store c) s.store = some s.store →
    Returns M t Q (k (answerStore s.store c)) s → Returns M t Q (onStore c >>= k) s
  dest : ∀ {α : Type} {Q : α → Node → Prop} {s : Node} {c : DestCmd} {k : c.Resp → NodeM α}
    {r : c.Resp} {d' : Dest}, s.job.panicked = false → c.succeeds r = true →
    execDest c r s.dest = some d' → Returns M t Q (k r) { s with dest := d' } →
    Returns M t Q (onDest c >>= k) s
  ctxErr : ∀ {α : Type} {Q : α → Node → Prop} {s : Node} {k : Option Bool → NodeM α},
    s.job.panicked = false → Returns M t Q (k none) s → Returns M t Q (onJob .ctxErr >>= k) s

/-- There is one way to carry out a command. -/
theorem DestCmd.succeeds_unique {c : DestCmd} {r r' : c.Resp} {d x x' : Dest}
    (hr : c.succeeds r = true) (hr' : c.succeeds r' = true) (hx : execDest c r d = some x)
    (hx' : execDest c r' d = some x') : r = r' := by
  cases c with
  | removeTarget p =>
      cases r with
      | failed msg => contradiction
      | removed =>
          cases r' with
          | failed msg => contradiction
          | removed => rfl
          | absent =>
              simp only [execDest, Option.ite_none_right_eq_some] at hx hx'
              simp [hx'.1] at hx
      | absent =>
          cases r' with
          | failed msg => contradiction
          | removed =>
              simp only [execDest, Option.ite_none_right_eq_some] at hx hx'
              simp [hx.1] at hx'
          | absent => rfl
  | _ =>
      rw [Option.isNone_iff_eq_none.mp hr, Option.isNone_iff_eq_none.mp hr']

/-- The target and the result after the loop; `old` was there before. -/
def CopyEnds (target : Str) (old : Bytes) (perm : Nat) (total : Int64) (r : Except Err Int64)
    (d : Dest) : Bytes × Assembled → Prop
  | (bytes, .complete) =>
      r = .ok total ∧ d.entries.lookup target = some (.file (old ++ bytes) perm)
  | (bytes, .broken) =>
      (∃ e, r = .error e) ∧ d.entries.lookup target = some (.file (old ++ bytes) perm)
  | (_, .mismatch) => (∃ e, r = .error e) ∧ d.entries.lookup target = none

section Loop

variable {M : System nodeSig Node Tid} {t : Tid} {H : Sha256} {s : Node} {target path h : Str}
variable {old content : Bytes} {perm : Nat}

theorem Copies.getChunkReader (hM : Copies M t) (hp : s.job.panicked = false)
    (hh : ∃ x, parseHash h = some x) :
    Returns M t (fun r s' => s' = s ∧
        match s.store.chunks.lookup h with
        | some b => r = .ok b
        | none => ∃ e, r = .error e)
      (getChunkReader h) s := by
  obtain ⟨x, hx⟩ := hh
  simp only [Spider.getChunkReader, hx]
  cases hlook : s.store.chunks.lookup h with
  | none =>
      refine hM.ask (by simp) hp (by simp [answerStore, execStore, hlook]) ?_
      simp only [answerStore, hlook]
      exact ⟨rfl, _, rfl⟩
  | some b =>
      refine hM.ask (by simp) hp (by simp [answerStore, execStore, hlook]) ?_
      simp only [answerStore, hlook]
      exact ⟨rfl, rfl⟩

theorem Copies.copyToTarget {blocks : List Bytes} (hM : Copies M t) (hp : s.job.panicked = false)
    (hf : s.dest.entries.lookup target = some (.file old perm)) :
    Returns M t
      (fun r s' => r = none ∧ ∃ d', s' = { s with dest := d' } ∧ OnlyTarget target s.dest d' ∧
        d'.entries.lookup target = some (.file (old ++ blocks.flatten) perm))
      (copyToTarget h target blocks) s := by
  induction blocks generalizing old s with
  | nil => exact ⟨rfl, s.dest, rfl, .refl, by simpa using hf⟩
  | cons b bs ih =>
      refine hM.ask (by simp) hp rfl (hM.dest (r := none) hp rfl rfl ?_)
      have hnext := ih (s := { s with dest := s.dest.append target b }) hp (lookup_append hf)
      refine hnext.mono fun r s' hpost => ?_
      obtain ⟨hr, d', hs', honly, hlook⟩ := hpost
      refine ⟨hr, d', hs', onlyTarget_append.trans honly, ?_⟩
      rw [hlook, List.flatten_cons, List.append_assoc]

theorem Copies.copyChunks {i : Nat} {written : Int64} {refs : List ChunkRef} (hM : Copies M t)
    (hp : s.job.panicked = false) (hhash : ∀ c ∈ refs, ∃ x, parseHash c.hash = some x)
    (hf : s.dest.entries.lookup target = some (.file old perm))
    (hchild : (assemble H s.store refs).2 = .mismatch → s.dest.hasChild target = false) :
    Returns M t
      (fun r s' => ∃ d', s' = { s with dest := d' } ∧ OnlyTarget target s.dest d' ∧
        CopyEnds target old perm (wrapSum written (refs.map ChunkRef.size)) r d'
          (assemble H s.store refs))
      (copyChunks H path target i written refs) s := by
  induction refs generalizing i written old s with
  | nil => exact ⟨s.dest, rfl, .refl, rfl, by simpa using hf⟩
  | cons c refs ih =>
      refine (hM.getChunkReader hp (hhash c (by simp))).seq fun r s1 hr => ?_
      obtain ⟨rfl, hr⟩ := hr
      cases hlook : s1.store.chunks.lookup c.hash with
      | none =>
          rw [hlook] at hr
          obtain ⟨e, rfl⟩ := hr
          simp only [assemble, hlook]
          exact ⟨s1.dest, rfl, .refl, ⟨_, rfl⟩, by simpa using hf⟩
      | some b =>
          rw [hlook] at hr
          subst hr
          refine (hM.copyToTarget hp hf).seq fun r s2 hr => ?_
          obtain ⟨rfl, d2, rfl, honly, hfile⟩ := hr
          have hkeys : d2.hasChild target = s1.dest.hasChild target := hasChild_congr honly.other
          rw [blockReads, flatten_blockReads_go (Nat.le_refl _)] at hfile
          by_cases hlen : ((b.take c.size.toInt.toNat).length : Int) = c.size.toInt
          · by_cases hsum : computeHash H (b.take c.size.toInt.toNat) = c.hash
            · -- the chunk is what it should be, and the rest follows it
              have hintact : Intact H s1.store c b := ⟨hlook, hlen, hsum⟩
              have hstep := @assemble_cons_intact H s1.store c refs b hintact
              have hadd : written + Int64.ofInt (b.take c.size.toInt.toNat).length =
                  written + c.size := by rw [hlen, Int64.ofInt_toInt]
              rw [if_neg (not_not_intro hlen), if_neg (not_not_intro hsum), hadd]
              rw [hstep] at hchild ⊢
              refine (ih (s := { s1 with dest := d2 }) hp (fun d hd => hhash d (by simp [hd])) hfile
                fun hbad => hkeys.trans (hchild hbad)).mono fun r s3 hr => ?_
              obtain ⟨d3, hs3, honly3, hends⟩ := hr
              refine ⟨d3, hs3, honly.trans honly3, ?_⟩
              generalize assemble H s1.store refs = rest at hends ⊢
              obtain ⟨bytes, how⟩ := rest
              cases how with
              | complete | broken => exact ⟨hends.1, by rw [hends.2, List.append_assoc]⟩
              | mismatch => exact hends
            · have hstep : assemble H s1.store (c :: refs) =
                  (b.take c.size.toInt.toNat, .mismatch) := by
                simp only [assemble, hlook, hlen, ne_eq, not_true_eq_false, if_false, hsum,
                  not_false_eq_true, if_true]
              rw [if_neg (not_not_intro hlen), if_pos hsum]
              rw [hstep] at hchild ⊢
              have hremove : execDest (.removeTarget target) .removed d2 =
                  some { d2 with entries := d2.entries.erase target } := by
                simp [execDest, hfile, hkeys.trans (hchild rfl)]
              refine hM.dest (s := { s1 with dest := d2 }) hp rfl hremove ?_
              refine ⟨_, rfl, ⟨fun p hne => ?_, honly.opened⟩, ⟨_, rfl⟩, AList.lookup_erase ..⟩
              exact (AList.lookup_erase_ne hne).trans (honly.other p hne)
          · have hstep : assemble H s1.store (c :: refs) = (b.take c.size.toInt.toNat, .broken) := by
              simp only [assemble, hlook, ne_eq, hlen, not_false_eq_true, if_true]
            rw [if_pos hlen, hstep]
            exact ⟨d2, rfl, honly, ⟨_, rfl⟩, hfile⟩

end Loop

end Spider
