import Spider.Cache.Quota
import Spider.Engine.Transfer
import Spider.Node.Answers
import Spider.Node.Rules

/-!
# Spider.Cache.Integrity

The content-address invariant of the chunk store, for any number of threads
that put, download and delete chunks in any interleaving.

The discipline is `storeProtocol`: a thread touches the partial of a hash only
while it holds the hash's lock, and moves a partial into the store only after
it has read and hashed exactly these bytes.  While it holds the lock it knows
what the partial contains (`Holding`), whatever the other threads do.
-/

namespace Spider

open Conc

/-- Whether an error says that a commit found other bytes than the hash names. -/
def Err.isMismatch : Err → Bool
  | .hashMismatch _ _ => true
  | .integrity _ e => e.isMismatch
  | .commitFailed _ e => e.isMismatch
  | _ => false

/-- Every committed chunk has the content its hash names. -/
def ContentAddressed (H : Sha256) (s : Store) : Prop :=
  ∀ h c, s.chunks.lookup h = some c → computeHash H c = h

/-- What a thread must have made sure of before a store command. -/
def storeAbout (H : Sha256) (t : Tid) (s : Store) : StoreCmd → Prop
  | .unlockHash h res => s.locks h = some t ∧
      ∀ e, res = some e → s.inserted t = false ∧
        (e.isMismatch = true → (parseHash h).isSome = true →
          s.removeFailed t = true ∨ s.partials h = none)
  | .removePartial h => s.locks h = some t
  | .openPartial h => s.locks h = some t
  | .writePartial h _ => s.locks h = some t
  | .renamePartial h => s.locks h = some t ∧ ∃ b, s.partials h = some b ∧ computeHash H b = h
  | _ => True

/-- What the other threads leave a thread. -/
structure StoreRely (t : Tid) (s s' : Store) : Prop where
  held : ∀ h, s.locks h = some t → s'.locks h = some t ∧ s'.partials h = s.partials h
  inserted : s'.inserted t = s.inserted t
  removeFailed : s'.removeFailed t = s.removeFailed t

theorem StoreRely.refl (t : Tid) (s : Store) : StoreRely t s s :=
  ⟨fun _ h => ⟨h, rfl⟩, rfl, rfl⟩

theorem StoreRely.trans {t : Tid} {s1 s2 s3 : Store} (h1 : StoreRely t s1 s2)
    (h2 : StoreRely t s2 s3) : StoreRely t s1 s3 := by
  refine ⟨fun h hl => ?_, h2.inserted.trans h1.inserted, h2.removeFailed.trans h1.removeFailed⟩
  obtain ⟨hl2, hp2⟩ := h1.held h hl
  obtain ⟨hl3, hp3⟩ := h2.held h hl2
  exact ⟨hl3, hp3.trans hp2⟩

/-! ## What a step of the store can do -/

/-- The hash whose lock or partial a command may change. -/
def StoreCmd.hash? : StoreCmd → Option Str
  | .lockHash h | .unlockHash h _ | .removePartial h | .openPartial h | .writePartial h _
  | .renamePartial h => some h
  | _ => none

/-- The committed chunks after a command: as before, or with a renamed partial,
or without a deleted chunk. -/
def ChunksAfter (t : Tid) (c : StoreCmd) (s s' : Store) : Prop :=
  s'.chunks = s.chunks ∨
  (∃ h b, c = .renamePartial h ∧ s.partials h = some b ∧ s'.chunks = s.chunks.insert h b ∧
    s'.inserted t = true) ∨
  ∃ h, c = .deleteChunk h ∧ s'.chunks = s.chunks.erase h

/-- Everything a step of the store can do. -/
structure StoreEffect (t : Tid) (c : StoreCmd) (s s' : Store) : Prop where
  other : ∀ h, c.hash? ≠ some h → s'.partials h = s.partials h ∧ s'.locks h = s.locks h
  ghost : ∀ t', t' ≠ t → s'.inserted t' = s.inserted t' ∧ s'.removeFailed t' = s.removeFailed t'
  lockFree : ∀ h, c = .lockHash h → s.locks h = none
  chunks : ChunksAfter t c s s'

section Steps

variable {H : Sha256} {t t' : Tid} {s s' : Store} {c : StoreCmd} {r : c.Resp}

theorem StoreEffect.refl (hc : c.asks = true) : StoreEffect t c s s := by
  refine ⟨fun h _ => ⟨rfl, rfl⟩, fun _ _ => ⟨rfl, rfl⟩, fun h he => ?_, .inl rfl⟩
  rw [he] at hc
  contradiction

/-- Changing the partial of one hash. -/
theorem StoreEffect.setPartial {h : Str} {p : Option Bytes} (hc : c.hash? = some h)
    (hl : ∀ h, c ≠ .lockHash h) : StoreEffect t c s (s.setPartial h p) := by
  refine ⟨fun h' hne => ⟨?_, rfl⟩, fun _ _ => ⟨rfl, rfl⟩, fun h' he => absurd he (hl h'), .inl rfl⟩
  have hh : h' ≠ h := by
    intro he
    rw [hc, he] at hne
    exact hne rfl
  exact Function.update_of_ne hh _ _

theorem StoreEffect.appendTo {h : Str} {b : Bytes} (hc : c.hash? = some h)
    (hl : ∀ h, c ≠ .lockHash h) : StoreEffect t c s (s.appendTo h b) := by
  unfold Store.appendTo
  split
  · exact .setPartial hc hl
  · exact ⟨fun _ _ => ⟨rfl, rfl⟩, fun _ _ => ⟨rfl, rfl⟩, fun h he => absurd he (hl h), .inl rfl⟩

/-- A removal flag is the thread's own. -/
theorem StoreEffect.removeFailed {f : Bool} (he : StoreEffect t c s s')
    (hs : s'.chunks = s.chunks) :
    StoreEffect t c s { s' with removeFailed := Function.update s.removeFailed t f } :=
  ⟨he.other, fun t' ht => ⟨(he.ghost t' ht).1, Function.update_of_ne ht _ _⟩, he.lockFree,
    .inl hs⟩

theorem execStore_effect (hx : execStore t c r s = some s') : StoreEffect t c s s' := by
  cases c with
  | lockHash h =>
      obtain ⟨hfree, ⟨⟩⟩ := Option.ite_none_right_eq_some.mp hx
      refine ⟨fun h' hne => ⟨rfl, ?_⟩, fun t' ht => ?_, fun h' he => ?_, .inl rfl⟩
      · have hh : h' ≠ h := fun he => hne (by rw [he]; rfl)
        exact Function.update_of_ne hh _ _
      · exact ⟨Function.update_of_ne ht _ _, Function.update_of_ne ht _ _⟩
      · rw [← StoreCmd.lockHash.inj he]
        exact hfree
  | unlockHash h res =>
      cases hx
      refine ⟨fun h' hne => ⟨rfl, ?_⟩, fun _ _ => ⟨rfl, rfl⟩, fun h' he => by contradiction, .inl rfl⟩
      have hh : h' ≠ h := fun he => hne (by rw [he]; rfl)
      exact Function.update_of_ne hh _ _
  | removePartial h =>
      have hset : StoreEffect t (.removePartial h) s (s.setPartial h none) :=
        .setPartial rfl (by simp)
      have hkeep : StoreEffect t (.removePartial h) s s :=
        ⟨fun _ _ => ⟨rfl, rfl⟩, fun _ _ => ⟨rfl, rfl⟩, by simp, .inl rfl⟩
      cases r with
      | removed =>
          obtain ⟨-, ⟨⟩⟩ := Option.ite_none_right_eq_some.mp hx
          exact hset.removeFailed rfl
      | absent =>
          obtain ⟨-, ⟨⟩⟩ := Option.ite_none_right_eq_some.mp hx
          exact hkeep.removeFailed rfl
      | failed m => simp only [execStore] at hx; cases hx; exact hkeep.removeFailed rfl
  | openPartial h =>
      cases r with
      | none => simp only [execStore] at hx; cases hx; exact .setPartial rfl (by simp)
      | some m =>
          cases hx
          exact ⟨fun _ _ => ⟨rfl, rfl⟩, fun _ _ => ⟨rfl, rfl⟩, by simp, .inl rfl⟩
  | writePartial h b =>
      cases r with
      | none => simp only [execStore] at hx; cases hx; exact .appendTo rfl (by simp)
      | some e =>
          obtain ⟨-, ⟨⟩⟩ := Option.ite_none_right_eq_some.mp hx
          exact .appendTo rfl (by simp)
  | renamePartial h =>
      cases r with
      | none =>
          simp only [execStore] at hx
          split at hx
          · rename_i b hb
            cases hx
            have hset : StoreEffect t (.renamePartial h) s (s.setPartial h none) :=
              .setPartial rfl (by simp)
            exact ⟨hset.other, fun t' ht => ⟨Function.update_of_ne ht _ _, rfl⟩, by simp,
              .inr (.inl ⟨h, b, rfl, hb, rfl, Function.update_self ..⟩)⟩
          · contradiction
      | some m =>
          cases hx
          exact ⟨fun _ _ => ⟨rfl, rfl⟩, fun _ _ => ⟨rfl, rfl⟩, by simp, .inl rfl⟩
  | deleteChunk h =>
      cases r with
      | removed =>
          obtain ⟨-, ⟨⟩⟩ := Option.ite_none_right_eq_some.mp hx
          exact ⟨fun _ _ => ⟨rfl, rfl⟩, fun _ _ => ⟨rfl, rfl⟩, by simp,
            .inr (.inr ⟨h, rfl, rfl⟩)⟩
      | absent =>
          obtain ⟨-, ⟨⟩⟩ := Option.ite_none_right_eq_some.mp hx
          exact ⟨fun _ _ => ⟨rfl, rfl⟩, fun _ _ => ⟨rfl, rfl⟩, by simp, .inl rfl⟩
      | failed m =>
          cases hx
          exact ⟨fun _ _ => ⟨rfl, rfl⟩, fun _ _ => ⟨rfl, rfl⟩, by simp, .inl rfl⟩
  | _ => rw [execStore_asks rfl hx]; exact .refl rfl

/-- A step of a thread that keeps to the discipline leaves the content-address
invariant. -/
theorem contentAddressed_step (hi : ContentAddressed H s) (ha : storeAbout H t s c)
    (hx : execStore t c r s = some s') : ContentAddressed H s' := by
  intro h b hb
  rcases (execStore_effect hx).chunks with hsame | ⟨h1, b1, hc, hp, hins, -⟩ | ⟨h1, hc, her⟩
  · rw [hsame] at hb
    exact hi h b hb
  · -- the partial that is moved is the one that was hashed
    rw [hc] at ha
    obtain ⟨-, b2, hp2, hhash⟩ := ha
    rw [hins] at hb
    by_cases hh : h = h1
    · rw [hh, AList.lookup_insert, Option.some.injEq] at hb
      rw [hp, Option.some.injEq] at hp2
      rw [hh, ← hb, hp2]
      exact hhash
    · rw [AList.lookup_insert_ne hh] at hb
      exact hi h b hb
  · rw [her] at hb
    by_cases hh : h = h1
    · rw [hh, AList.lookup_erase] at hb
      contradiction
    · rw [AList.lookup_erase_ne hh] at hb
      exact hi h b hb

/-- A step of a thread that keeps to the discipline touches no partial another
thread has locked. -/
theorem storeRely_step (ha : storeAbout H t s c) (hx : execStore t c r s = some s')
    (ht : t' ≠ t) : StoreRely t' s s' := by
  have heff := execStore_effect hx
  refine ⟨fun h hl => ?_, (heff.ghost t' ht).1, (heff.ghost t' ht).2⟩
  have hne : c.hash? ≠ some h := by
    intro hc
    have hmine : s.locks h = some t ∨ s.locks h = none := by
      cases c with
      | lockHash h' =>
          right
          rw [← Option.some.inj hc]
          exact heff.lockFree h' rfl
      | unlockHash h' res | renamePartial h' => left; rw [← Option.some.inj hc]; exact ha.1
      | removePartial h' | openPartial h' | writePartial h' b =>
          left; rw [← Option.some.inj hc]; exact ha
      | _ => contradiction
    cases hmine with
    | inl hm => rw [hl, Option.some.injEq] at hm; exact ht hm
    | inr hm => rw [hl] at hm; contradiction
  obtain ⟨hp, hk⟩ := heff.other h hne
  exact ⟨hk.trans hl, hp⟩

end Steps

/-- The discipline of the store's users. -/
def storeProtocol (H : Sha256) : Protocol nodeSystem where
  Inv s := ContentAddressed H s.store
  rely t s s' := StoreRely t s.store s'.store
  about t c s := match c with
    | .store c => storeAbout H t s.store c
    | _ => True
  rely_refl t s := .refl t s.store
  rely_trans h₁ h₂ := h₁.trans h₂
  step_inv := by
    intro t c r s s' hi ha hx
    cases c with
    | store c =>
        obtain ⟨x, hpart, rfl⟩ := nodeExec_store hx
        exact contentAddressed_step hi ha hpart
    | _ =>
        have hsame := nodeExec_storeFree rfl hx
        show ContentAddressed H s'.store
        rw [hsame]
        exact hi
  step_rely := by
    intro t c r s s' t' hi ha hx ht
    cases c with
    | store c =>
        obtain ⟨x, hpart, rfl⟩ := nodeExec_store hx
        exact storeRely_step ha hpart ht
    | _ =>
        have hsame := nodeExec_storeFree rfl hx
        show StoreRely t' s.store s'.store
        rw [hsame]
        exact .refl t' _

/-! ## Inside a lock section -/

/-- What thread `t` knows while it holds the lock of `h`: the partial, whether
it has moved one into the store, and whether its last removal failed. -/
structure Holding (t : Tid) (h : Str) (p : Option Bytes) (ins rf : Bool) (s : Node) : Prop where
  lock : s.store.locks h = some t
  part : s.store.partials h = p
  inserted : s.store.inserted t = ins
  removeFailed : s.store.removeFailed t = rf

/-- What must be true when a function that returns `res` gives the lock back. -/
def Settled (h : Str) (res : Option Err) (p : Option Bytes) (ins rf : Bool) : Prop :=
  ∀ e, res = some e → ins = false ∧
    (e.isMismatch = true → (parseHash h).isSome = true → rf = true ∨ p = none)

section Sections

variable {H : Sha256} {t : Tid} {h : Str} {p : Option Bytes} {ins rf : Bool} {s : Node}
variable {α : Type} {Q : α → Node → Prop}

theorem Holding.rely {s' : Node} (hs : Holding t h p ins rf s)
    (hr : (storeProtocol H).rely t s s') : Holding t h p ins rf s' := by
  obtain ⟨hl, hp⟩ := hr.held h hs.lock
  exact ⟨hl, hp.trans hs.part, hr.inserted.trans hs.inserted, hr.removeFailed.trans hs.removeFailed⟩

theorem Holding.of_store {s' : Node} (hs : Holding t h p ins rf s) (he : s'.store = s.store) :
    Holding t h p ins rf s' :=
  ⟨he ▸ hs.lock, he ▸ hs.part, he ▸ hs.inserted, he ▸ hs.removeFailed⟩

theorem about_of_storeFree {c : Cmd} (hc : c.storeFree = true) : (storeProtocol H).about t c s := by
  cases c with
  | store c =>
      cases c with
      | statPartial _ | mkdirPartialDir | syncPartial _ | closePartial _ | openVerify _
      | readPartial _ | mkdirShard _ | statChunk _ | openChunk _ | readChunk _
      | listChunks | saveManifest _ => trivial
      | _ => contradiction
  | _ => trivial

/-- A command that leaves the store alone. -/
theorem wp_skip {c : Cmd} {k : c.Resp → NodeM α} (hc : c.storeFree = true)
    (hs : Holding t h p ins rf s)
    (hk : ∀ r s', (storeProtocol H).Inv s' → Holding t h p ins rf s' →
      (storeProtocol H).wp t Q (k r) s') :
    (storeProtocol H).wp t Q (@Prog.perform nodeSig c >>= k) s := by
  apply Protocol.wp_perform
  intro s' hr hi
  refine ⟨about_of_storeFree hc, fun r s'' hx hi' => ?_⟩
  exact hk r s'' hi' ((hs.rely hr).of_store (nodeExec_storeFree hc hx))

/-- A store command in a section: what it does to the section's partial and
flags. -/
theorem wp_section {c : StoreCmd} {k : c.Resp → NodeM α} (hs : Holding t h p ins rf s)
    (ha : ∀ x : Store, x.locks h = some t → x.partials h = p → storeAbout H t x c)
    (hk : ∀ r x x', execStore t c r x = some x' → x.locks h = some t → x.partials h = p →
      x.inserted t = ins → x.removeFailed t = rf → ∀ s'' : Node, s''.store = x' →
      (storeProtocol H).Inv s'' → (storeProtocol H).wp t Q (k r) s'') :
    (storeProtocol H).wp t Q (onStore c >>= k) s := by
  apply wp_store
  intro s' hr hi
  have hs' := hs.rely hr
  refine ⟨ha s'.store hs'.lock hs'.part, fun r x hx hi' => ?_⟩
  exact hk r s'.store x hx hs'.lock hs'.part hs'.inserted hs'.removeFailed _ rfl hi'

theorem wp_partialSize (hs : Holding t h p ins rf s) :
    (storeProtocol H).wp t (fun _ s' => Holding t h p ins rf s') (partialSize h) s := by
  have hret : ∀ (n : Int) (s' : Node), Holding t h p ins rf s' →
      (storeProtocol H).wp t (fun _ s' => Holding t h p ins rf s') (pure n) s' :=
    fun n s' h' => Protocol.wp_pure fun s2 hr _ => h'.rely hr
  unfold partialSize
  split
  · exact hret 0 s hs
  · apply wp_skip rfl hs
    intro r s' _ hs'
    cases r with
    | size n => exact hret n s' hs'
    | absent => exact hret 0 s' hs'
    | failed m => exact hret 0 s' hs'

/-- After an attempt to remove it the partial is gone or the removal has
failed. -/
theorem wp_removePartial {k : Removal → NodeM α} (hs : Holding t h p ins rf s)
    (hk : ∀ r s' p' rf', Holding t h p' ins rf' s' → (rf' = true ∨ p' = none) →
      (storeProtocol H).wp t Q (k r) s') :
    (storeProtocol H).wp t Q (onStore (.removePartial h) >>= k) s := by
  apply wp_section hs
  · intro x hl _
    exact hl
  · intro r x x' hx hl hp hins _ s'' hs'' _
    cases r with
    | removed =>
        obtain ⟨-, hx⟩ := Option.ite_none_right_eq_some.mp hx
        rw [← Option.some.inj hx] at hs''
        exact hk _ s'' none false ⟨hs'' ▸ hl, by rw [hs'']; exact Function.update_self ..,
          hs'' ▸ hins, by rw [hs'']; exact Function.update_self ..⟩ (.inr rfl)
    | absent =>
        obtain ⟨hnone, hx⟩ := Option.ite_none_right_eq_some.mp hx
        rw [← Option.some.inj hx] at hs''
        exact hk _ s'' none false ⟨hs'' ▸ hl, hs'' ▸ hnone, hs'' ▸ hins,
          by rw [hs'']; exact Function.update_self ..⟩ (.inr rfl)
    | failed m =>
        simp only [execStore, Option.some.injEq] at hx
        rw [← hx] at hs''
        exact hk _ s'' p true ⟨hs'' ▸ hl, hs'' ▸ hp, hs'' ▸ hins,
          by rw [hs'']; exact Function.update_self ..⟩ (.inl rfl)

/-- Returning from a program without another command. -/
theorem wp_done {a : α} (hs : Holding t h p ins rf s)
    (hq : ∀ s', Holding t h p ins rf s' → Q a s') :
    (storeProtocol H).wp t Q (pure a) s :=
  Protocol.wp_pure fun s' hr _ => hq s' (hs.rely hr)

theorem wp_discardPartial (hs : Holding t h p ins rf s) :
    (storeProtocol H).wp t (fun r s' => (∀ e, r = some e → e.isMismatch = false) ∧
      ∃ p' rf', Holding t h p' ins rf' s' ∧
        ((parseHash h).isSome = true → rf' = true ∨ p' = none)) (discardPartial h) s := by
  unfold discardPartial
  split
  · rename_i hparse
    exact wp_done hs fun s' hs' => ⟨by simp [Err.isMismatch], p, rf, hs', by simp [hparse]⟩
  · apply wp_removePartial hs
    intro r s' p' rf' hs' hgone
    cases r with
    | removed | absent => exact wp_done hs' fun s2 hs2 => ⟨by simp, p', rf', hs2, fun _ => hgone⟩
    | failed m =>
        exact wp_done hs' fun s2 hs2 => ⟨by simp [Err.isMismatch], p', rf', hs2, fun _ => hgone⟩

/-- Appending to the partial of the section. -/
theorem Holding.appendTo {x : Store} {d : Bytes} {s'' : Node} (hl : x.locks h = some t)
    (hp : x.partials h = p) (hins : x.inserted t = ins) (hrf : x.removeFailed t = rf)
    (hs'' : s''.store = x.appendTo h d) : Holding t h (p.map (· ++ d)) ins rf s'' := by
  cases p with
  | none =>
      have hsame : x.appendTo h d = x := by rw [Store.appendTo, hp]
      rw [hsame] at hs''
      exact ⟨hs'' ▸ hl, hs'' ▸ hp, hs'' ▸ hins, hs'' ▸ hrf⟩
  | some b =>
      have hset : x.appendTo h d = x.setPartial h (some (b ++ d)) := by rw [Store.appendTo, hp]
      rw [hset] at hs''
      exact ⟨hs'' ▸ hl, by rw [hs'']; exact Function.update_self .., hs'' ▸ hins, hs'' ▸ hrf⟩

/-- What an append that returns `r` leaves behind. -/
def Appended (t : Tid) (h : Str) (ins rf : Bool) (r : Option Err × List Bytes) (s : Node) : Prop :=
  (∀ e, r.1 = some e → e.isMismatch = false) ∧ ∃ p, Holding t h p ins rf s

variable {reads : List Bytes} {onCommit : OnCommit} {src : ChunkSource} {work : WorkItem}

theorem wp_copyToPartial (hs : Holding t h p ins rf s) :
    (storeProtocol H).wp t (Appended t h ins rf) (copyToPartial h reads) s := by
  induction reads generalizing s p with
  | nil => exact wp_done hs fun s' hs' => ⟨by simp, p, hs'⟩
  | cons b bs ih =>
      apply wp_section hs
      · intro x hl _
        exact hl
      · intro r x x' hx hl hp hins hrf s'' hs'' _
        cases r with
        | none =>
            simp only [execStore, Option.some.injEq] at hx
            rw [← hx] at hs''
            exact ih (.appendTo hl hp hins hrf hs'')
        | some e =>
            obtain ⟨-, hx⟩ := Option.ite_none_right_eq_some.mp hx
            rw [← Option.some.inj hx] at hs''
            exact wp_done (.appendTo hl hp hins hrf hs'') fun s' hs' =>
              ⟨by simp [Err.isMismatch], _, hs'⟩

theorem wp_appendPartial {fin : Option RemoteErr} (hs : Holding t h p ins rf s) :
    (storeProtocol H).wp t (Appended t h ins rf) (appendPartial h reads fin) s := by
  have hret : ∀ (r : Option Err × List Bytes) (p' : Option Bytes) (s' : Node),
      (∀ e, r.1 = some e → e.isMismatch = false) → Holding t h p' ins rf s' →
      (storeProtocol H).wp t (Appended t h ins rf) (pure r) s' :=
    fun r p' s' hr hs' => wp_done hs' fun s2 hs2 => ⟨hr, p', hs2⟩
  unfold appendPartial
  split
  · exact hret _ p s (by simp [Err.isMismatch]) hs
  · apply wp_skip rfl hs
    intro r s1 hi1 hs1
    cases r with
    | some msg => exact hret _ p s1 (by simp [Err.isMismatch]) hs1
    | none =>
        apply wp_section hs1
        · intro x hl _
          exact hl
        · intro r x x' hx hl hp hins hrf s2 hs2 hi2
          cases r with
          | some msg =>
              simp only [execStore, Option.some.injEq] at hx
              rw [← hx] at hs2
              exact hret _ p s2 (by simp [Err.isMismatch]) ⟨hs2 ▸ hl, hs2 ▸ hp, hs2 ▸ hins, hs2 ▸ hrf⟩
          | none =>
              simp only [execStore, Option.some.injEq] at hx
              rw [← hx] at hs2
              have hopen : Holding t h (some ((x.partials h).getD [])) ins rf s2 :=
                ⟨hs2 ▸ hl, by rw [hs2]; exact Function.update_self .., hs2 ▸ hins, hs2 ▸ hrf⟩
              apply Protocol.wp_seq hi2 (wp_copyToPartial hopen)
              intro a s3 _ ha
              obtain ⟨hm, p3, hs3⟩ := ha
              obtain ⟨err, unread⟩ := a
              cases err with
              | some e =>
                  apply wp_skip rfl hs3
                  intro _ s4 _ hs4
                  exact hret _ p3 s4 hm hs4
              | none =>
                  cases fin with
                  | some e =>
                      apply wp_skip rfl hs3
                      intro _ s4 _ hs4
                      exact hret _ p3 s4 (by simp [Err.isMismatch]) hs4
                  | none =>
                      apply wp_skip rfl hs3
                      intro r s4 _ hs4
                      cases r with
                      | some msg =>
                          apply wp_skip rfl hs4
                          intro _ s5 _ hs5
                          exact hret _ p3 s5 (by simp [Err.isMismatch]) hs5
                      | none =>
                          apply wp_skip rfl hs4
                          intro r s5 _ hs5
                          cases r with
                          | some msg => exact hret _ p3 s5 (by simp [Err.isMismatch]) hs5
                          | none => exact hret _ p3 s5 (by simp) hs5

/-- A commit hook that leaves the store alone. -/
def HookOk (onCommit : OnCommit) : Prop :=
  ∀ hook, onCommit = some hook → ∀ h n, (hook h n).Only fun c : Cmd => c.storeFree = true

/-- What a function that returns `a` leaves behind when it comes to unlock. -/
def Ended (t : Tid) (h : Str) {β : Type} (result : β → Option Err) (a : β) (s : Node) : Prop :=
  ∃ p ins rf, Holding t h p ins rf s ∧ Settled h (result a) p ins rf

/-- A failure that is no mismatch and has moved nothing. -/
theorem settled_of_not_mismatch {e : Err} (hm : e.isMismatch = false) :
    Settled h (some e) p false rf := by
  intro e' he
  rw [Option.some.injEq] at he
  refine ⟨rfl, fun hm' => ?_⟩
  rw [← he, hm] at hm'
  contradiction

theorem settled_none : Settled h none p ins rf := fun _ he => by contradiction

theorem wp_runOnCommit (hhook : HookOk onCommit) (hs : Holding t h p ins rf s) :
    (storeProtocol H).wp t (fun _ s' => Holding t h p ins rf s') (runOnCommit onCommit h) s := by
  cases onCommit with
  | none => exact wp_done hs fun _ hs' => hs'
  | some hook =>
      have hrun : ∀ n s', Holding t h p ins rf s' →
          (storeProtocol H).wp t (fun _ s' => Holding t h p ins rf s') (hook h n) s' :=
        fun n s' hs' => Protocol.wp_only (hhook hook rfl h n) (fun _ _ hr h' => h'.rely hr)
          (fun c _ hc _ _ => about_of_storeFree hc)
          (fun c r _ _ hc h' _ hx => h'.of_store (nodeExec_storeFree hc hx)) hs'
      apply wp_skip rfl hs
      intro r s1 _ hs1
      cases r with
      | size n => exact hrun n s1 hs1
      | absent => exact hrun 0 s1 hs1
      | failed m => exact hrun 0 s1 hs1

/-- A commit moves the partial into the store, or fails without having done so;
on a mismatch it tries to remove the partial. -/
theorem wp_commitPartial (hhook : HookOk onCommit) (hs : Holding t h p false rf s) :
    (storeProtocol H).wp t (Ended t h id) (commitPartial H onCommit h) s := by
  have hfail : ∀ (e : Err) (s' : Node), e.isMismatch = false → Holding t h p false rf s' →
      (storeProtocol H).wp t (Ended t h id) (pure (some e)) s' :=
    fun e s' hm hs' => wp_done hs' fun s2 hs2 => ⟨p, false, rf, hs2, settled_of_not_mismatch hm⟩
  unfold commitPartial
  split
  · exact hfail _ s rfl hs
  · apply wp_skip rfl hs
    intro r s1 _ hs1
    cases r with
    | some msg => exact hfail _ s1 rfl hs1
    | none =>
        apply wp_section hs1
        · intro x _ _
          trivial
        · intro r x x' hx hl hp hins hrf s2 hs2 _
          have hsame : x' = x := execStore_asks rfl hx
          rw [hsame] at hs2
          have hold : Holding t h p false rf s2 := ⟨hs2 ▸ hl, hs2 ▸ hp, hs2 ▸ hins, hs2 ▸ hrf⟩
          cases r with
          | error msg => exact hfail _ s2 rfl hold
          | ok b =>
              -- what was read is the partial, and stays it until the rename
              have hb : p = some b := by
                obtain ⟨hb, hx⟩ := Option.ite_none_right_eq_some.mp hx
                exact hp.symm.trans hb
              by_cases hne : computeHash H b ≠ h
              · simp only [if_pos hne]
                apply wp_removePartial hold
                intro _ s3 p3 rf3 hs3 hgone
                exact wp_done hs3 fun s4 hs4 =>
                  ⟨p3, false, rf3, hs4, fun _ _ => ⟨rfl, fun _ _ => hgone⟩⟩
              · simp only [if_neg hne]
                apply wp_skip rfl hold
                intro r s3 _ hs3
                cases r with
                | some msg => exact hfail _ s3 rfl hs3
                | none =>
                    apply wp_section hs3
                    · intro x hl hp
                      exact ⟨hl, b, hp.trans hb, not_not.mp hne⟩
                    · intro r x x' hx hl hp hins hrf s4 hs4 hi4
                      cases r with
                      | some msg =>
                          simp only [execStore, Option.some.injEq] at hx
                          rw [← hx] at hs4
                          exact hfail _ s4 rfl ⟨hs4 ▸ hl, hs4 ▸ hp, hs4 ▸ hins, hs4 ▸ hrf⟩
                      | none =>
                          rw [hb] at hp
                          simp only [execStore, hp, Option.some.injEq] at hx
                          rw [← hx] at hs4
                          have hmoved : Holding t h none true rf s4 :=
                            ⟨hs4 ▸ hl, by rw [hs4]; exact Function.update_self ..,
                              by rw [hs4]; exact Function.update_self .., hs4 ▸ hrf⟩
                          apply Protocol.wp_seq hi4 (wp_runOnCommit hhook hmoved)
                          intro _ s5 _ hs5
                          exact wp_done hs5 fun s6 hs6 => ⟨none, true, rf, hs6, settled_none⟩

/-- A function under its hash lock.  The body starts with a fresh section and
ends with nothing left open. -/
theorem wp_withHashLock {β : Type} {result : β → Option Err} {body : NodeM β}
    (hbody : ∀ s' p', (storeProtocol H).Inv s' → Holding t h p' false false s' →
      (storeProtocol H).wp t (Ended t h result) body s') :
    (storeProtocol H).wp t (fun _ _ => True) (withHashLock h result body) s := by
  apply wp_store
  intro s1 _ _
  refine ⟨trivial, fun r x hx hi => ?_⟩
  have hlocked : Holding t h (s1.store.partials h) false false { s1 with store := x } := by
    obtain ⟨-, ⟨⟩⟩ := Option.ite_none_right_eq_some.mp hx
    exact ⟨Function.update_self .., rfl, Function.update_self .., Function.update_self ..⟩
  apply Protocol.wp_seq hi (hbody _ _ hi hlocked)
  intro a s2 _ hend
  obtain ⟨p2, ins2, rf2, hs2, hset⟩ := hend
  apply wp_store
  intro s3 hr _
  have hs3 := hs2.rely hr
  refine ⟨⟨hs3.lock, fun e he => ?_⟩, fun r x _ _ => ?_⟩
  · obtain ⟨hins, hgone⟩ := hset e he
    refine ⟨hs3.inserted.trans hins, fun hm hp => ?_⟩
    cases hgone hm hp with
    | inl hf => exact .inl (hs3.removeFailed.trans hf)
    | inr hn => exact .inr (hs3.part.trans hn)
  · exact Protocol.wp_pure fun _ _ _ => trivial

theorem wp_finishTransfer {total : Int} {fail : Err → Err} (hhook : HookOk onCommit)
    (hfail : ∀ e, (fail e).isMismatch = true → e.isMismatch = true) (hs : Holding t h p false rf s)
    (hi : (storeProtocol H).Inv s) :
    (storeProtocol H).wp t (Ended t h errorOf) (finishTransfer H onCommit h total fail) s := by
  apply Protocol.wp_seq hi (wp_partialSize hs)
  intro got s1 hi1 hs1
  split
  · exact wp_done hs1 fun s' hs' => ⟨p, false, rf, hs', settled_of_not_mismatch rfl⟩
  · apply Protocol.wp_seq hi1 (wp_commitPartial hhook hs1)
    intro r s2 hi2 hend
    obtain ⟨p2, ins2, rf2, hs2, hset⟩ := hend
    cases r with
    | none => exact wp_done hs2 fun s' hs' => ⟨p2, ins2, rf2, hs', settled_none⟩
    | some e =>
        obtain ⟨hins, hgone⟩ := hset e rfl
        rw [hins] at hs2
        by_cases hm : e.isHashMismatch = true
        · -- a second attempt to remove the partial
          simp only [if_pos hm]
          apply Protocol.wp_seq hi2 (wp_discardPartial hs2)
          intro _ s3 _ hd
          obtain ⟨-, p3, rf3, hs3, hgone3⟩ := hd
          exact wp_done hs3 fun s' hs' => ⟨p3, false, rf3, hs', fun _ _ => ⟨rfl, fun _ => hgone3⟩⟩
        · simp only [if_neg hm]
          refine wp_done hs2 fun s' hs' => ⟨p2, false, rf2, hs', fun e' he => ⟨rfl, fun hm' => ?_⟩⟩
          rw [← Option.some.inj he] at hm'
          exact hgone (hfail e hm')

theorem wp_putChunkFromReader {fin : Option RemoteErr} (hhook : HookOk onCommit) :
    (storeProtocol H).wp t (fun _ _ => True) (putChunkFromReader H onCommit h reads fin) s := by
  apply wp_withHashLock
  intro s1 p1 hi1 hs1
  apply Protocol.wp_seq hi1 (wp_discardPartial hs1)
  intro r s2 hi2 hd
  obtain ⟨hm2, p2, rf2, hs2, -⟩ := hd
  cases r with
  | some e =>
      exact wp_done hs2 fun s' hs' => ⟨p2, false, rf2, hs', settled_of_not_mismatch (hm2 e rfl)⟩
  | none =>
      apply Protocol.wp_seq hi2 (wp_appendPartial hs2)
      intro r s3 hi3 ha
      obtain ⟨hm3, p3, hs3⟩ := ha
      obtain ⟨err, unread⟩ := r
      cases err with
      | some e =>
          apply Protocol.wp_seq hi3 (wp_discardPartial hs3)
          intro _ s4 _ hd
          obtain ⟨-, p4, rf4, hs4, -⟩ := hd
          exact wp_done hs4 fun s' hs' => ⟨p4, false, rf4, hs', settled_of_not_mismatch (hm3 e rfl)⟩
      | none => exact wp_commitPartial hhook hs3

theorem wp_resumeFrom {n : Int} {tooLong : Bool} (hs : Holding t h p ins rf s)
    (hi : (storeProtocol H).Inv s) :
    (storeProtocol H).wp t (fun _ s' => ∃ p' rf', Holding t h p' ins rf' s')
      (resumeFrom h n tooLong) s := by
  cases tooLong with
  | true =>
      apply Protocol.wp_seq hi (wp_discardPartial hs)
      intro _ s1 _ hd
      obtain ⟨-, p1, rf1, hs1, -⟩ := hd
      exact wp_done hs1 fun s' hs' => ⟨p1, rf1, hs'⟩
  | false => exact wp_done hs fun s' hs' => ⟨p, rf, hs'⟩

theorem isMismatch_commitErr {e : Err} (hm : (src.commitErr h e).isMismatch = true) :
    e.isMismatch = true := by
  cases src with
  | peer addr => exact hm
  | origin =>
      simp only [ChunkSource.commitErr, originCommitErr] at hm
      split at hm
      · exact hm
      · exact hm

theorem wp_request {offset : Int} {Q : Transfer → Node → Prop} (hs : Holding t h p ins rf s)
    (hQ : ∀ tr s', Holding t h p ins rf s' → Q tr s') :
    (storeProtocol H).wp t Q (src.request work offset) s := by
  cases src with
  | peer addr | origin =>
      exact wp_skip rfl hs fun reply s' _ hs' => wp_done hs' fun s'' hs'' => hQ _ s'' hs''

theorem wp_download (hhook : HookOk onCommit) :
    (storeProtocol H).wp t (fun _ _ => True) (src.download H onCommit work) s := by
  apply wp_withHashLock
  intro s1 p1 hi1 hs1
  apply Protocol.wp_seq hi1 (wp_partialSize hs1)
  intro size s2 hi2 hs2
  apply Protocol.wp_seq hi2 (wp_resumeFrom hs2 hi2)
  intro offset s3 hi3 hd
  obtain ⟨p3, rf3, hs3⟩ := hd
  apply Protocol.wp_seq hi3 (wp_request hs3 fun _ _ hs => hs)
  intro tr s4 hi4 hs4
  apply Protocol.wp_seq hi4 (wp_appendPartial hs4)
  intro r s5 hi5 ha
  obtain ⟨hm5, p5, hs5⟩ := ha
  obtain ⟨appendErr, unread⟩ := r
  apply wp_skip rfl hs5
  intro _ s6 hi6 hs6
  cases herr : tr.err with
  | some e =>
      by_cases hspoils : src.spoils e = true
      · simp only [if_pos hspoils]
        apply Protocol.wp_seq hi6 (wp_discardPartial hs6)
        intro _ s7 _ hd
        obtain ⟨-, p7, rf7, hs7, -⟩ := hd
        exact wp_done hs7 fun s' hs' => ⟨p7, false, rf7, hs', settled_of_not_mismatch rfl⟩
      · simp only [if_neg hspoils]
        exact wp_done hs6 fun s' hs' => ⟨p5, false, rf3, hs', settled_of_not_mismatch rfl⟩
  | none =>
      cases appendErr with
      | some e =>
          exact wp_done hs6 fun s' hs' => ⟨p5, false, rf3, hs', settled_of_not_mismatch (hm5 e rfl)⟩
      | none => exact wp_finishTransfer hhook (fun _ => isMismatch_commitErr) hs6 hi6

/-! ## Workers -/

/-- A command outside any section that leaves the store alone. -/
theorem wp_free {c : Cmd} {k : c.Resp → NodeM α} (hc : c.storeFree = true)
    (hk : ∀ r s', (storeProtocol H).Inv s' → (storeProtocol H).wp t Q (k r) s') :
    (storeProtocol H).wp t Q (@Prog.perform nodeSig c >>= k) s := by
  apply Protocol.wp_perform
  intro s' _ _
  exact ⟨about_of_storeFree hc, fun r s'' _ hi => hk r s'' hi⟩

theorem wp_downloadFromOrigin (hhook : HookOk onCommit) :
    (storeProtocol H).wp t (fun _ _ => True) (downloadFromOrigin H onCommit work) s := by
  apply wp_free rfl
  intro r s1 hi1
  cases r with
  | some deadline => exact Protocol.wp_pure fun _ _ _ => trivial
  | none =>
      rw [readFromOrigin_eq]
      apply Protocol.wp_seq hi1 (wp_download hhook)
      intro res s2 _ _
      apply wp_free rfl
      intro _ s3 _
      exact Protocol.wp_pure fun _ _ _ => trivial

theorem wp_deleteChunk :
    (storeProtocol H).wp t (fun _ _ => True) (deleteChunk h) s := by
  unfold deleteChunk
  split
  · exact Protocol.wp_pure fun _ _ _ => trivial
  · refine @wp_store t s Removal _ (storeProtocol H) (.deleteChunk h) pure ?_
    intro s' _ _
    exact ⟨trivial, fun r x _ _ => Protocol.wp_pure fun _ _ _ => trivial⟩

end Sections

/-- One operation on the store. -/
def runStoreJob (H : Sha256) (onCommit : OnCommit) : StoreJob → NodeM Unit
  | .put h reads fin => do
      let _ ← putChunkFromReader H onCommit h reads fin
      pure ()
  | .fromPeer addr work => do
      let _ ← downloadFromPeer H onCommit addr work
      pure ()
  | .fromOrigin work => do
      let _ ← downloadFromOrigin H onCommit work
      pure ()
  | .delete h => do
      let _ ← deleteChunk h
      pure ()

/-- A thread that makes up to `n` operations, each chosen when it comes to it. -/
def storeWorker (H : Sha256) (onCommit : OnCommit) : Nat → NodeM Unit
  | 0 => pure ()
  | n + 1 => do
      match ← onJob .pickJob with
      | none => pure ()
      | some j => do
          let () ← runStoreJob H onCommit j
          storeWorker H onCommit n

section Workers

variable {H : Sha256} {onCommit : OnCommit} {t : Tid} {s : Node}

theorem wp_runStoreJob (hhook : HookOk onCommit) (j : StoreJob) (hi : (storeProtocol H).Inv s) :
    (storeProtocol H).wp t (fun _ _ => True) (runStoreJob H onCommit j) s := by
  have hdone : ∀ {α : Type} {p : NodeM α}, (storeProtocol H).wp t (fun _ _ => True) p s →
      (storeProtocol H).wp t (fun _ _ => True) (p >>= fun _ => pure ()) s :=
    fun hp => Protocol.wp_seq hi hp fun _ _ _ _ => Protocol.wp_pure fun _ _ _ => trivial
  cases j with
  | put h reads fin => exact hdone (wp_putChunkFromReader hhook)
  | fromPeer addr work => exact hdone (@wp_download H t s onCommit (.peer addr) work hhook)
  | fromOrigin work => exact hdone (wp_downloadFromOrigin hhook)
  | delete h => exact hdone wp_deleteChunk

theorem wp_storeWorker (hhook : HookOk onCommit) (n : Nat) :
    (storeProtocol H).wp t (fun _ _ => True) (storeWorker H onCommit n) s := by
  induction n generalizing s with
  | zero => exact Protocol.wp_pure fun _ _ _ => trivial
  | succ n ih =>
      apply wp_free rfl
      intro r s1 hi1
      cases r with
      | none => exact Protocol.wp_pure fun _ _ _ => trivial
      | some j => exact Protocol.wp_seq hi1 (wp_runStoreJob hhook j hi1) fun _ _ _ _ => ih

end Workers

theorem hookOk_touchOnCommit : HookOk touchOnCommit := only_touchOnCommit fun _ => rfl

theorem contentAddressed_emptyNode (H : Sha256) : ContentAddressed H emptyNode.store := by
  intro h c hc
  simp [emptyNode] at hc

/-- One worker of a node with nothing on it is asked to put `[1]` under the name
`h`; the digest of everything is zero, and a partial can be removed or not. -/
def putOne (h : Str) (removable : Bool) (steps : Nat) : Config nodeSig Node Tid Unit :=
  Config.play nodeSystem
    (fun _ c s => match c with
      | .job .pickJob => some (.put h [[1]] none)
      | .store (.removePartial h') =>
          if !removable && (s.store.partials h').isSome then .failed (str "EIO")
          else answerStore s.store (.removePartial h')
      | c => (World.originOnly []).answer c s)
    (List.replicate steps 0)
    ⟨emptyNode, fun _ => storeWorker (.numbering []) touchOnCommit 1⟩

/-- A hash no content has under the zero digest. -/
def otherHash : Str :=
  str "sha256:ffffffffffffffffffffffffffffffffffffffffffffffffffffffffffffffff"

end Spider
