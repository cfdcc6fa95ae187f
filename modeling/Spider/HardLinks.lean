import Spider.Materializer
import Spider.Verifier

/-!
# Spider.HardLinks

`Materialize` on a filesystem with inodes.

`Spider.Node.Commands` lets a linked file be a file of its own.  Here a chunk
file and a destination file are names of inodes, so a target that was linked to
a chunk and is then opened with `O_TRUNC` empties the chunk.  The program is the
one of `Spider.Materializer`; only what its commands do is new (`diskSystem`).

A call cannot harm a chunk through a target that it removes first, nor through
one that is not a name of a chunk's inode when the target's turn comes
(`Call.Spares`).  The proof follows one file: as soon as the target is open, its
handle writes to an inode that no chunk has (`Disk.Apart`), and that lasts until
the next target is opened.
-/

namespace Spider

open Conc

/-! ## The disk -/

/-- What a name in the destination stands for. -/
inductive Name where
  | dir
  | file (ino : Nat)
  deriving DecidableEq

/-- The chunk files and the destination tree as names of inodes.  The
destination is disjoint from the cache directory, so the two have no name in
common; permission bits are left out. -/
structure Disk where
  chunks : AList fun _ : Str => Nat
  tree : AList fun _ : Str => Name
  content : Nat → Bytes
  /-- The inode the open handle of a target writes to. -/
  handle : Str → Option Nat
  next : Nat
  chunks_lt : ∀ h i, chunks.lookup h = some i → i < next

/-- What the chunk file of `h` holds. -/
def Disk.chunk (d : Disk) (h : Str) : Option Bytes :=
  (d.chunks.lookup h).map d.content

/-- Whether a directory is there; `.` and `/` always are. -/
def Disk.isDir (d : Disk) (p : Str) : Bool :=
  pathElems p = [] || d.tree.lookup (clean p) = some .dir

/-- Whether something lies directly below `p`. -/
def Disk.hasChild (d : Disk) (p : Str) : Bool :=
  d.tree.keys.any fun q => decide (q ≠ p) && dir q == p

def Disk.isFile (d : Disk) (p : Str) : Bool :=
  match d.tree.lookup p with
  | some (.file _) => true
  | _ => false

/-- Make a directory where there is nothing. -/
def Disk.mkdir (d : Disk) (p : Str) : Disk :=
  if (d.tree.lookup p).isSome then d else { d with tree := d.tree.insert p .dir }

/-- Open an existing file with `O_TRUNC`. -/
def Disk.truncate (d : Disk) (p : Str) (i : Nat) : Disk :=
  { d with
    content := Function.update d.content i []
    handle := Function.update d.handle p (some i) }

/-- Create an empty file. -/
def Disk.create (d : Disk) (p : Str) : Disk :=
  { d with
    tree := d.tree.insert p (.file d.next)
    content := Function.update d.content d.next []
    handle := Function.update d.handle p (some d.next)
    next := d.next + 1
    chunks_lt := fun h i hi => Nat.lt_succ_of_lt (d.chunks_lt h i hi) }

/-- Write through the handle of a target. -/
def Disk.append (d : Disk) (p : Str) (data : Bytes) : Disk :=
  match d.handle p with
  | some i => { d with content := Function.update d.content i (d.content i ++ data) }
  | none => d

/-- The commands on the destination.  Where `stuck` says so, a file can be opened
and not removed, as one of another user in a sticky directory. -/
def execTree (stuck : Str → Bool) : (c : DestCmd) → c.Resp → Disk → Option Disk
  | .mkdirAll p, none, d =>
      if (pathAncestors p).any d.isFile then none
      else some ((pathAncestors p).foldl Disk.mkdir d)
  | .mkdirAll _, some _, d => some d
  | .removeTarget p, .removed, d =>
      if (d.tree.lookup p).isSome && !d.hasChild p then some { d with tree := d.tree.erase p }
      else none
  | .removeTarget p, .absent, d => if d.tree.lookup p = none then some d else none
  | .removeTarget p, .failed _, d => if d.isFile p && !stuck p then none else some d
  | .openTarget p, none, d =>
      match d.tree.lookup p with
      | some .dir => none
      | some (.file i) => some (d.truncate p i)
      | none => if d.isDir (dir p) then some (d.create p) else none
  | .openTarget _, some _, d => some d
  | .writeTarget p data, none, d => some (d.append p data)
  | .writeTarget p data, some e, d =>
      if e.written ≤ data.length then some (d.append p (data.take e.written)) else none
  | .chmodTarget _ _, _, d => some d

/-- `os.Link` gives the chunk's inode a second name, where there is none yet. -/
def linkInode (h p : Str) : Option Str → Disk → Option Disk
  | none, d =>
      match d.chunks.lookup h with
      | some i =>
          if d.tree.lookup p = none ∧ d.isDir (dir p) then
            some { d with tree := d.tree.insert p (.file i) }
          else none
      | none => none
  | some _, d => some d

/-- What a look at the cache can answer; the materializer has no other business
there. -/
def Disk.answers (d : Disk) : (c : StoreCmd) → c.Resp → Bool
  | .statChunk h, .size n => (d.chunk h).map List.length = some n
  | .statChunk h, .absent => d.chunk h = none
  | .statChunk _, .failed _ => true
  | .openChunk h, .content b => d.chunk h = some b
  | .openChunk h, .absent => d.chunk h = none
  | .openChunk _, .failed _ => true
  | .readChunk _, _ => true
  | _, _ => false

def diskExec (stuck : Str → Bool) (c : Cmd) (r : c.Resp) (d : Disk) : Option Disk :=
  match c, r with
  | .store c, r => if d.answers c r then some d else none
  | .job .ctxErr, _ => some d
  | .dest c, r => execTree stuck c r d
  | .link h p, r => linkInode h p r d
  | _, _ => none

/-- The disk as a system; one thread works on it. -/
def diskSystem (stuck : Str → Bool) : System nodeSig Disk Unit := ⟨fun _ => diskExec stuck⟩

theorem diskExec_destFree {stuck : Str → Bool} {d d' : Disk} {c : Cmd} {r : c.Resp}
    (hc : c.destFree = true) (h : diskExec stuck c r d = some d') : d' = d := by
  cases c with
  | store c =>
      obtain ⟨-, h⟩ := Option.ite_none_right_eq_some.mp h
      exact (Option.some.inj h).symm
  | job c =>
      cases c with
      | ctxErr => exact (Option.some.inj h).symm
      | _ => contradiction
  | quota c | net c | dest c | link h p => contradiction

/-! ## Names and inodes -/

/-- Some chunk file is a name of the inode. -/
def Disk.Chunky (d : Disk) (i : Nat) : Prop := ∃ h, d.chunks.lookup h = some i

/-- The target is another name of a chunk file. -/
def Disk.Linked (d : Disk) (p : Str) : Prop := ∃ i, d.tree.lookup p = some (.file i) ∧ d.Chunky i

/-- Neither the target nor its open handle leads to a chunk file. -/
structure Disk.Apart (d : Disk) (p : Str) : Prop where
  name : ¬ d.Linked p
  handle : ∀ i, d.handle p = some i → ¬ d.Chunky i

/-- The chunk files are as before. -/
structure Unharmed (d d' : Disk) : Prop where
  chunks : d'.chunks = d.chunks
  content : ∀ i, d.Chunky i → d'.content i = d.content i

/-- The chunk files are as before, and so is which other names lead to them. -/
structure UnharmedAt (target : Str) (d d' : Disk) : Prop extends Unharmed d d' where
  other : ∀ p, p ≠ target → (d'.Linked p ↔ d.Linked p)

section Names

variable {target p : Str} {d d' d'' : Disk} {i : Nat}

theorem chunky_of_chunks (h : d'.chunks = d.chunks) : d'.Chunky i ↔ d.Chunky i := by
  simp only [Disk.Chunky, h]

theorem linked_congr (hc : d'.chunks = d.chunks)
    (ht : ∀ i, d'.tree.lookup p = some (.file i) ↔ d.tree.lookup p = some (.file i)) :
    d'.Linked p ↔ d.Linked p := by
  simp only [Disk.Linked, chunky_of_chunks hc, ht]

theorem Unharmed.refl : Unharmed d d := ⟨rfl, fun _ _ => rfl⟩

theorem Unharmed.trans (h1 : Unharmed d d') (h2 : Unharmed d' d'') : Unharmed d d'' where
  chunks := h2.chunks.trans h1.chunks
  content i hi := by
    have hi' : d'.Chunky i := (chunky_of_chunks h1.chunks).mpr hi
    rw [h2.content i hi', h1.content i hi]

theorem UnharmedAt.refl : UnharmedAt target d d := ⟨.refl, fun _ _ => Iff.rfl⟩

theorem UnharmedAt.trans (h1 : UnharmedAt target d d') (h2 : UnharmedAt target d' d'') :
    UnharmedAt target d d'' :=
  ⟨h1.toUnharmed.trans h2.toUnharmed, fun p hp => (h2.other p hp).trans (h1.other p hp)⟩

theorem Unharmed.chunk (h : Unharmed d d') (x : Str) : d'.chunk x = d.chunk x := by
  unfold Disk.chunk
  rw [h.chunks]
  cases hx : d.chunks.lookup x with
  | none => rfl
  | some i => simp [h.content i ⟨x, hx⟩]

theorem not_chunky_next (d : Disk) : ¬ d.Chunky d.next := by
  rintro ⟨h, hh⟩
  exact Nat.lt_irrefl _ (d.chunks_lt h d.next hh)

theorem unharmed_insert {n : Name} :
    UnharmedAt target d { d with tree := d.tree.insert target n } where
  chunks := rfl
  content _ _ := rfl
  other p hp := linked_congr rfl fun i => by simp only [AList.lookup_insert_ne hp]

theorem unharmed_erase : UnharmedAt target d { d with tree := d.tree.erase target } where
  chunks := rfl
  content _ _ := rfl
  other p hp := linked_congr rfl fun i => by simp only [AList.lookup_erase_ne hp]

theorem unharmed_truncate (hi : ¬ d.Chunky i) : UnharmedAt target d (d.truncate target i) where
  chunks := rfl
  content j hj := by
    have hne : j ≠ i := fun he => hi (he ▸ hj)
    exact Function.update_of_ne hne ..
  other _ _ := Iff.rfl

theorem unharmed_create : UnharmedAt target d (d.create target) where
  chunks := rfl
  content j hj := by
    have hne : j ≠ d.next := fun he => not_chunky_next d (he ▸ hj)
    exact Function.update_of_ne hne ..
  other p hp := linked_congr rfl fun i => by simp only [Disk.create, AList.lookup_insert_ne hp]

theorem apart_create (d : Disk) (target : Str) : (d.create target).Apart target where
  name := by
    rintro ⟨i, hi, hc⟩
    simp only [Disk.create, AList.lookup_insert, Option.some.injEq, Name.file.injEq] at hi
    exact not_chunky_next d (hi ▸ hc)
  handle i hi := by
    simp only [Disk.create, Function.update_self, Option.some.injEq] at hi
    exact fun hc => not_chunky_next d (hi ▸ hc)

theorem unharmed_append {data : Bytes} (h : d.Apart target) :
    UnharmedAt target d (d.append target data) := by
  unfold Disk.append
  cases hh : d.handle target with
  | none => exact .refl
  | some i =>
      refine ⟨⟨rfl, fun j hj => ?_⟩, fun _ _ => Iff.rfl⟩
      have hne : j ≠ i := fun he => h.handle i hh (he ▸ hj)
      exact Function.update_of_ne hne ..

theorem Disk.Apart.append {data : Bytes} (h : d.Apart target) :
    (d.append target data).Apart target := by
  unfold Disk.append
  cases d.handle target with
  | none => exact h
  | some i => exact ⟨h.name, h.handle⟩

theorem unharmed_mkdir (p : Str) :
    Unharmed d (d.mkdir p) ∧ ∀ q, (d.mkdir p).Linked q ↔ d.Linked q := by
  unfold Disk.mkdir
  by_cases hp : (d.tree.lookup p).isSome = true
  · rw [if_pos hp]
    exact ⟨.refl, fun _ => Iff.rfl⟩
  · rw [if_neg hp]
    refine ⟨⟨rfl, fun _ _ => rfl⟩, fun q => linked_congr rfl fun i => ?_⟩
    by_cases hq : q = p
    · subst hq
      have hnone : d.tree.lookup q = none := Option.not_isSome_iff_eq_none.mp hp
      rw [AList.lookup_insert, hnone]
      simp
    · simp only [AList.lookup_insert_ne hq]

theorem unharmed_mkdirs (ps : List Str) :
    Unharmed d (ps.foldl Disk.mkdir d) ∧ ∀ q, (ps.foldl Disk.mkdir d).Linked q ↔ d.Linked q := by
  induction ps generalizing d with
  | nil => exact ⟨.refl, fun _ => Iff.rfl⟩
  | cons p ps ih =>
      obtain ⟨h1, hl1⟩ := unharmed_mkdir (d := d) p
      obtain ⟨h2, hl2⟩ := ih (d := d.mkdir p)
      exact ⟨h1.trans h2, fun q => (hl2 q).trans (hl1 q)⟩

end Names

/-! ## What the commands do -/

section Effects

variable {stuck : Str → Bool} {target p : Str} {d d' : Disk}

theorem execTree_mkdirAll {r : Option Str} (h : execTree stuck (.mkdirAll p) r d = some d') :
    Unharmed d d' ∧ ∀ q, d'.Linked q ↔ d.Linked q := by
  cases r with
  | none =>
      obtain ⟨-, ⟨⟩⟩ := Option.ite_none_left_eq_some.mp h
      exact unharmed_mkdirs _
  | some m =>
      rw [← Option.some.inj h]
      exact ⟨.refl, fun _ => Iff.rfl⟩

/-- A target that is still linked after `os.Remove` is one that was and is stuck. -/
theorem execTree_removeTarget {r : Removal}
    (h : execTree stuck (.removeTarget target) r d = some d') :
    UnharmedAt target d d' ∧ d'.handle = d.handle ∧
      (d'.Linked target → d.Linked target ∧ stuck target = true) := by
  cases r with
  | removed =>
      obtain ⟨-, ⟨⟩⟩ := Option.ite_none_right_eq_some.mp h
      refine ⟨unharmed_erase, rfl, ?_⟩
      rintro ⟨i, hi, -⟩
      simp at hi
  | absent =>
      obtain ⟨hnone, ⟨⟩⟩ := Option.ite_none_right_eq_some.mp h
      refine ⟨.refl, rfl, ?_⟩
      rintro ⟨i, hi, -⟩
      simp [hnone] at hi
  | failed m =>
      obtain ⟨hstuck, ⟨⟩⟩ := Option.ite_none_left_eq_some.mp h
      refine ⟨.refl, rfl, fun hl => ⟨hl, ?_⟩⟩
      obtain ⟨i, hi, -⟩ := hl
      simpa [Disk.isFile, hi] using hstuck

theorem execTree_openTarget (h : execTree stuck (.openTarget target) none d = some d')
    (hnot : ¬ d.Linked target) :
    UnharmedAt target d d' ∧ d'.Apart target := by
  simp only [execTree] at h
  split at h
  · contradiction
  · rename_i i hi
    rw [← Option.some.inj h]
    have hc : ¬ d.Chunky i := fun hc => hnot ⟨i, hi, hc⟩
    refine ⟨unharmed_truncate hc, hnot, fun j hj => ?_⟩
    simp only [Disk.truncate, Function.update_self, Option.some.injEq] at hj
    exact hj ▸ hc
  · obtain ⟨-, ⟨⟩⟩ := Option.ite_none_right_eq_some.mp h
    exact ⟨unharmed_create, apart_create d target⟩

/-- Whether a command, if it touches the destination, writes to the open target,
removes it or sets its mode. -/
def Cmd.aims (target : Str) : Cmd → Bool
  | .dest (.writeTarget p _) | .dest (.removeTarget p) | .dest (.chmodTarget p _) => p == target
  | .dest _ | .link _ _ => false
  | _ => true

theorem aims_of_destFree {c : Cmd} (h : c.destFree = true) : c.aims target = true := by
  cases c <;> first | rfl | contradiction

theorem diskExec_aims {c : Cmd} {r : c.Resp} (hc : c.aims target = true) (hd : d.Apart target)
    (h : diskExec stuck c r d = some d') : UnharmedAt target d d' ∧ d'.Apart target := by
  cases c with
  | dest c =>
      cases c with
      | writeTarget p data =>
          obtain rfl : p = target := by simpa [Cmd.aims] using hc
          cases r with
          | none =>
              rw [← Option.some.inj h]
              exact ⟨unharmed_append hd, hd.append⟩
          | some e =>
              simp only [diskExec, execTree] at h
              obtain ⟨-, ⟨⟩⟩ := Option.ite_none_right_eq_some.mp h
              exact ⟨unharmed_append hd, hd.append⟩
      | removeTarget p =>
          obtain rfl : p = target := by simpa [Cmd.aims] using hc
          obtain ⟨hun, hhandle, hl⟩ := execTree_removeTarget h
          refine ⟨hun, fun hd' => hd.name (hl hd').1, fun i hi => ?_⟩
          rw [hhandle] at hi
          rw [chunky_of_chunks hun.chunks]
          exact hd.handle i hi
      | chmodTarget p perm =>
          rw [← Option.some.inj h]
          exact ⟨.refl, hd⟩
      | mkdirAll p => contradiction
      | openTarget p => contradiction
  | link h p => contradiction
  | store c | quota c | job c | net c =>
      rw [diskExec_destFree rfl h]
      exact ⟨.refl, hd⟩

end Effects

/-! ## Where a run can write -/

section Runs

variable {H : Sha256} {J : Marshal} {opts : Options} {stuck : Str → Bool} {target path : Str}
variable {d : Disk} {entry : FileEntry} {destDir : Str}

/-- What the target of a file has to be for the chunks' sake: removed before it is
opened, or no name of a chunk. -/
def Harmless (opts : Options) (stuck : Str → Bool) (target : Str) (d : Disk) : Prop :=
  (opts.overwrite = true ∧ stuck target = false) ∨ ¬ d.Linked target

/-- A stretch of the run that stays away from the chunks and leaves a target that
is no name of one. -/
abbrev Clears (stuck : Str → Bool) (target : Str) (d : Disk) {α : Type} (p : NodeM α) : Prop :=
  Post (diskSystem stuck) () (fun _ d' => UnharmedAt target d d' ∧ ¬ d'.Linked target) p d

theorem post_removeOld (h : Harmless opts stuck target d) :
    Clears stuck target d (removeOld opts target) := by
  unfold removeOld
  cases ho : opts.overwrite with
  | true =>
      apply Post.perform
      intro r d' hx
      obtain ⟨hun, -, hl⟩ := execTree_removeTarget hx
      refine ⟨hun, fun hd' => ?_⟩
      obtain ⟨hd, hstuck⟩ := hl hd'
      cases h with
      | inl h => simp [hstuck] at h
      | inr h => exact h hd
  | false =>
      refine ⟨.refl, ?_⟩
      simpa [Harmless, ho] using h

theorem post_materializeFile (h : Harmless opts stuck target d) :
    Clears stuck target d (materializeFile H opts entry target) := by
  refine (post_removeOld h).seq fun _ d1 h1 => ?_
  obtain ⟨hun1, hnot1⟩ := h1
  apply Post.perform
  intro r d2 hx
  cases r with
  | some msg =>
      rw [← Option.some.inj hx]
      exact ⟨hun1, hnot1⟩
  | none =>
      have hopen : execTree stuck (.openTarget target) none d1 = some d2 := hx
      obtain ⟨hun2, happ2⟩ := execTree_openTarget hopen hnot1
      -- from here on every command goes through the handle
      have hcopy : Post (diskSystem stuck) ()
          (fun _ d' => UnharmedAt target d d' ∧ d'.Apart target)
          (copyChunks H entry.path target 0 0 entry.chunks) d2 := by
        have honly : (copyChunks H entry.path target 0 0 entry.chunks).Only
            fun c : Cmd => c.aims target = true :=
          only_copyChunks (fun _ => aims_of_destFree) (fun b => by simp [Cmd.aims])
            (by simp [Cmd.aims]) ..
        refine honly.post ?_ ⟨hun1.trans hun2, happ2⟩
        intro c r s s' hc hs hx
        obtain ⟨hun, happ⟩ := diskExec_aims hc hs.2 hx
        exact ⟨hs.1.trans hun, happ⟩
      refine hcopy.seq fun r d3 h3 => ?_
      cases r with
      | error e => exact ⟨h3.1, h3.2.name⟩
      | ok written =>
          dsimp only
          split <;> exact ⟨h3.1, h3.2.name⟩

theorem post_copyFile (h : Harmless opts stuck target d) :
    Clears stuck target d (copyFile H opts entry target) := by
  refine (post_materializeFile h).seq fun r d1 h1 => ?_
  cases r with
  | some e => exact h1
  | none =>
      dsimp only
      split
      · cases parseOctal entry.mode with
        | none => exact h1
        | some perm =>
            apply Post.perform
            intro r d2 hx
            rw [← Option.some.inj hx]
            exact h1
      · exact h1

theorem post_destFree {α : Type} {p : NodeM α} (hp : p.Only fun c : Cmd => c.destFree = true) :
    Post (diskSystem stuck) () (fun _ d' => d' = d) p d := by
  refine hp.post ?_ rfl
  intro c r s s' hc hs hx
  rw [diskExec_destFree hc hx, hs]

/-- Only a hard link can leave the target a name of a chunk. -/
theorem post_placeFile (h : Harmless opts stuck target d) :
    Post (diskSystem stuck) ()
      (fun _ d' => UnharmedAt target d d' ∧ (opts.strategy = .copy → ¬ d'.Linked target))
      (placeFile H opts entry target) d := by
  rw [placeFile]
  cases hlink : linkChunk opts entry with
  | none => exact (post_copyFile h).mono fun _ _ hc => ⟨hc.1, fun _ => hc.2⟩
  | some c =>
      have hhard : opts.strategy ≠ .copy := by
        intro hcopy
        rw [linkChunk_copy hcopy] at hlink
        contradiction
      have hcopyFile {d1 : Disk} (h1 : UnharmedAt target d d1) (hd1 : Harmless opts stuck target d1) :
          Post (diskSystem stuck) ()
            (fun _ d' => UnharmedAt target d d' ∧ (opts.strategy = .copy → ¬ d'.Linked target))
            (copyFile H opts entry target) d1 :=
        (post_copyFile hd1).mono fun _ _ hc => ⟨h1.trans hc.1, fun _ => hc.2⟩
      refine (post_destFree (only_verifyCachedChunk H c.hash)).seq fun r d1 h1 => ?_
      subst h1
      cases r with
      | some e => exact ⟨.refl, fun hcopy => absurd hcopy hhard⟩
      | none =>
          refine (post_destFree (only_hasChunk rfl)).seq fun r d2 h2 => ?_
          subst h2
          cases r with
          | false => exact hcopyFile .refl h
          | true =>
              refine (post_removeOld h).seq fun _ d3 h3 => ?_
              apply Post.perform
              intro r d4 hx
              cases r with
              | none =>
                  simp only [diskSystem, diskExec, linkInode] at hx
                  split at hx
                  · obtain ⟨-, ⟨⟩⟩ := Option.ite_none_right_eq_some.mp hx
                    exact ⟨h3.1.trans unharmed_insert, fun hcopy => absurd hcopy hhard⟩
                  · contradiction
              | some m =>
                  rw [← Option.some.inj hx]
                  exact hcopyFile h3.1 (.inr h3.2)

/-- The targets of the entries, as far as their paths can be joined. -/
def targetsIn (destDir : Str) (entries : List FileEntry) : List Str :=
  entries.filterMap fun e => (safeJoin destDir e.path).toOption

/-- What the targets of a list of files have to be for the chunks' sake.  A file
that is not removed first must not be linked, and nor may a link be made there
that a later entry with the same target would write through. -/
def HarmlessAll (opts : Options) (stuck : Str → Bool) (targets : List Str) (d : Disk) : Prop :=
  ∀ p ∈ targets, (opts.overwrite = true ∧ stuck p = false) ∨
    (¬ d.Linked p ∧ (opts.strategy = .copy ∨ targets.count p = 1))

variable {targets : List Str}

theorem HarmlessAll.head (h : HarmlessAll opts stuck (target :: targets) d) :
    Harmless opts stuck target d :=
  (h target List.mem_cons_self).imp_right And.left

theorem HarmlessAll.tail {d' : Disk} (h : HarmlessAll opts stuck (target :: targets) d)
    (hother : ∀ p, p ≠ target → (d'.Linked p ↔ d.Linked p))
    (hcopy : opts.strategy = .copy → ¬ d'.Linked target) : HarmlessAll opts stuck targets d' := by
  intro p hp
  refine (h p (List.mem_cons_of_mem _ hp)).imp_right fun ⟨hnot, hcount⟩ => ?_
  have hpos : 0 < targets.count p := List.count_pos_iff.mpr hp
  by_cases he : p = target
  · subst he
    rw [List.count_cons_self] at hcount
    have hstrat : opts.strategy = .copy := hcount.resolve_right (by omega)
    exact ⟨hcopy hstrat, .inl hstrat⟩
  · rw [List.count_cons_of_ne (Ne.symm he)] at hcount
    exact ⟨fun hl => hnot ((hother p he).mp hl), hcount⟩

theorem HarmlessAll.congr {d' : Disk} (h : HarmlessAll opts stuck targets d)
    (hsame : ∀ p, d'.Linked p ↔ d.Linked p) : HarmlessAll opts stuck targets d' := by
  intro p hp
  rw [hsame p]
  exact h p hp

theorem post_materializeFiles {entries : List FileEntry}
    (h : HarmlessAll opts stuck (targetsIn destDir entries) d) :
    Post (diskSystem stuck) () (fun _ d' => Unharmed d d')
      (materializeFiles H opts destDir entries) d := by
  induction entries generalizing d with
  | nil => exact .refl
  | cons entry entries ih =>
      apply Post.perform
      intro r d1 hx
      rw [← Option.some.inj hx]
      cases r with
      | some deadline => exact .refl
      | none =>
          cases hjoin : safeJoin destDir entry.path with
          | error e => exact .refl
          | ok target =>
              have htargets : targetsIn destDir (entry :: entries) =
                  target :: targetsIn destDir entries := by
                simp [targetsIn, hjoin, Except.toOption]
              rw [htargets] at h
              apply Post.perform
              intro r d2 hx
              obtain ⟨hun2, hlinked⟩ := execTree_mkdirAll hx
              cases r with
              | some m => exact hun2
              | none =>
                  have h2 := h.congr hlinked
                  refine (post_placeFile h2.head).seq fun r d3 h3 => ?_
                  obtain ⟨hun3, hcopy⟩ := h3
                  have hun : Unharmed d d3 := hun2.trans hun3.toUnharmed
                  cases r with
                  | some e => exact hun
                  | none =>
                      have hrest := ih (h2.tail hun3.other hcopy)
                      exact hrest.mono fun _ _ hr => hun.trans hr

end Runs

/-! ## Calls -/

/-- A call of `Materialize`, and where `os.Remove` cannot remove a file while it
runs. -/
structure Call where
  opts : Options
  manifest : ArtifactManifest
  destDir : Str
  stuck : Str → Bool

/-- One call, to whatever result. -/
def Call.Takes (H : Sha256) (J : Marshal) (c : Call) (d d' : Disk) : Prop :=
  ∃ res, Runs (diskSystem c.stuck) () (materialize H J c.opts c.manifest c.destDir) d res d'

/-- Each target of the call can be removed and will be, or it is not a name of a
chunk file and gets linked at most as the last thing that happens to it. -/
def Call.Spares (c : Call) (d : Disk) : Prop :=
  HarmlessAll c.opts c.stuck (targetsIn c.destDir c.manifest.files) d

theorem Call.unharmed {H : Sha256} {J : Marshal} {c : Call} {d d' : Disk} (hs : c.Spares d)
    (h : c.Takes H J d d') : Unharmed d d' := by
  obtain ⟨res, hrun⟩ := h
  suffices hpost : Post (diskSystem c.stuck) () (fun _ d' => Unharmed d d')
      (materialize H J c.opts c.manifest c.destDir) d from hpost.of_runs hrun
  rw [materialize]
  cases validate H J c.manifest with
  | error e => exact .refl
  | ok u =>
      apply Post.perform
      intro r d1 hx
      obtain ⟨hun1, hlinked⟩ := execTree_mkdirAll hx
      cases r with
      | some m => exact hun1
      | none =>
          have hfiles := post_materializeFiles (H := H) (hs.congr hlinked)
          exact hfiles.mono fun _ _ hr => hun1.trans hr

/-- In every sequence of calls that meet `Call.Spares`, whatever they return, each
chunk file keeps its content. -/
theorem chunks_unharmed (H : Sha256) (J : Marshal) {d d' : Disk}
    (hruns : Relation.ReflTransGen (fun d d' => ∃ c : Call, c.Spares d ∧ c.Takes H J d d') d d') :
    ∀ h, d'.chunk h = d.chunk h := by
  intro h
  induction hruns with
  | refl => rfl
  | tail _ hstep ih =>
      obtain ⟨c, hs, hc⟩ := hstep
      rw [(Call.unharmed hs hc).chunk h, ih]

/-! ## A link that is written through -/

/-- What the disk answers when nothing goes wrong that need not. -/
def Disk.answer (stuck : Str → Bool) : (c : Cmd) → Disk → c.Resp
  | .store (.statChunk h), d =>
      match d.chunk h with
      | some b => .size b.length
      | none => .absent
  | .store (.openChunk h), d =>
      match d.chunk h with
      | some b => .content b
      | none => .absent
  | .store (.readChunk _), _ => none
  | .job .ctxErr, _ => none
  | .dest (.mkdirAll _), _ => none
  | .dest (.removeTarget p), d =>
      match d.tree.lookup p with
      | some _ => if stuck p then .failed (str "operation not permitted") else .removed
      | none => .absent
  | .dest (.openTarget _), _ => none
  | .dest (.writeTarget _ _), _ => none
  | .dest (.chmodTarget _ _), _ => none
  | .link _ p, d => if d.tree.lookup p = none then none else some (str "file exists")
  -- the materializer has no other commands
  | c, _ => (World.originOnly []).answer c emptyNode

/-- A digest that belongs to one content only. -/
def linkHash : Sha256 := .numbering [[1]]

/-- A disk whose only chunk file is a name of inode 0. -/
def linkDisk : Disk where
  chunks := (∅ : AList fun _ : Str => Nat).insert zeroHash 0
  tree := ∅
  content := fun _ => [1]
  handle := fun _ => none
  next := 1
  chunks_lt := by
    intro h i hi
    by_cases he : h = zeroHash
    · subst he
      rw [AList.lookup_insert] at hi
      cases hi
      decide
    · rw [AList.lookup_insert_ne he] at hi
      contradiction

/-- A hard-link call for a file that is this chunk. -/
def linkCall (overwrite stuck : Bool) : Call where
  opts := ⟨.hardLink, overwrite, true⟩
  manifest := oneFileManifest linkHash (fun _ => []) ⟨str "f", 1, [], [⟨zeroHash, 0, 1⟩]⟩
  destDir := str "/d"
  stuck := fun _ => stuck

/-- The disk a call leaves. -/
def Call.leaves (c : Call) (d : Disk) : Disk :=
  (materialize linkHash (fun _ => []) c.opts c.manifest c.destDir).finalState
    (diskSystem c.stuck) () (Disk.answer c.stuck) d

theorem Call.takes_leaves (c : Call) (d : Disk) (res : Option Err)
    (h : ((materialize linkHash (fun _ => []) c.opts c.manifest c.destDir).runWith
      (diskSystem c.stuck) () (Disk.answer c.stuck) d).map Prod.fst = some res) :
    c.Takes linkHash (fun _ => []) d (c.leaves d) :=
  ⟨res, runs_finalState h⟩

theorem linkDisk_verified {h : Str} {b : Bytes} (hb : linkDisk.chunk h = some b) :
    computeHash linkHash b = h := by
  by_cases he : h = zeroHash
  · subst he
    simp only [Disk.chunk, linkDisk, AList.lookup_insert, Option.map_some, Option.some.injEq] at hb
    subst hb
    decide +kernel
  · simp only [Disk.chunk, linkDisk, AList.lookup_insert_ne he] at hb
    contradiction

/-- Two calls that overwrite, the second over the link of the first. -/
theorem chunks_unharmed_relink :
    ((linkCall true false).leaves linkDisk).tree.lookup (str "/d/f") = some (.file 0) ∧
      ∀ h, ((linkCall true false).leaves ((linkCall true false).leaves linkDisk)).chunk h =
        linkDisk.chunk h := by
  have hs : ∀ d : Disk, (linkCall true false).Spares d := fun _ _ _ => .inl ⟨rfl, rfl⟩
  have h₁ := (linkCall true false).takes_leaves linkDisk none (by decide +kernel)
  have h₂ := (linkCall true false).takes_leaves ((linkCall true false).leaves linkDisk) none
    (by decide +kernel)
  exact ⟨by decide +kernel,
    chunks_unharmed linkHash (fun _ => []) (.tail (.single ⟨_, hs _, h₁⟩) ⟨_, hs _, h₂⟩)⟩

/-- The error of a copy that finds the chunk empty. -/
def emptiedChunk : Err := .materializeFile (str "f") (.shortWrite zeroHash 1 0)

/-- The same hard-link call twice.  Without `Overwrite`, or with it where the file
cannot be removed, the second call finds its own link, falls back to a copy and
truncates the chunk. -/
theorem chunk_truncated :
    (∀ h b, linkDisk.chunk h = some b → computeHash linkHash b = h) ∧
    ((linkCall false false).Takes linkHash (fun _ => []) linkDisk
        ((linkCall false false).leaves linkDisk) ∧
      (linkCall false false).Takes linkHash (fun _ => []) ((linkCall false false).leaves linkDisk)
        ((linkCall false false).leaves ((linkCall false false).leaves linkDisk)) ∧
      ((linkCall false false).leaves ((linkCall false false).leaves linkDisk)).chunk zeroHash =
        some []) ∧
    ((linkCall true true).Takes linkHash (fun _ => []) linkDisk
        ((linkCall true true).leaves linkDisk) ∧
      (linkCall true true).Takes linkHash (fun _ => []) ((linkCall true true).leaves linkDisk)
        ((linkCall true true).leaves ((linkCall true true).leaves linkDisk)) ∧
      ((linkCall true true).leaves ((linkCall true true).leaves linkDisk)).chunk zeroHash =
        some []) := by
  refine ⟨fun _ _ => linkDisk_verified, ⟨?_, ?_, ?_⟩, ?_, ?_, ?_⟩
  · exact Call.takes_leaves _ _ none (by decide +kernel)
  · exact Call.takes_leaves _ _ (some emptiedChunk) (by decide +kernel)
  · decide +kernel
  · exact Call.takes_leaves _ _ none (by decide +kernel)
  · exact Call.takes_leaves _ _ (some emptiedChunk) (by decide +kernel)
  · decide +kernel

end Spider
