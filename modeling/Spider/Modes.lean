import Spider.Strategies

/-!
# Spider.Modes

Which permissions the files have that `Materialize` creates.

The mode of an entry is parsed as a 32-bit octal number and handed to `os.Chmod` as an
`os.FileMode`, whose bits 23, 22 and 20 are setuid, setgid and sticky.  So the nine low
bits arrive as they are, and three of the high bits as special bits
(`noSpecialBits_syscallMode_iff`).  A hard link has the permissions of the chunk file
instead, whatever the mode says.
-/

namespace Spider

open Conc

/-! ## Bits -/

/-- No setuid, setgid or sticky bit. -/
def NoSpecialBits (perm : Nat) : Prop :=
  perm.testBit 11 = false ∧ perm.testBit 10 = false ∧ perm.testBit 9 = false

/-- The bits of an `os.FileMode` that mean setuid, setgid and sticky are zero. -/
def SpecialBitsClear (mode : Nat) : Prop :=
  mode.testBit 23 = false ∧ mode.testBit 22 = false ∧ mode.testBit 20 = false

theorem syscallMode_mod (mode : Nat) : syscallMode mode % 0o1000 = mode % 0o1000 := by
  rw [syscallMode]
  split <;> split <;> split <;> omega

theorem noSpecialBits_syscallMode_iff {mode : Nat} :
    NoSpecialBits (syscallMode mode) ↔ SpecialBitsClear mode := by
  rw [NoSpecialBits, SpecialBitsClear, syscallMode]
  generalize mode.testBit 23 = u, mode.testBit 22 = g, mode.testBit 20 = v
  have hlow : mode % 0o1000 < 0o1000 := Nat.mod_lt _ (by decide)
  generalize mode % 0o1000 = low at hlow
  simp only [Nat.testBit_eq_decide_div_mod_eq, decide_eq_false_iff_not]
  cases u <;> cases g <;> cases v <;> simp <;> omega

/-- A file that has no special bits, and the permissions its mode says if that is a
number. -/
def AsDeclared (mode : Str) (perm : Nat) : Prop :=
  NoSpecialBits perm ∧ ∀ n, parseOctal mode = some n → perm % 0o1000 = n % 0o1000

/-- A mode that a file can be given: without the special bits, or 0644 if the file is a
hard link. -/
def Grantable (links : Bool) (opts : Options) (f : FileEntry) : Prop :=
  ∀ n, parseOctal f.mode = some n →
    if links = true ∧ (linkChunk opts f).isSome = true then n % 0o1000 = 0o644
    else SpecialBitsClear n

theorem asDeclared_placedPerm_iff {links : Bool} {opts : Options} {f : FileEntry}
    (hopts : opts.preservePerms = true) :
    AsDeclared f.mode (placedPerm links opts f) ↔ Grantable links opts f := by
  have hplain : NoSpecialBits 0o644 := ⟨rfl, rfl, rfl⟩
  rw [AsDeclared, Grantable, placedPerm]
  split
  · constructor
    · exact fun h n hn => (h.2 n hn).symm
    · exact fun h => ⟨hplain, fun n hn => (h n hn).symm⟩
  · cases hparse : parseOctal f.mode with
    | none =>
        have hperm : copiedPerm opts f = 0o644 := by simp [copiedPerm, hparse]
        simp [hperm, hplain]
    | some n =>
        have hne : f.mode ≠ [] := by
          intro hnil
          rw [hnil] at hparse
          contradiction
        have hperm : copiedPerm opts f = syscallMode n := by
          simp [copiedPerm, hopts, hne, hparse]
        simp [hperm, syscallMode_mod, noSpecialBits_syscallMode_iff]

/-! ## What a run can grant -/

/-- The permissions that a command gives to a file explicitly. -/
def Cmd.grants (A : Nat → Prop) : Cmd → Prop
  | .dest (.chmodTarget _ perm) => A perm
  | _ => True

theorem grants_of_destFree {A : Nat → Prop} {c : Cmd} (h : c.destFree = true) : c.grants A := by
  cases c with
  | dest c => contradiction
  | _ => trivial

/-- The files that were not in `d0` have these permissions. -/
def NewPerms (A : Nat → Prop) (d₀ d : Dest) : Prop :=
  ∀ p data perm, d₀.entries.lookup p = none → d.entries.lookup p = some (.file data perm) → A perm

section Grants

variable {A : Nat → Prop} {d0 d d' : Dest} {H : Sha256} {J : Marshal} {opts : Options}
variable {entry : FileEntry} {target destDir : Str}

theorem NewPerms.of_lookup (h : NewPerms A d0 d)
    (hsub : ∀ p data perm, d'.entries.lookup p = some (.file data perm) →
      ∃ old, d.entries.lookup p = some (.file old perm)) : NewPerms A d0 d' := by
  intro p data perm hnew hp
  obtain ⟨old, hold⟩ := hsub p data perm hp
  exact h p old perm hnew hold

theorem NewPerms.insert (h : NewPerms A d0 d) {q : Str} {content : Bytes} {mode : Nat}
    {opened : List Str} (hmode : d0.entries.lookup q = none → A mode) :
    NewPerms A d0 ⟨d.entries.insert q (.file content mode), opened⟩ := by
  intro p data perm hnew hp
  by_cases heq : p = q
  · rw [heq, AList.lookup_insert, Option.some.injEq, Entry.file.injEq] at hp
    rw [← hp.2]
    exact hmode (heq ▸ hnew)
  · rw [AList.lookup_insert_ne heq] at hp
    exact h p data perm hnew hp

theorem NewPerms.append (h : NewPerms A d0 d) {q : Str} {data : Bytes} :
    NewPerms A d0 (d.append q data) := by
  unfold Dest.append
  split
  · rename_i content perm hlook
    exact h.insert fun hnew => h q content perm hnew hlook
  · exact h

/-- A file is opened with the permissions 0644 or keeps those it has, so new permissions
come from `chmod`. -/
theorem NewPerms.execDest (hA : A 0o644) {c : DestCmd} {r : c.Resp}
    (hc : (Cmd.dest c).grants A) (h : NewPerms A d0 d) (hx : execDest c r d = some d') :
    NewPerms A d0 d' := by
  cases c with
  | mkdirAll p =>
      cases r with
      | none =>
          simp only [Spider.execDest, Option.ite_none_left_eq_some, Option.some.injEq] at hx
          rw [← hx.2]
          refine h.of_lookup fun q data perm hq => ⟨data, ?_⟩
          rw [lookup_mkdirs] at hq
          split at hq
          · cases hq
          · exact hq
      | some msg =>
          rw [← Option.some.inj hx]
          exact h
  | removeTarget p =>
      cases r with
      | removed =>
          simp only [Spider.execDest, Option.ite_none_right_eq_some, Option.some.injEq] at hx
          rw [← hx.2]
          refine h.of_lookup fun q data perm hq => ⟨data, ?_⟩
          by_cases heq : q = p
          · rw [heq, AList.lookup_erase] at hq
            contradiction
          · rwa [AList.lookup_erase_ne heq] at hq
      | absent =>
          simp only [Spider.execDest, Option.ite_none_right_eq_some, Option.some.injEq] at hx
          rw [← hx.2]
          exact h
      | failed msg =>
          rw [← Option.some.inj hx]
          exact h
  | openTarget p =>
      cases r with
      | none =>
          simp only [Spider.execDest] at hx
          split at hx
          · contradiction
          · rename_i content perm hlook
            rw [← Option.some.inj hx]
            exact h.insert fun hnew => h p content perm hnew hlook
          · rw [Option.ite_none_right_eq_some, Option.some.injEq] at hx
            rw [← hx.2]
            exact h.insert fun _ => hA
      | some msg =>
          rw [← Option.some.inj hx]
          exact h
  | writeTarget p data =>
      cases r with
      | none =>
          rw [← Option.some.inj hx]
          exact h.append
      | some e =>
          simp only [Spider.execDest, Option.ite_none_right_eq_some, Option.some.injEq] at hx
          rw [← hx.2]
          exact h.append
  | chmodTarget p perm =>
      cases r with
      | none =>
          simp only [Spider.execDest] at hx
          split at hx
          · rw [← Option.some.inj hx]
            exact h.insert fun _ => hc
          · contradiction
      | some msg =>
          rw [← Option.some.inj hx]
          exact h

theorem NewPerms.step (hA : A 0o644) {t : Tid} {s s' : Node} {c : Cmd} {r : c.Resp}
    (hc : c.grants A) (h : NewPerms A d0 s.dest) (hx : nodeSystem.exec t c r s = some s') :
    NewPerms A d0 s'.dest := by
  cases hfree : c.destFree with
  | true =>
      rw [nodeExec_destFree hfree hx]
      exact h
  | false =>
      cases c with
      | dest c =>
          obtain ⟨d', hd', rfl⟩ := nodeExec_dest hx
          exact h.execDest hA hc hd'
      | link hash p =>
          obtain ⟨d', hd', rfl⟩ := nodeExec_link hx
          cases r with
          | none =>
              simp only [execLink] at hd'
              split at hd'
              · rw [Option.ite_none_right_eq_some, Option.some.injEq] at hd'
                rw [← hd'.2]
                exact h.insert fun _ => hA
              · contradiction
          | some msg =>
              rw [← Option.some.inj hd']
              exact h
      | _ => contradiction

theorem grants_copyFile (hmode : ∀ n, parseOctal entry.mode = some n → A (syscallMode n)) :
    (copyFile H opts entry target).Only (Cmd.grants A) := by
  have hremove : (Cmd.dest (.removeTarget target)).grants A := trivial
  refine Prog.Only.bind ((only_removeOld hremove).bind fun _ => Prog.only_call trivial fun r => ?_)
    fun r => ?_
  · cases r with
    | some msg => exact Prog.only_pure _
    | none =>
        refine (only_copyChunks (fun _ => grants_of_destFree) (fun _ => trivial) hremove ..).bind
          fun res => ?_
        cases res with
        | error e => exact Prog.only_pure _
        | ok written =>
            dsimp only
            split <;> exact Prog.only_pure _
  · cases r with
    | some e => exact Prog.only_pure _
    | none =>
        dsimp only
        split
        · cases hparse : parseOctal entry.mode with
          | none => exact Prog.only_pure _
          | some n => exact Prog.only_call (hmode n hparse) fun _ => Prog.only_pure _
        · exact Prog.only_pure _

theorem grants_placeFile (hmode : ∀ n, parseOctal entry.mode = some n → A (syscallMode n)) :
    (placeFile H opts entry target).Only (Cmd.grants A) := by
  rw [placeFile]
  split
  · exact grants_copyFile hmode
  · refine ((only_verifyCachedChunk ..).mono fun _ => grants_of_destFree).bind fun r => ?_
    cases r with
    | some e => exact Prog.only_pure _
    | none =>
        refine (only_hasChunk trivial).bind fun present => ?_
        cases present with
        | false => exact grants_copyFile hmode
        | true =>
            refine (only_removeOld trivial).bind fun _ => Prog.only_call trivial fun r => ?_
            cases r with
            | none => exact Prog.only_pure _
            | some msg => exact grants_copyFile hmode

theorem grants_materializeFiles {entries : List FileEntry}
    (hmode : ∀ f ∈ entries, ∀ n, parseOctal f.mode = some n → A (syscallMode n)) :
    (materializeFiles H opts destDir entries).Only (Cmd.grants A) := by
  induction entries with
  | nil => exact Prog.only_pure _
  | cons f fs ih =>
      obtain ⟨hf, hfs⟩ := List.forall_mem_cons.mp hmode
      refine Prog.only_call trivial fun deadline => ?_
      cases deadline with
      | some d => exact Prog.only_pure _
      | none =>
          cases safeJoin destDir f.path with
          | error e => exact Prog.only_pure _
          | ok target =>
              refine Prog.only_call trivial fun made => ?_
              cases made with
              | some msg => exact Prog.only_pure _
              | none =>
                  refine (grants_placeFile hf).bind fun r => ?_
                  cases r with
                  | some e => exact Prog.only_pure _
                  | none => exact ih hfs

theorem grants_materialize {m : ArtifactManifest}
    (hmode : ∀ f ∈ m.files, ∀ n, parseOctal f.mode = some n → A (syscallMode n)) :
    (materialize H J opts m destDir).Only (Cmd.grants A) := by
  rw [materialize]
  split
  · exact Prog.only_pure _
  · refine Prog.only_call trivial fun made => ?_
    cases made with
    | some msg => exact Prog.only_pure _
    | none => exact grants_materializeFiles hmode

/-- Whatever fails, the files that a run of `Materialize` creates have the permissions
0644 or those of one of the modes. -/
theorem newPerms_of_runs {m : ArtifactManifest} {t : Tid} {s s' : Node} {r : Option Err}
    (hA : A 0o644) (hmode : ∀ f ∈ m.files, ∀ n, parseOctal f.mode = some n → A (syscallMode n))
    (hrun : Runs nodeSystem t (materialize H J opts m destDir) s r s') :
    NewPerms A s.dest s'.dest := by
  have hpost : Post nodeSystem t (fun _ s' => NewPerms A s.dest s'.dest)
      (materialize H J opts m destDir) s := by
    refine (grants_materialize hmode).post (fun c r x x' hc h hx => h.step hA hc hx) ?_
    intro p data perm hnew hp
    rw [hnew] at hp
    contradiction
  exact hpost.of_runs hrun

end Grants

/-! ## The permissions of placed files -/

section Placed

variable {destDir : Str} {m : ArtifactManifest}

theorem mem_of_placeable {done rest : List FileEntry} {f : FileEntry}
    (h : f ∈ placeable done rest) : f ∈ rest := by
  induction rest generalizing done with
  | nil => contradiction
  | cons e es ih =>
      rw [placeable] at h
      split at h
      · cases List.mem_cons.mp h with
        | inl heq => exact heq ▸ List.mem_cons_self
        | inr hrest => exact List.mem_cons_of_mem e (ih hrest)
      · contradiction

theorem mem_of_reached {f : FileEntry} (h : f ∈ reached destDir m) : f ∈ m.files := by
  rw [reached] at h
  split at h
  · contradiction
  · exact mem_of_placeable h

end Placed

/-- The node after the file with this mode was made. -/
def oneByteRun (strategy : Strategy) (mode : Str) : Node :=
  (materialize oneDigest (fun _ => []) ⟨strategy, true, true⟩ (oneByteManifest mode)
    (str "/d")).finalState (soundDiskSystem true) 0 (World.originOnly []).answer oneByteNode

end Spider
