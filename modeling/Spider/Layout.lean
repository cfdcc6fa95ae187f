import Spider.Manifest

/-!
# Spider.Layout

The layout of an accepted manifest, in exact integers.

`Validate` adds sizes in `int64`, which wraps around.  `SoundLayout` says what
its checks are meant to establish over the integers; an accepted manifest has
it exactly when no exact sum leaves the `int64` range
(`soundLayout_iff_noOverflow`).
-/

namespace Spider

/-! ## Exact sums -/

/-- The sum of `int64` sizes over the integers. -/
def exactSum (sizes : List Int64) : Int := (sizes.map Int64.toInt).sum

@[simp] theorem exactSum_nil : exactSum [] = 0 := rfl

@[simp] theorem exactSum_cons (s : Int64) (sizes : List Int64) :
    exactSum (s :: sizes) = s.toInt + exactSum sizes := by
  simp [exactSum]

theorem exactSum_append (a b : List Int64) : exactSum (a ++ b) = exactSum a + exactSum b := by
  simp [exactSum]

theorem exactSum_nonneg {sizes : List Int64} (h : ∀ s ∈ sizes, 0 ≤ s.toInt) :
    0 ≤ exactSum sizes := by
  apply List.sum_nonneg
  intro x hx
  obtain ⟨s, hs, rfl⟩ := List.mem_map.mp hx
  exact h s hs

/-- An addition that stays in range is the exact one. -/
theorem toInt_add_of_lt {a b : Int64} (ha : 0 ≤ a.toInt) (hb : 0 ≤ b.toInt)
    (h : a.toInt + b.toInt < 2 ^ 63) : (a + b).toInt = a.toInt + b.toInt := by
  rw [Int64.toInt_add, Int.bmod_eq_of_le (by omega) (by omega)]

theorem toInt_lt (a : Int64) : a.toInt < 2 ^ 63 := by
  have := Int64.toInt_lt a
  omega

/-- A running sum whose exact value stays in range is the exact sum. -/
theorem wrapSum_exact {acc : Int64} {sizes : List Int64} (hacc : 0 ≤ acc.toInt)
    (hs : ∀ s ∈ sizes, 0 ≤ s.toInt) (h : acc.toInt + exactSum sizes < 2 ^ 63) :
    (wrapSum acc sizes).toInt = acc.toInt + exactSum sizes := by
  induction sizes generalizing acc with
  | nil => simp [wrapSum]
  | cons s sizes ih =>
      rw [exactSum_cons] at h ⊢
      have hs0 : 0 ≤ s.toInt := hs s List.mem_cons_self
      have htl : ∀ t ∈ sizes, 0 ≤ t.toInt := fun t ht => hs t (List.mem_cons_of_mem _ ht)
      have hnn : 0 ≤ exactSum sizes := exactSum_nonneg htl
      have hadd : (acc + s).toInt = acc.toInt + s.toInt := toInt_add_of_lt hacc hs0 (by omega)
      have hrec := @ih (acc + s) (by omega) htl (by omega)
      have hstep : wrapSum acc (s :: sizes) = wrapSum (acc + s) sizes := rfl
      rw [hstep, hrec]
      omega

/-- Offsets that are the wrapped running sums are the exact ones, as long as
the exact sum stays in range. -/
theorem Tiled.offset_exact {acc : Int64} {pre post : List ChunkRef} {c : ChunkRef}
    (h : Tiled acc (pre ++ c :: post)) (hacc : 0 ≤ acc.toInt)
    (hs : ∀ d ∈ pre, 0 ≤ d.size.toInt)
    (hsum : acc.toInt + exactSum (pre.map ChunkRef.size) < 2 ^ 63) :
    c.offset.toInt = acc.toInt + exactSum (pre.map ChunkRef.size) := by
  induction pre generalizing acc with
  | nil => simp [h.1]
  | cons d pre ih =>
      rw [List.map_cons, exactSum_cons] at hsum ⊢
      have hd : 0 ≤ d.size.toInt := hs d List.mem_cons_self
      have htl : ∀ e ∈ pre, 0 ≤ e.size.toInt := fun e he => hs e (List.mem_cons_of_mem _ he)
      have hnn : 0 ≤ exactSum (pre.map ChunkRef.size) := by
        apply exactSum_nonneg
        intro s hmem
        obtain ⟨e, he, rfl⟩ := List.mem_map.mp hmem
        exact htl e he
      have hadd : (acc + d.size).toInt = acc.toInt + d.size.toInt :=
        toInt_add_of_lt hacc hd (by omega)
      have hrec := ih h.2 (by omega) htl (by omega)
      omega

/-! ## Sound layouts -/

/-- The layout of one file, over the integers. -/
structure SoundFile (f : FileEntry) : Prop where
  sizes : ∀ c ∈ f.chunks, 0 ≤ c.size.toInt
  offsets : ∀ pre c post, f.chunks = pre ++ c :: post →
    c.offset.toInt = exactSum (pre.map ChunkRef.size)
  total : exactSum (f.chunks.map ChunkRef.size) = f.size.toInt
  bounds : ∀ c ∈ f.chunks, 0 ≤ c.offset.toInt ∧ c.offset.toInt + c.size.toInt ≤ f.size.toInt
  size_nonneg : 0 ≤ f.size.toInt

/-- The layout of a manifest, over the integers. -/
structure SoundLayout (m : ArtifactManifest) : Prop where
  files : ∀ f ∈ m.files, SoundFile f
  total : exactSum (m.files.map FileEntry.size) = m.totalSize.toInt

/-- The exact sums `Validate` compares are in the `int64` range. -/
structure NoOverflow (m : ArtifactManifest) : Prop where
  files : ∀ f ∈ m.files, exactSum (f.chunks.map ChunkRef.size) < 2 ^ 63
  total : exactSum (m.files.map FileEntry.size) < 2 ^ 63

variable {f : FileEntry}

theorem FileAccepted.size_nonneg (h : FileAccepted f) : ∀ c ∈ f.chunks, 0 ≤ c.size.toInt := by
  intro c hc
  have := Int64.le_iff_toInt_le.mp (h.sizes c hc)
  simpa using this

theorem FileAccepted.map_size_nonneg (h : FileAccepted f) :
    ∀ s ∈ f.chunks.map ChunkRef.size, 0 ≤ s.toInt := by
  intro s hs
  obtain ⟨c, hc, rfl⟩ := List.mem_map.mp hs
  exact h.size_nonneg c hc

/-- A file whose chunk sizes add up in range has a sound layout. -/
theorem FileAccepted.soundFile (h : FileAccepted f)
    (hlt : exactSum (f.chunks.map ChunkRef.size) < 2 ^ 63) : SoundFile f := by
  have htotal : exactSum (f.chunks.map ChunkRef.size) = f.size.toInt := by
    have hsum := @wrapSum_exact 0 _ (by simp) h.map_size_nonneg (by simpa using hlt)
    rw [h.total] at hsum
    simpa using hsum.symm
  -- a chunk splits the sum into what precedes it, its own size and the rest
  have hparts : ∀ pre c post, f.chunks = pre ++ c :: post →
      c.offset.toInt = exactSum (pre.map ChunkRef.size) ∧ 0 ≤ exactSum (pre.map ChunkRef.size) ∧
        exactSum (pre.map ChunkRef.size) + c.size.toInt ≤ f.size.toInt := by
    intro pre c post hsplit
    have hall := h.map_size_nonneg
    have htile := h.tiled
    rw [hsplit] at hall htile hlt htotal
    rw [List.map_append, List.map_cons] at hall hlt htotal
    rw [exactSum_append, exactSum_cons] at hlt htotal
    have hpre : 0 ≤ exactSum (pre.map ChunkRef.size) :=
      exactSum_nonneg fun s hs => hall s (List.mem_append_left _ hs)
    have hpost : 0 ≤ exactSum (post.map ChunkRef.size) :=
      exactSum_nonneg fun s hs =>
        hall s (List.mem_append_right _ (List.mem_cons_of_mem _ hs))
    have hc : 0 ≤ c.size.toInt := hall _ (List.mem_append_right _ List.mem_cons_self)
    have hpreSizes : ∀ d ∈ pre, 0 ≤ d.size.toInt := fun d hd =>
      hall _ (List.mem_append_left _ (List.mem_map_of_mem hd))
    have hoff := htile.offset_exact (by simp) hpreSizes (by simp only [Int64.toInt_zero]; omega)
    simp only [Int64.toInt_zero, zero_add] at hoff
    exact ⟨hoff, hpre, by omega⟩
  refine ⟨h.size_nonneg, fun pre c post hs => (hparts pre c post hs).1, htotal, fun c hc => ?_, ?_⟩
  · obtain ⟨pre, post, hsplit⟩ := List.append_of_mem hc
    obtain ⟨hoff, hnn, hle⟩ := hparts pre c post hsplit
    omega
  · rw [← htotal]
    exact exactSum_nonneg h.map_size_nonneg

/-- The layout of an accepted manifest is sound exactly when no exact sum
overflows. -/
theorem soundLayout_iff_noOverflow {H : Sha256} {J : Marshal} {m : ArtifactManifest}
    (h : Accepted H J m) : SoundLayout m ↔ NoOverflow m := by
  constructor
  · intro hs
    refine ⟨fun f hf => ?_, ?_⟩
    · rw [(hs.files f hf).total]
      exact toInt_lt _
    · rw [hs.total]
      exact toInt_lt _
  · intro hno
    have hfiles : ∀ f ∈ m.files, SoundFile f := fun f hf =>
      (h.files f hf).soundFile (hno.files f hf)
    have hsizes : ∀ s ∈ m.files.map FileEntry.size, 0 ≤ s.toInt := by
      intro s hs
      obtain ⟨f, hf, rfl⟩ := List.mem_map.mp hs
      exact (hfiles f hf).size_nonneg
    have hsum := @wrapSum_exact 0 _ (by simp) hsizes (by simpa using hno.total)
    rw [h.total] at hsum
    exact ⟨hfiles, by simpa using hsum.symm⟩

end Spider
