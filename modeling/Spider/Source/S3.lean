import Spider.Node.State

/-!
# Spider.Source.S3

The S3 source (`pkg/source/s3.go`): whether what `ListFiles` lists can be read back.

`ListFiles` cuts the prefix off the keys it lists, and `Open` and `ReadChunkTo` take
the path they are given for the whole key: no key below a prefix directory is found
again (`objectKey_ne_of_below`).  Without a prefix there is nothing to cut off, but
`NormalizePath` turns the empty prefix into `"."`, so that the listing asks for the
keys that begin with `./`.  What is left is the prefix `/`, which is listed and read
back if all keys are normalised paths.

`ListObjectsV2` is a parameter; `ListsPages` says that its pages together hold the objects
whose keys begin with the prefix asked for.  `GetObject` finds an object by its key.
-/

namespace Spider

open LexPath

/-! ## Buckets -/

structure S3Object where
  key : Str
  content : Bytes
  deriving DecidableEq

/-- A bucket: a map from keys to objects. -/
structure Bucket where
  objects : List S3Object
  distinct : (objects.map (·.key)).Nodup

/-- `GetObject`, without a range. -/
def Bucket.getObject (b : Bucket) (key : Str) : Option S3Object :=
  b.objects.find? fun o => o.key = key

/-- The bytes that the server sends for the header `bytes=first-last`.  It ignores a
range that ends before it begins and refuses one that begins behind the object. -/
def serveRange (first last : Int64) (content : Bytes) : Option Bytes :=
  if first < 0 ∨ last < first then some content
  else if content.length ≤ first.toInt.toNat then none
  else some ((content.drop first.toInt.toNat).take (last.toInt - first.toInt + 1).toNat)

/-- One answer of `ListObjectsV2`. -/
structure Page where
  contents : List S3Object
  isTruncated : Bool
  nextContinuationToken : Option Str

/-- `ListObjectsV2`, by prefix and continuation token; `none` is an error. -/
abbrev ListObjectsV2 := Str → Option Str → Option Page

/-- The objects on the pages from a continuation token on. -/
inductive Pages (list : ListObjectsV2) (pre : Str) : Option Str → List S3Object → Prop
  | last {token : Option Str} {page : Page} (hpage : list pre token = some page)
      (hend : page.isTruncated = false) : Pages list pre token page.contents
  | more {token : Option Str} {page : Page} {rest : List S3Object}
      (hpage : list pre token = some page) (hmore : page.isTruncated = true)
      (hrest : Pages list pre page.nextContinuationToken rest) :
      Pages list pre token (page.contents ++ rest)

/-- The pages together hold exactly the objects whose keys begin with the prefix. -/
def ListsPages (list : ListObjectsV2) (b : Bucket) : Prop :=
  ∀ pre, ∃ objects, Pages list pre none objects ∧
    objects.Perm (b.objects.filter fun o => hasPrefix o.key pre)

/-! ## The source -/

/-- The errors of an `S3Source`. -/
inductive S3Error where
  /-- failed to list objects in bucket %s -/
  | list
  /-- failed to get object chunk %s (bytes=%d-%d) -/
  | getChunk (key : Str) (first last : Int64)
  /-- failed to open object %s -/
  | openObject (key : Str)
  deriving DecidableEq

/-- A result of `ListFiles`, with the key it was made from. -/
structure S3Listed where
  key : Str
  info : FileInfo
  deriving DecidableEq

/-- Directory markers are skipped. -/
def isMarker (key : Str) : Bool := hasSuffix key (str "/")

/-- The string that `ListFiles` asks for. -/
def cleanPrefix (pre : Str) : Str :=
  let p := trimPrefix (normalizePath pre) (str "/")
  if p ≠ [] ∧ hasSuffix p (str "/") = false then p ++ str "/" else p

/-- The entry of one object. -/
def s3Entry (cut : Str) (o : S3Object) : S3Listed :=
  ⟨o.key, ⟨normalizePath (trimPrefix o.key cut), .ofNat o.content.length, str "0644"⟩⟩

/-- The entries of one page. -/
def pageEntries (cut : Str) (objects : List S3Object) : List S3Listed :=
  (objects.filter fun o => !isMarker o.key).map (s3Entry cut)

/-- The loop of `ListFiles` over the pages; `none` if the fuel does not last. -/
def listPages (list : ListObjectsV2) (cut : Str) :
    Nat → Option Str → List S3Listed → Option (Except S3Error (List S3Listed))
  | 0, _, _ => none
  | fuel + 1, token, results =>
      match list cut token with
      | none => some (.error .list)
      | some page =>
          let results := results ++ pageEntries cut page.contents
          if page.isTruncated then listPages list cut fuel page.nextContinuationToken results
          else some (.ok results)

/-- `S3Source.ListFiles`. -/
def s3ListFiles (list : ListObjectsV2) (pre : Str) (fuel : Nat) :
    Option (Except S3Error (List S3Listed)) :=
  listPages list (cleanPrefix pre) fuel none []

/-- The key that `Open` and `ReadChunkTo` ask for. -/
def objectKey (path : Str) : Str := trimPrefix (normalizePath path) (str "/")

/-- `S3Source.Open`. -/
def Bucket.openObject (b : Bucket) (path : Str) : Except S3Error S3Object :=
  match b.getObject (objectKey path) with
  | none => .error (.openObject (objectKey path))
  | some o => .ok o

/-- What `ReadChunkTo` copies of the object it was answered with. -/
def S3Object.copyRange (o : S3Object) (offset size : Int64) : Except S3Error Bytes :=
  match serveRange offset (offset + size - 1) o.content with
  | none => .error (.getChunk o.key offset (offset + size - 1))
  | some body => .ok (body.take size.toInt.toNat)

/-- `S3Source.ReadChunkTo`: what it writes.  A body that ends early is no error. -/
def Bucket.readChunkTo (b : Bucket) (path : Str) (offset size : Int64) :
    Except S3Error Bytes :=
  match b.getObject (objectKey path) with
  | none => .error (.getChunk (objectKey path) offset (offset + size - 1))
  | some o => o.copyRange offset size

/-! ## Keys -/

theorem objectKey_eq (path : Str) : objectKey path = normalizePath path := by
  rw [objectKey]
  rcases normalizePath_cases path with ⟨-, hnil⟩ | ⟨q, hrel, hq⟩
  · rw [hnil]
    decide
  · rw [hq]
    refine trimPrefix_of_not_hasPrefix ?_
    rw [← isAbs_eq_hasPrefix, isAbs_clean, hrel]

theorem length_normalizePath_le (p : Str) : (normalizePath p).length ≤ max 1 p.length := by
  have hclean : (clean p).length ≤ max 1 p.length := length_clean_le p
  have hslash := length_trimPrefix_le (clean p) (str "/")
  have hdot := length_trimPrefix_le (trimPrefix (clean p) (str "/")) (str "./")
  rw [normalizePath]
  omega

/-- A key that lost two bytes or more on listing is not asked for again. -/
theorem objectKey_ne_of_below {key cut : Str} (hcut : 2 ≤ cut.length)
    (hkey : hasPrefix key cut = true) :
    objectKey (normalizePath (trimPrefix key cut)) ≠ key := by
  obtain ⟨rest, rfl⟩ := hasPrefix_iff.mp hkey
  rw [trimPrefix_append, objectKey_eq]
  intro heq
  have honce := length_normalizePath_le rest
  have htwice := length_normalizePath_le (normalizePath rest)
  rw [heq, List.length_append] at htwice
  omega

/-- A key that is listed whole is asked for again if it is a normalised path. -/
theorem objectKey_normalizePath_iff (key : Str) :
    objectKey (normalizePath key) = key ↔ normalizePath key = key := by
  rw [objectKey_eq]
  constructor
  · intro htwice
    rcases normalizePath_cases key with ⟨-, hnil⟩ | ⟨q, hrel, hq⟩
    · -- the root is read as `"."`, which is another key
      rw [hnil] at htwice
      have hdot : key = str "." := by
        rw [← htwice]
        decide
      rw [hdot] at hnil
      exact absurd hnil (by decide)
    · have hclean : isAbs (clean q) = false := by rw [isAbs_clean, hrel]
      rw [hq, normalizePath_of_relative hclean, clean_clean] at htwice
      rw [hq, htwice]
  · intro hkey
    rw [hkey, hkey]

/-! ## The prefix -/

/-- What the keys in the prefix directory begin with; the root directory holds all
keys. -/
def directoryOf (pre : Str) : Str :=
  if normalizePath pre = [] ∨ normalizePath pre = str "." then []
  else normalizePath pre ++ str "/"

/-- A cleaned relative path does not end in a slash. -/
theorem not_hasSuffix_slash_clean {p : Str} (h : isAbs p = false) :
    hasSuffix (clean p) (str "/") = false := by
  by_contra hslash
  rw [Bool.not_eq_false, hasSuffix_iff] at hslash
  obtain ⟨front, hfront⟩ := hslash
  have hnorm := normal_pathElems p
  by_cases hes : pathElems p = []
  · rw [clean_eq_render, h, hes] at hfront
    have hlast : (front ++ [slash]).getLast? = [dot].getLast? := congrArg List.getLast? hfront
    rw [List.getLast?_concat] at hlast
    exact absurd hlast (by decide)
  · -- the piece behind the last slash would be empty
    have hsplit : (clean p).splitOn slash = pathElems p := by
      rw [clean_eq_render, h, render, if_neg (by simp), if_neg hes]
      exact List.splitOn_intercalate slash (hnorm.no_sep dot_ne_slash) hes
    have hcut : (front ++ slash :: []).splitOn slash =
        front.splitOn slash ++ ([] : Str).splitOn slash :=
      List.splitOn_append_cons_self front []
    have hend : front ++ slash :: [] = clean p := hfront
    rw [hend, hsplit] at hcut
    refine hnorm.ne_nil [] ?_ rfl
    rw [hcut]
    simp

/-- What `ListFiles` asks for, unless the prefix is the root. -/
theorem cleanPrefix_of_ne {pre : Str} (h : normalizePath pre ≠ []) :
    cleanPrefix pre = normalizePath pre ++ str "/" := by
  have hkey : trimPrefix (normalizePath pre) (str "/") = normalizePath pre := objectKey_eq pre
  rcases normalizePath_cases pre with ⟨-, hnil⟩ | ⟨q, hrel, hq⟩
  · exact absurd hnil h
  · have hslash : hasSuffix (normalizePath pre) (str "/") = false := by
      rw [hq, not_hasSuffix_slash_clean hrel]
    simp only [cleanPrefix, hkey]
    rw [if_pos ⟨h, hslash⟩]

theorem cleanPrefix_of_nil {pre : Str} (h : normalizePath pre = []) : cleanPrefix pre = [] := by
  simp only [cleanPrefix, h]
  decide

/-- Nothing outside the prefix directory is asked for. -/
theorem directoryOf_isPrefix (pre : Str) : directoryOf pre <+: cleanPrefix pre := by
  rw [directoryOf]
  split
  · exact List.nil_prefix
  · rename_i h
    rw [not_or] at h
    rw [cleanPrefix_of_ne h.1]

theorem two_le_cleanPrefix {pre : Str} (h : normalizePath pre ≠ []) :
    2 ≤ (cleanPrefix pre).length := by
  have hpos : 0 < (normalizePath pre).length := List.length_pos_iff.mpr h
  have hslash : (str "/").length = 1 := by decide
  rw [cleanPrefix_of_ne h, List.length_append, hslash]
  omega

/-! ## Listing -/

section Listing

variable {list : ListObjectsV2} {b : Bucket} {cut pre : Str}

theorem pageEntries_append (objects objects' : List S3Object) :
    pageEntries cut (objects ++ objects') = pageEntries cut objects ++ pageEntries cut objects' := by
  simp [pageEntries]

/-- The loop comes to the end of the pages. -/
theorem listPages_of_pages {token : Option Str} {objects : List S3Object}
    (h : Pages list cut token objects) (results : List S3Listed) :
    ∃ n, ∀ fuel, n ≤ fuel → listPages list cut fuel token results =
      some (.ok (results ++ pageEntries cut objects)) := by
  induction h generalizing results with
  | last hpage hend =>
      refine ⟨1, fun fuel hfuel => ?_⟩
      obtain ⟨fuel, rfl⟩ := Nat.exists_eq_add_of_le' hfuel
      simp [listPages, hpage, hend]
  | @more token page rest hpage hmore _ ih =>
      obtain ⟨n, hn⟩ := ih (results ++ pageEntries cut page.contents)
      refine ⟨n + 1, fun fuel hfuel => ?_⟩
      obtain ⟨fuel, rfl⟩ := Nat.exists_eq_add_of_le' (Nat.le_of_add_left_le hfuel)
      have hrest := hn fuel (by omega)
      simp only [listPages, hpage, hmore, if_true, hrest, pageEntries_append, List.append_assoc]

theorem mem_pageEntries {objects : List S3Object} {e : S3Listed} :
    e ∈ pageEntries cut objects ↔
      ∃ o ∈ objects, isMarker o.key = false ∧ s3Entry cut o = e := by
  simp [pageEntries, and_assoc]

/-- The objects that `ListFiles` is to list: in the prefix directory, and no
directory markers. -/
def Bucket.listable (b : Bucket) (pre : Str) : List S3Object :=
  b.objects.filter fun o => hasPrefix o.key (directoryOf pre) && !isMarker o.key

variable {o : S3Object}

theorem Bucket.mem_listable :
    o ∈ b.listable pre ↔
      o ∈ b.objects ∧ hasPrefix o.key (directoryOf pre) = true ∧ isMarker o.key = false := by
  simp [Bucket.listable]

/-- The entry's path opens and reads the object that the entry was listed from. -/
def Bucket.ReadsBack (b : Bucket) (e : S3Listed) : Prop :=
  ∃ o ∈ b.objects, o.key = e.key ∧ b.openObject e.info.path = .ok o ∧
    ∀ offset size, b.readChunkTo e.info.path offset size = o.copyRange offset size

theorem Bucket.getObject_key (h : o ∈ b.objects) : b.getObject o.key = some o := by
  cases hget : b.getObject o.key with
  | none =>
      have hnone := List.find?_eq_none.mp hget o h
      simp at hnone
  | some o' =>
      have hkey : o'.key = o.key := by simpa using List.find?_some hget
      rw [List.inj_on_of_nodup_map b.distinct (List.mem_of_find?_eq_some hget) h hkey]

theorem Bucket.readsBack_iff (h : o ∈ b.objects) :
    b.ReadsBack (s3Entry cut o) ↔ objectKey (s3Entry cut o).info.path = o.key := by
  constructor
  · rintro ⟨o', -, hkey, hopen, -⟩
    cases hget : b.getObject (objectKey (s3Entry cut o).info.path) with
    | none =>
        rw [Bucket.openObject, hget] at hopen
        contradiction
    | some found =>
        rw [Bucket.openObject, hget, Except.ok.injEq] at hopen
        have hfound : found.key = objectKey (s3Entry cut o).info.path := by
          simpa using List.find?_some hget
        rw [← hfound, hopen, hkey]
        rfl
  · intro hkey
    have hget : b.getObject (objectKey (s3Entry cut o).info.path) = some o := by
      rw [hkey, Bucket.getObject_key h]
    refine ⟨o, h, rfl, ?_, fun offset size => ?_⟩
    · rw [Bucket.openObject, hget]
    · rw [Bucket.readChunkTo, hget]

/-- Below a prefix nothing that is listed reads back. -/
theorem Bucket.not_readsBack (h : o ∈ b.objects) (hne : normalizePath pre ≠ [])
    (hkey : hasPrefix o.key (cleanPrefix pre) = true) :
    ¬ b.ReadsBack (s3Entry (cleanPrefix pre) o) := by
  rw [Bucket.readsBack_iff h]
  exact objectKey_ne_of_below (two_le_cleanPrefix hne) hkey

/-- With the root as the prefix the normalised keys read back. -/
theorem Bucket.readsBack_root (h : o ∈ b.objects) :
    b.ReadsBack (s3Entry [] o) ↔ normalizePath o.key = o.key := by
  rw [Bucket.readsBack_iff h]
  exact objectKey_normalizePath_iff o.key

/-- **Listing and reading.**  `ListFiles` lists every object in the prefix directory
once, and every entry reads the object it was listed from, exactly if there is no such
object, or the prefix is the root and the keys are normalised paths. -/
theorem listing_reads_back_iff (list : ListObjectsV2) (b : Bucket) (hlists : ListsPages list b)
    (pre : Str) :
    (∃ es n, (∀ fuel, n ≤ fuel → s3ListFiles list pre fuel = some (.ok es)) ∧
      (es.map (·.key)).Perm ((b.listable pre).map (·.key)) ∧ ∀ e ∈ es, b.ReadsBack e) ↔
      b.listable pre = [] ∨
        normalizePath pre = [] ∧ ∀ o ∈ b.listable pre, normalizePath o.key = o.key := by
  obtain ⟨objects, hpages, hperm⟩ := hlists (cleanPrefix pre)
  obtain ⟨n, hn⟩ := listPages_of_pages hpages []
  have hmem : ∀ o, o ∈ objects ↔ o ∈ b.objects ∧ hasPrefix o.key (cleanPrefix pre) = true := by
    intro o
    rw [hperm.mem_iff, List.mem_filter]
  constructor
  · rintro ⟨es, n', hes, hkeys, hback⟩
    have heq : es = pageEntries (cleanPrefix pre) objects := by
      have hboth := (hes (max n n') (Nat.le_max_right n n')).symm.trans
        (hn (max n n') (Nat.le_max_left n n'))
      simpa using hboth
    subst heq
    by_cases hroot : normalizePath pre = []
    · right
      refine ⟨hroot, fun o ho => ?_⟩
      obtain ⟨ho, -, hmarker⟩ := Bucket.mem_listable.mp ho
      have hcut := cleanPrefix_of_nil hroot
      have hlisted : o ∈ objects := (hmem o).mpr ⟨ho, by rw [hcut]; rfl⟩
      have hentry := hback _ (mem_pageEntries.mpr ⟨o, hlisted, hmarker, rfl⟩)
      rw [hcut] at hentry
      exact (Bucket.readsBack_root ho).mp hentry
    · left
      -- an entry would have to read back, and none does
      have hnone : pageEntries (cleanPrefix pre) objects = [] := by
        refine List.eq_nil_iff_forall_not_mem.mpr fun e he => ?_
        obtain ⟨o, ho, -, rfl⟩ := mem_pageEntries.mp he
        obtain ⟨ho, hkey⟩ := (hmem o).mp ho
        exact Bucket.not_readsBack ho hroot hkey (hback _ he)
      rw [hnone] at hkeys
      simpa using hkeys.symm.eq_nil
  · intro hcond
    have hlisted : ∀ fuel, n ≤ fuel →
        s3ListFiles list pre fuel = some (.ok (pageEntries (cleanPrefix pre) objects)) := by
      simpa [s3ListFiles] using hn
    refine ⟨_, n, hlisted, ?_⟩
    rcases hcond with hempty | ⟨hroot, hnormal⟩
    · have hnone : pageEntries (cleanPrefix pre) objects = [] := by
        refine List.eq_nil_iff_forall_not_mem.mpr fun e he => ?_
        obtain ⟨o, ho, hmarker, rfl⟩ := mem_pageEntries.mp he
        obtain ⟨ho, hkey⟩ := (hmem o).mp ho
        have hdir := (directoryOf_isPrefix pre).trans (hasPrefix_iff.mp hkey)
        have hin : o ∈ b.listable pre :=
          Bucket.mem_listable.mpr ⟨ho, hasPrefix_iff.mpr hdir, hmarker⟩
        rw [hempty] at hin
        contradiction
      rw [hnone, hempty]
      simp
    · have hcut := cleanPrefix_of_nil hroot
      have hdir : directoryOf pre = [] := by simp [directoryOf, hroot]
      rw [hcut] at hperm hmem ⊢
      constructor
      · have hkeys : (pageEntries [] objects).map (·.key) =
            (objects.filter fun o => !isMarker o.key).map (·.key) := by
          rw [pageEntries, List.map_map]
          rfl
        have hall : b.listable pre =
            (b.objects.filter fun o => hasPrefix o.key []).filter fun o => !isMarker o.key := by
          rw [Bucket.listable, hdir, List.filter_filter]
          exact List.filter_congr fun o _ => Bool.and_comm _ _
        rw [hkeys, hall]
        exact (hperm.filter _).map _
      · intro e he
        obtain ⟨o, ho, hmarker, rfl⟩ := mem_pageEntries.mp he
        obtain ⟨ho, hkey⟩ := (hmem o).mp ho
        rw [Bucket.readsBack_root ho]
        exact hnormal o (Bucket.mem_listable.mpr ⟨ho, by rw [hdir]; exact hkey, hmarker⟩)

end Listing

/-! ## One page -/

/-- A server that answers with one page. -/
def Bucket.onePage (b : Bucket) : ListObjectsV2 := fun pre _ =>
  some ⟨b.objects.filter fun o => hasPrefix o.key pre, false, none⟩

theorem Bucket.lists_onePage (b : Bucket) : ListsPages b.onePage b := fun _ =>
  ⟨_, .last rfl rfl, .refl _⟩

/-- A bucket with one object. -/
def oneObject (key : Str) : Bucket := ⟨[⟨key, [1, 2]⟩], by simp⟩

theorem listing_reads_back_root :
    normalizePath (str "/") = [] ∧
      ∃ es n, (∀ fuel, n ≤ fuel →
          s3ListFiles (oneObject (str "data/x")).onePage (str "/") fuel = some (.ok es)) ∧
        (es.map (·.key)).Perm (((oneObject (str "data/x")).listable (str "/")).map (·.key)) ∧
        ∀ e ∈ es, (oneObject (str "data/x")).ReadsBack e :=
  ⟨by decide, (listing_reads_back_iff _ _ (Bucket.lists_onePage _) (str "/")).mpr
    (.inr ⟨by decide, by decide⟩)⟩

/-- `data/x` is listed below `data` as `x`, which is no key; without a prefix it is
not listed. -/
theorem listed_below_prefix_not_found :
    s3ListFiles (oneObject (str "data/x")).onePage (str "data") 1 =
        some (.ok [⟨str "data/x", str "x", 2, str "0644"⟩]) ∧
      (oneObject (str "data/x")).openObject (str "x") = .error (.openObject (str "x")) ∧
      (oneObject (str "data/x")).readChunkTo (str "x") 0 2 =
        .error (.getChunk (str "x") 0 1) ∧
      s3ListFiles (oneObject (str "data/x")).onePage [] 1 = some (.ok []) ∧
      (oneObject (str "data/x")).listable [] ≠ [] := by
  decide +kernel

end Spider
