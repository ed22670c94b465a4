import Mathlib.Data.List.Nodup
import LiveDoc.Proofs.Files.Paths
import LiveDoc.Proofs.Reference.Parsing

/-!
# Where a module is looked for

The paths tried for a module are put together from the parts of its module path, `src` and the names
of module files. Identifiers have no slash and no point, so the names on such a path are those it is
put together from, the path leads below the root it is tried at, and no two of the paths are the
same, also when parts of the module path are called `src`, `mod` or `lib`.

* `layouts` — the names on the paths, in order;
* `layouts_nodup` — no two of them are the same;
* `ModuleLookup` — what holds of the search for a module;
* `parse_lookup` — it holds for every text that is a reference, and any other text fails as one.
-/

namespace LiveDoc

namespace Reference

open LiveDoc.Path (IsPlain)
open Text (isIdentifier isLetterOrNumber)

variable {text : String} {r : Reference} {names : List String}

/-! ## The names on the paths -/

/-- The last name as that of a file. -/
def asFile (names : List String) : List String :=
  names.dropLast ++ names.getLast?.toList.map (· ++ ".rs")

/-- The names on the paths that have those of the module path: the file, and the files of the
directory. -/
def ownLayouts (names : List String) : List (List String) :=
  [asFile names, names ++ ["mod.rs"], names ++ ["lib.rs"], names ++ ["src", "lib.rs"]]

/-- The names on the paths inside the crate named first. -/
def crateLayouts : List String → List (List String)
  | first :: second :: rest =>
    [asFile (first :: "src" :: second :: rest), first :: "src" :: second :: rest ++ ["mod.rs"]]
  | _ => []

/-- The names on the paths that may hold a module, from those of its module path. -/
def layouts (names : List String) : List (List String) := ownLayouts names ++ crateLayouts names

@[simp] theorem asFile_concat (init : List String) (last : String) :
    asFile (init ++ [last]) = init ++ [last ++ ".rs"] := by
  simp [asFile]

/-- Names behind names. -/
theorem pathOf_append {more : List String} (hne : names ≠ []) (hmore : more ≠ []) :
    pathOf names ++ ("/" ++ pathOf more) = pathOf (names ++ more) := by
  rw [pathOf, pathOf, pathOf, String.intercalate_append_of_ne_nil hne hmore, String.append_assoc]

/-- The file of a module has the extension. -/
theorem pathOf_asFile (hne : names ≠ []) : pathOf names ++ ".rs" = pathOf (asFile names) := by
  obtain rfl | ⟨init, last, rfl⟩ := List.eq_nil_or_concat' names
  · exact absurd rfl hne
  · rw [asFile_concat]
    rcases eq_or_ne init [] with rfl | hinit
    · rfl
    · rw [← pathOf_append hinit (List.cons_ne_nil last []),
        ← pathOf_append hinit (List.cons_ne_nil (last ++ ".rs") []), String.append_assoc,
        String.append_assoc]
      rfl

theorem segments_ne_nil (r : Reference) : r.segments ≠ [] := by
  simpa [segments] using Text.split_ne_nil '.' r.module.toList

/-- The paths are put together from these names. -/
theorem candidates_eq (r : Reference) : r.candidates = (layouts r.segments).map pathOf := by
  have hmod : ∀ {names : List String}, names ≠ [] →
      pathOf names ++ "/mod.rs" = pathOf (names ++ ["mod.rs"]) :=
    fun hne => pathOf_append hne (List.cons_ne_nil "mod.rs" [])
  have hlib : ∀ {names : List String}, names ≠ [] →
      pathOf names ++ "/lib.rs" = pathOf (names ++ ["lib.rs"]) :=
    fun hne => pathOf_append hne (List.cons_ne_nil "lib.rs" [])
  have hsrc : ∀ {names : List String}, names ≠ [] →
      pathOf names ++ "/src/lib.rs" = pathOf (names ++ ["src", "lib.rs"]) :=
    fun hne => pathOf_append hne (List.cons_ne_nil "src" ["lib.rs"])
  have hne := r.segments_ne_nil
  unfold candidates layouts ownLayouts
  dsimp only
  generalize r.segments = names at hne ⊢
  rw [pathOf_asFile hne, hmod hne, hlib hne, hsrc hne]
  match names, hne with
  | [_], _ => rfl
  | first :: second :: rest, _ =>
    have hinner := List.cons_ne_nil first ("src" :: second :: rest)
    dsimp only
    rw [pathOf_asFile hinner, hmod hinner]
    rfl

/-! ## No two are the same -/

/-- Names that are the same one name further on are all the same. -/
theorem eq_of_append_eq_cons {names : List String} {last first : String}
    (h : names ++ [last] = first :: names) : last = first := by
  induction names generalizing first with
  | nil => exact (List.cons.inj h).1
  | cons next more ih =>
    obtain ⟨hnext, hmore⟩ := List.cons.inj h
    rw [ih hmore, hnext]

theorem length_asFile (hne : names ≠ []) : (asFile names).length = names.length := by
  obtain rfl | ⟨init, last, rfl⟩ := List.eq_nil_or_concat' names
  · exact absurd rfl hne
  · rw [asFile_concat, List.length_append, List.length_append]
    rfl

/-- A file in the crate named first is none of the directory, since its module would have to be
called `src` all along. -/
theorem asFile_src_ne (first : String) (hne : names ≠ []) {stem : String} (hstem : stem ≠ "src") :
    first :: names ++ [stem ++ ".rs"] ≠ asFile (first :: "src" :: names) := by
  obtain rfl | ⟨init, last, rfl⟩ := List.eq_nil_or_concat' names
  · exact absurd rfl hne
  · have hfile : asFile (first :: "src" :: (init ++ [last])) =
        first :: "src" :: init ++ [last ++ ".rs"] := asFile_concat (first :: "src" :: init) last
    rw [hfile]
    intro heq
    obtain ⟨hnames, hlast⟩ := List.append_inj' heq rfl
    have hstems : stem = last := (String.append_left_inj ".rs").mp (List.cons.inj hlast).1
    have hsrc : last = "src" := eq_of_append_eq_cons (List.cons.inj hnames).2
    exact hstem (hstems.trans hsrc)

theorem ne_of_length_ne {a b : List String} (h : a.length ≠ b.length) : a ≠ b :=
  fun heq => h (congrArg List.length heq)

theorem ownLayouts_nodup (hne : names ≠ []) : (ownLayouts names).Nodup := by
  have hmod : asFile names ≠ names ++ ["mod.rs"] := ne_of_length_ne (by simp [length_asFile hne])
  have hlib : asFile names ≠ names ++ ["lib.rs"] := ne_of_length_ne (by simp [length_asFile hne])
  have hsrc : asFile names ≠ names ++ ["src", "lib.rs"] :=
    ne_of_length_ne (by simp [length_asFile hne])
  simp [ownLayouts, hmod, hlib, hsrc]

theorem crateLayouts_nodup (names : List String) : (crateLayouts names).Nodup := by
  unfold crateLayouts
  split
  · next first second rest =>
    have hfile : asFile (first :: "src" :: second :: rest) ≠
        first :: "src" :: second :: rest ++ ["mod.rs"] :=
      ne_of_length_ne (by simp [length_asFile (List.cons_ne_nil _ _)])
    simpa using hfile
  · exact List.nodup_nil

/-- A path inside the crate is none of the others: it has another length or another last name, or it
would take a module that is called `src` all along. -/
theorem ne_of_mem_layouts {own inner : List String} (hown : own ∈ ownLayouts names)
    (hinner : inner ∈ crateLayouts names) : own ≠ inner := by
  unfold crateLayouts at hinner
  split at hinner
  · next first second rest =>
    have hrest : second :: rest ≠ [] := List.cons_ne_nil second rest
    have hlength := length_asFile (List.cons_ne_nil first ("src" :: second :: rest))
    simp only [ownLayouts, List.mem_cons, List.not_mem_nil, or_false] at hown hinner
    rcases hinner with rfl | rfl
    · rcases hown with rfl | rfl | rfl | rfl
      · exact ne_of_length_ne (by simp [length_asFile (List.cons_ne_nil _ _)])
      · exact asFile_src_ne first hrest (show "mod" ≠ "src" by decide)
      · exact asFile_src_ne first hrest (show "lib" ≠ "src" by decide)
      · exact ne_of_length_ne (by simp [hlength])
    · rcases hown with rfl | rfl | rfl | rfl
      · exact ne_of_length_ne (by simp [length_asFile (List.cons_ne_nil _ _)])
      · exact ne_of_length_ne (by simp)
      · exact ne_of_length_ne (by simp)
      · intro heq
        have hconcat : first :: second :: rest ++ ["src", "lib.rs"] =
            first :: second :: rest ++ ["src"] ++ ["lib.rs"] := by simp
        rw [hconcat] at heq
        exact absurd (List.append_inj' heq rfl).2 (by decide)
  · cases hinner

theorem layouts_nodup (hne : names ≠ []) : (layouts names).Nodup :=
  List.nodup_append.mpr ⟨ownLayouts_nodup hne, crateLayouts_nodup names,
    fun _ hown _ hinner => ne_of_mem_layouts hown hinner⟩

/-! ## What the names are -/

/-- The names on a path that may hold a module: directories that are parts of the module path or
`src`, and the file of a module. -/
def IsLayout (names layout : List String) : Prop :=
  ∃ directories file, layout = directories ++ [file] ∧ (∀ d ∈ directories, d ∈ names ∨ d = "src") ∧
    (file = "mod.rs" ∨ file = "lib.rs" ∨ ∃ name ∈ names, file = name ++ ".rs")

theorem isLayout_asFile {inner : List String} {last : String} (hlast : last ∈ names)
    (hinner : ∀ d ∈ inner, d ∈ names ∨ d = "src") : IsLayout names (asFile (inner ++ [last])) :=
  ⟨inner, last ++ ".rs", asFile_concat inner last, hinner, Or.inr (Or.inr ⟨last, hlast, rfl⟩)⟩

theorem isLayout_of_mem_own {layout : List String} (hne : names ≠ [])
    (h : layout ∈ ownLayouts names) :
    IsLayout names layout := by
  have hself : ∀ d ∈ names, d ∈ names ∨ d = "src" := fun d hd => Or.inl hd
  simp only [ownLayouts, List.mem_cons, List.not_mem_nil, or_false] at h
  rcases h with rfl | rfl | rfl | rfl
  · obtain rfl | ⟨init, last, rfl⟩ := List.eq_nil_or_concat' names
    · exact absurd rfl hne
    · exact isLayout_asFile (by simp) fun d hd => Or.inl (List.mem_append_left _ hd)
  · exact ⟨names, "mod.rs", rfl, hself, Or.inl rfl⟩
  · exact ⟨names, "lib.rs", rfl, hself, Or.inr (Or.inl rfl)⟩
  · exact ⟨names ++ ["src"], "lib.rs", by simp, by simp, Or.inr (Or.inl rfl)⟩

theorem isLayout_of_mem_crate {layout : List String} (h : layout ∈ crateLayouts names) :
    IsLayout names layout := by
  unfold crateLayouts at h
  split at h
  · next first second rest =>
    have hinner : ∀ d ∈ first :: "src" :: second :: rest,
        d ∈ first :: second :: rest ∨ d = "src" := by
      intro d hd
      simp only [List.mem_cons] at hd ⊢
      tauto
    simp only [List.mem_cons, List.not_mem_nil, or_false] at h
    rcases h with rfl | rfl
    · obtain hnil | ⟨init, last, hconcat⟩ := List.eq_nil_or_concat' (second :: rest)
      · cases hnil
      · rw [hconcat] at hinner ⊢
        have hfront : ∀ d ∈ first :: "src" :: init, d ∈ first :: (init ++ [last]) ∨ d = "src" :=
          fun d hd => hinner d (List.mem_append_left [last] hd)
        exact isLayout_asFile (by simp) hfront
    · exact ⟨_, "mod.rs", rfl, hinner, Or.inl rfl⟩
  · cases h

theorem isLayout_of_mem {layout : List String} (hne : names ≠ []) (h : layout ∈ layouts names) :
    IsLayout names layout := by
  rcases List.mem_append.mp h with hown | hinner
  · exact isLayout_of_mem_own hne hown
  · exact isLayout_of_mem_crate hinner

/-- A name is plain if it has a character besides points, and no slash. -/
theorem isPlain_of_mem {name : String} {c : Char} (hmem : c ∈ name.toList) (hc : c ≠ '.')
    (hslash : '/' ∉ name.toList) : IsPlain name := by
  refine ⟨?_, ?_, ?_, hslash⟩
  all_goals
    rintro rfl
    simp [hc] at hmem

theorem isPlain_of_isIdentifier {name : String} (h : isIdentifier name.toList = true) :
    IsPlain name := by
  have hpoint : '.' ∉ name.toList := not_mem_of_isIdentifier h (by decide +kernel) (by decide)
  have hslash : '/' ∉ name.toList := not_mem_of_isIdentifier h (by decide +kernel) (by decide)
  have hne : name.toList ≠ [] := by
    intro hnil
    rw [hnil] at h
    cases h
  have hhead := List.head_mem hne
  exact isPlain_of_mem hhead (fun heq => hpoint (heq ▸ hhead)) hslash

/-- All names on the paths are plain. -/
theorem IsLayout.isPlain {layout : List String} (h : IsLayout names layout)
    (hnames : ∀ name ∈ names, isIdentifier name.toList = true) : ∀ step ∈ layout, IsPlain step := by
  obtain ⟨directories, file, rfl, hdirectories, hfile⟩ := h
  intro step hstep
  rcases List.mem_append.mp hstep with hstep | hstep
  · rcases hdirectories step hstep with hname | rfl
    · exact isPlain_of_isIdentifier (hnames step hname)
    · exact isPlain_of_mem (show 's' ∈ _ by decide) (by decide) (by decide)
  · rw [List.mem_singleton.mp hstep]
    rcases hfile with rfl | rfl | ⟨name, hname, rfl⟩
    · exact isPlain_of_mem (show 'm' ∈ _ by decide) (by decide) (by decide)
    · exact isPlain_of_mem (show 'l' ∈ _ by decide) (by decide) (by decide)
    · have hunbroken := (isPlain_of_isIdentifier (hnames name hname)).unbroken
      exact isPlain_of_mem (show 's' ∈ _ by simp) (by decide) (by simpa using hunbroken)

/-- A path that may hold a module, by the names on it: a relative path of plain names. -/
structure IsCandidate (names : List String) (path : String) : Prop where
  relative : Path.isAbsolute path = false
  plain : ∀ step ∈ Path.steps path, IsPlain step
  layout : IsLayout names (Path.steps path)

section Accepted

variable (h : parse text = .ok r)

include h

theorem isPlain_of_mem_layouts {layout : List String} (hlayout : layout ∈ layouts r.segments) :
    layout ≠ [] ∧ ∀ step ∈ layout, IsPlain step := by
  have hshape := isLayout_of_mem r.segments_ne_nil hlayout
  refine ⟨?_, hshape.isPlain (isIdentifier_segment h)⟩
  obtain ⟨directories, file, rfl, -⟩ := hshape
  simp

/-- The names on the paths are those that they are put together from. -/
theorem steps_candidates : r.candidates.map Path.steps = layouts r.segments := by
  rw [candidates_eq, List.map_map]
  refine (List.map_congr_left fun layout hlayout => ?_).trans (List.map_id _)
  obtain ⟨hne, hplain⟩ := isPlain_of_mem_layouts h hlayout
  exact Path.steps_intercalate hne fun step hstep => (hplain step hstep).unbroken

theorem isCandidate_of_mem {path : String} (hpath : path ∈ r.candidates) :
    IsCandidate r.segments path := by
  have hmem : Path.steps path ∈ layouts r.segments := by
    rw [← steps_candidates h]
    exact List.mem_map_of_mem hpath
  obtain ⟨hne, hplain⟩ := isPlain_of_mem_layouts h hmem
  obtain ⟨first, rest, hsteps⟩ := List.exists_cons_of_ne_nil hne
  have hfirst : first ≠ "" := (hplain first (by simp [hsteps])).named
  exact ⟨Path.isAbsolute_of_steps hsteps hfirst, hplain, isLayout_of_mem r.segments_ne_nil hmem⟩

theorem candidates_nodup : r.candidates.Nodup := by
  refine List.Nodup.of_map Path.steps ?_
  rw [steps_candidates h]
  exact layouts_nodup r.segments_ne_nil

end Accepted

end Reference

namespace Roots

open Reference (IsCandidate layouts)

variable {roots : Roots} {r : Reference} {isFile : String → Bool}

/-! ## The search -/

/-- Rows of one length stand behind one another. -/
theorem getElem?_flatMap_map {α β γ : Type} (f : α → β → γ) (rows : List α) (columns : List β)
    {i j : Nat} (hi : i < rows.length) (hj : j < columns.length) :
    (rows.flatMap fun a => columns.map (f a))[i * columns.length + j]? =
      some (f rows[i] columns[j]) := by
  induction rows generalizing i with
  | nil => cases hi
  | cons first more ih =>
    rw [List.flatMap_cons]
    cases i with
    | zero => rw [List.getElem?_append_left (by simpa using hj)]; simp [hj]
    | succ i =>
      have hbehind : ((i + 1) * columns.length + j) - (columns.map (f first)).length =
          i * columns.length + j := by
        rw [List.length_map, Nat.succ_mul]
        omega
      rw [List.getElem?_append_right (by rw [List.length_map, Nat.succ_mul]; omega), hbehind,
        ih (Nat.lt_of_succ_lt_succ hi)]
      rfl

theorem length_attempts (roots : Roots) (r : Reference) :
    (roots.attempts r).length = roots.directories.length * r.candidates.length := by
  simp [attempts, List.length_flatMap]

/-- The path that is found is the first one that is a file. -/
theorem resolve_eq_ok_iff {path : String} : roots.resolve isFile r = .ok path ↔
    ∃ k : Nat, (roots.attempts r)[k]? = some path ∧ isFile path = true ∧
      ∀ l < k, ∀ earlier, (roots.attempts r)[l]? = some earlier → isFile earlier = false := by
  have hfind : roots.resolve isFile r = .ok path ↔ (roots.attempts r).find? isFile = some path := by
    unfold resolve
    cases (roots.attempts r).find? isFile <;> simp
  rw [hfind, List.find?_eq_some_iff_getElem]
  constructor
  · rintro ⟨hfile, k, hk, rfl, hearlier⟩
    refine ⟨k, List.getElem?_eq_getElem hk, hfile, fun l hl earlier hget => ?_⟩
    obtain ⟨hlt, rfl⟩ := List.getElem?_eq_some_iff.mp hget
    simpa using hearlier l hl
  · rintro ⟨k, hget, hfile, hearlier⟩
    obtain ⟨hk, rfl⟩ := List.getElem?_eq_some_iff.mp hget
    refine ⟨hfile, k, hk, rfl, fun l hl => ?_⟩
    simpa using hearlier l hl _ (List.getElem?_eq_getElem (hl.trans hk))

/-- Nothing is found when no path is a file, and the error tells all of them. -/
theorem resolve_eq_error_iff {e : Error} : roots.resolve isFile r = .error e ↔
    (∀ path ∈ roots.attempts r, isFile path = false) ∧
      e = .moduleNotFound r.module (roots.attempts r) := by
  have hnone : (roots.attempts r).find? isFile = none ↔
      ∀ path ∈ roots.attempts r, isFile path = false := by simp
  rw [← hnone]
  unfold resolve
  cases (roots.attempts r).find? isFile <;> simp [eq_comm]

/-- What holds of the search for the module of a reference under some roots. -/
structure ModuleLookup (roots : Roots) (r : Reference) : Prop where
  identifiers : ∀ name ∈ r.segments, Text.isIdentifier name.toList = true
  /-- The names on the paths, in the order of the paths. -/
  steps : r.candidates.map Path.steps = layouts r.segments
  candidate : ∀ path ∈ r.candidates, IsCandidate r.segments path
  distinct : r.candidates.Nodup
  tried : ∀ path ∈ roots.attempts r,
    ∃ root ∈ roots.directories, ∃ candidate ∈ r.candidates, path = Path.join root candidate
  /-- Seen from a root, a path goes on where the root ends, and leads down from the place of the
  root. -/
  below : ∀ path ∈ r.candidates, ∀ root, root.toList <+: (Path.join root path).toList ∧
    ∀ files : FileTree, files.placeOf (Path.join root path) = files.placeOf root ++
      Path.steps path ∧
      ∀ place, files.locate? files.home (Path.join root path) = some place →
        place = files.placeOf root ++ Path.steps path
  /-- Every path is tried once at every root: the roots in order, and at each root the paths in
  order. -/
  count : (roots.attempts r).length = roots.directories.length * r.candidates.length
  order : ∀ i (hi : i < roots.directories.length) j (hj : j < r.candidates.length),
    (roots.attempts r)[i * r.candidates.length + j]? =
      some (Path.join roots.directories[i] r.candidates[j])
  found : ∀ isFile path, roots.resolve isFile r = .ok path ↔
    ∃ k : Nat, (roots.attempts r)[k]? = some path ∧ isFile path = true ∧
      ∀ l < k, ∀ earlier, (roots.attempts r)[l]? = some earlier → isFile earlier = false
  missing : ∀ isFile e, roots.resolve isFile r = .error e ↔
    (∀ path ∈ roots.attempts r, isFile path = false) ∧
      e = .moduleNotFound r.module (roots.attempts r)

theorem moduleLookup_of_parse {text : String} (h : Reference.parse text = .ok r) :
    ModuleLookup roots r where
  identifiers := Reference.isIdentifier_segment h
  steps := Reference.steps_candidates h
  candidate := fun _ => Reference.isCandidate_of_mem h
  distinct := Reference.candidates_nodup h
  tried := by
    intro path hpath
    obtain ⟨root, hroot, hjoined⟩ := List.mem_flatMap.mp hpath
    obtain ⟨candidate, hcandidate, rfl⟩ := List.mem_map.mp hjoined
    exact ⟨root, hroot, candidate, hcandidate, rfl⟩
  below := by
    intro path hpath root
    have hcandidate := Reference.isCandidate_of_mem h hpath
    refine ⟨Path.prefix_join hcandidate.relative, fun files => ?_⟩
    have hplace := files.placeOf_join root hcandidate.relative hcandidate.plain
    exact ⟨hplace, fun place hlocate => (FileTree.eq_placeOf_of_locate? hlocate).trans hplace⟩
  count := length_attempts roots r
  order := fun _ hi _ hj => getElem?_flatMap_map Path.join roots.directories r.candidates hi hj
  found := fun _ _ => resolve_eq_ok_iff
  missing := fun _ _ => resolve_eq_error_iff

/-- **The search for a module stays below the roots, and goes through them in order.** A text is
either a reference, which is read back from its parts and for which this holds, or it is refused,
whatever files there are. -/
theorem parse_lookup (roots : Roots) (text : String) :
    match Reference.parse text with
    | .ok r => ModuleLookup roots r ∧ Reference.parse (r.module ++ ":" ++ r.object) = .ok r
    | .error e => e = .invalidReference text ∧
        ∀ files declarationOnly,
          roots.extract files text declarationOnly = .error (.invalidReference text) := by
  cases hparse : Reference.parse text with
  | ok r => exact ⟨moduleLookup_of_parse hparse, Reference.parse_written hparse⟩
  | error e =>
    obtain rfl := Reference.eq_of_parse_error hparse
    refine ⟨rfl, fun files declarationOnly => ?_⟩
    rw [extract, hparse]

/-- The parts of a module path may be called as the directories and files around them. -/
theorem parse_lookup_src :
    Reference.parse "src.src.mod : lib" = .ok ⟨"src.src.mod", "lib"⟩ ∧
      Reference.candidates ⟨"src.src.mod", "lib"⟩ =
        ["src/src/mod.rs", "src/src/mod/mod.rs", "src/src/mod/lib.rs", "src/src/mod/src/lib.rs",
          "src/src/src/mod.rs", "src/src/src/mod/mod.rs"] ∧
      ModuleLookup Roots.standard ⟨"src.src.mod", "lib"⟩ := by
  have hparse : Reference.parse "src.src.mod : lib" = .ok ⟨"src.src.mod", "lib"⟩ := by
    decide +kernel
  have hlookup := parse_lookup Roots.standard "src.src.mod : lib"
  rw [hparse] at hlookup
  exact ⟨hparse, by decide +kernel, hlookup.1⟩

end Roots

end LiveDoc
