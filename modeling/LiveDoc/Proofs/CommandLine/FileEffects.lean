import LiveDoc.Proofs.CommandLine.Check
import LiveDoc.Proofs.Project.Reads

/-!
# What a call does to files

A call of the program writes one file at most: the one that `render` was given, when the rendering
succeeded. What a call reads is known from the call and the files (`Invocation.reads`): the places
of a configuration, the document, and the modules of the references in its templates. So a file that
is written and not read leaves the rendering as it was, and a check against it passes.

* `rendered_congr` — what is rendered depends on the files that are read;
* `perform_effects` — what each task does to the files.
-/

namespace LiveDoc.CommandLine.Invocation

open FileTree (AgreeOn Wrote probes)

/-! ## What a call reads -/

/-- The paths that are looked at for the configuration. -/
def configurationReads (i : Invocation) (files : FileTree) : List String :=
  match i.config with
  | some path => [path]
  | none =>
    probes files.isFile (Config.candidates.map (Path.join ("/" ++ "/".intercalate files.home)))

/-- The paths that are looked at for a rendering: those for the configuration, the document, and
those for the source code that the document shows. -/
def reads (i : Invocation) (files : FileTree) : List String :=
  i.configurationReads files ++
    match i.configuration files with
    | .error _ => []
    | .ok c =>
      i.document ::
        match files.readText i.document with
        | .error _ => []
        | .ok source => c.reads files source

/-- A document that shows the source of one item, and the module that the item is in. -/
def sourceDocument : FileTree :=
  ((FileTree.empty ["work"]).add "t.md" "```\nshow_source_code('lib:f')\n```\n".toUTF8).add
    "src/lib.rs" "fn f() {}\n".toUTF8

/-- The module is found under the first root, so nothing else is looked at for it. -/
example : (⟨.render none, "t.md", ⟨none, false, none, false⟩, none, false, false⟩ :
    Invocation).reads sourceDocument =
      ["/work/writeme.toml", "/work/.writeme.toml", "/work/.config/writeme.toml", "t.md",
        "/work/src/lib.rs"] := by
  decide +kernel

variable {i : Invocation} {launch : Launcher} {color : Bool} {files after : FileTree}

theorem loadFile_congr {path base : String} (h : after.bytes? path = files.bytes? path) :
    Config.loadFile after path base = Config.loadFile files path base := by
  unfold Config.loadFile
  rw [FileTree.readText_congr h]

/-- The configuration depends on the files that are looked at for it. -/
theorem configuration_congr (hhome : after.home = files.home)
    (h : AgreeOn (i.configurationReads files) files after) :
    i.configuration after = i.configuration files := by
  unfold configuration
  unfold configurationReads at h
  cases hconfig : i.config with
  | some path =>
    rw [hconfig] at h
    dsimp only at h ⊢
    rw [loadFile_congr (h path List.mem_cons_self)]
  | none =>
    rw [hconfig] at h
    dsimp only at h ⊢
    unfold Config.load Config.find?
    rw [hhome, FileTree.find?_congr h]
    cases hfind : (Config.candidates.map (Path.join ("/" ++ "/".intercalate files.home))).find?
        files.isFile with
    | none => rfl
    | some path =>
      dsimp only
      rw [loadFile_congr (h path (FileTree.mem_probes_of_find? hfind))]

/-- **What is rendered depends on the files that are read.** -/
theorem rendered_congr (hhome : after.home = files.home) (h : AgreeOn (i.reads files) files after) :
    i.rendered launch after = i.rendered launch files := by
  have hconfiguration : i.configuration after = i.configuration files :=
    configuration_congr hhome (h.mono fun _ hpath => List.mem_append_left _ hpath)
  unfold rendered
  rw [hconfiguration]
  cases hc : i.configuration files with
  | error e => rfl
  | ok c =>
    have hrest : AgreeOn (i.document :: match files.readText i.document with
        | .error _ => []
        | .ok source => c.reads files source) files after := by
      refine h.mono fun path hpath => ?_
      rw [reads, hc]
      exact List.mem_append_right _ hpath
    dsimp only
    rw [FileTree.readText_congr (hrest i.document List.mem_cons_self)]
    cases hsource : files.readText i.document with
    | error e => rfl
    | ok source =>
      rw [hsource] at hrest
      exact Project.render_congr ⟨c, files, launch⟩ source
        (hrest.mono fun _ hpath => List.mem_cons_of_mem _ hpath)

/-- A file that is not read leaves the rendering as it was. -/
theorem rendered_of_wrote {place : Location} {bytes : ByteArray}
    (hwrote : Wrote files place bytes after)
    (h : ∀ path ∈ i.reads files, files.locate? files.home path ≠ some place) :
    i.rendered launch after = i.rendered launch files := by
  apply rendered_congr hwrote.home
  intro path hpath
  rw [hwrote.bytes?_eq, if_neg (h path hpath)]

/-! ## What a call writes -/

/-- The writing of a rendering ends well with the file written, or not with the files as they
were. -/
theorem renderTask_cases (hasColor : Bool) (files : FileTree) (text path : String) :
    ((renderTask hasColor files text (some path)).status = 2 ∧
        (renderTask hasColor files text (some path)).files = files) ∨
      ((renderTask hasColor files text (some path)).status = 0 ∧
        ∃ place, files.locate? files.home path = some place ∧
          Wrote files place text.toUTF8 (renderTask hasColor files text (some path)).files) := by
  unfold renderTask
  dsimp only
  cases hwrite : files.write path text with
  | error e => exact .inl ⟨rfl, rfl⟩
  | ok after => exact .inr ⟨rfl, FileTree.wrote_of_write hwrite⟩

/-- A check leaves the files alone. -/
theorem files_checkTask (hasColor : Bool) (files : FileTree) (document text path : String)
    (showsDiff : Bool) : (checkTask hasColor files document text path showsDiff).files = files := by
  unfold checkTask
  cases current files path with
  | error e => rfl
  | ok old =>
    dsimp only
    split <;> rfl

/-- A check passes right behind the writing of the file, if the rendering does not read it. -/
theorem status_check_of_wrote {text path : String} {place : Location}
    (hrendered : i.rendered launch files = .ok text)
    (hplace : files.locate? files.home path = some place)
    (hwrote : Wrote files place text.toUTF8 after)
    (h : ∀ read ∈ i.reads files, files.locate? files.home read ≠ some place) (showsDiff : Bool) :
    (({ i with task := .check path showsDiff } : Invocation).perform launch color after).status =
      0 := by
  have hagain : i.rendered launch after = .ok text := (rendered_of_wrote hwrote h).trans hrendered
  have hbytes : after.bytes? path = some text.toUTF8 := by
    rw [hwrote.bytes?_eq, if_pos hplace]
  have hread : after.readText path = .ok text := FileTree.readText_eq_ok_iff.mpr hbytes
  rw [perform_check hagain, status_checkTask, current_of_isFile (isFile_of_readText hread), hread]
  exact if_pos rfl

/-- **What a call does to files**, for every invocation and all files, with commands that touch no
file. A check and a rendering that is printed change nothing. A rendering to a file that does not
end with 0 changes nothing, and it never ends with 0 when the rendering alone fails. One that ends
with 0 changes the file that it was given and nothing else; the file then holds what is printed
without it; and when the file is none of those that are read, a check against it passes right
afterwards. -/
theorem perform_effects (i : Invocation) (launch : Launcher) (color : Bool) (files : FileTree) :
    let effect (task : Task) := ({ i with task := task } : Invocation).perform launch color files
    (∀ path showsDiff, (effect (.check path showsDiff)).files = files) ∧
    (effect (.render none)).files = files ∧
    ∀ path,
      ((effect (.render (some path))).status ≠ 0 → (effect (.render (some path))).files = files) ∧
      ((effect (.render none)).status ≠ 0 → (effect (.render (some path))).status ≠ 0) ∧
      ((effect (.render (some path))).status = 0 →
        ∃ place, files.locate? files.home path = some place ∧
          Wrote files place (effect (.render none)).output.toUTF8
            (effect (.render (some path))).files ∧
          ((∀ read ∈ i.reads files, files.locate? files.home read ≠ some place) → ∀ showsDiff,
            (({ i with task := .check path showsDiff } : Invocation).perform launch color
              (effect (.render (some path))).files).status = 0)) := by
  intro effect
  cases hrendered : i.rendered launch files with
  | error e =>
    have hfailure : ∀ task, effect task =
        .failure files (Effect.report (color && !i.noColor) e) := perform_of_error hrendered
    simp only [hfailure]
    refine ⟨fun _ _ => rfl, rfl, fun path => ⟨fun _ => rfl, fun h => h, fun h => ?_⟩⟩
    cases h
  | ok text =>
    have hprint : effect (.render none) = ⟨0, text, "", files⟩ := perform_print hrendered
    have hwrite : ∀ path, effect (.render (some path)) =
        renderTask (color && !i.noColor) files text (some path) := fun _ => perform_write hrendered
    refine ⟨fun path showsDiff => ?_, by rw [hprint], fun path => ?_⟩
    · have hcheck : effect (.check path showsDiff) =
          checkTask (color && !i.noColor) files i.document text path showsDiff :=
        perform_check hrendered
      rw [hcheck, files_checkTask]
    · rw [hprint, hwrite]
      rcases renderTask_cases (color && !i.noColor) files text path with
        ⟨hstatus, hfiles⟩ | ⟨hstatus, place, hplace, hwrote⟩
      · rw [hstatus, hfiles]
        exact ⟨fun _ => rfl, fun h => absurd rfl h, fun h => absurd h (by decide)⟩
      · refine ⟨fun h => absurd hstatus h, fun h => absurd rfl h, fun _ => ?_⟩
        exact ⟨place, hplace, hwrote, fun h showsDiff =>
          status_check_of_wrote hrendered hplace hwrote h showsDiff⟩

end LiveDoc.CommandLine.Invocation
