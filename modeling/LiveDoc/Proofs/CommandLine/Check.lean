import LiveDoc.CommandLine.Effect
import LiveDoc.Proofs.Files.Writing

/-!
# What a check finds out

`check` renders a document and compares the text with a file. What it compares with is what `render`
prints when it is asked in the same way, and the status tells how the comparison went.

* `check_status` — the status of every check, told by the file alone: 0 when it holds the bytes of
  the rendering, 1 when it holds another text, 2 when it cannot be read as text;
* a file that is not there is compared as an empty text, so it is out of date, unless the rendering
  is empty as well (`check_passes_without_file`).
-/

namespace LiveDoc.CommandLine.Invocation

variable {i : Invocation} {launch : Launcher} {color : Bool} {files : FileTree}

/-! ## One rendering for all tasks -/

/-- What is rendered does not depend on what is to be done with it. -/
theorem rendered_task (i : Invocation) (task : Task) :
    ({ i with task := task } : Invocation).rendered launch files = i.rendered launch files := rfl

/-- A rendering that fails ends every task in the same way, and leaves the files alone. -/
theorem perform_of_error {e : Error} (h : i.rendered launch files = .error e) (task : Task) :
    ({ i with task := task } : Invocation).perform launch color files =
      .failure files (Effect.report (color && !i.noColor) e) := by
  rw [perform, rendered_task, h]

/-- A rendering that succeeds is printed when there is no file to write. -/
theorem perform_print {text : String} (h : i.rendered launch files = .ok text) :
    ({ i with task := .render none } : Invocation).perform launch color files =
      ⟨0, text, "", files⟩ := by
  rw [perform, rendered_task, h]
  rfl

/-- A rendering that succeeds is written to the file that was named. -/
theorem perform_write {text path : String} (h : i.rendered launch files = .ok text) :
    ({ i with task := .render (some path) } : Invocation).perform launch color files =
      renderTask (color && !i.noColor) files text (some path) := by
  rw [perform, rendered_task, h]

/-- A rendering that succeeds is compared with the file that was named. -/
theorem perform_check {text path : String} {showsDiff : Bool}
    (h : i.rendered launch files = .ok text) :
    ({ i with task := .check path showsDiff } : Invocation).perform launch color files =
      checkTask (color && !i.noColor) files i.document text path showsDiff := by
  rw [perform, rendered_task, h]

/-! ## The comparison -/

/-- The status of a comparison. -/
theorem status_checkTask (hasColor : Bool) (files : FileTree) (document text path : String)
    (showsDiff : Bool) :
    (checkTask hasColor files document text path showsDiff).status =
      match current files path with
      | .error _ => 2
      | .ok old => if old = text then 0 else 1 := by
  unfold checkTask
  cases current files path with
  | error e => rfl
  | ok old =>
    dsimp only
    split <;> rfl

/-- A file that is not there is compared as an empty text. -/
theorem current_of_missing {path : String} (h : files.isFile path = false) :
    current files path = .ok "" := by
  rw [current, h]
  rfl

theorem current_of_isFile {path : String} (h : files.isFile path = true) :
    current files path = files.readText path := by
  rw [current, if_pos h]

/-- A text that can be read is read from a file. -/
theorem isFile_of_readText {path old : String} (h : files.readText path = .ok old) :
    files.isFile path = true := by
  rw [FileTree.readText_eq_ok_iff] at h
  rw [FileTree.isFile, h]
  rfl

/-- **What the status of a check says**, for every invocation and all files. When the same
invocation of `render` succeeds, the check ends with 0 exactly when the file holds what is printed,
byte for byte, or when it is not there and nothing is printed; with 1 exactly when the file holds
another text, or when it is not there and something is printed; and with 2 exactly when there is a
file that cannot be read as text. When rendering fails, the check ends with 2. -/
theorem check_status (i : Invocation) (path : String) (showsDiff : Bool) (launch : Launcher)
    (color : Bool) (files : FileTree) :
    let checked :=
      ({ i with task := .check path showsDiff } : Invocation).perform launch color files
    let printed := ({ i with task := .render none } : Invocation).perform launch color files
    (printed.status = 0 →
      (checked.status = 0 ↔ files.bytes? path = some printed.output.toUTF8 ∨
        files.isFile path = false ∧ printed.output = "") ∧
      (checked.status = 1 ↔ (∃ old, files.readText path = .ok old ∧ old ≠ printed.output) ∨
        files.isFile path = false ∧ printed.output ≠ "") ∧
      (checked.status = 2 ↔ files.isFile path = true ∧ ∃ e, files.readText path = .error e)) ∧
    (printed.status ≠ 0 → checked.status = 2) := by
  intro checked printed
  cases hrendered : i.rendered launch files with
  | error e =>
    have hchecked : checked.status = 2 :=
      congrArg Effect.status (perform_of_error hrendered (.check path showsDiff))
    have hprinted : printed.status = 2 :=
      congrArg Effect.status (perform_of_error hrendered (.render none))
    exact ⟨fun h => absurd (hprinted.symm.trans h) (by decide), fun _ => hchecked⟩
  | ok text =>
    have hprinted : printed = ⟨0, text, "", files⟩ := perform_print hrendered
    have hchecked : checked.status = match current files path with
        | .error _ => 2
        | .ok old => if old = text then 0 else 1 := by
      rw [← status_checkTask (color && !i.noColor) files i.document text path showsDiff,
        ← perform_check hrendered]
    rw [hprinted, hchecked]
    refine ⟨fun _ => ?_, fun h => absurd rfl h⟩
    cases hfile : files.isFile path with
    | false =>
      -- nothing is there: the rendering is compared with the empty text
      have hnone := FileTree.isFile_eq_false_iff.mp hfile
      have hread : ∀ old, files.readText path ≠ .ok old := fun old hold =>
        absurd ((isFile_of_readText hold).symm.trans hfile) (by decide)
      rw [current_of_missing hfile, hnone]
      by_cases htext : text = ""
      · simp [htext, hread]
      · simp [Ne.symm htext, htext]
    | true =>
      rw [current_of_isFile hfile, ← FileTree.readText_eq_ok_iff]
      cases files.readText path with
      | error e => simp
      | ok old => by_cases hold : old = text <;> simp [hold]

/-! ## A rendering of nothing -/

/-- A directory with an empty document in it. -/
def emptyDocument : FileTree := (FileTree.empty ["work"]).add "t.md" .empty

/-- A check of the document against a file that is not there. -/
def missingOutput : Invocation :=
  ⟨.check "o.md" false, "t.md", ⟨none, false, none, false⟩, none, false, false⟩

/-- A check passes although the file is not there, when the document renders to nothing. So it is
not so that a check passes exactly when the file holds what is printed. -/
theorem check_passes_without_file :
    ¬ ∀ (i : Invocation) (path : String) (showsDiff : Bool) (launch : Launcher) (color : Bool)
      (files : FileTree),
      (({ i with task := .render none } : Invocation).perform launch color files).status = 0 →
        ((({ i with task := .check path showsDiff } : Invocation).perform launch color
            files).status = 0 ↔
          files.bytes? path = some
            (({ i with task := .render none } : Invocation).perform launch color
              files).output.toUTF8) := by
  intro h
  have hprinted : (({ missingOutput with task := .render none } : Invocation).perform
      (fun _ _ => .notStarted) false emptyDocument).status = 0 := by decide +kernel
  have hchecked : (({ missingOutput with task := .check "o.md" false } : Invocation).perform
      (fun _ _ => .notStarted) false emptyDocument).status = 0 := by decide +kernel
  have hmissing : emptyDocument.isFile "o.md" = false := by decide +kernel
  have hbytes := (h missingOutput "o.md" false _ false emptyDocument hprinted).mp hchecked
  rw [FileTree.isFile_eq_false_iff.mp hmissing] at hbytes
  cases hbytes

end LiveDoc.CommandLine.Invocation
