import LiveDoc.Files

/-!
# What the writing of a file changes

A file that is written lies where no directory is, below a directory that is there. So nothing that
could be found before is hidden, and every path leads to the same place afterwards; only at the
place of the file something else is found.

* `Wrote` — what a tree of files is after a write, told by what is found at each place;
* `wrote_of_write` — every write that succeeds is of this kind;
* `Wrote.bytes?_eq` — the bytes behind every path after a write.
-/

namespace LiveDoc.FileTree

variable {files after : FileTree} {place : Location} {bytes : ByteArray}

/-! ## Texts and their bytes -/

/-- Bytes are decoded to the text that they encode, and only those. -/
theorem fromUTF8?_eq_some_iff {text : String} :
    String.fromUTF8? bytes = some text ↔ bytes = text.toUTF8 := by
  unfold String.fromUTF8?
  constructor
  · intro h
    split at h
    · rw [← Option.some.inj h]
      rfl
    · cases h
  · rintro rfl
    exact dif_pos text.isValidUTF8

/-- The text of a file is read exactly when its bytes are there. -/
theorem readText_eq_ok_iff {path text : String} :
    files.readText path = .ok text ↔ files.bytes? path = some text.toUTF8 := by
  unfold readText
  cases hbytes : files.bytes? path with
  | none => simp
  | some bytes =>
    rw [Option.bind_some, Option.some.injEq, ← fromUTF8?_eq_some_iff]
    cases String.fromUTF8? bytes <;> simp

/-- What is read at a path depends on the bytes there alone. -/
theorem readText_congr {path : String} (h : after.bytes? path = files.bytes? path) :
    after.readText path = files.readText path := by
  unfold readText
  rw [h]

theorem isFile_congr {path : String} (h : after.bytes? path = files.bytes? path) :
    after.isFile path = files.isFile path := by
  unfold isFile
  rw [h]

theorem isFile_eq_false_iff {path : String} :
    files.isFile path = false ↔ files.bytes? path = none := by
  unfold isFile
  cases files.bytes? path <;> simp

/-! ## Putting something at a place -/

/-- Entries that are overwritten at one place are found where they were found before. -/
theorem find?_overwritten (entries : List (Location × Entry)) (place other : Location) (e : Entry) :
    (entries.map fun old => if old.1 = place then (place, e) else old).find? (·.1 = other) =
      (entries.find? (·.1 = other)).map fun old =>
        if other = place then (place, e) else old := by
  have hsame : (fun x : Location × Entry => decide (x.1 = other)) ∘
      (fun old => if old.1 = place then (place, e) else old) = fun x => decide (x.1 = other) := by
    funext old
    by_cases hold : old.1 = place <;> simp [hold]
  rw [List.find?_map, hsame]
  cases hfound : entries.find? (·.1 = other) with
  | none => rfl
  | some old =>
    have hold : old.1 = other := by simpa using List.find?_some hfound
    simp [hold]

/-- What is at a place after something was put somewhere. -/
theorem entryAt_put (files : FileTree) (place other : Location) (e : Entry) :
    FileTree.entry? (files.put place e) other =
      if other = place ∧ other.isPrefixOf files.home = false then some e
      else files.entry? other := by
  have hhome : (files.put place e).home = files.home := by
    unfold put
    split <;> rfl
  unfold entry?
  rw [hhome]
  by_cases habove : other.isPrefixOf files.home = true
  · simp [habove]
  rw [if_neg habove, if_neg habove]
  unfold put
  split
  · next hany =>
    -- the entries of the place are overwritten where they stand
    dsimp only
    rw [find?_overwritten]
    by_cases hother : other = place
    · subst hother
      obtain ⟨old, hold⟩ : ∃ old, files.entries.find? (·.1 = other) = some old := by
        rw [← Option.isSome_iff_exists, List.find?_isSome]
        simpa using hany
      simp [hold, habove]
    · simp [hother]
  · next hany =>
    -- there was no entry of the place, so the new one is the first
    rw [List.find?_append]
    by_cases hother : other = place
    · subst hother
      have hnone : files.entries.find? (·.1 = other) = none :=
        List.find?_eq_none.mpr fun x hx heq => hany (List.any_eq_true.mpr ⟨x, hx, heq⟩)
      simp [hnone, habove]
    · have hne : ¬ place = other := fun h => hother h.symm
      simp [hother, hne]

/-! ## Writing -/

/-- The files `after` are the files `before` with a file at a place where no directory was. -/
structure Wrote (before : FileTree) (place : Location) (bytes : ByteArray) (after : FileTree) :
    Prop where
  home : after.home = before.home
  entry : after.entry? place = some (.file bytes)
  others : ∀ other, other ≠ place → after.entry? other = before.entry? other
  vacant : before.hasDirectory place = false

namespace Wrote

variable {before : FileTree}

/-- There are the directories that were there before. -/
theorem hasDirectory_eq (h : Wrote before place bytes after) (other : Location) :
    after.hasDirectory other = before.hasDirectory other := by
  by_cases hother : other = place
  · rw [hother, h.vacant, hasDirectory, h.entry]
  · rw [hasDirectory, hasDirectory, h.others other hother]

/-- The way over directories leads where it led before. -/
theorem follow_eq (h : Wrote before place bytes after) (steps : List String) :
    ∀ start : Location, after.follow start steps = before.follow start steps := by
  induction steps with
  | nil => intro start; rfl
  | cons step rest ih =>
    intro start
    rw [follow, follow, h.hasDirectory_eq]
    simp only [ih]

/-- Every path leads where it led before. -/
theorem locate?_eq (h : Wrote before place bytes after) (path : String) :
    after.locate? after.home path = before.locate? before.home path := by
  unfold locate?
  rw [h.home]
  simp only [h.follow_eq]

/-- A path leads to the new file, or to what it led to before. -/
theorem bytes?_eq (h : Wrote before place bytes after) (path : String) :
    after.bytes? path =
      if before.locate? before.home path = some place then some bytes
      else before.bytes? path := by
  unfold bytes? bytesFrom?
  rw [h.locate?_eq]
  cases before.locate? before.home path with
  | none => rfl
  | some found =>
    rw [Option.bind_some, Option.bind_some]
    by_cases hfound : found = place
    · rw [if_pos (congrArg some hfound), hfound, h.entry]
    · rw [if_neg (fun heq => hfound (Option.some.inj heq)), h.others found hfound]

end Wrote

/-- A write that succeeds puts the text into the file that the path leads to. -/
theorem wrote_of_write {path text : String} (h : files.write path text = .ok after) :
    ∃ place, files.locate? files.home path = some place ∧
      Wrote files place text.toUTF8 after := by
  unfold write at h
  cases hplace : files.locate? files.home path with
  | none => simp [hplace] at h
  | some place =>
    refine ⟨place, rfl, ?_⟩
    rw [hplace, Option.bind_some, writeAt] at h
    by_cases hrefused : (place.isEmpty || files.hasDirectory place ||
        !files.hasDirectory place.dropLast) = true
    · rw [if_pos hrefused] at h
      cases h
    rw [if_neg hrefused] at h
    simp only [Except.ok.injEq] at h
    simp only [Bool.or_eq_true, not_or, Bool.not_eq_true] at hrefused
    have hvacant : files.hasDirectory place = false := hrefused.1.2
    -- the directories down to the current one are there, so the file is none of them
    have hbelow : place.isPrefixOf files.home = false := by
      rw [Bool.eq_false_iff]
      intro habove
      rw [hasDirectory, entry?, if_pos habove] at hvacant
      cases hvacant
    subst h
    refine ⟨?_, ?_, ?_, hvacant⟩
    · unfold put
      split <;> rfl
    · rw [entryAt_put, if_pos ⟨rfl, hbelow⟩]
    · intro other hother
      rw [entryAt_put, if_neg (fun hand => hother hand.1)]

end LiveDoc.FileTree
