import LiveDoc.Files
import LiveDoc.Proofs.Text.Pieces

/-!
# Where paths lead

A path is looked up by the names between its slashes. Only an empty name, `.` and `..` are not
followed into the directory of that name, so a path of other names leads further down (`IsPlain`).

* `Path.steps_intercalate` — the names on a path that is put together from names;
* `FileTree.placeOf_join` — a relative path of plain names, seen from a directory, leads below it;
* `FileTree.eq_placeOf_of_locate?` — whatever is there, no path leads to another place than the one
  that it names.
-/

namespace LiveDoc

namespace Path

variable {base path : String}

/-- A name that leads to what has it in a directory. -/
structure IsPlain (step : String) : Prop where
  named : step ≠ ""
  notHere : step ≠ "."
  notUp : step ≠ ".."
  unbroken : '/' ∉ step.toList

/-- The names that a path is put together from. -/
theorem steps_intercalate {names : List String} (hne : names ≠ [])
    (h : ∀ n ∈ names, '/' ∉ n.toList) :
    steps ("/".intercalate names) = names := by
  have hpieces : ∀ p ∈ names.map String.toList, '/' ∉ p := by
    intro p hp
    obtain ⟨n, hn, rfl⟩ := List.mem_map.mp hp
    exact h n hn
  have hsplit := Text.split_join (by simpa using hne) hpieces
  rw [Text.join_eq_intercalate] at hsplit
  rw [steps, String.toList_intercalate]
  refine (congrArg (List.map String.ofList) hsplit).trans ?_
  rw [List.map_map]
  exact List.map_id'' (fun n => String.ofList_toList) names

/-- The names on both sides of a slash. -/
theorem steps_append (base path : String) :
    steps (base ++ "/" ++ path) = steps base ++ steps path := by
  have htext : (base ++ "/" ++ path).toList = base.toList ++ '/' :: path.toList := by simp
  rw [steps, htext, Text.split_append, List.map_append]
  rfl

/-- An absolute path starts with an empty name. -/
theorem isAbsolute_of_steps {first : String} {rest : List String} (h : steps path = first :: rest)
    (hfirst : first ≠ "") : isAbsolute path = false := by
  refine decide_eq_false fun hhead => hfirst ?_
  obtain ⟨more, hmore⟩ := List.head?_eq_some_iff.mp hhead
  rw [steps, hmore, Text.split, if_pos rfl] at h
  exact (List.cons.inj h).1.symm

/-- The first character tells whether a path is absolute. -/
theorem isAbsolute_append (h : base ≠ "") (path : String) :
    isAbsolute (base ++ path) = isAbsolute base := by
  cases htext : base.toList with
  | nil => exact absurd (String.toList_eq_nil_iff.mp htext) h
  | cons c rest => simp [isAbsolute, htext]

/-- What a relative path becomes, seen from a directory. -/
theorem join_cases (base : String) (h : isAbsolute path = false) :
    (base = "" ∧ join base path = path) ∨
      (∃ front, base = front ++ "/" ∧ join base path = front ++ "/" ++ path) ∨
      (base ≠ "" ∧ join base path = base ++ "/" ++ path) := by
  unfold join
  rw [if_neg (by simp [h])]
  split
  · next hempty => exact Or.inl ⟨String.isEmpty_toSlice_iff.mp hempty, rfl⟩
  · next hempty =>
    have hne : base ≠ "" := by
      rintro rfl
      exact hempty rfl
    split
    · next hends =>
      rw [Text.endsWith_eq, decide_eq_true_eq] at hends
      obtain ⟨front, hfront⟩ := List.getLast?_eq_some_iff.mp hends
      refine Or.inr (Or.inl ⟨String.ofList front, ?_, ?_⟩)
      all_goals
        rw [← String.toList_inj]
        simp [hfront]
    · exact Or.inr (Or.inr ⟨hne, rfl⟩)

/-- A path seen from a directory starts with the directory. -/
theorem prefix_join (h : isAbsolute path = false) : base.toList <+: (join base path).toList := by
  rcases join_cases base h with ⟨rfl, -⟩ | ⟨front, rfl, hjoin⟩ | ⟨-, hjoin⟩
  · exact List.nil_prefix
  · exact ⟨path.toList, by rw [hjoin, String.toList_append (t := path)]⟩
  · exact ⟨'/' :: path.toList, by simp [hjoin]⟩

end Path

namespace FileTree

variable {path : String}

/-- The place that a name leads to from a place. -/
def advance (place : Location) (step : String) : Location :=
  if step = "" || step = "." then place
  else if step = ".." then place.dropLast
  else place ++ [step]

theorem placeOf_eq (files : FileTree) (path : String) : files.placeOf path =
    (Path.steps path).foldl advance (if Path.isAbsolute path then [] else files.home) := rfl

/-- Plain names lead down, one by one. -/
theorem foldl_advance {names : List String} (h : ∀ step ∈ names, Path.IsPlain step)
    (start : Location) :
    names.foldl advance start = start ++ names := by
  induction names generalizing start with
  | nil => exact (List.append_nil start).symm
  | cons step more ih =>
    obtain ⟨hstep, hmore⟩ := List.forall_mem_cons.mp h
    have hdown : advance start step = start ++ [step] := by
      rw [advance, if_neg (by simp [hstep.named, hstep.notHere]), if_neg hstep.notUp]
    rw [List.foldl_cons, hdown, ih hmore, List.append_assoc, List.singleton_append]

/-- **A relative path of plain names leads below the directory it is seen from.** -/
theorem placeOf_join (files : FileTree) (base : String) (h : Path.isAbsolute path = false)
    (hplain : ∀ step ∈ Path.steps path, Path.IsPlain step) :
    files.placeOf (Path.join base path) = files.placeOf base ++ Path.steps path := by
  rcases Path.join_cases base h with ⟨rfl, hjoin⟩ | ⟨front, rfl, hjoin⟩ | ⟨hne, hjoin⟩
  · rw [hjoin, placeOf_eq, h, if_neg Bool.false_ne_true, foldl_advance hplain]
    rfl
  · have hne : front ++ "/" ≠ "" := fun hnil => by simpa using congrArg String.toList hnil
    -- the empty name behind the last slash stays
    have hback : Path.steps (front ++ "/") = Path.steps front ++ [""] := by
      rw [← String.append_empty (s := front ++ "/"), Path.steps_append]
      rfl
    rw [hjoin, placeOf_eq, Path.isAbsolute_append hne, Path.steps_append, List.foldl_append,
      foldl_advance hplain, placeOf_eq, hback, List.foldl_append]
    rfl
  · have hlead : Path.isAbsolute (base ++ "/" ++ path) = Path.isAbsolute base := by
      rw [String.append_assoc, Path.isAbsolute_append hne]
    rw [hjoin, placeOf_eq, hlead, Path.steps_append, List.foldl_append, foldl_advance hplain]
    rfl

/-- Names are followed to the place that they name, or not at all. -/
theorem eq_of_follow {files : FileTree} {names : List String} {start place : Location}
    (h : files.follow start names = some place) :
    place = names.foldl advance start := by
  induction names generalizing start with
  | nil => exact (Option.some.inj h).symm
  | cons step more ih =>
    rw [follow] at h
    rw [List.foldl_cons, advance]
    split at h
    · split at h
      · next hidle => rw [if_pos hidle, ih h]
      · next hidle =>
        rw [if_neg hidle]
        split at h
        · next hup => rw [if_pos hup, ih h]
        · next hup => rw [if_neg hup, ih h]
    · cases h

/-- **A path leads to the place that it names**, or nowhere. -/
theorem eq_placeOf_of_locate? {files : FileTree} {place : Location}
    (h : files.locate? files.home path = some place) : place = files.placeOf path := by
  unfold locate? at h
  split at h
  · cases h
  · exact eq_of_follow h

end FileTree

end LiveDoc
