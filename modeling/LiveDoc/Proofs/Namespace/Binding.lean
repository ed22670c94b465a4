import LiveDoc.Namespace

/-!
# Where bound values come from

A function is called with values for its parameters. Whatever value a parameter has then, it was
passed at the position of the parameter or under its name, or it is the default of the parameter
(`Function.source_of_bind`).
-/

namespace LiveDoc.Function

/-- A slot holds what was in it before, or the value of a keyword that names its parameter. -/
theorem source_of_fillSlots {parameters : List Parameter} {i : Nat} {v : Value}
    (keywords : List (String × Value)) : ∀ {slots filled : List (Option Value)},
    fillSlots parameters keywords slots = .ok filled → filled[i]? = some (some v) →
      slots[i]? = some (some v) ∨
        ∃ key, (key, v) ∈ keywords ∧ parameters.findIdx? (·.name = key) = some i := by
  induction keywords with
  | nil =>
    intro slots filled h hv
    cases h
    exact .inl hv
  | cons keyword rest ih =>
    obtain ⟨key, value⟩ := keyword
    intro slots filled h hv
    rw [fillSlots] at h
    cases hindex : parameters.findIdx? (·.name = key) with
    | none => simp [hindex] at h
    | some k =>
      simp only [hindex] at h
      split at h
      · cases h
      · rcases ih h hv with hslot | ⟨other, hmem, hother⟩
        · by_cases hk : k = i
          · subst hk
            -- the slot was filled by this keyword
            obtain ⟨hlt, hset⟩ := List.getElem?_eq_some_iff.mp hslot
            rw [List.getElem_set_self, Option.some.injEq] at hset
            exact .inr ⟨key, hset ▸ List.mem_cons_self, hindex⟩
          · rw [List.getElem?_set_ne hk] at hslot
            exact .inl hslot
        · exact .inr ⟨other, List.mem_cons_of_mem _ hmem, hother⟩

/-- A collected value was in the slot of a parameter of its name, or is the default of one. -/
theorem source_of_collect {name : String} {v : Value} (parameters : List Parameter) :
    ∀ {slots : List (Option Value)} {values collected : Store Value},
    collect parameters slots values = .ok collected → collected.get? name = some v →
      values.get? name = some v ∨ ∃ (i : Nat) (p : Parameter), parameters[i]? = some p ∧
        p.name = name ∧
        (slots[i]? = some (some v) ∨ p.default = some v) := by
  induction parameters with
  | nil =>
    intro slots values collected h hv
    cases h
    exact .inl hv
  | cons p rest ih =>
    intro slots values collected h hv
    cases slots with
    | nil =>
      cases h
      exact .inl hv
    | cons slot slots =>
      rw [collect] at h
      cases hvalue : slot.or p.default with
      | none => simp [hvalue] at h
      | some value =>
        simp only [hvalue] at h
        rcases ih h hv with hput | ⟨i, q, hq, hname, hsource⟩
        · by_cases hp : p.name = name
          · rw [hp, Store.get?_put_self, Option.some.injEq] at hput
            subst hput
            refine .inr ⟨0, p, rfl, hp, ?_⟩
            cases slot with
            | none => exact .inr hvalue
            | some w => exact .inl (congrArg some hvalue)
          · rw [Store.get?_put_of_ne hp] at hput
            exact .inl hput
        · exact .inr ⟨i + 1, q, hq, hname, hsource⟩

/-- **The value of a parameter** was passed at its position or under its name, or is its default. -/
theorem source_of_bind {f : Function} {positional : List Value} {keywords : List (String × Value)}
    {args : Arguments} {name : String} {v : Value} (h : f.bind positional keywords = .ok args)
    (hv : args.values.get? name = some v) :
    ∃ (i : Nat) (p : Parameter), f.parameters[i]? = some p ∧ p.name = name ∧
      (positional[i]? = some v ∨ (name, v) ∈ keywords ∨ p.default = some v) := by
  unfold bind bindValues at h
  split at h
  next values hvalues =>
    cases h
    split at hvalues
    · cases hvalues
    · cases hslots : fillSlots f.parameters keywords (positionalSlots f.parameters positional) with
      | error fault => simp [hslots] at hvalues
      | ok slots =>
        simp only [hslots] at hvalues
        rcases source_of_collect f.parameters hvalues hv with hnone | ⟨i, p, hp, hname, hsource⟩
        · cases hnone
        refine ⟨i, p, hp, hname, ?_⟩
        rcases hsource with hslot | hdefault
        · rcases source_of_fillSlots keywords hslots hslot with hpositional | ⟨key, hkey, hindex⟩
          · left
            rw [positionalSlots] at hpositional
            rcases Nat.lt_or_ge i positional.length with hlt | hge
            · rw [List.getElem?_append_left (by simpa using hlt)] at hpositional
              simpa using hpositional
            · rw [List.getElem?_append_right (by simpa using hge), List.getElem?_replicate]
                at hpositional
              split at hpositional <;> simp at hpositional
          · -- the keyword names the parameter of the slot
            right; left
            obtain ⟨hlt, hfound, -⟩ := List.findIdx?_eq_some_iff_getElem.mp hindex
            rw [List.getElem?_eq_getElem hlt, Option.some.injEq] at hp
            rw [hp, decide_eq_true_eq, hname] at hfound
            exact hfound ▸ hkey
        · exact .inr (.inr hdefault)
  · cases h

end LiveDoc.Function
