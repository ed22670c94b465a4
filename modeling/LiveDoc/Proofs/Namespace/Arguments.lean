import LiveDoc.Proofs.Namespace.Session

/-!
# Which arguments fit a function

A call passes some values by position and others by name. Binding puts them into one slot for each
declared parameter, where the positional values come first and no slot is filled twice, and then
takes the default of every parameter whose slot stayed empty.

* **step** — the keywords fill the slots of the parameters that they name, if all of these are free
  (`fillSlots_eq_ok_iff`), and every parameter takes its slot or its default (`collect_eq_ok_iff`);
* **both** — arguments are bound exactly when they fit (`Fits`), and what they are bound to is known
  for each parameter (`bindValues_eq_ok_iff`);
* `bind_exact` — binding as a whole, and that the same values passed in another way bind the same.
-/

namespace LiveDoc

/-! ## Stores of distinct names -/

namespace Store

variable {α : Type} {s t : Store α} {name : String}

theorem mem_names_of_mem {v : α} (h : (name, v) ∈ s) : name ∈ s.names := List.mem_map_of_mem h

theorem put_of_not_mem (h : name ∉ s.names) (value : α) :
    s.put name value = s ++ [(name, value)] := by
  induction s with
  | nil => rfl
  | cons e rest ih =>
    obtain ⟨n, v⟩ := e
    obtain ⟨hne, hrest⟩ := not_or.mp (mt List.mem_cons.mpr h)
    rw [put, if_neg (Ne.symm hne), ih hrest, List.cons_append]

theorem get?_append (name : String) (s t : Store α) :
    get? name (s ++ t) = (get? name s).or (get? name t) := by
  induction s with
  | nil => rfl
  | cons e rest ih =>
    obtain ⟨n, v⟩ := e
    rw [List.cons_append, get?, get?]
    split
    · rfl
    · exact ih

/-- When no name comes twice, what is in a store is found in it. -/
theorem get?_eq_some_iff (h : s.names.Nodup) {v : α} : s.get? name = some v ↔ (name, v) ∈ s := by
  induction s with
  | nil => simp [get?]
  | cons e rest ih =>
    obtain ⟨n, w⟩ := e
    obtain ⟨hn, hrest⟩ := List.nodup_cons.mp h
    rw [get?, List.mem_cons, Prod.mk.injEq]
    split
    · next heq =>
      subst heq
      have hnot : (n, v) ∉ rest := fun hmem => hn (mem_names_of_mem hmem)
      simp [hnot, eq_comm]
    · next hne => simp [ih hrest, Ne.symm hne]

/-- When no name comes twice, the order does not matter to what is found. -/
theorem get?_of_perm (h : s.Perm t) (hnodup : s.names.Nodup) (name : String) :
    t.get? name = s.get? name := by
  have hnodup' : t.names.Nodup := (h.map Prod.fst).nodup_iff.mp hnodup
  exact Option.ext fun v => by rw [get?_eq_some_iff hnodup, get?_eq_some_iff hnodup', h.mem_iff]

theorem get?_zip {names : List String} (hnodup : names.Nodup) {i : Nat} (h : names[i]? = some name)
    (vs : List α) : get? name (names.zip vs) = vs[i]? := by
  induction names generalizing i vs with
  | nil => cases h
  | cons n rest ih =>
    obtain ⟨hn, hrest⟩ := List.nodup_cons.mp hnodup
    cases vs with
    | nil => rfl
    | cons v vs =>
      rw [List.zip_cons_cons, get?]
      cases i with
      | zero =>
        cases h
        rw [if_pos rfl, List.getElem?_cons_zero]
      | succ i =>
        rw [List.getElem?_cons_succ] at h ⊢
        rw [if_neg fun heq : n = name => hn (heq ▸ List.mem_of_getElem? h), ih hrest h]

theorem names_zip (names : List String) (vs : List α) :
    Store.names (names.zip vs) = names.take vs.length := by
  induction names generalizing vs with
  | nil => rw [List.zip_nil_left, List.take_nil]; rfl
  | cons n rest ih =>
    cases vs with
    | nil => rfl
    | cons v vs => exact congrArg (n :: ·) (ih vs)

end Store

namespace Function

variable {parameters : List Parameter} {positional : List Value} {keywords : List (String × Value)}
  {slots : List (Option Value)}

/-- Arguments fit declared parameters: every argument has a parameter of its own, and every
parameter gets a value. -/
structure Fits (parameters : List Parameter) (positional : List Value)
    (keywords : List (String × Value)) : Prop where
  few : positional.length ≤ parameters.length
  declared : ∀ key ∈ Store.names keywords, key ∈ parameters.map Parameter.name
  distinct : (Store.names keywords).Nodup
  /-- No keyword names a parameter that has its value by position. -/
  free : ∀ key ∈ Store.names keywords,
    key ∉ (parameters.take positional.length).map Parameter.name
  /-- What is not passed has a default. -/
  complete : ∀ p ∈ parameters.drop positional.length, p.name ∉ Store.names keywords →
    p.default.isSome = true

/-- The values of all parameters, where there is one: by position, by name, or by default. -/
def given (parameters : List Parameter) (positional : List Value)
    (keywords : List (String × Value)) : List (Option Value) :=
  parameters.mapIdx fun i p => positional[i]?.or ((Store.get? p.name keywords).or p.default)

/-! ## Filling slots -/

theorem eq_of_name_eq (h : (parameters.map Parameter.name).Nodup) {i j : Nat} {p q : Parameter}
    (hp : parameters[i]? = some p) (hq : parameters[j]? = some q) (hname : p.name = q.name) :
    i = j := by
  have hi : (parameters.map Parameter.name)[i]? = some p.name := by rw [List.getElem?_map, hp]; rfl
  have hj : (parameters.map Parameter.name)[j]? = some p.name := by
    rw [List.getElem?_map, hq, hname]; rfl
  have hlt : i < (parameters.map Parameter.name).length := (List.getElem?_eq_some_iff.mp hi).1
  exact (List.getElem?_inj hlt h).mp (hi.trans hj.symm)

/-- Keywords can fill slots: each names a parameter of its own whose slot is empty. -/
structure Fillable (parameters : List Parameter) (keywords : List (String × Value))
    (slots : List (Option Value)) : Prop where
  declared : ∀ key ∈ Store.names keywords, key ∈ parameters.map Parameter.name
  distinct : (Store.names keywords).Nodup
  empty : ∀ (i : Nat) (p : Parameter), parameters[i]? = some p → p.name ∈ Store.names keywords →
    slots[i]? = some none

/-- Slots with the values of keywords in those that were empty. -/
def filled (parameters : List Parameter) (keywords : List (String × Value))
    (slots : List (Option Value)) : List (Option Value) :=
  List.zipWith (fun p slot => slot.or (Store.get? p.name keywords)) parameters slots

/-- **One keyword** fills the empty slot of the parameter that it names. -/
theorem fillable_cons_iff (h : (parameters.map Parameter.name).Nodup) {i : Nat} {p : Parameter}
    (hp : parameters[i]? = some p) (hslot : slots[i]? = some none) (value : Value) :
    Fillable parameters keywords (slots.set i (some value)) ↔
      Fillable parameters ((p.name, value) :: keywords) slots := by
  have hlt : i < slots.length := (List.getElem?_eq_some_iff.mp hslot).1
  have hset : (slots.set i (some value))[i]? = some (some value) := List.getElem?_set_self hlt
  constructor
  · intro hfill
    refine ⟨?_, ?_, ?_⟩
    · intro key hkey
      rcases List.mem_cons.mp hkey with rfl | hkey
      · exact List.mem_map_of_mem (List.mem_of_getElem? hp)
      · exact hfill.declared key hkey
    · refine List.nodup_cons.mpr ⟨fun hmem => ?_, hfill.distinct⟩
      -- a second keyword of this name would find the slot filled
      have hempty := hfill.empty i p hp hmem
      rw [hset] at hempty
      cases hempty
    · intro j q hq hmem
      by_cases hij : i = j
      · exact hij ▸ hslot
      · have hne : q.name ≠ p.name := fun hname => hij (eq_of_name_eq h hp hq hname.symm)
        have hempty := hfill.empty j q hq ((List.mem_cons.mp hmem).resolve_left hne)
        rwa [List.getElem?_set_ne hij] at hempty
  · intro hfill
    obtain ⟨hnot, hdistinct⟩ := List.nodup_cons.mp hfill.distinct
    refine ⟨fun key hkey => hfill.declared key (List.mem_cons_of_mem _ hkey), hdistinct, ?_⟩
    intro j q hq hmem
    have hij : i ≠ j := by
      rintro rfl
      rw [hp, Option.some.injEq] at hq
      exact hnot (hq ▸ hmem)
    rw [List.getElem?_set_ne hij]
    exact hfill.empty j q hq (List.mem_cons_of_mem _ hmem)

theorem filled_cons (h : (parameters.map Parameter.name).Nodup) {i : Nat} {p : Parameter}
    (hp : parameters[i]? = some p) (hslot : slots[i]? = some none) (value : Value) :
    filled parameters keywords (slots.set i (some value)) =
      filled parameters ((p.name, value) :: keywords) slots := by
  refine List.ext_getElem? fun j => ?_
  rw [filled, filled, List.getElem?_zipWith, List.getElem?_zipWith]
  cases hq : parameters[j]? with
  | none => rfl
  | some q =>
    by_cases hij : i = j
    · subst hij
      rw [hp, Option.some.injEq] at hq
      have hlt : i < slots.length := (List.getElem?_eq_some_iff.mp hslot).1
      rw [List.getElem?_set_self hlt, hslot, ← hq]
      simp [Store.get?]
    · have hne : ¬ p.name = q.name := fun hname => hij (eq_of_name_eq h hp hq hname)
      have hrest : Store.get? q.name ((p.name, value) :: keywords) = Store.get? q.name keywords :=
        if_neg hne
      rw [List.getElem?_set_ne hij]
      cases slots[j]? with
      | none => rfl
      | some slot =>
        dsimp only
        rw [hrest]

/-- **What keywords fill**: they succeed exactly when each of them finds the slot of its parameter
empty, and then the slots that stay empty are those of parameters that no keyword names. -/
theorem fillSlots_eq_ok_iff (h : (parameters.map Parameter.name).Nodup)
    (hlength : slots.length = parameters.length) {out : List (Option Value)} :
    fillSlots parameters keywords slots = .ok out ↔
      Fillable parameters keywords slots ∧ out = filled parameters keywords slots := by
  induction keywords generalizing slots with
  | nil =>
    have hsame : filled parameters [] slots = slots := by
      refine List.ext_getElem (by simp [filled, hlength]) fun i hi hi' => ?_
      simp [filled, Store.get?]
    have hfill : Fillable parameters [] slots := ⟨by simp [Store.names], by simp [Store.names],
      by simp [Store.names]⟩
    rw [fillSlots, hsame, Except.ok.injEq, eq_comm]
    exact (and_iff_right hfill).symm
  | cons keyword rest ih =>
    obtain ⟨key, value⟩ := keyword
    rw [fillSlots]
    cases hindex : parameters.findIdx? (·.name = key) with
    | none =>
      have hundeclared : key ∉ parameters.map Parameter.name := by
        simpa using List.findIdx?_eq_none_iff.mp hindex
      simp only [reduceCtorEq, false_iff]
      exact fun hfill => hundeclared (hfill.1.declared key List.mem_cons_self)
    | some i =>
      obtain ⟨hlt, hname, -⟩ := List.findIdx?_eq_some_iff_getElem.mp hindex
      have hp := List.getElem?_eq_getElem hlt
      rw [decide_eq_true_eq] at hname
      generalize parameters[i] = p at hp hname
      subst hname
      obtain ⟨slot, hslot⟩ : ∃ slot, slots[i]? = some slot :=
        ⟨_, List.getElem?_eq_getElem (hlength ▸ hlt : i < slots.length)⟩
      dsimp only
      cases slot with
      | some other =>
        simp only [hslot, Option.bind_some, id, Option.isSome_some, if_true, reduceCtorEq,
          false_iff]
        rintro ⟨hfill, -⟩
        have hempty := hfill.empty i p hp List.mem_cons_self
        rw [hslot] at hempty
        cases hempty
      | none =>
        simp only [hslot, Option.bind_some, id, Option.isSome_none, Bool.false_eq_true, if_false]
        rw [ih (by rw [List.length_set, hlength]), fillable_cons_iff h hp hslot,
          filled_cons h hp hslot]

/-! ## Collecting values -/

/-- **What is collected**: it succeeds exactly when every parameter has a value in its slot or by
default, and these values come in the order of the parameters. -/
theorem collect_eq_ok_iff (h : (parameters.map Parameter.name).Nodup)
    (hlength : slots.length = parameters.length) {values collected : Store Value}
    (hnew : ∀ p ∈ parameters, p.name ∉ values.names) :
    collect parameters slots values = .ok collected ↔
      ∃ vs : List Value, List.zipWith (fun p slot => slot.or p.default) parameters slots =
        vs.map some ∧
        collected = values ++ (parameters.map Parameter.name).zip vs := by
  induction parameters generalizing slots values with
  | nil =>
    have hnone :
      (∃ vs : List Value, ([] : List (Option Value)) = vs.map some ∧ collected = values) ↔
        collected = values := ⟨fun ⟨_, _, heq⟩ => heq, fun heq => ⟨[], rfl, heq⟩⟩
    simp only [collect, List.zipWith_nil_left, List.map_nil, List.zip_nil_left, List.append_nil]
    rw [hnone, Except.ok.injEq, eq_comm]
  | cons p rest ih =>
    cases slots with
    | nil => cases hlength
    | cons slot slots =>
      obtain ⟨hp, hrest⟩ := List.nodup_cons.mp h
      rw [collect, List.zipWith_cons_cons, List.map_cons]
      cases hvalue : slot.or p.default with
      | none =>
        simp only [reduceCtorEq, false_iff, not_exists, not_and]
        intro vs hvs
        cases vs <;> cases hvs
      | some v =>
        have hput := Store.put_of_not_mem (hnew p List.mem_cons_self) v
        have hnew' : ∀ q ∈ rest, q.name ∉ (values.put p.name v).names := by
          intro q hq hmem
          rcases Store.mem_names_put.mp hmem with hname | hmem
          · exact hp (hname ▸ List.mem_map_of_mem hq)
          · exact hnew q (List.mem_cons_of_mem p hq) hmem
        rw [ih hrest (Nat.succ.inj hlength) hnew', hput]
        constructor
        · rintro ⟨vs, hvs, rfl⟩
          exact ⟨v :: vs, by rw [hvs, List.map_cons], by simp⟩
        · rintro ⟨vs, hvs, rfl⟩
          cases vs with
          | nil => cases hvs
          | cons w vs =>
            rw [List.map_cons, List.cons.injEq, Option.some.injEq] at hvs
            obtain ⟨rfl, hvs⟩ := hvs
            exact ⟨vs, hvs, by simp⟩

/-! ## Binding -/

theorem length_positionalSlots (hfew : positional.length ≤ parameters.length) :
    (positionalSlots parameters positional).length = parameters.length := by
  simp [positionalSlots, hfew]

theorem getElem?_positionalSlots {i : Nat} (hi : i < parameters.length) :
    (positionalSlots parameters positional)[i]? = some positional[i]? := by
  rw [positionalSlots]
  rcases Nat.lt_or_ge i positional.length with hlt | hge
  · rw [List.getElem?_append_left (by simpa using hlt), List.getElem?_map,
      List.getElem?_eq_getElem hlt]
    rfl
  · rw [List.getElem?_append_right (by simpa using hge), List.length_map, List.getElem?_replicate,
      if_pos (by omega), List.getElem?_eq_none hge]

/-- The two steps of binding give each parameter the value that it is to have. -/
theorem zipWith_filled :
    List.zipWith (fun p slot => slot.or p.default) parameters
      (filled parameters keywords (positionalSlots parameters positional)) =
        given parameters positional keywords := by
  refine List.ext_getElem? fun i => ?_
  rw [List.getElem?_zipWith, given, List.getElem?_mapIdx, filled, List.getElem?_zipWith]
  cases hp : parameters[i]? with
  | none => rfl
  | some p =>
    rw [getElem?_positionalSlots (List.getElem?_eq_some_iff.mp hp).1]
    exact congrArg some Option.or_assoc

/-- A parameter is among the first `n` by its name, exactly when it is so by its place. -/
theorem mem_names_take_iff (h : (parameters.map Parameter.name).Nodup) {i : Nat} {p : Parameter}
    (hp : parameters[i]? = some p) (n : Nat) :
    p.name ∈ (parameters.take n).map Parameter.name ↔ i < n := by
  constructor
  · intro hmem
    obtain ⟨q, hq, hname⟩ := List.mem_map.mp hmem
    obtain ⟨j, hj⟩ := List.mem_iff_getElem?.mp hq
    rw [List.getElem?_take] at hj
    split at hj
    · next hlt => exact eq_of_name_eq h hp hj hname.symm ▸ hlt
    · cases hj
  · intro hlt
    refine List.mem_map_of_mem (List.mem_iff_getElem?.mpr ⟨i, ?_⟩)
    rw [List.getElem?_take, if_pos hlt, hp]

theorem mem_drop_iff {i n : Nat} {p : Parameter} (h : (parameters.map Parameter.name).Nodup)
    (hp : parameters[i]? = some p) : p ∈ parameters.drop n ↔ n ≤ i := by
  constructor
  · intro hmem
    obtain ⟨j, hj⟩ := List.mem_iff_getElem?.mp hmem
    rw [List.getElem?_drop] at hj
    have := eq_of_name_eq h hp hj rfl
    omega
  · intro hle
    refine List.mem_iff_getElem?.mpr ⟨i - n, ?_⟩
    rw [List.getElem?_drop, Nat.add_sub_cancel' hle, hp]

/-- In front of the keywords, slots are empty behind the positional values. -/
theorem fillable_positionalSlots_iff (h : (parameters.map Parameter.name).Nodup) :
    Fillable parameters keywords (positionalSlots parameters positional) ↔
      (∀ key ∈ Store.names keywords, key ∈ parameters.map Parameter.name) ∧
      (Store.names keywords).Nodup ∧
      ∀ key ∈ Store.names keywords,
        key ∉ (parameters.take positional.length).map Parameter.name := by
  have hempty : ∀ (i : Nat) (p : Parameter), parameters[i]? = some p →
      ((positionalSlots parameters positional)[i]? = some none ↔
        p.name ∉ (parameters.take positional.length).map Parameter.name) := by
    intro i p hp
    rw [getElem?_positionalSlots (List.getElem?_eq_some_iff.mp hp).1, Option.some.injEq,
      List.getElem?_eq_none_iff, mem_names_take_iff h hp, Nat.not_lt]
  constructor
  · intro hfill
    refine ⟨hfill.declared, hfill.distinct, fun key hkey => ?_⟩
    obtain ⟨p, hmem, rfl⟩ := List.mem_map.mp (hfill.declared key hkey)
    obtain ⟨i, hp⟩ := List.mem_iff_getElem?.mp hmem
    exact (hempty i p hp).mp (hfill.empty i p hp hkey)
  · rintro ⟨hdeclared, hdistinct, hfree⟩
    exact ⟨hdeclared, hdistinct, fun i p hp hkey => (hempty i p hp).mpr (hfree p.name hkey)⟩

/-- All slots have a value exactly when they are the slots of some values. -/
theorem exists_eq_map_some_iff {slots : List (Option Value)} :
    (∃ vs : List Value, slots = vs.map some) ↔ ∀ slot ∈ slots, slot.isSome = true := by
  constructor
  · rintro ⟨vs, rfl⟩ slot hslot
    obtain ⟨v, -, rfl⟩ := List.mem_map.mp hslot
    rfl
  · intro hsome
    induction slots with
    | nil => exact ⟨[], rfl⟩
    | cons slot slots ih =>
      obtain ⟨hslot, hslots⟩ := List.forall_mem_cons.mp hsome
      obtain ⟨v, rfl⟩ := Option.isSome_iff_exists.mp hslot
      obtain ⟨vs, rfl⟩ := ih hslots
      exact ⟨v :: vs, rfl⟩

/-- All parameters have values exactly when those have a default that are not passed. -/
theorem exists_given_iff (h : (parameters.map Parameter.name).Nodup) :
    (∃ vs : List Value, given parameters positional keywords = vs.map some) ↔
      ∀ p ∈ parameters.drop positional.length, p.name ∉ Store.names keywords →
        p.default.isSome = true := by
  rw [exists_eq_map_some_iff, given]
  constructor
  · intro hsome p hmem hkey
    obtain ⟨i, hp⟩ := List.mem_iff_getElem?.mp (List.mem_of_mem_drop hmem)
    have hi : (positional[i]?.or ((Store.get? p.name keywords).or p.default)).isSome = true :=
      hsome _ (List.mem_of_getElem? (List.getElem?_mapIdx.trans (congrArg _ hp)))
    rwa [List.getElem?_eq_none ((mem_drop_iff h hp).mp hmem), Store.get?_eq_none_iff.mpr hkey] at hi
  · intro hdefault slot hslot
    obtain ⟨i, hi⟩ := List.mem_iff_getElem?.mp hslot
    rw [List.getElem?_mapIdx] at hi
    obtain ⟨p, hp, rfl⟩ := Option.map_eq_some_iff.mp hi
    rcases Nat.lt_or_ge i positional.length with hlt | hge
    · rw [List.getElem?_eq_getElem hlt]
      rfl
    · by_cases hkey : p.name ∈ Store.names keywords
      · obtain ⟨v, hv⟩ := Option.ne_none_iff_exists'.mp
          (mt Store.get?_eq_none_iff.mp (not_not_intro hkey))
        simp [hv]
      · simp [hdefault p ((mem_drop_iff h hp).mpr hge) hkey]

/-- **Binding, in closed form.** It succeeds exactly when the arguments fit, with the values of all
parameters in their order. -/
theorem bindValues_eq_ok_iff (h : (parameters.map Parameter.name).Nodup) {values : Store Value} :
    bindValues parameters positional keywords = .ok values ↔
      Fits parameters positional keywords ∧
        ∃ vs : List Value, given parameters positional keywords = vs.map some ∧
          values = (parameters.map Parameter.name).zip vs := by
  unfold bindValues
  split
  · next hmany =>
    simp only [reduceCtorEq, false_iff]
    exact fun hfits => absurd hfits.1.few (Nat.not_le_of_lt hmany)
  · next hfew =>
    replace hfew : positional.length ≤ parameters.length := Nat.not_lt.mp hfew
    have hlength := length_positionalSlots hfew
    have hfill := @fillSlots_eq_ok_iff _ keywords _ h hlength
    have hfilled : (filled parameters keywords (positionalSlots parameters positional)).length =
        parameters.length := by simp [filled, hlength]
    have hcollect := @collect_eq_ok_iff _ _ h hfilled [] values (by simp [Store.names])
    simp only [zipWith_filled, List.nil_append] at hcollect
    constructor
    · intro hok
      split at hok
      · cases hok
      · next out hout =>
        obtain ⟨hfillable, rfl⟩ := hfill.mp hout
        obtain ⟨hdeclared, hdistinct, hfree⟩ := (fillable_positionalSlots_iff h).mp hfillable
        obtain ⟨vs, hvs, hvalues⟩ := hcollect.mp hok
        exact ⟨⟨hfew, hdeclared, hdistinct, hfree, (exists_given_iff h).mp ⟨vs, hvs⟩⟩, vs, hvs,
          hvalues⟩
    · rintro ⟨hfits, hvs⟩
      have hfillable := (fillable_positionalSlots_iff h).mpr
        ⟨hfits.declared, hfits.distinct, hfits.free⟩
      rw [hfill.mpr ⟨hfillable, rfl⟩]
      exact hcollect.mpr hvs

theorem bind_eq_ok_iff {f : Function} {args : Arguments} :
    f.bind positional keywords = .ok args ↔
      args.function = f.name ∧ bindValues f.parameters positional keywords = .ok args.values := by
  obtain ⟨name, values⟩ := args
  rw [bind]
  cases bindValues f.parameters positional keywords with
  | error fault => simp
  | ok bound => simp [eq_comm]

theorem getElem?_given {i : Nat} {p : Parameter} (hp : parameters[i]? = some p) :
    (given parameters positional keywords)[i]? =
      some (positional[i]?.or ((Store.get? p.name keywords).or p.default)) := by
  rw [given, List.getElem?_mapIdx, hp]
  rfl

/-- What arguments are bound to: each declared name has its given value. -/
theorem names_and_get?_of_given (h : (parameters.map Parameter.name).Nodup) {vs : List Value}
    (hvs : given parameters positional keywords = vs.map some) :
    Store.names ((parameters.map Parameter.name).zip vs) = parameters.map Parameter.name ∧
      ∀ (i : Nat) (p : Parameter), parameters[i]? = some p →
        Store.get? p.name ((parameters.map Parameter.name).zip vs) =
          positional[i]?.or ((Store.get? p.name keywords).or p.default) := by
  have hlength : (parameters.map Parameter.name).length = vs.length := by
    have := congrArg List.length hvs
    simpa [given] using this
  refine ⟨by rw [Store.names_zip, ← hlength, List.take_length], fun i p hp => ?_⟩
  have hname : (parameters.map Parameter.name)[i]? = some p.name := by
    rw [List.getElem?_map, hp]
    rfl
  have hi := @getElem?_given _ positional keywords _ _ hp
  rw [hvs, List.getElem?_map] at hi
  obtain ⟨v, hv, hgiven⟩ := Option.map_eq_some_iff.mp hi
  rw [Store.get?_zip h hname, hv, hgiven]

/-! ## The same values, passed in another way -/

/-- Arguments that fit as soon as others do, and give every parameter the same value, are bound to
the same. -/
theorem bind_of_given_eq {f : Function} (h : (f.parameters.map Parameter.name).Nodup)
    {positional' : List Value} {keywords' : List (String × Value)} {args : Arguments}
    (hbind : f.bind positional keywords = .ok args)
    (hfits : Fits f.parameters positional keywords → Fits f.parameters positional' keywords')
    (hgiven : Fits f.parameters positional keywords →
      given f.parameters positional' keywords' = given f.parameters positional keywords) :
    f.bind positional' keywords' = .ok args := by
  obtain ⟨hname, hvalues⟩ := bind_eq_ok_iff.mp hbind
  obtain ⟨hold, vs, hvs, heq⟩ := (bindValues_eq_ok_iff h).mp hvalues
  exact bind_eq_ok_iff.mpr ⟨hname, (bindValues_eq_ok_iff h).mpr
    ⟨hfits hold, vs, (hgiven hold).trans hvs, heq⟩⟩

theorem Fits.of_perm {reordered : List (String × Value)} (hperm : reordered.Perm keywords)
    (h : Fits parameters positional keywords) : Fits parameters positional reordered := by
  have hnames : (Store.names reordered).Perm (Store.names keywords) := hperm.map Prod.fst
  exact {
    few := h.few
    declared := fun key hkey => h.declared key (hnames.mem_iff.mp hkey)
    distinct := hnames.nodup_iff.mpr h.distinct
    free := fun key hkey => h.free key (hnames.mem_iff.mp hkey)
    complete := fun p hp hkey => h.complete p hp (mt hnames.mem_iff.mpr hkey) }

theorem given_of_perm {reordered : List (String × Value)} (hperm : reordered.Perm keywords)
    (h : Fits parameters positional keywords) :
    given parameters positional reordered = given parameters positional keywords := by
  have hget := Store.get?_of_perm hperm.symm h.distinct
  simp only [given, hget]

/-- The positional values from the `n`th on, under the names of their parameters. -/
def named (parameters : List Parameter) (positional : List Value) (n : Nat) :
    List (String × Value) :=
  ((parameters.map Parameter.name).drop n).zip (positional.drop n)

theorem get?_named (h : (parameters.map Parameter.name).Nodup) {i : Nat} {p : Parameter}
    (hp : parameters[i]? = some p) (n : Nat) :
    Store.get? p.name (named parameters positional n) = if i < n then none else positional[i]? := by
  split
  · next hlt =>
    rw [Store.get?_eq_none_iff, named, Store.names_zip, ← List.map_drop]
    intro hmem
    obtain ⟨q, hq, hname⟩ := List.mem_map.mp (List.mem_of_mem_take hmem)
    obtain ⟨j, hj⟩ := List.mem_iff_getElem?.mp hq
    rw [List.getElem?_drop] at hj
    have := eq_of_name_eq h hp hj hname.symm
    omega
  · next hge =>
    replace hge : n ≤ i := Nat.not_lt.mp hge
    have hname : ((parameters.map Parameter.name).drop n)[i - n]? = some p.name := by
      rw [List.getElem?_drop, Nat.add_sub_cancel' hge, List.getElem?_map, hp]
      rfl
    rw [named, Store.get?_zip (h.sublist (List.drop_sublist n _)) hname, List.getElem?_drop,
      Nat.add_sub_cancel' hge]

theorem mem_names_named_iff (h : (parameters.map Parameter.name).Nodup) {i : Nat} {p : Parameter}
    (hp : parameters[i]? = some p) (n : Nat) :
    p.name ∈ Store.names (named parameters positional n) ↔ n ≤ i ∧ i < positional.length := by
  rw [← not_iff_not, ← Store.get?_eq_none_iff, get?_named h hp]
  split
  · next hlt => exact iff_of_true rfl (by omega)
  · next hge =>
    rw [List.getElem?_eq_none_iff]
    omega

theorem names_named_sublist (parameters : List Parameter) (positional : List Value) (n : Nat) :
    (Store.names (named parameters positional n)).Sublist (parameters.map Parameter.name) := by
  rw [named, Store.names_zip]
  exact (List.take_sublist ..).trans (List.drop_sublist ..)

/-- What is passed under a name instead of by position belongs to one of these parameters. -/
theorem exists_of_mem_named (h : (parameters.map Parameter.name).Nodup) {key : String} {n : Nat}
    (hkey : key ∈ Store.names (named parameters positional n)) :
    ∃ (i : Nat) (p : Parameter), parameters[i]? = some p ∧ p.name = key ∧ n ≤ i ∧
      i < positional.length := by
  obtain ⟨p, hmem, rfl⟩ := List.mem_map.mp ((names_named_sublist ..).subset hkey)
  obtain ⟨i, hp⟩ := List.mem_iff_getElem?.mp hmem
  exact ⟨i, p, hp, rfl, (mem_names_named_iff h hp n).mp hkey⟩

theorem Fits.named (hnodup : (parameters.map Parameter.name).Nodup)
    (h : Fits parameters positional keywords) (n : Nat) :
    Fits parameters (positional.take n) (named parameters positional n ++ keywords) := by
  have hnames : Store.names (Function.named parameters positional n ++ keywords) =
      Store.names (Function.named parameters positional n) ++ Store.names keywords :=
        List.map_append
  have hsub := names_named_sublist parameters positional n
  have hfew : (positional.take n).length ≤ positional.length := List.length_take_le' n positional
  refine ⟨hfew.trans h.few, ?_, ?_, ?_, ?_⟩
  · rw [hnames]
    intro key hkey
    exact (List.mem_append.mp hkey).elim (fun hkey => hsub.subset hkey) (h.declared key)
  · rw [hnames, List.nodup_append]
    refine ⟨hnodup.sublist hsub, h.distinct, fun key hkey other hother heq => ?_⟩
    -- no keyword names what was passed by position
    obtain ⟨i, p, hp, rfl, -, hlt⟩ := exists_of_mem_named hnodup hkey
    exact h.free other hother (heq ▸ (mem_names_take_iff hnodup hp _).mpr hlt)
  · rw [hnames]
    intro key hkey hpassed
    rcases List.mem_append.mp hkey with hkey | hkey
    · obtain ⟨i, p, hp, rfl, hle, -⟩ := exists_of_mem_named hnodup hkey
      have hlt := (mem_names_take_iff hnodup hp _).mp hpassed
      rw [List.length_take] at hlt
      omega
    · have htake :=
        List.Sublist.map Parameter.name (List.take_sublist_take_left hfew (l := parameters))
      exact h.free key hkey (htake.subset hpassed)
  · rw [hnames]
    intro p hmem hkey
    obtain ⟨hnamed, hkeyword⟩ := not_or.mp (mt List.mem_append.mpr hkey)
    obtain ⟨i, hp⟩ := List.mem_iff_getElem?.mp (List.mem_of_mem_drop hmem)
    have hle := (mem_drop_iff hnodup hp).mp hmem
    rw [mem_names_named_iff hnodup hp] at hnamed
    rw [List.length_take] at hle
    exact h.complete p ((mem_drop_iff hnodup hp).mpr (by omega)) hkeyword

theorem given_named (h : (parameters.map Parameter.name).Nodup) (n : Nat) :
    given parameters (positional.take n) (named parameters positional n ++ keywords) =
      given parameters positional keywords := by
  refine List.ext_getElem? fun i => ?_
  cases hp : parameters[i]? with
  | none => rw [given, given, List.getElem?_mapIdx, List.getElem?_mapIdx, hp]; rfl
  | some p =>
    rw [getElem?_given hp, getElem?_given hp, Store.get?_append, get?_named h hp,
      List.getElem?_take]
    split
    · rfl
    · rw [Option.none_or, Option.or_assoc]

/-- **Binding is exact.** It succeeds exactly when the arguments fit the declared parameters. Then
each declared name, and no other, has the value that was passed at its position, or else under its
name, or else its default; and the same is bound when the keywords come in another order, or when
the positional values from some place on are passed under the names of their parameters. -/
theorem bind_exact (f : Function) (h : (f.parameters.map Parameter.name).Nodup)
    (positional : List Value) (keywords : List (String × Value)) :
    ((∃ args, f.bind positional keywords = .ok args) ↔ Fits f.parameters positional keywords) ∧
      ∀ args, f.bind positional keywords = .ok args →
        args.values.names = f.parameters.map Parameter.name ∧
        (∀ (i : Nat) (p : Parameter), f.parameters[i]? = some p → args.values.get? p.name =
          if i < positional.length then positional[i]?
          else (Store.get? p.name keywords).or p.default) ∧
        (∀ reordered, reordered.Perm keywords → f.bind positional reordered = .ok args) ∧
        ∀ n, f.bind (positional.take n) (named f.parameters positional n ++ keywords) =
          .ok args := by
  refine ⟨⟨?_, fun hfits => ?_⟩, fun args hbind => ?_⟩
  · rintro ⟨args, hbind⟩
    exact ((bindValues_eq_ok_iff h).mp (bind_eq_ok_iff.mp hbind).2).1
  · obtain ⟨vs, hvs⟩ := (exists_given_iff h).mpr hfits.complete
    exact ⟨⟨f.name, _⟩,
      bind_eq_ok_iff.mpr ⟨rfl, (bindValues_eq_ok_iff h).mpr ⟨hfits, vs, hvs, rfl⟩⟩⟩
  · obtain ⟨-, vs, hvs, hvalues⟩ := (bindValues_eq_ok_iff h).mp (bind_eq_ok_iff.mp hbind).2
    obtain ⟨hnames, hget⟩ := names_and_get?_of_given h hvs
    refine ⟨hvalues ▸ hnames, fun i p hp => ?_, fun reordered hperm => ?_, fun n => ?_⟩
    · rw [hvalues, hget i p hp]
      split
      · next hlt => rw [List.getElem?_eq_getElem hlt, Option.some_or]
      · next hge => rw [List.getElem?_eq_none (Nat.not_lt.mp hge), Option.none_or]
    · exact bind_of_given_eq h hbind (Fits.of_perm hperm) (given_of_perm hperm)
    · exact bind_of_given_eq h hbind (fun hfits => hfits.named h n) fun _ => given_named h n

/-- A greeting has to be given a name. -/
def greeting : Function where
  name := "greet"
  parameters := [⟨"name", none⟩, ⟨"word", some (.string "Hello")⟩, ⟨"mark", some (.string "!")⟩]
  meaning := fun _ => .ok .none

/-- A value that is passed counts, also when it is no value or the default itself. -/
theorem bind_exact_greeting :
    (greeting.parameters.map Parameter.name).Nodup ∧
      ∃ args, greeting.bind [.string "Ada"] [("mark", .none), ("word", .string "Hello")] =
        .ok args ∧
        args.values.get? "mark" = some .none ∧
        greeting.bind [] [("name", .string "Ada"), ("mark", .none), ("word", .string "Hello")] =
          .ok args ∧
        ∀ args', greeting.bind [.string "Ada"] [("word", .string "Hello"), ("word", .none)] ≠
          .ok args' := by
  have hnodup : (greeting.parameters.map Parameter.name).Nodup := by decide
  obtain ⟨hbinds, hbound⟩ := bind_exact greeting hnodup [.string "Ada"]
    [("mark", .none), ("word", .string "Hello")]
  obtain ⟨args, hargs⟩ := hbinds.mpr ⟨by decide, by decide, by decide, by decide, by decide⟩
  obtain ⟨-, hget, -, hnamed⟩ := hbound args hargs
  refine ⟨hnodup, args, hargs, hget 2 _ rfl, hnamed 0, fun args' h => ?_⟩
  have hfits := (bind_exact greeting hnodup _ _).1.mp ⟨args', h⟩
  exact absurd hfits.distinct (by decide)

end Function

end LiveDoc
