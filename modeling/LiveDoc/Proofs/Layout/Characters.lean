import LiveDoc.Proofs.Layout.Normalized
import LiveDoc.Proofs.Layout.Paragraphs

/-!
# The characters of a document that is laid out

Laying out a paragraph drops the blanks between its words, all the white space of Unicode among
them, and writes spaces and line ends. So the characters that are no blanks stay, in their order. Of
the blanks, those that are not spaces, tabs or line breaks stay as well, unless they separate words.

* **text** — what is left of a text without its `separators` (`filter_solid`);
* **paragraph** — what is written has these characters (`filter_formatted`);
* **document** — edits that lie apart drop characters one by one (`Fits.filter_weave`), so a
  document whose fences were not changed has all its characters when its paragraphs have
  (`filter_render`).
-/

namespace LiveDoc

open Text (Span IsEnding byteLength byteLength_append isBlank join slice split)

namespace Layout

variable {kept : List Span} {ending text : List Char} {p : Char → Bool}

/-- Spaces, tabs, and the characters of line ends. -/
def isSpacing (c : Char) : Bool := c = ' ' || c = '\t' || c = '\r' || c = '\n'

theorem isBlank_of_isSpacing {c : Char} (h : isSpacing c = true) : isBlank c = true := by
  simp only [isSpacing, Bool.or_eq_true, decide_eq_true_eq] at h
  rcases h with ((rfl | rfl) | rfl) | rfl <;> rfl

/-! ## Texts -/

/-- The characters of a text that separate its words. -/
def separators (kept : List Span) : (place : Nat) → List Char → List Char
  | _, [] => []
  | place, c :: rest =>
    if splits kept place c then c :: separators kept (place + c.utf8Size) rest
    else separators kept (place + c.utf8Size) rest

/-- What a text holds besides. -/
def solid (kept : List Span) : (place : Nat) → List Char → List Char
  | _, [] => []
  | place, c :: rest =>
    if splits kept place c then solid kept (place + c.utf8Size) rest
    else c :: solid kept (place + c.utf8Size) rest

theorem isBlank_of_mem_separators {c : Char} {place : Nat} (h : c ∈ separators kept place text) :
    isBlank c = true := by
  induction text generalizing place with
  | nil => cases h
  | cons d rest ih =>
    rw [separators] at h
    split at h
    · next hsplits =>
      rcases List.mem_cons.mp h with rfl | h
      · exact (Bool.and_eq_true_iff.mp hsplits).1
      · exact ih h
    · exact ih h

theorem solid_sublist (kept : List Span) (place : Nat) (text : List Char) :
    (solid kept place text).Sublist text := by
  induction text generalizing place with
  | nil => exact .slnil
  | cons c rest ih =>
    rw [solid]
    split
    · exact (ih _).cons c
    · exact (ih _).cons_cons c

theorem solid_append (place : Nat) (s t : List Char) :
    solid kept place (s ++ t) = solid kept place s ++ solid kept (place + byteLength s) t := by
  induction s generalizing place with
  | nil => rfl
  | cons c rest ih =>
    rw [List.cons_append, solid, solid, ih, byteLength, Nat.add_assoc]
    split <;> rfl

/-- Nothing is left out but the separators. -/
theorem filter_solid (place : Nat) :
    (solid kept place text).filter p = text.filter p ↔ ∀ c ∈ separators kept place text,
    p c = false := by
  induction text generalizing place with
  | nil => simp [solid, separators]
  | cons c rest ih =>
    rw [solid, separators]
    split
    · rw [List.forall_mem_cons, ← ih]
      cases hc : p c with
      | false => simp [List.filter_cons_of_neg, hc]
      | true =>
        rw [List.filter_cons_of_pos hc]
        have hlength := ((solid_sublist kept (place + c.utf8Size) rest).filter p).length_le
        refine iff_of_false (fun heq => ?_) (by simp)
        rw [heq, List.length_cons] at hlength
        omega
    · rw [← ih]
      cases hc : p c with
      | false => simp [List.filter_cons_of_neg, hc]
      | true => simp [List.filter_cons_of_pos, hc]

theorem flatten_wordsFrom_solid (kept : List Span) (place : Nat) (word text : List Char) :
    (wordsFrom kept place word text).flatten = word.reverse ++ solid kept place text := by
  induction text generalizing place word with
  | nil => cases word <;> simp [wordsFrom, solid]
  | cons c rest ih =>
    rw [wordsFrom, solid]
    split
    · cases word <;> simp [ih]
    · simp [ih]

/-- The words of a text hold what is solid of it. -/
theorem flatten_words (kept : List Span) (place : Nat) (text : List Char) :
    (words kept place text).flatten = solid kept place text :=
  flatten_wordsFrom_solid kept place [] text

/-! ## Paragraphs -/

/-- What stands between texts that are joined can be left out. -/
theorem filter_join {sep : List Char} (hsep : sep.filter p = []) (texts : List (List Char)) :
    (join sep texts).filter p = texts.flatten.filter p := by
  induction texts with
  | nil => rfl
  | cons text more ih =>
    cases more with
    | nil => simp [join]
    | cons next rest =>
      rw [join, List.filter_append, List.filter_append, hsep, ih, List.append_nil,
        ← List.filter_append]
      rfl

section Spacing

variable (hp : ∀ c, isSpacing c = true → p c = false)
include hp

theorem filter_ending (he : IsEnding ending) : ending.filter p = [] := by
  rcases he with rfl | rfl
  · simp [hp '\n' rfl]
  · simp [hp '\r' rfl, hp '\n' rfl]

theorem filter_joinWords (ws : List (List Char)) : (join [' '] ws).filter p = ws.flatten.filter p :=
  filter_join (by simp [hp ' ' rfl]) ws

theorem filter_wrap (he : IsEnding ending) (width : Nat) (text : List Char) :
    (wrap kept width ending text).filter p = (solid kept 0 text).filter p := by
  have hlines : ∀ lines : List (List (List Char)),
      ((lines.map (join [' '])).flatten).filter p = lines.flatten.flatten.filter p := by
    intro lines
    induction lines with
    | nil => rfl
    | cons line rest ih =>
      rw [List.map_cons, List.flatten_cons, List.filter_append, filter_joinWords hp, ih,
        List.flatten_cons, List.flatten_append, List.filter_append]
  rw [wrap, filter_join (filter_ending hp he), hlines, (greedy_fill width _).flatten, flatten_words]

theorem filter_normalizeLine (place : Nat) (line : List Char) :
    (normalizeLine kept place line).filter p = (solid kept place line).filter p := by
  rw [← flatten_words, ← filter_joinWords hp, normalizeLine]
  split
  · simp [hp ' ' rfl]
  · rfl

theorem filter_normalizeLines (place : Nat) (lines : List (List Char)) :
    (normalizeLines kept place lines).flatten.filter p =
      (solid kept place (join ['\n'] lines)).filter p := by
  induction lines generalizing place with
  | nil => rfl
  | cons line rest ih =>
    rw [normalizeLines, List.flatten_cons, List.filter_append, filter_normalizeLine hp, ih]
    cases rest with
    | nil => simp [join, solid]
    | cons next rest =>
      have hfeed : byteLength ['\n'] = 1 := rfl
      have hnone : (solid kept (place + byteLength line) ['\n']).filter p = [] := by
        refine List.filter_eq_nil_iff.mpr fun c hc => ?_
        rw [List.mem_singleton.mp ((solid_sublist _ _ _).mem hc), hp '\n' rfl]
        decide
      rw [join, solid_append, solid_append, byteLength_append, hfeed, List.filter_append,
        List.filter_append, hnone, List.append_nil, Nat.add_assoc]

theorem filter_normalize (he : IsEnding ending) (text : List Char) :
    (normalize kept ending text).filter p = (solid kept 0 text).filter p := by
  rw [normalize, filter_join (filter_ending hp he), filter_normalizeLines hp, Text.join_split]

/-- **A paragraph keeps what is solid of it**, and gets spaces and line ends. -/
theorem filter_formatted {options : Options} (he : IsEnding ending) {old content : List Char}
    {start : Nat} {t : Tree} (h : formatted? options ending old start t = some content) :
    content.filter p = (solid (codeSpans start t) 0 old).filter p := by
  unfold formatted? at h
  dsimp only at h
  split at h
  · split at h
    · exact Option.some.inj h ▸ filter_wrap hp he _ old
    · split at h
      · exact Option.some.inj h ▸ filter_normalize hp he old
      · cases h
  · split at h
    · exact Option.some.inj h ▸ filter_normalize hp he old
    · cases h

end Spacing

/-! ## Edits -/

/-- Two texts one behind the other lose nothing when neither does. -/
theorem append_eq_append_iff_of_sublist {s s' t t' : List Char} (hs : s.Sublist s')
    (ht : t.Sublist t') :
    s ++ t = s' ++ t' ↔ s = s' ∧ t = t' := by
  constructor
  · intro h
    have hlength := congrArg List.length h
    have hs' := hs.length_le
    have ht' := ht.length_le
    simp only [List.length_append] at hlength
    exact ⟨hs.eq_of_length (by omega), ht.eq_of_length (by omega)⟩
  · rintro ⟨rfl, rfl⟩
    rfl

variable {source : List Char} {edits : List Edit} {e : Edit}

/-- Edits that start at ever smaller places: all others stand in front of the first of them, and
nothing behind it changes. -/
theorem Fits.weave_first {before old after : List Char} (h : Fits source (e :: edits))
    (hdesc : Descending (e :: edits)) (hparts : Text.Parts source e.span before old after) :
    (∀ f ∈ edits, f.span.stop ≤ byteLength before) ∧ Fits before edits ∧
      weave (e :: edits) 0 source = weave edits 0 before ++ (e.content ++ after) := by
  have hne := h.nonempty e List.mem_cons_self
  have hrest := h.sublist (List.sublist_cons_self e edits)
  have hstops : ∀ f ∈ edits, f.span.stop ≤ byteLength before := by
    intro f hf
    rw [← hparts.start]
    exact (List.pairwise_cons.mp (h.stop_le hdesc)).1 f hf
  refine ⟨hstops, ⟨fun f hf => ?_, hrest.nonempty, hrest.apart⟩, ?_⟩
  · obtain ⟨olds, holds⟩ := hrest.inside f hf
    rw [hparts.whole] at holds
    exact ⟨olds, Text.slice_front holds (hstops f hf)⟩
  · have hcopied : weave edits e.span.stop after = after := by
      refine weave_copy fun f hf => ?_
      have hstop := hstops f hf
      rw [← hparts.start] at hstop
      exact Or.inl (Nat.le_trans hstop (Nat.le_of_lt hne))
    rw [weave_cons hne hparts, List.append_assoc, hcopied]

/-- **Edits that drop characters**: the text that is written has none but those of the source, and
it has all of them exactly when no edit drops one. -/
theorem Fits.filter_weave (h : Fits source edits) (hdesc : Descending edits)
    (hsub : ∀ e ∈ edits, ∀ old, slice source e.span = some old →
      (e.content.filter p).Sublist (old.filter p)) :
    ((weave edits 0 source).filter p).Sublist (source.filter p) ∧
      ((weave edits 0 source).filter p = source.filter p ↔
        ∀ e ∈ edits, ∀ old, slice source e.span = some old →
          e.content.filter p = old.filter p) := by
  induction edits generalizing source with
  | nil =>
    rw [weave_copy (by simp)]
    exact ⟨List.Sublist.refl _, by simp⟩
  | cons e rest ih =>
    obtain ⟨old, hold⟩ := h.inside e List.mem_cons_self
    obtain ⟨before, after, hparts⟩ := Text.slice_eq_some_iff.mp hold
    obtain ⟨hstops, hfits, hweave⟩ := h.weave_first hdesc hparts
    obtain ⟨hfirst, hothers⟩ := List.forall_mem_cons.mp hsub
    -- the other edits cut out of the text in front what they cut out of the source
    have hcut : ∀ f ∈ rest, ∀ olds, slice source f.span = some olds ↔
      slice before f.span = some olds := by
      intro f hf olds
      rw [hparts.whole]
      refine ⟨fun hs => Text.slice_front hs (hstops f hf), fun hs => ?_⟩
      obtain ⟨front, back, hin⟩ := Text.slice_eq_some_iff.mp hs
      refine Text.slice_eq_some_iff.mpr ⟨front, back ++ (old ++ after), ?_, hin.start, hin.stop⟩
      rw [hin.whole]
      simp
    obtain ⟨hbefore, hiff⟩ := ih hfits hdesc.of_cons fun f hf olds hs =>
      hothers f hf olds ((hcut f hf olds).mpr hs)
    have hcontent := hfirst old hold
    have hbehind := hcontent.append (List.Sublist.refl (after.filter p))
    rw [hweave, hparts.whole]
    simp only [List.filter_append]
    refine ⟨hbefore.append hbehind, ?_⟩
    rw [append_eq_append_iff_of_sublist hbefore hbehind,
      append_eq_append_iff_of_sublist hcontent (List.Sublist.refl _), hiff, ← hparts.whole,
      List.forall_mem_cons]
    constructor
    · rintro ⟨hbefore, hsame, -⟩
      refine ⟨fun olds hs => ?_, fun f hf olds hs => hbefore f hf olds ((hcut f hf olds).mp hs)⟩
      obtain rfl := Option.some.inj (hold.symm.trans hs)
      exact hsame
    · rintro ⟨hsame, hrest⟩
      exact ⟨fun f hf olds hs => hrest f hf olds ((hcut f hf olds).mpr hs), hsame old hold, rfl⟩

/-! ## Documents -/

/-- The characters that separate words at the place of a tree, if what stands there is laid out. -/
def separatorsOf (options : Options) (source ending : List Char) (t : Tree) : List Char :=
  (t.span.bind fun span => (slice source span).bind fun old =>
    (formatted? options ending old span.start t).map fun _ =>
      separators (codeSpans span.start t) 0 old).getD []

theorem mem_separatorsOf {options : Options} {t : Tree} {c : Char} :
    c ∈ separatorsOf options source ending t ↔ ∃ span old content,
      LaidOut options source ending t span old content ∧
        c ∈ separators (codeSpans span.start t) 0 old := by
  constructor
  · intro h
    unfold separatorsOf at h
    cases hspan : t.span with
    | none => simp [hspan] at h
    | some span =>
      cases hold : slice source span with
      | none => simp [hspan, hold] at h
      | some old =>
        cases hcontent : formatted? options ending old span.start t with
        | none => simp [hspan, hold, hcontent] at h
        | some content =>
          exact ⟨span, old, content, ⟨hspan, hold, hcontent⟩,
            by simpa [hspan, hold, hcontent] using h⟩
  · rintro ⟨span, old, content, ⟨hspan, hold, hcontent⟩, hc⟩
    simpa [separatorsOf, hspan, hold, hcontent] using hc

end Layout

/-! ## Trees that differ in their fences alone -/

namespace Tree

mutual

/-- A tree without fences is told by what it holds outside of them. -/
theorem eq_of_outside_eq : ∀ {t t' : Tree}, (∀ n ∈ t'.preorder, n.fence? = none) →
    t.outside = t' → t = t'
  | mk k s cs, mk k' s' cs', hfenceless, h => by
    rw [preorder] at hfenceless
    obtain ⟨hroot, hbelow⟩ := List.forall_mem_cons.mp hfenceless
    have hk : ∀ fence, k ≠ .fence fence := by
      rintro fence rfl
      obtain ⟨hkind, -⟩ := mk.inj h
      subst hkind
      cases hroot
    rw [outside_of_ne hk] at h
    obtain ⟨rfl, rfl, hchildren⟩ := mk.inj h
    rw [eq_of_outsideList_eq hbelow hchildren]

theorem eq_of_outsideList_eq : ∀ {ts ts' : List Tree}, (∀ n ∈ preorderList ts', n.fence? = none) →
    outsideList ts = ts' → ts = ts'
  | [], [], _, _ => rfl
  | [], _ :: _, _, h => by cases h
  | _ :: _, [], _, h => by cases h
  | t :: ts, t' :: ts', hfenceless, h => by
    rw [outsideList_cons] at h
    obtain ⟨hfirst, hothers⟩ := List.cons.inj h
    rw [preorderList] at hfenceless
    obtain ⟨hhead, htail⟩ := List.forall_mem_append.mp hfenceless
    rw [eq_of_outside_eq hhead hfirst, eq_of_outsideList_eq htail hothers]

end

theorem isNamed_outside (t : Tree) (name : String) : t.outside.isNamed name = t.isNamed name := by
  obtain ⟨k, s, cs⟩ := t
  cases k with
  | fence fence => rfl
  | document => rfl
  | text content => rfl
  | other name => rfl

/-- A tree without fences is what it holds outside of them. -/
theorem outside_of_fenceless {t : Tree} (h : ∀ n ∈ t.preorder, n.fence? = none) : t.outside = t :=
  mapFences_eq_self t fun n hn hfence => by simp [h n hn] at hfence

/-- Nodes of one name that hold no fences are the same in trees that differ in their fences
alone. -/
theorem filter_isNamed_eq {ts ts' : List Tree} {name : String}
    (h : outsideList ts = outsideList ts')
    (hfenceless : ∀ t ∈ ts', t.isNamed name = true → ∀ n ∈ t.preorder, n.fence? = none) :
    ts.filter (·.isNamed name) = ts'.filter (·.isNamed name) := by
  induction ts generalizing ts' with
  | nil =>
    cases ts' with
    | nil => rfl
    | cons t' more' => cases h
  | cons t more ih =>
    cases ts' with
    | nil => cases h
    | cons t' more' =>
      rw [outsideList_cons, outsideList_cons] at h
      obtain ⟨hfirst, hothers⟩ := List.cons.inj h
      obtain ⟨hhead, htail⟩ := List.forall_mem_cons.mp hfenceless
      have hnamed : t.isNamed name = t'.isNamed name := by
        rw [← isNamed_outside t, hfirst, isNamed_outside]
      rw [List.filter_cons, List.filter_cons, hnamed, ih hothers htail]
      split
      · next hname =>
        have hfence := hhead hname
        rw [outside_of_fenceless hfence] at hfirst
        rw [eq_of_outside_eq hfence hfirst]
      · rfl

end Tree

namespace Document

open Layout

variable {d : Document} {options : Options}

/-- The characters that separate the words of the paragraphs that are laid out. -/
def separators (d : Document) (options : Options) : List Char :=
  (d.root.children.filter (·.isNamed "paragraph")).flatMap
    (separatorsOf options d.source.toList (lineEnding none d.source.toList))

/-- A document differs from the one that is read from its source in its fences alone, if at all. -/
def IsAsReadOutside (d : Document) : Prop := d.root.outside = (ofMarkdown d.source).root.outside

instance (d : Document) : Decidable d.IsAsReadOutside := inferInstanceAs (Decidable (_ = _))

/-- The paragraphs outside of all other blocks are those that were read. -/
theorem IsAsReadOutside.paragraphs_eq (h : d.IsAsReadOutside) :
    d.root.children.filter (·.isNamed "paragraph") =
      (ofMarkdown d.source).root.children.filter (·.isNamed "paragraph") := by
  refine Tree.filter_isNamed_eq ?_ fun t ht hnamed => ?_
  · obtain ⟨source, ⟨k, s, cs⟩⟩ := d
    obtain ⟨s', cs', hread⟩ : ∃ s' cs', (ofMarkdown source).root = .mk .document s' cs' :=
      ⟨_, _, rfl⟩
    unfold IsAsReadOutside at h
    rw [hread] at h ⊢
    rw [Tree.outside_of_ne (k := .document) (by simp)] at h
    have hk : ∀ fence, k ≠ .fence fence := by
      rintro fence rfl
      cases h
    rw [Tree.outside_of_ne hk] at h
    exact (Tree.mk.inj h).2.2
  · obtain ⟨gs, hgs⟩ := exists_glyphs ht hnamed
    exact hgs.fenceless

theorem isChangedFence_of_isAsRead {t : Tree} (h : t.IsAsRead) : t.isChangedFence = false := by
  rw [Tree.isChangedFence]
  cases hfence : t.fence? with
  | none => rfl
  | some fence =>
    obtain ⟨hinfo, hchildren⟩ := h fence hfence
    have hbody : t.body? = some fence.parsedBody := by
      rw [Tree.body?, hfence, hchildren]
      rfl
    simp [Fence.isModified, hinfo, hbody]

/-- Where no fence was changed, the edits are those of the paragraphs that were read. -/
theorem IsAsReadOutside.edits_eq (h : d.IsAsReadOutside)
    (hfences : ∀ t ∈ d.root.preorder, t.isChangedFence = false) :
    d.edits options = (ofMarkdown d.source).edits options := by
  have hnone : ∀ {d : Document}, (∀ t ∈ d.root.preorder, t.isChangedFence = false) →
      d.root.preorder.filter (·.isChangedFence) = [] := fun h =>
    List.filter_eq_nil_iff.mpr fun t ht => by simp [h t ht]
  have hread : ∀ t ∈ (ofMarkdown d.source).root.preorder, t.isChangedFence = false := fun t ht =>
    isChangedFence_of_isAsRead (Tree.asRead_ofNode _ _ t ht)
  have hsame : (ofMarkdown d.source).replacement? options = d.replacement? options := rfl
  rw [Document.edits_eq, Document.edits_eq, hnone hfences, hnone hread, h.paragraphs_eq, hsame]
  rfl

/-- Where no fence was changed, an edit lays out a paragraph. -/
theorem mem_edits_iff (hfences : ∀ t ∈ d.root.preorder, t.isChangedFence = false) {e : Edit} :
    e ∈ d.edits options ↔ ∃ t ∈ d.root.children.filter (·.isNamed "paragraph"), ∃ old,
      LaidOut options d.source.toList (lineEnding none d.source.toList) t e.span old e.content ∧
        e.content ≠ old := by
  have hnone : d.root.nodes.filterMap
      (fenceEdit? d.source.toList (lineEnding none d.source.toList)) = [] := by
    rw [Tree.nodes_eq_preorder, List.filterMap_eq_nil_iff]
    intro t ht
    have hedit : fenceEdit? d.source.toList (lineEnding none d.source.toList) t =
        if t.isChangedFence then d.replacement? options t else none := fenceEdit?_eq t
    rw [hedit, hfences t ht]
    rfl
  unfold edits
  dsimp only
  rw [hnone, List.nil_append, List.mem_filterMap]
  simp only [paragraphEdit?_eq_some_iff, List.mem_filter, and_assoc]

theorem filter_edits {p : Char → Bool} (hp : ∀ c, isSpacing c = true → p c = false)
    (h : d.IsAsReadOutside) (hfences : ∀ t ∈ d.root.preorder, t.isChangedFence = false)
    (options : Options) :
    (d.render options).toList.filter p = d.source.toList.filter p ↔
      ∀ c ∈ d.separators options, p c = false := by
  have hending : IsEnding (lineEnding none d.source.toList) := isEnding_lineEnding _ _
  have hfits : Fits d.source.toList (lastFirst (d.edits options)) := by
    rw [h.edits_eq hfences]
    exact (fits_edits options d.source).perm (lastFirst_perm _)
  have hmem : ∀ e, e ∈ lastFirst (d.edits options) ↔ _ := fun e =>
    (lastFirst_perm _).mem_iff.trans (mem_edits_iff hfences)
  have hcontent :
    ∀ e ∈ lastFirst (d.edits options), ∀ old, slice d.source.toList e.span = some old →
      (e.content.filter p).Sublist (old.filter p) := by
    intro e he old hold
    obtain ⟨t, -, old', hlaid, -⟩ := (hmem e).mp he
    obtain rfl := Option.some.inj (hold.symm.trans hlaid.cut)
    rw [filter_formatted hp hending hlaid.formatted]
    exact (solid_sublist _ _ _).filter p
  have hweave := hfits.filter_weave (descending_lastFirst _) hcontent
  rw [render, String.toList_ofList, applyEdits_of_descending hfits (descending_lastFirst _),
    hweave.2]
  constructor
  · intro hsame c hc
    obtain ⟨t, ht, hc⟩ := List.mem_flatMap.mp hc
    obtain ⟨span, old, content, hlaid, hc⟩ := mem_separatorsOf.mp hc
    have hfilter : content.filter p = old.filter p := by
      by_cases hne : content = old
      · rw [hne]
      · exact hsame ⟨span, content⟩ ((hmem _).mpr ⟨t, ht, old, hlaid, hne⟩) old hlaid.cut
    rw [filter_formatted hp hending hlaid.formatted, filter_solid] at hfilter
    exact hfilter c hc
  · intro hnone e he old hold
    obtain ⟨t, ht, old', hlaid, -⟩ := (hmem e).mp he
    obtain rfl := Option.some.inj (hold.symm.trans hlaid.cut)
    rw [filter_formatted hp hending hlaid.formatted, filter_solid]
    exact fun c hc => hnone c (List.mem_flatMap.mpr
      ⟨t, ht, mem_separatorsOf.mpr ⟨e.span, old, e.content, hlaid, hc⟩⟩)

/-- **Laying out a document drops and writes blanks alone.** All its other characters stay, in their
order; and so do the blanks that are not spaces, tabs or line breaks, exactly when none of them
separates words of a paragraph that is laid out. -/
theorem filter_render (h : d.IsAsReadOutside)
    (hfences : ∀ t ∈ d.root.preorder, t.isChangedFence = false) (options : Options) :
    (d.render options).toList.filter (!isBlank ·) = d.source.toList.filter (!isBlank ·) ∧
      ((d.render options).toList.filter (!isSpacing ·) = d.source.toList.filter (!isSpacing ·) ↔
        ∀ c ∈ d.separators options, isSpacing c = true) := by
  constructor
  · refine (filter_edits ?_ h hfences options).mpr fun c hc => ?_
    · intro c hc
      simp [isBlank_of_isSpacing hc]
    · obtain ⟨t, -, hc⟩ := List.mem_flatMap.mp hc
      obtain ⟨span, old, content, -, hc⟩ := mem_separatorsOf.mp hc
      simp [isBlank_of_mem_separators hc]
  · rw [filter_edits (fun c hc => by simp [hc]) h hfences options]
    simp

/-- Blanks of all kinds where laying out does not look at them: in code, in an item, and in a
fence. -/
def oddBlanks : Document :=
  ofMarkdown "a \t b `c\u00a0 d`  \r\ne   f\r\n\r\n- g\u3000h\r\n\r\n~~~\r\ni\u2003j\r\n~~~\r\n"

theorem filter_render_oddBlanks :
    (oddBlanks.IsAsReadOutside ∧ ∀ t ∈ oddBlanks.root.preorder, t.isChangedFence = false) ∧
      (oddBlanks.render ⟨some 3, true⟩).toList.filter (!isSpacing ·) =
        oddBlanks.source.toList.filter (!isSpacing ·) := by
  have hread : oddBlanks.IsAsReadOutside := by decide +kernel
  have hfences : ∀ t ∈ oddBlanks.root.preorder, t.isChangedFence = false := by decide +kernel
  have hspaces : (oddBlanks.separators ⟨some 3, true⟩).all isSpacing = true := by decide +kernel
  refine ⟨⟨hread, hfences⟩, ?_⟩
  exact (filter_render hread hfences ⟨some 3, true⟩).2.mpr (List.all_eq_true.mp hspaces)

/-- A no-break space between words is taken for a blank like the others, and a space is written in
its place. So more than spaces, tabs and line breaks is lost. -/
theorem normalize_drops_noBreakSpace :
    ¬ ∀ (d : Document) (options : Options), d.IsAsReadOutside →
      (∀ t ∈ d.root.preorder, t.isChangedFence = false) →
      (d.render options).toList.filter (!isSpacing ·) = d.source.toList.filter (!isSpacing ·) := by
  intro h
  have hread : (ofMarkdown "a\u00a0b").IsAsReadOutside := by decide +kernel
  have hfences : ∀ t ∈ (ofMarkdown "a\u00a0b").root.preorder, t.isChangedFence = false := by
    decide +kernel
  have hrender : (ofMarkdown "a\u00a0b").render ⟨none, true⟩ = "a b" := by decide +kernel
  have hsame := h _ ⟨none, true⟩ hread hfences
  rw [hrender] at hsame
  exact absurd hsame (by decide +kernel)

end Document

end LiveDoc
