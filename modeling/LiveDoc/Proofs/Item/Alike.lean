import LiveDoc.Proofs.Item.Walk
import Mathlib.Data.List.Forall2

/-!
# Tokens that are scanned alike

The scanner looks at the kinds of tokens and at the texts of words and brackets, and of places it
only copies the start of one token and the end of another. So texts whose tokens are of the same
kinds, with the same words, hold the same items, and the places of these correspond as those of the
tokens do (`scanLexemes_alike`).
-/

namespace LiveDoc.Item

/-! ## Tokens -/

/-- The texts of comments, strings and quotes, which the scanner looks for nowhere. -/
def Inert (text : List Char) : Prop := '"' ∈ text ∨ '\'' ∈ text ∨ '/' ∈ text

instance (text : List Char) : Decidable (Inert text) := inferInstanceAs (Decidable (_ ∨ _))

/-- Spans whose starts correspond by `P` and whose ends by `Q`. -/
structure SpanAlike (P Q : Nat → Nat → Prop) (s s' : Text.Span) : Prop where
  start : P s.start s'.start
  stop : Q s.stop s'.stop

/-- Tokens that the scanner does not tell apart. -/
structure TokenAlike (P Q : Nat → Nat → Prop) (t t' : Lexeme) : Prop where
  kind : t.kind = t'.kind
  text : t.text = t'.text ∨ t.kind ≠ .word ∧ Inert t.text ∧ Inert t'.text
  span : SpanAlike P Q t.span t'.span

/-- Items of the same kind and name, with places that correspond. -/
structure ItemAlike (P Q : Nat → Nat → Prop) (i i' : Item) : Prop where
  kind : i.kind = i'.kind
  name : i.name = i'.name
  span : SpanAlike P Q i.span i'.span
  body : Option.Rel (SpanAlike P Q) i.body i'.body
  innerDocs : List.Forall₂ (SpanAlike P Q) i.innerDocs i'.innerDocs

variable {P Q : Nat → Nat → Prop} {t t' last last' : Lexeme} {ts ts' : List Lexeme}

theorem TokenAlike.text_iff (h : TokenAlike P Q t t') {w : List Char} (hw : ¬ Inert w) :
    t.text = w ↔ t'.text = w := by
  rcases h.text with htext | ⟨-, ht, ht'⟩
  · rw [htext]
  · constructor
    · rintro rfl
      exact absurd ht hw
    · rintro rfl
      exact absurd ht' hw

theorem TokenAlike.isWord (h : TokenAlike P Q t t') (s : String) : t.isWord s = t'.isWord s := by
  unfold Lexeme.isWord
  rw [h.kind]
  by_cases hword : t'.kind = .word
  · have htext : t.text = t'.text :=
      h.text.resolve_right fun hinert => hinert.1 (h.kind.trans hword)
    rw [htext]
  · rw [decide_eq_false hword, Bool.false_and, Bool.false_and]

/-- Places in the two texts. -/
abbrev PlaceAlike (P Q : Nat → Nat → Prop) : List Lexeme → List Lexeme → Prop :=
  List.Forall₂ (TokenAlike P Q)

theorem PlaceAlike.tail (h : PlaceAlike P Q ts ts') : PlaceAlike P Q ts.tail ts'.tail := by
  cases h with
  | nil => exact .nil
  | cons _ hrest => exact hrest

theorem PlaceAlike.kindAt_eq (h : PlaceAlike P Q ts ts') : kindAt ts = kindAt ts' := by
  cases h with
  | nil => rfl
  | cons ht _ => exact congrArg some ht.kind

theorem PlaceAlike.isWordAt_eq (h : PlaceAlike P Q ts ts') (s : String) :
    isWordAt s ts = isWordAt s ts' := by
  cases h with
  | nil => rfl
  | cons ht _ => exact ht.isWord s

theorem PlaceAlike.textAt_iff (h : PlaceAlike P Q ts ts') {w : List Char} (hw : ¬ Inert w) :
    textAt ts = w ↔ textAt ts' = w := by
  cases h with
  | nil => exact Iff.rfl
  | cons ht _ => exact ht.text_iff hw

/-! ## Looking ahead -/

theorem seek_alike {σ : Type} {stops : σ → Lexeme → Bool} {next : σ → Lexeme → σ}
    (hstops : ∀ s t t', TokenAlike P Q t t' → stops s t = stops s t')
    (hnext : ∀ s t t', TokenAlike P Q t t' → next s t = next s t')
    (hlast : TokenAlike P Q last last') (h : PlaceAlike P Q ts ts') (s : σ) :
    PlaceAlike P Q (seek stops next last s ts) (seek stops next last' s ts') := by
  induction h generalizing s with
  | nil => exact .cons hlast .nil
  | cons ht hrest ih =>
    rw [seek, seek, hstops s _ _ ht, hnext s _ _ ht]
    split
    · exact .cons ht hrest
    · exact ih _

theorem matchingClose_alike (hlast : TokenAlike P Q last last') (h : PlaceAlike P Q ts ts')
    (depth : Nat) :
    PlaceAlike P Q (matchingClose last depth ts) (matchingClose last' depth ts') := by
  rw [matchingClose_eq_seek, matchingClose_eq_seek]
  refine seek_alike (fun s t t' ht => ?_) (fun s t t' ht => ?_) hlast h depth
  · rw [closes, closes, ht.kind]
  · rw [depthBehind, depthBehind, ht.kind]

theorem semicolonFrom_alike (hlast : TokenAlike P Q last last') (h : PlaceAlike P Q ts ts')
    (depth : Nat) :
    PlaceAlike P Q (semicolonFrom last depth ts) (semicolonFrom last' depth ts') := by
  rw [semicolonFrom_eq_seek, semicolonFrom_eq_seek]
  refine seek_alike (fun s t t' ht => ?_) (fun s t t' ht => ?_) hlast h depth
  · rw [endsItem, endsItem, ht.kind]
  · rw [depthBehind, depthBehind, ht.kind]

theorem bodyOrSemicolonFrom_alike (hlast : TokenAlike P Q last last') (h : PlaceAlike P Q ts ts')
    (depth angles : Nat) : PlaceAlike P Q (bodyOrSemicolonFrom last depth angles ts)
      (bodyOrSemicolonFrom last' depth angles ts') := by
  rw [bodyOrSemicolonFrom_eq_seek, bodyOrSemicolonFrom_eq_seek]
  refine seek_alike (fun s t t' ht => ?_) (fun s t t' ht => ?_) hlast h (depth, angles)
  · have hbrace : (t.text = ['{']) = (t'.text = ['{']) := propext (ht.text_iff (by decide))
    simp only [endsHeader, ht.kind, hbrace]
  · rw [openBehind, openBehind, ht.kind]

theorem skipGroup_alike (hlast : TokenAlike P Q last last') (h : PlaceAlike P Q ts ts') :
    PlaceAlike P Q (skipGroup last ts) (skipGroup last' ts') :=
  (matchingClose_alike hlast h 0).tail

/-! ## Modifiers -/

theorem modifier?_alike (h : PlaceAlike P Q ts ts') : modifier? ts = modifier? ts' := by
  have htext : ∀ s ∈ ["pub", "const", "extern", "async", "unsafe", "default", "auto", "safe"],
      (textAt ts = s.toList) = (textAt ts' = s.toList) := by
    intro s hs
    have hinert : ∀ s ∈ ["pub", "const", "extern", "async", "unsafe", "default", "auto", "safe"],
        ¬ Inert s.toList := by decide
    exact propext (h.textAt_iff (hinert s hs))
  have hparen : (textAt ts.tail = ['(']) = (textAt ts'.tail = ['(']) :=
    propext (h.tail.textAt_iff (by decide))
  have hqualifier : ["async", "unsafe", "default", "auto", "safe"].any
      (fun s => decide (s.toList = textAt ts)) =
        ["async", "unsafe", "default", "auto", "safe"].any
          (fun s => decide (s.toList = textAt ts')) := by
    simp only [List.any_cons, List.any_nil, eq_comm (b := textAt ts), eq_comm (b := textAt ts'),
      htext "async" (by simp), htext "unsafe" (by simp), htext "default" (by simp),
      htext "auto" (by simp), htext "safe" (by simp)]
  have hword : ∀ s, isWordAt s ts.tail = isWordAt s ts'.tail := h.tail.isWordAt_eq
  have hword' : ∀ s, isWordAt s ts.tail.tail = isWordAt s ts'.tail.tail := h.tail.tail.isWordAt_eq
  simp only [modifier?, isInterface, htext "pub" (by simp), htext "const" (by simp),
    htext "extern" (by simp), hparen, hqualifier, hword, hword', h.tail.kindAt_eq,
    h.tail.tail.kindAt_eq]
  congr

theorem Modifier.behind_alike (hlast : TokenAlike P Q last last') (h : PlaceAlike P Q ts ts')
    (m : Modifier) : PlaceAlike P Q (m.behind last ts) (m.behind last' ts') := by
  cases m with
  | word => exact h.tail
  | literal => exact h.tail.tail
  | group => exact skipGroup_alike hlast h.tail

theorem keywordPlace_alike (hlast : TokenAlike P Q last last') (h : PlaceAlike P Q ts ts') :
    PlaceAlike P Q (keywordPlace last ts) (keywordPlace last' ts') := by
  induction hn : ts.length using Nat.strongRecOn generalizing ts ts' with
  | _ n ih =>
    rw [keywordPlace_eq, keywordPlace_eq, ← modifier?_alike h]
    cases hmodifier : modifier? ts with
    | none => exact h
    | some m =>
      have hlt := m.length_behind_lt last hmodifier
      exact ih _ (hn ▸ hlt) (m.behind_alike hlast h) rfl

/-! ## Items -/

theorem ofKeyword?_of_inert {text : List Char} (h : Inert text) : Kind.ofKeyword? text = none := by
  unfold Kind.ofKeyword?
  rw [List.findSome?_eq_none_iff]
  intro entry hentry
  have hkeyword : entry.1.toList ≠ text := by
    rintro rfl
    revert h
    revert entry
    decide
  exact if_neg hkeyword

theorem keywordAt?_alike (h : PlaceAlike P Q ts ts') : keywordAt? ts = keywordAt? ts' := by
  have hextern : (textAt ts = "extern".toList) = (textAt ts' = "extern".toList) :=
    propext (h.textAt_iff (by decide))
  have hunion : (textAt ts = "union".toList) = (textAt ts' = "union".toList) :=
    propext (h.textAt_iff (by decide))
  have hkeyword : Kind.ofKeyword? (textAt ts) = Kind.ofKeyword? (textAt ts') := by
    cases h with
    | nil => rfl
    | cons ht _ =>
      rcases ht.text with htext | ⟨-, hinert, hinert'⟩
      · exact congrArg Kind.ofKeyword? htext
      · exact (ofKeyword?_of_inert hinert).trans (ofKeyword?_of_inert hinert').symm
  simp only [keywordAt?, hextern, hunion, hkeyword, h.tail.isWordAt_eq, h.tail.kindAt_eq]

theorem nameAt?_alike (h : PlaceAlike P Q ts ts') : nameAt? ts = nameAt? ts' := by
  unfold nameAt?
  rw [h.kindAt_eq]
  split
  · next hword =>
    cases h with
    | nil => cases hword
    | cons ht _ =>
      have htext := ht.text.resolve_right fun hinert =>
        hinert.1 (ht.kind.trans (Option.some.inj hword))
      simp only [textAt, List.head?_cons, Option.map_some, Option.getD_some, htext]
      rfl
  · rfl

theorem namePlace_alike (h : PlaceAlike P Q ts ts') (kind : Kind) :
    PlaceAlike P Q (namePlace kind ts) (namePlace kind ts') := by
  unfold namePlace
  rw [h.isWordAt_eq, h.kindAt_eq]
  repeat' split
  · exact h.tail
  · exact h.tail
  · exact h

theorem itemName?_alike (h : PlaceAlike P Q ts ts') (kind : Kind) :
    itemName? kind ts = itemName? kind ts' := by
  unfold itemName?
  rw [nameAt?_alike (namePlace_alike h kind)]

theorem behindName_alike (h : PlaceAlike P Q ts ts') (kind : Kind) :
    PlaceAlike P Q (behindName kind ts) (behindName kind ts') := by
  unfold behindName
  split
  · exact (namePlace_alike h kind).tail
  · exact h

theorem extent_alike (hlast : TokenAlike P Q last last') (h : PlaceAlike P Q ts ts') (kind : Kind) :
    PlaceAlike P Q (extent last kind ts).1 (extent last' kind ts').1 ∧
      Option.Rel (PlaceAlike P Q) (extent last kind ts).2 (extent last' kind ts').2 := by
  by_cases hkind : kind.endsWithSemicolon = true
  · rw [extent_of_endsWithSemicolon hkind, extent_of_endsWithSemicolon hkind]
    exact ⟨semicolonFrom_alike hlast h 0, .none⟩
  rw [Bool.not_eq_true] at hkind
  by_cases hmacro : kind = .macroRules
  · subst hmacro
    have hbrace := h.textAt_iff (w := ['{']) (by decide)
    have hclose := matchingClose_alike hlast h 0
    rw [extent_of_macroRules, extent_of_macroRules]
    by_cases hopen : textAt ts = ['{']
    · rw [if_pos hopen, if_pos (hbrace.mp hopen)]
      exact ⟨hclose, .some h⟩
    · rw [if_neg hopen, if_neg (mt hbrace.mpr hopen)]
      exact ⟨semicolonFrom_alike hlast hclose.tail 0, .none⟩
  · have hstop := bodyOrSemicolonFrom_alike hlast h 0 0
    rw [extent_of_header hkind hmacro, extent_of_header hkind hmacro, hstop.kindAt_eq]
    split
    · exact ⟨matchingClose_alike hlast hstop 0, .some hstop⟩
    · exact ⟨hstop, .none⟩

theorem startAt_alike (hlast : TokenAlike P Q last last') (h : PlaceAlike P Q ts ts') :
    P (startAt last ts) (startAt last' ts') := by
  cases h with
  | nil => exact hlast.span.start
  | cons ht _ => exact ht.span.start

theorem endAt_alike (hlast : TokenAlike P Q last last') (h : PlaceAlike P Q ts ts') :
    Q (endAt last ts) (endAt last' ts') := by
  cases h with
  | nil => exact hlast.span.stop
  | cons ht _ => exact ht.span.stop

theorem innerDocsAfter_alike (h : PlaceAlike P Q ts ts') :
    List.Forall₂ (SpanAlike P Q) (innerDocsAfter ts) (innerDocsAfter ts') := by
  unfold innerDocsAfter
  have hrest := h.tail
  generalize ts.tail = rest at hrest ⊢
  generalize ts'.tail = rest' at hrest ⊢
  induction hrest with
  | nil => exact .nil
  | cons ht _ ih =>
    rw [List.takeWhile_cons, List.takeWhile_cons, ht.kind]
    split
    · exact .cons ht.span ih
    · exact .nil

theorem itemOf_alike (hlast : TokenAlike P Q last last') {start start' : Nat}
    (hstart : P start start') (kind : Kind) (name : Option String) {stop stop' : List Lexeme}
    {body body' : Option (List Lexeme)} (hstop : PlaceAlike P Q stop stop')
    (hbody : Option.Rel (PlaceAlike P Q) body body') :
    ItemAlike P Q (itemOf last start kind name (stop, body))
      (itemOf last' start' kind name (stop', body')) := by
  have hend := endAt_alike hlast hstop
  cases hbody with
  | none => exact ⟨rfl, rfl, ⟨hstart, hend⟩, .none, .nil⟩
  | some hopening =>
    exact ⟨rfl, rfl, ⟨hstart, hend⟩, .some ⟨startAt_alike hlast hopening, hend⟩,
      innerDocsAfter_alike hopening⟩

theorem scanItem_alike (hlast : TokenAlike P Q last last') (h : PlaceAlike P Q ts ts')
    {start start' : Nat} (hstart : P start start') :
    Option.Rel (ItemAlike P Q) (scanItem last start ts).1 (scanItem last' start' ts').1 ∧
      PlaceAlike P Q (scanItem last start ts).2 (scanItem last' start' ts').2 := by
  have hkeyword := keywordPlace_alike hlast h
  have hmacro : (textAt (keywordPlace last ts) = "macro_rules".toList) =
      (textAt (keywordPlace last' ts') = "macro_rules".toList) :=
    propext (hkeyword.textAt_iff (by decide))
  have hinvocation :
      isInvocation (keywordPlace last ts) = isInvocation (keywordPlace last' ts') := by
    simp only [isInvocation, ne_eq, hmacro, hkeyword.tail.kindAt_eq]
  rw [scanItem_eq, scanItem_eq, ← hinvocation, ← keywordAt?_alike hkeyword]
  split
  · -- a macro is invoked
    refine ⟨.none, ?_⟩
    have hclose := matchingClose_alike hlast hkeyword.tail.tail 0
    have hbrace : (textAt (keywordPlace last ts).tail.tail = ['{']) =
        (textAt (keywordPlace last' ts').tail.tail = ['{']) :=
      propext (hkeyword.tail.tail.textAt_iff (by decide))
    simp only [behindInvocation, ne_eq, hbrace, hclose.tail.kindAt_eq]
    by_cases htest : (!decide (textAt (keywordPlace last' ts').tail.tail = ['{']) &&
        decide (kindAt (matchingClose last' 0 (keywordPlace last' ts').tail.tail).tail =
          some .semicolon)) = true
    · simp only [decide_not, htest, if_true]
      exact hclose.tail.tail
    · simp only [decide_not, htest]
      exact hclose.tail
  split
  · exact ⟨.none, hkeyword.tail⟩
  · next kind _ =>
    obtain ⟨hstop, hbody⟩ := extent_alike hlast (behindName_alike hkeyword.tail kind) kind
    dsimp only
    rw [itemName?_alike hkeyword.tail kind]
    exact ⟨.some (itemOf_alike hlast hstart kind _ hstop hbody), hstop.tail⟩

/-! ## The walk -/

theorem behindAttribute_alike (hlast : TokenAlike P Q last last') (h : PlaceAlike P Q ts ts') :
    PlaceAlike P Q (behindAttribute last ts) (behindAttribute last' ts') := by
  have hopening : PlaceAlike P Q (if kindAt ts = some .bang then ts.tail else ts)
      (if kindAt ts' = some .bang then ts'.tail else ts') := by
    rw [h.kindAt_eq]
    split
    · exact h.tail
    · exact h
  unfold behindAttribute
  dsimp only
  generalize (if kindAt ts = some .bang then ts.tail else ts) = opening at hopening ⊢
  generalize (if kindAt ts' = some .bang then ts'.tail else ts') = opening' at hopening ⊢
  rw [hopening.kindAt_eq]
  split
  · exact skipGroup_alike hlast hopening
  · exact hopening

/-- Steps that lead to places that correspond. -/
structure StepAlike (P Q : Nat → Nat → Prop) (s s' : Step) : Prop where
  item : Option.Rel (ItemAlike P Q) s.item s'.item
  pending : Option.Rel P s.pending s'.pending
  place : PlaceAlike P Q s.place s'.place

theorem step_alike (hlast : TokenAlike P Q last last') (ht : TokenAlike P Q t t')
    (h : PlaceAlike P Q ts ts') {pending pending' : Option Nat}
    (hpending : Option.Rel P pending pending') :
    StepAlike P Q (step last pending t ts) (step last' pending' t' ts') := by
  have hnext :
      Option.Rel P (pending.or (some t.span.start)) (pending'.or (some t'.span.start)) := by
    cases hpending with
    | none => exact .some ht.span.start
    | some hstart => exact .some hstart
  by_cases hdoc : t.kind = .outerDoc
  · rw [step_of_outerDoc _ _ hdoc, step_of_outerDoc _ _ (ht.kind ▸ hdoc)]
    exact ⟨.none, hnext, h⟩
  by_cases hpound : t.kind = .pound
  · rw [step_of_pound _ _ hpound, step_of_pound _ _ (ht.kind ▸ hpound), h.kindAt_eq]
    refine ⟨.none, ?_, behindAttribute_alike hlast h⟩
    dsimp only
    split
    · exact hpending
    · exact hnext
  by_cases hword : t.kind = .word
  · have hstart : P (pending.getD t.span.start) (pending'.getD t'.span.start) := by
      cases hpending with
      | none => exact ht.span.start
      | some hstart => exact hstart
    obtain ⟨hitem, hafter⟩ := scanItem_alike hlast (.cons ht h) hstart
    rw [step_of_word _ _ hword, step_of_word _ _ (ht.kind ▸ hword)]
    exact ⟨hitem, .none, hafter⟩
  · rw [step_of_other _ _ hdoc hpound hword, step_of_other _ _ (ht.kind ▸ hdoc) (ht.kind ▸ hpound)
      (ht.kind ▸ hword)]
    exact ⟨.none, .none, h⟩

theorem walk_alike (hlast : TokenAlike P Q last last') (h : PlaceAlike P Q ts ts')
    {pending pending' : Option Nat} (hpending : Option.Rel P pending pending') :
    List.Forall₂ (ItemAlike P Q) (walk last pending ts) (walk last' pending' ts') := by
  induction hn : ts.length using Nat.strongRecOn generalizing ts ts' pending pending' with
  | _ n ih =>
    cases h with
    | nil => exact .nil
    | @cons t t' rest rest' ht hrest =>
      have hstep := step_alike hlast ht hrest hpending
      have hlt := length_step_lt last pending t rest
      have hmore := ih _ (hn ▸ hlt) hstep.place hstep.pending rfl
      rw [walk_cons, walk_cons]
      refine List.rel_append ?_ hmore
      have hitem := hstep.item
      generalize (step last pending t rest).item = item at hitem ⊢
      generalize (step last' pending' t' rest').item = item' at hitem ⊢
      cases hitem with
      | none => exact .nil
      | some hitem => exact .cons hitem .nil

theorem PlaceAlike.getLast? (h : PlaceAlike P Q ts ts') :
    Option.Rel (TokenAlike P Q) ts.getLast? ts'.getLast? := by
  have hreverse : PlaceAlike P Q ts.reverse ts'.reverse := List.forall₂_reverse_iff.mpr h
  rw [← List.head?_reverse, ← List.head?_reverse]
  generalize ts.reverse = back at hreverse ⊢
  generalize ts'.reverse = back' at hreverse ⊢
  cases hreverse with
  | nil => exact .none
  | cons hlast _ => exact .some hlast

/-- **Texts with tokens that are alike hold items that are alike.** -/
theorem scanLexemes_alike (h : PlaceAlike P Q ts ts') :
    List.Forall₂ (ItemAlike P Q) (scanLexemes ts) (scanLexemes ts') := by
  have hlast := h.getLast?
  cases hts : ts.getLast? with
  | none =>
    obtain rfl := List.getLast?_eq_none_iff.mp hts
    cases h
    exact .nil
  | some last =>
    rw [hts] at hlast
    cases hts' : ts'.getLast? with
    | none =>
      rw [hts'] at hlast
      cases hlast
    | some last' =>
      rw [hts'] at hlast
      cases hlast with
      | some hlast =>
        rw [scanLexemes_eq_walk hts, scanLexemes_eq_walk hts']
        exact walk_alike hlast h .none

end LiveDoc.Item
