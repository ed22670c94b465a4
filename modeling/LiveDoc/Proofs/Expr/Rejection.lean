import Mathlib.Data.List.Chain
import LiveDoc.Proofs.Expr.Acceptance

/-!
# What is rejected as an expression

`Malformed` lists ways in which a list of tokens goes wrong at any depth: commas too many or too
few, a parenthesis that is never closed, tokens behind a whole expression.

* **neighbours** — of derived tokens only certain kinds stand side by side (`Derives.chained`);
* **depth** — in derived tokens every parenthesis is closed (`Derives.balanced`);
* `Malformed.not_derives` — so malformed tokens are derived from no expression;
* `parse_eq_ok_iff_derives` — a source is read as an expression exactly when its tokens are derived
  from it, and is an invalid expression otherwise.
-/

namespace LiveDoc

namespace Token

/-- Whether an argument can start with a token of the kind. -/
def Kind.startsArgument : Kind → Bool
  | .identifier | .string | .integer | .float => true
  | _ => false

/-- Whether an argument can end with a token of the kind. -/
def Kind.endsArgument : Kind → Bool
  | .identifier | .string | .integer | .float | .parenClose => true
  | _ => false

/-- Whether arguments can end with a token of the kind: the last of them may have a comma. -/
def Kind.endsArguments (k : Kind) : Bool := k.endsArgument || k = .comma

/-- Whether the second kind may stand right behind the first one in an expression. -/
def Kind.mayPrecede : Kind → Kind → Bool
  | .parenOpen, k => k.startsArgument || k = .parenClose
  | .comma, k => k.startsArgument || k = .parenClose
  | .equals, k => k.startsArgument
  | .identifier, k => k = .parenOpen || k = .equals || k = .comma || k = .parenClose
  | .parenClose, k => k = .comma || k = .parenClose
  | .string, k => k = .comma || k = .parenClose
  | .integer, k => k = .comma || k = .parenClose
  | .float, k => k = .comma || k = .parenClose

/-- Behind the end of an argument a comma or a closing parenthesis may stand. -/
theorem Kind.mayPrecede_of_endsArgument {k k' : Kind} (hk : k.endsArgument = true)
    (hk' : k' = .comma ∨ k' = .parenClose) : k.mayPrecede k' = true := by
  rcases hk' with rfl | rfl <;> cases k <;> simp_all [endsArgument, mayPrecede]

/-- No argument starts right behind the end of another one. -/
theorem Kind.not_mayPrecede {k k' : Kind} (hk : k.endsArgument = true)
    (hk' : k'.startsArgument = true) : k.mayPrecede k' = false := by
  cases k <;> cases k' <;> simp_all [endsArgument, startsArgument, mayPrecede]

/-- The tokens start with an argument, end as `last` says, and are good neighbours. -/
structure Chained (last : Kind → Bool) (ts : List Token) : Prop where
  starts : ∀ t ∈ ts.head?, t.kind.startsArgument = true
  neighbours : ts.IsChain fun t u => t.kind.mayPrecede u.kind = true
  ends : ∀ t ∈ ts.getLast?, last t.kind = true

/-! ## Parentheses -/

/-- The number of parentheses that are opened. -/
def openings (ts : List Token) : Nat := ts.countP fun t => t.kind = .parenOpen

/-- The number of parentheses that are closed. -/
def closings (ts : List Token) : Nat := ts.countP fun t => t.kind = .parenClose

/-- No more parentheses are closed than were opened before: one that is open in front of these
tokens stays open. -/
def NeverCloses (ts : List Token) : Prop := ∀ n, closings (ts.take n) ≤ openings (ts.take n)

/-- Every parenthesis that is opened is closed. -/
structure Balanced (ts : List Token) : Prop where
  low : NeverCloses ts
  even : closings ts = openings ts

theorem openings_append (ts us : List Token) :
    openings (ts ++ us) = openings ts + openings us := List.countP_append

theorem closings_append (ts us : List Token) :
    closings (ts ++ us) = closings ts + closings us := List.countP_append

theorem Balanced.nil : Balanced [] := ⟨by simp [NeverCloses, openings, closings], rfl⟩

theorem Balanced.append {ts us : List Token} (hts : Balanced ts) (hus : Balanced us) :
    Balanced (ts ++ us) := by
  refine ⟨?_, ?_⟩
  · intro n
    have h₁ := hts.low n
    have h₂ := hus.low (n - ts.length)
    rw [List.take_append, openings_append, closings_append]
    omega
  · rw [openings_append, closings_append, hts.even, hus.even]

/-- A token that is no parenthesis changes no depth. -/
theorem Balanced.single {t : Token} (hopen : t.kind ≠ .parenOpen) (hclose : t.kind ≠ .parenClose) :
    Balanced [t] := by
  refine ⟨?_, by simp [openings, closings, hopen, hclose]⟩
  intro n
  cases n with
  | zero => simp [openings, closings]
  | succ n => simp [openings, closings, hopen, hclose]

theorem Balanced.parenthesized {ts : List Token} (h : Balanced ts) :
    Balanced (opening :: (ts ++ [closing])) := by
  have hopen : openings (opening :: (ts ++ [closing])) = openings ts + 1 := by
    simp [openings, opening, closing]
  have hclose : closings (opening :: (ts ++ [closing])) = closings ts + 1 := by
    simp [closings, opening, closing]
  refine ⟨?_, by rw [hopen, hclose, h.even]⟩
  intro n
  cases n with
  | zero => simp [openings, closings]
  | succ n =>
    -- at most the last parenthesis of the list is closed, and it was opened at the start
    have hlow := h.low n
    have hlast : closings ([closing].take (n - ts.length)) ≤ 1 :=
      Nat.le_trans List.countP_le_length (by rw [List.length_take]; exact Nat.min_le_right _ _)
    have hstart : openings [opening] = 1 := rfl
    have hnone : closings [opening] = 0 := rfl
    rw [List.take_succ_cons, List.take_append, ← List.singleton_append, openings_append,
      closings_append, openings_append, closings_append, hstart, hnone]
    omega

/-- In balanced tokens no parenthesis stays open. -/
theorem Balanced.not_neverCloses {before after : List Token}
    (h : Balanced (before ++ opening :: after)) : ¬ NeverCloses after := by
  intro hnever
  have hbefore := h.low before.length
  have hafter := hnever after.length
  have heven := h.even
  have hstart : openings (opening :: after) = openings after + 1 := by simp [openings, opening]
  have hnone : closings (opening :: after) = closings after := by simp [closings, opening]
  rw [List.take_left] at hbefore
  rw [List.take_length] at hafter
  rw [openings_append, closings_append, hstart, hnone] at heven
  omega

/-! ## Neighbours -/

theorem Chained.single {last : Kind → Bool} {t : Token} (hstart : t.kind.startsArgument = true)
    (hend : last t.kind = true) : Chained last [t] :=
  ⟨by simpa using hstart, .singleton t, by simpa using hend⟩

theorem Chained.mono {last last' : Kind → Bool} {ts : List Token} (h : Chained last ts)
    (hle : ∀ k, last k = true → last' k = true) : Chained last' ts :=
  ⟨h.starts, h.neighbours, fun t ht => hle t.kind (h.ends t ht)⟩

/-- A comma joins an argument and what may follow it. -/
theorem Chained.append_separator {ts us : List Token} (hne : ts ≠ [])
    (hts : Chained Kind.endsArgument ts) (hus : Chained Kind.endsArguments us) :
    Chained Kind.endsArguments (ts ++ separator :: us) := by
  refine ⟨?_, ?_, ?_⟩
  · obtain ⟨t, more, rfl⟩ := List.exists_cons_of_ne_nil hne
    exact hts.starts
  · refine hts.neighbours.append (List.isChain_cons.mpr ⟨?_, hus.neighbours⟩) ?_
    · intro u hu
      simp [separator, Kind.mayPrecede, hus.starts u hu]
    · intro t ht u hu
      obtain rfl : separator = u := by simpa using hu
      exact Kind.mayPrecede_of_endsArgument (hts.ends t ht) (.inl rfl)
  · intro t ht
    rw [List.getLast?_append_of_ne_nil _ (by simp)] at ht
    cases us with
    | nil =>
      obtain rfl : separator = t := by simpa using ht
      rfl
    | cons u more =>
      rw [List.getLast?_cons_cons] at ht
      exact hus.ends t ht

/-- A keyword stands in front of an argument. -/
theorem Chained.keyword {last : Kind → Bool} (key : List Char) {ts : List Token} (hne : ts ≠ [])
    (h : Chained last ts) : Chained last (ofIdentifier key :: binding :: ts) := by
  refine ⟨by simp [ofIdentifier, Kind.startsArgument], ?_, ?_⟩
  · refine .cons_cons (by simp [ofIdentifier, binding, Kind.mayPrecede]) ?_
    refine List.isChain_cons.mpr ⟨?_, h.neighbours⟩
    intro t ht
    simp [binding, Kind.mayPrecede, h.starts t ht]
  · obtain ⟨t, more, rfl⟩ := List.exists_cons_of_ne_nil hne
    rw [List.getLast?_cons_cons, List.getLast?_cons_cons]
    exact h.ends

/-- Parentheses stand around arguments. -/
theorem Chained.call (f : List Char) {ts : List Token} (h : Chained Kind.endsArguments ts) :
    Chained Kind.endsArgument (ofIdentifier f :: opening :: (ts ++ [closing])) := by
  refine ⟨by simp [ofIdentifier, Kind.startsArgument], ?_, ?_⟩
  · refine .cons_cons (by simp [ofIdentifier, opening, Kind.mayPrecede]) ?_
    refine List.isChain_cons.mpr ⟨?_, h.neighbours.append (.singleton closing) ?_⟩
    · intro t ht
      cases ts with
      | nil =>
        obtain rfl : closing = t := by simpa using ht
        rfl
      | cons u more =>
        have hstart := h.starts t (by simpa using ht)
        simp [opening, Kind.mayPrecede, hstart]
    · intro t ht u hu
      obtain rfl : closing = u := by simpa using hu
      have hend := h.ends t ht
      rw [Kind.endsArguments, Bool.or_eq_true, decide_eq_true_eq] at hend
      rcases hend with hend | hcomma
      · exact Kind.mayPrecede_of_endsArgument hend (.inr rfl)
      · rw [hcomma]
        rfl
  · intro t ht
    rw [List.getLast?_cons_cons, ← List.cons_append, List.getLast?_concat] at ht
    obtain rfl : closing = t := by simpa using ht
    rfl

end Token

namespace Expr

open Token

/-! ## The shape of derived tokens -/

theorem IsLiteral.kind {t : Token} {v : Value} (h : IsLiteral t v) :
    t.kind.startsArgument = true ∧ t.kind.endsArgument = true ∧ t.kind ≠ .parenOpen ∧
      t.kind ≠ .parenClose := by
  cases h with
  | spelled hs => cases hs <;> simp [ofIdentifier, Kind.startsArgument, Kind.endsArgument]
  | string _ => simp [Kind.startsArgument, Kind.endsArgument]
  | float _ => simp [Kind.startsArgument, Kind.endsArgument]

theorem Derives.ne_nil {lit : Token → Value → Prop} {e : Expr} {ts : List Token}
    (h : Derives lit e ts) : ts ≠ [] :=
  List.length_pos_iff.mp h.length_pos

mutual

/-- The tokens of an expression are good neighbours. -/
theorem Derives.chained {e : Expr} {ts : List Token} :
    Derives IsLiteral e ts → Chained Kind.endsArgument ts
  | .literal hl => .single hl.kind.1 hl.kind.2.1
  | .name _ => .single rfl rfl
  | .call _ hargs => .call _ hargs.chained

/-- The tokens of arguments are good neighbours. -/
theorem DerivesArguments.chained {positional : List Expr} {keywords : List (String × Expr)}
    {ts : List Token} :
    DerivesArguments IsLiteral positional keywords ts → Chained Kind.endsArguments ts
  | .nil => ⟨by simp, .nil, by simp⟩
  | .lastPositional he => he.chained.mono fun k hk => by simp [Kind.endsArguments, hk]
  | .positional he hmore => .append_separator he.ne_nil he.chained hmore.chained
  | .lastKeyword _ he =>
    .keyword _ he.ne_nil (he.chained.mono fun k hk => by simp [Kind.endsArguments, hk])
  | .keyword _ he hmore =>
    .keyword _ (by simp) (.append_separator he.ne_nil he.chained hmore.chained)

end

theorem balanced_separator_cons {ts : List Token} (h : Balanced ts) : Balanced (separator :: ts) :=
  (Balanced.single (by simp [separator]) (by simp [separator])).append h

theorem balanced_keyword (key : List Char) {ts : List Token} (h : Balanced ts) :
    Balanced (ofIdentifier key :: binding :: ts) := by
  have hkey : Balanced [ofIdentifier key] :=
    .single (by simp [ofIdentifier]) (by simp [ofIdentifier])
  have hbinding : Balanced [binding] := .single (by simp [binding]) (by simp [binding])
  exact hkey.append (hbinding.append h)

mutual

/-- Every parenthesis of an expression is closed. -/
theorem Derives.balanced {e : Expr} {ts : List Token} : Derives IsLiteral e ts → Balanced ts
  | .literal hl => .single hl.kind.2.2.1 hl.kind.2.2.2
  | .name _ => .single (by simp [ofIdentifier]) (by simp [ofIdentifier])
  | .call _ hargs =>
    .append (.single (by simp [ofIdentifier]) (by simp [ofIdentifier])) hargs.balanced.parenthesized

/-- Every parenthesis of arguments is closed. -/
theorem DerivesArguments.balanced {positional : List Expr} {keywords : List (String × Expr)}
    {ts : List Token} : DerivesArguments IsLiteral positional keywords ts → Balanced ts
  | .nil => .nil
  | .lastPositional he => he.balanced
  | .positional he hmore => he.balanced.append (balanced_separator_cons hmore.balanced)
  | .lastKeyword _ he => balanced_keyword _ he.balanced
  | .keyword _ he hmore =>
    balanced_keyword _ (he.balanced.append (balanced_separator_cons hmore.balanced))

end

/-! ## Malformed tokens -/

/-- Ways in which tokens go wrong, at any depth. -/
inductive Malformed : List Token → Prop where
  /-- A comma in front of everything. -/
  | leadingComma (after : List Token) : Malformed (separator :: after)
  /-- A comma in front of all arguments. -/
  | openingComma (before after : List Token) : Malformed (before ++ opening :: separator :: after)
  /-- Two commas in a row. -/
  | doubledComma (before after : List Token) : Malformed (before ++ separator :: separator :: after)
  /-- No comma between two arguments. -/
  | missingComma (before : List Token) {t u : Token} (after : List Token) :
      t.kind.endsArgument = true → u.kind.startsArgument = true →
        Malformed (before ++ t :: u :: after)
  /-- A call that is never closed. -/
  | unclosed (before : List Token) {after : List Token} : NeverCloses after →
      Malformed (before ++ opening :: after)
  /-- Tokens behind a whole expression. -/
  | trailing {e : Expr} {ts rest : List Token} : Derives IsLiteral e ts → rest ≠ [] → Stops e rest →
      Malformed (ts ++ rest)

/-- Tokens behind a whole expression are left over. -/
theorem ofTokens_trailing {e : Expr} {ts rest : List Token} (h : Derives IsLiteral e ts)
    (hne : rest ≠ []) (hstops : Stops e rest) : ofTokens (ts ++ rest) = .error .trailingInput := by
  have hread := readExpr_of_derives (fun _ _ => IsLiteral.denotes) h rest
    (enoughFuel (ts ++ rest)) hstops (by rw [enoughFuel, List.length_append]; omega)
  obtain ⟨t, more, rfl⟩ := List.exists_cons_of_ne_nil hne
  rw [ofTokens, hread]

/-- Malformed tokens are no expression. -/
theorem Malformed.not_derives {ts : List Token} (h : Malformed ts) (e : Expr) :
    ¬ Derives IsLiteral e ts := by
  intro hderives
  have hneighbours : ∀ {before after : List Token} {t u : Token}, ts = before ++ t :: u :: after →
      t.kind.mayPrecede u.kind = true := fun heq =>
    List.isChain_iff_forall_rel_of_append_cons_cons.mp hderives.chained.neighbours heq
  cases h with
  | leadingComma after =>
    have hstart := hderives.chained.starts separator rfl
    cases hstart
  | openingComma before after => cases hneighbours rfl
  | doubledComma before after => cases hneighbours rfl
  | missingComma before after ht hu =>
    have hmay := hneighbours rfl
    rw [Kind.not_mayPrecede ht hu] at hmay
    cases hmay
  | unclosed before hnever => exact hderives.balanced.not_neverCloses hnever
  | trailing hwhole hne hstops =>
    have hread := ofTokens_of_derives (fun _ _ => IsLiteral.denotes) hderives
    rw [ofTokens_trailing hwhole hne hstops] at hread
    cases hread

/-! ## Sources -/

theorem parse_eq_ok_iff {source : String} {e : Expr} :
    parse source = .ok e ↔ ∃ ts, tokens source.toList = .ok ts ∧ ofTokens ts = .ok e := by
  cases htokens : tokens source.toList with
  | error fault => simp [parse, read, htokens]
  | ok ts => cases hread : ofTokens ts <;> simp [parse, read, htokens, hread]

/-- What is read as no expression is an invalid expression. -/
theorem exists_invalid {source : String} (h : ∀ e, parse source ≠ .ok e) :
    ∃ fault, parse source = .error (.invalidExpression (Text.trimmed source) fault) := by
  cases hread : read source.toList with
  | error fault => exact ⟨fault, by rw [parse, hread]⟩
  | ok e => exact absurd (by rw [parse, hread]) (h e)

/-- **Reading accepts exactly the grammar.** A source is read as an expression when all its tokens,
which are the source but for blanks, are derived from the expression, and only then. Otherwise it is
an invalid expression; so it is when no tokens can be read, or malformed ones. -/
theorem parse_eq_ok_iff_derives (source : String) :
    (∀ e, parse source = .ok e ↔
      ∃ ts, tokens source.toList = .ok ts ∧ Spaced ts source.toList ∧ (∀ t ∈ ts, Genuine t) ∧
        Derives IsLiteral e ts) ∧
    ((∀ e, parse source ≠ .ok e) →
      ∃ fault, parse source = .error (.invalidExpression (Text.trimmed source) fault)) ∧
    ((∃ fault, tokens source.toList = .error fault) ∨
        (∃ ts, tokens source.toList = .ok ts ∧ Malformed ts) →
      ∃ fault, parse source = .error (.invalidExpression (Text.trimmed source) fault)) := by
  have hiff : ∀ e, parse source = .ok e ↔
      ∃ ts, tokens source.toList = .ok ts ∧ Spaced ts source.toList ∧ (∀ t ∈ ts, Genuine t) ∧
        Derives IsLiteral e ts := by
    intro e
    rw [parse_eq_ok_iff]
    constructor
    · rintro ⟨ts, htokens, hread⟩
      obtain ⟨hspaced, hgenuine⟩ := tokens_sound htokens
      exact ⟨ts, htokens, hspaced, hgenuine, (ofTokens_eq_ok_iff hgenuine).mp hread⟩
    · rintro ⟨ts, htokens, _, hgenuine, hderives⟩
      exact ⟨ts, htokens, (ofTokens_eq_ok_iff hgenuine).mpr hderives⟩
  refine ⟨hiff, exists_invalid, ?_⟩
  intro hbad
  apply exists_invalid
  intro e he
  obtain ⟨ts, htokens, _, _, hderives⟩ := (hiff e).mp he
  rcases hbad with ⟨fault, hfault⟩ | ⟨us, hus, hmalformed⟩
  · rw [htokens] at hfault
    cases hfault
  · rw [htokens] at hus
    cases hus
    exact hmalformed.not_derives e hderives

end Expr

end LiveDoc
