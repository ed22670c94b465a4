import LiveDoc.Proofs.Item.Completeness
import LiveDoc.Proofs.Item.Heading
import LiveDoc.Proofs.Item.Rescan
import LiveDoc.Proofs.Reference.Parsing

/-!
# Looking an item up by its name

A reference names an item with an identifier of any script, while the scanner reads words of ASCII
characters only. On ASCII names the two agree: an item is found under its own name and under no
other. A name with any other character is found nowhere (`sourceOf?_soleItem`).

* `SoleItem` — a text with one item, told by the pieces in front of its name and behind it;
* `reads_name` — an identifier is read as one word, unless what stands behind it continues it;
* `isWordPart_of_mem_scan` — the names that are found at all.
-/

namespace LiveDoc.Item

open Piece
open Text (byteLength isLetter isLetterOrNumber isIdentifier)

/-! ## Names -/

/-- Only ASCII characters. -/
def IsAscii (name : List Char) : Prop := ∀ c ∈ name, c.toNat < 128

/-- Of the ASCII characters, an identifier has those of a word. -/
theorem isWord_of_isIdentifier {name : List Char} (h : isIdentifier name = true)
    (hascii : IsAscii name) :
    ∃ c rest, name = c :: rest ∧ isWordStart c = true ∧ ∀ d ∈ rest, isWordPart d = true := by
  cases name with
  | nil => cases h
  | cons c rest =>
    rw [isIdentifier, Bool.and_eq_true, List.all_eq_true] at h
    obtain ⟨hfirst, hrest⟩ := h
    -- the tables hold characters beyond ASCII only
    have hbelow : ∀ d ∈ c :: rest, decide (d.toNat > 127) = false := by
      intro d hd
      have hlt := hascii d hd
      exact decide_eq_false (by omega)
    refine ⟨c, rest, rfl, ?_, fun d hd => ?_⟩
    · have hc := hbelow c List.mem_cons_self
      simpa [isLetter, isWordStart, hc] using hfirst
    · have hd' := hbelow d (List.mem_cons_of_mem c hd)
      simpa [isLetterOrNumber, isLetter, isWordPart, Char.isAlphanum, hd'] using hrest d hd

/-- A word is continued by a quote or a hash only. -/
theorem Continues.of_word {c : Char} {taken o : List Char} (h : Continues (c :: taken) o)
    (hc : isWordStart c = true) : ∃ d rest, o = d :: rest ∧ d ∈ ['"', '\'', '#'] := by
  generalize hw : c :: taken = w at h
  cases h with
  | rawString n =>
    cases n with
    | zero => exact ⟨'"', [], rfl, by simp⟩
    | succ n => exact ⟨'#', _, rfl, by simp⟩
  | string => exact ⟨'"', [], rfl, by simp⟩
  | quote => exact ⟨'\'', [], rfl, by simp⟩
  | @rawWord d => exact ⟨'#', [d], rfl, by simp⟩
  | lineComment | blockComment =>
    rw [(List.cons.inj hw).1] at hc
    cases hc
  | arrow harrow =>
    rw [(List.cons.inj hw).1] at hc
    rcases harrow with rfl | rfl <;> cases hc

/-- What stands behind a name goes on with no identifier, and makes no literal of it. -/
def EndsName (behind : List Char) : Prop :=
  ∀ c ∈ behind.head?, isLetterOrNumber c = false ∧ c ∉ ['_', '"', '\'', '#']

theorem EndsName.isWordPart {behind : List Char} (h : EndsName behind) :
    ∀ c ∈ behind.head?, isWordPart c = false := by
  intro c hc
  obtain ⟨hletter, hmark⟩ := h c hc
  simp only [isLetterOrNumber, isLetter, Bool.or_eq_false_iff] at hletter
  have hscore : c ≠ '_' := fun heq => hmark (by simp [heq])
  simp [Piece.isWordPart, Char.isAlphanum, hletter.1.1.1, hletter.1.2, hscore]

/-- **A name is read as one word**, with or without the mark of a raw identifier, however it
starts. -/
theorem reads_name {name spelling behind : List Char} (h : isIdentifier name = true)
    (hascii : IsAscii name) (hspelled : bareName spelling = name) (hbehind : EndsName behind) :
    Reads .word spelling behind := by
  obtain ⟨c, rest, rfl, hc, hrest⟩ := isWord_of_isIdentifier h hascii
  unfold bareName at hspelled
  split at hspelled
  · rw [hspelled]
    exact .rawWord hc hrest hbehind.isWordPart
  · rw [hspelled]
    refine .word hc hrest hbehind.isWordPart fun o ho hstart => ?_
    obtain ⟨d, more, rfl, hd⟩ := Continues.of_word ho hc
    obtain ⟨left, rfl⟩ := hstart
    obtain ⟨-, hmark⟩ := hbehind d rfl
    exact hmark (List.mem_cons_of_mem '_' hd)

/-- A word is made of the characters of words, but for the mark of a raw identifier. -/
theorem isWordPart_of_reads {text left : List Char} (h : Reads .word text left) :
    ∀ c ∈ bareName text, isWordPart c = true := by
  generalize hk : Kind.word = k at h
  cases h with
  | @word c taken _ hc htaken =>
    have hall : ∀ d ∈ c :: taken, isWordPart d = true :=
      List.forall_mem_cons.mpr ⟨(of_isWordStart hc).1, htaken⟩
    unfold bareName
    split
    · next heq =>
      rw [heq] at hall
      exact fun d hd => hall d (List.mem_cons_of_mem _ (List.mem_cons_of_mem _ hd))
    · exact hall
  | rawWord hc htaken => exact List.forall_mem_cons.mpr ⟨(of_isWordStart hc).1, htaken⟩
  | delimited ho => cases ho <;> cases hk
  | mark =>
    unfold markKind at hk
    grind
  | _ => cases hk

/-! ## The names that are found -/

/-- The name of an item is the text of one of its tokens. -/
theorem Owns.exists_name {own : List Lexeme} {i : Item} (h : Owns own i) {name : String}
    (hname : i.name = some name) :
    ∃ front t back, own = front ++ t :: back ∧ t.kind = .word ∧
      name = String.ofList (bareName t.text) := by
  obtain ⟨front, t, mid, last, rfl, -, -, -, hread⟩ := h.read
  have hfound : itemName? i.kind (keywordPlace last (t :: mid)).tail = some name := by
    rw [← hname]
    exact (congrArg Item.name (eq_itemOf_of_scanItem hread)).symm
  -- the place of the name is behind the keyword
  obtain ⟨before, hplace⟩ := (namePlace_suffix i.kind _).trans
    ((List.tail_suffix _).trans (keywordPlace_suffix last (t :: mid)))
  unfold itemName? at hfound
  split at hfound
  · cases hcase : namePlace i.kind (keywordPlace last (t :: mid)).tail with
    | nil =>
      have hnone : nameAt? [] = none := by decide
      rw [hcase, hnone] at hfound
      cases hfound
    | cons n back =>
      rw [hcase, nameAt?_cons] at hfound
      split at hfound
      · next hword =>
        refine ⟨front ++ before, n, back, ?_, hword, (Option.some.inj hfound).symm⟩
        rw [← hplace, hcase, List.append_assoc]
      · cases hfound
  · cases hfound

/-- **Every name that is found** is made of the characters of words. -/
theorem isWordPart_of_mem_scan {source : List Char} {i : Item} (hi : i ∈ scan source)
    {name : String} (hname : i.name = some name) : ∀ c ∈ name.toList, isWordPart c = true := by
  obtain ⟨front, own, back, hsource, howns⟩ := (segmented_scan source).exists_own hi
  obtain ⟨before, t, behind, rfl, hword, rfl⟩ := howns.exists_name hname
  have hsplit : lexemes source = (front ++ before) ++ t :: (behind ++ back) := by
    rw [hsource]
    simp
  obtain ⟨k, left, hreads, hkind, -⟩ := exists_reads_of_lexeme hsplit
  obtain rfl : k = .word := by
    rcases ofPiece?_cases hkind with ⟨-, -, hdoc | hdoc⟩ | ⟨-, hpiece, -⟩
    · rw [hword] at hdoc
      cases hdoc
    · rw [hword] at hdoc
      cases hdoc
    · exact hpiece hword
  rw [String.toList_ofList]
  exact isWordPart_of_reads hreads

/-! ## In front of a keyword -/

/-- The qualifiers of an item with a body: those of a function, where `extern` may name no
interface, and the `unsafe` of a trait. -/
inductive Qualified : Kind → List Lexeme → Prop
  | plain {kind : Kind} : Qualified kind []
  | function {qs : List Lexeme} : Qualifiers 0 qs → Qualified .function qs
  | interface {qs : List Lexeme} {e : Lexeme} : Qualifiers 0 qs → e.isWord "extern" →
      Qualified .function (qs ++ [e])
  | trait {u : Lexeme} : u.isWord "unsafe" → Qualified .trait [u]

section Keyword

variable {last : Lexeme} {kind : Kind} {word : String} {k : Lexeme} {qs : List Lexeme}

theorem keywordPlace_visibility {vs ts : List Lexeme} (h : Visibility vs)
    (hts : kindAt ts = some .word) : keywordPlace last (vs ++ ts) = keywordPlace last ts := by
  have hfuel : (vs ++ ts).length < (vs ++ ts).length + 2 := by omega
  obtain ⟨left, hleft, hskip⟩ := skipModifiers_visibility last h hts
    (show 1 ≤ (vs ++ ts).length + 2 by omega)
  rw [← skipModifiers_eq_keywordPlace hfuel, hskip]
  exact skipModifiers_eq_keywordPlace (by rw [List.length_append] at hleft; omega)

theorem keywordPlace_qualifiers {rank : Nat} {ts : List Lexeme} (h : Qualifiers rank qs)
    (hts : ∃ s ∈ functionWords, isWordAt s ts) :
    keywordPlace last (qs ++ ts) = keywordPlace last ts := by
  obtain ⟨left, hleft, hskip⟩ := skipModifiers_qualifiers last h hts
    (show qs.length ≤ (qs ++ ts).length + 1 by simp; omega)
  rw [keywordPlace, hskip]
  exact skipModifiers_eq_keywordPlace (by rw [List.length_append] at hleft; omega)

/-- A word that qualifies the one behind it is skipped. -/
theorem keywordPlace_word {t : Lexeme} {ts : List Lexeme} (h : modifier? (t :: ts) = some .word) :
    keywordPlace last (t :: ts) = keywordPlace last ts := by
  rw [keywordPlace_eq, h]
  rfl

theorem modifier?_bareExtern {e : Lexeme} (he : e.isWord "extern") (hk : k.isWord "fn")
    (rest : List Lexeme) : modifier? (e :: k :: rest) = some .word := by
  have hfn : isWordAt "fn" (k :: rest) = true := hk
  simp [modifier?, isInterface, textAt_of_isWord he, kindAt_of_isWord hk, hfn]

theorem modifier?_unsafeWord {u : Lexeme} (hu : u.isWord "unsafe") (hk : k.isWord word)
    (rest : List Lexeme) : modifier? (u :: k :: rest) = some .word := by
  simp [modifier?, isInterface, textAt_of_isWord hu, kindAt_of_isWord hk]

theorem kindAt_qualified (h : Qualified kind qs) (hk : k.isWord word) (rest : List Lexeme) :
    kindAt (qs ++ k :: rest) = some .word := by
  have hkeyword : kindAt (k :: rest) = some .word := kindAt_of_isWord hk rest
  cases h with
  | plain => exact hkeyword
  | function hqs => exact hqs.kindAt_append hkeyword
  | interface hqs he =>
    rw [List.append_assoc]
    exact hqs.kindAt_append (kindAt_of_isWord he _)
  | trait hu => exact kindAt_of_isWord hu _

/-- Behind its visibility and its qualifiers stands the keyword of an item. -/
theorem keywordPlace_qualified (h : Qualified kind qs) (hmem : (kind, word) ∈ keywords)
    (hk : k.isWord word) (hkind : kind ≠ .const) (rest : List Lexeme) :
    keywordPlace last (qs ++ k :: rest) = k :: rest := by
  have hstop : keywordPlace last (k :: rest) = k :: rest := by
    refine skipModifiers_of_text ?_ _
    rw [textAt_of_isWord hk]
    exact keyword_ne_modifier _ hmem hkind
  cases h with
  | plain => exact hstop
  | function hqs =>
    obtain rfl : word = "fn" := by simpa [keywords] using hmem
    have hfn : isWordAt "fn" (k :: rest) = true := hk
    rw [keywordPlace_qualifiers hqs ⟨"fn", by simp [functionWords], hfn⟩, hstop]
  | @interface qs e hqs he =>
    obtain rfl : word = "fn" := by simpa [keywords] using hmem
    have hextern : isWordAt "extern" (e :: k :: rest) = true := he
    rw [List.append_assoc, List.singleton_append,
      keywordPlace_qualifiers hqs ⟨"extern", by simp [functionWords], hextern⟩,
      keywordPlace_word (modifier?_bareExtern he hk rest), hstop]
  | trait hu =>
    rw [List.singleton_append, keywordPlace_word (modifier?_unsafeWord hu hk rest), hstop]

end Keyword

/-! ## Headers -/

section Header

variable {last o c : Lexeme} {header inner : List Lexeme}

/-- A header is passed up to the brace behind it. -/
theorem bodyOrSemicolonFrom_brace (h : Header 0 header) (ho : o.kind = .open)
    (htext : o.text = ['{']) (rest : List Lexeme) :
    bodyOrSemicolonFrom last 0 0 (header ++ o :: rest) = o :: rest := by
  rw [bodyOrSemicolonFrom_header h, bodyOrSemicolonFrom, ho]
  simp [htext]

/-- Behind a header, the extent of an item goes to the end of its body. -/
theorem extent_body {kind : Kind} (hkind : kind.hasStrippableBody = true) (h : Header 0 header)
    (ho : o.kind = .open) (htext : o.text = ['{']) (hinner : Balanced inner)
    (hc : c.kind = .close) :
    extent last kind (header ++ o :: (inner ++ [c])) = ([c], some (o :: (inner ++ [c]))) := by
  obtain ⟨-, hsemicolon, hplain, -⟩ := of_hasStrippableBody hkind
  have hopen : kindAt (o :: (inner ++ [c])) = some .open := congrArg some ho
  rw [extent_of_header hsemicolon hplain, bodyOrSemicolonFrom_brace h ho htext, if_pos hopen,
    matchingClose_group ho hinner hc]

end Header

/-! ## A text with one item -/

theorem ofPieces_of_blank {ps : List Piece} (h : ∀ p ∈ ps, Lexeme.ofPiece? p = none) (place : Nat) :
    Lexeme.ofPieces place ps = [] := by
  induction ps generalizing place with
  | nil => rfl
  | cons p ps ih =>
    rw [Lexeme.ofPieces_cons_none (h p List.mem_cons_self)]
    exact ih (fun q hq => h q (List.mem_cons_of_mem p hq)) _

/-- The first token starts with its piece. -/
theorem startAt_ofPieces {ps : List Piece} (h : ∀ p ∈ ps.head?, (Lexeme.ofPiece? p).isSome)
    {place : Nat} {front : List Lexeme} {k : Lexeme}
    (htokens : Lexeme.ofPieces place ps = front ++ [k]) :
    startAt k front = place := by
  cases ps with
  | nil => exact absurd htokens.symm (by simp [Lexeme.ofPieces])
  | cons p ps =>
    obtain ⟨kind, hkind⟩ := Option.isSome_iff_exists.mp (h p rfl)
    rw [Lexeme.ofPieces_cons_some hkind] at htokens
    cases front with
    | nil => exact (congrArg (·.span.start) (List.cons.inj htokens).1).symm
    | cons t front => exact (congrArg (·.span.start) (List.cons.inj htokens).1).symm

/-- The last token ends with its piece. -/
theorem stop_ofPieces {ps : List Piece} (h : ∀ p ∈ ps.getLast?, (Lexeme.ofPiece? p).isSome)
    {place : Nat} {front : List Lexeme} {c : Lexeme}
    (htokens : Lexeme.ofPieces place ps = front ++ [c]) :
    c.span.stop = place + byteLength (written ps) := by
  rcases List.eq_nil_or_concat ps with rfl | ⟨ps, p, rfl⟩
  · exact absurd htokens.symm (by simp [Lexeme.ofPieces])
  · obtain ⟨kind, hkind⟩ := Option.isSome_iff_exists.mp (h p (by simp))
    rw [List.concat_eq_append, Lexeme.ofPieces_append, Lexeme.ofPieces_cons_some hkind] at htokens
    have hc := (List.append_inj' htokens rfl).2
    rw [← (List.cons.inj hc).1, List.concat_eq_append, written_append, Text.byteLength_append]
    simp [Nat.add_assoc]

/-- A text with one item of a kind and a name, and with a body in braces: pieces around the name,
and the tokens among them. Around the item there are blanks and comments only. -/
structure SoleItem (kind : Kind) (name : List Char) where
  before : List Piece
  /-- The item up to its name. -/
  front : List Piece
  /-- The name as it is written, which may have the mark of a raw identifier. -/
  spelling : List Char
  /-- The item behind its name. -/
  back : List Piece
  after : List Piece
  attributes : List Lexeme
  visibility : List Lexeme
  qualifiers : List Lexeme
  keyword : Lexeme
  header : List Lexeme
  opening : Lexeme
  inner : List Lexeme
  closing : Lexeme
  read_front : Pieced (before ++ front) (spelling ++ written (back ++ after))
  read_back : Pieced (back ++ after) []
  spelled : bareName spelling = name
  ends : EndsName (written (back ++ after))
  blank : ∀ p ∈ before ++ after, Lexeme.ofPiece? p = none
  first : ∀ p ∈ front.head?, (Lexeme.ofPiece? p).isSome
  last : ∀ p ∈ back.getLast?, (Lexeme.ofPiece? p).isSome
  tokens_front : Lexeme.ofPieces (byteLength (written before)) front =
    attributes ++ (visibility ++ (qualifiers ++ [keyword]))
  tokens_back : Lexeme.ofPieces (byteLength (written before ++ (written front ++ spelling))) back =
    header ++ opening :: (inner ++ [closing])
  waiting : Attributes attributes
  visible : Visibility visibility
  qualified : Qualified kind qualifiers
  isKeyword : ∃ word, (kind, word) ∈ keywords ∧ keyword.isWord word
  isHeader : Header 0 header
  opens : opening.kind = .open ∧ opening.text = ['{']
  balanced : Balanced inner
  closes : closing.kind = .close

namespace SoleItem

variable {kind : Kind} {name : List Char} (m : SoleItem kind name)

/-- The text of the item. -/
def text : List Char := written m.front ++ (m.spelling ++ written m.back)

/-- The whole text. -/
def source : List Char := written m.before ++ (m.text ++ written m.after)

/-- The place of the name. -/
def place : Nat := byteLength (written m.before ++ written m.front)

/-- The token of the name. -/
def nameToken : Lexeme := ⟨.word, m.spelling, ⟨m.place, m.place + byteLength m.spelling⟩⟩

/-- **The tokens of the text**, when its name is read as one word. -/
theorem lexemes_source (hname : isIdentifier name = true) (hascii : IsAscii name) :
    lexemes m.source = m.attributes ++ (m.visibility ++ m.qualifiers ++
      m.keyword :: (m.nameToken :: m.header ++ m.opening :: (m.inner ++ [m.closing]))) := by
  have hword : Lexeme.ofPiece? ⟨.word, m.spelling⟩ = some .word := rfl
  have hreads : Reads .word m.spelling (written (m.back ++ m.after)) :=
    reads_name hname hascii m.spelled m.ends
  have hpieced : Pieced (m.before ++ m.front ++ ⟨.word, m.spelling⟩ :: (m.back ++ m.after)) [] := by
    refine pieced_append.mpr ⟨?_, .cons ?_ m.read_back⟩
    · rw [List.append_nil]
      exact m.read_front
    · rw [List.append_nil]
      exact hreads
  have hsource : m.source =
      written (m.before ++ m.front ++ ⟨.word, m.spelling⟩ :: (m.back ++ m.after)) := by
    simp [source, text]
  obtain ⟨hbefore, hafter⟩ := List.forall_mem_append.mp m.blank
  have hplace : m.place + byteLength m.spelling =
      byteLength (written m.before ++ (written m.front ++ m.spelling)) := by
    rw [place, ← Text.byteLength_append, List.append_assoc]
  rw [lexemes, hsource, hpieced.pieces_eq, List.append_assoc, Lexeme.ofPieces_append,
    Lexeme.ofPieces_append, ofPieces_of_blank hbefore, Nat.zero_add, m.tokens_front,
    ← Text.byteLength_append, Lexeme.ofPieces_cons_some hword, Lexeme.ofPieces_append]
  have htoken : m.nameToken = ⟨.word, m.spelling, ⟨m.place, m.place + byteLength m.spelling⟩⟩ := rfl
  rw [← place, hplace, m.tokens_back, ofPieces_of_blank hafter, ← hplace, htoken]
  simp

/-- What stands in front of the body. -/
theorem heads (hkind : kind.hasStrippableBody = true) :
    Heads kind m.attributes (m.visibility ++ m.qualifiers) m.keyword (m.nameToken :: m.header) := by
  obtain ⟨word, hmem, hword⟩ := m.isKeyword
  have hconst : kind ≠ .const := by
    rintro rfl
    cases hkind
  have hqualified : ∀ rest, kindAt (m.qualifiers ++ m.keyword :: rest) = some .word :=
    kindAt_qualified m.qualified hword
  refine ⟨hkind, fun last rest => ?_, ?_, fun last rest => ?_, ?_, fun _ => rfl, nofun, ?_⟩
  · obtain ⟨left, hleft, hscan⟩ := scanFrom_attributes last m.waiting
      (m.visibility ++ m.qualifiers ++ m.keyword :: rest) none (Nat.le_refl _)
    rw [walk, hscan, Option.none_or]
    exact (walks_scanFrom hleft _).unique (walks_scanFrom (Nat.le_refl _) _)
  · rw [List.append_assoc]
    exact m.visible.kindAt_append (hqualified [])
  · rw [List.append_assoc, keywordPlace_visibility m.visible (hqualified rest)]
    exact keywordPlace_qualified m.qualified hmem hword hconst rest
  · rw [(isWord_iff.mp hword).2]
    exact ofKeyword?_keyword _ hmem
  · have hplace : bodyOrSemicolonFrom m.opening 0 0 (m.header ++ [m.opening]) = [m.opening] :=
      bodyOrSemicolonFrom_brace m.isHeader m.opens.1 m.opens.2 []
    rw [bodyOrSemicolonFrom_eq_seek] at hplace
    exact passes_of_seek hplace

/-- From the first token of the item to its last. -/
def span : Text.Span :=
  ⟨startAt m.keyword (m.attributes ++ (m.visibility ++ m.qualifiers)), m.closing.span.stop⟩

theorem slice_span : Text.slice m.source m.span = some m.text := by
  have hfront : Lexeme.ofPieces (byteLength (written m.before)) m.front =
      (m.attributes ++ (m.visibility ++ m.qualifiers)) ++ [m.keyword] := by
    rw [m.tokens_front]
    simp
  have hback :
    Lexeme.ofPieces (byteLength (written m.before ++ (written m.front ++ m.spelling))) m.back =
      (m.header ++ m.opening :: m.inner) ++ [m.closing] := by
    rw [m.tokens_back]
    simp
  refine Text.slice_eq_some_iff.mpr ⟨written m.before, written m.after, rfl,
    startAt_ofPieces m.first hfront, ?_⟩
  rw [span, stop_ofPieces m.last hback, ← Text.byteLength_append, ← Text.byteLength_append, text]
  simp

/-- **The item is found**, where it stands. -/
theorem scan_source (hkind : kind.hasStrippableBody = true) (hname : isIdentifier name = true)
    (hascii : IsAscii name) :
    ∃ i, scan m.source = [i] ∧ i.name = some (String.ofList name) ∧ i.span = m.span := by
  have hlast : (m.opening :: (m.inner ++ [m.closing])).getLast? = some m.closing := by
    simp [List.getLast?_cons]
  have hextent : extent m.closing kind
      (m.nameToken :: m.header ++ m.opening :: (m.inner ++ [m.closing])).tail =
      ([m.closing], some (m.opening :: (m.inner ++ [m.closing]))) :=
    extent_body hkind m.isHeader m.opens.1 m.opens.2 m.balanced m.closes
  have hscan := (m.heads hkind).scanLexemes_eq hlast (kindAt_of_open m.opens.1 _)
  rw [hextent, ← m.lexemes_source hname hascii] at hscan
  have hnamed : nameAt? (m.nameToken :: m.header ++ m.opening :: (m.inner ++ [m.closing])) =
      some (String.ofList name) := by
    have hword : m.nameToken.kind = .word := rfl
    rw [List.cons_append, nameAt?_cons, if_pos hword]
    exact congrArg (fun s => some (String.ofList s)) m.spelled
  exact ⟨_, hscan, hnamed, rfl⟩

end SoleItem

/-! ## Looking up -/

/-- What is found under a name has it. -/
theorem exists_of_sourceOf? {source text : List Char} {name : String}
    (h : sourceOf? source name = some text) :
    ∃ i ∈ scan source, i.name = some name ∧ text = cut source i.span ++ ['\n'] := by
  obtain ⟨i, hi, rfl⟩ := Option.map_eq_some_iff.mp h
  refine ⟨i, List.mem_of_find?_eq_some hi, ?_, rfl⟩
  simpa using List.find?_some (p := fun item : Item => decide (item.name = some name)) hi

/-- **An item with a name of ASCII characters is found under this name**, and under no other. Under
any other name that a reference can have, nothing is ever found, whatever the text. -/
theorem sourceOf?_soleItem {reference : String} {r : Reference} {kind : Kind}
    (h : Reference.parse reference = .ok r) (hkind : kind.hasStrippableBody = true)
    (m : SoleItem kind r.object.toList) :
    (IsAscii r.object.toList → ∀ name, sourceOf? m.source name =
      if name = r.object then some (m.text ++ ['\n']) else none) ∧
    (¬ IsAscii r.object.toList → ∀ source, sourceOf? source r.object = none) := by
  constructor
  · intro hascii name
    obtain ⟨i, hscan, hname, hspan⟩ := m.scan_source hkind (Reference.isIdentifier_object h) hascii
    rw [String.ofList_toList] at hname
    have hcut : cut m.source i.span = m.text := by rw [hspan, cut, m.slice_span, Option.getD_some]
    rw [sourceOf?, hscan, find?, List.find?_singleton, hname]
    by_cases hsame : name = r.object
    · rw [if_pos hsame, hsame, ← hcut]
      simp
    · have hother : ¬ some r.object = some name := fun heq => hsame (Option.some.inj heq).symm
      rw [if_neg hsame, decide_eq_false hother]
      rfl
  · intro hascii source
    rw [Option.eq_none_iff_forall_ne_some]
    intro text hfound
    obtain ⟨i, hi, hname, -⟩ := exists_of_sourceOf? hfound
    refine hascii fun c hc => ?_
    have hcode := toNat_of_isWordPart (isWordPart_of_mem_scan hi hname c hc)
    omega

namespace Instance

theorem pieced_of_pieces {ps : List Piece} {behind : List Char}
    (h : pieces (written ps ++ behind) = ps ++ pieces behind) : Pieced ps behind := by
  have hpieced := (pieced_pieces (written ps ++ behind)).1
  rw [h, pieced_append, (pieced_pieces behind).2, List.append_nil] at hpieced
  exact hpieced.1

/-- A trait whose name is the start of a raw string, and which is written as a raw identifier. -/
def rawTrait : SoleItem .trait "r".toList where
  before := pieces "// A.\n".toList
  front := pieces "#[b] pub unsafe trait ".toList
  spelling := "r#r".toList
  back := pieces "<'a> \x7b //! C.\n\x7d".toList
  after := pieces "\n".toList
  attributes := [placed 6 .pound "#", placed 7 .open "[", placed 8 .word "b", placed 9 .close "]"]
  visibility := [placed 11 .word "pub"]
  qualifiers := [placed 15 .word "unsafe"]
  keyword := placed 22 .word "trait"
  header := [placed 31 .angleOpen "<", placed 32 .literal "'", placed 33 .word "a",
    placed 34 .angleClose ">"]
  opening := placed 36 .open "\x7b"
  inner := [placed 38 .innerDoc "//! C."]
  closing := placed 45 .close "\x7d"
  read_front := pieced_of_pieces (by decide +kernel)
  read_back := pieced_of_pieces (by decide +kernel)
  spelled := by decide
  ends := by
    intro c hc
    obtain rfl : '<' = c := Option.some.inj hc
    decide
  blank := by decide +kernel
  first := by decide +kernel
  last := by decide +kernel
  tokens_front := by decide +kernel
  tokens_back := by decide +kernel
  waiting :=
    @Attributes.bracketed _ _ _ [_] _ rfl rfl (.single (by decide) (by decide) .nil) rfl .nil
  visible := .pub (by decide)
  qualified := .trait (by decide)
  isKeyword := ⟨"trait", by decide, by decide⟩
  isHeader := by
    refine .angleOpen rfl (.single ?_ ?_ ?_ ?_ ?_ (.single ?_ ?_ ?_ ?_ ?_ (.angleClose rfl .nil)))
    all_goals decide
  opens := ⟨rfl, rfl⟩
  balanced := .single (by decide) (by decide) .nil
  closes := rfl

/-- A function whose name has letters beyond ASCII, from the third one on. -/
def umlauts : SoleItem .function "gr\u00f6\u00dfe".toList where
  before := []
  front := pieces "fn ".toList
  spelling := "gr\u00f6\u00dfe".toList
  back := pieces "() \x7b\x7d".toList
  after := []
  attributes := []
  visibility := []
  qualifiers := []
  keyword := placed 0 .word "fn"
  header := [placed 10 .open "(", placed 11 .close ")"]
  opening := placed 13 .open "\x7b"
  inner := []
  closing := placed 14 .close "\x7d"
  read_front := pieced_of_pieces (by decide +kernel)
  read_back := pieced_of_pieces (by decide +kernel)
  spelled := by decide
  ends := by
    intro c hc
    obtain rfl : '(' = c := Option.some.inj hc
    decide
  blank := by decide +kernel
  first := by decide +kernel
  last := by decide +kernel
  tokens_front := by decide +kernel
  tokens_back := by decide +kernel
  waiting := .nil
  visible := .inherited
  qualified := .plain
  isKeyword := ⟨"fn", by decide, by decide⟩
  isHeader := @Header.group _ _ _ [] _ rfl (by decide) .nil rfl .nil
  opens := ⟨rfl, rfl⟩
  balanced := .nil
  closes := rfl

theorem sourceOf?_rawTrait :
    Reference.parse " m.n : r " = .ok ⟨"m.n", "r"⟩ ∧ IsAscii "r".toList ∧
      rawTrait.source = "// A.\n#[b] pub unsafe trait r#r<'a> \x7b //! C.\n\x7d\n".toList ∧
      sourceOf? rawTrait.source "r" = some (rawTrait.text ++ ['\n']) ∧
      sourceOf? rawTrait.source "b" = none := by
  have hparse : Reference.parse " m.n : r " = .ok ⟨"m.n", "r"⟩ := by decide +kernel
  have hascii : IsAscii "r".toList := by
    intro c hc
    obtain rfl : c = 'r' := by simpa using hc
    decide
  have hfound := (sourceOf?_soleItem hparse rfl rawTrait).1 hascii
  refine ⟨hparse, hascii, by decide +kernel, ?_, ?_⟩
  · rw [hfound, if_pos rfl]
  · rw [hfound, if_neg (by decide)]

/-- **Not every name of a reference is found**: the scanner reads the first two letters of this one,
and the item answers to them. -/
theorem sourceOf?_umlauts :
    Reference.parse "m:gr\u00f6\u00dfe" = .ok ⟨"m", "gr\u00f6\u00dfe"⟩ ∧
      Reference.parse "m:gr" = .ok ⟨"m", "gr"⟩ ∧
      umlauts.source = "fn gr\u00f6\u00dfe() \x7b\x7d".toList ∧
      sourceOf? umlauts.source "gr\u00f6\u00dfe" = none ∧
      sourceOf? umlauts.source "gr" = some (umlauts.text ++ ['\n']) := by
  decide +kernel

end Instance

end LiveDoc.Item
