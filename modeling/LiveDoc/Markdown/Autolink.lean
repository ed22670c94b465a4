import LiveDoc.Markdown.Glyph
import LiveDoc.Text.Lines
import LiveDoc.Text.Punctuation

/-!
# Addresses as links

Three ways to write an address that is a link to itself: between angle brackets (`bracketed?`), as
it is when it starts with a protocol or with `www.` (`literal?`), and as the address of a mailbox
(`Mailbox.find?`). The last two have no end of their own: punctuation behind them does not belong to
them.
-/

namespace LiveDoc.Markdown.Autolink

/-! ## Between angle brackets -/

/-- Most characters in the name of a protocol. -/
def protocolMax : Nat := 32

/-- Most characters in a part of a domain between points. -/
def domainPartMax : Nat := 63

/-- Whether a character may be in the name of a protocol. -/
def isProtocolChar (c : Char) : Bool := c.isAlphanum || c = '+' || c = '-' || c = '.'

/-- Whether a character may not be in an address between brackets: controls, the space and `<`. -/
def endsAddress (c : Char) : Bool := c.toNat ≤ 32 || c = '<' || c = '>' || c.toNat == 127

/-- Whether a character may be in the name of a mailbox. -/
def isMailboxChar (c : Char) : Bool :=
  c.isAlphanum || "#$%&'*+-./=?^_`\x7b|\x7d~".toList.contains c

/-- Splits a run at the bracket that closes an address, when a test holds of what is before it. -/
def upTo? (allowed : Char → Bool) (gs : List Glyph) : Option (List Glyph × List Glyph) :=
  match gs.dropWhile fun g => allowed g.char with
  | g :: rest => if g.char = '>' then some (gs.takeWhile fun g => allowed g.char, rest) else none
  | [] => none

/-- Whether an address starts with a protocol and a colon. -/
def hasProtocol (address : List Char) : Bool :=
  let name := address.takeWhile isProtocolChar
  (name.head?.map Char.isAlpha).getD false && 2 ≤ name.length && name.length ≤ protocolMax &&
    (address.drop name.length).head? = some ':'

/-- Whether a text is a domain: parts of letters, digits and inner hyphens, joined by points. -/
def isDomain (s : List Char) : Bool :=
  s ≠ [] && (Text.split '.' s).all fun part =>
    part ≠ [] && part.length ≤ domainPartMax && part.all (fun c => c.isAlphanum || c = '-') &&
      part.head? ≠ some '-' && part.getLast? ≠ some '-'

/-- Whether an address is that of a mailbox. -/
def isMailbox (address : List Char) : Bool :=
  let name := address.takeWhile isMailboxChar
  match address.drop name.length with
  | '@' :: domain => name ≠ [] && isDomain domain
  | _ => false

/-- The address between angle brackets that a run starts with, and what follows. -/
def bracketed? : List Glyph → Option (List Glyph × List Glyph)
  | [] => none
  | g :: rest =>
    if g.char ≠ '<' then none
    else
      (upTo? (fun c => !endsAddress c) rest).bind fun (address, rest) =>
        let text := address.map (·.char)
        if hasProtocol text || isMailbox text then some (address, rest) else none

/-! ## As they are -/

/-- Whether a glyph is neither a blank nor punctuation. -/
def isWordGlyph (g : Glyph) : Bool := !Text.isBlank g.char && !Text.isPunctuation g.char

/-- Whether a run starts with what may stand behind an address: punctuation, then a blank, `<`, or
the end. An ampersand counts only as the start of a named character. -/
def atTrail : (fuel : Nat) → List Glyph → Bool
  | 0, _ => false
  | _ + 1, [] => true
  | fuel + 1, g :: rest =>
    if "!\"'),*.:;?_~".toList.contains g.char then atTrail fuel rest
    else if g.char = '&' then
      match rest.dropWhile (·.char.isAlpha) with
      | h :: more => startsName rest && h.char = ';' && atTrail fuel more
      | [] => false
    else if g.char = '<' then true
    else if g.char = ']' then
      match rest with
      | [] => true
      | h :: _ => h.isSpace || h.isLineEnd || h.char = '(' || h.char = '[' || atTrail fuel rest
    else Text.isBlank g.char
where
  /-- Whether a run starts with an ASCII letter. -/
  startsName : List Glyph → Bool
    | g :: _ => g.char.isAlpha
    | [] => false

/-- Whether what follows an address may stand behind one. -/
def isTrail (gs : List Glyph) : Bool := atTrail (gs.length + 1) gs

/-- The path of an address. `opened` and `closed` count its parentheses; a closing one at the end
belongs to it when it has a partner. -/
def path (opened closed : Nat) : List Glyph → List Glyph
  | [] => []
  | g :: rest =>
    if g.char = '(' then g :: path (opened + 1) closed rest
    else if "!\"&'),*.:;<?_~".toList.contains g.char then
      if isTrail (g :: rest) && !(g.char = ')' && closed < opened) then []
      else g :: path opened (if g.char = ')' then closed + 1 else closed) rest
    else if Text.isBlank g.char then []
    else g :: path opened closed rest

/-- The domain of an address and its path, if there is a domain. `seen` tells whether the domain has
anything but marks; `last` and `before` tell whether its last two parts hold underscores. -/
def domain? (seen last before : Bool) : List Glyph → Option (List Glyph)
  | [] => if seen && !last && !before then some [] else none
  | g :: rest =>
    let mark := g.char = '.' || g.char = '_'
    if mark && !isTrail (g :: rest) then
      (if g.char = '_' then domain? seen true before rest else domain? seen false last rest).map
        (g :: ·)
    else if g.char = '-' then (domain? seen last before rest).map (g :: ·)
    else if !mark && isWordGlyph g then (domain? true last before rest).map (g :: ·)
    else if seen && !last && !before then some (path 0 0 (g :: rest))
    else none

/-- The address with a protocol that a run starts with. -/
def withProtocol? (gs : List Glyph) : Option (List Glyph) :=
  let name := gs.takeWhile (·.char.isAlpha)
  let spelled := String.ofList (name.map (·.char.toLower))
  let head := gs.take (name.length + 3)
  if (spelled = "http" || spelled = "https") &&
      Glyph.startsWith [':', '/', '/'] (gs.drop name.length) then
    (domain? false false false (gs.drop (name.length + 3))).map (head ++ ·)
  else none

/-- The address that starts with `www.` and that a run starts with. -/
def withWww? (gs : List Glyph) : Option (List Glyph) :=
  let head := (gs.take 4).map (·.char.toLower)
  if head = ['w', 'w', 'w', '.'] && (gs.drop 4) ≠ [] then domain? false false false gs else none

/-- Whether an address that starts with `www.` may follow a character. -/
def wwwMayFollow : Option Char → Bool
  | none => true
  | some c => "\t\n (*_[]~".toList.contains c

/-- The address that a run starts with, behind a character. -/
def literal? (before : Option Char) (gs : List Glyph) : Option (List Glyph) :=
  let start := (gs.head?.map (·.char.toLower)).getD ' '
  if start = 'h' && !(before.map Char.isAlpha).getD false then withProtocol? gs
  else if start = 'w' && wwwMayFollow before then withWww? gs
  else none

/-! ## Mailboxes -/

/-- Whether a character may be in a mailbox that stands by itself. -/
def isAtomChar (c : Char) : Bool := c.isAlphanum || c = '+' || c = '-' || c = '.' || c = '_'

/-- The protocol that the reversed text before a mailbox ends with. -/
def mailProtocol? : List Glyph → Option (List Glyph × Bool)
  | [] => none
  | g :: before =>
    let name := before.takeWhile (·.char.isAlphanum)
    let spelled := String.ofList (name.reverse.map (·.char.toLower))
    if g.char = ':' && spelled = "xmpp" then some (g :: name, true)
    else if g.char = ':' && spelled = "mailto" then some (g :: name, false)
    else none

/-- The domain that a text starts with. A point belongs to it when a letter or a digit follows. -/
def mailDomain (slashes : Bool) : List Glyph → List Glyph
  | [] => []
  | g :: rest =>
    if g.char.isAlphanum || g.char = '-' || g.char = '_' || (slashes && g.char = '/') ||
        (g.char = '.' && (rest.head?.map (·.char.isAlphanum)).getD false) then
      g :: mailDomain slashes rest
    else []

/-- The address of a mailbox whose sign `at` stands between a reversed text and another one: the
part of the address before the sign, reversed, and the part behind it. -/
def mailbox? (before after : List Glyph) : Option (List Glyph × List Glyph) :=
  let atom := before.takeWhile fun g => isAtomChar g.char
  let rest := before.drop atom.length
  if atom.isEmpty || rest.head?.map (·.char) = some '/' then none
  else
    let (protocol, slashes) := (mailProtocol? rest).getD ([], false)
    let domain := mailDomain slashes after
    if domain.any (·.char = '.') && (domain.getLast?.map (·.char.isAlpha)).getD false then
      some (atom ++ protocol, domain)
    else none

/-- Cuts a text into pieces, of which those marked are the addresses of mailboxes. `before` is the
text since the last address, reversed. -/
def mailboxesFrom : (fuel : Nat) → (before : List Glyph) → List Glyph → List (Bool × List Glyph)
  | 0, before, gs => [(false, before.reverse ++ gs)]
  | _ + 1, before, [] => if before.isEmpty then [] else [(false, before.reverse)]
  | fuel + 1, before, g :: rest =>
    match if g.char = '@' then mailbox? before rest else none with
    | some (head, domain) =>
      let text := (before.drop head.length).reverse
      (if text.isEmpty then [] else [(false, text)]) ++
        (true, head.reverse ++ g :: domain) :: mailboxesFrom fuel [] (rest.drop domain.length)
    | none => mailboxesFrom fuel (g :: before) rest

/-- Cuts a text into pieces, of which those marked are the addresses of mailboxes. -/
def mailboxes (gs : List Glyph) : List (Bool × List Glyph) := mailboxesFrom (gs.length + 1) [] gs

end LiveDoc.Markdown.Autolink
