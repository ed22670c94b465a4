import LiveDoc.Item.Piece
import LiveDoc.Text.Span

/-!
# Significant tokens of Rust source

The pieces that matter for finding items, with their places. Blanks and plain comments are dropped;
doc comments stay, as outer ones (`///`, `/** */`) or inner ones (`//!`, `/*! */`).
-/

namespace LiveDoc.Item

open Text (Span)

/-- The kinds of significant tokens. -/
inductive Lexeme.Kind where
  | outerDoc
  | innerDoc
  | word
  | open
  | close
  | semicolon
  | angleOpen
  | angleClose
  | pound
  | bang
  | literal
  | other
  deriving DecidableEq, Repr

/-- A significant token. -/
structure Lexeme where
  kind : Lexeme.Kind
  text : List Char
  span : Span
  deriving DecidableEq, Repr

namespace Lexeme

/-- Whether a text starts with the characters of a literal string. -/
def starts (s : String) (text : List Char) : Bool := s.toList.isPrefixOf text

/-- What a comment is, if it documents something. Four slashes, three stars, and the empty block
comment make plain comments. -/
def ofComment? (text : List Char) : Option Kind :=
  if starts "///" text && !starts "////" text then some .outerDoc
  else if starts "/**" text && !starts "/***" text && text ≠ "/**/".toList then some .outerDoc
  else if starts "//!" text || starts "/*!" text then some .innerDoc
  else none

/-- What a piece is as a significant token, if it is one. -/
def ofPiece? (piece : Piece) : Option Kind :=
  match piece.kind with
  | .blank => none
  | .lineComment | .blockComment => ofComment? piece.text
  | .string | .quote | .number => some .literal
  | .word => some .word
  | .open => some .open
  | .close => some .close
  | .semicolon => some .semicolon
  | .less => some .angleOpen
  | .greater => some .angleClose
  | .arrow | .unknown => some .other
  | .pound => some .pound
  | .bang => some .bang

/-- The significant tokens among pieces that start at a place. -/
def ofPieces (place : Nat) : List Piece → List Lexeme
  | [] => []
  | piece :: rest =>
    let stop := place + Text.byteLength piece.text
    match ofPiece? piece with
    | some kind => ⟨kind, piece.text, ⟨place, stop⟩⟩ :: ofPieces stop rest
    | none => ofPieces stop rest

/-- Whether a token is the given word. -/
def isWord (s : String) (t : Lexeme) : Bool := t.kind = .word && t.text = s.toList

end Lexeme

/-- The significant tokens of a text. -/
def lexemes (source : List Char) : List Lexeme := Lexeme.ofPieces 0 (pieces source)

end LiveDoc.Item
