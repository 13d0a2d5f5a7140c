import Analizador.Text.Quoted

/-! # Tokens

The kinds of tokens of the language and the tokens themselves, with their place in the source text.
-/

namespace Analizador

/-- The kind of a token. -/
inductive Kind where
  | ent
  | dec
  | cadena
  | si
  | oNo
  | mientras
  | repetir
  | sout
  | scan
  | identifier
  | decimal
  | integer
  | text
  | equals
  | differs
  | atLeast
  | atMost
  | both
  | either
  | comma
  | assign
  | leftBrace
  | less
  | leftParen
  | minus
  | greater
  | plus
  | rightBrace
  | rightParen
  | semicolon
  | slash
  | star
  deriving DecidableEq, Repr, Inhabited

namespace Kind

/-- Every kind. -/
def all : List Kind :=
  [ent, dec, cadena, si, oNo, mientras, repetir, sout, scan, identifier, decimal, integer, text,
    equals, differs, atLeast, atMost, both, either, comma, assign, leftBrace, less,
    leftParen, minus,
    greater, plus, rightBrace, rightParen, semicolon, slash, star]

/-- The name of a kind in token lists and reports. -/
def name : Kind → String
  | ent => "ENT"
  | dec => "DEC"
  | cadena => "CADENA"
  | si => "SI"
  | oNo => "ONO"
  | mientras => "MIENTRAS"
  | repetir => "REPETIR"
  | sout => "SOUT"
  | scan => "SCAN"
  | identifier => "IDENTIFICADOR"
  | decimal => "DECIMAL"
  | integer => "ENTERO"
  | text => "STRING"
  | equals => "__ANON_0"
  | differs => "__ANON_1"
  | atLeast => "__ANON_2"
  | atMost => "__ANON_3"
  | both => "__ANON_4"
  | either => "__ANON_5"
  | comma => "COMMA"
  | assign => "EQUAL"
  | leftBrace => "LBRACE"
  | less => "LESSTHAN"
  | leftParen => "LPAR"
  | minus => "MINUS"
  | greater => "MORETHAN"
  | plus => "PLUS"
  | rightBrace => "RBRACE"
  | rightParen => "RPAR"
  | semicolon => "SEMICOLON"
  | slash => "SLASH"
  | star => "STAR"

/-- The reserved words. -/
def keywords : List (String × Kind) :=
  [("ent", ent), ("dec", dec), ("cadena", cadena), ("si", si), ("oNo", oNo), ("mientras", mientras),
    ("repetir", repetir), ("sout", sout), ("scan", scan)]

/-- The kind of a word: a keyword's own, else an identifier. -/
def ofWord (word : String) : Kind := (keywords.lookup word).getD identifier

/-- The operators and punctuation marks, longer ones first. -/
def marks : List (String × Kind) :=
  [("==", equals), ("!=", differs), (">=", atLeast), ("<=", atMost), ("&&", both), ("||", either),
    (",", comma), ("=", assign), ("\x7b", leftBrace), ("<", less), ("(", leftParen), ("-", minus),
    (">", greater), ("+", plus), ("\x7d", rightBrace), (")", rightParen), (";", semicolon),
    ("/", slash),
    ("*", star)]

end Kind

/-- A place in a source text; lines and columns count from one. -/
structure Spot where
  line : Nat
  column : Nat
  deriving DecidableEq, Repr, Inhabited

namespace Spot

/-- The place where a text starts. -/
def start : Spot := ⟨1, 1⟩

/-- The place after one more character. -/
def next (spot : Spot) (c : Char) : Spot :=
  if c = '\n' then ⟨spot.line + 1, 1⟩ else ⟨spot.line, spot.column + 1⟩

/-- The place after some more characters. -/
def after (spot : Spot) (cs : List Char) : Spot := cs.foldl next spot

end Spot

/-- A token: its kind, its characters in the source text and its place there. -/
structure Token where
  kind : Kind
  text : String
  spot : Spot
  deriving DecidableEq, Repr, Inhabited

/-- A token as reports quote it. -/
def quotedToken (kind text : String) : String := s!"Token('{kind}', {Text.quoted text})"

end Analizador
