import Analizador.Text.Layout
import Analizador.Token

/-! # Scanning

A source text is cut into lexemes from left to right. At each place the classes are tried in a fixed
order and the first that fits wins; blanks and comments are dropped. The scan stops at a character
that starts no lexeme, and keeps what a report needs to show it. -/

namespace Analizador

namespace Scan

/-- Letters and the underscore. -/
def isWordStart (c : Char) : Bool := c.isAlpha || c == '_'

/-- Letters, digits and the underscore. -/
def isWordRest (c : Char) : Bool := c.isAlpha || c.isDigit || c == '_'

/-- The blanks between tokens. -/
def isSpace (c : Char) : Bool := c == ' ' || c == '\t' || c == '\r' || c == '\n'

/-- The number of leading characters that satisfy a predicate. -/
def run (p : Char → Bool) (cs : List Char) : Nat := (cs.takeWhile p).length

/-- The number of characters up to and including the first `*/`. -/
def commentEnd? : List Char → Option Nat
  | [] => none
  | '*' :: '/' :: _ => some 2
  | _ :: rest => (commentEnd? rest).map (· + 1)

/-- The length of a comment at the front: to the end of the line, or to the first `*/`. -/
def comment? : List Char → Option Nat
  | '/' :: '/' :: rest => some (2 + run (· != '\n') rest)
  | '/' :: '*' :: rest => (commentEnd? rest).map (2 + ·)
  | _ => none

/-- The length of a word at the front. -/
def word? : List Char → Option Nat
  | c :: rest => if isWordStart c then some (1 + run isWordRest rest) else none
  | [] => none

/-- The length of a row of digits at the front. -/
def integer? (cs : List Char) : Option Nat :=
  let n := run Char.isDigit cs
  if n = 0 then none else some n

/-- The length of digits, a point and digits at the front. -/
def decimal? (cs : List Char) : Option Nat := do
  let whole ← integer? cs
  match cs.drop whole with
  | '.' :: rest => return whole + 1 + (← integer? rest)
  | _ => none

/-- The length of a row of blanks at the front. -/
def space? (cs : List Char) : Option Nat :=
  let n := run isSpace cs
  if n = 0 then none else some n

/-- The length of a quoted text at the front. -/
def text? : List Char → Option Nat
  | '"' :: rest =>
    let n := run (· != '"') rest
    if n < rest.length then some (n + 2) else none
  | _ => none

/-- The first operator or punctuation mark that starts the characters. -/
def mark? (cs : List Char) : Option (Kind × Nat) :=
  (Kind.marks.find? fun (sign, _) => sign.toList.isPrefixOf cs).map
    fun (sign, kind) => (kind, sign.toList.length)

/-- A lexeme at the front: its kind, or none for what is dropped, and its length. -/
structure Lexeme where
  kind : Option Kind
  length : Nat
  deriving DecidableEq, Repr

/-- The lexeme at the front, by the first class that fits. -/
def lexeme? (cs : List Char) : Option Lexeme :=
  ((comment? cs).map (⟨none, ·⟩))
    <|> ((word? cs).map fun n => ⟨some (Kind.ofWord (String.ofList (cs.take n))), n⟩)
    <|> ((decimal? cs).map (⟨some .decimal, ·⟩))
    <|> ((space? cs).map (⟨none, ·⟩))
    <|> ((text? cs).map (⟨some .text, ·⟩))
    <|> ((integer? cs).map (⟨some .integer, ·⟩))
    <|> ((mark? cs).map fun (kind, n) => ⟨some kind, n⟩)

/-- Scans characters from a place on, the first `skip` of which belong to a lexeme already taken.
Gives the tokens, and the number of characters before the one that starts no lexeme. -/
def tokensFrom (spot : Spot) (skip : Nat) : List Char → List Token × Option Nat
  | [] => ([], none)
  | c :: rest =>
    match skip with
    | skip + 1 =>
      let (tokens, stop) := tokensFrom (spot.next c) skip rest
      (tokens, stop.map (· + 1))
    | 0 =>
      match lexeme? (c :: rest) with
      | none => ([], some 0)
      | some lexeme =>
        let (tokens, stop) := tokensFrom (spot.next c) (lexeme.length - 1) rest
        let tokens := match lexeme.kind with
          | some kind => ⟨kind, String.ofList ((c :: rest).take lexeme.length), spot⟩ :: tokens
          | none => tokens
        (tokens, stop.map (· + 1))

end Scan

/-- A character that starts no lexeme, with the text around it and the token before it. -/
structure Stray where
  char : Char
  spot : Spot
  before : List Char
  after : List Char
  previous : Option Token
  deriving DecidableEq, Repr, Inhabited

/-- The result of a scan: the tokens, and the character that stopped it. -/
structure Scan where
  tokens : List Token
  stray : Option Stray
  deriving DecidableEq, Repr, Inhabited

namespace Stray

/-- How many characters a report shows on either side. -/
def window : Nat := 40

/-- The character at a given distance from the start of a text. -/
def locate (cs : List Char) (offset : Nat) (previous : Option Token) : Stray where
  char := (cs.drop offset).headD ' '
  spot := Spot.start.after (cs.take offset)
  before := ((cs.take offset).drop (offset - window)).reverse.takeWhile (· != '\n') |>.reverse
  after := ((cs.drop offset).take window).takeWhile (· != '\n')
  previous

/-- What a report offers instead of a stray character. -/
def wanted : List String :=
  ["\"!=\"", "\"&&\"", "\"<=\"", "\"==\"", "\">=\"", "\"||\"", "COMMA", "DECIMAL", "ENTERO",
    "EQUAL", "IDENTIFICADOR", "LBRACE", "LESSTHAN", "LPAR", "MINUS", "MORETHAN", "PLUS", "RBRACE",
    "RPAR", "SEMICOLON", "SLASH", "STAR", "STRING"]

/-- A list of what could stand at some place, one item a line. -/
def expectedList (items : List String) : String :=
  "Expected one of: \n" ++ String.join (items.map fun item => "\t* " ++ item ++ "\n")

/-- The report on a stray character. -/
def message (stray : Stray) : String :=
  let place := s!"at line {stray.spot.line} col {stray.spot.column}"
  let shown := String.ofList (stray.before ++ stray.after)
  let pointer := Text.blanks (Text.expandedWidth 8 stray.before)
  let history := match stray.previous with
    | none => ""
    | some token => s!"\nPrevious tokens: {quotedToken token.kind.name token.text}\n"
  "No terminal matches '" ++ String.ofList [stray.char] ++ "' in the current parser context, " ++
    place ++ "\n\n" ++ shown ++ "\n" ++ pointer ++ "^\n" ++ expectedList wanted ++ history

end Stray

/-- Scans a source text. -/
def Scan.ofText (source : String) : Scan :=
  let cs := source.toList
  let (tokens, stop) := Scan.tokensFrom .start 0 cs
  ⟨tokens, stop.map fun offset => Stray.locate cs offset tokens.getLast?⟩

end Analizador
