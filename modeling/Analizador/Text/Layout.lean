/-! # Laying out text

Padding, cutting and splitting of texts, counted in code points. -/

namespace Analizador.Text

/-- A run of blanks. -/
def blanks (n : Nat) : String := String.ofList (List.replicate n ' ')

/-- A text filled up with blanks on the right. -/
def padRight (width : Nat) (s : String) : String := s ++ blanks (width - s.toList.length)

/-- The first characters of a text. -/
def cut (width : Nat) (s : String) : String := String.ofList (s.toList.take width)

/-- The width of a text once every tab has been filled up to the next multiple of `stop`; a line end
starts counting anew for the tabs that follow it. -/
def expandedWidth (stop : Nat) (cs : List Char) : Nat :=
  (cs.foldl (fun (width, column) c =>
    if c = '\t' then
      let fill := stop - column % stop
      (width + fill, column + fill)
    else if c = '\n' || c = '\r' then (width + 1, 0)
    else (width + 1, column + 1)) (0, 0)).1

/-- Whether some characters stand somewhere in a text, one after the other. -/
def occurs (part : List Char) : List Char → Bool
  | [] => part.isEmpty
  | c :: rest => part.isPrefixOf (c :: rest) || occurs part rest

/-- Cuts a list of characters at every line end. -/
def splitLines (cs : List Char) : List (List Char) :=
  match cs with
  | [] => [[]]
  | c :: rest =>
    if c = '\n' then [] :: splitLines rest
    else match splitLines rest with
      | [] => [[c]]
      | line :: lines => (c :: line) :: lines

/-- The lines of a text; a text that ends in a line end has an empty last line. -/
def lines (s : String) : List String := (splitLines s.toList).map String.ofList

/-- What a sequence of printed messages looks like line by line. -/
def printedLines (messages : List String) : List String := messages.flatMap lines

end Analizador.Text
