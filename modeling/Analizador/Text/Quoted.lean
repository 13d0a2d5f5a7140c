import Analizador.Text.Printable

/-! # Quoted texts

A text between quotes, with what cannot be shown written as an escape. Single quotes are used,
unless the text has a single quote and no double one. -/

namespace Analizador.Text

/-- The low `places` hexadecimal digits of a number, in lower case. -/
def hexadecimal (places n : Nat) : String :=
  let digits := Nat.toDigits 16 n
  String.ofList (List.replicate (places - digits.length) '0' ++ digits)

/-- One character inside quotes. -/
def escape (quote c : Char) : String :=
  if c = quote || c = '\\' then String.ofList ['\\', c]
  else if c = '\n' then "\\n"
  else if c = '\r' then "\\r"
  else if c = '\t' then "\\t"
  else if isPrintable c then String.ofList [c]
  else if c.toNat ≤ 0xff then "\\x" ++ hexadecimal 2 c.toNat
  else if c.toNat ≤ 0xffff then "\\u" ++ hexadecimal 4 c.toNat
  else "\\U" ++ hexadecimal 8 c.toNat

/-- The quote that surrounds a text. -/
def quoteMark (s : String) : Char :=
  if s.toList.contains '\'' && !s.toList.contains '"' then '"' else '\''

/-- A text between quotes. -/
def quoted (s : String) : String :=
  let mark := quoteMark s
  String.ofList [mark] ++ String.join (s.toList.map (escape mark)) ++ String.ofList [mark]

end Analizador.Text
