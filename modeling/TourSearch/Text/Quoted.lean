import TourSearch.Text.CharClass

/-!
Texts in quotes, as messages show them. Single quotes are used unless the text holds a single
quote and no double one. The quote in use, the backslash, line ends and tabs are escaped by a
backslash, and a character that prints nothing by its code point in hexadecimal digits.
-/

namespace TourSearch.Text

def hexDigits (width n : Nat) : String :=
  let digits := String.ofList (Nat.toDigits 16 n)
  "".pushn '0' (width - digits.length) ++ digits

/-- The escape of a code point: two, four or eight hexadecimal digits. -/
def codePointEscape (n : Nat) : String :=
  if n < 0x100 then "\\x" ++ hexDigits 2 n
  else if n < 0x10000 then "\\u" ++ hexDigits 4 n
  else "\\U" ++ hexDigits 8 n

def escapeChar (quote c : Char) : String :=
  if c == quote || c == '\\' then String.ofList ['\\', c]
  else if c == '\n' then "\\n"
  else if c == '\r' then "\\r"
  else if c == '\t' then "\\t"
  else if isUnprintable c then codePointEscape c.toNat
  else String.singleton c

def quoted (s : String) : String :=
  let quote := if s.contains '\'' && !s.contains '"' then '"' else '\''
  String.singleton quote ++ String.join (s.toList.map (escapeChar quote)) ++
    String.singleton quote

end TourSearch.Text
