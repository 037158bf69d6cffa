import RegisterVM.Text.Printable

/-!
# Quoted text

Text between double quotes, with a backslash before quotes and backslashes, short escapes for the
common controls, and the code point in hexadecimal for every other character that is not written as
it is.
-/

namespace RegisterVM
namespace Text

/-- Hexadecimal digits of a code point, without leading zeros. -/
def hex (n : Nat) : String := String.ofList (Nat.toDigits 16 n)

/-- One character of quoted text. -/
def quoteChar (c : Char) : String :=
  if c = Char.ofNat 0 then "\\0"
  else if c = '\t' then "\\t"
  else if c = '\r' then "\\r"
  else if c = '\n' then "\\n"
  else if c = '"' then "\\\""
  else if c = '\\' then "\\\\"
  else if needsCodePoint c then "\\u\x7b" ++ hex c.toNat ++ "\x7d"
  else String.singleton c

/-- A text in quotes. -/
def quote (s : String) : String := "\"" ++ String.join (s.toList.map quoteChar) ++ "\""

end Text
end RegisterVM
