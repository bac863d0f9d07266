import SwitchingAlgebra.Text.Extender
import SwitchingAlgebra.Text.Unprintable

/-!
# Quoted characters and texts

A character is quoted in apostrophes and a text in quotation marks. The mark itself and the
backslash are written after a backslash, and so are the tabulator, the line feed, the carriage
return and the null character, by a letter or digit. Any other character that is not printed on its
own is written by its code point in hexadecimal digits.
-/

set_option autoImplicit false
set_option relaxedAutoImplicit false

namespace SwitchingAlgebra.Text

/-- The code point of a character in hexadecimal digits, as it stands in a quotation. -/
def numbered (c : Char) : String :=
  "\\u\x7b" ++ String.ofList (Nat.toDigits 16 c.toNat) ++ "\x7d"

/-- A character within a quotation between the given marks. -/
def quotedChar (mark c : Char) : String :=
  if c = '\x00' then "\\0"
  else if c = '\t' then "\\t"
  else if c = '\r' then "\\r"
  else if c = '\n' then "\\n"
  else if c = '\\' ∨ c = mark then String.ofList ['\\', c]
  else if isExtender c || isUnprintable c then numbered c
  else String.singleton c

/-- The mark around a quoted character. -/
def apostrophe : Char := '\x27'

/-- The mark around a quoted text. -/
def quotationMark : Char := '\x22'

/-- A character in apostrophes. -/
def quoteChar (c : Char) : String :=
  String.singleton apostrophe ++ quotedChar apostrophe c ++ String.singleton apostrophe

/-- A text in quotation marks. -/
def quote (text : String) : String :=
  String.singleton quotationMark ++ String.join (text.toList.map (quotedChar quotationMark)) ++
    String.singleton quotationMark

end SwitchingAlgebra.Text
