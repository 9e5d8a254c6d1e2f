import TypedPipeline.Text.Printable

/-!
# Text.Quoted: names in double quotes, for messages

A name is shown between double quotes with its quotes and reverse slashes escaped, so that where it
ends is plain to see. What is not printable is shown by its code point; a list of names stands in
brackets.
-/

namespace TypedPipeline

namespace Quoted

/-- How a character of a name is shown. -/
def shown (c : Char) : List Char :=
  if c = '"' then ['\\', '"']
  else if c = '\\' then ['\\', '\\']
  else if c = '\n' then ['\\', 'n']
  else if c = '\r' then ['\\', 'r']
  else if c = '\t' then ['\\', 't']
  else if c.toNat = 0 then ['\\', '0']
  else if isPrintable c then [c]
  else ['\\', 'u', '\x7b'] ++ Nat.toDigits 16 c.toNat ++ ['\x7d']

def text (name : String) : String := String.ofList ('"' :: name.toList.flatMap shown ++ ['"'])

def listText (names : List String) : String :=
  "[" ++ String.intercalate ", " (names.map text) ++ "]"

end Quoted

end TypedPipeline
