import NativeBackend.Text.Extender
import NativeBackend.Text.Graphic
import NativeBackend.Text.Ignorable

namespace NativeBackend

/-- A character inside a quoted text. Quotes and backslashes stand behind a backslash, some controls
have a letter, and what does not show by itself is written by its number. -/
def quotedChar (c : Char) : List Char :=
  match c with
  | '"' => ['\\', '"']
  | '\\' => ['\\', '\\']
  | '\t' => ['\\', 't']
  | '\n' => ['\\', 'n']
  | '\r' => ['\\', 'r']
  | '\x00' => ['\\', '0']
  | c =>
    if isGraphic c && !isIgnorable c && !isExtender c then [c]
    else ['\\', 'u', '\x7b'] ++ Nat.toDigits 16 c.toNat ++ ['\x7d']

def quoted (s : String) : String := String.ofList ('"' :: (s.toList.flatMap quotedChar ++ ['"']))

end NativeBackend
