namespace NativeBackend

def isSymbolChar (c : Char) : Bool := c.isAlphanum || c = '_' || c = '.' || c = '$'

def isBareName (name : List Char) : Bool :=
  match name with
  | [] => false
  | c :: _ => !c.isDigit && name.all isSymbolChar

/-- Inside quotes a backslash or a quote is written by its code in hexadecimal. -/
def escapeNameChar (c : Char) : List Char :=
  if c = '\\' then ['\\', '5', 'C'] else if c = '"' then ['\\', '2', '2'] else [c]

def globalName (name : String) : String :=
  if isBareName name.toList then "@" ++ name
  else "@\"" ++ String.ofList (name.toList.flatMap escapeNameChar) ++ "\""

end NativeBackend
