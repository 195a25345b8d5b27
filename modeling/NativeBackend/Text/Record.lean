namespace NativeBackend

def optionText (value : Option String) : String :=
  match value with
  | some text => "Some(" ++ text ++ ")"
  | none => "None"

def listText (elements : List String) : String := "[" ++ ", ".intercalate elements ++ "]"

def partTexts (parts : List (String × String)) : String :=
  ", ".intercalate (parts.map fun (label, text) => label ++ ": " ++ text)

def recordText (name : String) (parts : List (String × String)) : String :=
  name ++ " \x7b " ++ partTexts parts ++ " \x7d"

def tableText (entries : List (String × String)) : String := "\x7b" ++ partTexts entries ++ "\x7d"

end NativeBackend
