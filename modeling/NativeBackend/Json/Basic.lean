namespace NativeBackend

/-- A JSON value as far as options need it. A number is kept if it is written as an integer other
than minus zero; a string is kept if its escapes form characters. -/
inductive Json where
  | null
  | bool (value : Bool)
  | number (value : Option Int)
  | string (value : Option String)
  | array (elements : List Json)
  | object (members : List (Option String × Json))
  deriving Inhabited

namespace Json

def isSpace (c : Char) : Bool := c = ' ' || c = '\n' || c = '\t' || c = '\r'

def skipSpace (cs : List Char) : List Char := cs.dropWhile isSpace

def hexValue? (c : Char) : Option Nat :=
  if c.isDigit then some (c.toNat - '0'.toNat)
  else if 'a' ≤ c ∧ c ≤ 'f' then some (c.toNat - 'a'.toNat + 10)
  else if 'A' ≤ c ∧ c ≤ 'F' then some (c.toNat - 'A'.toNat + 10)
  else none

def hexQuad? (a b c d : Char) : Option Nat := do
  return (((← hexValue? a) * 16 + (← hexValue? b)) * 16 + (← hexValue? c)) * 16 + (← hexValue? d)

def escaped? : Char → Option Nat
  | '"' => some '"'.toNat
  | '\\' => some '\\'.toNat
  | '/' => some '/'.toNat
  | 'b' => some 8
  | 'f' => some 12
  | 'n' => some 10
  | 'r' => some 13
  | 't' => some 9
  | _ => none

/-- Reads a string after its opening quote: the codes of its characters, with halves of surrogate
pairs as they are written. -/
def readCodes : List Char → Option (List Nat × List Char)
  | '"' :: rest => some ([], rest)
  | '\\' :: 'u' :: a :: b :: c :: d :: rest => do
    let code ← hexQuad? a b c d
    let (codes, tail) ← readCodes rest
    return (code :: codes, tail)
  | '\\' :: c :: rest => do
    let code ← escaped? c
    let (codes, tail) ← readCodes rest
    return (code :: codes, tail)
  | c :: rest =>
    if c.toNat < 0x20 ∨ c = '\\' then none
    else (readCodes rest).map fun (codes, tail) => (c.toNat :: codes, tail)
  | [] => none

def isLeading (code : Nat) : Bool := 0xD800 ≤ code && code < 0xDC00

def isTrailing (code : Nat) : Bool := 0xDC00 ≤ code && code < 0xE000

/-- Joins surrogate pairs; a half on its own is no character. -/
def joinPairs : List Nat → Option (List Char)
  | [] => some []
  | [code] => if isLeading code || isTrailing code then none else some [Char.ofNat code]
  | code :: next :: rest =>
    if isLeading code then
      if isTrailing next then
        (joinPairs rest).map (Char.ofNat (0x10000 + (code - 0xD800) * 0x400 + (next - 0xDC00)) :: ·)
      else none
    else if isTrailing code then none
    else (joinPairs (next :: rest)).map (Char.ofNat code :: ·)

def readString (cs : List Char) : Option (Option String × List Char) :=
  (readCodes cs).map fun (codes, rest) => ((joinPairs codes).map String.ofList, rest)

def readDigits (cs : List Char) : Option (List Char × List Char) :=
  match cs.takeWhile Char.isDigit with
  | [] => none
  | digits => some (digits, cs.dropWhile Char.isDigit)

def readWhole : List Char → Option (List Char × List Char)
  | '0' :: rest => some (['0'], rest)
  | cs => readDigits cs

def readFraction : List Char → Option (Bool × List Char)
  | '.' :: rest => (readDigits rest).map fun (_, tail) => (true, tail)
  | cs => some (false, cs)

def skipSign : List Char → List Char
  | '+' :: rest => rest
  | '-' :: rest => rest
  | cs => cs

def readExponent : List Char → Option (Bool × List Char)
  | 'e' :: rest => (readDigits (skipSign rest)).map fun (_, tail) => (true, tail)
  | 'E' :: rest => (readDigits (skipSign rest)).map fun (_, tail) => (true, tail)
  | cs => some (false, cs)

def digitsValue (digits : List Char) : Nat := digits.foldl (fun n c => n * 10 + (c.toNat - '0'.toNat)) 0

def readUnsigned (negative : Bool) (cs : List Char) : Option (Json × List Char) := do
  let (digits, rest) ← readWhole cs
  let (hasFraction, rest) ← readFraction rest
  let (hasExponent, rest) ← readExponent rest
  let n := digitsValue digits
  let value :=
    if hasFraction || hasExponent || (negative && n == 0) then none
    else some (if negative then -(n : Int) else (n : Int))
  return (.number value, rest)

def readNumber : List Char → Option (Json × List Char)
  | '-' :: rest => readUnsigned true rest
  | cs => readUnsigned false cs

mutual

def readValue : Nat → List Char → Option (Json × List Char)
  | 0, _ => none
  | depth + 1, cs =>
    match skipSpace cs with
    | 'n' :: 'u' :: 'l' :: 'l' :: rest => some (.null, rest)
    | 't' :: 'r' :: 'u' :: 'e' :: rest => some (.bool true, rest)
    | 'f' :: 'a' :: 'l' :: 's' :: 'e' :: rest => some (.bool false, rest)
    | '"' :: rest => (readString rest).map fun (s, tail) => (.string s, tail)
    | '[' :: rest =>
      match skipSpace rest with
      | ']' :: tail => some (.array [], tail)
      | _ => (readElements depth rest).map fun (elements, tail) => (.array elements, tail)
    | '\x7b' :: rest =>
      match skipSpace rest with
      | '\x7d' :: tail => some (.object [], tail)
      | _ => (readMembers depth rest).map fun (members, tail) => (.object members, tail)
    | cs => readNumber cs

def readElements : Nat → List Char → Option (List Json × List Char)
  | 0, _ => none
  | depth + 1, cs => do
    let (v, rest) ← readValue depth cs
    match skipSpace rest with
    | ',' :: rest => (readElements depth rest).map fun (vs, tail) => (v :: vs, tail)
    | ']' :: rest => some ([v], rest)
    | _ => none

def readMembers : Nat → List Char → Option (List (Option String × Json) × List Char)
  | 0, _ => none
  | depth + 1, cs =>
    match skipSpace cs with
    | '"' :: rest => do
      let (key, rest) ← readString rest
      match skipSpace rest with
      | ':' :: rest =>
        let (v, rest) ← readValue depth rest
        match skipSpace rest with
        | ',' :: rest => (readMembers depth rest).map fun (ms, tail) => ((key, v) :: ms, tail)
        | '\x7d' :: rest => some ([(key, v)], rest)
        | _ => none
      | _ => none
    | _ => none

end

def parse (text : String) : Option Json :=
  match readValue (text.length + 1) text.toList with
  | some (v, rest) => if (skipSpace rest).isEmpty then some v else none
  | none => none

def integer? (least greatest : Int) : Json → Option Int
  | .number (some n) => if least ≤ n ∧ n ≤ greatest then some n else none
  | _ => none

def bool? : Json → Option Bool
  | .bool value => some value
  | _ => none

variable {σ : Type} (fields : List String) (put : String → Json → σ → Option σ)

/-- Puts the members of an object into a record. Each field comes at most once; members that are
no fields are passed over. -/
def putMembers (seen : List String) : List (Option String × Json) → σ → Option σ
  | [], record => some record
  | (none, _) :: _, _ => none
  | (some key, v) :: rest, record =>
    if fields.contains key then
      if seen.contains key then none else (put key v record).bind (putMembers (key :: seen) rest)
    else putMembers seen rest record

def putElements : List String → List Json → σ → Option σ
  | _, [], record => some record
  | [], _ :: _, _ => none
  | key :: keys, v :: rest, record => (put key v record).bind (putElements keys rest)

/-- Reads a record from an object or from an array; what is missing stays as it is. -/
def record? (start : σ) : Json → Option σ
  | .object members => putMembers fields put [] members start
  | .array elements => putElements put fields elements start
  | _ => none

end Json

end NativeBackend
