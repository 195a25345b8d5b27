import NativeBackend.Error

namespace NativeBackend

inductive Descriptor where
  | void | boolean | byte | short | char | int | float | long | double
  | object (name : String)
  | array (element : Descriptor)
  deriving DecidableEq, Repr

namespace Descriptor

def chars : Descriptor → List Char
  | .void => ['V']
  | .boolean => ['Z']
  | .byte => ['B']
  | .short => ['S']
  | .char => ['C']
  | .int => ['I']
  | .float => ['F']
  | .long => ['J']
  | .double => ['D']
  | .object name => 'L' :: (name.toList ++ [';'])
  | .array element => '[' :: element.chars

def text (d : Descriptor) : String := String.ofList d.chars

instance : ToString Descriptor := ⟨text⟩

/-- Reads one descriptor and returns what follows it. A class name runs to the first semicolon
and is not empty. -/
def read? : List Char → Option (Descriptor × List Char)
  | [] => none
  | c :: rest =>
    match c with
    | 'V' => some (.void, rest)
    | 'Z' => some (.boolean, rest)
    | 'B' => some (.byte, rest)
    | 'S' => some (.short, rest)
    | 'C' => some (.char, rest)
    | 'I' => some (.int, rest)
    | 'F' => some (.float, rest)
    | 'J' => some (.long, rest)
    | 'D' => some (.double, rest)
    | 'L' =>
      match rest.takeWhile (· != ';'), rest.dropWhile (· != ';') with
      | c :: name, _ :: tail => some (.object (String.ofList (c :: name)), tail)
      | _, _ => none
    | '[' => (read? rest).map fun (element, tail) => (.array element, tail)
    | _ => none

theorem length_dropWhile_le {α : Type} (p : α → Bool) (xs : List α) :
    (xs.dropWhile p).length ≤ xs.length := (List.dropWhile_sublist p).length_le

theorem length_lt_of_read? {cs rest : List Char} {d : Descriptor} (h : read? cs = some (d, rest)) :
    rest.length < cs.length := by
  induction cs generalizing d rest with
  | nil => simp [read?] at h
  | cons c cs ih =>
    unfold read? at h
    split at h
    case h_10 =>
      split at h
      case h_1 hd =>
        have := length_dropWhile_le (· != ';') cs
        simp only [Option.some.injEq, Prod.mk.injEq] at h
        simp only [hd, List.length_cons] at this
        simp only [← h.2, List.length_cons]
        omega
      case h_2 => simp at h
    case h_11 =>
      obtain ⟨⟨e, tail⟩, he, heq⟩ := Option.map_eq_some_iff.1 h
      simp only [Prod.mk.injEq] at heq
      have := ih he
      simp only [← heq.2, List.length_cons]
      omega
    case h_12 => simp at h
    all_goals
      simp only [Option.some.injEq, Prod.mk.injEq] at h
      simp [← h.2]

def parse (text : String) : Except Error Descriptor :=
  match read? text.toList with
  | none => .error (.internal (.malformedDescriptor text))
  | some (d, []) => .ok d
  | some (_, _ :: _) => .error (.internal (.trailingDescriptor text))

def isReference : Descriptor → Bool
  | .object _ | .array _ => true
  | _ => false

end Descriptor

structure MethodDescriptor where
  params : List Descriptor
  returns : Descriptor
  deriving DecidableEq, Repr

namespace MethodDescriptor

def chars (d : MethodDescriptor) : List Char :=
  '(' :: (d.params.flatMap Descriptor.chars ++ ')' :: d.returns.chars)

def text (d : MethodDescriptor) : String := String.ofList d.chars

instance : ToString MethodDescriptor := ⟨text⟩

def readParams? (cs : List Char) : Option (List Descriptor) :=
  match cs with
  | [] => some []
  | c :: cs =>
    match _h : Descriptor.read? (c :: cs) with
    | none => none
    | some (d, rest) => (readParams? rest).map (d :: ·)
termination_by cs.length
decreasing_by exact Descriptor.length_lt_of_read? _h

/-- Reads `(params)returns`; the parameters end at the first closing parenthesis. -/
def parse (text : String) : Except Error MethodDescriptor :=
  match text.toList with
  | '(' :: inner =>
    match inner.dropWhile (· != ')') with
    | _ :: returns =>
      match readParams? (inner.takeWhile (· != ')')) with
      | none => .error (.internal (.malformedDescriptor text))
      | some params => (Descriptor.parse (String.ofList returns)).map (⟨params, ·⟩)
    | [] => .error (.internal (.malformedMethodDescriptor text))
  | _ => .error (.internal (.malformedMethodDescriptor text))

end MethodDescriptor

end NativeBackend
