import NativeBackend.Graph.Node
import NativeBackend.Text.Record

namespace NativeBackend

def nodeText (n : NodeId) : String := s!"NodeId({n})"

def blockText (b : BlockId) : String := s!"BlockId({b})"

def BinaryOp.text : BinaryOp → String
  | .add => "Add"
  | .sub => "Sub"
  | .mul => "Mul"
  | .div => "Div"
  | .rem => "Rem"
  | .and => "And"
  | .or => "Or"
  | .xor => "Xor"
  | .shl => "Shl"
  | .shr => "Shr"

def WriteMode.text : WriteMode → String
  | .plain => "Plain"
  | .opaqueWrite => "Opaque"
  | .release => "Release"
  | .volatile => "Volatile"

def ActionNode.text : ActionNode → String
  | .blockEntry block => "BlockEntry(" ++ blockText block ++ ")"
  | .store pointer value mode dependency =>
    recordText "Store" [("pointer", nodeText pointer), ("value", nodeText value), ("mode", mode.text),
      ("dependency", nodeText dependency)]
  | .monitorEnter object dependency =>
    recordText "MonitorEnter" [("object", nodeText object), ("dependency", nodeText dependency)]
  | .monitorExit object dependency =>
    recordText "MonitorExit" [("object", nodeText object), ("dependency", nodeText dependency)]

def TerminatorNode.text : TerminatorNode → String
  | .goto target dependency =>
    recordText "Goto" [("target", blockText target), ("dependency", nodeText dependency)]
  | .branch cond ifTrue ifFalse dependency =>
    recordText "If" [("cond", nodeText cond), ("if_true", blockText ifTrue),
      ("if_false", blockText ifFalse), ("dependency", nodeText dependency)]
  | .ret value dependency =>
    recordText "Return" [("value", optionText (value.map nodeText)), ("dependency", nodeText dependency)]
  | .unreachable dependency => recordText "Unreachable" [("dependency", nodeText dependency)]
  | .throw value handler dependency =>
    recordText "Throw" [("value", nodeText value), ("handler", optionText (handler.map blockText)),
      ("dependency", nodeText dependency)]

def NodeKind.text : NodeKind → String
  | .value v => "Value(" ++ v.type.text ++ ")"
  | .action a => "Action(" ++ a.text ++ ")"
  | .terminator t => "Terminator(" ++ t.text ++ ")"

end NativeBackend
