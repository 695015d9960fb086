namespace DeclTree

inductive UnaryOp
  | invalid
  | negate
  | not
  | bitNot
  deriving DecidableEq

inductive BinaryOp
  | invalid
  | add
  | sub
  | mul
  | div
  | mod
  | shl
  | shr
  | bitAnd
  | bitOr
  | and
  | or
  deriving DecidableEq

namespace UnaryOp

def spelling : UnaryOp → String
  | .invalid => "(invalid)"
  | .negate => "-"
  | .not => "!"
  | .bitNot => "~"

theorem spelling_subset (op : UnaryOp) : op.spelling.toList ⊆ "(invalid)-!~".toList := by
  cases op <;> decide

end UnaryOp

namespace BinaryOp

def spelling : BinaryOp → String
  | .invalid => "(invalid)"
  | .add => "+"
  | .sub => "-"
  | .mul => "*"
  | .div => "/"
  | .mod => "%"
  | .shl => "<<"
  | .shr => ">>"
  | .bitAnd => "&"
  | .bitOr => "|"
  | .and => "&&"
  | .or => "||"

theorem spelling_injective {a b : BinaryOp} (h : a.spelling = b.spelling) : a = b := by
  cases a <;> cases b <;> simp_all [spelling]

theorem spelling_subset (op : BinaryOp) : op.spelling.toList ⊆ "(invalid)+-*/%<>&|".toList := by
  cases op <;> decide

end BinaryOp

end DeclTree
