import DeclTree.Tree

namespace DeclTree

def leadingInteger (text : String) : Int64 :=
  ((text.toList.dropWhile fun c => !c.isDigit).takeWhile Char.isDigit).foldl
    (fun value c => value * 10 + Int64.ofNat (c.toNat - '0'.toNat)) 0

def truth (b : Bool) : Int64 := if b then 1 else 0

def UnaryOp.apply : UnaryOp → Int64 → Int64
  | .invalid, _ => 0
  | .negate, x => -x
  | .not, x => truth (x = 0)
  | .bitNot, x => ~~~x

def shift (operation : Int64 → Int64 → Int64) (x amount : Int64) : Int64 :=
  if 0 ≤ amount ∧ amount < 64 then operation x amount else 0

def BinaryOp.apply : BinaryOp → Int64 → Int64 → Int64
  | .invalid, _, _ => 0
  | .add, x, y => x + y
  | .sub, x, y => x - y
  | .mul, x, y => x * y
  | .div, x, y => if y = 0 then 0 else x / y
  | .mod, x, y => if y = 0 then 0 else x % y
  | .shl, x, y => shift (· <<< ·) x y
  | .shr, x, y => shift (· >>> ·) x y
  | .bitAnd, x, y => x &&& y
  | .bitOr, x, y => x ||| y
  | .and, x, y => truth (x ≠ 0 ∧ y ≠ 0)
  | .or, x, y => truth (x ≠ 0 ∨ y ≠ 0)

namespace Tree

def valueWithin (tree : Tree) : (fuel : Nat) → NodeId → Except Fault Int64
  | 0, _ => .error .endless
  | fuel + 1, id => do
    let node ← tree.node id
    match node.payload with
    | .numericConstant => return leadingInteger node.name
    | .unary op operand => return op.apply (← tree.valueWithin fuel operand)
    | .binary op left right =>
      let x ← tree.valueWithin fuel left
      let y ← tree.valueWithin fuel right
      return op.apply x y
    | _ => return 0

/-- The value of an expression. Any node that is neither a number nor an operator is zero. A path
without a cycle passes each node once and may end at a missing one, which bounds its length. -/
def value (tree : Tree) (id : NodeId) : Except Fault Int64 := tree.valueWithin (tree.size + 1) id

end Tree

end DeclTree
