import JitSignalEngine.Interpreter

/-!
# Constant folding

`constant_fold.cpp`: a bottom-up rewrite that the parser runs on every signal before
ids are allocated. Operators on literals become literals, a conditional with a
literal condition becomes the branch it picks, calls are kept and only their
arguments are folded.
-/

namespace JitSignalEngine

open Fp

variable {D : Type} [Fp D]

/-- The switch of `FoldConstants` on two literals. Unlike the runtime it compares
exactly: `==` and `!=` know no tolerance here. -/
def BinaryOpKind.fold (kind : BinaryOpKind) (l r : D) : D :=
  match kind with
  | .add => Fp.add l r
  | .sub => Fp.sub l r
  | .mul => Fp.mul l r
  | .div => Fp.div l r
  | .gt => ofBool (Fp.lt r l)
  | .lt => ofBool (Fp.lt l r)
  | .gte => ofBool (le r l)
  | .lte => ofBool (le l r)
  | .eq => ofBool (Fp.eq l r)
  | .notEq => ofBool (ne l r)
  | .and => ofBool (truthy l && truthy r)
  | .or => ofBool (truthy l || truthy r)

mutual

/-- `FoldConstants` -/
def foldConstants : Expr D → Expr D
  | .numberLiteral loc v => .numberLiteral loc v
  | .identifierExpr loc n => .identifierExpr loc n
  | .parameterExpr loc n i => .parameterExpr loc n i
  | .unaryOp loc kind operand =>
    let operand := foldConstants operand
    match operand.asNumber with
    | some v => .numberLiteral loc (kind.apply v)
    | none => .unaryOp loc kind operand
  | .binaryOp loc kind left right =>
    let left := foldConstants left
    let right := foldConstants right
    match left.asNumber, right.asNumber with
    | some l, some r => .numberLiteral loc (kind.fold l r)
    | _, _ => .binaryOp loc kind left right
  | .conditional loc condition thenBranch elseBranch =>
    let condition := foldConstants condition
    let thenBranch := foldConstants thenBranch
    let elseBranch := foldConstants elseBranch
    match condition.asNumber with
    | some v => (if truthy v then thenBranch else elseBranch).withLoc loc
    | none => .conditional loc condition thenBranch elseBranch
  | .functionCall loc n args nid sid => .functionCall loc n (foldArgs args) nid sid

/-- The argument loop of `FoldConstants`. -/
def foldArgs : List (Expr D) → List (Expr D)
  | [] => []
  | a :: as => foldConstants a :: foldArgs as

end

theorem foldArgs_eq_map (as : List (Expr D)) : foldArgs as = as.map foldConstants := by
  induction as with
  | nil => rfl
  | cons a as ih => rw [foldArgs, ih, List.map_cons]

end JitSignalEngine
