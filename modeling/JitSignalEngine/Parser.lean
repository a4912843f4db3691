import JitSignalEngine.Lexer
import JitSignalEngine.TypeCheck

/-!
# The parser

`parser.cpp`: recursive descent over the tokens of one line.

* `Parse` — a parser takes tokens from the front and may throw.
* `leftAssociative` — the loop of one precedence level. `parseLogical`, `parseComparison`,
  `parseTerm` and `parseFactor` are this loop with different operators.
* `parseExpr` — expressions. Its argument bounds how deep expressions nest.
* `parseSignalDef`, `parseParamDef` — the definitions a line can hold.
-/

namespace JitSignalEngine

open Fp

/-- What the parser throws. -/
inductive ParseFailure where
  /-- `ParseError` -/
  | error (e : ParseError)
  /-- no error of the source: the bound of the model on loops and nesting -/
  | outOfFuel
  /-- a read past the last token -/
  | outOfTokens
deriving DecidableEq, Repr

variable {D : Type}

/-- A parser: `pos_` stands for the tokens that are left. -/
abbrev Parse (D α : Type) : Type := StateT (List (Token D)) (Except ParseFailure) α

namespace Parse

/-- `Parser::Fail` -/
def fail {α : Type} (message : String) (loc : SourceLoc) : Parse D α := fun _ =>
  .error (.error ⟨message, loc⟩)

/-- The bound is used up. -/
def outOfFuel {α : Type} : Parse D α := fun _ => .error .outOfFuel

/-- `Parser::Peek` -/
def peek : Parse D (Token D)
  | [] => .error .outOfTokens
  | t :: ts => .ok (t, t :: ts)

/-- `++pos_` -/
def advance : Parse D Unit
  | [] => .error .outOfTokens
  | _ :: ts => .ok ((), ts)

/-- `Parser::Consume` -/
def consume (kind : TokenKind) (message : String) : Parse D (Token D) := do
  let t ← peek
  if t.kind = kind then do
    advance
    pure t
  else fail (message ++ " (got: '" ++ t.lexeme ++ "')") t.loc

end Parse

open Parse

/-! ## Operators -/

/-- The operators of `ParseLogical`. -/
def logicalOp : TokenKind → Option BinaryOpKind
  | .and => some .and
  | .or => some .or
  | _ => none

/-- The operators of `ParseComparison`. -/
def comparisonOp : TokenKind → Option BinaryOpKind
  | .gt => some .gt
  | .lt => some .lt
  | .gte => some .gte
  | .lte => some .lte
  | .eq => some .eq
  | .notEq => some .notEq
  | _ => none

/-- The operators of `ParseTerm`. -/
def termOp : TokenKind → Option BinaryOpKind
  | .plus => some .add
  | .minus => some .sub
  | _ => none

/-- The operators of `ParseFactor`. -/
def factorOp : TokenKind → Option BinaryOpKind
  | .star => some .mul
  | .slash => some .div
  | _ => none

/-- The operators of `ParseUnary`. -/
def unaryOpKind : TokenKind → Option UnaryOpKind
  | .plus => some .plus
  | .minus => some .minus
  | _ => none

/-- The loop of a level of left-associative operators, with the expression read so far. -/
def leftAssociative (op : TokenKind → Option BinaryOpKind) (operand : Parse D (Expr D)) :
    Nat → Expr D → Parse D (Expr D)
  | 0, _ => outOfFuel
  | fuel + 1, expr => do
    let t ← peek
    match op t.kind with
    | none => pure expr
    | some kind => do
      advance
      let rhs ← operand
      leftAssociative op operand fuel (.binaryOp t.loc kind expr rhs)

/-! ## Expressions -/

section Levels

variable (nested : Parse D (Expr D)) (fuel : Nat)

/-- The loop of `ParseArgList`: arguments after commas. -/
def parseMoreArgs : Nat → Parse D (List (Expr D))
  | 0 => outOfFuel
  | fuel + 1 => do
    let t ← peek
    if t.kind = .comma then do
      advance
      let a ← nested
      let as ← parseMoreArgs fuel
      pure (a :: as)
    else pure []

/-- `ParseArgList` -/
def parseArgList : Parse D (List (Expr D)) := do
  let t ← peek
  if t.kind = .rParen then pure []
  else do
    let a ← nested
    let as ← parseMoreArgs nested fuel
    pure (a :: as)

/-- The location of an expression in parentheses: its own, if it has one. -/
def withParenLoc (expr : Expr D) (loc : SourceLoc) : Expr D :=
  if expr.loc.line = 0 ∧ expr.loc.col = 0 then expr.withLoc loc else expr

/-- `ParsePrimary` -/
def parsePrimary : Parse D (Expr D) := do
  let t ← peek
  match t.kind with
  | .number => do
    advance
    pure (.numberLiteral t.loc t.numberValue)
  | .identifier => do
    advance
    let next ← peek
    if next.kind = .lParen then do
      advance
      let args ← parseArgList nested fuel
      let _ ← consume .rParen "Expected ')' after function args"
      pure (.functionCall t.loc t.lexeme args (-1) (-1))
    else pure (.identifierExpr t.loc t.lexeme)
  | .lParen => do
    advance
    let expr ← nested
    let _ ← consume .rParen "Expected ')' after expression"
    pure (withParenLoc expr t.loc)
  | _ => fail "Expected expression" t.loc

/-- `ParseUnary` -/
def parseUnary : Nat → Parse D (Expr D)
  | 0 => outOfFuel
  | n + 1 => do
    let t ← peek
    match unaryOpKind t.kind with
    | some kind => do
      advance
      let inner ← parseUnary n
      pure (.unaryOp t.loc kind inner)
    | none => parsePrimary nested fuel

/-- `ParseFactor` -/
def parseFactor : Parse D (Expr D) := do
  let expr ← parseUnary nested fuel fuel
  leftAssociative factorOp (parseUnary nested fuel fuel) fuel expr

/-- `ParseTerm` -/
def parseTerm : Parse D (Expr D) := do
  let expr ← parseFactor nested fuel
  leftAssociative termOp (parseFactor nested fuel) fuel expr

/-- `ParseComparison` -/
def parseComparison : Parse D (Expr D) := do
  let expr ← parseTerm nested fuel
  leftAssociative comparisonOp (parseTerm nested fuel) fuel expr

/-- `ParseLogical` -/
def parseLogical : Parse D (Expr D) := do
  let expr ← parseComparison nested fuel
  leftAssociative logicalOp (parseComparison nested fuel) fuel expr

/-- `ParseConditional` -/
def parseConditional : Parse D (Expr D) := do
  let t ← peek
  if t.kind = .ifWord then do
    advance
    let cond ← nested
    let _ ← consume .thenWord "Expected 'then' in conditional expression"
    let thenExpr ← nested
    let _ ← consume .elseWord "Expected 'else' in conditional expression"
    let elseExpr ← nested
    pure (.conditional t.loc cond thenExpr elseExpr)
  else parseLogical nested fuel

end Levels

/-- `ParseExpr`, for expressions that nest at most `depth` deep; `fuel` bounds the loops. -/
def parseExpr (fuel : Nat) : (depth : Nat) → Parse D (Expr D)
  | 0 => outOfFuel
  | depth + 1 => parseConditional (parseExpr fuel depth) fuel

/-! ## Definitions -/

/-- `ParamDef` -/
structure ParamDef (D : Type) where
  /-- `name` -/
  name : String
  /-- `default_value` -/
  defaultValue : D
  /-- `param_id` -/
  paramId : Int
  /-- `loc` -/
  loc : SourceLoc
deriving DecidableEq

/-- `ParseSignalDef` -/
def parseSignalDef (fuel : Nat) : Parse D (SignalDef D) := do
  let _ ← consume .signal "Expected 'signal' at start of definition"
  let name ← consume .identifier "Expected signal name"
  let _ ← consume .assign "Expected '=' after signal name"
  let body ← parseExpr fuel fuel
  let _ ← consume .endOfFile "Expected end of input"
  pure ⟨name.lexeme, body⟩

/-- `ParseParamDef` -/
def parseParamDef [Fp D] (fuel : Nat) : Parse D (ParamDef D) := do
  let _ ← consume .param "Expected 'param' at start of definition"
  let name ← consume .identifier "Expected parameter name"
  let _ ← consume .assign "Expected '=' after parameter name"
  let body ← parseExpr fuel fuel
  let _ ← consume .endOfFile "Expected end of input"
  match typeCheckSignal ⟨"<param>", body⟩ with
  | .error e => fun _ => .error (.error e)
  | .ok _ =>
    let folded := foldConstants body
    match folded.asNumber with
    | some v => pure ⟨name.lexeme, v, -1, name.loc⟩
    | none =>
      fail "Parameter default must be a numeric literal after constant folding" folded.loc

end JitSignalEngine
