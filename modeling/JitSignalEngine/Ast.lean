import JitSignalEngine.Arithmetic
import Mathlib.Data.List.Basic

/-!
# The syntax tree

The tree the parser builds and every later pass walks (`ast.h`), together with the
passes that only look at its shape: structural equality, cloning, and the size
used to argue that a call never occurs inside its own arguments.

* `Expr D` — expressions over literals in `D`. Function names stay strings, as in
  the source; `Builtin.ofName` is the dispatch on them that the interpreter, the
  emitter and the id allocator share.
* `astEquals` — `AstEquals`: literals by bit pattern, no locations, no ids.
* `Expr.strip` — the part of a tree `astEquals` looks at, so that structural
  equality becomes an equation (`astEquals_iff`).
* `cloneExpr` — `CloneExpr`: a copy with the ids unset.

A `FunctionCall` carries two mutable fields in the source, `node_id` and
`symbol_id`, both `-1` until a setup pass writes them. Here they are fields of the
constructor and a pass that writes them returns a new tree.
-/

namespace JitSignalEngine

/-! ## Expressions -/

/-- `SourceLoc`: where a token stood in the source text. `line = 0` is the
sentinel for nodes that no text stands behind. -/
structure SourceLoc where
  /-- 1-based line -/
  line : Nat := 0
  /-- 1-based column -/
  col : Nat := 0
  /-- length of the lexeme in bytes -/
  length : Nat := 0
deriving DecidableEq, Repr

/-- `BinaryOpKind` -/
inductive BinaryOpKind where
  | add | sub | mul | div | gt | lt | gte | lte | eq | notEq | and | or
deriving DecidableEq, Repr

/-- `UnaryOpKind` -/
inductive UnaryOpKind where
  | plus | minus
deriving DecidableEq, Repr

/-- The expressions of the language. -/
inductive Expr (D : Type) : Type where
  /-- `NumberLiteral` -/
  | numberLiteral (loc : SourceLoc) (value : D)
  /-- `IdentifierExpr`: a ticker in `mid(AAPL)`, elsewhere a signal reference -/
  | identifierExpr (loc : SourceLoc) (name : String)
  /-- `ParameterExpr` -/
  | parameterExpr (loc : SourceLoc) (name : String) (paramId : Int)
  /-- `UnaryOp` -/
  | unaryOp (loc : SourceLoc) (kind : UnaryOpKind) (operand : Expr D)
  /-- `BinaryOp` -/
  | binaryOp (loc : SourceLoc) (kind : BinaryOpKind) (left right : Expr D)
  /-- `FunctionCall`: `nodeId` names the state slot of a stateful call, `symbolId`
  the instrument of a market call; both are `-1` while unset -/
  | functionCall (loc : SourceLoc) (name : String) (args : List (Expr D))
      (nodeId symbolId : Int)
  /-- `Conditional` -/
  | conditional (loc : SourceLoc) (condition thenBranch elseBranch : Expr D)

/-- `SignalDef` -/
structure SignalDef (D : Type) where
  /-- the name other signals refer to -/
  name : String
  /-- the defining expression -/
  body : Expr D

namespace Expr

variable {D : Type}

/-- Induction over expressions: the arguments of a call come with a hypothesis for
each of them. -/
@[elab_as_elim]
theorem induct {P : Expr D → Prop}
    (numberLiteral : ∀ loc v, P (.numberLiteral loc v))
    (identifierExpr : ∀ loc n, P (.identifierExpr loc n))
    (parameterExpr : ∀ loc n i, P (.parameterExpr loc n i))
    (unaryOp : ∀ loc k e, P e → P (.unaryOp loc k e))
    (binaryOp : ∀ loc k l r, P l → P r → P (.binaryOp loc k l r))
    (functionCall : ∀ loc n args nid sid, (∀ a ∈ args, P a) →
      P (.functionCall loc n args nid sid))
    (conditional : ∀ loc c t e, P c → P t → P e → P (.conditional loc c t e))
    (e : Expr D) : P e :=
  Expr.rec (motive_1 := P) (motive_2 := fun as => ∀ a ∈ as, P a)
    numberLiteral identifierExpr parameterExpr unaryOp binaryOp functionCall conditional
    (fun _ h => absurd h List.not_mem_nil)
    (fun _ _ h ih _ ha => (List.mem_cons.mp ha).elim (fun he => he ▸ h) (ih _))
    e

/-- The location of the construct. -/
def loc : Expr D → SourceLoc
  | .numberLiteral loc _ => loc
  | .identifierExpr loc _ => loc
  | .parameterExpr loc _ _ => loc
  | .unaryOp loc _ _ => loc
  | .binaryOp loc _ _ _ => loc
  | .functionCall loc _ _ _ _ => loc
  | .conditional loc _ _ _ => loc

/-- The write `picked->loc = expr->loc`. -/
def withLoc (e : Expr D) (loc : SourceLoc) : Expr D :=
  match e with
  | .numberLiteral _ v => .numberLiteral loc v
  | .identifierExpr _ n => .identifierExpr loc n
  | .parameterExpr _ n i => .parameterExpr loc n i
  | .unaryOp _ k e => .unaryOp loc k e
  | .binaryOp _ k l r => .binaryOp loc k l r
  | .functionCall _ n args nid sid => .functionCall loc n args nid sid
  | .conditional _ c t e => .conditional loc c t e

/-- `dynamic_cast<const NumberLiteral*>`: the value when the node is a literal. -/
def asNumber : Expr D → Option D
  | .numberLiteral _ v => some v
  | _ => none

/-- `dynamic_cast<const IdentifierExpr*>`: the name when the node is an identifier. -/
def asIdentifier : Expr D → Option String
  | .identifierExpr _ n => some n
  | _ => none

mutual

/-- The number of nodes of a tree. -/
def size : Expr D → Nat
  | .numberLiteral _ _ => 1
  | .identifierExpr _ _ => 1
  | .parameterExpr _ _ _ => 1
  | .unaryOp _ _ e => e.size + 1
  | .binaryOp _ _ l r => l.size + r.size + 1
  | .functionCall _ _ args _ _ => sizeArgs args + 1
  | .conditional _ c t e => c.size + t.size + e.size + 1

/-- The number of nodes of an argument list. -/
def sizeArgs : List (Expr D) → Nat
  | [] => 0
  | a :: as => a.size + sizeArgs as

end

theorem size_le_sizeArgs {a : Expr D} {as : List (Expr D)} (h : a ∈ as) :
    a.size ≤ sizeArgs as := by
  induction as with
  | nil => exact absurd h List.not_mem_nil
  | cons b bs ih =>
    rcases List.mem_cons.mp h with rfl | hb
    · exact Nat.le_add_right _ _
    · exact Nat.le_trans (ih hb) (Nat.le_add_left _ _)

mutual

/-- The part of a tree that structural equality looks at: locations and ids are
reset to their defaults. -/
def strip : Expr D → Expr D
  | .numberLiteral _ v => .numberLiteral {} v
  | .identifierExpr _ n => .identifierExpr {} n
  | .parameterExpr _ n i => .parameterExpr {} n i
  | .unaryOp _ k e => .unaryOp {} k e.strip
  | .binaryOp _ k l r => .binaryOp {} k l.strip r.strip
  | .functionCall _ n args _ _ => .functionCall {} n (stripArgs args) (-1) (-1)
  | .conditional _ c t e => .conditional {} c.strip t.strip e.strip

/-- `strip` on an argument list. -/
def stripArgs : List (Expr D) → List (Expr D)
  | [] => []
  | a :: as => a.strip :: stripArgs as

end

@[simp] theorem stripArgs_eq_map (as : List (Expr D)) : stripArgs as = as.map strip := by
  induction as with
  | nil => rfl
  | cons a as ih => rw [stripArgs, ih, List.map_cons]

/-- Stripping keeps every node. -/
theorem size_strip (e : Expr D) : e.strip.size = e.size := by
  induction e using Expr.induct with
  | numberLiteral | identifierExpr | parameterExpr => rfl
  | unaryOp loc k e ih => rw [strip, size, size, ih]
  | binaryOp loc k l r ihl ihr => rw [strip, size, size, ihl, ihr]
  | conditional loc c t e ihc iht ihe => rw [strip, size, size, ihc, iht, ihe]
  | functionCall loc n args nid sid ih =>
    have hargs : ∀ as : List (Expr D), (∀ a ∈ as, a.strip.size = a.size) →
        sizeArgs (stripArgs as) = sizeArgs as := by
      intro as
      induction as with
      | nil => intro _; rfl
      | cons a as iha =>
        intro h
        rw [stripArgs, sizeArgs, sizeArgs, h a List.mem_cons_self,
          iha fun b hb => h b (List.mem_cons_of_mem _ hb)]
    rw [strip, size, size, hargs args ih]

/-- A stripped tree has nothing left to reset. -/
theorem strip_strip (e : Expr D) : e.strip.strip = e.strip := by
  induction e using Expr.induct with
  | numberLiteral | identifierExpr | parameterExpr => rfl
  | unaryOp loc k e ih => rw [strip, strip, ih]
  | binaryOp loc k l r ihl ihr => rw [strip, strip, ihl, ihr]
  | conditional loc c t e ihc iht ihe => rw [strip, strip, ihc, iht, ihe]
  | functionCall loc n args nid sid ih =>
    rw [strip, stripArgs_eq_map, strip, stripArgs_eq_map, List.map_map]
    congr 1
    exact List.map_congr_left ih

end Expr

/-! ## Structural equality and copies -/

section Equality

variable {D : Type} [DecidableEq D]

mutual

/-- `AstEquals`. Literals are compared by bit pattern, which is equality of `D`;
locations, node ids and symbol ids do not take part. -/
def astEquals : Expr D → Expr D → Bool
  | .numberLiteral _ v, .numberLiteral _ w => v = w
  | .identifierExpr _ n, .identifierExpr _ m => n = m
  | .parameterExpr _ n i, .parameterExpr _ m j => n = m && i = j
  | .unaryOp _ k e, .unaryOp _ l f => k = l && astEquals e f
  | .binaryOp _ k l r, .binaryOp _ k' l' r' => k = k' && astEquals l l' && astEquals r r'
  | .conditional _ c t e, .conditional _ c' t' e' =>
      astEquals c c' && astEquals t t' && astEquals e e'
  | .functionCall _ n as _ _, .functionCall _ m bs _ _ => n = m && astEqualsArgs as bs
  | _, _ => false

/-- The argument loop of `AstEquals`, the comparison of the lengths included. -/
def astEqualsArgs : List (Expr D) → List (Expr D) → Bool
  | [], [] => true
  | a :: as, b :: bs => astEquals a b && astEqualsArgs as bs
  | _, _ => false

end

mutual

/-- Structural equality is equality of the stripped trees. -/
theorem astEquals_iff : ∀ a b : Expr D, astEquals a b = true ↔ a.strip = b.strip
  | .numberLiteral _ v, b => by
    cases b <;> simp [astEquals, Expr.strip]
  | .identifierExpr _ n, b => by
    cases b <;> simp [astEquals, Expr.strip]
  | .parameterExpr _ n i, b => by
    cases b <;> simp [astEquals, Expr.strip]
  | .unaryOp _ k e, b => by
    cases b with
    | unaryOp _ l f => simp [astEquals, Expr.strip, astEquals_iff e f]
    | _ => simp [astEquals, Expr.strip]
  | .binaryOp _ k l r, b => by
    cases b with
    | binaryOp _ k' l' r' =>
      simp [astEquals, Expr.strip, astEquals_iff l l', astEquals_iff r r', and_assoc]
    | _ => simp [astEquals, Expr.strip]
  | .conditional _ c t e, b => by
    cases b with
    | conditional _ c' t' e' =>
      simp [astEquals, Expr.strip, astEquals_iff c c', astEquals_iff t t', astEquals_iff e e',
        and_assoc]
    | _ => simp [astEquals, Expr.strip]
  | .functionCall _ n as _ _, b => by
    cases b with
    | functionCall _ m bs _ _ =>
      have h := astEqualsArgs_iff as bs
      simp only [Expr.stripArgs_eq_map] at h
      simp [astEquals, Expr.strip, h]
    | _ => simp [astEquals, Expr.strip]

/-- Structural equality of argument lists is equality of the stripped lists. -/
theorem astEqualsArgs_iff : ∀ as bs : List (Expr D),
    astEqualsArgs as bs = true ↔ Expr.stripArgs as = Expr.stripArgs bs
  | [], [] => by simp [astEqualsArgs]
  | [], _ :: _ => by simp [astEqualsArgs]
  | _ :: _, [] => by simp [astEqualsArgs]
  | a :: as, b :: bs => by
    have h := astEqualsArgs_iff as bs
    simp only [Expr.stripArgs_eq_map] at h
    simp [astEqualsArgs, astEquals_iff a b, h]

end

end Equality

section Clone

variable {D : Type}

mutual

/-- `CloneExpr`: a deep copy that keeps the locations and leaves the ids unset. -/
def cloneExpr : Expr D → Expr D
  | .numberLiteral loc v => .numberLiteral loc v
  | .identifierExpr loc n => .identifierExpr loc n
  | .parameterExpr loc n i => .parameterExpr loc n i
  | .unaryOp loc k e => .unaryOp loc k (cloneExpr e)
  | .binaryOp loc k l r => .binaryOp loc k (cloneExpr l) (cloneExpr r)
  | .conditional loc c t e => .conditional loc (cloneExpr c) (cloneExpr t) (cloneExpr e)
  | .functionCall loc n args _ _ => .functionCall loc n (cloneArgs args) (-1) (-1)

/-- `CloneExpr` on an argument list. -/
def cloneArgs : List (Expr D) → List (Expr D)
  | [] => []
  | a :: as => cloneExpr a :: cloneArgs as

end

end Clone

/-! ## The built-in functions -/

/-- Market reads. -/
inductive MarketFn where
  | mid | bid | ask | spread
deriving DecidableEq, Repr

/-- Stateless functions of one number. -/
inductive MathFn where
  | abs | log | sqrt
deriving DecidableEq, Repr

/-- The operators `IsStatefulOp` lists: each call owns, or shares, a state slot. -/
inductive StatefulFn where
  | ema | emaAlpha | sma | rollingStd | rollingMin | rollingMax | zscore | vwap | lag
  | crossAbove | crossBelow | rollingCorr | rollingBeta | kalman1d
deriving DecidableEq, Repr

/-- A function name the interpreter knows. -/
inductive Builtin where
  /-- reads the market -/
  | market (fn : MarketFn)
  /-- computes from its argument alone -/
  | math (fn : MathFn)
  /-- reads and updates a state slot -/
  | stateful (fn : StatefulFn)
deriving DecidableEq, Repr

/-- The name dispatch of `Interpreter::Visit(const FunctionCall&)`. -/
def Builtin.ofName : String → Option Builtin
  | "mid" => some (.market .mid)
  | "bid" => some (.market .bid)
  | "ask" => some (.market .ask)
  | "spread" => some (.market .spread)
  | "ema" => some (.stateful .ema)
  | "ema_alpha" => some (.stateful .emaAlpha)
  | "sma" => some (.stateful .sma)
  | "rolling_std" => some (.stateful .rollingStd)
  | "zscore" => some (.stateful .zscore)
  | "vwap" => some (.stateful .vwap)
  | "lag" => some (.stateful .lag)
  | "cross_above" => some (.stateful .crossAbove)
  | "cross_below" => some (.stateful .crossBelow)
  | "rolling_min" => some (.stateful .rollingMin)
  | "rolling_max" => some (.stateful .rollingMax)
  | "rolling_corr" => some (.stateful .rollingCorr)
  | "rolling_beta" => some (.stateful .rollingBeta)
  | "kalman1d" => some (.stateful .kalman1d)
  | "abs" => some (.math .abs)
  | "log" => some (.math .log)
  | "sqrt" => some (.math .sqrt)
  | _ => none

/-- `IsStatefulOp` -/
def isStatefulOp (name : String) : Bool :=
  match Builtin.ofName name with
  | some (.stateful _) => true
  | _ => false

/-- The functions whose first argument is a ticker and not an expression. -/
def isTickerFirstArgFn (name : String) : Bool :=
  match Builtin.ofName name with
  | some (.market _) => true
  | some (.stateful .vwap) => true
  | _ => false

example : isStatefulOp "kalman1d" = true ∧ isStatefulOp "mid" = false := by decide

end JitSignalEngine
