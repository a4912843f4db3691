import JitSignalEngine.Exact
import JitSignalEngine.ConstantFold

/-!
# The type checker

`type_check.cpp`: two static types, no coercion. The checker runs on the tree the parser
built, before constants are folded, and nothing checks the folded tree.

* `typeCheckExpr`, `typeCheckSignal` — the checker, with its errors.
* `typeCheckExpr_unaryOp`, … — one inversion lemma per construct.
* `Expr.constant` — the value of an expression built from literals alone.
* `Expr.keepsTruthValues` — no truth value in use is such a constant.
* `typeCheck_foldConstants` — folding keeps the type exactly then.

Folding writes a truth value as the number `1` or `0`. Where the whole condition of a
conditional is constant this goes unnoticed, since the conditional disappears with it.
-/

namespace JitSignalEngine

open Fp

/-- `ParseError`, without the rendering of its text. -/
structure ParseError where
  /-- `msg_` -/
  message : String
  /-- `loc_` -/
  loc : SourceLoc
deriving DecidableEq, Repr

/-- `StaticType` -/
inductive StaticType where
  | number | bool
deriving DecidableEq, Repr

/-- `TypeName` -/
def StaticType.typeName : StaticType → String
  | .number => "number"
  | .bool => "bool"

section Checker

variable {D : Type}

/-- `RequireType` -/
def requireType (expr : Expr D) (actual want : StaticType) (context : String) :
    Except ParseError Unit :=
  if actual = want then .ok ()
  else .error ⟨"type error: " ++ context ++ " requires `" ++ want.typeName ++ "`, got `" ++
    actual.typeName ++ "`", expr.loc⟩

mutual

/-- `TypeCheckExpr` -/
def typeCheckExpr : Expr D → Except ParseError StaticType
  | .numberLiteral _ _ => .ok .number
  | .identifierExpr _ _ => .ok .number
  | .parameterExpr _ _ _ => .ok .number
  | .unaryOp _ _ operand => do
    let inner ← typeCheckExpr operand
    requireType operand inner .number "unary +/-"
    .ok .number
  | .binaryOp _ kind left right => do
    let lt ← typeCheckExpr left
    let rt ← typeCheckExpr right
    match kind with
    | .add | .sub | .mul | .div =>
      requireType left lt .number "arithmetic operator"
      requireType right rt .number "arithmetic operator"
      .ok .number
    | .gt | .lt | .gte | .lte | .eq | .notEq =>
      requireType left lt .number "comparison operator"
      requireType right rt .number "comparison operator"
      .ok .bool
    | .and | .or =>
      requireType left lt .bool "logical && / ||"
      requireType right rt .bool "logical && / ||"
      .ok .bool
  | .conditional _ condition thenBranch elseBranch => do
    let ct ← typeCheckExpr condition
    requireType condition ct .bool "if-condition"
    let tt ← typeCheckExpr thenBranch
    let et ← typeCheckExpr elseBranch
    requireType thenBranch tt .number "then-branch"
    requireType elseBranch et .number "else-branch"
    .ok .number
  | .functionCall _ name args _ _ => do
    if isTickerFirstArgFn name then typeCheckTicker name args else typeCheckArgs args
    .ok .number

/-- The argument loop of `TypeCheckExpr`. -/
def typeCheckArgs : List (Expr D) → Except ParseError Unit
  | [] => .ok ()
  | a :: as => do
    let at' ← typeCheckExpr a
    requireType a at' .number "function-call argument"
    typeCheckArgs as

/-- The argument loop where the first argument is a ticker. -/
def typeCheckTicker (name : String) : List (Expr D) → Except ParseError Unit
  | [] => .ok ()
  | a :: as =>
    match a.asIdentifier with
    | some _ => typeCheckArgs as
    | none => .error ⟨name ++ "() first argument must be a ticker identifier", a.loc⟩

end

/-- `TypeCheckSignal` -/
def typeCheckSignal (signal : SignalDef D) : Except ParseError Unit := do
  let bt ← typeCheckExpr signal.body
  if bt = .number then .ok ()
  else .error ⟨"type error: signal `" ++ signal.name ++ "` body must be `number`, but evaluates " ++
    "to `bool` (wrap it in an if/then/else or use 1.0/0.0)", signal.body.loc⟩

/-- The type an operator asks of its operands. -/
def BinaryOpKind.operandType : BinaryOpKind → StaticType
  | .and | .or => .bool
  | _ => .number

/-- The type of what an operator computes. -/
def BinaryOpKind.resultType : BinaryOpKind → StaticType
  | .add | .sub | .mul | .div => .number
  | _ => .bool

/-! ## What is accepted -/

theorem requireType_ok {expr : Expr D} {actual want : StaticType} {context : String} {u : Unit} :
    requireType expr actual want context = .ok u ↔ actual = want := by
  unfold requireType
  by_cases h : actual = want
  · simp [h]
  · simp [h]

/-- The bind of an accepted check. -/
theorem except_bind_ok {ε α β : Type} {m : Except ε α} {f : α → Except ε β} {b : β} :
    (m >>= f) = .ok b ↔ ∃ a, m = .ok a ∧ f a = .ok b := by
  cases m with
  | error e =>
    constructor
    · intro h
      cases h
    · rintro ⟨_, h, _⟩
      cases h
  | ok a =>
    constructor
    · intro h
      exact ⟨a, rfl, h⟩
    · rintro ⟨_, heq, h⟩
      cases heq
      exact h

theorem typeCheckExpr_unaryOp {loc : SourceLoc} {k : UnaryOpKind} {e : Expr D} {T : StaticType} :
    typeCheckExpr (.unaryOp loc k e) = .ok T ↔ typeCheckExpr e = .ok .number ∧ T = .number := by
  simp only [typeCheckExpr, except_bind_ok, requireType_ok, Except.ok.injEq]
  constructor
  · rintro ⟨_, h, -, rfl, rfl⟩
    exact ⟨h, rfl⟩
  · rintro ⟨h, rfl⟩
    exact ⟨_, h, (), rfl, rfl⟩

theorem typeCheckExpr_binaryOp {loc : SourceLoc} {k : BinaryOpKind} {l r : Expr D}
    {T : StaticType} :
    typeCheckExpr (.binaryOp loc k l r) = .ok T ↔ typeCheckExpr l = .ok k.operandType ∧
      typeCheckExpr r = .ok k.operandType ∧ T = k.resultType := by
  have hdone : ∀ {want res lt rt : StaticType} {context : String},
      (do requireType l lt want context
          requireType r rt want context
          Except.ok res : Except ParseError StaticType) = .ok T ↔
        lt = want ∧ rt = want ∧ T = res := by
    intro want res lt rt context
    simp only [except_bind_ok, requireType_ok, Except.ok.injEq]
    exact ⟨fun ⟨_, hl, _, hr, h⟩ => ⟨hl, hr, h.symm⟩,
      fun ⟨hl, hr, h⟩ => ⟨(), hl, (), hr, h.symm⟩⟩
  cases k <;> simp only [typeCheckExpr, except_bind_ok (α := StaticType), hdone,
    BinaryOpKind.operandType, BinaryOpKind.resultType]
  all_goals
    constructor
    · rintro ⟨_, hl, _, hr, rfl, rfl, hT⟩
      exact ⟨hl, hr, hT⟩
    · rintro ⟨hl, hr, hT⟩
      exact ⟨_, hl, _, hr, rfl, rfl, hT⟩

theorem typeCheckExpr_conditional {loc : SourceLoc} {c t e : Expr D} {T : StaticType} :
    typeCheckExpr (.conditional loc c t e) = .ok T ↔ typeCheckExpr c = .ok .bool ∧
      typeCheckExpr t = .ok .number ∧ typeCheckExpr e = .ok .number ∧ T = .number := by
  simp only [typeCheckExpr, except_bind_ok, requireType_ok, Except.ok.injEq]
  constructor
  · rintro ⟨_, hc, -, rfl, _, ht, _, he, -, rfl, -, rfl, rfl⟩
    exact ⟨hc, ht, he, rfl⟩
  · rintro ⟨hc, ht, he, rfl⟩
    exact ⟨_, hc, (), rfl, _, ht, _, he, (), rfl, (), rfl, rfl⟩

theorem typeCheckArgs_ok {args : List (Expr D)} {u : Unit} :
    typeCheckArgs args = .ok u ↔ ∀ a ∈ args, typeCheckExpr a = .ok .number := by
  induction args with
  | nil => simp [typeCheckArgs]
  | cons a as ih =>
    simp only [typeCheckArgs, except_bind_ok, requireType_ok, ih, List.mem_cons,
      forall_eq_or_imp]
    constructor
    · rintro ⟨_, ha, -, rfl, has⟩
      exact ⟨ha, has⟩
    · rintro ⟨ha, has⟩
      exact ⟨_, ha, (), rfl, has⟩

theorem typeCheckTicker_ok {name : String} {args : List (Expr D)} {u : Unit} :
    typeCheckTicker name args = .ok u ↔ (∀ a ∈ args.head?, a.asIdentifier ≠ none) ∧
      ∀ a ∈ args.tail, typeCheckExpr a = .ok .number := by
  cases args with
  | nil => simp [typeCheckTicker]
  | cons a as =>
    rw [typeCheckTicker]
    cases h : a.asIdentifier with
    | none => simp [h]
    | some ticker => simp [h, typeCheckArgs_ok]

theorem typeCheckExpr_functionCall {loc : SourceLoc} {name : String} {args : List (Expr D)}
    {nid sid : Int} {T : StaticType} :
    typeCheckExpr (.functionCall loc name args nid sid) = .ok T ↔
      (if isTickerFirstArgFn name then typeCheckTicker name args else typeCheckArgs args) = .ok () ∧
        T = .number := by
  rw [typeCheckExpr]
  by_cases h : isTickerFirstArgFn name = true
  · rw [if_pos h, if_pos h, except_bind_ok]
    exact ⟨fun ⟨_, ha, hT⟩ => ⟨ha, (Except.ok.inj hT).symm⟩, fun ⟨ha, hT⟩ => ⟨(), ha, hT ▸ rfl⟩⟩
  · rw [if_neg h, if_neg h, except_bind_ok]
    exact ⟨fun ⟨_, ha, hT⟩ => ⟨ha, (Except.ok.inj hT).symm⟩, fun ⟨ha, hT⟩ => ⟨(), ha, hT ▸ rfl⟩⟩

/-- The location of a tree does not matter for its type. -/
theorem typeCheckExpr_withLoc (e : Expr D) (loc : SourceLoc) (T : StaticType) :
    typeCheckExpr (e.withLoc loc) = .ok T ↔ typeCheckExpr e = .ok T := by
  cases e with
  | numberLiteral | identifierExpr | parameterExpr => exact .rfl
  | unaryOp => simp only [Expr.withLoc, typeCheckExpr_unaryOp]
  | binaryOp => simp only [Expr.withLoc, typeCheckExpr_binaryOp]
  | conditional => simp only [Expr.withLoc, typeCheckExpr_conditional]
  | functionCall => simp only [Expr.withLoc, typeCheckExpr_functionCall]

end Checker

/-! ## Constants -/

section Fold

variable {D : Type} [Fp D]

/-- The value of an expression built from literals alone. Of a conditional only the
condition and the branch it picks have to be. -/
def Expr.constant : Expr D → Option D
  | .numberLiteral _ v => some v
  | .identifierExpr _ _ => none
  | .parameterExpr _ _ _ => none
  | .unaryOp _ k e => e.constant.map k.apply
  | .binaryOp _ k l r =>
    match l.constant, r.constant with
    | some v, some w => some (k.fold v w)
    | _, _ => none
  | .conditional _ c t e =>
    match c.constant with
    | some v => if truthy v then t.constant else e.constant
    | none => none
  | .functionCall _ _ _ _ _ => none

/-- Constants are what is folded into a literal. -/
theorem asNumber_foldConstants (e : Expr D) : (foldConstants e).asNumber = e.constant := by
  induction e using Expr.induct with
  | numberLiteral | identifierExpr | parameterExpr | functionCall => rfl
  | unaryOp loc k e ih =>
    simp only [foldConstants, ih, Expr.constant]
    cases e.constant <;> rfl
  | binaryOp loc k l r ihl ihr =>
    simp only [foldConstants, ihl, ihr, Expr.constant]
    cases l.constant <;> cases r.constant <;> rfl
  | conditional loc c t e ihc iht ihe =>
    have hloc : ∀ e : Expr D, (e.withLoc loc).asNumber = e.asNumber := fun e => by cases e <;> rfl
    simp only [foldConstants, ihc, Expr.constant]
    cases c.constant with
    | none => rfl
    | some v =>
      by_cases hv : truthy v = true
      · simp only [if_pos hv, hloc, iht]
      · simp only [if_neg hv, hloc, ihe]

mutual

/-- Whether no comparison and no logical operator is constant, unless a conditional is
folded away with it: in the condition that decides it or in the branch it drops. -/
def Expr.keepsTruthValues : Expr D → Bool
  | .numberLiteral _ _ => true
  | .identifierExpr _ _ => true
  | .parameterExpr _ _ _ => true
  | .unaryOp _ _ e => e.keepsTruthValues
  | .binaryOp _ k l r => l.keepsTruthValues && r.keepsTruthValues &&
    (k.resultType = .number || l.constant.isNone || r.constant.isNone)
  | .conditional _ c t e =>
    match c.constant with
    | some v => if truthy v then t.keepsTruthValues else e.keepsTruthValues
    | none => c.keepsTruthValues && t.keepsTruthValues && e.keepsTruthValues
  | .functionCall _ _ args _ _ => keepsTruthValuesArgs args

/-- `Expr.keepsTruthValues` for an argument list. -/
def Expr.keepsTruthValuesArgs : List (Expr D) → Bool
  | [] => true
  | a :: as => a.keepsTruthValues && keepsTruthValuesArgs as

end

theorem Expr.keepsTruthValuesArgs_iff {as : List (Expr D)} :
    keepsTruthValuesArgs as = true ↔ ∀ a ∈ as, a.keepsTruthValues = true := by
  induction as with
  | nil => simp [keepsTruthValuesArgs]
  | cons a as ih => simp [keepsTruthValuesArgs, ih]

/-- A folded literal is a number, whatever it was before. -/
theorem typeCheckExpr_of_constant {e : Expr D} {v : D} (h : e.constant = some v) :
    typeCheckExpr (foldConstants e) = .ok .number := by
  rw [← asNumber_foldConstants] at h
  cases hf : foldConstants e with
  | numberLiteral => rfl
  | _ =>
    rw [hf] at h
    cases h

/-- An operator one side of which is no constant stays an operator. -/
theorem foldConstants_binaryOp {loc : SourceLoc} {k : BinaryOpKind} {l r : Expr D}
    (h : l.constant = none ∨ r.constant = none) :
    foldConstants (.binaryOp loc k l r) =
      .binaryOp loc k (foldConstants l) (foldConstants r) := by
  simp only [foldConstants, asNumber_foldConstants]
  rcases h with h | h
  · rw [h]
  · rw [h]
    cases l.constant <;> rfl

/-- **Folding keeps the type** of an accepted expression exactly when no truth value that
stays in use is constant. -/
theorem typeCheck_foldConstants (e : Expr D) (T : StaticType) (h : typeCheckExpr e = .ok T) :
    typeCheckExpr (foldConstants e) = .ok T ↔ e.keepsTruthValues = true := by
  induction e using Expr.induct generalizing T with
  | numberLiteral | identifierExpr | parameterExpr => exact ⟨fun _ => rfl, fun _ => h⟩
  | unaryOp loc k e ih =>
    obtain ⟨he, rfl⟩ := typeCheckExpr_unaryOp.mp h
    rw [Expr.keepsTruthValues, ← ih _ he]
    cases hc : e.constant with
    | some v =>
      -- the sign of a literal disappears into it
      have hc' : (Expr.unaryOp loc k e).constant = some (k.apply v) := by rw [Expr.constant, hc]; rfl
      exact ⟨fun _ => typeCheckExpr_of_constant hc, fun _ => typeCheckExpr_of_constant hc'⟩
    | none =>
      simp only [foldConstants, asNumber_foldConstants, hc, typeCheckExpr_unaryOp, and_true]
  | binaryOp loc k l r ihl ihr =>
    obtain ⟨hl, hr, rfl⟩ := typeCheckExpr_binaryOp.mp h
    simp only [Expr.keepsTruthValues, Bool.and_eq_true, ← ihl _ hl, ← ihr _ hr]
    by_cases hc : l.constant = none ∨ r.constant = none
    · rw [foldConstants_binaryOp hc, typeCheckExpr_binaryOp]
      simp only [← Option.isNone_iff_eq_none] at hc
      simp only [Bool.or_eq_true, hc, or_assoc, or_true, and_true]
    · -- both sides are constants: the result is a number
      obtain ⟨⟨v, hv⟩, ⟨w, hw⟩⟩ : (∃ v, l.constant = some v) ∧ ∃ w, r.constant = some w := by
        simpa [not_or, Option.ne_none_iff_exists'] using hc
      have hlr : (Expr.binaryOp loc k l r).constant = some (k.fold v w) := by
        rw [Expr.constant, hv, hw]
      rw [typeCheckExpr_of_constant hlr, typeCheckExpr_of_constant hv,
        typeCheckExpr_of_constant hw, hv, hw]
      cases k <;> simp [BinaryOpKind.operandType, BinaryOpKind.resultType]
  | conditional loc c t e ihc iht ihe =>
    obtain ⟨hc, ht, he, rfl⟩ := typeCheckExpr_conditional.mp h
    simp only [foldConstants, asNumber_foldConstants, Expr.keepsTruthValues]
    cases hcc : c.constant with
    | none =>
      simp only [typeCheckExpr_conditional, ihc _ hc, iht _ ht, ihe _ he, Bool.and_eq_true,
        and_true, and_assoc]
    | some v =>
      by_cases hv : truthy v = true
      · simp only [if_pos hv, typeCheckExpr_withLoc, iht _ ht]
      · simp only [if_neg hv, typeCheckExpr_withLoc, ihe _ he]
  | functionCall loc n args nid sid ih =>
    obtain ⟨hargs, rfl⟩ := typeCheckExpr_functionCall.mp h
    simp only [foldConstants, foldArgs_eq_map, Expr.keepsTruthValues, Expr.keepsTruthValuesArgs_iff,
      typeCheckExpr_functionCall, and_true]
    by_cases hn : isTickerFirstArgFn n = true
    · rw [if_pos hn, typeCheckTicker_ok] at hargs
      rw [if_pos hn, typeCheckTicker_ok]
      cases args with
      | nil => simp
      | cons a as =>
        -- the ticker is not folded
        obtain ⟨htick, has⟩ := hargs
        have hid : ∃ loc n, a = .identifierExpr loc n := by
          cases a with
          | identifierExpr loc n => exact ⟨loc, n, rfl⟩
          | _ => exact absurd rfl (htick _ rfl)
        obtain ⟨loc', m, rfl⟩ := hid
        have hrest : (∀ a ∈ as, typeCheckExpr (foldConstants a) = .ok .number) ↔
            ∀ a ∈ as, a.keepsTruthValues = true :=
          forall₂_congr fun a ha => ih a (List.mem_cons_of_mem _ ha) _ (has a ha)
        simpa [foldConstants, Expr.asIdentifier, Expr.keepsTruthValues] using hrest
    · rw [if_neg hn, typeCheckArgs_ok] at hargs
      rw [if_neg hn, typeCheckArgs_ok]
      simp only [List.forall_mem_map]
      exact forall₂_congr fun a ha => ih a ha _ (hargs a ha)

end Fold

/-! ## A constant operand of a logical operator -/

section Constant

open Concrete

/-- `if 1 > 0 && mid(A) > 5 then 1 else 0` -/
def constantGuard : Expr (Exact ℚ) :=
  ifThenElse (.binaryOp {} .and (gt (num 1) (num 0)) (gt (mid "A") (num 5))) (num 1) (num 0)

/-- `if mid(A) > 2 + 3 then 1 else 0` -/
def variableGuard : Expr (Exact ℚ) :=
  ifThenElse (gt (mid "A") (plus (num 2) (num 3))) (num 1) (num 0)

theorem typeCheck_foldConstants_variableGuard :
    typeCheckExpr (foldConstants variableGuard) = .ok .number :=
  (typeCheck_foldConstants variableGuard .number (by decide +kernel)).mpr (by decide +kernel)

/-- **The checker can reject a folded body**: half of a condition has become a number. -/
theorem typeCheck_rejects_folded :
    typeCheckExpr constantGuard = .ok .number ∧
      typeCheckExpr (foldConstants constantGuard) =
        .error ⟨"type error: logical && / || requires `bool`, got `number`", {}⟩ := by
  constructor <;> decide +kernel

end Constant

end JitSignalEngine
