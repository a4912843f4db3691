import JitSignalEngine.CallShape

/-!
# The calls of an expression

Most facts about ids are facts about all calls of a body, nested ones included.

* `Expr.calls` — the calls of a tree, a call before the calls in its arguments.
* `Expr.outline` — the tree without locations and symbol ids, but with its node ids:
  two occurrences with the same outline name the same slots throughout.
* `Call.SymbolOk` — what `BindSymbolIds` leaves behind, and what lets the shape of a
  call be read off without the symbol id (`decodeCall_symbolOk`).
-/

namespace JitSignalEngine

open Fp

variable {D : Type}

/-! ## Calls -/

/-- A `FunctionCall` node. -/
structure Call (D : Type) where
  /-- the function -/
  name : String
  /-- the arguments -/
  args : List (Expr D)
  /-- `node_id` -/
  nodeId : Int
  /-- `symbol_id` -/
  symbolId : Int

namespace Expr

mutual

/-- The calls of an expression, outermost first. -/
def calls : Expr D → List (Call D)
  | .numberLiteral _ _ => []
  | .identifierExpr _ _ => []
  | .parameterExpr _ _ _ => []
  | .unaryOp _ _ e => e.calls
  | .binaryOp _ _ l r => l.calls ++ r.calls
  | .functionCall _ n args nid sid => ⟨n, args, nid, sid⟩ :: callsArgs args
  | .conditional _ c t e => c.calls ++ t.calls ++ e.calls

/-- The calls of an argument list. -/
def callsArgs : List (Expr D) → List (Call D)
  | [] => []
  | a :: as => a.calls ++ callsArgs as

end

theorem mem_callsArgs {c : Call D} {as : List (Expr D)} :
    c ∈ callsArgs as ↔ ∃ a ∈ as, c ∈ a.calls := by
  induction as with
  | nil => simp [callsArgs]
  | cons a as ih => simp [callsArgs, ih]

/-- A call is smaller than the tree it occurs in, or is the tree. -/
theorem sizeArgs_lt_of_mem_calls {c : Call D} (e : Expr D) (h : c ∈ e.calls) :
    sizeArgs c.args < e.size := by
  induction e using Expr.induct with
  | numberLiteral | identifierExpr | parameterExpr => exact absurd h List.not_mem_nil
  | unaryOp loc k e ih => exact Nat.lt_succ_of_lt (ih h)
  | binaryOp loc k l r ihl ihr =>
    rw [size]
    rcases List.mem_append.mp h with h | h
    · have := ihl h; omega
    · have := ihr h; omega
  | conditional loc c t e ihc iht ihe =>
    rw [size]
    rcases List.mem_append.mp h with h | h
    · rcases List.mem_append.mp h with h | h
      · have := ihc h; omega
      · have := iht h; omega
    · have := ihe h; omega
  | functionCall loc n args nid sid ih =>
    rw [size]
    rcases List.mem_cons.mp h with rfl | h
    · exact Nat.lt_succ_self _
    · obtain ⟨a, ha, hc⟩ := mem_callsArgs.mp h
      have := ih a ha hc
      have := size_le_sizeArgs ha
      omega

/-- The calls inside a call of a tree are calls of the tree. -/
theorem callsArgs_subset {c d : Call D} (e : Expr D) (h : c ∈ e.calls)
    (hd : d ∈ callsArgs c.args) : d ∈ e.calls := by
  induction e using Expr.induct with
  | numberLiteral | identifierExpr | parameterExpr => exact absurd h List.not_mem_nil
  | unaryOp loc k e ih => exact ih h
  | binaryOp loc k l r ihl ihr =>
    rcases List.mem_append.mp h with h | h
    · exact List.mem_append_left _ (ihl h)
    · exact List.mem_append_right _ (ihr h)
  | conditional loc c t e ihc iht ihe =>
    rcases List.mem_append.mp h with h | h
    · rcases List.mem_append.mp h with h | h
      · exact List.mem_append_left _ (List.mem_append_left _ (ihc h))
      · exact List.mem_append_left _ (List.mem_append_right _ (iht h))
    · exact List.mem_append_right _ (ihe h)
  | functionCall loc n args nid sid ih =>
    rcases List.mem_cons.mp h with rfl | h
    · exact List.mem_cons_of_mem _ hd
    · obtain ⟨a, ha, hc⟩ := mem_callsArgs.mp h
      exact List.mem_cons_of_mem _ (mem_callsArgs.mpr ⟨a, ha, ih a ha hc⟩)

/-! ## Outlines -/

mutual

/-- The tree with its node ids, but without locations and symbol ids. -/
def outline : Expr D → Expr D
  | .numberLiteral _ v => .numberLiteral {} v
  | .identifierExpr _ n => .identifierExpr {} n
  | .parameterExpr _ n i => .parameterExpr {} n i
  | .unaryOp _ k e => .unaryOp {} k e.outline
  | .binaryOp _ k l r => .binaryOp {} k l.outline r.outline
  | .functionCall _ n args nid _ => .functionCall {} n (outlineArgs args) nid (-1)
  | .conditional _ c t e => .conditional {} c.outline t.outline e.outline

/-- `outline` on an argument list. -/
def outlineArgs : List (Expr D) → List (Expr D)
  | [] => []
  | a :: as => a.outline :: outlineArgs as

end

@[simp] theorem outlineArgs_eq_map (as : List (Expr D)) : outlineArgs as = as.map outline := by
  induction as with
  | nil => rfl
  | cons a as ih => rw [outlineArgs, ih, List.map_cons]

/-- An outline has nothing left to erase. -/
theorem outline_outline (e : Expr D) : e.outline.outline = e.outline := by
  induction e using Expr.induct with
  | numberLiteral | identifierExpr | parameterExpr => rfl
  | unaryOp loc k e ih => rw [outline, outline, ih]
  | binaryOp loc k l r ihl ihr => rw [outline, outline, ihl, ihr]
  | conditional loc c t e ihc iht ihe => rw [outline, outline, ihc, iht, ihe]
  | functionCall loc n args nid sid ih =>
    rw [outline, outlineArgs_eq_map, outline, outlineArgs_eq_map, List.map_map]
    congr 1
    exact List.map_congr_left ih

end Expr

/-- The outline of a call. -/
def Call.outline (c : Call D) : Call D := ⟨c.name, c.args.map Expr.outline, c.nodeId, -1⟩

namespace Expr

/-- The calls of an outline are the outlines of the calls. -/
theorem calls_outline (e : Expr D) : e.outline.calls = e.calls.map Call.outline := by
  induction e using Expr.induct with
  | numberLiteral | identifierExpr | parameterExpr => rfl
  | unaryOp loc k e ih => exact ih
  | binaryOp loc k l r ihl ihr => rw [outline, calls, calls, ihl, ihr, List.map_append]
  | conditional loc c t e ihc iht ihe =>
    rw [outline, calls, calls, ihc, iht, ihe, List.map_append, List.map_append]
  | functionCall loc n args nid sid ih =>
    have hargs : ∀ as : List (Expr D), (∀ a ∈ as, a.outline.calls = a.calls.map Call.outline) →
        callsArgs (as.map outline) = (callsArgs as).map Call.outline := by
      intro as
      induction as with
      | nil => intro _; rfl
      | cons a as iha =>
        intro h
        rw [List.map_cons, callsArgs, callsArgs, h a List.mem_cons_self,
          iha fun b hb => h b (List.mem_cons_of_mem _ hb), List.map_append]
    rw [outline, outlineArgs_eq_map, calls, calls, hargs args ih, List.map_cons]
    rfl

/-- What the shape of a call can depend on in an argument. -/
def face (e : Expr D) : Option D × Option String := (e.asNumber, e.asIdentifier)

@[simp] theorem face_outline (e : Expr D) : e.outline.face = e.face := by
  cases e <;> rfl

@[simp] theorem face_strip (e : Expr D) : e.strip.face = e.face := by
  cases e <;> rfl

/-- Only a literal has a number on its face. -/
theorem asNumber_eq_some {e : Expr D} {v : D} (h : e.asNumber = some v) :
    ∃ loc, e = .numberLiteral loc v := by
  cases e with
  | numberLiteral loc w => exact ⟨loc, by rw [Option.some.inj h]⟩
  | _ => cases h

/-- Only an identifier has a name on its face. -/
theorem asIdentifier_eq_some {e : Expr D} {n : String} (h : e.asIdentifier = some n) :
    ∃ loc, e = .identifierExpr loc n := by
  cases e with
  | identifierExpr loc m => exact ⟨loc, by rw [Option.some.inj h]⟩
  | _ => cases h

end Expr

/-! ## Shapes depend on the faces of the arguments -/

theorem asNumber_eq_of_face {a b : Expr D} (h : a.face = b.face) : a.asNumber = b.asNumber :=
  congrArg Prod.fst h

theorem asIdentifier_eq_of_face {a b : Expr D} (h : a.face = b.face) :
    a.asIdentifier = b.asIdentifier := congrArg Prod.snd h

/-- Argument lists with the same faces. -/
def SameFaces (as bs : List (Expr D)) : Prop :=
  List.Forall₂ (fun a b => a.face = b.face) as bs

theorem SameFaces.asNumbers {as bs : List (Expr D)} (h : SameFaces as bs) :
    as.map Expr.asNumber = bs.map Expr.asNumber := by
  induction h with
  | nil => rfl
  | cons hab _ ih => rw [List.map_cons, List.map_cons, ih, asNumber_eq_of_face hab]

theorem resolveSymbolSlot_congr (symbols : SymbolTable) (fnName : String)
    {as bs : List (Expr D)} (h : SameFaces as bs) (symbolId : Int) :
    Interpreter.resolveSymbolSlot symbols fnName as symbolId
      = Interpreter.resolveSymbolSlot symbols fnName bs symbolId := by
  have hlen : as.length = bs.length := by simpa using congrArg List.length h.asNumbers
  unfold Interpreter.resolveSymbolSlot
  rw [hlen]
  cases h with
  | nil => rfl
  | cons hab _ => simp only [asIdentifier_eq_of_face hab]

section Decode

variable [Fp D]

theorem decodeWindow_congr (fn : StatefulFn) {a b : Expr D} (h : a.face = b.face) :
    decodeWindow fn a = decodeWindow fn b := by
  unfold decodeWindow
  rw [asNumber_eq_of_face h]

theorem decodeStateful_congr (impl : Impl) (symbols : SymbolTable) (fn : StatefulFn)
    {as bs : List (Expr D)} (h : SameFaces as bs) (symbolId : Int) :
    decodeStateful impl symbols fn as symbolId = decodeStateful impl symbols fn bs symbolId := by
  match h with
  | .nil => rfl
  | .cons _ .nil => cases fn <;> rfl
  | .cons h₁ (.cons h₂ .nil) =>
    have hsym := resolveSymbolSlot_congr symbols "vwap" (.cons h₁ (.cons h₂ .nil)) symbolId
    cases fn <;> simp only [decodeStateful, decodeWindow_congr _ h₂, hsym]
  | .cons _ (.cons _ (.cons h₃ .nil)) =>
    cases fn <;> simp only [decodeStateful, decodeWindow_congr _ h₃]
  | .cons _ (.cons _ (.cons _ (.cons _ _))) => cases fn <;> rfl

/-- **The shape of a call depends on the faces of its arguments.** -/
theorem decodeCall_congr (impl : StatefulFn → List (Option D) → Impl) (symbols : SymbolTable)
    (name : String) {as bs : List (Expr D)} (h : SameFaces as bs) (symbolId : Int) :
    decodeCall impl symbols name as symbolId = decodeCall impl symbols name bs symbolId := by
  unfold decodeCall
  rcases Builtin.ofName name with _ | fn | fn | fn
  · rfl
  · match h with
    | .nil => rfl
    | .cons h₁ .nil => simp only [resolveSymbolSlot_congr symbols _ (.cons h₁ .nil)]
    | .cons _ (.cons _ _) => rfl
  · match h with
    | .nil => rfl
    | .cons _ .nil => rfl
    | .cons _ (.cons _ _) => rfl
  · simp only [h.asNumbers, decodeStateful_congr _ symbols fn h]

omit [Fp D] in
theorem sameFaces_outline (args : List (Expr D)) : SameFaces (args.map Expr.outline) args := by
  induction args with
  | nil => exact .nil
  | cons a as ih => exact .cons a.face_outline ih

theorem decodeCall_outline (impl : StatefulFn → List (Option D) → Impl) (symbols : SymbolTable)
    (name : String) (args : List (Expr D)) (symbolId : Int) :
    decodeCall impl symbols name (args.map Expr.outline) symbolId
      = decodeCall impl symbols name args symbolId :=
  decodeCall_congr impl symbols name (sameFaces_outline args) symbolId

end Decode

/-! ## Symbol ids -/

namespace Call

/-- The symbol id of a market call is unset, or is the slot `symbols` has for its
ticker. -/
def SymbolOk (symbols : SymbolTable) (c : Call D) : Prop :=
  isTickerFirstArgFn c.name = true → 0 ≤ c.symbolId → ∀ a as, c.args = a :: as →
    ∃ ticker, a.asIdentifier = some ticker ∧ symbols.lookupId ticker = .ok c.symbolId.toNat

/-- The symbol id of a market call is unset, or its first argument is a ticker. -/
def TickerNamed (c : Call D) : Prop :=
  isTickerFirstArgFn c.name = true → 0 ≤ c.symbolId → ∀ a as, c.args = a :: as →
    ∃ ticker, a.asIdentifier = some ticker

theorem SymbolOk.tickerNamed {symbols : SymbolTable} {c : Call D} (h : c.SymbolOk symbols) :
    c.TickerNamed := fun hf hs a as ha =>
  have ⟨ticker, ht, _⟩ := h hf hs a as ha
  ⟨ticker, ht⟩

end Call

/-- A bound ticker resolves to the same slot with and without its symbol id. -/
theorem resolveSymbolSlot_bound {symbols : SymbolTable} {fnName ticker : String}
    {a : Expr D} {as : List (Expr D)} {symbolId : Int}
    (hargs : as = [] ∨ fnName = "vwap") (ht : a.asIdentifier = some ticker)
    (hl : symbols.lookupId ticker = .ok symbolId.toNat) (hs : 0 ≤ symbolId) :
    Interpreter.resolveSymbolSlot symbols fnName (a :: as) symbolId
      = Interpreter.resolveSymbolSlot symbols fnName (a :: as) (-1) := by
  unfold Interpreter.resolveSymbolSlot
  rw [if_pos hs, if_neg (show ¬ (0 : Int) ≤ -1 by decide), if_neg]
  · simp only [ht, hl]
  · rintro ⟨hlen, hname⟩
    rcases hargs with rfl | rfl
    · exact hlen rfl
    · exact hname rfl

theorem resolveSymbolSlot_unset {symbols : SymbolTable} {fnName : String}
    {args : List (Expr D)} {symbolId : Int} (hs : ¬ 0 ≤ symbolId) :
    Interpreter.resolveSymbolSlot symbols fnName args symbolId
      = Interpreter.resolveSymbolSlot symbols fnName args (-1) := by
  unfold Interpreter.resolveSymbolSlot
  rw [if_neg hs, if_neg (show ¬ (0 : Int) ≤ -1 by decide)]

/-- Only `vwap` looks at the symbol id. -/
theorem decodeStateful_symbolId [Fp D] (impl : Impl) (symbols : SymbolTable) {fn : StatefulFn}
    (h : fn ≠ .vwap) (args : List (Expr D)) (i j : Int) :
    decodeStateful impl symbols fn args i = decodeStateful impl symbols fn args j := by
  rcases args with _ | ⟨_, _ | ⟨_, _ | ⟨_, _ | ⟨_, _⟩⟩⟩⟩ <;>
    cases fn <;> first | rfl | exact absurd rfl h

/-- **A bound symbol id adds nothing** to what the table says about the ticker. -/
theorem decodeCall_symbolOk [Fp D] (impl : StatefulFn → List (Option D) → Impl)
    {symbols : SymbolTable} {c : Call D} (h : c.SymbolOk symbols) :
    decodeCall impl symbols c.name c.args c.symbolId
      = decodeCall impl symbols c.name c.args (-1) := by
  obtain ⟨name, args, nodeId, symbolId⟩ := c
  unfold decodeCall
  rcases hname : Builtin.ofName name with _ | fn | fn | fn
  · rfl
  · by_cases hs : 0 ≤ symbolId
    · have hf : isTickerFirstArgFn name = true := by rw [isTickerFirstArgFn, hname]
      match args, h with
      | [], _ => rfl
      | [a], h =>
        obtain ⟨ticker, ht, hl⟩ := h hf hs a [] rfl
        simp only [resolveSymbolSlot_bound (.inl rfl) ht hl hs]
      | _ :: _ :: _, _ => rfl
    · simp only [resolveSymbolSlot_unset hs]
  · rfl
  · by_cases hv : fn = .vwap
    · subst hv
      have hf : isTickerFirstArgFn name = true := by rw [isTickerFirstArgFn, hname]
      match args, h with
      | [], _ => rfl
      | [_], _ => rfl
      | [a, w], h =>
        by_cases hs : 0 ≤ symbolId
        · obtain ⟨ticker, ht, hl⟩ := h hf hs a [w] rfl
          simp only [decodeStateful, resolveSymbolSlot_bound (.inr rfl) ht hl hs]
        · simp only [decodeStateful, resolveSymbolSlot_unset hs]
      | _ :: _ :: _ :: _, _ => rfl
    · exact decodeStateful_symbolId _ symbols hv args symbolId (-1)

/-! ## What a shape says about the call -/

section Inversion

variable [Fp D]

/-- A window argument is a literal. -/
theorem decodeWindow_eq_some {fn : StatefulFn} {w : Expr D} {v : D}
    (h : decodeWindow fn w = some v) : w.asNumber = some v := by
  unfold decodeWindow at h
  rcases hv : w.asNumber with _ | u
  · rw [hv] at h; cases h
  · rw [hv] at h
    dsimp only at h
    split at h
    · cases h
    · split at h
      · cases h
      · exact h

/-- What a decoded stateful call looks like: the operands come first, and nothing is
left to evaluate in what follows them. -/
structure DecodedAs (impl : Impl) (fn : StatefulFn) (args : List (Expr D)) (op : StatefulOp D) :
    Prop where
  /-- the operator is the one of the name -/
  fn_eq : op.fn = fn
  /-- implemented as it was asked for -/
  impl_eq : op.impl = impl
  /-- the operands are there -/
  operands : fn.arity ≤ args.length
  /-- the other arguments are literals and tickers -/
  rest : ∀ a ∈ args.drop fn.arity, a.calls = []
  /-- `kalman1d` has operands only -/
  kalman : fn = .kalman1d → args.length = 3
  /-- the literal is the one at the window position -/
  literal : op.literal = none ∨ op.literal = periodLiteral fn args
  /-- operators without a literal do not look at one when they are prewarmed -/
  windowless : op.literal = none →
    fn = .emaAlpha ∨ fn = .crossAbove ∨ fn = .crossBelow ∨ fn = .kalman1d

omit [Fp D] in
theorem calls_of_asNumber {e : Expr D} {v : D} (h : e.asNumber = some v) : e.calls = [] := by
  obtain ⟨loc, rfl⟩ := Expr.asNumber_eq_some h
  rfl

omit [Fp D] in
theorem calls_of_asIdentifier {e : Expr D} {n : String} (h : e.asIdentifier = some n) :
    e.calls = [] := by
  obtain ⟨loc, rfl⟩ := Expr.asIdentifier_eq_some h
  rfl

omit [Fp D] in
/-- A ticker that resolves by name is an identifier. -/
theorem ticker_of_resolve {symbols : SymbolTable} {fnName : String} {a : Expr D}
    {as : List (Expr D)} {id : Nat}
    (h : Interpreter.resolveSymbolSlot symbols fnName (a :: as) (-1) = .ok id) :
    ∃ ticker, a.asIdentifier = some ticker := by
  unfold Interpreter.resolveSymbolSlot at h
  rw [if_neg (show ¬ (0 : Int) ≤ -1 by decide)] at h
  split at h
  · cases h
  · rcases ha : a.asIdentifier with _ | ticker
    · simp only [ha] at h; cases h
    · exact ⟨ticker, rfl⟩

theorem decodedAs_window {impl : Impl} {fn : StatefulFn} {args : List (Expr D)} {w : Expr D}
    {v : D} (hw : decodeWindow fn w = some v) (symbol : Nat) (hlen : fn.arity ≤ args.length)
    (hrest : ∀ a ∈ args.drop fn.arity, a.calls = []) (hk : fn ≠ .kalman1d)
    (hpos : args[fn.periodArg]? = some w) : DecodedAs impl fn args ⟨fn, some v, symbol, impl⟩ where
  fn_eq := rfl
  impl_eq := rfl
  operands := hlen
  rest := hrest
  kalman h := absurd h hk
  literal := .inr (by rw [periodLiteral, hpos, Option.bind_some, decodeWindow_eq_some hw])
  windowless h := by cases h

/-- **Inversion for stateful calls.** -/
theorem decodeStateful_inv (impl : Impl) (symbols : SymbolTable) (fn : StatefulFn)
    (args : List (Expr D)) :
    decodeStateful impl symbols fn args (-1) = .invalid ∨
    ∃ op, decodeStateful impl symbols fn args (-1) = .stateful op ∧ DecodedAs impl fn args op := by
  by_cases hone : fn.arity = 1
  · -- a series and a window
    rw [Interpreter.decodeStateful_windowed impl symbols hone]
    rcases args with _ | ⟨x, _ | ⟨w, _ | ⟨_, _⟩⟩⟩
    · exact .inl rfl
    · exact .inl rfl
    · rcases hw : decodeWindow fn w with _ | v
      · exact .inl (by simp only [hw])
      · refine .inr ⟨⟨fn, some v, 0, impl⟩, by simp only [hw], decodedAs_window hw 0 ?_ ?_ ?_ ?_⟩
        · rw [hone]; exact Nat.le_succ 1
        · intro a ha
          rw [hone, List.drop_succ_cons, List.drop_zero, List.mem_singleton] at ha
          rw [ha]
          exact calls_of_asNumber (decodeWindow_eq_some hw)
        · rintro rfl; cases hone
        · cases fn <;> first | rfl | cases hone
    · exact .inl rfl
  by_cases htwo : fn.periodArg = 2
  · -- two series and a window
    have harity : fn.arity = 2 := by cases fn <;> first | rfl | cases htwo
    rw [Interpreter.decodeStateful_pair impl symbols htwo]
    rcases args with _ | ⟨x, _ | ⟨y, _ | ⟨w, _ | ⟨_, _⟩⟩⟩⟩
    · exact .inl rfl
    · exact .inl rfl
    · exact .inl rfl
    · rcases hw : decodeWindow fn w with _ | v
      · exact .inl (by simp only [hw])
      · refine .inr ⟨⟨fn, some v, 0, impl⟩, by simp only [hw], decodedAs_window hw 0 ?_ ?_ ?_ ?_⟩
        · rw [harity]; exact Nat.le_succ 2
        · intro a ha
          rw [harity, List.drop_succ_cons, List.drop_succ_cons, List.drop_zero,
            List.mem_singleton] at ha
          rw [ha]
          exact calls_of_asNumber (decodeWindow_eq_some hw)
        · rintro rfl; cases htwo
        · rw [htwo]; rfl
    · exact .inl rfl
  by_cases hvwap : fn = .vwap
  · subst hvwap
    rcases args with _ | ⟨a, _ | ⟨w, _ | ⟨_, _⟩⟩⟩
    · exact .inl rfl
    · exact .inl rfl
    · unfold decodeStateful
      rcases hw : decodeWindow .vwap w with _ | v
      · exact .inl (by simp only [hw])
      · rcases hs : Interpreter.resolveSymbolSlot symbols "vwap" [a, w] (-1) with e | symbol
        · exact .inl (by simp only [hw, hs])
        · obtain ⟨ticker, ht⟩ := ticker_of_resolve hs
          refine .inr ⟨⟨.vwap, some v, symbol, impl⟩, by simp only [hw, hs],
            decodedAs_window hw symbol (Nat.zero_le _) ?_ (fun h => nomatch h) rfl⟩
          intro b hb
          rw [StatefulFn.arity, List.drop_zero] at hb
          rcases List.mem_cons.mp hb with rfl | hb
          · exact calls_of_asIdentifier ht
          · rw [List.mem_singleton.mp hb]
            exact calls_of_asNumber (decodeWindow_eq_some hw)
    · exact .inl rfl
  · -- operands only
    have hrest : fn = .emaAlpha ∨ fn = .crossAbove ∨ fn = .crossBelow ∨ fn = .kalman1d := by
      cases fn <;> simp_all [StatefulFn.arity, StatefulFn.periodArg]
    have hshape : decodeStateful impl symbols fn args (-1) =
        if args.length = fn.arity then .stateful ⟨fn, none, 0, impl⟩ else .invalid := by
      rcases args with _ | ⟨_, _ | ⟨_, _ | ⟨_, _ | ⟨_, rest⟩⟩⟩⟩ <;>
        rcases hrest with rfl | rfl | rfl | rfl <;> simp [decodeStateful, StatefulFn.arity]
    by_cases hlen : args.length = fn.arity
    · refine .inr ⟨⟨fn, none, 0, impl⟩, by rw [hshape, if_pos hlen], ?_⟩
      refine ⟨rfl, rfl, Nat.le_of_eq hlen.symm, fun a ha => ?_, ?_, .inl rfl, fun _ => hrest⟩
      · rw [← hlen, List.drop_length] at ha
        exact absurd ha List.not_mem_nil
      · rintro rfl; exact hlen
    · exact .inl (by rw [hshape, if_neg hlen])

/-- The shape of a call of a stateful function. -/
theorem decodeCall_stateful (impl : StatefulFn → List (Option D) → Impl) (symbols : SymbolTable)
    {name : String} (args : List (Expr D)) {fn : StatefulFn}
    (h : Builtin.ofName name = some (.stateful fn)) :
    decodeCall impl symbols name args (-1) = .invalid ∨
    ∃ op, decodeCall impl symbols name args (-1) = .stateful op ∧
      DecodedAs (impl fn (args.map Expr.asNumber)) fn args op := by
  unfold decodeCall
  rw [h]
  exact decodeStateful_inv _ _ _ _

omit [Fp D] in
theorem isStatefulOp_iff {name : String} :
    isStatefulOp name = true ↔ ∃ fn, Builtin.ofName name = some (.stateful fn) := by
  unfold isStatefulOp
  rcases Builtin.ofName name with _ | fn | fn | fn <;> simp

/-- The shape of a call of another function. -/
theorem decodeCall_stateless {impl : StatefulFn → List (Option D) → Impl} {symbols : SymbolTable}
    {name : String} {args : List (Expr D)} (symbolId : Int) (h : isStatefulOp name = false)
    (op : StatefulOp D) : decodeCall impl symbols name args symbolId ≠ .stateful op := by
  unfold decodeCall
  rcases hname : Builtin.ofName name with _ | fn | fn | fn
  · exact fun h => nomatch h
  · dsimp only
    split
    · split <;> exact fun h => nomatch h
    · exact fun h => nomatch h
  · dsimp only
    split <;> exact fun h => nomatch h
  · rw [isStatefulOp, hname] at h
    cases h

/-- A market read has one argument, the ticker. -/
theorem args_of_market {impl : StatefulFn → List (Option D) → Impl} {symbols : SymbolTable}
    {name : String} {args : List (Expr D)} {fn : MarketFn} {symbol : Nat}
    (h : decodeCall impl symbols name args (-1) = .market fn symbol) :
    ∃ a, args = [a] ∧ a.calls = [] := by
  unfold decodeCall at h
  rcases hname : Builtin.ofName name with _ | f | f | f
  · rw [hname] at h; cases h
  · rw [hname] at h
    rcases args with _ | ⟨a, _ | ⟨_, _⟩⟩
    · cases h
    · rcases hs : Interpreter.resolveSymbolSlot symbols (Interpreter.marketFnName f) [a] (-1)
        with e | id
      · simp only [hs] at h; cases h
      · obtain ⟨ticker, ht⟩ := ticker_of_resolve hs
        exact ⟨a, rfl, calls_of_asIdentifier ht⟩
    · cases h
  · rw [hname] at h
    dsimp only at h
    split at h <;> cases h
  · rw [hname] at h
    rcases decodeStateful_inv (impl f (args.map Expr.asNumber)) symbols f args with hi | ⟨op, ho, _⟩
    · simp only [hi] at h; cases h
    · simp only [ho] at h; cases h

/-- The number of leading arguments a call of the given shape evaluates. -/
def CallShape.arity : CallShape D → Nat
  | .invalid => 0
  | .market _ _ => 0
  | .math _ => 1
  | .stateful op => op.fn.arity

/-- What a well-formed call does not evaluate contains no calls. -/
theorem calls_of_rest {impl : StatefulFn → List (Option D) → Impl} {symbols : SymbolTable}
    {name : String} {args : List (Expr D)} {shape : CallShape D}
    (h : decodeCall impl symbols name args (-1) = shape) (hvalid : shape ≠ .invalid) :
    ∀ a ∈ args.drop shape.arity, a.calls = [] := by
  cases shape with
  | invalid => exact absurd rfl hvalid
  | market fn symbol =>
    obtain ⟨a, rfl, ha⟩ := args_of_market h
    rintro b hb
    rw [List.mem_singleton.mp hb]
    exact ha
  | math fn =>
    unfold decodeCall at h
    rcases hname : Builtin.ofName name with _ | f | f | f
    · rw [hname] at h; cases h
    · rw [hname] at h
      dsimp only at h
      split at h
      · split at h <;> cases h
      · cases h
    · rw [hname] at h
      rcases args with _ | ⟨a, _ | ⟨_, _⟩⟩
      · cases h
      · exact fun b hb => absurd hb List.not_mem_nil
      · cases h
    · rw [hname] at h
      rcases decodeStateful_inv (impl f (args.map Expr.asNumber)) symbols f args with
        hi | ⟨op, ho, _⟩
      · simp only [hi] at h; cases h
      · simp only [ho] at h; cases h
  | stateful op =>
    have hst : isStatefulOp name = true := by
      cases hst : isStatefulOp name with
      | true => rfl
      | false => exact absurd h (decodeCall_stateless (-1) hst op)
    obtain ⟨fn, hfn⟩ := isStatefulOp_iff.mp hst
    rcases decodeCall_stateful impl symbols args hfn with hi | ⟨op', ho, hdec⟩
    · rw [hi] at h; cases h
    · rw [ho] at h
      cases h
      rw [CallShape.arity, hdec.fn_eq]
      exact hdec.rest

end Inversion

end JitSignalEngine
