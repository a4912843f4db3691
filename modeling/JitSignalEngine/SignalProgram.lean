import JitSignalEngine.RuntimeOps

/-!
# Setup passes over a program

`signal_program.cpp`: what happens to the signals between parsing and the first
tick.

* `inlineSignalDependencies` — replaces references to other signals by copies of
  their bodies.
* `allocateNodeIds`, `allocateProgramNodeIds` — hand out the ids that name state
  slots. A stateful call that is structurally equal to an earlier one at an
  unconditional position gets that call's id and shares its slot.
* `bindSymbolIds` — resolves the tickers of market calls.
-/

namespace JitSignalEngine

variable {D : Type}

/-! ## Node ids -/

/-- `SeenStateful`: a stateful call that was given a fresh id. -/
structure SeenStateful (D : Type) where
  /-- the call, as it stood when the id was assigned -/
  node : Expr D
  /-- the id it was given -/
  nodeId : Int
  /-- whether it stands outside all then- and else-branches -/
  unconditional : Bool

/-- The variables the allocation walk captures. -/
structure AllocState (D : Type) where
  /-- the next fresh id -/
  nextId : Int
  /-- the calls given a fresh id so far, in order -/
  seen : List (SeenStateful D)

section Allocate

variable [DecidableEq D]

/-- `TryAliasNodeId`: the id of the first unconditional call structurally equal to
the candidate, `0` when there is none. `AstEquals` subsumes the comparisons of name
and argument count that the source makes first. -/
def tryAliasNodeId (seen : List (SeenStateful D)) (candidate : Expr D) : Int :=
  match seen.find? fun s => s.unconditional && astEquals s.node candidate with
  | some s => s.nodeId
  | none => 0

/-- The id a call gets, and what the walk remembers of it. -/
def assignNodeId (st : AllocState D) (loc : SourceLoc) (name : String) (args : List (Expr D))
    (nodeId symbolId : Int) (isUnconditional : Bool) : Int × AllocState D :=
  if isStatefulOp name && nodeId < 0 then
    let call := Expr.functionCall loc name args nodeId symbolId
    let aliased := tryAliasNodeId st.seen call
    if 0 < aliased then (aliased, st)
    else
      (st.nextId, ⟨st.nextId + 1, st.seen ++ [⟨call, st.nextId, isUnconditional⟩]⟩)
  else (nodeId, st)

mutual

/-- The `walk` of `AllocateNodeIds`: a call before its arguments, branches marked
conditional. -/
def allocateWalk : Expr D → Bool → AllocState D → Expr D × AllocState D
  | .numberLiteral loc v, _, st => (.numberLiteral loc v, st)
  | .identifierExpr loc n, _, st => (.identifierExpr loc n, st)
  | .parameterExpr loc n i, _, st => (.parameterExpr loc n i, st)
  | .unaryOp loc k e, u, st =>
    let (e', st) := allocateWalk e u st
    (.unaryOp loc k e', st)
  | .binaryOp loc k l r, u, st =>
    let (l', st) := allocateWalk l u st
    let (r', st) := allocateWalk r u st
    (.binaryOp loc k l' r', st)
  | .conditional loc c t e, u, st =>
    let (c', st) := allocateWalk c u st
    let (t', st) := allocateWalk t false st
    let (e', st) := allocateWalk e false st
    (.conditional loc c' t' e', st)
  | .functionCall loc n args nid sid, u, st =>
    let (nid', st) := assignNodeId st loc n args nid sid u
    let (args', st) := allocateWalkArgs args u st
    (.functionCall loc n args' nid' sid, st)

/-- The argument loop of the walk. -/
def allocateWalkArgs : List (Expr D) → Bool → AllocState D → List (Expr D) × AllocState D
  | [], _, st => ([], st)
  | a :: as, u, st =>
    let (a', st) := allocateWalk a u st
    let (as', st) := allocateWalkArgs as u st
    (a' :: as', st)

end

/-- `AllocateNodeIds`: the body with its ids written. -/
def allocateNodeIds (body : Expr D) : Expr D := (allocateWalk body true ⟨1, []⟩).1

/-- The signal loop of `AllocateProgramNodeIds`: the ids go on counting, the list of
seen calls starts anew with each signal. -/
def allocateProgramFrom : List (SignalDef D) → Int → List (SignalDef D)
  | [], _ => []
  | signal :: rest, nextId =>
    let (body, st) := allocateWalk signal.body true ⟨nextId, []⟩
    { signal with body := body } :: allocateProgramFrom rest st.nextId

/-- `AllocateProgramNodeIds` -/
def allocateProgramNodeIds (signals : List (SignalDef D)) : List (SignalDef D) :=
  allocateProgramFrom signals 1

end Allocate

/-! ## Symbol ids -/

mutual

/-- `BindSymbolIds`: the instrument slot of every market call. -/
def bindSymbolIds (symbols : SymbolTable) : Expr D → Except String (Expr D)
  | .numberLiteral loc v => .ok (.numberLiteral loc v)
  | .identifierExpr loc n => .ok (.identifierExpr loc n)
  | .parameterExpr loc n i => .ok (.parameterExpr loc n i)
  | .unaryOp loc k e => do
    let e ← bindSymbolIds symbols e
    pure (.unaryOp loc k e)
  | .binaryOp loc k l r => do
    let l ← bindSymbolIds symbols l
    let r ← bindSymbolIds symbols r
    pure (.binaryOp loc k l r)
  | .conditional loc c t e => do
    let c ← bindSymbolIds symbols c
    let t ← bindSymbolIds symbols t
    let e ← bindSymbolIds symbols e
    pure (.conditional loc c t e)
  | .functionCall loc n args nid sid => do
    let sid ← match isTickerFirstArgFn n, args with
      | true, a :: _ =>
        match a.asIdentifier with
        | some ticker => (symbols.lookupId ticker).map Int.ofNat
        | none => .error (n ++ "() first argument must be ticker identifier")
      | _, _ => .ok sid
    let args ← bindSymbolArgs symbols args
    pure (.functionCall loc n args nid sid)

/-- The argument loop of `BindSymbolIds`. -/
def bindSymbolArgs (symbols : SymbolTable) : List (Expr D) → Except String (List (Expr D))
  | [] => .ok []
  | a :: as => do
    let a ← bindSymbolIds symbols a
    let as ← bindSymbolArgs symbols as
    pure (a :: as)

end

/-! ## Parameters -/

mutual

/-- `ResolveParameterRefs`: identifiers that name a parameter become parameters, tickers
excepted. -/
def resolveParameterRefs (paramIds : String → Option Int) : Expr D → Expr D
  | .numberLiteral loc v => .numberLiteral loc v
  | .identifierExpr loc n =>
    match paramIds n with
    | some i => .parameterExpr loc n i
    | none => .identifierExpr loc n
  | .parameterExpr loc n i => .parameterExpr loc n i
  | .unaryOp loc k e => .unaryOp loc k (resolveParameterRefs paramIds e)
  | .binaryOp loc k l r =>
    .binaryOp loc k (resolveParameterRefs paramIds l) (resolveParameterRefs paramIds r)
  | .conditional loc c t e =>
    .conditional loc (resolveParameterRefs paramIds c) (resolveParameterRefs paramIds t)
      (resolveParameterRefs paramIds e)
  | .functionCall loc n args nid sid =>
    .functionCall loc n (if isTickerFirstArgFn n then resolveParameterTail paramIds args
      else resolveParameterArgs paramIds args) nid sid

/-- The argument loop of `ResolveParameterRefs`. -/
def resolveParameterArgs (paramIds : String → Option Int) : List (Expr D) → List (Expr D)
  | [] => []
  | a :: as => resolveParameterRefs paramIds a :: resolveParameterArgs paramIds as

/-- The argument loop past a ticker. -/
def resolveParameterTail (paramIds : String → Option Int) : List (Expr D) → List (Expr D)
  | [] => []
  | a :: as => a :: resolveParameterArgs paramIds as

end

/-! ## Signal references -/

mutual

/-- `CollectRefs`: the identifiers of a body, tickers excepted. -/
def collectRefs : Expr D → List String
  | .numberLiteral _ _ => []
  | .identifierExpr _ n => [n]
  | .parameterExpr _ _ _ => []
  | .unaryOp _ _ e => collectRefs e
  | .binaryOp _ _ l r => collectRefs l ++ collectRefs r
  | .conditional _ c t e => collectRefs c ++ collectRefs t ++ collectRefs e
  | .functionCall _ n args _ _ =>
    if isTickerFirstArgFn n then collectRefsTail args else collectRefsArgs args

/-- The argument loop of `CollectRefs`. -/
def collectRefsArgs : List (Expr D) → List String
  | [] => []
  | a :: as => collectRefs a ++ collectRefsArgs as

/-- The argument loop past a ticker. -/
def collectRefsTail : List (Expr D) → List String
  | [] => []
  | _ :: as => collectRefsArgs as

end

mutual

/-- `InlineExpr`: copies of the referenced bodies in place of the references. Unlike
`CollectRefs` it also looks at the ticker argument. Rebuilt nodes carry no location
and no ids. -/
def inlineExpr (defs : String → Option (Expr D)) : Expr D → Expr D
  | .numberLiteral _ v => .numberLiteral {} v
  | .identifierExpr _ n =>
    match defs n with
    | some body => cloneExpr body
    | none => .identifierExpr {} n
  | .parameterExpr _ n i => .parameterExpr {} n i
  | .unaryOp _ k e => .unaryOp {} k (inlineExpr defs e)
  | .binaryOp _ k l r => .binaryOp {} k (inlineExpr defs l) (inlineExpr defs r)
  | .conditional _ c t e =>
    .conditional {} (inlineExpr defs c) (inlineExpr defs t) (inlineExpr defs e)
  | .functionCall _ n args _ _ => .functionCall {} n (inlineArgs defs args) (-1) (-1)

/-- `InlineExpr` on an argument list. -/
def inlineArgs (defs : String → Option (Expr D)) : List (Expr D) → List (Expr D)
  | [] => []
  | a :: as => inlineExpr defs a :: inlineArgs defs as

end

/-- The states of the depth-first search. -/
inductive VisitState where
  | unvisited | visiting | done
deriving DecidableEq, Repr

/-- What the depth-first search of `InlineSignalDependencies` keeps. -/
structure InlineState (D : Type) where
  /-- `state` -/
  visited : Nat → VisitState
  /-- the bodies in `resolved` -/
  resolved : Nat → Option (Expr D)

namespace InlineState

/-- Nothing visited. -/
def init : InlineState D := ⟨fun _ => .unvisited, fun _ => none⟩

/-- `state[i] = v` -/
def mark (st : InlineState D) (i : Nat) (v : VisitState) : InlineState D :=
  { st with visited := fun j => if j = i then v else st.visited j }

/-- `resolved[i].body = body` -/
def resolve (st : InlineState D) (i : Nat) (body : Expr D) : InlineState D :=
  { st with resolved := fun j => if j = i then some body else st.resolved j }

@[simp] theorem mark_visited (st : InlineState D) (i : Nat) (v : VisitState) (j : Nat) :
    (st.mark i v).visited j = if j = i then v else st.visited j := rfl

@[simp] theorem mark_resolved (st : InlineState D) (i : Nat) (v : VisitState) :
    (st.mark i v).resolved = st.resolved := rfl

@[simp] theorem resolve_visited (st : InlineState D) (i : Nat) (body : Expr D) :
    (st.resolve i body).visited = st.visited := rfl

@[simp] theorem resolve_resolved (st : InlineState D) (i : Nat) (body : Expr D) (j : Nat) :
    (st.resolve i body).resolved j = if j = i then some body else st.resolved j := rfl

end InlineState

/-- What `InlineSignalDependencies` throws. -/
inductive InlineError where
  /-- `"Duplicate signal name: " + name` -/
  | duplicateName (name : String)
  /-- `"Cycle in signal dependencies at: " + name` -/
  | cycle (name : String)
  /-- no error of the source: the bound of the model on the depth of the search -/
  | outOfFuel
deriving DecidableEq, Repr

/-- The loop that fills `index`, the position of each signal name. It stops at a name that
is taken. -/
def indexSignals : List (SignalDef D) → Nat → (String → Option Nat) →
    Except InlineError (String → Option Nat)
  | [], _, index => .ok index
  | s :: rest, i, index =>
    match index s.name with
    | some _ => .error (.duplicateName s.name)
    | none => indexSignals rest (i + 1) fun n => if n = s.name then some i else index n

/-- In which order an `unordered_set` of names is iterated: some order of its elements. It
may differ from signal to signal. -/
structure HashOrder where
  /-- the iteration over the set filled with these names for the signal `i` -/
  iterate : Nat → List String → List String
  /-- an iteration meets the elements of the set -/
  mem_iterate : ∀ i names n, n ∈ iterate i names ↔ n ∈ names
  /-- and each of them once -/
  nodup_iterate : ∀ i names, (iterate i names).Nodup

/-- `defs`: what the references of a body stand for. -/
def inlineDefs (index : String → Option Nat) (resolved : Nat → Option (Expr D))
    (refs : List String) (r : String) : Option (Expr D) :=
  if r ∈ refs then (index r).bind resolved else none

/-- `dfs(i)` of `InlineSignalDependencies`. The recursion stops at a signal that is being
visited, so it is never deeper than there are signals; `fuel` bounds it. -/
def inlineDfs (order : HashOrder) (signals : List (SignalDef D)) (index : String → Option Nat) :
    Nat → Nat → InlineState D → Except InlineError (InlineState D)
  | 0, _, _ => .error .outOfFuel
  | fuel + 1, i, st =>
    match signals[i]? with
    | none => .ok st
    | some s =>
      match st.visited i with
      | .done => .ok st
      | .visiting => .error (.cycle s.name)
      | .unvisited => do
        let refs := collectRefs s.body
        let st ← ((order.iterate i refs).filterMap index).foldlM
          (fun st j => inlineDfs order signals index fuel j st) (st.mark i .visiting)
        .ok ((st.resolve i (inlineExpr (inlineDefs index st.resolved refs) s.body)).mark i .done)

/-- `InlineSignalDependencies` -/
def inlineSignalDependencies (order : HashOrder) (signals : List (SignalDef D)) :
    Except InlineError (List (SignalDef D)) := do
  let index ← indexSignals signals 0 fun _ => none
  let st ← (List.range signals.length).foldlM
    (fun st i => inlineDfs order signals index (signals.length + 1) i st) .init
  .ok (signals.mapIdx fun i s => { s with body := (st.resolved i).getD s.body })

end JitSignalEngine
