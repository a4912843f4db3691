import JitSignalEngine.Emission
import JitSignalEngine.Parser

/-!
# The front end

`ParseProgram` of `signal_program.cpp` and the chain of passes `jitse_lint` runs.

* `parseProgram` — reads the definitions line by line, with type check and constant
  folding, then looks at the names.
* `registerTickers`, `bindSignals` — the symbol table the linter fills and uses.
* `lint` — all of it: the table, and the bodies with their ids.
* `sourceSignals` — the signals as they stand in the text, before any pass.
-/

namespace JitSignalEngine

open Fp

variable {D : Type}

/-! ## Programs -/

/-- What the front end throws. -/
inductive FrontendError where
  /-- `ParseError`, with the line it is about -/
  | parse (e : ParseError) (line : List Char)
  /-- `std::runtime_error` -/
  | runtime (message : String)
  /-- an error of the lexer -/
  | lex (e : LexError)
  /-- an error of `InlineSignalDependencies` -/
  | inline (e : InlineError)
  /-- no error of the source: the bound of the model, or a read past the last token -/
  | stuck
deriving DecidableEq, Repr

/-- `ProgramDef` -/
structure ProgramDef (D : Type) where
  /-- `params` -/
  params : List (ParamDef D)
  /-- `signals` -/
  signals : List (SignalDef D)

/-- What a line defines. -/
inductive Definition (D : Type) where
  /-- a parameter -/
  | param (p : ParamDef D)
  /-- a signal -/
  | signal (s : SignalDef D)

/-- The parameter a line defines. -/
def Definition.asParam : Definition D → Option (ParamDef D)
  | .param p => some p
  | .signal _ => none

/-- The signal a line defines. -/
def Definition.asSignal : Definition D → Option (SignalDef D)
  | .param _ => none
  | .signal s => some s

/-- `Trim` -/
def trim (line : List Char) : List Char :=
  ((line.dropWhile isSpace).reverse.dropWhile isSpace).reverse

/-- A line without comment and surrounding white space. -/
def cleanLine (line : List Char) : List Char := trim (line.takeWhile (· != '#'))

/-- The lines `std::getline` yields. After a final newline there is one more, an empty one,
which is skipped like all empty lines. -/
def linesOf (text : List Char) : List (List Char) := text.splitOn '\n'

/-- What a parser leaves as an error of the front end. -/
def FrontendError.ofParse (line : List Char) : ParseFailure → FrontendError
  | .error e => .parse e line
  | .outOfFuel | .outOfTokens => .stuck

variable [Fp D]

/-- The definition on a line, as the parser reads it. -/
def parseLine (lineNo : Nat) (raw : List Char) : Except FrontendError (Option (Definition D)) :=
  let line := cleanLine raw
  if line = [] then .ok none
  else
    match tokenize line with
    | .error e => .error (.lex e)
    | .ok tokens =>
      let tokens := tokens.map fun t => { t with loc := { t.loc with line := lineNo } }
      let fuel := tokens.length + 1
      if tokens.head?.map Token.kind = some .param then
        match parseParamDef fuel tokens with
        | .error e => .error (.ofParse line e)
        | .ok (p, _) => .ok (some (.param p))
      else
        match parseSignalDef fuel tokens with
        | .error e => .error (.ofParse line e)
        | .ok (s, _) => .ok (some (.signal s))

/-- What `ParseProgram` does about a definition it has read. -/
def checkDefinition (line : List Char) : Definition D → Except FrontendError (Definition D)
  | .param p => .ok (.param p)
  | .signal s =>
    match typeCheckSignal s with
    | .error e => .error (.parse e line)
    | .ok _ => .ok (.signal { s with body := foldConstants s.body })

/-- The line loop of `ParseProgram`. -/
def readLines : Nat → List (List Char) → Except FrontendError (List (Definition D))
  | _, [] => .ok []
  | lineNo, raw :: rest => do
    match ← parseLine lineNo raw with
    | none => readLines (lineNo + 1) rest
    | some d => do
      let d ← checkDefinition (cleanLine raw) d
      let ds ← readLines (lineNo + 1) rest
      .ok (d :: ds)

/-- The loop that fills `param_ids`. -/
def indexParams : List (ParamDef D) → Int → (String → Option Int) →
    Except FrontendError (String → Option Int)
  | [], _, ids => .ok ids
  | p :: rest, i, ids =>
    match ids p.name with
    | some _ => .error (.parse ⟨"Duplicate parameter name: " ++ p.name, p.loc⟩ [])
    | none => indexParams rest (i + 1) fun n => if n = p.name then some i else ids n

/-- The loop over the names of the signals. -/
def checkSignalNames (ids : String → Option Int) : List (SignalDef D) → (String → Bool) →
    Except FrontendError Unit
  | [], _ => .ok ()
  | s :: rest, seen =>
    if seen s.name then .error (.runtime ("Duplicate signal name: " ++ s.name))
    else
      match ids s.name with
      | some _ => .error (.runtime ("Name used by both parameter and signal: " ++ s.name))
      | none => checkSignalNames ids rest fun n => n == s.name || seen n

/-- `ParseProgram` -/
def parseProgram (text : List Char) : Except FrontendError (ProgramDef D) := do
  let defs ← readLines 1 (linesOf text)
  let params := (defs.filterMap Definition.asParam).mapIdx fun i p => { p with paramId := i }
  let signals := defs.filterMap Definition.asSignal
  if signals = [] then .error (.runtime "No signal definitions found")
  else do
    let ids ← indexParams params 0 fun _ => none
    checkSignalNames ids signals fun _ => false
    .ok ⟨params, signals.map fun s => { s with body := resolveParameterRefs ids s.body }⟩

/-! ## The linter -/

/-- `kMaxInstruments` -/
def kMaxInstruments : Nat := 1024

/-- A symbol table that is being filled, with `next_id_`. -/
structure SymbolTableBuilder where
  /-- the slots so far -/
  table : SymbolTable
  /-- `next_id_` -/
  nextId : Nat

/-- `SymbolTable::RegisterOrGetId` -/
def SymbolTableBuilder.registerOrGetId (b : SymbolTableBuilder) (symbol : String) :
    Except FrontendError SymbolTableBuilder :=
  match b.table symbol with
  | some _ => .ok b
  | none =>
    if kMaxInstruments ≤ b.nextId then
      .error (.runtime "Symbol table exceeded kMaxInstruments")
    else .ok ⟨fun n => if n = symbol then some b.nextId else b.table n, b.nextId + 1⟩

omit [Fp D] in
/-- The registration loops: the tickers of each signal, in the order of a hash set. -/
def registerTickers (order : HashOrder) : List (SignalDef D) → Nat → SymbolTableBuilder →
    Except FrontendError SymbolTableBuilder
  | [], _, b => .ok b
  | s :: rest, i, b => do
    let b ← (order.iterate i (collectTickerSymbols s.body)).foldlM
      SymbolTableBuilder.registerOrGetId b
    registerTickers order rest (i + 1) b

omit [Fp D] in
/-- The loop of `BindSymbolIds` over the signals. -/
def bindSignals (symbols : SymbolTable) : List (SignalDef D) → Except FrontendError (List (SignalDef D))
  | [] => .ok []
  | s :: rest =>
    match bindSymbolIds symbols s.body with
    | .error e => .error (.runtime e)
    | .ok body => do
      let rest ← bindSignals symbols rest
      .ok ({ s with body := body } :: rest)

/-- The chain of `jitse_lint`: the symbol table, and the bodies with their ids. -/
def lint [DecidableEq D] (order tickerOrder : HashOrder) (text : List Char) :
    Except FrontendError (SymbolTable × List (SignalDef D)) := do
  let parsed ← parseProgram text
  match inlineSignalDependencies order parsed.signals with
  | .error e => .error (.inline e)
  | .ok inlined => do
    let signals := allocateProgramNodeIds inlined
    let builder ← registerTickers tickerOrder signals 0 ⟨fun _ => none, 0⟩
    let bound ← bindSignals builder.table signals
    .ok (builder.table, bound)

/-! ## The source -/

/-- The definitions of the lines that hold one. -/
def sourceDefinitions : Nat → List (List Char) → List (Definition D)
  | _, [] => []
  | lineNo, raw :: rest =>
    match parseLine lineNo raw with
    | .ok (some d) => d :: sourceDefinitions (lineNo + 1) rest
    | _ => sourceDefinitions (lineNo + 1) rest

/-- The parameters of a text, by name. -/
def sourceParams (text : List Char) : List String :=
  ((sourceDefinitions 1 (linesOf text) : List (Definition D)).filterMap Definition.asParam).map
    ParamDef.name

/-- The signals of a text, as they are written. -/
def sourceSignals (text : List Char) : List (SignalDef D) :=
  (sourceDefinitions 1 (linesOf text)).filterMap Definition.asSignal

end JitSignalEngine
