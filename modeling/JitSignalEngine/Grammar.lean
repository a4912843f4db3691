import JitSignalEngine.Parser

/-!
# The grammar of the language

The grammar of `docs/dsl-reference.md`, and that the parser accepts exactly its signal
definitions.

* `Derives` — the productions, each with the tree it builds. A repetition `{ op operand }` is
  read by `Repeats`, which hands on the tree of what stands before it, so operators associate
  to the left.
* `Reads` — a parser that throws a `ParseError` or takes a phrase off the front. It is closed
  under the monad, and the parser is followed through it: `parseExpr_reads`.
* `Level.Stops` — a token that no phrase of a level goes on with. In front of such a token every
  derivation is found: `Derives.parsed`.
-/

namespace JitSignalEngine

open Fp Parse

variable {D : Type}

/-! ## Productions -/

/-- The levels of binary operators, from the loosest to the tightest. -/
inductive Level where
  | logical | comparison | additive | term
deriving DecidableEq, Repr

/-- The nonterminals that stand for expressions. -/
inductive Phrase where
  /-- `expr` and `conditional` -/
  | expr
  /-- `logical`, `comparison`, `additive` and `term` -/
  | level (l : Level)
  /-- `factor` and `function_call` -/
  | factor

/-- The operators of a level. -/
def Level.op : Level → TokenKind → Option BinaryOpKind
  | .logical => logicalOp
  | .comparison => comparisonOp
  | .additive => termOp
  | .term => factorOp

/-- What the operators of a level stand between. -/
def Level.operand : Level → Phrase
  | .logical => .level .comparison
  | .comparison => .level .additive
  | .additive => .level .term
  | .term => .factor

mutual

/-- **The productions**: the tokens of a phrase and its tree. -/
inductive Derives : Phrase → List (Token D) → Expr D → Prop where
  /-- `"if" expr "then" expr "else" expr` -/
  | conditional {i t e : Token D} {cs ts es : List (Token D)} {c x y : Expr D} :
      i.kind = .ifWord → Derives .expr cs c → t.kind = .thenWord → Derives .expr ts x →
      e.kind = .elseWord → Derives .expr es y →
      Derives .expr (i :: (cs ++ t :: (ts ++ e :: es))) (.conditional i.loc c x y)
  /-- `logical` -/
  | logical {ts : List (Token D)} {x : Expr D} : Derives (.level .logical) ts x → Derives .expr ts x
  /-- `operand { op operand }` -/
  | chain {l : Level} {ts us : List (Token D)} {x y : Expr D} :
      Derives l.operand ts x → Repeats l x us y → Derives (.level l) (ts ++ us) y
  /-- `number` -/
  | number {t : Token D} : t.kind = .number →
      Derives .factor [t] (.numberLiteral t.loc t.numberValue)
  /-- `identifier`, the factor that the reference leaves out -/
  | identifier {t : Token D} : t.kind = .identifier →
      Derives .factor [t] (.identifierExpr t.loc t.lexeme)
  /-- `identifier "(" arg_list? ")"` -/
  | call {f l r : Token D} {ts : List (Token D)} {args : List (Expr D)} :
      f.kind = .identifier → l.kind = .lParen → DerivesArgs ts args → r.kind = .rParen →
      Derives .factor (f :: l :: (ts ++ [r])) (.functionCall f.loc f.lexeme args (-1) (-1))
  /-- `"(" expr ")"` -/
  | paren {l r : Token D} {ts : List (Token D)} {x : Expr D} :
      l.kind = .lParen → Derives .expr ts x → r.kind = .rParen →
      Derives .factor (l :: (ts ++ [r])) (withParenLoc x l.loc)
  /-- `("+" | "-") factor` -/
  | unary {o : Token D} {k : UnaryOpKind} {ts : List (Token D)} {x : Expr D} :
      unaryOpKind o.kind = some k → Derives .factor ts x →
      Derives .factor (o :: ts) (.unaryOp o.loc k x)

/-- The repetition `{ op operand }` behind an expression. -/
inductive Repeats : Level → Expr D → List (Token D) → Expr D → Prop where
  | done {l : Level} {x : Expr D} : Repeats l x [] x
  | more {l : Level} {o : Token D} {k : BinaryOpKind} {ts us : List (Token D)} {x y z : Expr D} :
      l.op o.kind = some k → Derives l.operand ts y →
      Repeats l (.binaryOp o.loc k x y) us z → Repeats l x (o :: (ts ++ us)) z

/-- `arg_list?` -/
inductive DerivesArgs : List (Token D) → List (Expr D) → Prop where
  | none : DerivesArgs [] []
  | some {ts us : List (Token D)} {x : Expr D} {xs : List (Expr D)} :
      Derives .expr ts x → DerivesMoreArgs us xs → DerivesArgs (ts ++ us) (x :: xs)

/-- The repetition `{ "," expr }` of `arg_list`. -/
inductive DerivesMoreArgs : List (Token D) → List (Expr D) → Prop where
  | done : DerivesMoreArgs [] []
  | more {c : Token D} {ts us : List (Token D)} {x : Expr D} {xs : List (Expr D)} :
      c.kind = .comma → Derives .expr ts x → DerivesMoreArgs us xs →
      DerivesMoreArgs (c :: (ts ++ us)) (x :: xs)

end

/-- `"signal" identifier "=" expr`, and the end of the input. -/
inductive DerivesSignal : List (Token D) → SignalDef D → Prop where
  | intro {s n a e : Token D} {ts : List (Token D)} {x : Expr D} :
      s.kind = .signal → n.kind = .identifier → a.kind = .assign → Derives .expr ts x →
      e.kind = .endOfFile → DerivesSignal (s :: n :: a :: (ts ++ [e])) ⟨n.lexeme, x⟩

/-! ## Input -/

/-- Token lists that end in their only `EndOfFile` token. -/
def Terminated : List (Token D) → Prop
  | [] => False
  | [t] => t.kind = .endOfFile
  | t :: ts => t.kind ≠ .endOfFile ∧ Terminated ts

instance Terminated.decidable : (ts : List (Token D)) → Decidable (Terminated ts)
  | [] => .isFalse id
  | [_] => inferInstanceAs (Decidable (_ = _))
  | _ :: t :: ts =>
    have := Terminated.decidable (t :: ts)
    inferInstanceAs (Decidable (_ ∧ _))

theorem Terminated.tail {t : Token D} {ts : List (Token D)} (h : Terminated (t :: ts))
    (hkind : t.kind ≠ .endOfFile) : Terminated ts := by
  cases ts with
  | nil => exact absurd h hkind
  | cons u ts => exact h.2

theorem Terminated.end {t : Token D} {ts : List (Token D)} (h : Terminated (t :: ts))
    (hkind : t.kind = .endOfFile) : ts = [] := by
  cases ts with
  | nil => rfl
  | cons u ts => exact absurd hkind h.1

theorem Terminated.exists_cons {ts : List (Token D)} (h : Terminated ts) :
    ∃ t us, ts = t :: us := by
  cases ts with
  | nil => exact h.elim
  | cons t us => exact ⟨t, us, rfl⟩

/-! ## Running a parser -/

section Run

variable {α β : Type} {p : Parse D α} {f : α → Parse D β} {t : Token D} {ts rest : List (Token D)}

theorem Parse.bind_ok {a : α} (h : p ts = .ok (a, rest)) : (p >>= f) ts = f a rest := by
  simp [bind, StateT.bind, h, Except.bind]

theorem Parse.bind_error {e : ParseFailure} (h : p ts = .error e) : (p >>= f) ts = .error e := by
  simp [bind, StateT.bind, h, Except.bind]

theorem Parse.peek_bind (g : Token D → Parse D β) : (peek >>= g) (t :: ts) = g t (t :: ts) := rfl

theorem Parse.advance_bind (g : Unit → Parse D β) : (advance >>= g) (t :: ts) = g () ts := rfl

theorem Parse.consume_ok {kind : TokenKind} {message : String} (h : t.kind = kind) :
    consume kind message (t :: ts) = .ok (t, ts) := by
  rw [consume, peek_bind, if_pos h]
  rfl

theorem Parse.consume_error {kind : TokenKind} {message : String} (h : t.kind ≠ kind) :
    ∃ e, consume kind message (t :: ts) = .error (.error e) := by
  rw [consume, peek_bind, if_neg h]
  exact ⟨_, rfl⟩

end Run

/-! ## What a parser takes -/

/-- **A parser reads**: it throws a `ParseError`, or it takes tokens of a kind off the front and
stops before the end of the input. -/
def Reads {α : Type} (p : Parse D α) (ts : List (Token D)) (R : List (Token D) → α → Prop) :
    Prop :=
  (∃ e, p ts = .error (.error e)) ∨
    ∃ us rest a, ts = us ++ rest ∧ p ts = .ok (a, rest) ∧ Terminated rest ∧ R us a

namespace Reads

variable {α β : Type} {p : Parse D α} {f : α → Parse D β} {t : Token D} {ts : List (Token D)}
  {R : List (Token D) → α → Prop} {S : List (Token D) → β → Prop}

theorem pure {a : α} (hterm : Terminated ts) (h : R [] a) : Reads (Pure.pure a) ts R :=
  .inr ⟨[], ts, a, rfl, rfl, hterm, h⟩

theorem fail (message : String) (loc : SourceLoc) : Reads (Parse.fail message loc) ts R :=
  .inl ⟨_, rfl⟩

theorem bind (h : Reads p ts R)
    (hf : ∀ us rest a, ts = us ++ rest → Terminated rest → R us a →
      Reads (f a) rest fun ws b => S (us ++ ws) b) : Reads (p >>= f) ts S := by
  obtain ⟨e, he⟩ | ⟨us, rest, a, rfl, hp, hterm, hR⟩ := h
  · exact .inl ⟨e, bind_error he⟩
  · obtain ⟨e, he⟩ | ⟨ws, rest', b, rfl, hf, hterm', hS⟩ := hf us rest a rfl hterm hR
    · exact .inl ⟨e, by rw [bind_ok hp, he]⟩
    · exact .inr ⟨us ++ ws, rest', b, (List.append_assoc ..).symm, by rw [bind_ok hp, hf], hterm',
        hS⟩

/-- A token that was looked at is taken. -/
theorem cons {q : Parse D α} (h : p (t :: ts) = q ts) (hq : Reads q ts fun us a => R (t :: us) a) :
    Reads p (t :: ts) R := by
  obtain ⟨e, he⟩ | ⟨us, rest, a, rfl, hq, hterm, hR⟩ := hq
  · exact .inl ⟨e, h.trans he⟩
  · exact .inr ⟨t :: us, rest, a, rfl, h.trans hq, hterm, hR⟩

/-- A token of a given kind. -/
theorem consume {kind : TokenKind} {message : String} (hterm : Terminated ts)
    (hkind : kind ≠ .endOfFile) :
    Reads (Parse.consume kind message) ts fun us t => us = [t] ∧ t.kind = kind := by
  obtain ⟨t, us, rfl⟩ := hterm.exists_cons
  by_cases h : t.kind = kind
  · exact .inr ⟨[t], us, t, rfl, consume_ok h, hterm.tail (h ▸ hkind), rfl, h⟩
  · exact .inl (consume_error h)

end Reads

/-! ## Every parse is a derivation -/

/-- The parser of a phrase. Only a factor has a bound of its own, on its signs. -/
def Phrase.parse (nested : Parse D (Expr D)) (fuel signs : Nat) : Phrase → Parse D (Expr D)
  | .expr => parseConditional nested fuel
  | .level .logical => parseLogical nested fuel
  | .level .comparison => parseComparison nested fuel
  | .level .additive => parseTerm nested fuel
  | .level .term => parseFactor nested fuel
  | .factor => parseUnary nested fuel signs

theorem Level.parse_eq (nested : Parse D (Expr D)) (fuel signs : Nat) (l : Level) :
    (Phrase.level l).parse nested fuel signs = (do
      let expr ← l.operand.parse nested fuel fuel
      leftAssociative l.op (l.operand.parse nested fuel fuel) fuel expr) := by
  cases l <;> rfl

section Sound

variable {nested : Parse D (Expr D)} {fuel bound : Nat} {ts : List (Token D)}

/-- A parser reads from inputs of a bounded length. -/
def ReadsWithin {α : Type} (bound : Nat) (p : Parse D α) (R : List (Token D) → α → Prop) : Prop :=
  ∀ ts, Terminated ts → ts.length ≤ bound → Reads p ts R

/-- An operator is no end of the input. -/
theorem Level.op_endOfFile (l : Level) : l.op .endOfFile = none := by
  cases l <;> rfl

theorem leftAssociative_reads {l : Level} {operand : Parse D (Expr D)}
    (hoperand : ReadsWithin bound operand (Derives l.operand)) {n : Nat} (x : Expr D)
    (hterm : Terminated ts) (hn : ts.length ≤ n) (hbound : ts.length ≤ bound) :
    Reads (leftAssociative l.op operand n x) ts (Repeats l x) := by
  induction n generalizing x ts with
  | zero =>
    obtain ⟨t, us, rfl⟩ := hterm.exists_cons
    simp at hn
  | succ n ih =>
    obtain ⟨t, us, rfl⟩ := hterm.exists_cons
    rw [List.length_cons] at hn hbound
    cases hop : l.op t.kind with
    | none =>
      refine .inr ⟨[], t :: us, x, rfl, ?_, hterm, .done⟩
      simp only [leftAssociative, peek_bind, hop]
      rfl
    | some k =>
      have hkind : t.kind ≠ .endOfFile := by
        intro h
        rw [h, l.op_endOfFile] at hop
        cases hop
      refine .cons (q := do
        let rhs ← operand
        leftAssociative l.op operand n (.binaryOp t.loc k x rhs)) ?_ ?_
      · simp only [leftAssociative, peek_bind, hop, advance_bind]
      · refine (hoperand us (hterm.tail hkind) (by omega)).bind fun vs rest y hus hrest hy => ?_
        subst hus
        rw [List.length_append] at hn hbound
        obtain ⟨e, he⟩ | ⟨ws, rest', z, hws, hz, hrest', hrep⟩ :=
          ih (.binaryOp t.loc k x y) hrest (by omega) (by omega)
        · exact .inl ⟨e, he⟩
        · exact .inr ⟨ws, rest', z, hws, hz, hrest', .more hop hy hrep⟩

theorem parseMoreArgs_reads (hnested : ReadsWithin bound nested (Derives .expr)) {n : Nat}
    (hterm : Terminated ts) (hn : ts.length ≤ n) (hbound : ts.length ≤ bound) :
    Reads (parseMoreArgs nested n) ts DerivesMoreArgs := by
  induction n generalizing ts with
  | zero =>
    obtain ⟨t, us, rfl⟩ := hterm.exists_cons
    simp at hn
  | succ n ih =>
    obtain ⟨t, us, rfl⟩ := hterm.exists_cons
    rw [List.length_cons] at hn hbound
    by_cases hcomma : t.kind = .comma
    · refine .cons (q := do
        let a ← nested
        let as ← parseMoreArgs nested n
        pure (a :: as)) ?_ ?_
      · rw [parseMoreArgs, peek_bind, if_pos hcomma, advance_bind]
      · have hus : Terminated us := hterm.tail (by rw [hcomma]; decide)
        refine (hnested us hus (by omega)).bind fun vs rest x hus hrest hx => ?_
        subst hus
        rw [List.length_append] at hn hbound
        refine (ih hrest (by omega) (by omega)).bind fun ws rest' xs _ hrest' hxs => ?_
        refine .pure hrest' ?_
        rw [List.append_nil]
        exact .more hcomma hx hxs
    · refine .inr ⟨[], t :: us, [], rfl, ?_, hterm, .done⟩
      rw [parseMoreArgs, peek_bind, if_neg hcomma]
      rfl

theorem parseArgList_reads (hnested : ReadsWithin bound nested (Derives .expr))
    (hterm : Terminated ts) (hfuel : ts.length ≤ fuel) (hbound : ts.length ≤ bound) :
    Reads (parseArgList nested fuel) ts DerivesArgs := by
  obtain ⟨t, us, rfl⟩ := hterm.exists_cons
  by_cases hparen : t.kind = .rParen
  · refine .inr ⟨[], t :: us, [], rfl, ?_, hterm, .none⟩
    rw [parseArgList, peek_bind, if_pos hparen]
    rfl
  · have hrun : parseArgList nested fuel (t :: us) = (do
        let a ← nested
        let as ← parseMoreArgs nested fuel
        pure (a :: as)) (t :: us) := by
      rw [parseArgList, peek_bind, if_neg hparen]
    have hreads : Reads (do
        let a ← nested
        let as ← parseMoreArgs nested fuel
        pure (a :: as)) (t :: us) DerivesArgs := by
      refine (hnested _ hterm hbound).bind fun vs rest x hts hrest hx => ?_
      rw [hts, List.length_append] at hfuel hbound
      refine (parseMoreArgs_reads hnested hrest (by omega) (by omega)).bind
        fun ws rest' xs _ hrest' hxs => .pure hrest' ?_
      rw [List.append_nil]
      exact .some hx hxs
    rwa [Reads, hrun]

theorem parsePrimary_reads (hnested : ReadsWithin bound nested (Derives .expr))
    (hterm : Terminated ts) (hfuel : ts.length ≤ fuel) (hbound : ts.length ≤ bound + 1) :
    Reads (parsePrimary nested fuel) ts (Derives .factor) := by
  obtain ⟨t, us, rfl⟩ := hterm.exists_cons
  rw [List.length_cons] at hfuel hbound
  by_cases hnumber : t.kind = .number
  · refine .cons (q := pure (.numberLiteral t.loc t.numberValue)) ?_ ?_
    · simp only [parsePrimary, peek_bind, hnumber, advance_bind]
    · exact .pure (hterm.tail (by rw [hnumber]; decide)) (.number hnumber)
  by_cases hident : t.kind = .identifier
  · have hus : Terminated us := hterm.tail (by rw [hident]; decide)
    obtain ⟨l, vs, rfl⟩ := hus.exists_cons
    by_cases hparen : l.kind = .lParen
    · refine .cons (q := do
        advance
        let args ← parseArgList nested fuel
        let _ ← consume .rParen "Expected ')' after function args"
        pure (.functionCall t.loc t.lexeme args (-1) (-1))) ?_ ?_
      · simp only [parsePrimary, peek_bind, hident, advance_bind, if_pos hparen]
      refine .cons (advance_bind _) ?_
      rw [List.length_cons] at hfuel hbound
      have hvs : Terminated vs := hus.tail (by rw [hparen]; decide)
      refine (parseArgList_reads hnested hvs (by omega) (by omega)).bind
        fun ws rest args _ hrest hargs => ?_
      refine (Reads.consume hrest (by decide)).bind fun ws' rest' r _ hrest' hr => ?_
      obtain ⟨rfl, hr⟩ := hr
      refine .pure hrest' ?_
      rw [List.append_nil]
      exact .call hident hparen hargs hr
    · refine .cons (q := pure (.identifierExpr t.loc t.lexeme)) ?_ ?_
      · simp only [parsePrimary, peek_bind, hident, advance_bind, if_neg hparen]
      · exact .pure hus (.identifier hident)
  by_cases hparen : t.kind = .lParen
  · refine .cons (q := do
      let expr ← nested
      let _ ← consume .rParen "Expected ')' after expression"
      pure (withParenLoc expr t.loc)) ?_ ?_
    · simp only [parsePrimary, peek_bind, hparen, advance_bind]
    have hus : Terminated us := hterm.tail (by rw [hparen]; decide)
    refine (hnested us hus (by omega)).bind fun ws rest x _ hrest hx => ?_
    refine (Reads.consume hrest (by decide)).bind fun ws' rest' r _ hrest' hr => ?_
    obtain ⟨rfl, hr⟩ := hr
    refine .pure hrest' ?_
    rw [List.append_nil]
    exact .paren hparen hx hr
  · -- no factor starts with any other token
    refine .inl ⟨⟨"Expected expression", t.loc⟩, ?_⟩
    rw [parsePrimary, peek_bind]
    cases hkind : t.kind <;> first | contradiction | rfl

theorem parseUnary_reads (hnested : ReadsWithin bound nested (Derives .expr)) {n : Nat}
    (hterm : Terminated ts) (hn : ts.length ≤ n) (hfuel : ts.length ≤ fuel)
    (hbound : ts.length ≤ bound + 1) :
    Reads (parseUnary nested fuel n) ts (Derives .factor) := by
  induction n generalizing ts with
  | zero =>
    obtain ⟨t, us, rfl⟩ := hterm.exists_cons
    simp at hn
  | succ n ih =>
    obtain ⟨t, us, rfl⟩ := hterm.exists_cons
    cases hop : unaryOpKind t.kind with
    | none =>
      have hrun : parseUnary nested fuel (n + 1) (t :: us) = parsePrimary nested fuel (t :: us) := by
        simp only [parseUnary, peek_bind, hop]
      have hreads := parsePrimary_reads hnested hterm hfuel hbound
      rwa [Reads, hrun]
    | some k =>
      rw [List.length_cons] at hn hfuel hbound
      have hkind : t.kind ≠ .endOfFile := by
        intro h
        rw [h] at hop
        cases hop
      refine .cons (q := do
        let inner ← parseUnary nested fuel n
        pure (.unaryOp t.loc k inner)) ?_ ?_
      · simp only [parseUnary, peek_bind, hop, advance_bind]
      · refine (ih (hterm.tail hkind) (by omega) (by omega) (by omega)).bind
          fun ws rest x _ hrest hx => .pure hrest ?_
        rw [List.append_nil]
        exact .unary hop hx

/-- A level is read when its operands are. -/
theorem Level.parse_reads (l : Level) (signs : Nat) {n : Nat} (hn : n ≤ fuel)
    (hoperand : ReadsWithin n (l.operand.parse nested fuel fuel) (Derives l.operand)) :
    ReadsWithin n ((Phrase.level l).parse nested fuel signs) (Derives (.level l)) := by
  intro ts hterm hts
  rw [Level.parse_eq]
  refine (hoperand ts hterm hts).bind fun us rest x hus hrest hx => ?_
  rw [hus, List.length_append] at hts
  obtain ⟨e, he⟩ | ⟨ws, rest', y, hws, hy, hrest', hrep⟩ :=
    leftAssociative_reads hoperand x hrest (by omega : rest.length ≤ fuel) (by omega)
  · exact .inl ⟨e, he⟩
  · exact .inr ⟨ws, rest', y, hws, hy, hrest', .chain hx hrep⟩

/-- `ParseLogical`, one level after the other. -/
theorem parseLogical_reads (hnested : ReadsWithin bound nested (Derives .expr)) {n : Nat}
    (hn : n ≤ fuel) (hbound : n ≤ bound + 1) :
    ReadsWithin n (parseLogical nested fuel) (Derives (.level .logical)) := by
  have hfactor : ReadsWithin n (Phrase.factor.parse nested fuel fuel) (Derives .factor) :=
    fun ts hterm hts =>
      parseUnary_reads hnested hterm (hts.trans hn) (hts.trans hn) (hts.trans hbound)
  have hterm := Level.parse_reads .term fuel hn hfactor
  have hadditive := Level.parse_reads .additive fuel hn hterm
  have hcomparison := Level.parse_reads .comparison fuel hn hadditive
  exact Level.parse_reads .logical fuel hn hcomparison

/-- `ParseConditional` -/
theorem parseConditional_reads (hnested : ReadsWithin bound nested (Derives .expr))
    (hfuel : bound + 1 ≤ fuel) :
    ReadsWithin (bound + 1) (parseConditional nested fuel) (Derives .expr) := by
  intro ts hterm hts
  obtain ⟨t, us, rfl⟩ := hterm.exists_cons
  by_cases hif : t.kind = .ifWord
  · rw [List.length_cons] at hts
    refine .cons (q := do
      let cond ← nested
      let _ ← consume .thenWord "Expected 'then' in conditional expression"
      let thenExpr ← nested
      let _ ← consume .elseWord "Expected 'else' in conditional expression"
      let elseExpr ← nested
      pure (.conditional t.loc cond thenExpr elseExpr)) ?_ ?_
    · rw [parseConditional, peek_bind, if_pos hif, advance_bind]
    refine (hnested us (hterm.tail (by rw [hif]; decide)) (by omega)).bind
      fun cs rest₁ c hcs hrest₁ hc => ?_
    rw [hcs, List.length_append] at hts
    refine (Reads.consume hrest₁ (by decide)).bind fun vs rest₂ th hvs hrest₂ hth => ?_
    obtain ⟨rfl, hth⟩ := hth
    rw [hvs, List.length_append] at hts
    refine (hnested rest₂ hrest₂ (by omega)).bind fun xs rest₃ x hxs hrest₃ hx => ?_
    rw [hxs, List.length_append] at hts
    refine (Reads.consume hrest₃ (by decide)).bind fun vs rest₄ el hvs hrest₄ hel => ?_
    obtain ⟨rfl, hel⟩ := hel
    rw [hvs, List.length_append] at hts
    refine (hnested rest₄ hrest₄ (by omega)).bind fun ys rest₅ y _ hrest₅ hy => .pure hrest₅ ?_
    simpa using Derives.conditional hif hc hth hx hel hy
  · have hrun : parseConditional nested fuel (t :: us) = parseLogical nested fuel (t :: us) := by
      rw [parseConditional, peek_bind, if_neg hif]
    obtain ⟨e, he⟩ | ⟨ws, rest, y, hws, hy, hrest, hlogical⟩ :=
      parseLogical_reads hnested hfuel le_rfl _ hterm hts
    · exact .inl ⟨e, hrun.trans he⟩
    · exact .inr ⟨ws, rest, y, hws, hrun.trans hy, hrest, .logical hlogical⟩

/-- **`ParseExpr` reads expressions**: it stops before the end of the input, and what it takes is
derivable. The bound on the depth is never met. -/
theorem parseExpr_reads (h : bound ≤ fuel) :
    ReadsWithin bound (parseExpr fuel bound) (Derives (D := D) .expr) := by
  induction bound with
  | zero =>
    intro ts hterm hts
    obtain ⟨t, us, rfl⟩ := hterm.exists_cons
    simp at hts
  | succ bound ih => exact parseConditional_reads (ih (by omega)) h

end Sound

/-! ## Every derivation is parsed -/

/-- The tokens that no phrase of a kind goes on with. -/
def Phrase.Stops : Phrase → TokenKind → Prop
  | .expr, k | .level .logical, k =>
    logicalOp k = none ∧ comparisonOp k = none ∧ termOp k = none ∧ factorOp k = none ∧ k ≠ .lParen
  | .level .comparison, k =>
    comparisonOp k = none ∧ termOp k = none ∧ factorOp k = none ∧ k ≠ .lParen
  | .level .additive, k => termOp k = none ∧ factorOp k = none ∧ k ≠ .lParen
  | .level .term, k => factorOp k = none ∧ k ≠ .lParen
  | .factor, k => k ≠ .lParen

instance (p : Phrase) (k : TokenKind) : Decidable (p.Stops k) :=
  match p with
  | .expr | .level .logical => inferInstanceAs (Decidable (_ ∧ _))
  | .level .comparison => inferInstanceAs (Decidable (_ ∧ _))
  | .level .additive => inferInstanceAs (Decidable (_ ∧ _))
  | .level .term => inferInstanceAs (Decidable (_ ∧ _))
  | .factor => inferInstanceAs (Decidable (_ ≠ _))

theorem Phrase.stops_level {l : Level} {k : TokenKind} :
    (Phrase.level l).Stops k ↔ l.op k = none ∧ l.operand.Stops k := by
  cases l <;> rfl

/-- An operator of a level ends its operands. -/
theorem Level.operand_stops {l : Level} {k : TokenKind} {op : BinaryOpKind} (h : l.op k = some op) :
    l.operand.Stops k := by
  cases l <;> cases k <;> cases h <;> simp [operand, Phrase.Stops, comparisonOp, termOp, factorOp]

/-- A derivation has a first token. Only a conditional starts with `if`. -/
theorem Derives.exists_cons {p : Phrase} {ts : List (Token D)} {x : Expr D} :
    Derives p ts x →
      ∃ t us, ts = t :: us ∧ t.kind ≠ .rParen ∧ (p = .expr ∨ t.kind ≠ .ifWord)
  | .conditional h _ _ _ _ _ => ⟨_, _, rfl, by rw [h]; decide, .inl rfl⟩
  | .logical h => by
    obtain ⟨t, us, hts, hparen, -⟩ := h.exists_cons
    exact ⟨t, us, hts, hparen, .inl rfl⟩
  | @Derives.chain _ l _ us _ _ h _ => by
    obtain ⟨t, vs, rfl, hparen, hp⟩ := h.exists_cons
    refine ⟨t, vs ++ us, rfl, hparen, .inr (hp.resolve_left ?_)⟩
    cases l <;> simp [Level.operand]
  | .number h => ⟨_, _, rfl, by rw [h]; decide, .inr (by rw [h]; decide)⟩
  | .identifier h => ⟨_, _, rfl, by rw [h]; decide, .inr (by rw [h]; decide)⟩
  | .call h _ _ _ => ⟨_, _, rfl, by rw [h]; decide, .inr (by rw [h]; decide)⟩
  | .paren h _ _ => ⟨_, _, rfl, by rw [h]; decide, .inr (by rw [h]; decide)⟩
  | .unary (k := k) h _ => by
    refine ⟨_, _, rfl, ?_, .inr ?_⟩
    all_goals
      intro hkind
      rw [hkind] at h
      cases h

theorem Derives.length_pos {p : Phrase} {ts : List (Token D)} {x : Expr D} (h : Derives p ts x) :
    0 < ts.length := by
  obtain ⟨t, us, rfl, -, -⟩ := h.exists_cons
  exact Nat.succ_pos _

/-- What follows an operand: the next operator of the level, or what follows the level. -/
theorem Repeats.follow {l : Level} {x y : Expr D} {us : List (Token D)} (h : Repeats l x us y)
    {t : Token D} (rest : List (Token D)) (hstops : (Phrase.level l).Stops t.kind) :
    ∃ v vs, us ++ t :: rest = v :: vs ∧ l.operand.Stops v.kind := by
  cases h with
  | done => exact ⟨t, rest, rfl, (Phrase.stops_level.mp hstops).2⟩
  | more hop _ _ => exact ⟨_, _, rfl, Level.operand_stops hop⟩

theorem DerivesMoreArgs.follow {us : List (Token D)} {xs : List (Expr D)}
    (h : DerivesMoreArgs us xs) {t : Token D} (rest : List (Token D)) (ht : t.kind = .rParen) :
    ∃ v vs, us ++ t :: rest = v :: vs ∧ Phrase.expr.Stops v.kind := by
  cases h with
  | done => exact ⟨t, rest, rfl, by rw [ht]; decide⟩
  | more hcomma _ _ => exact ⟨_, _, rfl, by rw [hcomma]; decide⟩

/-- A nested expression has a token, so the bound on the depth leaves a level for it. -/
theorem parseExpr_nested {fuel : Nat} (depth : Nat) {ts rest : List (Token D)} {x : Expr D}
    (h : Derives .expr ts x) (hdepth : ts.length ≤ depth)
    (hparsed : ∀ d, ts.length ≤ d + 1 →
      parseConditional (parseExpr fuel d) fuel (ts ++ rest) = .ok (x, rest)) :
    parseExpr fuel depth (ts ++ rest) = .ok (x, rest) := by
  cases depth with
  | zero => exact absurd h.length_pos (by omega)
  | succ d => exact hparsed d hdepth

section Complete

variable {fuel : Nat}

mutual

/-- **Every derivation is parsed**, in front of a token that the phrase does not go on with. -/
theorem Derives.parsed {p : Phrase} {ts : List (Token D)} {x : Expr D} {t : Token D}
    (rest : List (Token D)) (depth signs : Nat) :
    Derives p ts x → p.Stops t.kind → ts.length ≤ depth + 1 → ts.length ≤ fuel →
      ts.length ≤ signs →
      p.parse (parseExpr fuel depth) fuel signs (ts ++ t :: rest) = .ok (x, t :: rest)
  | @Derives.conditional _ _ thenTok elseTok cs ts es _ _ _ hif hc hthen hx helse hy, hstops,
      hdepth, hfuel, _ => by
    simp only [List.length_cons, List.length_append] at hdepth hfuel
    have hcond := fun rest' => parseExpr_nested depth hc (by omega) fun d hd =>
      Derives.parsed rest' d fuel hc (t := thenTok) (by rw [hthen]; decide) hd (by omega) (by omega)
    have hthenExpr := fun rest' => parseExpr_nested depth hx (by omega) fun d hd =>
      Derives.parsed rest' d fuel hx (t := elseTok) (by rw [helse]; decide) hd (by omega) (by omega)
    have helseExpr := parseExpr_nested depth hy (by omega) fun d hd =>
      Derives.parsed rest d fuel hy hstops hd (by omega) (by omega)
    simp only [List.cons_append, List.append_assoc]
    rw [Phrase.parse, parseConditional, peek_bind, if_pos hif, advance_bind, bind_ok (hcond _),
      bind_ok (consume_ok hthen), bind_ok (hthenExpr _), bind_ok (consume_ok helse),
      bind_ok helseExpr]
    rfl
  | .logical h, hstops, hdepth, hfuel, hsigns => by
    have hlogical := Derives.parsed rest depth signs h hstops hdepth hfuel hsigns
    obtain ⟨u, us, hts, -, hu⟩ := h.exists_cons
    have hif : u.kind ≠ .ifWord := hu.resolve_left (by simp)
    rw [hts, List.cons_append] at hlogical ⊢
    rw [Phrase.parse, parseConditional, peek_bind, if_neg hif]
    exact hlogical
  | @Derives.chain _ l ts us _ _ h hs, hstops, hdepth, hfuel, _ => by
    rw [List.length_append] at hdepth hfuel
    have hpos := h.length_pos
    obtain ⟨v, vs, hv, hvstops⟩ := hs.follow rest hstops
    have hoperand := Derives.parsed vs depth fuel h hvstops (by omega) (by omega) (by omega)
    rw [← hv] at hoperand
    rw [Level.parse_eq, List.append_assoc, bind_ok hoperand]
    exact Repeats.parsed rest depth fuel hs hstops (by omega) (by omega) (by omega)
  | .number h, _, _, _, hsigns => by
    obtain ⟨n, rfl⟩ := Nat.exists_eq_add_of_le' hsigns
    simp only [Phrase.parse, List.length_singleton, parseUnary, List.singleton_append, peek_bind,
      h, unaryOpKind, parsePrimary, advance_bind]
    rfl
  | .identifier h, hstops, _, _, hsigns => by
    obtain ⟨n, rfl⟩ := Nat.exists_eq_add_of_le' hsigns
    simp only [Phrase.parse, List.length_singleton, parseUnary, List.singleton_append, peek_bind,
      h, unaryOpKind, parsePrimary, advance_bind]
    rw [if_neg hstops]
    rfl
  | @Derives.call _ _ _ _ ts _ hf hl hargs hr, _, hdepth, hfuel, hsigns => by
    simp only [List.length_cons, List.length_append] at hdepth hfuel hsigns
    obtain ⟨n, rfl⟩ : ∃ n, signs = n + 1 := ⟨signs - 1, by omega⟩
    have hlist := fun rest' => DerivesArgs.parsed rest' depth hargs hr (by omega) (by omega)
    simp only [Phrase.parse, parseUnary, List.cons_append, List.append_assoc, peek_bind, hf,
      unaryOpKind, parsePrimary, advance_bind]
    rw [if_pos hl, advance_bind, bind_ok (hlist _), List.nil_append, bind_ok (consume_ok hr)]
    rfl
  | @Derives.paren _ _ r ts _ hl h hr, _, hdepth, hfuel, hsigns => by
    simp only [List.length_cons, List.length_append] at hdepth hfuel hsigns
    obtain ⟨n, rfl⟩ : ∃ n, signs = n + 1 := ⟨signs - 1, by omega⟩
    have hexpr := fun rest' => parseExpr_nested depth h (by omega) fun d hd =>
      Derives.parsed rest' d fuel h (t := r) (by rw [hr]; decide) hd (by omega) (by omega)
    simp only [Phrase.parse, parseUnary, List.cons_append, List.append_assoc, peek_bind, hl,
      unaryOpKind, parsePrimary, advance_bind]
    rw [bind_ok (hexpr _), List.nil_append, bind_ok (consume_ok hr)]
    rfl
  | .unary hop h, hstops, hdepth, hfuel, hsigns => by
    rw [List.length_cons] at hdepth hfuel hsigns
    obtain ⟨n, rfl⟩ : ∃ n, signs = n + 1 := ⟨signs - 1, by omega⟩
    have hinner := Derives.parsed rest depth n h hstops (by omega) (by omega) (by omega)
    rw [Phrase.parse] at hinner
    simp only [Phrase.parse, parseUnary, List.cons_append, peek_bind, hop, advance_bind]
    rw [bind_ok hinner]
    rfl

theorem Repeats.parsed {l : Level} {us : List (Token D)} {x y : Expr D} {t : Token D}
    (rest : List (Token D)) (depth n : Nat) :
    Repeats l x us y → (Phrase.level l).Stops t.kind → us.length ≤ depth + 1 → us.length ≤ fuel →
      us.length < n →
      leftAssociative l.op (l.operand.parse (parseExpr fuel depth) fuel fuel) n x (us ++ t :: rest) =
        .ok (y, t :: rest)
  | .done, hstops, _, _, hn => by
    obtain ⟨m, rfl⟩ := Nat.exists_eq_add_of_lt hn
    simp only [leftAssociative, List.nil_append, peek_bind, (Phrase.stops_level.mp hstops).1]
    rfl
  | @Repeats.more _ _ _ _ ts us _ _ _ hop h hs, hstops, hdepth, hfuel, hn => by
    simp only [List.length_cons, List.length_append] at hdepth hfuel hn
    obtain ⟨m, rfl⟩ : ∃ m, n = m + 1 := ⟨n - 1, by omega⟩
    have hpos := h.length_pos
    obtain ⟨v, vs, hv, hvstops⟩ := hs.follow rest hstops
    have hoperand := Derives.parsed vs depth fuel h hvstops (by omega) (by omega) (by omega)
    rw [← hv] at hoperand
    simp only [leftAssociative, List.cons_append, List.append_assoc, peek_bind, hop, advance_bind]
    rw [bind_ok hoperand]
    exact Repeats.parsed rest depth m hs hstops (by omega) (by omega) (by omega)

theorem DerivesArgs.parsed {ts : List (Token D)} {xs : List (Expr D)} {t : Token D}
    (rest : List (Token D)) (depth : Nat) :
    DerivesArgs ts xs → t.kind = .rParen → ts.length ≤ depth → ts.length ≤ fuel →
      parseArgList (parseExpr fuel depth) fuel (ts ++ t :: rest) = .ok (xs, t :: rest)
  | .none, hparen, hdepth, hfuel => by
    rw [parseArgList, List.nil_append, peek_bind, if_pos hparen]
    rfl
  | @DerivesArgs.some _ ts us _ _ h hs, hparen, hdepth, hfuel => by
    rw [List.length_append] at hdepth hfuel
    have hpos := h.length_pos
    obtain ⟨v, vs, hv, hvstops⟩ := hs.follow rest hparen
    have harg := parseExpr_nested depth h (by omega) fun d hd =>
      Derives.parsed vs d fuel h hvstops hd (by omega) (by omega)
    rw [← hv] at harg
    obtain ⟨u, ws, hts, hu, -⟩ := h.exists_cons
    have hrun : parseArgList (parseExpr fuel depth) fuel (ts ++ (us ++ t :: rest)) = (do
        let a ← parseExpr fuel depth
        let as ← parseMoreArgs (parseExpr fuel depth) fuel
        pure (a :: as)) (ts ++ (us ++ t :: rest)) := by
      rw [hts, List.cons_append, parseArgList, peek_bind, if_neg hu]
    rw [List.append_assoc, hrun, bind_ok harg,
      bind_ok (DerivesMoreArgs.parsed rest depth fuel hs hparen (by omega) (by omega) (by omega))]
    rfl

theorem DerivesMoreArgs.parsed {us : List (Token D)} {xs : List (Expr D)} {t : Token D}
    (rest : List (Token D)) (depth n : Nat) :
    DerivesMoreArgs us xs → t.kind = .rParen → us.length ≤ depth → us.length ≤ fuel →
      us.length < n →
      parseMoreArgs (parseExpr fuel depth) n (us ++ t :: rest) = .ok (xs, t :: rest)
  | .done, hparen, _, _, hn => by
    obtain ⟨m, rfl⟩ := Nat.exists_eq_add_of_lt hn
    rw [List.nil_append, parseMoreArgs, peek_bind, if_neg (by rw [hparen]; decide)]
    rfl
  | @DerivesMoreArgs.more _ _ ts us _ _ hcomma h hs, hparen, hdepth, hfuel, hn => by
    simp only [List.length_cons, List.length_append] at hdepth hfuel hn
    obtain ⟨m, rfl⟩ : ∃ m, n = m + 1 := ⟨n - 1, by omega⟩
    have hpos := h.length_pos
    obtain ⟨v, vs, hv, hvstops⟩ := hs.follow rest hparen
    have harg := parseExpr_nested depth h (by omega) fun d hd =>
      Derives.parsed vs d fuel h hvstops hd (by omega) (by omega)
    rw [← hv] at harg
    simp only [List.cons_append, List.append_assoc]
    rw [parseMoreArgs, peek_bind, if_pos hcomma, advance_bind, bind_ok harg,
      bind_ok (DerivesMoreArgs.parsed rest depth m hs hparen (by omega) (by omega) (by omega))]
    rfl

end

end Complete

/-! ## Signal definitions -/

section SignalDefinitions

variable {fuel : Nat} {tokens : List (Token D)}

theorem DerivesSignal.parsed {s : SignalDef D} (h : DerivesSignal tokens s)
    (hfuel : tokens.length ≤ fuel) : parseSignalDef fuel tokens = .ok (s, []) := by
  obtain @⟨_, _, _, e, ts, x, hsignal, hname, hassign, hbody, hend⟩ := h
  simp only [List.length_cons, List.length_append] at hfuel
  have hexpr : parseExpr fuel fuel (ts ++ [e]) = .ok (x, [e]) :=
    parseExpr_nested fuel hbody (by omega) fun d hd =>
      Derives.parsed [] d fuel hbody (by rw [hend]; decide) hd (by omega) (by omega)
  rw [parseSignalDef, bind_ok (consume_ok hsignal), bind_ok (consume_ok hname),
    bind_ok (consume_ok hassign), bind_ok hexpr, bind_ok (consume_ok hend)]
  rfl

/-- The end of the input is taken last. -/
theorem consume_end (hterm : Terminated tokens) (message : String) :
    (∃ e, Parse.consume .endOfFile message tokens = .error (.error e)) ∨
      ∃ t, tokens = [t] ∧ t.kind = .endOfFile ∧
        Parse.consume .endOfFile message tokens = .ok (t, []) := by
  obtain ⟨t, ts, rfl⟩ := hterm.exists_cons
  by_cases hend : t.kind = .endOfFile
  · obtain rfl := hterm.end hend
    exact .inr ⟨t, rfl, hend, consume_ok hend⟩
  · exact .inl (consume_error hend)

/-- A parsed definition is derivable, and nothing is left behind it. -/
theorem parseSignalDef_cases (hterm : Terminated tokens) (hfuel : tokens.length ≤ fuel) :
    (∃ e, parseSignalDef fuel tokens = .error (.error e)) ∨
      ∃ s, parseSignalDef fuel tokens = .ok (s, []) ∧ DerivesSignal tokens s := by
  -- everything in front of the last token
  let definition : Parse D (SignalDef D) := do
    let _ ← Parse.consume .signal "Expected 'signal' at start of definition"
    let name ← Parse.consume .identifier "Expected signal name"
    let _ ← Parse.consume .assign "Expected '=' after signal name"
    let body ← parseExpr fuel fuel
    pure ⟨name.lexeme, body⟩
  have hsplit : parseSignalDef fuel = (do
      let s ← definition
      let _ ← Parse.consume .endOfFile "Expected end of input"
      pure s) := by
    simp only [parseSignalDef, definition, bind_assoc, pure_bind]
  have hreads : Reads definition tokens fun us s => ∀ e : Token D, e.kind = .endOfFile →
      DerivesSignal (us ++ [e]) s := by
    refine (Reads.consume hterm (by decide)).bind fun us rest₁ t hts hrest₁ ht => ?_
    obtain ⟨rfl, ht⟩ := ht
    rw [hts, List.length_append] at hfuel
    refine (Reads.consume hrest₁ (by decide)).bind fun us rest₂ n hns hrest₂ hn => ?_
    obtain ⟨rfl, hn⟩ := hn
    rw [hns, List.length_append] at hfuel
    refine (Reads.consume hrest₂ (by decide)).bind fun us rest₃ a has hrest₃ ha => ?_
    obtain ⟨rfl, ha⟩ := ha
    rw [has, List.length_append] at hfuel
    refine (parseExpr_reads le_rfl rest₃ hrest₃ (by omega)).bind fun us rest₄ x _ hrest₄ hx =>
      .pure hrest₄ fun e he => ?_
    simpa using DerivesSignal.intro ht hn ha hx he
  rw [hsplit]
  obtain ⟨e, he⟩ | ⟨us, rest, s, rfl, hs, hrest, hderives⟩ := hreads
  · exact .inl ⟨e, Parse.bind_error he⟩
  · rw [Parse.bind_ok hs]
    obtain ⟨e, he⟩ | ⟨t, rfl, ht, hend⟩ := consume_end hrest "Expected end of input"
    · exact .inl ⟨e, Parse.bind_error he⟩
    · exact .inr ⟨s, Parse.bind_ok hend, hderives t ht⟩

/-- **The parser accepts exactly its grammar.** On every token list with one `EndOfFile` token, at
its end, `ParseSignalDef` returns behind the last token or throws a `ParseError`. It returns on
the signal definitions of the grammar and on no others, and what it returns is the only tree of
the definition. -/
theorem parser_accepts_grammar (hterm : Terminated tokens) (hfuel : tokens.length ≤ fuel) :
    ((∃ s, parseSignalDef fuel tokens = .ok (s, [])) ∨
      ∃ e, parseSignalDef fuel tokens = .error (.error e)) ∧
    ((∃ s rest, parseSignalDef fuel tokens = .ok (s, rest)) ↔ ∃ s, DerivesSignal tokens s) ∧
    ∀ s rest, parseSignalDef fuel tokens = .ok (s, rest) →
      DerivesSignal tokens s ∧ ∀ s', DerivesSignal tokens s' → s' = s := by
  have hunique : ∀ s rest s', parseSignalDef fuel tokens = .ok (s, rest) →
      DerivesSignal tokens s' → s' = s := by
    intro s rest s' hs hs'
    rw [hs'.parsed hfuel] at hs
    cases hs
    rfl
  obtain ⟨e, he⟩ | ⟨s, hs, hderives⟩ := parseSignalDef_cases hterm hfuel
  · refine ⟨.inr ⟨e, he⟩, ⟨?_, ?_⟩, ?_⟩
    · rintro ⟨s, rest, hs⟩
      rw [he] at hs
      cases hs
    · rintro ⟨s, hs⟩
      exact ⟨s, [], hs.parsed hfuel⟩
    · intro s rest hs
      rw [he] at hs
      cases hs
  · refine ⟨.inl ⟨s, hs⟩, ⟨fun _ => ⟨s, hderives⟩, fun _ => ⟨s, [], hs⟩⟩, ?_⟩
    intro s₁ rest hs₁
    rw [hs] at hs₁
    cases hs₁
    exact ⟨hderives, fun s' => hunique s [] s' hs⟩

end SignalDefinitions

/-- `signal s = a - b - 1` -/
def twoMinus : List (Token ℚ) :=
  let token (kind : TokenKind) (lexeme : String) (value : ℚ) (col : Nat) : Token ℚ :=
    ⟨kind, lexeme, value, ⟨1, col, lexeme.length⟩⟩
  [token .signal "signal" 0 1, token .identifier "s" 0 8, token .assign "=" 0 10,
    token .identifier "a" 0 12, token .minus "-" 0 14, token .identifier "b" 0 16,
    token .minus "-" 0 18, token .number "1" 1 20, token .endOfFile "" 0 21]

theorem parser_accepts_grammar_twoMinus :
    ((∃ s, parseSignalDef 9 twoMinus = .ok (s, [])) ∨
      ∃ e, parseSignalDef 9 twoMinus = .error (.error e)) ∧
    ((∃ s rest, parseSignalDef 9 twoMinus = .ok (s, rest)) ↔ ∃ s, DerivesSignal twoMinus s) ∧
    ∀ s rest, parseSignalDef 9 twoMinus = .ok (s, rest) →
      DerivesSignal twoMinus s ∧ ∀ s', DerivesSignal twoMinus s' → s' = s :=
  parser_accepts_grammar (by decide) (by decide)

end JitSignalEngine
