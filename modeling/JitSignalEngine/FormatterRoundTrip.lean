import JitSignalEngine.Formatter
import JitSignalEngine.LexerSpans

/-!
# Formatting and parsing again

The formatter has its own table of precedences, and the parser its own levels. `&&` binds tighter
than `||` in the table, and they share a level of the parser.

* `Expr.Plain` — the expressions with a text: integers, identifiers, operators, conditionals and
  calls.
* `Expr.reparse` — the tree the text of an expression is parsed to. An `&&` behind an `||` has no
  parentheses, so the parser takes the `||` for its left operand.
* `PrintsAs` — what the text of an expression derives at a precedence. One lemma for each
  construct.
* `format_reparses` — every expression is parsed to its `reparse`.
* `format_roundTrips_iff` — which is the expression itself exactly if no `||` has an `&&` for its
  right operand.
-/

namespace JitSignalEngine

open Fp Parse

variable {D : Type}

/-! ## Expressions with a text -/

/-- A name that the lexer reads back as one identifier. -/
def LexesAsIdentifier (D : Type) [Fp D] (name : String) : Prop :=
  ∃ t eof : Token D, tokenize name.toList = .ok [t, eof] ∧ t.kind = .identifier ∧ t.lexeme = name

mutual

/-- Expressions without parameters whose literals are integers below `10^15` and whose names
are identifiers. -/
def Expr.Plain [Fp D] : Expr D → Prop
  | .numberLiteral _ v => ∃ n < 10 ^ 15, v = ofNat n
  | .identifierExpr _ name => LexesAsIdentifier D name
  | .parameterExpr _ _ _ => False
  | .unaryOp _ _ e => e.Plain
  | .binaryOp _ _ l r => l.Plain ∧ r.Plain
  | .conditional _ c t e => c.Plain ∧ t.Plain ∧ e.Plain
  | .functionCall _ name args _ _ => LexesAsIdentifier D name ∧ Expr.PlainArgs args

/-- `Plain` on an argument list. -/
def Expr.PlainArgs [Fp D] : List (Expr D) → Prop
  | [] => True
  | a :: as => a.Plain ∧ Expr.PlainArgs as

end

/-- An `&&` outside. -/
def Expr.isAnd : Expr D → Bool
  | .binaryOp _ .and _ _ => true
  | _ => false

mutual

/-- No `||` has an `&&` for its right operand. -/
def Expr.noAndBehindOr : Expr D → Bool
  | .numberLiteral _ _ | .identifierExpr _ _ | .parameterExpr _ _ _ => true
  | .unaryOp _ _ e => e.noAndBehindOr
  | .binaryOp _ k l r => !(k == .or && r.isAnd) && l.noAndBehindOr && r.noAndBehindOr
  | .conditional _ c t e => c.noAndBehindOr && t.noAndBehindOr && e.noAndBehindOr
  | .functionCall _ _ args _ _ => Expr.noAndBehindOrArgs args

/-- `noAndBehindOr` on an argument list. -/
def Expr.noAndBehindOrArgs : List (Expr D) → Bool
  | [] => true
  | a :: as => a.noAndBehindOr && Expr.noAndBehindOrArgs as

end

/-! ## The tree a text is parsed to -/

/-- An operand of `||` behind what stands in front of it. -/
def behindOr : Option (Expr D) → Expr D → Expr D
  | none, e => e
  | some x, e => .binaryOp {} .or x e

mutual

/-- The tree of the text of an expression, or of `x || ` and the text. -/
def Expr.reparse (front : Option (Expr D)) : Expr D → Expr D
  | .numberLiteral loc v => behindOr front (.numberLiteral loc v)
  | .identifierExpr loc name => behindOr front (.identifierExpr loc name)
  | .parameterExpr loc name i => behindOr front (.parameterExpr loc name i)
  | .unaryOp loc k e => behindOr front (.unaryOp loc k (e.reparse none))
  | .binaryOp loc .and l r => .binaryOp loc .and (l.reparse front) (r.reparse none)
  | .binaryOp _ .or l r => behindOr front (r.reparse (some (l.reparse none)))
  | .binaryOp loc k l r => behindOr front (.binaryOp loc k (l.reparse none) (r.reparse none))
  | .conditional loc c t e =>
    behindOr front (.conditional loc (c.reparse none) (t.reparse none) (e.reparse none))
  | .functionCall loc name args nid sid =>
    behindOr front (.functionCall loc name (Expr.reparseArgs args) nid sid)

/-- `reparse` on an argument list. -/
def Expr.reparseArgs : List (Expr D) → List (Expr D)
  | [] => []
  | a :: as => a.reparse none :: Expr.reparseArgs as

end

/-- Behind an `||` only an `&&` is torn apart. -/
theorem Expr.reparse_some {e : Expr D} (h : e.isAnd = false) (x : Expr D) :
    e.reparse (some x) = .binaryOp {} .or x (e.reparse none) := by
  cases e with
  | binaryOp loc k l r =>
    cases k with
    | and => cases h
    | _ => rfl
  | _ => rfl

/-- The tree of the text is the expression exactly where no `||` has an `&&` for its right
operand. -/
theorem Expr.strip_reparse_iff (e : Expr D) :
    (e.reparse none).strip = e.strip ↔ e.noAndBehindOr = true := by
  induction e using Expr.induct with
  | numberLiteral | identifierExpr | parameterExpr => exact ⟨fun _ => rfl, fun _ => rfl⟩
  | unaryOp loc k e ih => simpa [reparse, behindOr, strip, noAndBehindOr] using ih
  | conditional loc c t e ihc iht ihe =>
    simp [reparse, behindOr, strip, noAndBehindOr, ihc, iht, ihe, and_assoc]
  | binaryOp loc k l r ihl ihr =>
    cases k with
    | or =>
      cases hr : r.isAnd with
      | false =>
        rw [reparse, reparse_some hr]
        simp [behindOr, strip, noAndBehindOr, ihl, ihr, hr]
      | true =>
        -- the `&&` has come outside
        cases r with
        | binaryOp loc' k' a b =>
          cases k' with
          | and => simp [reparse, behindOr, strip, noAndBehindOr, isAnd]
          | _ => cases hr
        | _ => cases hr
    | and => simp [reparse, strip, noAndBehindOr, ihl, ihr]
    | _ => simp [reparse, behindOr, strip, noAndBehindOr, ihl, ihr]
  | functionCall loc name args nid sid ih =>
    have hargs : ∀ as : List (Expr D), (∀ a ∈ as, ((a.reparse none).strip = a.strip ↔
        a.noAndBehindOr = true)) →
        ((reparseArgs as).map strip = as.map strip ↔ noAndBehindOrArgs as = true) := by
      intro as
      induction as with
      | nil => intro _; exact ⟨fun _ => rfl, fun _ => rfl⟩
      | cons a as iha =>
        intro h
        simp [reparseArgs, noAndBehindOrArgs, h a List.mem_cons_self,
          iha fun b hb => h b (List.mem_cons_of_mem a hb)]
    simpa [reparse, behindOr, strip, noAndBehindOr] using hargs args ih

/-! ## Tokens of the formatter -/

section Tokens

variable [Fp D]

/-- Only words are identifiers. -/
theorem identifier_lexeme {fuel pos : Nat} {cs : List Char} {t : Token D} {ts : List (Token D)}
    (h : tokenizeFrom fuel pos cs = .ok (t :: ts)) (hkind : t.kind = .identifier) :
    ∃ c w, t.lexeme = String.ofList (c :: w) ∧ isWordStart c = true ∧
      (∀ d ∈ c :: w, isWordChar d = true) ∧
      TokenKind.ofWord (String.ofList (c :: w)) = .identifier := by
  rcases tokenizeFrom_run (D := D) fuel pos cs with ⟨m, hthrow⟩ | ⟨us, hok, hscan⟩ | ⟨hcut, -⟩
  · rw [hthrow] at h
    cases h
  · rw [hok, Except.ok.injEq] at h
    rcases us with _ | ⟨u, us⟩
    · cases h
      cases hkind
    · obtain ⟨rfl, -⟩ := List.cons.inj h
      obtain ⟨_, _, _, hturn⟩ := hscan.turn_of_mem List.mem_cons_self
      cases hturn with
      | number => cases hkind
      | @word c cs word _ hstart hspan =>
        obtain ⟨w, rfl⟩ := wordSpan_start hstart hspan
        exact ⟨c, w, rfl, hstart, (wordSpan_spec hspan).2.1, hkind⟩
      | @operator _ _ kind _ hop =>
        have hpunct := (readOperator_spec hop).1
        rw [show kind = .identifier from hkind] at hpunct
        cases hpunct
  · rw [hcut] at h
    cases h

/-- A name in a text. -/
theorem LexesAsIdentifier.lexes {name : String} (h : LexesAsIdentifier D name) :
    Lexes endsWord name.toList fun us : List (Token D) =>
      ∃ t, us = [t] ∧ t.kind = .identifier ∧ t.lexeme = name := by
  obtain ⟨t, eof, htokens, hkind, rfl⟩ := h
  obtain ⟨c, w, hw, hstart, hall, hofWord⟩ := identifier_lexeme htokens hkind
  rw [hw, String.toList_ofList]
  refine (Lexes.word hstart hall).mono ?_
  rintro us ⟨t', rfl, hkind', hlexeme'⟩
  exact ⟨t', rfl, hkind'.trans hofWord, hlexeme'⟩

/-- The level of the parser an operator belongs to. -/
def BinaryOpKind.level : BinaryOpKind → Level
  | .or | .and => .logical
  | .eq | .notEq | .gt | .lt | .gte | .lte => .comparison
  | .add | .sub => .additive
  | .mul | .div => .term

/-- An operator between two spaces. -/
theorem lexes_binary (k : BinaryOpKind) :
    Lexes anything (' ' :: (k.spelling ++ [' '])) fun us : List (Token D) =>
      ∃ o, us = [o] ∧ k.level.op o.kind = some k := by
  have hop : Lexes (fun rest => rest.head? = some ' ') k.spelling fun us : List (Token D) =>
      ∃ o, us = [o] ∧ k.level.op o.kind = some k := by
    have hpunct : ∀ (c : Char) (second : List Char) (kind : TokenKind) (lexeme : String),
        isSpace c = false → (isDigit c || c == '.') = false → isWordStart c = false →
        lexeme.length = second.length + 1 → k.level.op kind = some k →
        (∀ rest : List Char, rest.head? = some ' ' →
          readOperator c (second ++ rest).head? = .ok (kind, lexeme)) →
        Lexes (fun rest => rest.head? = some ' ') (c :: second) fun us : List (Token D) =>
          ∃ o, us = [o] ∧ k.level.op o.kind = some k := by
      intro c second kind lexeme hspace hnumber hword hlength hk hread
      refine (Lexes.operator hspace hnumber hword hlength hread).mono ?_
      rintro us ⟨t, rfl, ht⟩
      exact ⟨t, rfl, ht ▸ hk⟩
    cases k with
    | add => exact hpunct '+' [] .plus "+" rfl rfl rfl rfl rfl fun _ _ => rfl
    | sub => exact hpunct '-' [] .minus "-" rfl rfl rfl rfl rfl fun _ _ => rfl
    | mul => exact hpunct '*' [] .star "*" rfl rfl rfl rfl rfl fun _ _ => rfl
    | div => exact hpunct '/' [] .slash "/" rfl rfl rfl rfl rfl fun _ _ => rfl
    | gt =>
      exact hpunct '>' [] .gt ">" rfl rfl rfl rfl rfl fun rest h => by
        simp [readOperator, h]
    | lt =>
      exact hpunct '<' [] .lt "<" rfl rfl rfl rfl rfl fun rest h => by
        simp [readOperator, h]
    | gte => exact hpunct '>' ['='] .gte ">=" rfl rfl rfl rfl rfl fun _ _ => rfl
    | lte => exact hpunct '<' ['='] .lte "<=" rfl rfl rfl rfl rfl fun _ _ => rfl
    | eq => exact hpunct '=' ['='] .eq "==" rfl rfl rfl rfl rfl fun _ _ => rfl
    | notEq => exact hpunct '!' ['='] .notEq "!=" rfl rfl rfl rfl rfl fun _ _ => rfl
    | and => exact hpunct '&' ['&'] .and "&&" rfl rfl rfl rfl rfl fun _ _ => rfl
    | or => exact hpunct '|' ['|'] .or "||" rfl rfl rfl rfl rfl fun _ _ => rfl
  have hspaces := Lexes.append (Lexes.space (D := D))
    (Lexes.append hop Lexes.space fun rest _ => rfl) (fun _ _ => trivial)
  refine hspaces.mono ?_
  rintro us ⟨_, _, rfl, rfl, _, _, rfl, ⟨o, rfl, ho⟩, rfl⟩
  exact ⟨o, rfl, ho⟩

/-- A keyword between two spaces. -/
theorem lexes_keyword (c : Char) (cs : List Char) {kind : TokenKind}
    (hstart : isWordStart c = true) (hall : (c :: cs).all isWordChar = true)
    (hkind : TokenKind.ofWord (String.ofList (c :: cs)) = kind) :
    Lexes anything (c :: cs ++ [' ']) fun us : List (Token D) => ∃ t, us = [t] ∧ t.kind = kind := by
  have hspaces := Lexes.append (Lexes.word (D := D) hstart (List.all_eq_true.mp hall))
    Lexes.space fun rest _ c hc => by
    cases hc
    decide
  refine hspaces.mono ?_
  rintro us ⟨_, _, rfl, ⟨t, rfl, ht, -⟩, rfl⟩
  exact ⟨t, rfl, ht.trans hkind⟩

end Tokens

/-! ## Derivations in a row -/

section Derivations

/-- Where a level stands among the phrases. -/
def Level.rank : Level → Nat
  | .logical => 1
  | .comparison => 2
  | .additive => 3
  | .term => 4

/-- The phrases from the loosest to the tightest. -/
def Phrase.ofRank : Nat → Phrase
  | 0 => .expr
  | 1 => .level .logical
  | 2 => .level .comparison
  | 3 => .level .additive
  | 4 => .level .term
  | _ => .factor

/-- A tighter phrase is a looser one. -/
theorem Derives.loosen {m n : Nat} (h : m ≤ n) {ts : List (Token D)} {x : Expr D}
    (hx : Derives (.ofRank n) ts x) : Derives (.ofRank m) ts x := by
  induction h with
  | refl => exact hx
  | step _ ih =>
    rename_i n _
    refine ih ?_
    match n with
    | 0 => exact .logical hx
    | 1 | 2 | 3 | 4 =>
      rw [← List.append_nil ts]
      exact .chain hx .done
    | _ + 5 => exact hx

theorem Repeats.snoc {l : Level} {o : Token D} {k : BinaryOpKind} {vs : List (Token D)}
    {y : Expr D} (ho : l.op o.kind = some k) (hy : Derives l.operand vs y) {x z : Expr D}
    {us : List (Token D)} :
    Repeats l x us z → Repeats l x (us ++ o :: vs) (.binaryOp o.loc k z y)
  | .done => by
    have h : Repeats l x (o :: (vs ++ [])) (.binaryOp o.loc k x y) := .more ho hy .done
    rwa [List.append_nil] at h
  | .more hop hw hrest => by
    rw [List.cons_append, List.append_assoc]
    exact .more hop hw (hrest.snoc ho hy)

/-- One operand more on the right. -/
theorem Derives.snoc {l : Level} {ts : List (Token D)} {x : Expr D} (hx : Derives (.level l) ts x)
    {o : Token D} {k : BinaryOpKind} (ho : l.op o.kind = some k) {us : List (Token D)} {y : Expr D}
    (hy : Derives l.operand us y) :
    Derives (.level l) (ts ++ o :: us) (.binaryOp o.loc k x y) := by
  cases hx with
  | chain h hs =>
    rw [List.append_assoc]
    exact .chain h (hs.snoc ho hy)

theorem Phrase.ofRank_level (l : Level) : ofRank l.rank = .level l := by
  cases l <;> rfl

theorem Phrase.ofRank_operand (l : Level) : ofRank (l.rank + 1) = l.operand := by
  cases l <;> rfl

end Derivations

/-! ## The text of each construct -/

/-- Tokens of a phrase with a given tree, up to locations. -/
def Yields (p : Phrase) (x : Expr D) (us : List (Token D)) : Prop :=
  ∃ t, Derives p us t ∧ t.strip = x.strip

theorem Yields.loosen {m n : Nat} {x : Expr D} {us : List (Token D)} (h : Yields (.ofRank n) x us)
    (hmn : m ≤ n) : Yields (.ofRank m) x us := by
  obtain ⟨t, ht, hstrip⟩ := h
  exact ⟨t, ht.loosen hmn, hstrip⟩

theorem strip_withParenLoc (e : Expr D) (loc : SourceLoc) : (withParenLoc e loc).strip = e.strip := by
  rw [withParenLoc]
  split
  · cases e <;> rfl
  · rfl

section Texts

variable [Fp D] {text left right : List Char} {x y : Expr D} {m n : Nat}

theorem endsWord_nil : endsWord [] := fun _ h => by cases h

theorem endsWord_cons {c : Char} (h : isWordChar c = false) (hdot : c ≠ '.') (rest : List Char) :
    endsWord (c :: rest) := by
  intro d hd
  cases hd
  exact ⟨h, hdot⟩

/-- A text between parentheses. -/
theorem lexes_parens {R S : List (Token D) → Prop} (h : Lexes endsWord text R)
    (hS : ∀ l us r, l.kind = .lParen → r.kind = .rParen → R us → S (l :: (us ++ [r]))) :
    Lexes anything ('(' :: (text ++ [')'])) S := by
  have hopen : Lexes anything ['('] fun us : List (Token D) => ∃ t, us = [t] ∧ t.kind = .lParen :=
    lexes_char .lParen "(" rfl rfl rfl rfl fun _ => rfl
  have hclose : Lexes anything [')'] fun us : List (Token D) => ∃ t, us = [t] ∧ t.kind = .rParen :=
    lexes_char .rParen ")" rfl rfl rfl rfl fun _ => rfl
  refine (hopen.append (h.append hclose fun rest _ => ?_) fun _ _ => trivial).mono ?_
  · exact endsWord_cons (by decide) (by decide) rest
  · rintro us ⟨_, _, rfl, ⟨l, rfl, hl⟩, vs, _, rfl, hR, r, rfl, hr⟩
    exact hS l vs r hl hr hR

/-- A text in parentheses where it needs them. -/
theorem lexes_parenthesize {need : Bool} (h : Lexes endsWord text (Yields (.ofRank n) x))
    (hfree : need = false → m ≤ n) (hm : m ≤ 5) :
    Lexes endsWord (parenthesize need text) (Yields (.ofRank m) x) := by
  cases need with
  | false => exact h.mono fun us hus => hus.loosen (hfree rfl)
  | true =>
    refine Lexes.before (lexes_parens h fun l us r hl hr hus => ?_)
    obtain ⟨t, ht, hstrip⟩ := hus.loosen (Nat.zero_le n)
    have hfactor : Yields (.ofRank 5) x (l :: (us ++ [r])) :=
      ⟨withParenLoc t l.loc, .paren hl ht hr, (strip_withParenLoc t l.loc).trans hstrip⟩
    exact hfactor.loosen hm

/-- Two operands of a level. -/
theorem lexes_operands (loc : SourceLoc) {k : BinaryOpKind}
    (hleft : Lexes endsWord left (Yields (.ofRank m) x)) (hm : k.level.rank ≤ m)
    (hright : Lexes endsWord right (Yields (.ofRank n) y)) (hn : k.level.rank + 1 ≤ n) :
    Lexes endsWord (left ++ (' ' :: (k.spelling ++ [' ']) ++ right))
      (Yields (.ofRank k.level.rank) (.binaryOp loc k x y)) := by
  refine (hleft.append ((lexes_binary k).append hright fun _ _ => trivial) fun rest _ =>
    endsWord_cons (by decide) (by decide) _).mono ?_
  rintro us ⟨ts, _, rfl, hx, _, ws, rfl, ⟨o, rfl, ho⟩, hy⟩
  obtain ⟨t, ht, htx⟩ := hx.loosen hm
  obtain ⟨u, hu, huy⟩ := hy.loosen hn
  rw [Phrase.ofRank_level] at ht ⊢
  rw [Phrase.ofRank_operand] at hu
  exact ⟨_, ht.snoc ho hu, by rw [Expr.strip, Expr.strip, htx, huy]⟩

end Texts

/-! ## Every expression -/

theorem plain_of_mem [Fp D] {args : List (Expr D)} (h : Expr.PlainArgs args) {a : Expr D}
    (ha : a ∈ args) : a.Plain := by
  induction args with
  | nil => cases ha
  | cons b bs ih =>
    rcases List.mem_cons.mp ha with rfl | ha
    · exact h.1
    · exact ih h.2 ha

/-- All arguments of a call are numbers, tickers included. -/
theorem typeCheckExpr_args {loc : SourceLoc} {name : String} {args : List (Expr D)} {nid sid : Int}
    {T : StaticType} (h : typeCheckExpr (.functionCall loc name args nid sid) = .ok T) :
    (∀ a ∈ args, typeCheckExpr a = .ok .number) ∧ T = .number := by
  obtain ⟨hargs, hT⟩ := typeCheckExpr_functionCall.mp h
  refine ⟨?_, hT⟩
  split at hargs
  · obtain ⟨hhead, htail⟩ := typeCheckTicker_ok.mp hargs
    intro a ha
    cases args with
    | nil => cases ha
    | cons b bs =>
      rcases List.mem_cons.mp ha with rfl | ha
      · have hident := hhead a rfl
        cases a <;> first | exact absurd rfl hident | rfl
      · exact htail a ha
  · exact typeCheckArgs_ok.mp hargs

section Prints

variable [Fp D] (printG17 : D → String)

/-- The text of an expression at a precedence is a phrase, and its tree is the `reparse`. -/
def PrintsAs (e : Expr D) (outerPrec rank : Nat) : Prop :=
  Lexes endsWord (formatExprInto printG17 e outerPrec) (Yields (.ofRank rank) (e.reparse none))

/-- The phrase of a number at a precedence. -/
def numberRank (outerPrec : Nat) : Nat :=
  if outerPrec = 0 then 0 else if outerPrec ≤ 5 then 3 else if outerPrec = 6 then 4 else 5

/-- The phrase of a truth value at a precedence. `&&` and `||` share a level. -/
def boolRank (outerPrec : Nat) : Nat :=
  if outerPrec ≤ 1 then outerPrec else outerPrec - 1

/-- The text of an expression behind `x || `. -/
def PrintsBehindOr (e : Expr D) : Prop :=
  Lexes endsWord (formatExprInto printG17 e 2) fun us => ∀ ts x x' o,
    Derives (.level .logical) ts x → x.strip = x'.strip → logicalOp o.kind = some .or →
    Yields (.level .logical) (e.reparse (some x')) (ts ++ o :: us)

/-- What is proved of an expression of each type. -/
def Prints (e : Expr D) : StaticType → Prop
  | .number => ∀ p ≤ 7, PrintsAs printG17 e p (numberRank p)
  | .bool => (∀ p ≤ 3, PrintsAs printG17 e p (boolRank p)) ∧ PrintsBehindOr printG17 e

variable {printG17} {e l r : Expr D}

theorem numberRank_le (p : Nat) : numberRank p ≤ 5 := by
  unfold numberRank
  split_ifs <;> decide

theorem numberRank_mono {p q : Nat} (h : p ≤ q) : numberRank p ≤ numberRank q := by
  unfold numberRank
  split_ifs <;> omega

theorem boolRank_mono {p q : Nat} (h : p ≤ q) : boolRank p ≤ boolRank q := by
  unfold boolRank
  split_ifs <;> omega

/-- A tight phrase is one at every precedence. -/
theorem prints_number {n : Nat} (h : ∀ p ≤ 7, PrintsAs printG17 e p n) (hn : 5 ≤ n) :
    Prints printG17 e .number := fun p hp =>
  (h p hp).mono fun _ hus => hus.loosen ((numberRank_le p).trans hn)

theorem printsBehindOr_of (he : e.isAnd = false) (h : PrintsAs printG17 e 2 2) :
    PrintsBehindOr printG17 e := by
  refine h.mono ?_
  rintro us ⟨t, ht, hstrip⟩ ts x x' o hx hxx' ho
  refine ⟨_, hx.snoc (l := .logical) ho ht, ?_⟩
  rw [Expr.reparse_some he, Expr.strip, Expr.strip, hxx', hstrip]

/-- An operator other than `||`. -/
theorem printsAs_binary {loc : SourceLoc} {k : BinaryOpKind} (hk : k ≠ .or) {m n : Nat}
    (hl : PrintsAs printG17 l k.prec m) (hm : k.level.rank ≤ m)
    (hr : PrintsAs printG17 r (k.prec + 1) n) (hn : k.level.rank + 1 ≤ n) {p q : Nat}
    (hfree : p ≤ k.prec → q ≤ k.level.rank) (hq : q ≤ 5) :
    PrintsAs printG17 (.binaryOp loc k l r) p q := by
  have htree : (Expr.binaryOp loc k l r).reparse none =
      .binaryOp loc k (l.reparse none) (r.reparse none) := by
    cases k with
    | or => exact absurd rfl hk
    | _ => rfl
  rw [PrintsAs, htree, formatExprInto]
  refine lexes_parenthesize (lexes_operands loc hl hm hr hn) (fun hneed => hfree ?_) hq
  simpa using hneed

/-- `&&` behind `||` -/
theorem printsBehindOr_and {loc : SourceLoc} (hl : PrintsBehindOr printG17 l)
    (hr : PrintsAs printG17 r 3 2) : PrintsBehindOr printG17 (.binaryOp loc .and l r) := by
  rw [PrintsBehindOr, formatExprInto, parenthesize, if_neg (by decide)]
  refine (hl.append ((lexes_binary .and).append hr fun _ _ => trivial) fun rest _ =>
    endsWord_cons (by decide) (by decide) _).mono ?_
  rintro us ⟨vs, _, rfl, hvs, _, ws, rfl, ⟨a, rfl, ha⟩, u, hu, hur⟩ ts x x' o hx hxx' ho
  obtain ⟨t, ht, htl⟩ := hvs ts x x' o hx hxx' ho
  refine ⟨.binaryOp a.loc .and t u, ?_, ?_⟩
  · have hsnoc := ht.snoc (l := .logical) ha hu
    rwa [List.append_assoc] at hsnoc
  · rw [Expr.reparse, Expr.strip, Expr.strip, htl, hur]

/-- `||`, whose right operand may go on to the left. -/
theorem printsAs_or {loc : SourceLoc} (hl : PrintsAs printG17 l 1 1)
    (hr : PrintsBehindOr printG17 r) {p q : Nat} (hfree : p ≤ 1 → q ≤ 1) (hq : q ≤ 5) :
    PrintsAs printG17 (.binaryOp loc .or l r) p q := by
  rw [PrintsAs, formatExprInto]
  refine lexes_parenthesize (n := 1) ?_ (fun hneed => hfree ?_) hq
  · refine (hl.append ((lexes_binary .or).append hr fun _ _ => trivial) fun rest _ =>
      endsWord_cons (by decide) (by decide) _).mono ?_
    rintro us ⟨ts, _, rfl, ⟨t, ht, htl⟩, _, ws, rfl, ⟨o, rfl, ho⟩, hws⟩
    exact hws ts t _ o ht htl ho
  · exact Nat.le_of_not_lt (of_decide_eq_false hneed)

theorem prints_unary {loc : SourceLoc} {k : UnaryOpKind} (h : Prints printG17 e .number) :
    Prints printG17 (.unaryOp loc k e) .number := by
  refine prints_number (n := 5) (fun p hp => ?_) le_rfl
  have hsign : Lexes anything [k.spelling] fun us : List (Token D) =>
      ∃ t, us = [t] ∧ unaryOpKind t.kind = some k := by
    cases k with
    | plus =>
      refine (lexes_char .plus "+" rfl rfl rfl rfl fun _ => rfl).mono ?_
      rintro us ⟨t, rfl, ht⟩
      exact ⟨t, rfl, by rw [ht]; rfl⟩
    | minus =>
      refine (lexes_char .minus "-" rfl rfl rfl rfl fun _ => rfl).mono ?_
      rintro us ⟨t, rfl, ht⟩
      exact ⟨t, rfl, by rw [ht]; rfl⟩
  rw [PrintsAs, formatExprInto, parenthesize, if_neg (by simpa using hp)]
  refine (hsign.append (h 7 le_rfl) fun _ _ => trivial).mono ?_
  rintro us ⟨_, ws, rfl, ⟨o, rfl, ho⟩, t, ht, hte⟩
  exact ⟨_, .unary ho ht, by rw [Expr.reparse, behindOr, Expr.strip, Expr.strip, hte]⟩

theorem prints_conditional {loc : SourceLoc} {c t e : Expr D} (hc : Prints printG17 c .bool)
    (ht : Prints printG17 t .number) (he : Prints printG17 e .number) :
    Prints printG17 (.conditional loc c t e) .number := by
  intro p hp
  rw [PrintsAs, formatExprInto]
  refine lexes_parenthesize (n := 0) ?_ (fun hneed => ?_) (numberRank_le p)
  · have hif : Lexes anything ['i', 'f', ' '] fun us : List (Token D) =>
        ∃ t, us = [t] ∧ t.kind = .ifWord := lexes_keyword 'i' ['f'] rfl (by decide) (by decide)
    have hkeyword : ∀ (c : Char) (cs : List Char) {k : TokenKind}, isWordStart c = true →
        (c :: cs).all isWordChar = true → TokenKind.ofWord (String.ofList (c :: cs)) = k →
        Lexes anything ([' '] ++ (c :: cs ++ [' '])) fun us : List (Token D) =>
          ∃ t, us = [t] ∧ t.kind = k := by
      intro c cs k hstart hall hk
      refine (Lexes.space.append (lexes_keyword c cs hstart hall hk) fun _ _ => trivial).mono ?_
      rintro us ⟨_, _, rfl, rfl, h⟩
      exact h
    have hthen : Lexes anything [' ', 't', 'h', 'e', 'n', ' '] fun us : List (Token D) =>
        ∃ t, us = [t] ∧ t.kind = .thenWord :=
      hkeyword 't' ['h', 'e', 'n'] rfl (by decide) (by decide)
    have helse : Lexes anything [' ', 'e', 'l', 's', 'e', ' '] fun us : List (Token D) =>
        ∃ t, us = [t] ∧ t.kind = .elseWord :=
      hkeyword 'e' ['l', 's', 'e'] rfl (by decide) (by decide)
    have hspace : ∀ cs rest, endsWord (' ' :: cs ++ rest) := fun cs rest =>
      endsWord_cons (by decide) (by decide) _
    refine (hif.append ((hc.1 1 (by decide)).append (hthen.append ((ht 1 (by decide)).append
      (helse.append (he 0 (by decide)) fun _ _ => trivial) fun _ _ => hspace _ _)
      fun _ _ => trivial) fun _ _ => hspace _ _) fun _ _ => trivial).mono ?_
    rintro us ⟨_, _, rfl, ⟨i, rfl, hi⟩, cs, _, rfl, hcs, _, _, rfl, ⟨th, rfl, hth⟩, ts, _, rfl, hts,
      _, es, rfl, ⟨el, rfl, hel⟩, y, hy, hye⟩
    obtain ⟨b, hb, hbc⟩ := hcs.loosen (Nat.zero_le _)
    obtain ⟨x, hx, hxt⟩ := hts.loosen (Nat.zero_le _)
    refine ⟨_, .conditional hi hb hth hx hel hy, ?_⟩
    rw [Expr.reparse, behindOr, Expr.strip, Expr.strip, hbc, hxt, hye]
  · obtain rfl : p = 0 := Nat.le_zero.mp (Nat.le_of_not_lt (of_decide_eq_false hneed))
    exact le_rfl

theorem lexes_moreArgs {args : List (Expr D)} (h : ∀ a ∈ args, Prints printG17 a .number) :
    Lexes endsWord (formatMoreArgs printG17 args) fun us => ∃ xs, DerivesMoreArgs us xs ∧
      xs.map Expr.strip = (Expr.reparseArgs args).map Expr.strip := by
  induction args with
  | nil =>
    refine Lexes.nil.mono ?_
    rintro us rfl
    exact ⟨[], .done, rfl⟩
  | cons a as ih =>
    have hcomma : Lexes anything [',', ' '] fun us : List (Token D) =>
        ∃ t, us = [t] ∧ t.kind = .comma := by
      refine ((lexes_char .comma "," rfl rfl rfl rfl fun _ => rfl).append Lexes.space
        fun _ _ => trivial).mono ?_
      rintro us ⟨_, _, rfl, ⟨t, rfl, ht⟩, rfl⟩
      exact ⟨t, rfl, ht⟩
    refine (hcomma.append ((h a List.mem_cons_self 0 (by decide)).append
      (ih fun b hb => h b (List.mem_cons_of_mem a hb)) fun rest hrest => ?_)
      fun _ _ => trivial).mono ?_
    · cases as with
      | nil => exact hrest
      | cons b bs => exact endsWord_cons (by decide) (by decide) _
    · rintro us ⟨_, _, rfl, ⟨c, rfl, hc⟩, ts, ws, rfl, ⟨x, hx, hxa⟩, xs, hxs, hstrip⟩
      have hexpr : Derives .expr ts x := hx
      have hmore : DerivesMoreArgs (c :: (ts ++ ws)) (x :: xs) := .more hc hexpr hxs
      refine ⟨x :: xs, hmore, ?_⟩
      rw [Expr.reparseArgs, List.map_cons, List.map_cons, hxa, hstrip]

theorem lexes_args {args : List (Expr D)} (h : ∀ a ∈ args, Prints printG17 a .number) :
    Lexes endsWord (formatArgs printG17 args) fun us => ∃ xs, DerivesArgs us xs ∧
      xs.map Expr.strip = (Expr.reparseArgs args).map Expr.strip := by
  cases args with
  | nil =>
    refine Lexes.nil.mono ?_
    rintro us rfl
    exact ⟨[], .none, rfl⟩
  | cons a as =>
    refine ((h a List.mem_cons_self 0 (by decide)).append
      (lexes_moreArgs fun b hb => h b (List.mem_cons_of_mem a hb)) fun rest hrest => ?_).mono ?_
    · cases as with
      | nil => exact hrest
      | cons b bs => exact endsWord_cons (by decide) (by decide) _
    · rintro us ⟨ts, ws, rfl, ⟨x, hx, hxa⟩, xs, hxs, hstrip⟩
      have hexpr : Derives .expr ts x := hx
      refine ⟨x :: xs, .some hexpr hxs, ?_⟩
      rw [Expr.reparseArgs, List.map_cons, List.map_cons, hxa, hstrip]

theorem prints_call {loc : SourceLoc} {name : String} {args : List (Expr D)} {nid sid : Int}
    (hname : LexesAsIdentifier D name) (h : ∀ a ∈ args, Prints printG17 a .number) :
    Prints printG17 (.functionCall loc name args nid sid) .number := by
  refine prints_number (n := 5) (fun p _ => ?_) le_rfl
  have hparens : Lexes endsWord ('(' :: (formatArgs printG17 args ++ [')'])) fun us =>
      ∃ l ts r xs, us = l :: (ts ++ [r]) ∧ l.kind = .lParen ∧ r.kind = .rParen ∧
        DerivesArgs ts xs ∧ xs.map Expr.strip = (Expr.reparseArgs args).map Expr.strip := by
    refine Lexes.before (lexes_parens (lexes_args h) fun l us r hl hr hargs => ?_)
    obtain ⟨xs, hxs, hstrip⟩ := hargs
    exact ⟨l, us, r, xs, rfl, hl, hr, hxs, hstrip⟩
  rw [PrintsAs, formatExprInto]
  refine (hname.lexes.append hparens fun _ _ => endsWord_cons (by decide) (by decide) _).mono ?_
  rintro us ⟨_, _, rfl, ⟨f, rfl, hf, rfl⟩, l, ts, r, xs, rfl, hl, hr, hxs, hstrip⟩
  refine ⟨_, .call hf hl hxs hr, ?_⟩
  rw [Expr.reparse, behindOr, Expr.strip, Expr.strip, Expr.stripArgs_eq_map,
    Expr.stripArgs_eq_map, hstrip]

/-- `+ - * /` -/
theorem prints_arithmetic {loc : SourceLoc} {k : BinaryOpKind} (hk : k.resultType = .number)
    (hl : Prints printG17 l .number) (hr : Prints printG17 r .number) :
    Prints printG17 (.binaryOp loc k l r) .number := by
  have hprec : k ≠ .or ∧ k.prec < 7 ∧ numberRank k.prec = k.level.rank ∧
      numberRank (k.prec + 1) = k.level.rank + 1 := by
    revert hk
    cases k <;> decide
  obtain ⟨hor, hlt, hleft, hright⟩ := hprec
  intro p hp
  refine printsAs_binary hor (hl k.prec hlt.le) hleft.ge (hr (k.prec + 1) hlt) hright.ge
    (fun hpk => ?_) (numberRank_le p)
  exact (numberRank_mono hpk).trans hleft.le

/-- The six comparisons. -/
theorem prints_comparison {loc : SourceLoc} {k : BinaryOpKind} (hk : k.operandType = .number)
    (hres : k.resultType = .bool) (hl : Prints printG17 l .number) (hr : Prints printG17 r .number) :
    Prints printG17 (.binaryOp loc k l r) .bool := by
  have hand : (Expr.binaryOp loc k l r).isAnd = false := by
    cases k <;> first | rfl | cases hk
  have hprec : k ≠ .or ∧ k.prec < 7 ∧ k.level.rank = 2 ∧ numberRank k.prec = 3 ∧
      numberRank (k.prec + 1) = 3 := by
    revert hk hres
    cases k <;> decide
  obtain ⟨hor, hlt, hrank, hleft, hright⟩ := hprec
  have hprints : ∀ p q, q ≤ 2 → PrintsAs printG17 (.binaryOp loc k l r) p q := fun p q hq =>
    printsAs_binary hor (hl k.prec hlt.le) (by omega) (hr (k.prec + 1) hlt) (by omega)
      (fun _ => by omega) (by omega)
  exact ⟨fun p hp => hprints p _ (boolRank_mono hp), printsBehindOr_of hand (hprints 2 2 le_rfl)⟩

theorem prints_and {loc : SourceLoc} (hl : Prints printG17 l .bool) (hr : Prints printG17 r .bool) :
    Prints printG17 (.binaryOp loc .and l r) .bool := by
  refine ⟨fun p hp => ?_, printsBehindOr_and hl.2 (hr.1 3 le_rfl)⟩
  exact printsAs_binary (by decide) (hl.1 2 (by decide)) (by decide) (hr.1 3 le_rfl) (by decide)
    (fun hp => boolRank_mono hp) ((boolRank_mono hp).trans (by decide))

theorem prints_or {loc : SourceLoc} (hl : Prints printG17 l .bool) (hr : Prints printG17 r .bool) :
    Prints printG17 (.binaryOp loc .or l r) .bool := by
  have hprints : ∀ p q, (p ≤ 1 → q ≤ 1) → q ≤ 5 → PrintsAs printG17 (.binaryOp loc .or l r) p q :=
    fun p q => printsAs_or (hl.1 1 (by decide)) hr.2
  refine ⟨fun p hp => ?_, printsBehindOr_of rfl (hprints 2 2 (by decide) (by decide))⟩
  exact hprints p _ (fun hp => boolRank_mono hp) ((boolRank_mono hp).trans (by decide))

/-- **The text of every expression**, by induction on the expression. -/
theorem prints (printG17 : D → String) (hD : ExactIntegers D) (e : Expr D) (hplain : e.Plain)
    {T : StaticType} (htype : typeCheckExpr e = .ok T) : Prints printG17 e T := by
  induction e using Expr.induct generalizing T with
  | numberLiteral loc v =>
    obtain ⟨n, hn, rfl⟩ := hplain
    cases htype
    refine prints_number (n := 5) (fun p _ => ?_) le_rfl
    rw [PrintsAs, formatExprInto, formatNumber_ofNat hD hn]
    have hnumber := Lexes.number (D := D) (Nat.toDigits_ne_nil (n := n) (b := 10)) fun c hc =>
      isDigit_of_mem_toDigits hc
    refine (hnumber.weaken fun _ => endsNumber_of_endsWord).mono ?_
    · rintro us ⟨t, rfl, ht, hvalue⟩
      refine ⟨_, .number ht, ?_⟩
      rw [hvalue, decimalValue_toDigits]
      rfl
  | identifierExpr loc name =>
    cases htype
    refine prints_number (n := 5) (fun p _ => ?_) le_rfl
    refine (LexesAsIdentifier.lexes hplain).mono ?_
    rintro us ⟨t, rfl, ht, rfl⟩
    exact ⟨_, .identifier ht, rfl⟩
  | parameterExpr loc name i => exact hplain.elim
  | unaryOp loc k e ih =>
    obtain ⟨he, rfl⟩ := typeCheckExpr_unaryOp.mp htype
    exact prints_unary (ih hplain he)
  | conditional loc c t e ihc iht ihe =>
    obtain ⟨hc, ht, he, rfl⟩ := typeCheckExpr_conditional.mp htype
    exact prints_conditional (ihc hplain.1 hc) (iht hplain.2.1 ht) (ihe hplain.2.2 he)
  | functionCall loc name args nid sid ih =>
    obtain ⟨hargs, rfl⟩ := typeCheckExpr_args htype
    exact prints_call hplain.1 fun a ha => ih a ha (plain_of_mem hplain.2 ha) (hargs a ha)
  | binaryOp loc k l r ihl ihr =>
    obtain ⟨hl, hr, rfl⟩ := typeCheckExpr_binaryOp.mp htype
    have hl := ihl hplain.1 hl
    have hr := ihr hplain.2 hr
    cases k with
    | and => exact prints_and hl hr
    | or => exact prints_or hl hr
    | add | sub | mul | div => exact prints_arithmetic rfl hl hr
    | gt | lt | gte | lte | eq | notEq => exact prints_comparison rfl rfl hl hr

end Prints

/-! ## Round trips -/

section RoundTrips

variable [Fp D] {printG17 : D → String} {e : Expr D}

/-- **The text of an expression is parsed to its `reparse`**, up to the end of the input. -/
theorem format_reparses (printG17 : D → String) (hD : ExactIntegers D) (hplain : e.Plain) {T : StaticType}
    (htype : typeCheckExpr e = .ok T) :
    ∃ tokens eof x, tokenize (formatExpr printG17 e 0) = .ok tokens ∧
      (∀ fuel, tokens.length ≤ fuel → parseExpr fuel fuel tokens = .ok (x, [eof])) ∧
      eof.kind = .endOfFile ∧ x.strip = (e.reparse none).strip := by
  have htext : PrintsAs printG17 e 0 0 := by
    have h := prints printG17 hD e hplain htype
    cases T with
    | number => exact h 0 (by decide)
    | bool => exact h.1 0 (by decide)
  let eof : Token D := ⟨.endOfFile, "", ofNat 0, ⟨0, (formatExpr printG17 e 0).length + 1, 0⟩⟩
  obtain ⟨us, hus, x, hx, hstrip⟩ := htext 0 [] [eof] endsWord_nil (by
    rw [Nat.zero_add]
    exact tokenizes_nil _)
  refine ⟨us ++ [eof], eof, x, ?_, fun fuel hfuel => ?_, rfl, hstrip⟩
  · rw [List.append_nil] at hus
    exact hus _ (Nat.lt_succ_self _)
  · rw [List.length_append] at hfuel
    exact parseExpr_nested fuel hx (by omega) fun d hd =>
      Derives.parsed [] d fuel hx (by change Phrase.expr.Stops .endOfFile; decide) hd (by omega)
        (by omega)

variable (printG17 e) [DecidableEq D]

/-- The text of an expression is tokenized and parsed to the end, and the tree is `AstEquals` to
the expression. -/
def RoundTrips : Prop :=
  ∃ tokens eof x, tokenize (formatExpr printG17 e 0) = .ok tokens ∧
    (∀ fuel, tokens.length ≤ fuel → parseExpr fuel fuel tokens = .ok (x, [eof])) ∧
    eof.kind = .endOfFile ∧ astEquals x e = true

variable {printG17 e}

theorem roundTrips_iff_reparse (hD : ExactIntegers D) (hplain : e.Plain) {T : StaticType}
    (htype : typeCheckExpr e = .ok T) :
    RoundTrips printG17 e ↔ (e.reparse none).strip = e.strip := by
  obtain ⟨tokens, eof, x, htokens, hparse, heof, hx⟩ :=
    format_reparses printG17 hD hplain htype
  constructor
  · rintro ⟨tokens', eof', x', htokens', hparse', -, hequals⟩
    rw [htokens] at htokens'
    cases htokens'
    have hsame := hparse' tokens.length le_rfl
    rw [hparse tokens.length le_rfl] at hsame
    cases hsame
    exact hx.symm.trans ((astEquals_iff x e).mp hequals)
  · intro h
    exact ⟨tokens, eof, x, htokens, hparse, heof, (astEquals_iff x e).mpr (hx.trans h)⟩

/-- **The formatter round-trips exactly where no `||` has an `&&` for its right operand.** -/
theorem format_roundTrips_iff (hD : ExactIntegers D) (hplain : e.Plain) {T : StaticType}
    (htype : typeCheckExpr e = .ok T) : RoundTrips printG17 e ↔ e.noAndBehindOr = true :=
  (roundTrips_iff_reparse hD hplain htype).trans e.strip_reparse_iff

end RoundTrips

/-! ## An `&&` behind an `||` -/

section Concrete

open Concrete

theorem exactIntegers_rat : ExactIntegers (Exact ℚ) where
  isnan _ := by simp [isnan]
  isinf _ := by simp [isinf, isnan]
  eq_zero _ := by simp
  lt_bound {n} hn := by
    have hfabs : fabs (.val (n : ℚ) : Exact ℚ) = .val (n : ℚ) :=
      congrArg Exact.val (max_eq_left (by linarith [Nat.cast_nonneg (α := ℚ) n]))
    rw [Exact.ofNat_val, Exact.ofNat_val, hfabs, Exact.lt_val, decide_eq_true_iff]
    exact_mod_cast hn
  toInt _ := by
    simp [Fp.toInt, Transcendental.trunc]

/-- `a > 0 || b > 0 && c > 0`, with the `&&` for the right operand. -/
def orOfAnd : Expr (Exact ℚ) :=
  .binaryOp {} .or (gt (ident "a") (num 0))
    (.binaryOp {} .and (gt (ident "b") (num 0)) (gt (ident "c") (num 0)))

/-- `a > 0 && b > 0 || c > 0` -/
def andInOr : Expr (Exact ℚ) :=
  .binaryOp {} .or (.binaryOp {} .and (gt (ident "a") (num 0)) (gt (ident "b") (num 0)))
    (gt (ident "c") (num 0))

theorem plain_positive {name : String} (h : name ∈ ["a", "b", "c"]) :
    (gt (ident name) (num 0)).Plain := by
  refine ⟨⟨⟨.identifier, name, .val 0, ⟨0, 1, 1⟩⟩, ⟨.endOfFile, "", .val 0, ⟨0, 2, 0⟩⟩, ?_, rfl,
    rfl⟩, 0, pow_pos (by decide) _, by simp⟩
  revert name
  decide +kernel

theorem orOfAnd_plain : orOfAnd.Plain :=
  ⟨plain_positive (by decide), plain_positive (by decide), plain_positive (by decide)⟩

theorem andInOr_plain : andInOr.Plain :=
  ⟨⟨plain_positive (by decide), plain_positive (by decide)⟩, plain_positive (by decide)⟩

theorem format_roundTrips_iff_andInOr : RoundTrips (fun _ => "") andInOr :=
  (format_roundTrips_iff exactIntegers_rat andInOr_plain
    (rfl : typeCheckExpr andInOr = .ok .bool)).mpr rfl

/-- The text of `orOfAnd` has no parentheses, and the parser makes `(a > 0 || b > 0) && c > 0` of
it. -/
theorem orOfAnd_not_roundTrips :
    orOfAnd.Plain ∧ typeCheckExpr orOfAnd = .ok .bool ∧ ¬ RoundTrips (fun _ => "") orOfAnd := by
  have htype : typeCheckExpr orOfAnd = .ok .bool := rfl
  refine ⟨orOfAnd_plain, htype, fun h => ?_⟩
  have hstrip := (roundTrips_iff_reparse exactIntegers_rat orOfAnd_plain htype).mp h
  exact absurd (orOfAnd.strip_reparse_iff.mp hstrip) (by decide)

end Concrete

end JitSignalEngine
