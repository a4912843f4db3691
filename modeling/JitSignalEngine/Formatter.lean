import JitSignalEngine.Grammar
import Mathlib.Data.List.TakeWhile

/-!
# The formatter

`dsl_formatter.cpp`: from expressions to text, and what the lexer makes of that text.

* `formatNumber`, `formatExpr` — the formatter. It puts parentheses where the precedence of an
  operator is lower than what is asked from outside.
* `Tokenizes` — the lexer on a text, whatever its bound.
* `Lexes` — a piece of text that becomes certain tokens in front of whatever may follow it. There
  is one lemma for each kind of token, and `Lexes.append` for pieces in a row.
-/

namespace JitSignalEngine

open Fp

variable {D : Type} [Fp D]

/-! ## Numbers -/

/-- `std::isinf` -/
def Fp.isinf (v : D) : Bool := !isnan v && isnan (sub v v)

/-- `FormatNumber`. What `snprintf` prints with `%.17g` is a parameter. -/
def formatNumber (printG17 : D → String) (v : D) : String :=
  if isnan v then "(0.0/0.0)"
  else if isinf v then if lt v (ofNat 0) then "(-1.0/0.0)" else "(1.0/0.0)"
  else if eq v (ofNat 0) then "0"
  else if eq (ofInt (toInt v)) v && lt (fabs v) (ofNat (10 ^ 15)) then toString (toInt v)
  else printG17 v

/-! ## Expressions -/

/-- `kPrecCond` -/
abbrev precCond : Nat := 0

/-- `kPrecUnary` -/
abbrev precUnary : Nat := 7

/-- `BinaryPrec` -/
def BinaryOpKind.prec : BinaryOpKind → Nat
  | .or => 1
  | .and => 2
  | .eq | .notEq => 3
  | .gt | .lt | .gte | .lte => 4
  | .add | .sub => 5
  | .mul | .div => 6

/-- `BinarySpelling` -/
def BinaryOpKind.spelling : BinaryOpKind → List Char
  | .or => ['|', '|']
  | .and => ['&', '&']
  | .eq => ['=', '=']
  | .notEq => ['!', '=']
  | .gt => ['>']
  | .lt => ['<']
  | .gte => ['>', '=']
  | .lte => ['<', '=']
  | .add => ['+']
  | .sub => ['-']
  | .mul => ['*']
  | .div => ['/']

/-- `UnarySpelling` -/
def UnaryOpKind.spelling : UnaryOpKind → Char
  | .plus => '+'
  | .minus => '-'

/-- `need_paren` -/
def parenthesize (needParen : Bool) (text : List Char) : List Char :=
  if needParen then '(' :: (text ++ [')']) else text

mutual

/-- `FormatExprInto` -/
def formatExprInto (printG17 : D → String) : Expr D → (outerPrec : Nat) → List Char
  | .numberLiteral _ v, _ => (formatNumber printG17 v).toList
  | .identifierExpr _ name, _ => name.toList
  | .parameterExpr _ name _, _ => name.toList
  | .unaryOp _ kind operand, outerPrec =>
    parenthesize (precUnary < outerPrec)
      (kind.spelling :: formatExprInto printG17 operand precUnary)
  | .binaryOp _ kind left right, outerPrec =>
    parenthesize (kind.prec < outerPrec)
      (formatExprInto printG17 left kind.prec ++
        (' ' :: (kind.spelling ++ [' ']) ++ formatExprInto printG17 right (kind.prec + 1)))
  | .conditional _ condition thenBranch elseBranch, outerPrec =>
    parenthesize (precCond < outerPrec)
      (['i', 'f', ' '] ++ (formatExprInto printG17 condition (precCond + 1) ++
        ([' ', 't', 'h', 'e', 'n', ' '] ++ (formatExprInto printG17 thenBranch (precCond + 1) ++
          ([' ', 'e', 'l', 's', 'e', ' '] ++ formatExprInto printG17 elseBranch precCond)))))
  | .functionCall _ name args _ _, _ =>
    name.toList ++ (['('] ++ (formatArgs printG17 args ++ [')']))

/-- The loop of `FormatFunctionCall`. -/
def formatArgs (printG17 : D → String) : List (Expr D) → List Char
  | [] => []
  | a :: as => formatExprInto printG17 a precCond ++ formatMoreArgs printG17 as

/-- The loop of `FormatFunctionCall` from the second argument on. -/
def formatMoreArgs (printG17 : D → String) : List (Expr D) → List Char
  | [] => []
  | a :: as =>
    [',', ' '] ++ (formatExprInto printG17 a precCond ++ formatMoreArgs printG17 as)

end

/-- `FormatExpr` -/
def formatExpr (printG17 : D → String) (expr : Expr D) (outerPrec : Nat) : List Char :=
  formatExprInto printG17 expr outerPrec

/-! ## The lexer on a piece of text -/

/-- What the lexer makes of a text that starts at a position. -/
def Tokenizes (pos : Nat) (cs : List Char) (tokens : List (Token D)) : Prop :=
  ∀ fuel, cs.length < fuel → tokenizeFrom fuel pos cs = .ok tokens

theorem tokenizes_nil (pos : Nat) :
    Tokenizes pos [] [(⟨.endOfFile, "", ofNat 0, ⟨0, pos + 1, 0⟩⟩ : Token D)] := by
  intro fuel h
  obtain ⟨n, rfl⟩ := Nat.exists_eq_add_of_lt h
  rfl

theorem isDigit_iff (c : Char) : isDigit c = true ↔ 48 ≤ c.toNat ∧ c.toNat ≤ 57 := by
  simp only [isDigit, Bool.and_eq_true, decide_eq_true_eq, Char.le_def, UInt32.le_iff_toNat_le]
  rfl

theorem isDigit_of_mem_toDigits {n : Nat} {c : Char} (h : c ∈ Nat.toDigits 10 n) :
    isDigit c = true := by
  have hdigit : c.isDigit = true := Nat.isDigit_of_mem_toDigits (by decide) (by decide) h
  rw [Char.isDigit, Bool.and_eq_true, decide_eq_true_iff, decide_eq_true_iff] at hdigit
  rw [isDigit_iff]
  exact hdigit

theorem isWordStart_iff (c : Char) : isWordStart c = true ↔
    (97 ≤ c.toNat ∧ c.toNat ≤ 122) ∨ (65 ≤ c.toNat ∧ c.toNat ≤ 90) ∨ c = '_' := by
  simp only [isWordStart, isAlpha, Bool.or_eq_true, Bool.and_eq_true, decide_eq_true_eq,
    Char.le_def, UInt32.le_iff_toNat_le, beq_iff_eq, or_assoc]
  rfl

/-- A class of characters without white space. -/
theorem isSpace_of {class' : Char → Bool} {c : Char} (h : class' c = true)
    (hspace : [' ', '\t', '\n', '\r', '\x0b', '\x0c'].all (!class' ·) = true) :
    isSpace c = false := by
  rw [Bool.eq_false_iff]
  intro hc
  simp only [isSpace, Bool.or_eq_true, beq_iff_eq, or_assoc] at hc
  have hmem : c ∈ [' ', '\t', '\n', '\r', '\x0b', '\x0c'] := by simpa using hc
  have hnot := List.all_eq_true.mp hspace c hmem
  rw [h] at hnot
  cases hnot

theorem isNumberStart_of_isWordStart {c : Char} (h : isWordStart c = true) :
    (isDigit c || c == '.') = false := by
  rw [isWordStart_iff] at h
  rw [Bool.or_eq_false_iff, Bool.eq_false_iff, Ne, isDigit_iff, beq_eq_false_iff_ne]
  rcases h with h | h | rfl
  · exact ⟨by omega, by rintro rfl; exact absurd h (by decide)⟩
  · exact ⟨by omega, by rintro rfl; exact absurd h (by decide)⟩
  · decide

/-- A piece of text becomes tokens, in front of any text that may follow. -/
def Lexes (next : List Char → Prop) (cs : List Char) (R : List (Token D) → Prop) : Prop :=
  ∀ pos rest tokens, next rest → Tokenizes (pos + cs.length) rest tokens →
    ∃ us, Tokenizes pos (cs ++ rest) (us ++ tokens) ∧ R us

/-- What may follow a token that ends by itself. -/
def anything (_ : List Char) : Prop := True

/-- What ends a word or a number. -/
def endsWord (rest : List Char) : Prop := ∀ c ∈ rest.head?, isWordChar c = false ∧ c ≠ '.'

/-- What ends a number. -/
def endsNumber (rest : List Char) : Prop := ∀ c ∈ rest.head?, isDigit c = false ∧ c ≠ '.'

theorem endsNumber_of_endsWord {rest : List Char} (h : endsWord rest) : endsNumber rest := by
  intro c hc
  obtain ⟨hword, hdot⟩ := h c hc
  simp only [isWordChar, Bool.or_eq_false_iff] at hword
  exact ⟨hword.1.2, hdot⟩

namespace Lexes

variable {next next' : List Char → Prop} {cs ds : List Char} {R S : List (Token D) → Prop}

theorem mono (h : Lexes next cs R) (hR : ∀ us, R us → S us) : Lexes next cs S := by
  intro pos rest tokens hnext hrest
  obtain ⟨us, hus, hRus⟩ := h pos rest tokens hnext hrest
  exact ⟨us, hus, hR us hRus⟩

theorem before (h : Lexes anything cs R) : Lexes next cs R :=
  fun pos rest tokens _ hrest => h pos rest tokens trivial hrest

theorem weaken (h : Lexes next' cs R) (hnext : ∀ rest, next rest → next' rest) : Lexes next cs R :=
  fun pos rest tokens hrest => h pos rest tokens (hnext rest hrest)

/-- Two pieces in a row. -/
theorem append (hc : Lexes next' cs R) (hd : Lexes next ds S)
    (hnext : ∀ rest, next rest → next' (ds ++ rest)) :
    Lexes next (cs ++ ds) fun us => ∃ vs ws, us = vs ++ ws ∧ R vs ∧ S ws := by
  intro pos rest tokens hrest htokens
  rw [List.length_append, ← Nat.add_assoc] at htokens
  obtain ⟨ws, hws, hS⟩ := hd _ rest tokens hrest htokens
  obtain ⟨vs, hvs, hR⟩ := hc pos _ _ (hnext rest hrest) hws
  exact ⟨vs ++ ws, by rw [List.append_assoc, List.append_assoc]; exact hvs, vs, ws, rfl, hR, hS⟩

/-- The empty text. -/
theorem nil : Lexes next [] fun us : List (Token D) => us = [] :=
  fun _ _ _ _ hrest => ⟨[], hrest, rfl⟩

/-- White space is skipped. -/
theorem space : Lexes anything [' '] fun us : List (Token D) => us = [] := by
  intro pos rest tokens _ hrest
  refine ⟨[], fun fuel hfuel => ?_, rfl⟩
  obtain ⟨n, rfl⟩ := Nat.exists_eq_add_of_lt hfuel
  exact hrest _ (by simp only [List.length_append, List.length_singleton]; omega)

/-- Operators and punctuation. -/
theorem operator {c : Char} {kind : TokenKind} {lexeme : String}
    (hspace : isSpace c = false) (hnumber : (isDigit c || c == '.') = false)
    (hword : isWordStart c = false) {second : List Char} (hlength : lexeme.length = second.length + 1)
    (hop : ∀ rest, next rest → readOperator c (second ++ rest).head? = .ok (kind, lexeme)) :
    Lexes next (c :: second) fun us : List (Token D) => ∃ t, us = [t] ∧ t.kind = kind := by
  intro pos rest tokens hnext hrest
  refine ⟨[⟨kind, lexeme, ofNat 0, ⟨0, pos + 1, lexeme.length⟩⟩], fun fuel hfuel => ?_, _, rfl, rfl⟩
  simp only [List.cons_append, List.length_cons, List.length_append] at hfuel
  obtain ⟨n, rfl⟩ : ∃ n, fuel = n + 1 := ⟨fuel - 1, by omega⟩
  have htail := hrest n (by omega)
  rw [List.length_cons] at htail
  rw [List.cons_append, tokenizeFrom, if_neg (by rw [hspace]; decide),
    if_neg (by rw [hnumber]; decide), if_neg (by rw [hword]; decide), hop rest hnext]
  simp only [bind, Except.bind, hlength, Nat.add_sub_cancel, List.drop_left, htail]
  rfl

/-- The loop of `ReadIdentifierOrKeyword` stops behind a word. -/
theorem wordSpan_append {word rest : List Char} (hall : ∀ c ∈ word, isWordChar c = true)
    (hrest : endsWord rest) : wordSpan (word ++ rest) = (word, rest) := by
  rw [wordSpan, List.span_eq_takeWhile_dropWhile]
  rw [List.takeWhile_append_of_pos hall, List.dropWhile_append_of_pos hall]
  cases rest with
  | nil => simp
  | cons c cs =>
    have hc : isWordChar c = false := (hrest c rfl).1
    simp [hc]

/-- A word. -/
theorem word {c : Char} {cs : List Char} (hstart : isWordStart c = true)
    (hall : ∀ d ∈ c :: cs, isWordChar d = true) :
    Lexes endsWord (c :: cs) fun us : List (Token D) => ∃ t, us = [t] ∧
      t.kind = TokenKind.ofWord (String.ofList (c :: cs)) ∧ t.lexeme = String.ofList (c :: cs) := by
  intro pos rest tokens hnext hrest
  refine ⟨[⟨TokenKind.ofWord (String.ofList (c :: cs)), String.ofList (c :: cs), ofNat 0,
    ⟨0, pos + 1, (c :: cs).length⟩⟩], fun fuel hfuel => ?_, _, rfl, rfl, rfl⟩
  rw [List.length_append] at hfuel
  obtain ⟨n, rfl⟩ : ∃ n, fuel = n + 1 := ⟨fuel - 1, by omega⟩
  have htail := hrest n (by rw [List.length_cons] at hfuel; omega)
  have hspan := wordSpan_append hall hnext
  rw [List.cons_append] at hspan ⊢
  rw [tokenizeFrom, if_neg (by rw [isSpace_of hstart (by decide)]; decide),
    if_neg (by rw [isNumberStart_of_isWordStart hstart]; decide), if_pos hstart, hspan]
  simp only [htail, bind, Except.bind]
  rfl

/-- The loop of `ReadNumber` stops behind the digits. -/
theorem numberSpan_append {digits rest : List Char} (hall : ∀ c ∈ digits, isDigit c = true)
    (hrest : endsNumber rest) (seenDot : Bool) :
    numberSpan seenDot (digits ++ rest) = (digits, rest) := by
  induction digits with
  | nil =>
    cases rest with
    | nil => rfl
    | cons c cs =>
      obtain ⟨hdigit, hdot⟩ := hrest c rfl
      simp [numberSpan, hdigit, hdot]
  | cons d ds ih =>
    simp [numberSpan, hall d List.mem_cons_self, ih fun c hc => hall c (List.mem_cons_of_mem d hc)]

/-- It goes on behind the first dot. -/
theorem numberSpan_dot {whole fraction rest : List Char} (hwhole : ∀ c ∈ whole, isDigit c = true)
    (hfraction : ∀ c ∈ fraction, isDigit c = true) (hrest : endsNumber rest) :
    numberSpan false (whole ++ '.' :: fraction ++ rest) = (whole ++ '.' :: fraction, rest) := by
  induction whole with
  | nil =>
    have hdot : isDigit '.' = false := by decide
    simp [numberSpan, hdot, numberSpan_append hfraction hrest true]
  | cons d ds ih =>
    have htail := ih fun c hc => hwhole c (List.mem_cons_of_mem d hc)
    rw [List.cons_append, List.cons_append, numberSpan, if_pos (hwhole d List.mem_cons_self), htail]

/-- What `ReadNumber` reads to its end is one number. -/
theorem numeral {c : Char} {cs : List Char} (hc : isDigit c = true)
    (hspan : ∀ rest, endsNumber rest → numberSpan false (c :: cs ++ rest) = (c :: cs, rest)) :
    Lexes endsNumber (c :: cs) fun us : List (Token D) => ∃ t, us = [t] ∧ t.kind = .number ∧
      t.numberValue = ofRat (decimalValue (c :: cs)) := by
  intro pos rest tokens hnext hrest
  refine ⟨[⟨.number, String.ofList (c :: cs), ofRat (decimalValue (c :: cs)),
    ⟨0, pos + 1, (c :: cs).length⟩⟩], fun fuel hfuel => ?_, _, rfl, rfl, rfl⟩
  rw [List.length_append] at hfuel
  obtain ⟨n, rfl⟩ : ∃ n, fuel = n + 1 := ⟨fuel - 1, by omega⟩
  have htail := hrest n (by rw [List.length_cons] at hfuel; omega)
  have hdot : c :: cs ≠ ['.'] := by
    rintro h
    rw [(List.cons.inj h).1] at hc
    exact absurd hc (by decide)
  have hspan := hspan rest hnext
  rw [List.cons_append] at hspan ⊢
  rw [tokenizeFrom, if_neg (by rw [isSpace_of hc (by decide)]; decide),
    if_pos (by rw [hc, Bool.true_or]), hspan]
  simp only [if_neg hdot, htail, bind, Except.bind]
  rfl

/-- A number without a dot. -/
theorem number {digits : List Char} (hne : digits ≠ []) (hall : ∀ c ∈ digits, isDigit c = true) :
    Lexes endsNumber digits fun us : List (Token D) => ∃ t, us = [t] ∧ t.kind = .number ∧
      t.numberValue = ofRat (decimalValue digits) := by
  obtain ⟨d, ds, rfl⟩ := List.exists_cons_of_ne_nil hne
  exact numeral (hall d List.mem_cons_self) fun rest hrest => numberSpan_append hall hrest false

/-- A number with a dot. -/
theorem dotted {whole fraction : List Char} (hne : whole ≠ [])
    (hwhole : ∀ c ∈ whole, isDigit c = true) (hfraction : ∀ c ∈ fraction, isDigit c = true) :
    Lexes endsNumber (whole ++ '.' :: fraction) fun us : List (Token D) => ∃ t, us = [t] ∧
      t.kind = .number ∧ t.numberValue = ofRat (decimalValue (whole ++ '.' :: fraction)) := by
  obtain ⟨d, ds, rfl⟩ := List.exists_cons_of_ne_nil hne
  exact numeral (hwhole d List.mem_cons_self) fun rest => numberSpan_dot hwhole hfraction

end Lexes

/-- A character that is a token. -/
theorem lexes_char {c : Char} (kind : TokenKind) (lexeme : String) (hspace : isSpace c = false)
    (hnumber : (isDigit c || c == '.') = false) (hword : isWordStart c = false)
    (hlength : lexeme.length = 1) (hop : ∀ next, readOperator c next = .ok (kind, lexeme)) :
    Lexes anything [c] fun us : List (Token D) => ∃ t, us = [t] ∧ t.kind = kind :=
  Lexes.operator hspace hnumber hword hlength fun _ _ => hop _

/-! ## Integers -/

/-- What is asked of a format: the integers below `10^15` are numbers of it. -/
structure ExactIntegers (D : Type) [Fp D] : Prop where
  /-- none of them is NaN -/
  isnan {n : Nat} : n < 10 ^ 15 → Fp.isnan (ofNat n : D) = false
  /-- none of them is infinite -/
  isinf {n : Nat} : n < 10 ^ 15 → Fp.isinf (ofNat n : D) = false
  /-- none but zero is zero -/
  eq_zero {n : Nat} : n < 10 ^ 15 → eq (ofNat n : D) (ofNat 0) = decide (n = 0)
  /-- they compare as integers -/
  lt_bound {n : Nat} : n < 10 ^ 15 → lt (fabs (ofNat n : D)) (ofNat (10 ^ 15)) = true
  /-- they convert to integers -/
  toInt {n : Nat} : n < 10 ^ 15 → Fp.toInt (ofNat n : D) = n

section Integers

variable {printG17 : D → String} {n : Nat}

/-- An integer is printed in decimal. -/
theorem formatNumber_ofNat (hD : ExactIntegers D) (hn : n < 10 ^ 15) :
    (formatNumber printG17 (ofNat n)).toList = Nat.toDigits 10 n := by
  have hself : eq (ofInt (Fp.toInt (ofNat n : D))) (ofNat n : D) = true := by
    have hnan := hD.isnan hn
    rw [isnan, Bool.not_eq_false'] at hnan
    rw [hD.toInt hn]
    exact hnan
  rw [formatNumber, if_neg (by rw [hD.isnan hn]; decide), if_neg (by rw [hD.isinf hn]; decide),
    hD.eq_zero hn, hself, hD.lt_bound hn, hD.toInt hn]
  by_cases hzero : n = 0
  · subst hzero
    rw [if_pos (by decide), Nat.toDigits_zero]
    decide
  · rw [if_neg (by simpa using hzero), Bool.and_self, if_pos rfl]
    exact Nat.toList_repr

theorem digitsValue_toDigits (n : Nat) : digitsValue (Nat.toDigits 10 n) = n := by
  have h := Nat.ofDigitChars_ten_toDigits (n := n)
  rw [Nat.ofDigitChars_eq_foldl] at h
  exact h

/-- The value of digits alone. -/
theorem decimalValue_digits {digits : List Char} (hall : ∀ c ∈ digits, isDigit c = true) :
    decimalValue digits = digitsValue digits := by
  have hdot : ∀ c ∈ digits, (c != '.') = true := by
    intro c hc
    rw [bne_iff_ne]
    rintro rfl
    exact absurd (hall _ hc) (by decide)
  rw [decimalValue, List.takeWhile_eq_self_iff.mpr hdot, List.dropWhile_eq_nil_iff.mpr hdot]
  simp

theorem decimalValue_toDigits (n : Nat) : decimalValue (Nat.toDigits 10 n) = n := by
  rw [decimalValue_digits fun c hc => isDigit_of_mem_toDigits hc, digitsValue_toDigits]

end Integers

end JitSignalEngine
