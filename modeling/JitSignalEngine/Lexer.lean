import JitSignalEngine.Ast
import JitSignalEngine.Arithmetic
import Mathlib.Algebra.Group.Nat.Defs

/-!
# The lexer

`lexer.cpp`: from the characters of one line to tokens.

* `Token` — a token with its lexeme, its value and its place.
* `numberSpan`, `wordSpan` — the longest number or word a text starts with.
* `readOperator` — operators and punctuation, one or two characters long.
* `tokenize` — the loop.

Text is a list of characters, one for each byte. Letters, digits and white space are those
of ASCII, as in the C locale. `std::strtod` rounds the value of a literal to the format.
-/

namespace JitSignalEngine

/-! ## Tokens -/

/-- `TokenKind` -/
inductive TokenKind where
  | endOfFile | number | identifier | signal | param | ifWord | thenWord | elseWord | assign | plus
  | minus | star | slash | lParen | rParen | comma | gt | lt | gte | lte | eq | notEq | and | or
deriving DecidableEq, Repr

/-- `Token` -/
structure Token (D : Type) where
  /-- `kind` -/
  kind : TokenKind
  /-- `lexeme` -/
  lexeme : String
  /-- `number_value` -/
  numberValue : D
  /-- `loc` -/
  loc : SourceLoc
deriving DecidableEq

/-- What `Tokenize` throws. -/
inductive LexError where
  /-- `std::runtime_error` -/
  | message (text : String)
  /-- no error of the source: the bound of the model on the loop -/
  | outOfFuel
deriving DecidableEq, Repr

/-! ## Characters -/

/-- `std::isdigit` -/
def isDigit (c : Char) : Bool := '0' ≤ c && c ≤ '9'

/-- `std::isalpha` -/
def isAlpha (c : Char) : Bool := ('a' ≤ c && c ≤ 'z') || ('A' ≤ c && c ≤ 'Z')

/-- `std::isspace` -/
def isSpace (c : Char) : Bool :=
  c == ' ' || c == '\t' || c == '\n' || c == '\r' || c == '\x0b' || c == '\x0c'

/-- What a word starts with. -/
def isWordStart (c : Char) : Bool := isAlpha c || c == '_'

/-- What a word goes on with. -/
def isWordChar (c : Char) : Bool := isAlpha c || isDigit c || c == '_'

/-! ## Numbers -/

/-- The loop of `ReadNumber`: digits with at most one dot, and the rest. -/
def numberSpan (seenDot : Bool) : List Char → List Char × List Char
  | [] => ([], [])
  | c :: cs =>
    if isDigit c then
      let (word, rest) := numberSpan seenDot cs
      (c :: word, rest)
    else if c == '.' && !seenDot then
      let (word, rest) := numberSpan true cs
      (c :: word, rest)
    else ([], c :: cs)

/-- The value of a digit. -/
def digitValue (c : Char) : Nat := c.toNat - '0'.toNat

/-- The number a list of digits stands for. -/
def digitsValue (cs : List Char) : Nat := cs.foldl (fun n c => 10 * n + digitValue c) 0

/-- The number a decimal literal stands for. -/
def decimalValue (lexeme : List Char) : ℚ :=
  let whole := lexeme.takeWhile (· != '.')
  let fraction := (lexeme.dropWhile (· != '.')).tail
  (digitsValue (whole ++ fraction) : ℚ) / (10 ^ fraction.length : ℕ)

/-! ## Words and operators -/

/-- The loop of `ReadIdentifierOrKeyword`. -/
def wordSpan (cs : List Char) : List Char × List Char := cs.span isWordChar

/-- The kind of a word. -/
def TokenKind.ofWord (lexeme : String) : TokenKind :=
  if lexeme = "signal" then .signal
  else if lexeme = "param" then .param
  else if lexeme = "if" then .ifWord
  else if lexeme = "then" then .thenWord
  else if lexeme = "else" then .elseWord
  else .identifier

/-- The switch of `Tokenize` on a character and the one after it. -/
def readOperator (c : Char) (next : Option Char) : Except LexError (TokenKind × String) :=
  match c with
  | '=' => if next = some '=' then .ok (.eq, "==") else .ok (.assign, "=")
  | '!' =>
    if next = some '=' then .ok (.notEq, "!=")
    else .error (.message "Unexpected '!' - did you mean '!='?")
  | '>' => if next = some '=' then .ok (.gte, ">=") else .ok (.gt, ">")
  | '&' =>
    if next = some '&' then .ok (.and, "&&")
    else .error (.message "Unexpected '&' - did you mean '&&'?")
  | '|' =>
    if next = some '|' then .ok (.or, "||")
    else .error (.message "Unexpected '|' - did you mean '||'?")
  | '<' => if next = some '=' then .ok (.lte, "<=") else .ok (.lt, "<")
  | '+' => .ok (.plus, "+")
  | '-' => .ok (.minus, "-")
  | '*' => .ok (.star, "*")
  | '/' => .ok (.slash, "/")
  | '(' => .ok (.lParen, "(")
  | ')' => .ok (.rParen, ")")
  | ',' => .ok (.comma, ",")
  | _ => .error (.message "Unexpected character in lexer")

/-! ## The loop -/

section Tokenize

variable {D : Type} [Fp D]

/-- `Lexer::Tokenize` from the position `pos` on. Every turn takes a character, so as many
turns as there are characters, and one for the end, are enough. -/
def tokenizeFrom : Nat → Nat → List Char → Except LexError (List (Token D))
  | 0, _, _ => .error .outOfFuel
  | _ + 1, pos, [] => .ok [⟨.endOfFile, "", Fp.ofNat 0, ⟨0, pos + 1, 0⟩⟩]
  | fuel + 1, pos, c :: cs =>
    if isSpace c then tokenizeFrom fuel (pos + 1) cs
    else if isDigit c || c == '.' then
      let (word, rest) := numberSpan false (c :: cs)
      if word = ['.'] then .error (.message "Invalid numeric literal")
      else do
        let tokens ← tokenizeFrom fuel (pos + word.length) rest
        .ok (⟨.number, String.ofList word, Fp.ofRat (decimalValue word),
          ⟨0, pos + 1, word.length⟩⟩ :: tokens)
    else if isWordStart c then do
      let (word, rest) := wordSpan (c :: cs)
      let tokens ← tokenizeFrom fuel (pos + word.length) rest
      .ok (⟨TokenKind.ofWord (String.ofList word), String.ofList word, Fp.ofNat 0,
        ⟨0, pos + 1, word.length⟩⟩ :: tokens)
    else do
      let (kind, lexeme) ← readOperator c cs.head?
      let tokens ← tokenizeFrom fuel (pos + lexeme.length) (cs.drop (lexeme.length - 1))
      .ok (⟨kind, lexeme, Fp.ofNat 0, ⟨0, pos + 1, lexeme.length⟩⟩ :: tokens)

/-- `Lexer::Tokenize` -/
def tokenize (text : List Char) : Except LexError (List (Token D)) :=
  tokenizeFrom (text.length + 1) 0 text

end Tokenize

end JitSignalEngine
