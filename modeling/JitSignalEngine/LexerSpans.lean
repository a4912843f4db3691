import JitSignalEngine.Exact
import JitSignalEngine.Lexer
import JitSignalEngine.TypeCheck
import Mathlib.Data.List.TakeWhile

/-!
# The places of tokens

`lexer.cpp` keeps a column and a length for every token; diagnostics draw their carets
from them.

* `Turn` — what one turn of `Lexer::Tokenize` takes off the text.
* `Scanned` — the turns in a row, with the white space between them.
* `Lossless` — the tokens of a text and the text say the same.
* `tokenize_lossless` — they do, whatever the text.

A column is `static_cast<std::uint32_t>(pos_ + 1)`, so all of this is about texts whose
columns fit.
-/

namespace JitSignalEngine

variable {D : Type} [Fp D]

/-! ## The scanners -/

/-- Whether a number goes on with a character: a digit, or the first dot. -/
def extendsNumber (seenDot : Bool) (c : Char) : Bool := isDigit c || (c == '.' && !seenDot)

theorem numberSpan_spec {seenDot : Bool} {cs word rest : List Char}
    (h : numberSpan seenDot cs = (word, rest)) :
    cs = word ++ rest ∧
      ∀ c ∈ rest.head?, extendsNumber (seenDot || word.contains '.') c = false := by
  induction cs generalizing seenDot word rest with
  | nil =>
    cases h
    exact ⟨rfl, fun c hc => by cases hc⟩
  | cons d cs ih =>
    rw [numberSpan] at h
    by_cases hdigit : isDigit d = true
    · rcases hspan : numberSpan seenDot cs with ⟨tail, after⟩
      rw [if_pos hdigit, hspan] at h
      cases h
      obtain ⟨hcs, hrest⟩ := ih hspan
      have hdot : d ≠ '.' := by rintro rfl; cases hdigit
      refine ⟨congrArg (d :: ·) hcs, fun c hc => ?_⟩
      rw [List.contains_cons, beq_false_of_ne hdot.symm, Bool.false_or]
      exact hrest c hc
    · rw [if_neg hdigit] at h
      by_cases hdot : (d == '.' && !seenDot) = true
      · rcases hspan : numberSpan true cs with ⟨tail, after⟩
        rw [if_pos hdot, hspan] at h
        cases h
        obtain ⟨hcs, hrest⟩ := ih hspan
        obtain rfl : d = '.' := by simpa using (Bool.and_eq_true_iff.mp hdot).1
        refine ⟨congrArg ('.' :: ·) hcs, fun c hc => ?_⟩
        rw [List.contains_cons, BEq.rfl, Bool.true_or, Bool.or_true]
        exact hrest c hc
      · rw [if_neg hdot] at h
        cases h
        refine ⟨rfl, fun c hc => ?_⟩
        cases hc
        rw [List.contains_nil, Bool.or_false, extendsNumber, Bool.eq_false_iff.mpr hdigit,
          Bool.eq_false_iff.mpr hdot, Bool.or_self]

theorem wordSpan_spec {cs word rest : List Char} (h : wordSpan cs = (word, rest)) :
    cs = word ++ rest ∧ (∀ c ∈ word, isWordChar c = true) ∧
      ∀ c ∈ rest.head?, isWordChar c = false := by
  rw [wordSpan, List.span_eq_takeWhile_dropWhile] at h
  cases h
  refine ⟨List.takeWhile_append_dropWhile.symm, fun c hc => List.mem_takeWhile_imp hc, ?_⟩
  intro c hc
  have hne : cs.dropWhile isWordChar ≠ [] := by
    intro hnil
    rw [hnil] at hc
    cases hc
  have hfirst := List.head_dropWhile_not isWordChar hne
  rw [List.head?_eq_some_head hne] at hc
  cases hc
  exact hfirst

theorem isWordChar_of_isWordStart {c : Char} (h : isWordStart c = true) : isWordChar c = true := by
  rw [isWordStart, Bool.or_eq_true] at h
  rw [isWordChar, Bool.or_eq_true, Bool.or_eq_true]
  exact h.imp_left .inl

theorem wordSpan_start {c : Char} {cs word rest : List Char} (hstart : isWordStart c = true)
    (h : wordSpan (c :: cs) = (word, rest)) : ∃ w, word = c :: w := by
  rw [wordSpan, List.span_eq_takeWhile_dropWhile,
    List.takeWhile_cons_of_pos (isWordChar_of_isWordStart hstart)] at h
  cases h
  exact ⟨_, rfl⟩

/-- Operators, brackets and commas. -/
def TokenKind.isPunctuation : TokenKind → Bool
  | .endOfFile | .number | .identifier | .signal | .param | .ifWord | .thenWord | .elseWord => false
  | _ => true

theorem readOperator_spec {c : Char} {next : Option Char} {kind : TokenKind} {lexeme : String}
    (h : readOperator c next = .ok (kind, lexeme)) :
    kind.isPunctuation = true ∧
      (lexeme.toList = [c] ∨ ∃ d, next = some d ∧ lexeme.toList = [c, d]) := by
  rw [readOperator.eq_def] at h
  split at h <;> (try split at h) <;> cases h <;> simp_all [TokenKind.isPunctuation]

theorem readOperator_error {c : Char} {next : Option Char} {e : LexError}
    (h : readOperator c next = .error e) : ∃ m, e = .message m := by
  rw [readOperator.eq_def] at h
  split at h <;> (try split at h) <;> cases h <;> exact ⟨_, rfl⟩

/-! ## The loop -/

/-- Identifiers and keywords. -/
def TokenKind.isWord : TokenKind → Bool
  | .identifier | .signal | .param | .ifWord | .thenWord | .elseWord => true
  | _ => false

/-- Whether the next character would belong to the token too. -/
def Token.extendedBy (t : Token D) (c : Char) : Bool :=
  if t.kind = .number then extendsNumber (t.lexeme.toList.contains '.') c
  else t.kind.isWord && isWordChar c

theorem ofWord_isWord (lexeme : String) : (TokenKind.ofWord lexeme).isWord = true := by
  unfold TokenKind.ofWord
  split_ifs <;> rfl

theorem TokenKind.ne_of_isWord {k k' : TokenKind} (h : k.isWord = true)
    (h' : k'.isWord = false) : k ≠ k' := by
  rintro rfl
  rw [h] at h'
  cases h'

/-- A turn of the loop at `pos`: the text before it, the text it leaves, and its token. -/
inductive Turn (pos : Nat) : List Char → List Char → Token D → Prop
  | number {c : Char} {cs word rest : List Char} (hstart : (isDigit c || c == '.') = true)
      (hspan : numberSpan false (c :: cs) = (word, rest)) :
      Turn pos (c :: cs) rest ⟨.number, String.ofList word, Fp.ofRat (decimalValue word),
        ⟨0, pos + 1, word.length⟩⟩
  | word {c : Char} {cs word rest : List Char} (hstart : isWordStart c = true)
      (hspan : wordSpan (c :: cs) = (word, rest)) :
      Turn pos (c :: cs) rest ⟨TokenKind.ofWord (String.ofList word), String.ofList word,
        Fp.ofNat 0, ⟨0, pos + 1, word.length⟩⟩
  | operator {c : Char} {cs : List Char} {kind : TokenKind} {lexeme : String}
      (hop : readOperator c cs.head? = .ok (kind, lexeme)) :
      Turn pos (c :: cs) (cs.drop (lexeme.length - 1))
        ⟨kind, lexeme, Fp.ofNat 0, ⟨0, pos + 1, lexeme.length⟩⟩

/-- The turns of the loop in a row, up to the end of the text. -/
inductive Scanned : Nat → List Char → List (Token D) → Prop
  | done {pos : Nat} : Scanned pos [] []
  | space {pos : Nat} {c : Char} {cs : List Char} {ts : List (Token D)}
      (hspace : isSpace c = true) (hrest : Scanned (pos + 1) cs ts) : Scanned pos (c :: cs) ts
  | turn {pos : Nat} {cs rest : List Char} {t : Token D} {ts : List (Token D)}
      (hturn : Turn pos cs rest t) (hrest : Scanned (pos + t.loc.length) rest ts) :
      Scanned pos cs (t :: ts)

/-- The final token. -/
def endToken (pos : Nat) : Token D := ⟨.endOfFile, "", Fp.ofNat 0, ⟨0, pos + 1, 0⟩⟩

/-- **A turn** throws, or reads one token and goes on behind it. -/
theorem tokenizeFrom_step (fuel pos : Nat) {c : Char} (cs : List Char) (hc : isSpace c = false) :
    (∃ m, tokenizeFrom (D := D) (fuel + 1) pos (c :: cs) = .error (.message m)) ∨
    ∃ rest t, Turn pos (c :: cs) rest t ∧ tokenizeFrom (D := D) (fuel + 1) pos (c :: cs) =
      (tokenizeFrom fuel (pos + t.loc.length) rest).bind fun ts => .ok (t :: ts) := by
  rw [tokenizeFrom, if_neg (by rw [hc]; exact Bool.false_ne_true)]
  by_cases hnumber : (isDigit c || c == '.') = true
  · rw [if_pos hnumber]
    rcases hspan : numberSpan false (c :: cs) with ⟨word, rest⟩
    by_cases hdot : word = ['.']
    · exact .inl ⟨_, if_pos hdot⟩
    · exact .inr ⟨rest, _, .number hnumber hspan, if_neg hdot⟩
  rw [if_neg hnumber]
  by_cases hword : isWordStart c = true
  · rw [if_pos hword]
    rcases hspan : wordSpan (c :: cs) with ⟨word, rest⟩
    exact .inr ⟨rest, _, .word hword hspan, rfl⟩
  rw [if_neg hword]
  rcases hop : readOperator c cs.head? with e | ⟨kind, lexeme⟩
  · obtain ⟨m, rfl⟩ := readOperator_error hop
    exact .inl ⟨m, rfl⟩
  · exact .inr ⟨_, _, .operator hop, rfl⟩

/-- What a turn splits off. -/
theorem Turn.spec {pos : Nat} {cs rest : List Char} {t : Token D} (h : Turn pos cs rest t) :
    ∃ word, word ≠ [] ∧ cs = word ++ rest ∧ t.lexeme.toList = word ∧
      t.loc = ⟨0, pos + 1, word.length⟩ ∧ t.kind ≠ .endOfFile ∧
      ∀ c ∈ rest.head?, t.extendedBy c = false := by
  cases h with
  | @number c cs word _ hstart hspan =>
    obtain ⟨hcs, hrest⟩ := numberSpan_spec hspan
    refine ⟨word, ?_, hcs, String.toList_ofList, rfl, TokenKind.noConfusion, ?_⟩
    · rintro rfl
      obtain rfl : c :: cs = rest := hcs
      have hstop : extendsNumber false c = false := hrest c rfl
      rw [extendsNumber, Bool.not_false, Bool.and_true, hstart] at hstop
      cases hstop
    · intro d hd
      rw [Token.extendedBy, if_pos rfl, String.toList_ofList]
      exact hrest d hd
  | @word c cs word _ hstart hspan =>
    obtain ⟨hcs, -, hrest⟩ := wordSpan_spec hspan
    obtain ⟨w, rfl⟩ := wordSpan_start hstart hspan
    have hword := ofWord_isWord (String.ofList (c :: w))
    refine ⟨c :: w, List.cons_ne_nil c w, hcs, String.toList_ofList, rfl, ?_, ?_⟩
    · exact TokenKind.ne_of_isWord hword rfl
    · intro d hd
      rw [Token.extendedBy, if_neg (TokenKind.ne_of_isWord hword rfl), hword]
      exact hrest d hd
  | @operator c cs kind lexeme hop =>
    obtain ⟨hkind, hlexeme⟩ := readOperator_spec hop
    have hlength : lexeme.length = lexeme.toList.length := String.length_toList.symm
    refine ⟨lexeme.toList, ?_, ?_, rfl, by rw [hlength], ?_, ?_⟩
    · rcases hlexeme with h | ⟨d, -, h⟩ <;> rw [h] <;> exact List.cons_ne_nil _ _
    · rw [hlength]
      rcases hlexeme with h | ⟨d, hd, h⟩
      · rw [h]
        rfl
      · obtain ⟨cs, rfl⟩ : ∃ cs', cs = d :: cs' := List.head?_eq_some_iff.mp hd
        rw [h]
        rfl
    · rintro rfl
      cases hkind
    · intro d _
      cases kind <;> first | rfl | cases hkind

/-- **A whole run** throws, or reads the text to its end, or was cut off by the bound. -/
theorem tokenizeFrom_run (fuel pos : Nat) (cs : List Char) :
    (∃ m, tokenizeFrom (D := D) fuel pos cs = .error (.message m)) ∨
    (∃ ts, tokenizeFrom (D := D) fuel pos cs = .ok (ts ++ [endToken (pos + cs.length)]) ∧
      Scanned pos cs ts) ∨
    (tokenizeFrom (D := D) fuel pos cs = .error .outOfFuel ∧ fuel ≤ cs.length) := by
  induction fuel generalizing pos cs with
  | zero => exact .inr (.inr ⟨rfl, Nat.zero_le _⟩)
  | succ fuel ih =>
    rcases cs with _ | ⟨c, cs⟩
    · exact .inr (.inl ⟨[], rfl, .done⟩)
    by_cases hspace : isSpace c = true
    · have hskip : tokenizeFrom (D := D) (fuel + 1) pos (c :: cs) =
          tokenizeFrom fuel (pos + 1) cs := by rw [tokenizeFrom, if_pos hspace]
      have hend : pos + (c :: cs).length = pos + 1 + cs.length := by
        rw [List.length_cons]
        omega
      rw [hskip, hend]
      rcases ih (pos + 1) cs with hthrow | ⟨ts, hok, hscan⟩ | ⟨hcut, hle⟩
      · exact .inl hthrow
      · exact .inr (.inl ⟨ts, hok, .space hspace hscan⟩)
      · exact .inr (.inr ⟨hcut, Nat.succ_le_succ hle⟩)
    rcases tokenizeFrom_step (D := D) fuel pos cs (Bool.eq_false_iff.mpr hspace) with
      hthrow | ⟨rest, t, hturn, hstep⟩
    · exact .inl hthrow
    obtain ⟨word, hne, hcs, -, hloc, -⟩ := hturn.spec
    have hword : 0 < word.length := List.length_pos_of_ne_nil hne
    have hlength : (c :: cs).length = word.length + rest.length := by rw [hcs, List.length_append]
    rw [hstep, hloc]
    rcases ih (pos + word.length) rest with ⟨m, hthrow⟩ | ⟨ts, hok, hscan⟩ | ⟨hcut, hle⟩
    · exact .inl ⟨m, by rw [hthrow]; rfl⟩
    · refine .inr (.inl ⟨t :: ts, ?_, .turn hturn (hloc ▸ hscan)⟩)
      rw [hok, hlength, ← Nat.add_assoc]
      rfl
    · exact .inr (.inr ⟨by rw [hcut]; rfl, by omega⟩)

/-! ## The text and its tokens -/

/-- The offset of the first byte of a token. -/
def Token.start (t : Token D) : Nat := t.loc.col - 1

/-- The offset behind the last byte of a token. -/
def Token.stop (t : Token D) : Nat := t.start + t.loc.length

/-- From the offset `pos` on, the tokens are what the text says. -/
structure Lossless (text : List Char) (pos : Nat) (tokens : List (Token D)) : Prop where
  /-- columns are 1-based -/
  column : ∀ t ∈ tokens, pos < t.loc.col
  /-- the line is not the lexer's -/
  line : ∀ t ∈ tokens, t.loc.line = 0
  /-- no span is empty -/
  nonempty : ∀ t ∈ tokens, 0 < t.loc.length
  /-- the spans follow one another -/
  ordered : tokens.Pairwise fun t u => t.stop ≤ u.start
  /-- a lexeme is the text at its span -/
  lexeme : ∀ t ∈ tokens, t.lexeme.toList = (text.drop t.start).take t.loc.length ∧
    t.loc.length = t.lexeme.length
  /-- between the spans there is white space -/
  gaps : ∀ i c, pos ≤ i → text[i]? = some c → (∀ t ∈ tokens, ¬ (t.start ≤ i ∧ i < t.stop)) →
    isSpace c = true
  /-- numbers and words are as long as they can be -/
  maximal : ∀ t ∈ tokens, ∀ c, text[t.stop]? = some c → t.extendedBy c = false

omit [Fp D] in
theorem Lossless.done {text : List Char} {pos : Nat} (h : text.length ≤ pos) :
    Lossless (D := D) text pos [] := by
  have hnone : ∀ {P : Token D → Prop}, ∀ t ∈ ([] : List (Token D)), P t := by
    intro P t ht
    cases ht
  refine ⟨hnone, hnone, hnone, .nil, hnone, fun i c hi hc => ?_, hnone⟩
  rw [List.getElem?_eq_none (h.trans hi)] at hc
  cases hc

omit [Fp D] in
/-- White space in front changes nothing. -/
theorem Lossless.space {text : List Char} {pos : Nat} {c : Char} {tokens : List (Token D)}
    (hc : text[pos]? = some c) (hspace : isSpace c = true) (h : Lossless text (pos + 1) tokens) :
    Lossless text pos tokens where
  column t ht := Nat.lt_of_succ_lt (h.column t ht)
  line := h.line
  nonempty := h.nonempty
  ordered := h.ordered
  lexeme := h.lexeme
  maximal := h.maximal
  gaps i d hi hd hout := by
    rcases Nat.eq_or_lt_of_le hi with rfl | hlt
    · rw [hc] at hd
      cases hd
      exact hspace
    · exact h.gaps i d hlt hd hout

omit [Fp D] in
/-- One more token in front. -/
theorem Lossless.cons {text word rest : List Char} {pos : Nat} {t : Token D}
    {tokens : List (Token D)} (htext : text.drop pos = word ++ rest) (hne : word ≠ [])
    (hlexeme : t.lexeme.toList = word) (hloc : t.loc = ⟨0, pos + 1, word.length⟩)
    (hmax : ∀ c ∈ rest.head?, t.extendedBy c = false)
    (h : Lossless text (pos + word.length) tokens) : Lossless text pos (t :: tokens) := by
  have hstart : t.start = pos := by rw [Token.start, hloc]; rfl
  have hstop : t.stop = pos + word.length := by rw [Token.stop, hstart, hloc]
  have hword : 0 < word.length := List.length_pos_of_ne_nil hne
  refine ⟨?_, ?_, ?_, ?_, ?_, ?_, ?_⟩
  · exact List.forall_mem_cons.mpr ⟨by rw [hloc]; exact Nat.lt_succ_self pos,
      fun u hu => by have := h.column u hu; omega⟩
  · exact List.forall_mem_cons.mpr ⟨by rw [hloc], h.line⟩
  · exact List.forall_mem_cons.mpr ⟨by rw [hloc]; exact hword, h.nonempty⟩
  · refine List.pairwise_cons.mpr ⟨fun u hu => ?_, h.ordered⟩
    have hcol := h.column u hu
    rw [hstop, Token.start]
    omega
  · refine List.forall_mem_cons.mpr ⟨?_, h.lexeme⟩
    rw [hstart, htext, hlexeme, hloc, ← String.length_toList, hlexeme]
    exact ⟨(List.take_left).symm, rfl⟩
  · intro i c hi hc hout
    have hhere := hout t List.mem_cons_self
    rw [hstart, hstop] at hhere
    exact h.gaps i c (by omega) hc fun u hu => hout u (List.mem_cons_of_mem t hu)
  · refine List.forall_mem_cons.mpr ⟨fun c hc => hmax c ?_, h.maximal⟩
    rw [hstop, ← List.getElem?_drop, htext, List.getElem?_append_right (Nat.le_refl _),
      Nat.sub_self, ← List.head?_eq_getElem?] at hc
    exact hc

/-- **The turns of a run** lose nothing of the text. -/
theorem Scanned.lossless {text cs : List Char} {pos : Nat} {ts : List (Token D)}
    (h : Scanned pos cs ts) (htext : text.drop pos = cs) : Lossless text pos ts := by
  induction h with
  | done => exact .done (List.drop_eq_nil_iff.mp htext)
  | @space pos c cs ts hspace _ ih =>
    have hc : text[pos]? = some c := by
      have := congrArg List.head? htext
      rwa [List.head?_drop] at this
    refine .space hc hspace (ih ?_)
    rw [← List.drop_drop, htext]
    rfl
  | @turn pos cs rest t ts hturn _ ih =>
    obtain ⟨word, hne, rfl, hlexeme, hloc, -, hmax⟩ := hturn.spec
    rw [hloc] at ih
    refine .cons htext hne hlexeme hloc hmax (ih ?_)
    rw [← List.drop_drop, htext]
    exact List.drop_left

/-- Each token is from a turn. -/
theorem Scanned.turn_of_mem {cs : List Char} {pos : Nat} {ts : List (Token D)}
    (h : Scanned pos cs ts) {t : Token D} (ht : t ∈ ts) : ∃ pos cs rest, Turn pos cs rest t := by
  induction h with
  | done => cases ht
  | space _ _ ih => exact ih ht
  | turn hturn _ ih =>
    rcases List.mem_cons.mp ht with rfl | ht
    · exact ⟨_, _, _, hturn⟩
    · exact ih ht

/-- Only the end of the text is an `EndOfFile`. -/
theorem Scanned.not_endOfFile {cs : List Char} {pos : Nat} {ts : List (Token D)}
    (h : Scanned pos cs ts) : ∀ t ∈ ts, t.kind ≠ .endOfFile := by
  intro t ht
  obtain ⟨_, _, _, hturn⟩ := h.turn_of_mem ht
  obtain ⟨_, _, _, _, _, hkind, _⟩ := hturn.spec
  exact hkind

omit [Fp D] in
/-- No span goes past the end. -/
theorem Lossless.stop_le {text : List Char} {pos : Nat} {tokens : List (Token D)}
    (h : Lossless text pos tokens) {t : Token D} (ht : t ∈ tokens) : t.stop ≤ text.length := by
  obtain ⟨hlexeme, hlength⟩ := h.lexeme t ht
  have htake := congrArg List.length hlexeme
  rw [String.length_toList, ← hlength, List.length_take, List.length_drop] at htake
  have hne := h.nonempty t ht
  rw [Token.stop]
  omega

/-! ## 32-bit places -/

/-- The fields of a `SourceLoc` are `std::uint32_t`. -/
def SourceLoc.stored (loc : SourceLoc) : SourceLoc :=
  ⟨loc.line % 2 ^ 32, loc.col % 2 ^ 32, loc.length % 2 ^ 32⟩

/-- A token with its place as it is stored. -/
def Token.stored (t : Token D) : Token D := { t with loc := t.loc.stored }

/-- `Lexer::Tokenize` with the places it stores. Nothing it does looks at a place. -/
def tokenizeStored (text : List Char) : Except LexError (List (Token D)) :=
  (tokenize text).map fun tokens => tokens.map Token.stored

theorem SourceLoc.stored_eq {loc : SourceLoc} (hline : loc.line < 2 ^ 32) (hcol : loc.col < 2 ^ 32)
    (hlength : loc.length < 2 ^ 32) : loc.stored = loc := by
  rw [SourceLoc.stored, Nat.mod_eq_of_lt hline, Nat.mod_eq_of_lt hcol, Nat.mod_eq_of_lt hlength]

/-- **The lexer is lossless and total.** It throws an error of its own, or its tokens, with
the end behind them, are what the text says. -/
theorem tokenize_lossless {text : List Char} (hlength : text.length < 2 ^ 32 - 1) :
    (∃ m, tokenizeStored (D := D) text = .error (.message m)) ∨
    ∃ tokens : List (Token D), tokenizeStored text = .ok (tokens ++ [endToken text.length]) ∧
      (∀ t ∈ tokens, t.kind ≠ .endOfFile) ∧ Lossless text 0 tokens := by
  rw [tokenizeStored, tokenize]
  rcases tokenizeFrom_run (D := D) (text.length + 1) 0 text with
    ⟨m, hthrow⟩ | ⟨tokens, hok, hscan⟩ | ⟨-, hle⟩
  · exact .inl ⟨m, by rw [hthrow]; rfl⟩
  · have hlossless := hscan.lossless List.drop_zero
    refine .inr ⟨tokens, ?_, hscan.not_endOfFile, hlossless⟩
    have hstored : ∀ t ∈ tokens, t.stored = t := by
      intro t ht
      have hstop := hlossless.stop_le ht
      have hline := hlossless.line t ht
      rw [Token.stop, Token.start] at hstop
      rw [Token.stored, SourceLoc.stored_eq (by omega) (by omega) (by omega)]
    have hend : (endToken text.length : Token D).stored = endToken text.length := by
      rw [Token.stored, SourceLoc.stored_eq (Nat.two_pow_pos 32) (by dsimp only [endToken]; omega)
        (Nat.two_pow_pos 32)]
    rw [hok, Nat.zero_add, Except.map, List.map_append, List.map_congr_left hstored, List.map_id',
      List.map_singleton, hend]
  · exact absurd hle (Nat.not_succ_le_self _)

/-- `x >=1.5.2`: white space, an operator of two characters, and a number that stops at a
second dot. -/
theorem tokenize_lossless_secondDot :
    ∃ tokens : List (Token (Exact ℚ)),
      tokenizeStored ['x', ' ', '>', '=', '1', '.', '5', '.', '2'] =
        .ok (tokens ++ [endToken 9]) ∧
      (∀ t ∈ tokens, t.kind ≠ .endOfFile) ∧
      Lossless ['x', ' ', '>', '=', '1', '.', '5', '.', '2'] 0 tokens := by
  refine (tokenize_lossless (by decide)).resolve_left ?_
  rintro ⟨m, hm⟩
  cases hm

end JitSignalEngine
