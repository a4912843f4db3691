import JitSignalEngine.Ast
import JitSignalEngine.Lexer
import Mathlib.Data.List.Forall2

/-!
# The canonical string

`AstCanonicalString` writes a tree as text, and the module cache takes the text for the tree.
`AstEquals` compares trees directly.

* `canonicalAppend`, `signalKeys` — `CanonicalAppend` and the signal loop of
  `BuildCacheKeyString`.
* `ReadsBack` — what the reading needs from the text of a literal; `canonicalDouble_readsBack`
  gives it for `CanonicalDouble`, whatever `%.17g` prints.
* `canonicalAppend_inj`, `signalKeys_inj` — the text can be read back, up to locations and ids.
* `canonicalString_identifies` — equal text is equal trees.

Text is a list of characters.
-/

namespace JitSignalEngine

variable {D : Type}

/-! ## The text -/

/-- `std::to_string` -/
def decimal (n : Int) : List Char :=
  if n < 0 then '-' :: Nat.toDigits 10 n.natAbs else Nat.toDigits 10 n.natAbs

/-- `static_cast<int>` of a `UnaryOpKind` -/
def UnaryOpKind.index : UnaryOpKind → Nat
  | .plus => 0
  | .minus => 1

/-- `static_cast<int>` of a `BinaryOpKind` -/
def BinaryOpKind.index : BinaryOpKind → Nat
  | .add => 0
  | .sub => 1
  | .mul => 2
  | .div => 3
  | .gt => 4
  | .lt => 5
  | .gte => 6
  | .lte => 7
  | .eq => 8
  | .notEq => 9
  | .and => 10
  | .or => 11

section Text

variable (canonicalDouble : D → List Char)

mutual

/-- `CanonicalAppend` -/
def canonicalAppend : Expr D → List Char
  | .numberLiteral _ v => 'n' :: '(' :: canonicalDouble v ++ [')']
  | .identifierExpr _ name => 'i' :: 'd' :: '(' :: name.toList ++ [')']
  | .parameterExpr _ name id =>
    'p' :: 'a' :: 'r' :: 'a' :: 'm' :: '(' :: name.toList ++ ',' :: decimal id ++ [')']
  | .unaryOp _ kind e => 'u' :: '(' :: decimal kind.index ++ ',' :: canonicalAppend e ++ [')']
  | .binaryOp _ kind l r =>
    'b' :: '(' :: decimal kind.index ++ ',' :: canonicalAppend l ++ ',' :: canonicalAppend r ++ [')']
  | .conditional _ c t e =>
    'i' :: 'f' :: '(' :: canonicalAppend c ++ ',' :: canonicalAppend t ++ ',' ::
      canonicalAppend e ++ [')']
  | .functionCall _ name args _ _ =>
    'f' :: '(' :: name.toList ++ ',' :: decimal args.length ++ canonicalArgs args ++ [')']

/-- The argument loop of `CanonicalAppend`. -/
def canonicalArgs : List (Expr D) → List Char
  | [] => []
  | a :: as => ',' :: canonicalAppend a ++ canonicalArgs as

end

/-- The signal loop of `BuildCacheKeyString`. -/
def signalKeys : List (SignalDef D) → List Char
  | [] => []
  | s :: rest =>
    ";sig=".toList ++ s.name.toList ++ '=' :: canonicalAppend canonicalDouble s.body ++
      signalKeys rest

variable {canonicalDouble : D → List Char}

theorem signalKeys_nil : signalKeys canonicalDouble [] = [] := rfl

theorem signalKeys_cons (s : SignalDef D) (rest : List (SignalDef D)) :
    signalKeys canonicalDouble (s :: rest) = ";sig=".toList ++ s.name.toList ++
      '=' :: canonicalAppend canonicalDouble s.body ++ signalKeys canonicalDouble rest := rfl

end Text

/-! ## Reading the text back -/

/-- Two texts that go on with characters outside `p` agree in the parts inside `p`. -/
theorem append_inj_of_span {α : Type} {p : α → Bool} {xs ys r r' : List α}
    (hx : ∀ c ∈ xs, p c = true) (hy : ∀ c ∈ ys, p c = true) (hr : ∀ c ∈ r.head?, p c = false)
    (hr' : ∀ c ∈ r'.head?, p c = false) (h : xs ++ r = ys ++ r') : xs = ys ∧ r = r' := by
  induction xs generalizing ys with
  | nil =>
    cases ys with
    | nil => exact ⟨rfl, h⟩
    | cons y ys =>
      rw [List.nil_append] at h
      have := hr y (by rw [h]; rfl)
      rw [hy y List.mem_cons_self] at this
      cases this
  | cons x xs ih =>
    cases ys with
    | nil =>
      rw [List.nil_append] at h
      have := hr' x (by rw [← h]; rfl)
      rw [hx x List.mem_cons_self] at this
      cases this
    | cons y ys =>
      obtain ⟨rfl, htail⟩ := List.cons.inj h
      obtain ⟨rfl, hr⟩ := ih (fun c hc => hx c (List.mem_cons_of_mem _ hc))
        (fun c hc => hy c (List.mem_cons_of_mem _ hc)) htail
      exact ⟨rfl, hr⟩

theorem toDigits_inj {m n : Nat} (h : Nat.toDigits 10 m = Nat.toDigits 10 n) : m = n := by
  rw [← Nat.ofDigitChars_ten_toDigits (n := m), h, Nat.ofDigitChars_ten_toDigits]

theorem isDigit_of_mem_digits {n : Nat} {c : Char} (h : c ∈ Nat.toDigits 10 n) :
    c.isDigit = true := Nat.isDigit_of_mem_toDigits (by decide) (by decide) h

/-- The characters of a number. -/
def isDecimalChar (c : Char) : Bool := c.isDigit || c == '-'

theorem isDecimalChar_of_mem {n : Int} {c : Char} (h : c ∈ decimal n) : isDecimalChar c = true := by
  have hdigits : c ∈ Nat.toDigits 10 n.natAbs → isDecimalChar c = true := fun h => by
    rw [isDecimalChar, isDigit_of_mem_digits h, Bool.true_or]
  unfold decimal at h
  split at h
  · rcases List.mem_cons.mp h with rfl | h
    · rfl
    · exact hdigits h
  · exact hdigits h

theorem decimal_inj {m n : Int} (h : decimal m = decimal n) : m = n := by
  have hdash : ∀ (a b : Nat) (r : List Char), '-' :: r ≠ Nat.toDigits 10 b := by
    intro a b r h
    have := isDigit_of_mem_digits (n := b) (h ▸ List.mem_cons_self)
    exact absurd this (by decide)
  unfold decimal at h
  split at h <;> split at h
  · have := toDigits_inj (List.cons.inj h).2
    omega
  · exact absurd h (hdash 0 _ _)
  · exact absurd h.symm (hdash 0 _ _)
  · have := toDigits_inj h
    omega

theorem UnaryOpKind.index_inj {k l : UnaryOpKind} (h : k.index = l.index) : k = l := by
  cases k <;> cases l <;> first | rfl | cases h

theorem BinaryOpKind.index_inj {k l : BinaryOpKind} (h : k.index = l.index) : k = l := by
  revert h
  cases k <;> cases l <;> decide

/-- A number and what follows it. -/
theorem decimal_append_inj {m n : Int} {r r' : List Char} (hr : ∀ c ∈ r.head?, isDecimalChar c = false)
    (hr' : ∀ c ∈ r'.head?, isDecimalChar c = false) (h : decimal m ++ r = decimal n ++ r') :
    m = n ∧ r = r' := by
  obtain ⟨hmn, hrr⟩ := append_inj_of_span (fun _ => isDecimalChar_of_mem)
    (fun _ => isDecimalChar_of_mem) hr hr' h
  exact ⟨decimal_inj hmn, hrr⟩

/-- A name as the lexer reads it. -/
def IsWord (name : String) : Prop := ∀ c ∈ name.toList, isWordChar c = true

theorem IsWord.equals_not_mem {name : String} (h : IsWord name) : '=' ∉ name.toList :=
  fun hmem => absurd (h '=' hmem) (by decide)

/-- A name and what follows it. -/
theorem word_append_inj {m n : String} {r r' : List Char} (hm : IsWord m) (hn : IsWord n)
    (hr : ∀ c ∈ r.head?, isWordChar c = false) (hr' : ∀ c ∈ r'.head?, isWordChar c = false)
    (h : m.toList ++ r = n.toList ++ r') : m = n ∧ r = r' := by
  obtain ⟨hmn, hrr⟩ := append_inj_of_span hm hn hr hr' h
  exact ⟨String.toList_inj.mp hmn, hrr⟩

mutual

/-- The names in an expression. -/
def Expr.names : Expr D → List String
  | .numberLiteral _ _ => []
  | .identifierExpr _ n => [n]
  | .parameterExpr _ n _ => [n]
  | .unaryOp _ _ e => e.names
  | .binaryOp _ _ l r => l.names ++ r.names
  | .conditional _ c t e => c.names ++ t.names ++ e.names
  | .functionCall _ n args _ _ => n :: namesArgs args

/-- `Expr.names` on an argument list. -/
def Expr.namesArgs : List (Expr D) → List String
  | [] => []
  | a :: as => a.names ++ namesArgs as

end

/-- All names are words. -/
def Worded (names : List String) : Prop := ∀ n ∈ names, IsWord n

theorem Worded.left {ms ns : List String} (h : Worded (ms ++ ns)) : Worded ms :=
  fun n hn => h n (List.mem_append_left _ hn)

theorem Worded.right {ms ns : List String} (h : Worded (ms ++ ns)) : Worded ns :=
  fun n hn => h n (List.mem_append_right _ hn)
/-- The text of a literal tells where it ends and which literal it is. -/
def ReadsBack (canonicalDouble : D → List Char) : Prop :=
  ∀ v w (r r' : List Char), canonicalDouble v ++ ')' :: r = canonicalDouble w ++ ')' :: r' →
    v = w ∧ r = r'

/-- Different texts without the closing parenthesis do. -/
theorem ReadsBack.of_injective {canonicalDouble : D → List Char}
    (hinj : Function.Injective canonicalDouble) (hclose : ∀ v, ')' ∉ canonicalDouble v) :
    ReadsBack canonicalDouble := by
  intro v w r r' h
  have hspan : ∀ v, ∀ c ∈ canonicalDouble v, (c != ')') = true := fun v c hc =>
    bne_iff_ne.mpr fun hne => hclose v (hne ▸ hc)
  obtain ⟨hvw, hrr⟩ := append_inj_of_span (hspan v) (hspan w) (by simp) (by simp) h
  exact ⟨hinj hvw, (List.cons.inj hrr).2⟩

/-- The first two characters of the text of an expression. -/
def Expr.opening : Expr D → List Char
  | .numberLiteral _ _ => ['n', '(']
  | .identifierExpr _ _ => ['i', 'd']
  | .parameterExpr _ _ _ => ['p', 'a']
  | .unaryOp _ _ _ => ['u', '(']
  | .binaryOp _ _ _ _ => ['b', '(']
  | .conditional _ _ _ _ => ['i', 'f']
  | .functionCall _ _ _ _ _ => ['f', '(']

/-- They tell the kinds of expressions apart. -/
theorem opening_eq {canonicalDouble : D → List Char} {e e' : Expr D} {r r' : List Char}
    (h : canonicalAppend canonicalDouble e ++ r = canonicalAppend canonicalDouble e' ++ r') :
    e.opening = e'.opening := by
  have htake : ∀ (e : Expr D) (r : List Char),
      (canonicalAppend canonicalDouble e ++ r).take 2 = e.opening := by
    intro e r
    cases e <;> rfl
  rw [← htake e r, h, htake]

theorem head_cons {f : Char → Bool} {c : Char} (hc : f c = false) (r : List Char) :
    ∀ d ∈ (c :: r).head?, f d = false := by
  rintro d ⟨⟩
  exact hc

section Canonical

variable {canonicalDouble : D → List Char} (hread : ReadsBack canonicalDouble)

include hread

/-- **The canonical form can be read back**, up to locations and ids. -/
theorem canonicalAppend_inj (e : Expr D) : ∀ (e' : Expr D) (r r' : List Char), Worded e.names →
    Worded e'.names → canonicalAppend canonicalDouble e ++ r = canonicalAppend canonicalDouble e' ++ r' →
    e.strip = e'.strip ∧ r = r' := by
  induction e using Expr.induct with
  | numberLiteral loc v =>
    intro e' r r' _ _ h
    have hopening := opening_eq h
    cases e' with
    | numberLiteral loc' w =>
      simp only [canonicalAppend, List.cons_append, List.append_assoc, List.cons.injEq, true_and,
        List.nil_append] at h
      obtain ⟨rfl, hrr⟩ := hread v w r r' h
      exact ⟨rfl, hrr⟩
    | _ => simp [Expr.opening] at hopening
  | identifierExpr loc n =>
    intro e' r r' hn hm h
    have hopening := opening_eq h
    cases e' with
    | identifierExpr loc' m =>
      simp only [canonicalAppend, List.cons_append, List.append_assoc, List.cons.injEq, true_and,
        List.nil_append] at h
      obtain ⟨rfl, hrr⟩ := word_append_inj (hn n List.mem_cons_self) (hm m List.mem_cons_self)
        (head_cons rfl _) (head_cons rfl _) h
      exact ⟨rfl, (List.cons.inj hrr).2⟩
    | _ => simp [Expr.opening] at hopening
  | parameterExpr loc n i =>
    intro e' r r' hn hm h
    have hopening := opening_eq h
    cases e' with
    | parameterExpr loc' m j =>
      simp only [canonicalAppend, List.cons_append, List.append_assoc, List.cons.injEq, true_and,
        List.nil_append] at h
      obtain ⟨rfl, hid⟩ := word_append_inj (hn n List.mem_cons_self) (hm m List.mem_cons_self)
        (head_cons rfl _) (head_cons rfl _) h
      obtain ⟨rfl, hrr⟩ := decimal_append_inj (head_cons rfl _) (head_cons rfl _)
        (List.cons.inj hid).2
      exact ⟨rfl, (List.cons.inj hrr).2⟩
    | _ => simp [Expr.opening] at hopening
  | unaryOp loc k e ih =>
    intro e' r r' hn hm h
    have hopening := opening_eq h
    cases e' with
    | unaryOp loc' l e' =>
      simp only [canonicalAppend, List.cons_append, List.append_assoc, List.cons.injEq, true_and,
        List.nil_append] at h
      obtain ⟨hkl, hrr⟩ := decimal_append_inj (head_cons rfl _) (head_cons rfl _) h
      obtain ⟨he, hrr⟩ := ih e' _ _ hn hm (List.cons.inj hrr).2
      refine ⟨?_, (List.cons.inj hrr).2⟩
      rw [Expr.strip, Expr.strip, he, UnaryOpKind.index_inj (Int.ofNat.inj hkl)]
    | _ => simp [Expr.opening] at hopening
  | binaryOp loc k l r ihl ihr =>
    intro e' t t' hn hm h
    have hopening := opening_eq h
    cases e' with
    | binaryOp loc' k' l' r' =>
      simp only [canonicalAppend, List.cons_append, List.append_assoc, List.cons.injEq, true_and,
        List.nil_append] at h
      obtain ⟨hk, hl⟩ := decimal_append_inj (head_cons rfl _) (head_cons rfl _) h
      obtain ⟨hl, hr⟩ := ihl l' _ _ hn.left hm.left (List.cons.inj hl).2
      obtain ⟨hr, htt⟩ := ihr r' _ _ hn.right hm.right (List.cons.inj hr).2
      refine ⟨?_, (List.cons.inj htt).2⟩
      rw [Expr.strip, Expr.strip, hl, hr, BinaryOpKind.index_inj (Int.ofNat.inj hk)]
    | _ => simp [Expr.opening] at hopening
  | conditional loc c t e ihc iht ihe =>
    intro e' r r' hn hm h
    have hopening := opening_eq h
    cases e' with
    | conditional loc' c' t' e' =>
      simp only [canonicalAppend, List.cons_append, List.append_assoc, List.cons.injEq, true_and,
        List.nil_append] at h
      obtain ⟨hc, ht⟩ := ihc c' _ _ hn.left.left hm.left.left h
      obtain ⟨ht, he⟩ := iht t' _ _ hn.left.right hm.left.right (List.cons.inj ht).2
      obtain ⟨he, hrr⟩ := ihe e' _ _ hn.right hm.right (List.cons.inj he).2
      refine ⟨?_, (List.cons.inj hrr).2⟩
      rw [Expr.strip, Expr.strip, hc, ht, he]
    | _ => simp [Expr.opening] at hopening
  | functionCall loc n args nid sid ih =>
    intro e' r r' hn hm h
    have hopening := opening_eq h
    cases e' with
    | functionCall loc' m args' nid' sid' =>
      have hargs : ∀ (as : List (Expr D)), (∀ a ∈ as, a ∈ args) → ∀ (bs : List (Expr D))
          (r r' : List Char), Worded (Expr.namesArgs as) → Worded (Expr.namesArgs bs) →
          as.length = bs.length → canonicalArgs canonicalDouble as ++ r =
            canonicalArgs canonicalDouble bs ++ r' → as.map Expr.strip = bs.map Expr.strip ∧ r = r' := by
        intro as
        induction as with
        | nil =>
          intro _ bs r r' _ _ hlen h
          obtain rfl := List.length_eq_zero_iff.mp hlen.symm
          exact ⟨rfl, h⟩
        | cons a as iha =>
          intro hmem bs r r' hn hm hlen h
          cases bs with
          | nil => cases hlen
          | cons b bs =>
            simp only [canonicalArgs, List.cons_append, List.append_assoc, List.cons.injEq,
              true_and] at h
            obtain ⟨hab, hrest⟩ := ih a (hmem a List.mem_cons_self) b _ _ hn.left hm.left h
            obtain ⟨hasbs, hrr⟩ := iha (fun c hc => hmem c (List.mem_cons_of_mem _ hc)) bs r r'
              hn.right hm.right (Nat.succ.inj hlen) hrest
            exact ⟨by rw [List.map_cons, List.map_cons, hab, hasbs], hrr⟩
      simp only [canonicalAppend, List.cons_append, List.append_assoc, List.cons.injEq, true_and,
        List.nil_append] at h
      obtain ⟨rfl, hcount⟩ := word_append_inj (hn n List.mem_cons_self) (hm m List.mem_cons_self)
        (head_cons rfl _) (head_cons rfl _) h
      -- after the count comes an argument or the end of the call
      have hhead : ∀ (as : List (Expr D)) (r : List Char), ∀ c ∈ (canonicalArgs canonicalDouble as ++
          ')' :: r).head?, isDecimalChar c = false := by
        intro as r
        cases as <;> simp [canonicalArgs, isDecimalChar]
      obtain ⟨hlen, hrest⟩ := decimal_append_inj (hhead _ _) (hhead _ _) (List.cons.inj hcount).2
      obtain ⟨hstrips, hrr⟩ := hargs args (fun _ h => h) args' _ _
        (fun x hx => hn x (List.mem_cons_of_mem _ hx)) (fun x hx => hm x (List.mem_cons_of_mem _ hx))
        (Int.ofNat.inj hlen) hrest
      refine ⟨?_, (List.cons.inj hrr).2⟩
      rw [Expr.strip, Expr.strip, Expr.stripArgs_eq_map, Expr.stripArgs_eq_map, hstrips]
    | _ => simp [Expr.opening] at hopening

/-- The bodies of two programs agree up to locations and ids. -/
def SameBodies (signals signals' : List (SignalDef D)) : Prop :=
  List.Forall₂ (fun s s' => s.name = s'.name ∧ s.body.strip = s'.body.strip) signals signals'

theorem signalKeys_inj {signals signals' : List (SignalDef D)}
    (hw : ∀ s ∈ signals, '=' ∉ s.name.toList ∧ Worded s.body.names)
    (hw' : ∀ s ∈ signals', '=' ∉ s.name.toList ∧ Worded s.body.names)
    (h : signalKeys canonicalDouble signals = signalKeys canonicalDouble signals') :
    SameBodies signals signals' := by
  induction signals generalizing signals' with
  | nil =>
    cases signals' with
    | nil => exact .nil
    | cons s' rest' => simp [signalKeys_nil, signalKeys_cons] at h
  | cons s rest ih =>
    cases signals' with
    | nil => simp [signalKeys_nil, signalKeys_cons] at h
    | cons s' rest' =>
      have hs := hw s List.mem_cons_self
      have hs' := hw' s' List.mem_cons_self
      rw [signalKeys_cons, signalKeys_cons] at h
      simp only [List.append_assoc, List.append_cancel_left_eq] at h
      have hspan : ∀ n : String, '=' ∉ n.toList → ∀ c ∈ n.toList, (c != '=') = true :=
        fun n hn c hc => bne_iff_ne.mpr fun hne => hn (hne ▸ hc)
      obtain ⟨hname, hbody⟩ := append_inj_of_span (hspan _ hs.1) (hspan _ hs'.1) (by simp) (by simp) h
      obtain ⟨hstrip, hrest⟩ := canonicalAppend_inj hread s.body s'.body _ _ hs.2 hs'.2
        (List.cons.inj hbody).2
      exact .cons ⟨String.toList_inj.mp hname, hstrip⟩ (ih (fun t ht => hw t (List.mem_cons_of_mem _ ht))
        (fun t ht => hw' t (List.mem_cons_of_mem _ ht)) hrest)
end Canonical

/-! ## The text and equality -/

/-- What `strip` resets is not in the text. -/
theorem canonicalAppend_strip (canonicalDouble : D → List Char) (e : Expr D) :
    canonicalAppend canonicalDouble e.strip = canonicalAppend canonicalDouble e := by
  induction e using Expr.induct with
  | numberLiteral | identifierExpr | parameterExpr => rfl
  | unaryOp loc k e ih => rw [Expr.strip, canonicalAppend, canonicalAppend, ih]
  | binaryOp loc k l r ihl ihr => rw [Expr.strip, canonicalAppend, canonicalAppend, ihl, ihr]
  | conditional loc c t e ihc iht ihe =>
    rw [Expr.strip, canonicalAppend, canonicalAppend, ihc, iht, ihe]
  | functionCall loc n args nid sid ih =>
    have hargs : ∀ as : List (Expr D), (∀ a ∈ as, canonicalAppend canonicalDouble a.strip =
        canonicalAppend canonicalDouble a) → canonicalArgs canonicalDouble (as.map Expr.strip) =
          canonicalArgs canonicalDouble as := by
      intro as
      induction as with
      | nil => intro _; rfl
      | cons a as iha =>
        intro h
        rw [List.map_cons, canonicalArgs, canonicalArgs, h a List.mem_cons_self,
          iha fun b hb => h b (List.mem_cons_of_mem _ hb)]
    rw [Expr.strip, Expr.stripArgs_eq_map, canonicalAppend, canonicalAppend, List.length_map,
      hargs args ih]

section Equality

variable [DecidableEq D] {canonicalDouble : D → List Char} (hread : ReadsBack canonicalDouble)

include hread

/-- **Equal text is equal trees.** -/
theorem canonicalAppend_eq_iff {a b : Expr D} (ha : Worded a.names) (hb : Worded b.names) :
    canonicalAppend canonicalDouble a = canonicalAppend canonicalDouble b ↔ astEquals a b = true := by
  rw [astEquals_iff]
  constructor
  · intro h
    exact (canonicalAppend_inj hread a b [] [] ha hb (by rw [h])).1
  · intro h
    rw [← canonicalAppend_strip, h, canonicalAppend_strip]

/-- The same for the signals of a program. -/
theorem signalKeys_eq_iff {signals signals' : List (SignalDef D)}
    (hw : ∀ s ∈ signals, '=' ∉ s.name.toList ∧ Worded s.body.names)
    (hw' : ∀ s ∈ signals', '=' ∉ s.name.toList ∧ Worded s.body.names) :
    signalKeys canonicalDouble signals = signalKeys canonicalDouble signals' ↔
      List.Forall₂ (fun s s' => s.name = s'.name ∧ astEquals s.body s'.body = true) signals
        signals' := by
  constructor
  · intro h
    exact (signalKeys_inj hread hw hw' h).imp fun _ _ h => ⟨h.1, (astEquals_iff _ _).mpr h.2⟩
  · intro h
    clear hw hw'
    induction h with
    | nil => rfl
    | @cons s s' _ _ hs _ ih =>
      have hbody : canonicalAppend canonicalDouble s.body = canonicalAppend canonicalDouble s'.body := by
        rw [← canonicalAppend_strip, (astEquals_iff _ _).mp hs.2, canonicalAppend_strip]
      rw [signalKeys_cons, signalKeys_cons, hs.1, hbody, ih]

end Equality

/-- `AstEquals` is an equivalence. -/
theorem astEquals_equivalence [DecidableEq D] :
    Equivalence fun a b : Expr D => astEquals a b = true where
  refl a := (astEquals_iff a a).mpr rfl
  symm h := (astEquals_iff _ _).mpr ((astEquals_iff _ _).mp h).symm
  trans h h' := (astEquals_iff _ _).mpr (((astEquals_iff _ _).mp h).trans ((astEquals_iff _ _).mp h'))

/-! ## The literals -/

/-- The characters of a number in any base are digits of that base. -/
theorem exists_digitChar_of_mem {b n : Nat} (hb : 1 < b) {c : Char} (h : c ∈ Nat.toDigits b n) :
    ∃ d < b, c = d.digitChar := by
  induction n using Nat.strong_induction_on with
  | _ n ih =>
    rw [Nat.toDigits_eq_if hb] at h
    split at h
    · exact ⟨n, ‹_›, List.mem_singleton.mp h⟩
    · rcases List.mem_append.mp h with h | h
      · exact ih _ (Nat.div_lt_self (by omega) hb) h
      · exact ⟨n % b, Nat.mod_lt _ (by omega), List.mem_singleton.mp h⟩

/-- The last digit apart. -/
theorem toDigits_eq_append {b : Nat} (hb : 1 < b) (n : Nat) :
    Nat.toDigits b n = (if n < b then [] else Nat.toDigits b (n / b)) ++ [(n % b).digitChar] := by
  rw [Nat.toDigits_eq_if hb]
  split
  · rw [Nat.mod_eq_of_lt ‹_›, List.nil_append]
  · rfl

/-- `%llx` tells the number. -/
theorem toDigits_hex_inj {m n : Nat} (h : Nat.toDigits 16 m = Nat.toDigits 16 n) : m = n := by
  have hdigit : ∀ d < 16, ∀ e < 16, Nat.digitChar d = Nat.digitChar e → d = e := by decide
  induction m using Nat.strong_induction_on generalizing n with
  | _ m ih =>
    rw [toDigits_eq_append (by decide), toDigits_eq_append (by decide) n] at h
    obtain ⟨hinit, hlast⟩ := List.append_inj' h rfl
    have hmod := hdigit _ (Nat.mod_lt m (by decide)) _ (Nat.mod_lt n (by decide))
      (List.singleton_inj.mp hlast)
    have hdiv : m / 16 = n / 16 := by
      split at hinit <;> split at hinit
      · omega
      · exact absurd hinit.symm Nat.toDigits_ne_nil
      · exact absurd hinit Nat.toDigits_ne_nil
      · exact ih _ (by omega) hinit
    omega

section Bits

variable (printG17 : BitVec 64 → List Char)

/-- `CanonicalDouble`: what `snprintf` leaves of `%.17g[%llx]` in 64 bytes -/
def canonicalDouble (bits : BitVec 64) : List Char :=
  (printG17 bits ++ '[' :: Nat.toDigits 16 bits.toNat ++ [']']).take 63

/-- `AstCanonicalString` -/
def astCanonicalString (expr : Expr (BitVec 64)) : List Char :=
  canonicalAppend (canonicalDouble printG17) expr

variable {printG17}

/-- The buffer is large enough. -/
theorem canonicalDouble_eq (hwidth : ∀ v, (printG17 v).length ≤ 24) (v : BitVec 64) :
    canonicalDouble printG17 v = printG17 v ++ '[' :: Nat.toDigits 16 v.toNat ++ [']'] := by
  have hhex : (Nat.toDigits 16 v.toNat).length ≤ 16 :=
    (Nat.length_toDigits_le_iff (by decide) (by decide)).mpr v.isLt
  rw [canonicalDouble, List.take_of_length_le]
  have := hwidth v
  simp only [List.length_append, List.length_cons, List.length_nil]
  omega

/-- The bits behind the bracket tell the literal. -/
theorem canonicalDouble_readsBack (hbracket : ∀ v, '[' ∉ printG17 v)
    (hwidth : ∀ v, (printG17 v).length ≤ 24) : ReadsBack (canonicalDouble printG17) := by
  intro v w r r' h
  rw [canonicalDouble_eq hwidth, canonicalDouble_eq hwidth] at h
  simp only [List.append_assoc, List.cons_append, List.nil_append] at h
  have hspan : ∀ v, ∀ c ∈ printG17 v, (c != '[') = true := fun v c hc =>
    bne_iff_ne.mpr fun hne => hbracket v (hne ▸ hc)
  have hhex : ∀ n, ∀ c ∈ Nat.toDigits 16 n, (c != ']') = true := by
    intro n c hc
    obtain ⟨d, hd, rfl⟩ := exists_digitChar_of_mem (by decide) hc
    exact (show ∀ d < 16, (Nat.digitChar d != ']') = true by decide) d hd
  obtain ⟨_, hbits⟩ := append_inj_of_span (hspan v) (hspan w) (by simp) (by simp) h
  obtain ⟨hvw, hrr⟩ := append_inj_of_span (hhex _) (hhex _) (by simp) (by simp)
    (List.cons.inj hbits).2
  exact ⟨BitVec.eq_of_toNat_eq (toDigits_hex_inj hvw), by simpa using hrr⟩

/-- **The canonical string identifies the tree.** -/
theorem canonicalString_identifies (hbracket : ∀ v, '[' ∉ printG17 v)
    (hwidth : ∀ v, (printG17 v).length ≤ 24) :
    (∀ a b : Expr (BitVec 64), Worded a.names → Worded b.names →
      (astCanonicalString printG17 a = astCanonicalString printG17 b ↔ astEquals a b = true)) ∧
    (Equivalence fun a b : Expr (BitVec 64) => astEquals a b = true) ∧
    ∀ signals signals' : List (SignalDef (BitVec 64)),
      (∀ s ∈ signals, '=' ∉ s.name.toList ∧ Worded s.body.names) →
      (∀ s ∈ signals', '=' ∉ s.name.toList ∧ Worded s.body.names) →
      (signalKeys (canonicalDouble printG17) signals =
          signalKeys (canonicalDouble printG17) signals' ↔
        List.Forall₂ (fun s s' => s.name = s'.name ∧ astEquals s.body s'.body = true) signals
          signals') := by
  have hread := canonicalDouble_readsBack hbracket hwidth
  refine ⟨fun a b => canonicalAppend_eq_iff hread, astEquals_equivalence, ?_⟩
  exact fun signals signals' => signalKeys_eq_iff hread

end Bits

/-- `%.17g` on the numbers of the next example. -/
def printSmall (v : BitVec 64) : List Char :=
  if v = 0x3FF0000000000000#64 then ['1'] else if v = 0x8000000000000000#64 then ['-', '0'] else ['0']

/-- Positive and negative zero are different literals, the name of a ticker and its place are not. -/
theorem canonicalString_identifies_zeros :
    let sum := fun (loc : SourceLoc) (v : BitVec 64) => Expr.binaryOp loc .add
      (.functionCall loc "mid" [.identifierExpr loc "AAPL"] (-1) (-1)) (.numberLiteral loc v)
    astCanonicalString printSmall (sum { line := 3 } 0) = astCanonicalString printSmall (sum {} 0) ∧
      astCanonicalString printSmall (sum {} 0) ≠
        astCanonicalString printSmall (sum {} 0x8000000000000000#64) := by
  have hprint : ∀ v, printSmall v ∈ [['1'], ['-', '0'], ['0']] := by
    intro v
    unfold printSmall
    split_ifs <;> simp
  have hbracket : ∀ v, '[' ∉ printSmall v := fun v =>
    (show ∀ t ∈ [['1'], ['-', '0'], ['0']], '[' ∉ t by decide) _ (hprint v)
  have hwidth : ∀ v, (printSmall v).length ≤ 24 := fun v =>
    (show ∀ t ∈ [['1'], ['-', '0'], ['0']], t.length ≤ 24 by decide) _ (hprint v)
  have h := canonicalString_identifies hbracket hwidth
  refine ⟨(h.1 _ _ ?_ ?_).mpr (by decide), fun he => absurd ((h.1 _ _ ?_ ?_).mp he) (by decide)⟩
  all_goals simp [Worded, IsWord, Expr.names, Expr.namesArgs]; decide

end JitSignalEngine
