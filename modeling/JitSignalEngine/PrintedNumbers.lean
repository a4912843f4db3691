import JitSignalEngine.Binary64
import JitSignalEngine.Formatter
import Mathlib.Data.List.DropRight

/-!
# Printed numbers

`FormatNumber` prints a `double`, and the lexer reads the text again.

* `toDecimal17`, `printG17` — `%.17g`: seventeen significant digits, in fixed notation for the
  decimal exponents from `-4` to `16` and with an exponent otherwise, trailing zeros removed.
* `abs_toDecimal17_sub_le` — the digits are that near to the number, hence (`round_near`) read back
  to it.
* `lexes_printFixed`, `lexes_printScientific` — fixed notation is one number for the lexer, the
  text with an exponent is four tokens.
* `lexesBack_iff` — the numbers that read back.
-/

namespace JitSignalEngine

open Fp

/-! ## `%.17g` -/

/-- Seventeen significant digits as an integer, and the decimal exponent of the first. -/
def toDecimal17 (q : ℚ) : ℕ × ℤ :=
  let x := Int.log 10 q
  let digits := roundHalfEven (q / 10 ^ (x - 16))
  if digits = 10 ^ 17 then (10 ^ 16, x + 1) else (digits, x)

/-- Trailing zeros of a fraction are removed, and the point if nothing is left behind it. -/
def withFraction (whole fraction : List Char) : List Char :=
  let kept := fraction.rdropWhile (· == '0')
  if kept = [] then whole else whole ++ '.' :: kept

/-- Style `f` with seventeen significant digits. -/
def printFixed (digits : ℕ) (x : ℤ) : List Char :=
  let text := Nat.toDigits 10 digits
  if 0 ≤ x then withFraction (text.take (x.toNat + 1)) (text.drop (x.toNat + 1))
  else withFraction ['0'] (List.replicate (-x - 1).toNat '0' ++ text)

/-- Style `e` with seventeen significant digits; the exponent has at least two. -/
def printScientific (digits : ℕ) (x : ℤ) : List Char :=
  let text := Nat.toDigits 10 digits
  withFraction (text.take 1) (text.drop 1) ++ 'e' :: (if x < 0 then '-' else '+') ::
    ((if x.natAbs < 10 then ['0'] else []) ++ Nat.toDigits 10 x.natAbs)

/-- The text of a magnitude. -/
def printMagnitude (q : ℚ) : List Char :=
  if q = 0 then ['0']
  else
    let (digits, x) := toDecimal17 q
    if -4 ≤ x ∧ x < 17 then printFixed digits x else printScientific digits x

/-- `%.17g` -/
def printG17 : Binary64 → String
  | .nan => "nan"
  | .inf negative => if negative then "-inf" else "inf"
  | .finite v =>
    String.ofList (if v.negative then '-' :: printMagnitude v.magnitude else printMagnitude v.magnitude)

/-! ## The digits -/

section Digits

variable {q : ℚ}

/-- The digits before a carry: at most one more than there are places for, and the unit of the
last one is as near as rounding brings it. -/
theorem roundHalfEven_decade (hq : 0 < q) {n : ℕ}
    (hn : roundHalfEven (q / 10 ^ (Int.log 10 q - 16)) = n) :
    10 ^ 16 ≤ n ∧ n ≤ 10 ^ 17 ∧
      |(n : ℚ) * 10 ^ (Int.log 10 q - 16) - q| ≤ 10 ^ (Int.log 10 q - 16) / 2 := by
  have hunit : (0 : ℚ) < 10 ^ (Int.log 10 q - 16) := zpow_pos (by norm_num) _
  have hscale : ∀ k : ℤ, (10 : ℚ) ^ k * 10 ^ (Int.log 10 q - 16) = 10 ^ (Int.log 10 q + (k - 16)) :=
    fun k => by rw [← zpow_add₀ (by norm_num)]; congr 1; omega
  have hquot : 0 ≤ q / 10 ^ (Int.log 10 q - 16) := (div_pos hq hunit).le
  have hlow : (10 : ℚ) ^ Int.log 10 q ≤ q := Int.zpow_log_le_self (by decide) hq
  have hhigh : q < (10 : ℚ) ^ (Int.log 10 q + 1) := Int.lt_zpow_succ_log_self (by decide) q
  subst hn
  refine ⟨le_roundHalfEven ?_, roundHalfEven_le hquot ?_, ?_⟩
  · rw [Nat.cast_pow, Nat.cast_ofNat, le_div_iff₀ hunit, ← zpow_natCast, hscale]
    simpa using hlow
  · rw [Nat.cast_pow, Nat.cast_ofNat, div_le_iff₀ hunit, ← zpow_natCast, hscale]
    exact hhigh.le
  · have hround := abs_roundHalfEven_sub_le hquot
    have hunits : (roundHalfEven (q / 10 ^ (Int.log 10 q - 16)) : ℚ) * 10 ^ (Int.log 10 q - 16) - q =
        (roundHalfEven (q / 10 ^ (Int.log 10 q - 16)) - q / 10 ^ (Int.log 10 q - 16)) *
          10 ^ (Int.log 10 q - 16) := by
      rw [sub_mul, div_mul_cancel₀ _ hunit.ne']
    rw [hunits, abs_mul, abs_of_pos hunit]
    linarith [mul_le_mul_of_nonneg_right hround hunit.le]

/-- **What is known of the digits.** They fill seventeen places and are near to the number; the
exponent is that of the number, unless the number is that near to the next power of ten. -/
theorem toDecimal17_spec (hq : 0 < q) {n : ℕ} {x : ℤ} (h : toDecimal17 q = (n, x)) :
    10 ^ 16 ≤ n ∧ n < 10 ^ 17 ∧ |(n : ℚ) * 10 ^ (x - 16) - q| < q / 2 ^ 54 ∧
      (x = Int.log 10 q ∨ x = Int.log 10 q + 1 ∧ (10 : ℚ) ^ x - q ≤ 10 ^ (x - 17) / 2) := by
  have hlow : (10 : ℚ) ^ Int.log 10 q ≤ q := Int.zpow_log_le_self (by decide) hq
  have hnear : (10 : ℚ) ^ (Int.log 10 q - 16) / 2 < q / 2 ^ 54 := by
    have hpow : (0 : ℚ) < 10 ^ Int.log 10 q := zpow_pos (by norm_num) _
    rw [zpow_sub₀ (by norm_num)]
    norm_num
    linarith
  obtain ⟨hle, hge, herr⟩ := roundHalfEven_decade hq rfl
  rw [toDecimal17] at h
  split at h
  · -- the carry
    rename_i hcarry
    obtain ⟨rfl, rfl⟩ := Prod.mk.inj h
    have hten : ((10 ^ 16 : ℕ) : ℚ) * 10 ^ (Int.log 10 q + 1 - 16) =
        (10 ^ 17 : ℕ) * 10 ^ (Int.log 10 q - 16) := by
      rw [show Int.log 10 q + 1 - 16 = 1 + (Int.log 10 q - 16) by ring, zpow_one_add₀ (by norm_num),
        ← mul_assoc]
      norm_num
    have hnext : (10 : ℚ) ^ (Int.log 10 q + 1) = (10 ^ 17 : ℕ) * 10 ^ (Int.log 10 q - 16) := by
      rw [Nat.cast_pow, Nat.cast_ofNat, ← zpow_natCast, ← zpow_add₀ (by norm_num)]
      congr 1
      push_cast
      ring
    rw [hcarry] at herr
    refine ⟨le_rfl, by decide, by rw [hten]; exact herr.trans_lt hnear, .inr ⟨rfl, ?_⟩⟩
    rw [hnext, show Int.log 10 q + 1 - 17 = Int.log 10 q - 16 by ring]
    exact (abs_le.mp herr).2
  · rename_i hcarry
    obtain ⟨rfl, rfl⟩ := Prod.mk.inj h
    exact ⟨hle, lt_of_le_of_ne hge hcarry, herr.trans_lt hnear, .inl rfl⟩

end Digits

/-! ## Near the bounds of fixed notation -/

/-- The number below `10¹⁷` is sixteen less. -/
theorem not_carry_upper (v : Finite64) (hlt : v.magnitude < 10 ^ 17) :
    1 / 2 < 10 ^ 17 - v.magnitude := by
  by_contra hle
  obtain ⟨j, hj⟩ := Finite64.exists_multiple (v := v) (k := 4) (by norm_num; linarith)
  rw [hj] at hlt hle
  have hbound : j < 6250000000000000 := by
    have : (j : ℚ) < 6250000000000000 := by norm_num at hlt; linarith
    exact_mod_cast this
  have hbound : (j : ℚ) ≤ 6249999999999999 := by exact_mod_cast Nat.le_sub_one_of_lt hbound
  norm_num at hle
  linarith

/-- The number below `10⁻⁴` keeps a distance too. -/
theorem not_carry_lower (v : Finite64) (hlt : v.magnitude < 1 / 10 ^ 4) :
    1 / 10 ^ 21 / 2 < 1 / 10 ^ 4 - v.magnitude := by
  by_contra hle
  obtain ⟨j, hj⟩ := Finite64.exists_multiple (v := v) (k := -66) (by norm_num at hle ⊢; linarith)
  rw [hj] at hlt hle
  have hbound : j < 7378697629483821 := by
    have : (j : ℚ) < 7378697629483821 := by norm_num at hlt; linarith
    exact_mod_cast this
  have hbound : (j : ℚ) ≤ 7378697629483820 := by exact_mod_cast Nat.le_sub_one_of_lt hbound
  norm_num at hle
  linarith

/-- The numbers that `%.17g` prints in fixed notation. -/
theorem toDecimal17_fixed_iff (v : Finite64) (hv : 0 < v.magnitude) {n : ℕ} {x : ℤ}
    (h : toDecimal17 v.magnitude = (n, x)) :
    (-4 ≤ x ∧ x < 17) ↔ 1 / 10 ^ 4 ≤ v.magnitude ∧ v.magnitude < 10 ^ 17 := by
  have hlower : 1 / 10 ^ 4 ≤ v.magnitude ↔ -4 ≤ Int.log 10 v.magnitude := by
    rw [← Int.zpow_le_iff_le_log (by decide) hv]
    norm_num
  have hupper : v.magnitude < 10 ^ 17 ↔ Int.log 10 v.magnitude < 17 := by
    rw [← Int.lt_zpow_iff_log_lt (by decide) hv]
    norm_num
  obtain ⟨-, -, -, rfl | ⟨rfl, hcarry⟩⟩ := toDecimal17_spec hv h
  · rw [hlower, hupper]
  · -- no carry leads into the range or out of it
    have hlow : Int.log 10 v.magnitude ≠ -5 := by
      intro hlog
      have hfar := not_carry_lower v (not_le.mp fun hle => by have := hlower.mp hle; omega)
      rw [hlog] at hcarry
      norm_num at hcarry hfar
      linarith
    have hhigh : Int.log 10 v.magnitude ≠ 16 := by
      intro hlog
      have hfar := not_carry_upper v (hupper.mpr (by omega))
      rw [hlog] at hcarry
      norm_num at hcarry hfar
      linarith
    rw [hlower, hupper]
    omega

/-! ## The lexer on the text -/

section Text

variable {D : Type} [Fp D]

/-- The value of digits with a dot. -/
theorem decimalValue_dotted {whole fraction : List Char} (hwhole : ∀ c ∈ whole, isDigit c = true) :
    decimalValue (whole ++ '.' :: fraction) =
      (digitsValue (whole ++ fraction) : ℚ) / (10 ^ fraction.length : ℕ) := by
  have hdot : ∀ c ∈ whole, (c != '.') = true := by
    intro c hc
    rw [bne_iff_ne]
    rintro rfl
    exact absurd (hwhole _ hc) (by decide)
  rw [decimalValue, List.takeWhile_append_of_pos hdot, List.dropWhile_append_of_pos hdot]
  simp

theorem digitsValue_append_zeros (digits : List Char) (k : ℕ) :
    digitsValue (digits ++ List.replicate k '0') = 10 ^ k * digitsValue digits := by
  have hvalue : ∀ cs, digitsValue cs = Nat.ofDigitChars 10 cs 0 :=
    fun cs => (Nat.ofDigitChars_eq_foldl).symm
  rw [hvalue, hvalue, Nat.ofDigitChars_append, Nat.ofDigitChars_replicate_zero]

theorem digitsValue_zeros_append (k : ℕ) (digits : List Char) :
    digitsValue (List.replicate k '0' ++ digits) = digitsValue digits := by
  have hvalue : ∀ cs, digitsValue cs = Nat.ofDigitChars 10 cs 0 :=
    fun cs => (Nat.ofDigitChars_eq_foldl).symm
  rw [hvalue, hvalue, Nat.ofDigitChars_append, Nat.ofDigitChars_replicate_zero, Nat.mul_zero]

/-- What is removed from a fraction are zeros. -/
theorem exists_zeros (fraction : List Char) :
    ∃ k, fraction = fraction.rdropWhile (· == '0') ++ List.replicate k '0' := by
  refine ⟨(fraction.rtakeWhile (· == '0')).length, ?_⟩
  have hzeros : fraction.rtakeWhile (· == '0') =
      List.replicate (fraction.rtakeWhile (· == '0')).length '0' :=
    List.eq_replicate_iff.mpr ⟨rfl, fun c hc => by simpa using List.mem_rtakeWhile_imp hc⟩
  rw [← hzeros, List.rdropWhile_append_rtakeWhile]

/-- **Digits with a fraction are one number**, with the value they had before the zeros were
removed. -/
theorem lexes_withFraction {whole fraction : List Char} (hne : whole ≠ [])
    (hwhole : ∀ c ∈ whole, isDigit c = true) (hfraction : ∀ c ∈ fraction, isDigit c = true) :
    Lexes endsNumber (withFraction whole fraction) fun us : List (Token D) => ∃ t, us = [t] ∧
      t.kind = .number ∧ t.numberValue =
        ofRat ((digitsValue (whole ++ fraction) : ℚ) / (10 ^ fraction.length : ℕ)) := by
  obtain ⟨k, hk⟩ := exists_zeros fraction
  have hkept : ∀ c ∈ fraction.rdropWhile (· == '0'), isDigit c = true :=
    fun c hc => hfraction c ((List.rdropWhile_prefix _ fraction).subset hc)
  have hvalue : (digitsValue (whole ++ fraction) : ℚ) / (10 ^ fraction.length : ℕ) =
      (digitsValue (whole ++ fraction.rdropWhile (· == '0')) : ℚ) /
        (10 ^ (fraction.rdropWhile (· == '0')).length : ℕ) := by
    conv_lhs => rw [hk, ← List.append_assoc, digitsValue_append_zeros, List.length_append,
      List.length_replicate]
    push_cast
    rw [pow_add, mul_comm ((10 : ℚ) ^ _) ((10 : ℚ) ^ k)]
    exact mul_div_mul_left _ _ (pow_ne_zero _ (by norm_num))
  rw [hvalue, withFraction]
  split
  · rename_i hnone
    refine (Lexes.number hne hwhole).mono ?_
    rintro us ⟨t, rfl, hkind, hnum⟩
    refine ⟨t, rfl, hkind, ?_⟩
    rw [hnum, decimalValue_digits hwhole, hnone, List.append_nil, List.length_nil, pow_zero,
      Nat.cast_one, div_one]
  · refine (Lexes.dotted hne hwhole hkept).mono ?_
    rintro us ⟨t, rfl, hkind, hnum⟩
    exact ⟨t, rfl, hkind, by rw [hnum, decimalValue_dotted hwhole]⟩

variable {n : ℕ} {x : ℤ} (hn : 10 ^ 16 ≤ n ∧ n < 10 ^ 17)

include hn

theorem length_toDigits_seventeen : (Nat.toDigits 10 n).length = 17 := by
  have hle := (Nat.length_toDigits_le_iff (b := 10) (n := n) (k := 17) (by decide) (by decide)).mpr hn.2
  have hge : ¬ (Nat.toDigits 10 n).length ≤ 16 := by
    rw [Nat.length_toDigits_le_iff (by decide) (by decide)]
    exact not_lt.mpr hn.1
  omega

/-- **Fixed notation is one number.** -/
theorem lexes_printFixed (hx : x < 17) :
    Lexes endsNumber (printFixed n x) fun us : List (Token D) => ∃ t, us = [t] ∧
      t.kind = .number ∧ t.numberValue = ofRat ((n : ℚ) * 10 ^ (x - 16)) := by
  have hlength := length_toDigits_seventeen hn
  have hdigit : ∀ c ∈ Nat.toDigits 10 n, isDigit c = true := fun c hc => isDigit_of_mem_toDigits hc
  have hscale : ∀ k : ℕ, x - 16 = -(k : ℤ) → (n : ℚ) / (10 ^ k : ℕ) = n * 10 ^ (x - 16) := by
    intro k hk
    rw [hk, zpow_neg, zpow_natCast, ← div_eq_mul_inv, Nat.cast_pow, Nat.cast_ofNat]
  rw [printFixed]
  split
  · refine (lexes_withFraction ?_ (fun c hc => hdigit c (List.mem_of_mem_take hc))
      fun c hc => hdigit c (List.mem_of_mem_drop hc)).mono ?_
    · intro hnil
      have := congrArg List.length hnil
      rw [List.length_take, List.length_nil] at this
      omega
    · rintro us ⟨t, rfl, hkind, hnum⟩
      refine ⟨t, rfl, hkind, ?_⟩
      rw [hnum, List.take_append_drop, digitsValue_toDigits, hscale]
      rw [List.length_drop]
      omega
  · have hzeros : ∀ c ∈ List.replicate (-x - 1).toNat '0' ++ Nat.toDigits 10 n, isDigit c = true := by
      intro c hc
      rcases List.mem_append.mp hc with hc | hc
      · rw [List.eq_of_mem_replicate hc]
        decide
      · exact hdigit c hc
    refine (lexes_withFraction (List.cons_ne_nil _ _) (by simp [isDigit]) hzeros).mono ?_
    rintro us ⟨t, rfl, hkind, hnum⟩
    refine ⟨t, rfl, hkind, ?_⟩
    have hvalue : digitsValue (['0'] ++ (List.replicate (-x - 1).toNat '0' ++ Nat.toDigits 10 n)) =
        n := by
      rw [← List.append_assoc, show ['0'] ++ List.replicate (-x - 1).toNat '0' =
        List.replicate ((-x - 1).toNat + 1) '0' from rfl, digitsValue_zeros_append,
        digitsValue_toDigits]
    rw [hnum, hvalue, hscale]
    rw [List.length_append, List.length_replicate]
    omega

/-- **With an exponent it is four tokens**: digits, the letter, a sign and digits. -/
theorem lexes_printScientific :
    Lexes endsNumber (printScientific n x) fun us : List (Token D) =>
      us.map Token.kind = [.number, .identifier, if x < 0 then .minus else .plus, .number] := by
  have hlength := length_toDigits_seventeen hn
  have hdigit : ∀ c ∈ Nat.toDigits 10 n, isDigit c = true := fun c hc => isDigit_of_mem_toDigits hc
  have hwhole : (Nat.toDigits 10 n).take 1 ≠ [] := by
    intro hnil
    have := congrArg List.length hnil
    rw [List.length_take, List.length_nil] at this
    omega
  have hdigits := lexes_withFraction (D := D) hwhole
    (fun c hc => hdigit c (List.mem_of_mem_take hc))
    fun c (hc : c ∈ (Nat.toDigits 10 n).drop 1) => hdigit c (List.mem_of_mem_drop hc)
  have hletter : Lexes endsWord ['e'] fun us : List (Token D) => ∃ t, us = [t] ∧
      t.kind = TokenKind.ofWord "e" ∧ t.lexeme = "e" :=
    Lexes.word rfl (List.forall_mem_singleton.mpr rfl)
  have hsign : Lexes anything [if x < 0 then '-' else '+'] fun us : List (Token D) =>
      ∃ t, us = [t] ∧ t.kind = if x < 0 then .minus else .plus := by
    split
    · exact lexes_char .minus "-" rfl rfl rfl rfl fun _ => rfl
    · exact lexes_char .plus "+" rfl rfl rfl rfl fun _ => rfl
  have hexponent : Lexes endsNumber ((if x.natAbs < 10 then ['0'] else []) ++
      Nat.toDigits 10 x.natAbs) fun us : List (Token D) => ∃ t, us = [t] ∧ t.kind = .number ∧
        t.numberValue = ofRat (decimalValue ((if x.natAbs < 10 then ['0'] else []) ++
          Nat.toDigits 10 x.natAbs)) := by
    refine Lexes.number (fun hnil => Nat.toDigits_ne_nil (List.append_eq_nil_iff.mp hnil).2) ?_
    intro c hc
    rcases List.mem_append.mp hc with hc | hc
    · split at hc
      · rw [List.mem_singleton.mp hc]
        decide
      · cases hc
    · exact isDigit_of_mem_toDigits hc
  -- a sign ends the word, the letter ends the digits
  have htail := hletter.append (hsign.append hexponent fun _ _ => trivial) fun rest _ c hc => by
    obtain rfl : (if x < 0 then '-' else '+') = c := by simpa using hc
    split <;> decide
  refine (hdigits.append htail fun rest _ c hc => ?_).mono ?_
  · obtain rfl : 'e' = c := by simpa using hc
    decide
  · rintro us ⟨vs, ws, rfl, ⟨t, rfl, ht, -⟩, vs', ws', rfl, ⟨t', rfl, ht', -⟩, vs'', ws'', rfl,
      ⟨t'', rfl, ht''⟩, t₃, rfl, ht₃, -⟩
    have hword : TokenKind.ofWord (String.ofList ['e']) = .identifier := by decide
    simp [ht, ht', ht'', ht₃, hword]

end Text

/-! ## What `FormatNumber` prints -/

/-- The text of an integer. -/
theorem toList_toString_int (negative : Bool) {m : ℕ} (hm : m ≠ 0) :
    (toString (if negative then -(m : ℤ) else (m : ℤ))).toList =
      (if negative then ['-'] else []) ++ Nat.toDigits 10 m := by
  obtain ⟨k, rfl⟩ := Nat.exists_eq_succ_of_ne_zero hm
  cases negative
  · exact Nat.toList_repr
  · change ("-" ++ Nat.repr (k + 1)).toList = '-' :: Nat.toDigits 10 (k + 1)
    rw [String.toList_append, Nat.toList_repr]
    rfl

section Printed

variable [Libm Binary64] (v : Finite64)

/-- The test for integers sees the value. -/
theorem eq_trunc : Fp.eq (ofInt (Fp.toInt (Binary64.finite v)) : Binary64) (.finite v) =
    decide ((⌊v.magnitude⌋₊ : ℚ) = v.magnitude) := by
  obtain ⟨k, hk⟩ : ∃ k : ℤ, Fp.toInt (Binary64.finite v) = k := ⟨_, rfl⟩
  have hint : k = if v.negative then -(⌊v.magnitude⌋₊ : ℤ) else ⌊v.magnitude⌋₊ := hk.symm
  have habs : |(k : ℚ)| = ⌊v.magnitude⌋₊ := by
    rw [hint]
    split <;> simp
  rw [hk, ofInt, Binary64.ofRat_eq_round, habs]
  by_cases hfloor : (⌊v.magnitude⌋₊ : ℚ) = v.magnitude
  · rw [decide_eq_true hfloor, hfloor, round_magnitude, Binary64.eq_finite, decide_eq_true_iff]
    rcases v.magnitude_nonneg.eq_or_lt with hzero | hpos
    · rw [(Finite64.value_eq_zero_iff _).mpr hzero.symm, Finite64.value_eq_zero_iff]
      exact hzero.symm
    · have hpos : 0 < (⌊v.magnitude⌋₊ : ℚ) := hfloor ▸ hpos
      have hsign : decide ((k : ℚ) < 0) = v.negative := by
        rw [hint]
        cases v.negative
        · simp
        · simpa using hpos
      rw [hsign, Finite64.withSign_negative]
  · -- a value with a fraction is small, and its integral part is a number of the format
    have hsmall : v.magnitude < 2 ^ 52 := by
      by_contra hlarge
      obtain ⟨j, hj⟩ := Finite64.exists_multiple (v := v) (k := 0) (by
        norm_num at hlarge ⊢
        exact hlarge)
      rw [zpow_zero, mul_one] at hj
      exact hfloor (by rw [hj, Nat.floor_natCast])
    have hfloorLt : ⌊v.magnitude⌋₊ < 2 ^ 53 := by
      rw [Nat.floor_lt v.magnitude_nonneg]
      norm_num at hsmall ⊢
      linarith
    obtain ⟨w, hw⟩ := exists_magnitude_eq hfloorLt
    rw [decide_eq_false hfloor, ← hw, round_magnitude, Binary64.eq_finite, decide_eq_false_iff_not]
    intro hvalue
    have := congrArg abs hvalue
    rw [Finite64.abs_value, Finite64.abs_value, Finite64.magnitude_withSign, hw] at this
    exact hfloor this

/-- **The text of a number.** -/
theorem formatNumber_finite : (formatNumber printG17 (.finite v)).toList =
    if v.magnitude = 0 then ['0']
    else (if v.negative then ['-'] else []) ++
      if (⌊v.magnitude⌋₊ : ℚ) = v.magnitude ∧ v.magnitude < 10 ^ 15 then
        Nat.toDigits 10 ⌊v.magnitude⌋₊
      else printMagnitude v.magnitude := by
  have hinf : Fp.isinf (Binary64.finite v) = false := by
    rw [Fp.isinf, Binary64.sub_self_finite, Binary64.isnan_finite, Binary64.isnan_finite,
      Bool.and_false]
  have hzero : Fp.eq (Binary64.finite v) (ofNat 0) = decide (v.magnitude = 0) := by
    rw [Binary64.ofNat_zero, Binary64.eq_finite, decide_eq_decide,
      (Finite64.value_eq_zero_iff (.zero false)).mpr (Finite64.magnitude_zero _),
      Finite64.value_eq_zero_iff]
  have hbound : Fp.lt (Fp.fabs (Binary64.finite v)) (ofNat (10 ^ 15)) =
      decide (v.magnitude < 10 ^ 15) := by
    obtain ⟨w, hw⟩ := exists_magnitude_eq (n := 10 ^ 15) (by decide)
    rw [Binary64.ofNat_eq hw, Binary64.fabs_finite, Binary64.lt_finite, decide_eq_decide]
    change v.magnitude < w.magnitude ↔ _
    rw [hw, Nat.cast_pow, Nat.cast_ofNat]
  rw [formatNumber, if_neg (by rw [Binary64.isnan_finite]; decide), if_neg (by rw [hinf]; decide),
    hzero, eq_trunc, hbound]
  by_cases h0 : v.magnitude = 0
  · rw [decide_eq_true h0, if_pos rfl, if_pos h0]
    decide
  · rw [if_neg (by simpa using h0), if_neg h0]
    by_cases hint : (⌊v.magnitude⌋₊ : ℚ) = v.magnitude ∧ v.magnitude < 10 ^ 15
    · have hfloor : ⌊v.magnitude⌋₊ ≠ 0 := by
        intro hzero
        rw [hzero, Nat.cast_zero] at hint
        exact h0 hint.1.symm
      rw [if_pos (by simpa using hint), if_pos hint]
      exact toList_toString_int v.negative hfloor
    · rw [if_neg (by simpa using hint), if_neg hint]
      cases hs : v.negative <;> simp [printG17, hs]

end Printed

/-! ## The numbers that read back -/

section ReadBack

variable [Libm Binary64]

/-- The text of a number becomes, before the end, a minus sign if the number is negative, and one
number that is its absolute value. -/
def LexesBack (v : Finite64) : Prop :=
  ∃ sign num eof, tokenize (formatNumber printG17 (.finite v)).toList = .ok (sign ++ [num, eof]) ∧
    sign.map Token.kind = (if v.value < 0 then [.minus] else []) ∧ num.kind = .number ∧
      num.numberValue = Fp.fabs (Binary64.finite v) ∧ eof.kind = .endOfFile

variable {v : Finite64}

omit [Libm Binary64] in
theorem value_neg_iff (hv : 0 < v.magnitude) : v.value < 0 ↔ v.negative = true := by
  rw [Finite64.value]
  cases v.negative
  · simpa using hv.le
  · simpa using hv

/-- The sign and a text behind it become tokens. -/
theorem tokenize_signed {body : List Char} {R : List (Token Binary64) → Prop}
    (hbody : Lexes endsNumber body R) :
    ∃ sign us eof, tokenize ((if v.negative then ['-'] else []) ++ body) = .ok (sign ++ us ++ [eof]) ∧
      sign.map Token.kind = (if v.negative then [.minus] else []) ∧ R us ∧
        (eof : Token Binary64).kind = .endOfFile := by
  have hsign : Lexes anything (if v.negative then ['-'] else []) fun us : List (Token Binary64) =>
      us.map Token.kind = if v.negative then [.minus] else [] := by
    cases v.negative
    · exact Lexes.nil.mono fun us hus => by rw [hus]; rfl
    · refine (lexes_char .minus "-" rfl rfl rfl rfl fun _ => rfl).mono ?_
      rintro us ⟨t, rfl, ht⟩
      rw [List.map_singleton, ht]
      rfl
  let eof : Token Binary64 := ⟨.endOfFile, "", ofNat 0,
    ⟨0, 0 + ((if v.negative then ['-'] else []) ++ body).length + 1, 0⟩⟩
  obtain ⟨us, hus, sign, ws, rfl, hkinds, hR⟩ := hsign.append hbody (fun _ _ => trivial) 0 [] [eof]
    (fun _ h => by cases h) (tokenizes_nil _)
  refine ⟨sign, ws, eof, ?_, hkinds, hR, rfl⟩
  rw [List.append_nil] at hus
  exact hus _ (Nat.lt_succ_self _)

/-- One number behind the sign is what has to be read. -/
theorem lexesBack_of_lexes {body : List Char} (hv : 0 < v.magnitude)
    (htext : (formatNumber printG17 (Binary64.finite v)).toList =
      (if v.negative then ['-'] else []) ++ body)
    (hbody : Lexes endsNumber body fun us : List (Token Binary64) => ∃ t, us = [t] ∧
      t.kind = .number ∧ t.numberValue = Fp.fabs (Binary64.finite v)) : LexesBack v := by
  obtain ⟨sign, us, eof, htokens, hkinds, ⟨t, rfl, hkind, hvalue⟩, heof⟩ := tokenize_signed hbody
  refine ⟨sign, t, eof, ?_, ?_, hkind, hvalue, heof⟩
  · rw [htext, htokens, List.append_assoc]
    rfl
  · simp only [hkinds, value_neg_iff hv]

/-- Four tokens are too many. -/
theorem not_lexesBack_of_lexes {body : List Char}
    (htext : (formatNumber printG17 (Binary64.finite v)).toList =
      (if v.negative then ['-'] else []) ++ body) {kinds : List TokenKind}
    (hbody : Lexes endsNumber body fun us : List (Token Binary64) => us.map Token.kind = kinds)
    (hfour : kinds.length = 4) : ¬ LexesBack v := by
  rintro ⟨sign, num, eof, htokens, hkinds, -, -, -⟩
  obtain ⟨sign', us, eof', htokens', hkinds', hus, -⟩ := tokenize_signed (v := v) hbody
  rw [htext, htokens'] at htokens
  have hlength := congrArg List.length (Except.ok.inj htokens)
  have hsign := congrArg List.length hkinds
  have hus := congrArg List.length hus
  simp only [List.length_append, List.length_cons, List.length_nil, List.length_map] at *
  have hle : (if v.value < 0 then [TokenKind.minus] else []).length ≤ 1 := by split <;> simp
  omega

/-- What rounds to the absolute value. -/
theorem ofRat_near {d : ℚ} (hv : 0 < v.magnitude) (hd : |d - v.magnitude| < v.magnitude / 2 ^ 54) :
    (ofRat d : Binary64) = Fp.fabs (Binary64.finite v) := by
  have hd0 : 0 < d := by
    have := (abs_lt.mp hd).1
    linarith
  rw [Binary64.ofRat_eq_round, abs_of_pos hd0, round_near hv hd, Binary64.fabs_finite,
    decide_eq_false (not_lt.mpr hd0.le)]

/-- Zero is printed without a sign. -/
theorem lexesBack_zero (hv : v.magnitude = 0) : LexesBack v := by
  have hvalue : ¬ v.value < 0 := by
    rw [(Finite64.value_eq_zero_iff v).mpr hv]
    exact lt_irrefl 0
  have hdigits : (ofRat (decimalValue ['0']) : Binary64) = Fp.fabs (Binary64.finite v) := by
    have hzero : decimalValue ['0'] = (0 : ℕ) := decimalValue_toDigits 0
    rw [hzero, Finite64.eq_zero_of_magnitude hv]
    exact Binary64.ofNat_zero
  let eof : Token Binary64 := ⟨.endOfFile, "", ofNat 0, ⟨0, 2, 0⟩⟩
  have hlexes : Lexes endsNumber ['0'] fun us : List (Token Binary64) => ∃ t, us = [t] ∧
      t.kind = .number ∧ t.numberValue = ofRat (decimalValue ['0']) :=
    Lexes.number (List.cons_ne_nil _ _) (List.forall_mem_singleton.mpr rfl)
  obtain ⟨us, hus, t, rfl, hkind, hnum⟩ := hlexes 0 [] [eof] (fun _ h => by cases h)
    (tokenizes_nil _)
  refine ⟨[], t, eof, ?_, by rw [if_neg hvalue]; rfl, hkind, hnum.trans hdigits, rfl⟩
  rw [formatNumber_finite, if_pos hv]
  exact hus _ (Nat.lt_succ_self _)

/-- **A printed number reads back exactly where no exponent is printed.** -/
theorem lexesBack_iff (v : Finite64) :
    LexesBack v ↔ v.value = 0 ∨ 1 / 10 ^ 4 ≤ |v.value| ∧ |v.value| < 10 ^ 17 := by
  rw [Finite64.abs_value, Finite64.value_eq_zero_iff]
  rcases v.magnitude_nonneg.eq_or_lt with hzero | hv
  · exact iff_of_true (lexesBack_zero hzero.symm) (.inl hzero.symm)
  · rw [or_iff_right hv.ne']
    have htext := formatNumber_finite v
    rw [if_neg hv.ne'] at htext
    by_cases hint : (⌊v.magnitude⌋₊ : ℚ) = v.magnitude ∧ v.magnitude < 10 ^ 15
    · rw [if_pos hint] at htext
      have hone : (1 : ℚ) ≤ ⌊v.magnitude⌋₊ := by
        have : 0 < (⌊v.magnitude⌋₊ : ℚ) := by rwa [hint.1]
        exact_mod_cast this
      refine iff_of_true (lexesBack_of_lexes hv htext ?_) ⟨?_, ?_⟩
      · refine (Lexes.number Nat.toDigits_ne_nil fun c hc => isDigit_of_mem_toDigits hc).mono ?_
        rintro us ⟨t, rfl, hkind, hvalue⟩
        refine ⟨t, rfl, hkind, hvalue.trans ?_⟩
        rw [decimalValue_toDigits, hint.1]
        refine ofRat_near hv ?_
        rw [sub_self, abs_zero]
        exact div_pos hv (by norm_num)
      · rw [hint.1] at hone
        norm_num
        linarith
      · have := hint.2
        norm_num at this ⊢
        linarith
    · obtain ⟨⟨n, x⟩, hdecimal⟩ : ∃ d, toDecimal17 v.magnitude = d := ⟨_, rfl⟩
      obtain ⟨hlow, hhigh, hnear, -⟩ := toDecimal17_spec hv hdecimal
      rw [if_neg hint, printMagnitude, if_neg hv.ne', hdecimal] at htext
      rw [← toDecimal17_fixed_iff v hv hdecimal]
      by_cases hfixed : -4 ≤ x ∧ x < 17
      · simp only [if_pos hfixed] at htext
        refine iff_of_true (lexesBack_of_lexes hv htext ?_) hfixed
        refine (lexes_printFixed ⟨hlow, hhigh⟩ hfixed.2).mono ?_
        rintro us ⟨t, rfl, hkind, hvalue⟩
        exact ⟨t, rfl, hkind, hvalue.trans (ofRat_near hv hnear)⟩
      · simp only [if_neg hfixed] at htext
        have hfour := lexes_printScientific (D := Binary64) (x := x) ⟨hlow, hhigh⟩
        exact iff_of_false (not_lexesBack_of_lexes htext hfour rfl) hfixed

/-- `1e17` -/
def oneE17 : Finite64 where
  negative := false
  mantissa := 6250000000000000
  exponent := 4
  mantissa_lt := by decide
  le_exponent := by decide
  exponent_le := by decide
  normal _ := by decide

omit [Libm Binary64] in
/-- `1e17` is printed with an exponent, and the lexer takes the text for a number, a name, a plus
and a number. -/
theorem oneE17_not_lexesBack : oneE17.value = 10 ^ 17 ∧ ∀ _ : Libm Binary64,
    (formatNumber printG17 (Binary64.finite oneE17)).toList = ['1', 'e', '+', '1', '7'] ∧
      ¬ LexesBack oneE17 := by
  refine ⟨by decide +kernel, fun _ => ?_⟩
  have htext : (formatNumber printG17 (Binary64.finite oneE17)).toList = ['1', 'e', '+', '1', '7'] := by
    rw [formatNumber_finite, if_neg (by decide +kernel), if_neg (by decide +kernel)]
    decide +kernel
  have hfour := lexes_printScientific (D := Binary64) (n := 10 ^ 16) (x := 17) (by decide)
  rw [show printScientific (10 ^ 16) 17 = ['1', 'e', '+', '1', '7'] by decide +kernel] at hfour
  exact ⟨htext, not_lexesBack_of_lexes htext hfour rfl⟩

end ReadBack

end JitSignalEngine
