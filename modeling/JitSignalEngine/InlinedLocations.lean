import JitSignalEngine.Grammar
import JitSignalEngine.LexerSpans
import JitSignalEngine.Lint

/-!
# Locations behind inlining

The parser gives every node the place of a token, the passes of `ParseProgram` keep the places,
and so does `CloneExpr`. `InlineExpr` builds new nodes and gives them none.

* `Expr.locs` — the places of all nodes of an expression.
* `parseProgram_locs` — behind `ParseProgram` each of them is a place in the text.
* `Expr.sourceLocs` — the places of the nodes that inlining builds its result from.
* `inlining_drops_locations` — the result has other places, whatever the program.
-/

namespace JitSignalEngine

variable {D : Type}

/-! ## The places of the nodes -/

namespace Expr

mutual

/-- The places of all nodes, each in front of those below it. -/
def locs : Expr D → List SourceLoc
  | .numberLiteral loc _ => [loc]
  | .identifierExpr loc _ => [loc]
  | .parameterExpr loc _ _ => [loc]
  | .unaryOp loc _ e => loc :: e.locs
  | .binaryOp loc _ l r => loc :: (l.locs ++ r.locs)
  | .conditional loc c t e => loc :: (c.locs ++ (t.locs ++ e.locs))
  | .functionCall loc _ args _ _ => loc :: locsArgs args

/-- The places in an argument list. -/
def locsArgs : List (Expr D) → List SourceLoc
  | [] => []
  | a :: as => a.locs ++ locsArgs as

end

theorem locsArgs_eq_flatMap (as : List (Expr D)) : locsArgs as = as.flatMap locs := by
  induction as with
  | nil => rfl
  | cons a as ih => rw [locsArgs, ih, List.flatMap_cons]

theorem head?_locs (e : Expr D) : e.locs.head? = some e.loc := by
  cases e <;> rfl

theorem loc_mem_locs (e : Expr D) : e.loc ∈ e.locs := List.mem_of_head? (head?_locs e)

/-- A stripped tree has no places. -/
theorem locs_strip (e : Expr D) : ∀ l ∈ e.strip.locs, l = {} := by
  induction e using Expr.induct with
  | numberLiteral | identifierExpr | parameterExpr => exact List.forall_mem_singleton.mpr rfl
  | unaryOp loc k e ih => exact List.forall_mem_cons.mpr ⟨rfl, ih⟩
  | binaryOp loc k l r ihl ihr =>
    exact List.forall_mem_cons.mpr ⟨rfl, List.forall_mem_append.mpr ⟨ihl, ihr⟩⟩
  | conditional loc c t e ihc iht ihe =>
    exact List.forall_mem_cons.mpr
      ⟨rfl, List.forall_mem_append.mpr ⟨ihc, List.forall_mem_append.mpr ⟨iht, ihe⟩⟩⟩
  | functionCall loc n args nid sid ih =>
    refine List.forall_mem_cons.mpr ⟨rfl, fun l hl => ?_⟩
    rw [stripArgs_eq_map, locsArgs_eq_flatMap, List.mem_flatMap] at hl
    obtain ⟨_, hb, hl⟩ := hl
    obtain ⟨a, ha, rfl⟩ := List.mem_map.mp hb
    exact ih a ha l hl

theorem locs_withLoc (e : Expr D) (loc : SourceLoc) : (e.withLoc loc).locs ⊆ loc :: e.locs := by
  have hsub : ∀ l : SourceLoc, ∀ ls : List SourceLoc, loc :: ls ⊆ loc :: l :: ls := fun l ls =>
    List.cons_subset_cons loc (List.subset_cons_self l ls)
  cases e <;> exact hsub _ _

end Expr

/-- **A copy keeps the places.** -/
theorem locs_cloneExpr (e : Expr D) : (cloneExpr e).locs = e.locs := by
  induction e using Expr.induct with
  | numberLiteral | identifierExpr | parameterExpr => rfl
  | unaryOp loc k e ih => rw [cloneExpr, Expr.locs, Expr.locs, ih]
  | binaryOp loc k l r ihl ihr => rw [cloneExpr, Expr.locs, Expr.locs, ihl, ihr]
  | conditional loc c t e ihc iht ihe => rw [cloneExpr, Expr.locs, Expr.locs, ihc, iht, ihe]
  | functionCall loc n args nid sid ih =>
    have hargs : ∀ as : List (Expr D), (∀ a ∈ as, (cloneExpr a).locs = a.locs) →
        Expr.locsArgs (cloneArgs as) = Expr.locsArgs as := by
      intro as
      induction as with
      | nil => exact fun _ => rfl
      | cons a as iha =>
        intro h
        rw [cloneArgs, Expr.locsArgs, Expr.locsArgs, h a List.mem_cons_self,
          iha fun b hb => h b (List.mem_cons_of_mem a hb)]
    rw [cloneExpr, Expr.locs, Expr.locs, hargs args ih]

/-! ## The parser -/

mutual

/-- **Each node of a derived expression** is at one of its tokens. -/
theorem Derives.locs_subset {p : Phrase} {ts : List (Token D)} {x : Expr D} :
    Derives p ts x → x.locs ⊆ ts.map Token.loc
  | .conditional _ hc _ hx _ hy => by
    have := hc.locs_subset
    have := hx.locs_subset
    have := hy.locs_subset
    simp only [Expr.locs]
    grind
  | .logical h => h.locs_subset
  | .chain h hs => by
    have := h.locs_subset
    have := hs.locs_subset
    grind
  | .number _ => List.Subset.refl _
  | .identifier _ => List.Subset.refl _
  | .call _ _ hargs _ => by
    have := hargs.locs_subset
    simp only [Expr.locs]
    grind
  | @Derives.paren _ l _ _ x _ h _ => by
    have := h.locs_subset
    have := Expr.locs_withLoc x l.loc
    unfold withParenLoc
    grind
  | .unary _ h => by
    have := h.locs_subset
    simp only [Expr.locs]
    grind

theorem Repeats.locs_subset {l : Level} {x y : Expr D} {us : List (Token D)} :
    Repeats l x us y → y.locs ⊆ x.locs ++ us.map Token.loc
  | .done => List.subset_append_left _ _
  | .more _ h hs => by
    have := h.locs_subset
    have := hs.locs_subset
    simp only [Expr.locs] at this
    grind

theorem DerivesArgs.locs_subset {ts : List (Token D)} {xs : List (Expr D)} :
    DerivesArgs ts xs → Expr.locsArgs xs ⊆ ts.map Token.loc
  | .none => List.nil_subset _
  | .some h hs => by
    have := h.locs_subset
    have := hs.locs_subset
    simp only [Expr.locsArgs]
    grind

theorem DerivesMoreArgs.locs_subset {us : List (Token D)} {xs : List (Expr D)} :
    DerivesMoreArgs us xs → Expr.locsArgs xs ⊆ us.map Token.loc
  | .done => List.nil_subset _
  | .more _ h hs => by
    have := h.locs_subset
    have := hs.locs_subset
    simp only [Expr.locsArgs]
    grind

end

/-! ## The passes of the front end -/

section Passes

variable [Fp D]

/-- A folded literal is where the operator was, and a picked branch where the conditional was. -/
theorem locs_foldConstants (e : Expr D) : (foldConstants e).locs ⊆ e.locs := by
  induction e using Expr.induct with
  | numberLiteral | identifierExpr | parameterExpr => exact List.Subset.refl _
  | unaryOp loc k e ih =>
    rw [foldConstants]
    cases (foldConstants e).asNumber with
    | none => exact List.cons_subset_cons loc ih
    | some v => exact List.cons_subset_cons loc (List.nil_subset _)
  | binaryOp loc k l r ihl ihr =>
    have hnode : loc :: ((foldConstants l).locs ++ (foldConstants r).locs) ⊆
        loc :: (l.locs ++ r.locs) := by grind
    have hliteral : [loc] ⊆ loc :: (l.locs ++ r.locs) := by grind
    rw [foldConstants]
    cases (foldConstants l).asNumber with
    | none => exact hnode
    | some v =>
      cases (foldConstants r).asNumber with
      | none => exact hnode
      | some w => exact hliteral
  | conditional loc c t e ihc iht ihe =>
    rw [foldConstants]
    cases (foldConstants c).asNumber with
    | none =>
      simp only [Expr.locs]
      grind
    | some v =>
      have ht := Expr.locs_withLoc (foldConstants t) loc
      have he := Expr.locs_withLoc (foldConstants e) loc
      simp only [Expr.locs]
      split <;> grind
  | functionCall loc n args nid sid ih =>
    rw [foldConstants, Expr.locs, Expr.locs, foldArgs_eq_map, Expr.locsArgs_eq_flatMap,
      Expr.locsArgs_eq_flatMap, List.flatMap_map]
    refine List.cons_subset_cons loc fun l hl => ?_
    obtain ⟨a, ha, hl⟩ := List.mem_flatMap.mp hl
    exact List.mem_flatMap.mpr ⟨a, ha, ih a ha hl⟩

omit [Fp D] in
theorem locs_resolveParameterRefs (ids : String → Option Int) (e : Expr D) :
    (resolveParameterRefs ids e).locs = e.locs := by
  induction e using Expr.induct with
  | numberLiteral | parameterExpr => rfl
  | identifierExpr loc n =>
    rw [resolveParameterRefs]
    cases ids n <;> rfl
  | unaryOp loc k e ih => rw [resolveParameterRefs, Expr.locs, Expr.locs, ih]
  | binaryOp loc k l r ihl ihr => rw [resolveParameterRefs, Expr.locs, Expr.locs, ihl, ihr]
  | conditional loc c t e ihc iht ihe =>
    rw [resolveParameterRefs, Expr.locs, Expr.locs, ihc, iht, ihe]
  | functionCall loc n args nid sid ih =>
    have hargs : ∀ as : List (Expr D), (∀ a ∈ as, (resolveParameterRefs ids a).locs = a.locs) →
        Expr.locsArgs (resolveParameterArgs ids as) = Expr.locsArgs as := by
      intro as h
      rw [resolveParameterArgs_eq, Expr.locsArgs_eq_flatMap, Expr.locsArgs_eq_flatMap,
        List.flatMap_map]
      exact List.flatMap_congr h
    rw [resolveParameterRefs, Expr.locs, Expr.locs]
    split
    · cases args with
      | nil => rfl
      | cons a as =>
        rw [resolveParameterTail, Expr.locsArgs, Expr.locsArgs,
          hargs as fun b hb => ih b (List.mem_cons_of_mem a hb)]
    · rw [hargs args ih]

omit [Fp D] in
/-- The end of a text is where its tokens end. -/
theorem terminated_append {ts : List (Token D)} {e : Token D} (hts : ∀ t ∈ ts, t.kind ≠ .endOfFile)
    (he : e.kind = .endOfFile) : Terminated (ts ++ [e]) := by
  induction ts with
  | nil => exact he
  | cons t ts ih =>
    have hrest := ih fun u hu => hts u (List.mem_cons_of_mem t hu)
    obtain ⟨u, us, hus⟩ := hrest.exists_cons
    rw [List.cons_append, hus]
    rw [hus] at hrest
    exact ⟨hts t List.mem_cons_self, hrest⟩

/-- A place in the text: lines and columns are counted from 1. -/
def SourceLoc.InText (l : SourceLoc) : Prop := 0 < l.line ∧ 0 < l.col

/-- What the lexer makes of a line ends in its only `EndOfFile`, and has columns. -/
theorem tokenize_ok {text : List Char} {tokens : List (Token D)} (h : tokenize text = .ok tokens) :
    ∃ ts e, tokens = ts ++ [e] ∧ (∀ t ∈ ts, t.kind ≠ .endOfFile) ∧ e.kind = .endOfFile ∧
      ∀ t ∈ tokens, 0 < t.loc.col := by
  rw [tokenize] at h
  rcases tokenizeFrom_run (D := D) (text.length + 1) 0 text with
    ⟨m, hthrow⟩ | ⟨ts, hok, hscan⟩ | ⟨hcut, -⟩
  · rw [hthrow] at h
    cases h
  · rw [hok] at h
    cases h
    have hcolumns := (hscan.lossless List.drop_zero).column
    refine ⟨ts, _, rfl, hscan.not_endOfFile, rfl, List.forall_mem_append.mpr ⟨hcolumns, ?_⟩⟩
    exact List.forall_mem_singleton.mpr (Nat.succ_pos _)
  · rw [hcut] at h
    cases h

/-- **A parsed signal** has all its nodes on its line. -/
theorem parseLine_locs {lineNo : Nat} {raw : List Char} {s : SignalDef D} (hline : 0 < lineNo)
    (h : parseLine lineNo raw = .ok (some (.signal s))) : ∀ l ∈ s.body.locs, l.InText := by
  rw [parseLine] at h
  dsimp only at h
  by_cases hempty : cleanLine raw = []
  · rw [if_pos hempty] at h
    cases h
  rw [if_neg hempty] at h
  rcases htokens : tokenize (D := D) (cleanLine raw) with e | tokens
  · rw [htokens] at h
    cases h
  rw [htokens] at h
  dsimp only at h
  obtain ⟨ts, e, hsplit, hts, he, hcolumns⟩ := tokenize_ok htokens
  generalize hplaced : tokens.map (fun t => { t with loc := { t.loc with line := lineNo } }) =
    placed at h
  have hinText : ∀ l ∈ placed.map Token.loc, l.InText := by
    rw [← hplaced, List.map_map]
    refine List.forall_mem_map.mpr fun t ht => ?_
    exact ⟨hline, hcolumns t ht⟩
  have hterm : Terminated placed := by
    rw [← hplaced, hsplit, List.map_append, List.map_singleton]
    exact terminated_append (List.forall_mem_map.mpr hts) he
  split at h
  · split at h <;> cases h
  rcases parseSignalDef_cases hterm (Nat.le_succ placed.length) with ⟨e, herror⟩ | ⟨s', hok, hderives⟩
  · rw [herror] at h
    cases h
  · rw [hok] at h
    cases h
    cases hderives with
    | intro _ _ _ hbody _ =>
      intro l hl
      refine hinText l ?_
      have := hbody.locs_subset hl
      grind

theorem sourceDefinitions_signal {lineNo : Nat} {lines : List (List Char)} {s : SignalDef D}
    (h : s ∈ (sourceDefinitions lineNo lines).filterMap Definition.asSignal) :
    ∃ n raw, lineNo ≤ n ∧ parseLine n raw = .ok (some (.signal s)) := by
  induction lines generalizing lineNo with
  | nil => cases h
  | cons raw rest ih =>
    have hrest : s ∈ (sourceDefinitions (lineNo + 1) rest).filterMap Definition.asSignal →
        ∃ n raw, lineNo ≤ n ∧ parseLine n raw = .ok (some (.signal s)) := by
      intro hmem
      obtain ⟨n, raw, hn, hparse⟩ := ih hmem
      exact ⟨n, raw, Nat.le_of_succ_le hn, hparse⟩
    rw [sourceDefinitions] at h
    split at h
    · rename_i d hd
      rw [List.mem_filterMap] at h
      obtain ⟨d', hd', hs⟩ := h
      rcases List.mem_cons.mp hd' with rfl | hd'
      · cases d' with
        | param p => cases hs
        | signal s' =>
          cases hs
          exact ⟨lineNo, raw, Nat.le_refl _, hd⟩
      · exact hrest (List.mem_filterMap.mpr ⟨d', hd', hs⟩)
    · exact hrest h

/-- A program has signals. -/
theorem parseProgram_ne_nil {text : List Char} {program : ProgramDef D}
    (h : parseProgram text = .ok program) : program.signals ≠ [] := by
  rw [parseProgram] at h
  obtain ⟨ds, -, h⟩ := except_bind_ok.mp h
  dsimp only at h
  split at h
  · cases h
  · obtain ⟨ids, -, h⟩ := except_bind_ok.mp h
    obtain ⟨_, -, h⟩ := except_bind_ok.mp h
    cases h
    exact mt List.map_eq_nil_iff.mp ‹_›

/-- **`ParseProgram`** gives every node a place in the text. -/
theorem parseProgram_locs {text : List Char} {program : ProgramDef D}
    (h : parseProgram text = .ok program) :
    ∀ s ∈ program.signals, ∀ l ∈ s.body.locs, l.InText := by
  obtain ⟨ids, hsignals, -⟩ := parseProgram_ok h
  rw [hsignals]
  refine List.forall_mem_map.mpr fun s hs l hl => ?_
  obtain ⟨n, raw, hn, hparse⟩ := sourceDefinitions_signal hs
  refine parseLine_locs hn hparse l (locs_foldConstants s.body ?_)
  rw [← locs_resolveParameterRefs ids]
  exact hl

end Passes

/-! ## Inlining -/

mutual

/-- The places of the nodes that `InlineExpr` builds its result from: those of the expression,
and in place of a reference those of the body it is a copy of. -/
def Expr.sourceLocs (defs : String → Option (Expr D)) : Expr D → List SourceLoc
  | .numberLiteral loc _ => [loc]
  | .identifierExpr loc n =>
    match defs n with
    | some body => body.locs
    | none => [loc]
  | .parameterExpr loc _ _ => [loc]
  | .unaryOp loc _ e => loc :: e.sourceLocs defs
  | .binaryOp loc _ l r => loc :: (l.sourceLocs defs ++ r.sourceLocs defs)
  | .conditional loc c t e => loc :: (c.sourceLocs defs ++ (t.sourceLocs defs ++ e.sourceLocs defs))
  | .functionCall loc _ args _ _ => loc :: sourceLocsArgs defs args

/-- `Expr.sourceLocs` on an argument list. -/
def Expr.sourceLocsArgs (defs : String → Option (Expr D)) : List (Expr D) → List SourceLoc
  | [] => []
  | a :: as => a.sourceLocs defs ++ sourceLocsArgs defs as

end

/-- Every node of every resulting body has the place of the node it was built or copied from. -/
def KeepsLocations (signals resolved : List (SignalDef D)) : Prop :=
  ∀ (i : Nat) (s r : SignalDef D), signals[i]? = some s → resolved[i]? = some r →
    r.body.locs = s.body.sourceLocs fun n =>
      if n ∈ collectRefs s.body then bodyOf resolved n else none

theorem Expr.head?_sourceLocs {defs : String → Option (Expr D)} (h : ∀ n, defs n = none)
    (e : Expr D) : (e.sourceLocs defs).head? = some e.loc := by
  cases e with
  | identifierExpr loc n => rw [sourceLocs, h]; rfl
  | _ => rfl

/-- **No node has a place** behind inlining. -/
theorem inlined_locs {order : HashOrder} {signals resolved : List (SignalDef D)}
    (h : inlineSignalDependencies order signals = .ok resolved) :
    ∀ r ∈ resolved, ∀ l ∈ r.body.locs, l = {} := by
  obtain ⟨-, hacyc, index, bodies, hindex, hres, rfl⟩ := inlineSignalDependencies_ok h
  intro r hr l hl
  obtain ⟨i, s, hs, hb⟩ := mem_withBodies hres hr
  rw [← (hres.clean hindex hacyc hs hb).1] at hl
  exact Expr.locs_strip _ l hl

/-- A program that can be resolved has a signal that refers to no other. -/
theorem exists_independent {order : HashOrder} {signals resolved : List (SignalDef D)}
    (h : inlineSignalDependencies order signals = .ok resolved) (hne : signals ≠ []) :
    ∃ (i : Nat) (s r : SignalDef D), signals[i]? = some s ∧ resolved[i]? = some r ∧
      ∀ n ∈ collectRefs s.body, bodyOf resolved n = none := by
  obtain ⟨-, hacyc, index, bodies, hindex, hres, rfl⟩ := inlineSignalDependencies_ok h
  obtain ⟨i, hi, hmin⟩ := (mentions_wellFounded hacyc).has_min {i | i < signals.length}
    ⟨0, List.length_pos_of_ne_nil hne⟩
  obtain ⟨s, hs⟩ : ∃ s, signals[i]? = some s := ⟨_, List.getElem?_eq_getElem hi⟩
  refine ⟨i, s, _, hs, by rw [withBodies_getElem?, hs]; rfl, fun n hn => ?_⟩
  rw [bodyOf_withBodies hindex hres]
  rcases hj : index n with _ | j
  · rfl
  · obtain ⟨t, ht, rfl⟩ := (hindex n j).mp hj
    have hmentions : Mentions signals i j := ⟨s, t, hs, ht, hn⟩
    exact absurd hmentions (hmin j hmentions.lt)

/-- A root that has a place loses it. -/
theorem not_keepsLocations {order : HashOrder} {signals resolved : List (SignalDef D)}
    (h : inlineSignalDependencies order signals = .ok resolved) (hne : signals ≠ [])
    (hplaces : ∀ s ∈ signals, s.body.loc.InText) : ¬ KeepsLocations signals resolved := by
  intro hkeeps
  obtain ⟨i, s, r, hs, hr, hrefs⟩ := exists_independent h hne
  have hnone : ∀ n, (if n ∈ collectRefs s.body then bodyOf resolved n else none) = none := by
    intro n
    split
    · exact hrefs n ‹_›
    · rfl
  have hroot := congrArg List.head? (hkeeps i s r hs hr)
  rw [Expr.head?_locs, Expr.head?_sourceLocs hnone, Option.some.injEq,
    inlined_locs h r (List.mem_of_getElem? hr) _ r.body.loc_mem_locs] at hroot
  have hplace := hplaces s (List.mem_of_getElem? hs)
  rw [← hroot] at hplace
  exact absurd hplace.1 (Nat.lt_irrefl 0)

/-- **Inlining does not keep the places**, whatever the program. -/
theorem inlining_drops_locations [Fp D] {text : List Char} {program : ProgramDef D}
    {order : HashOrder} {resolved : List (SignalDef D)} (hparse : parseProgram text = .ok program)
    (hinline : inlineSignalDependencies order program.signals = .ok resolved) :
    ¬ KeepsLocations program.signals resolved :=
  not_keepsLocations hinline (parseProgram_ne_nil hparse) fun s hs =>
    parseProgram_locs hparse s hs _ s.body.loc_mem_locs

/-! ## A program with a reference -/

/-- The places of the bodies of a text, before and behind inlining. -/
def placesOf (text : List Char) : Option (List (List SourceLoc) × List (List SourceLoc)) :=
  match (parseProgram text : Except FrontendError (ProgramDef (Exact ℚ))) with
  | .error _ => none
  | .ok program =>
    match inlineSignalDependencies insertionOrder program.signals with
    | .error _ => none
    | .ok resolved => some (program.signals.map (·.body.locs), resolved.map (·.body.locs))

theorem placesOf_eq_some {text : List Char} {before behind : List (List SourceLoc)}
    (h : placesOf text = some (before, behind)) :
    ∃ (program : ProgramDef (Exact ℚ)) (resolved : List (SignalDef (Exact ℚ))),
      parseProgram text = .ok program ∧
      inlineSignalDependencies insertionOrder program.signals = .ok resolved ∧
      program.signals.map (·.body.locs) = before ∧ resolved.map (·.body.locs) = behind := by
  unfold placesOf at h
  split at h
  · cases h
  · rename_i program hparse
    split at h
    · cases h
    · rename_i resolved hinline
      cases h
      exact ⟨program, resolved, hparse, hinline, rfl, rfl⟩

/-- `signal m = 1` and `signal s = m + m` -/
def doubledText : List Char := "signal m = 1\nsignal s = m + m".toList

theorem placesOf_doubledText : placesOf doubledText =
    some ([[⟨1, 12, 1⟩], [⟨2, 14, 1⟩, ⟨2, 12, 1⟩, ⟨2, 16, 1⟩]], [[{}], [{}, {}, {}]]) := by
  decide +kernel

theorem inlining_drops_locations_doubled :
    ∃ (program : ProgramDef (Exact ℚ)) (resolved : List (SignalDef (Exact ℚ))),
      parseProgram doubledText = .ok program ∧
      inlineSignalDependencies insertionOrder program.signals = .ok resolved ∧
      ¬ KeepsLocations program.signals resolved := by
  obtain ⟨program, resolved, hparse, hinline, -, -⟩ := placesOf_eq_some placesOf_doubledText
  exact ⟨program, resolved, hparse, hinline, inlining_drops_locations hparse hinline⟩

/-- Both bodies come out without a place. -/
theorem doubled_loses_locations :
    ∃ (program : ProgramDef (Exact ℚ)) (resolved : List (SignalDef (Exact ℚ))),
      parseProgram doubledText = .ok program ∧
      inlineSignalDependencies insertionOrder program.signals = .ok resolved ∧
      resolved.map (·.body.locs) = [[{}], [{}, {}, {}]] ∧
      ¬ KeepsLocations program.signals resolved := by
  obtain ⟨program, resolved, hparse, hinline, hbefore, hbehind⟩ :=
    placesOf_eq_some placesOf_doubledText
  refine ⟨program, resolved, hparse, hinline, hbehind, not_keepsLocations hinline ?_ ?_⟩
  · intro hnil
    rw [hnil] at hbefore
    cases hbefore
  · intro s hs
    have hroot : s.body.locs ∈ program.signals.map (·.body.locs) := List.mem_map_of_mem hs
    rw [hbefore] at hroot
    have hall : ∀ ls ∈ [[⟨1, 12, 1⟩], [⟨2, 14, 1⟩, ⟨2, 12, 1⟩, (⟨2, 16, 1⟩ : SourceLoc)]],
        ∀ l ∈ ls.head?, l.InText := by
      unfold SourceLoc.InText
      decide
    exact hall _ hroot _ s.body.head?_locs

end JitSignalEngine
