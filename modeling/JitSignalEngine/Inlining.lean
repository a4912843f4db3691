import JitSignalEngine.Exact
import JitSignalEngine.SignalProgram
import JitSignalEngine.TypeCheck
import Mathlib.Data.Fintype.EquivFin
import Mathlib.Data.List.Nodup
import Mathlib.Logic.Relation

/-!
# Inlining of signal references

`InlineSignalDependencies` replaces references between signals by a depth-first search
with three colours. The search iterates over hash sets, so it visits the references of a
body in an order of its own (`HashOrder`).

* `Mentions` — one body refers to another signal, outside ticker positions.
* `Searched`, `SearchExtends` — what a step of the search keeps, and what it changes.
* `inlineDfs_spec` — a search either finishes its signal or finds a cycle.
* `Expr.replaceRefs` — what inlining is for: references are replaced, tickers are not.
* `inlineSignalDependencies_exact` — inlining is that replacement, where no ticker has the
  name of a signal.
* `inlineSignalDependencies_keepsTickers` — in general, exactly when no body has a ticker
  that it also refers to.

`CollectRefs` passes over tickers, `InlineExpr` does not.
-/

namespace JitSignalEngine

open Relation

variable {D : Type}

/-! ## References -/

/-- The body of `i` mentions the signal `j` outside ticker positions. -/
def Mentions (signals : List (SignalDef D)) (i j : Nat) : Prop :=
  ∃ a b, signals[i]? = some a ∧ signals[j]? = some b ∧ b.name ∈ collectRefs a.body

/-- Some signal depends on itself. -/
def Cyclic (signals : List (SignalDef D)) : Prop := ∃ i, TransGen (Mentions signals) i i

theorem Mentions.lt {signals : List (SignalDef D)} {i j : Nat} (h : Mentions signals i j) :
    j < signals.length := by
  obtain ⟨_, b, -, hb, -⟩ := h
  exact (List.getElem?_eq_some_iff.mp hb).1

/-- What `index` has to be: the position of each name. -/
def Indexes (signals : List (SignalDef D)) (index : String → Option Nat) : Prop :=
  ∀ r j, index r = some j ↔ ∃ b, signals[j]? = some b ∧ b.name = r

/-- **`index`** is filled exactly when no name is given twice. -/
theorem indexSignals_spec (seen rest : List (SignalDef D)) (index : String → Option Nat)
    (hindex : Indexes seen index) (hseen : (seen.map (·.name)).Nodup) :
    (((seen ++ rest).map (·.name)).Nodup ∧
      ∃ index', indexSignals rest seen.length index = .ok index' ∧
        Indexes (seen ++ rest) index') ∨
    (¬ ((seen ++ rest).map (·.name)).Nodup ∧
      ∃ n, indexSignals rest seen.length index = .error (.duplicateName n)) := by
  induction rest generalizing seen index with
  | nil =>
    rw [List.append_nil]
    exact .inl ⟨hseen, index, rfl, hindex⟩
  | cons s rest ih =>
    cases hs : index s.name with
    | some j =>
      obtain ⟨b, hb, hname⟩ := (hindex _ _).mp hs
      refine .inr ⟨fun hnd => ?_, s.name, by rw [indexSignals, hs]⟩
      rw [List.map_append, List.nodup_append] at hnd
      exact hnd.2.2 b.name (List.mem_map_of_mem (List.mem_of_getElem? hb)) s.name
        (by simp) hname
    | none =>
      have hnew : ∀ b ∈ seen, b.name ≠ s.name := by
        intro b hb hname
        obtain ⟨j, hj⟩ := List.mem_iff_getElem?.mp hb
        rw [(hindex s.name j).mpr ⟨b, hj, hname⟩] at hs
        cases hs
      have hlen : (seen ++ [s]).length = seen.length + 1 := by simp
      have hindex' : Indexes (seen ++ [s])
          fun n => if n = s.name then some seen.length else index n := by
        intro r j
        rw [List.getElem?_append]
        dsimp only
        by_cases hr : r = s.name
        · subst hr
          rw [if_pos rfl]
          constructor
          · rintro ⟨⟩
            exact ⟨s, by simp, rfl⟩
          · rintro ⟨b, hb, hname⟩
            by_cases hj : j < seen.length
            · rw [if_pos hj] at hb
              exact absurd hname (hnew b (List.mem_of_getElem? hb))
            · rw [if_neg hj] at hb
              have := (List.getElem?_eq_some_iff.mp hb).1
              simp only [List.length_singleton] at this
              exact congrArg some (by omega)
        · rw [if_neg hr, hindex]
          by_cases hj : j < seen.length
          · rw [if_pos hj]
          · rw [if_neg hj]
            constructor
            · rintro ⟨b, hb, -⟩
              exact absurd (List.getElem?_eq_some_iff.mp hb).1 hj
            · rintro ⟨b, hb, hname⟩
              have : b = s := List.mem_singleton.mp (List.mem_of_getElem? hb)
              exact absurd (this ▸ hname).symm hr
      have hseen' : ((seen ++ [s]).map (·.name)).Nodup := by
        rw [List.map_append, List.nodup_append]
        refine ⟨hseen, List.nodup_singleton _, ?_⟩
        intro a ha b hb
        obtain ⟨c, hc, rfl⟩ := List.mem_map.mp ha
        rw [List.map_singleton, List.mem_singleton] at hb
        exact hb ▸ hnew c hc
      have := ih (seen ++ [s]) _ hindex' hseen'
      rw [List.append_assoc, List.singleton_append, hlen] at this
      simpa only [indexSignals, hs] using this

/-! ## The search -/

section Search

variable {signals : List (SignalDef D)} {index : String → Option Nat}

/-- What holds between two steps of the search. -/
structure Searched (signals : List (SignalDef D)) (index : String → Option Nat)
    (st : InlineState D) : Prop where
  /-- what a finished signal mentions is finished -/
  closed : ∀ {i j}, st.visited i = .done → Mentions signals i j → st.visited j = .done
  /-- finished bodies have the finished bodies they mention in place of the references -/
  resolved : ∀ {i s}, st.visited i = .done → signals[i]? = some s →
    st.resolved i = some (inlineExpr (inlineDefs index st.resolved (collectRefs s.body)) s.body)
  /-- no finished signal depends on itself -/
  acyclic : ∀ {i}, st.visited i = .done → ¬ TransGen (Mentions signals) i i

/-- How a search changes the state. -/
structure SearchExtends (st st' : InlineState D) : Prop where
  /-- the signals being visited are the same -/
  visiting : ∀ i, st'.visited i = .visiting ↔ st.visited i = .visiting
  /-- finished signals stay finished -/
  done : ∀ {i}, st.visited i = .done → st'.visited i = .done
  /-- with the bodies they have -/
  resolved : ∀ {i}, st.visited i = .done → st'.resolved i = st.resolved i

theorem SearchExtends.refl (st : InlineState D) : SearchExtends st st := ⟨fun _ => .rfl, id, fun _ => rfl⟩

theorem SearchExtends.trans {st st' st'' : InlineState D} (h : SearchExtends st st')
    (h' : SearchExtends st' st'') :
    SearchExtends st st'' where
  visiting i := (h'.visiting i).trans (h.visiting i)
  done hi := h'.done (h.done hi)
  resolved hi := (h'.resolved (h.done hi)).trans (h.resolved hi)

/-- How many signals were not looked at. -/
def unvisited (signals : List (SignalDef D)) (st : InlineState D) : Nat :=
  (List.range signals.length).countP fun i => st.visited i = .unvisited

theorem SearchExtends.unvisited_le {st st' : InlineState D} (h : SearchExtends st st') :
    unvisited signals st' ≤ unvisited signals st := by
  refine List.countP_mono_left fun i _ hi => ?_
  simp only [decide_eq_true_eq] at hi ⊢
  cases hst : st.visited i with
  | unvisited => rfl
  | visiting => rw [(h.visiting i).mpr hst] at hi; cases hi
  | done => rw [h.done hst] at hi; cases hi

/-- Entering a signal leaves one less to look at. -/
theorem unvisited_mark {st : InlineState D} {i : Nat} (hi : i < signals.length)
    (hst : st.visited i = .unvisited) :
    unvisited signals (st.mark i .visiting) < unvisited signals st := by
  unfold unvisited
  obtain ⟨as, bs, hsplit⟩ := List.append_of_mem (List.mem_range.mpr hi)
  have hle : ∀ js : List Nat,
      js.countP (fun j => (st.mark i .visiting).visited j = .unvisited) ≤
        js.countP fun j => st.visited j = .unvisited := by
    intro js
    refine List.countP_mono_left fun j _ hj => ?_
    rw [decide_eq_true_eq, InlineState.mark_visited] at hj
    by_cases hij : j = i
    · rw [if_pos hij] at hj
      cases hj
    · rw [if_neg hij] at hj
      exact decide_eq_true hj
  have ha := hle as
  have hb := hle bs
  have hentered : (i :: bs).countP (fun j => (st.mark i .visiting).visited j = .unvisited) =
      bs.countP fun j => (st.mark i .visiting).visited j = .unvisited :=
    List.countP_cons_of_neg (by simp)
  have hbefore : (i :: bs).countP (fun j => st.visited j = .unvisited) =
      (bs.countP fun j => st.visited j = .unvisited) + 1 :=
    List.countP_cons_of_pos (by simpa using hst)
  rw [hsplit, List.countP_append, List.countP_append, hentered, hbefore]
  omega

/-- The definitions of a body depend on the signals it mentions. -/
theorem inlineDefs_congr (hindex : Indexes signals index) {i : Nat} {s : SignalDef D}
    (hs : signals[i]? = some s) {resolved resolved' : Nat → Option (Expr D)}
    (h : ∀ j, Mentions signals i j → resolved j = resolved' j) :
    inlineDefs index resolved (collectRefs s.body) =
      inlineDefs index resolved' (collectRefs s.body) := by
  funext r
  unfold inlineDefs
  by_cases hr : r ∈ collectRefs s.body
  · rw [if_pos hr, if_pos hr]
    cases hj : index r with
    | none => rfl
    | some j =>
      obtain ⟨b, hb, rfl⟩ := (hindex r j).mp hj
      exact h j ⟨s, b, hs, hb, hr⟩
  · rw [if_neg hr, if_neg hr]

/-- What the search of one signal brings about. -/
def SearchSpec (signals : List (SignalDef D)) (index : String → Option Nat) (i : Nat)
    (st : InlineState D) (result : Except InlineError (InlineState D)) : Prop :=
  (∃ st', result = .ok st' ∧ Searched signals index st' ∧ SearchExtends st st' ∧
    st'.visited i = .done) ∨
  ∃ n, result = .error (.cycle n) ∧ Cyclic signals

/-- The loop over references, when the search of each of them does what it should. -/
theorem foldlM_search (search : InlineState D → Nat → Except InlineError (InlineState D))
    {fuel : Nat} (js : List Nat) (st : InlineState D) (hst : Searched signals index st)
    (hfuel : unvisited signals st < fuel)
    (hpath : ∀ j ∈ js, ∀ k, st.visited k = .visiting → TransGen (Mentions signals) k j)
    (hsearch : ∀ j ∈ js, ∀ st, Searched signals index st → unvisited signals st < fuel →
      (∀ k, st.visited k = .visiting → TransGen (Mentions signals) k j) →
      SearchSpec signals index j st (search st j)) :
    (∃ st', js.foldlM search st = .ok st' ∧ Searched signals index st' ∧ SearchExtends st st' ∧
      ∀ j ∈ js, st'.visited j = .done) ∨
    ∃ n, js.foldlM search st = .error (.cycle n) ∧ Cyclic signals := by
  induction js generalizing st with
  | nil => exact .inl ⟨st, rfl, hst, .refl st, fun _ h => absurd h List.not_mem_nil⟩
  | cons j js ih =>
    rw [List.foldlM_cons]
    obtain ⟨st₁, hok, hst₁, hext₁, hdone₁⟩ | ⟨n, herr, hcyc⟩ :=
      hsearch j List.mem_cons_self st hst hfuel (hpath j List.mem_cons_self)
    · rw [hok]
      obtain ⟨st₂, hok₂, hst₂, hext₂, hdone₂⟩ | ⟨n, herr, hcyc⟩ :=
        ih st₁ hst₁ (Nat.lt_of_le_of_lt hext₁.unvisited_le hfuel)
          (fun k hk m hm => hpath k (List.mem_cons_of_mem _ hk) m ((hext₁.visiting m).mp hm))
          fun k hk => hsearch k (List.mem_cons_of_mem _ hk)
      · refine .inl ⟨st₂, hok₂, hst₂, hext₁.trans hext₂, ?_⟩
        intro k hk
        rcases List.mem_cons.mp hk with rfl | hk
        · exact hext₂.done hdone₁
        · exact hdone₂ k hk
      · exact .inr ⟨n, herr, hcyc⟩
    · rw [herr]
      exact .inr ⟨n, rfl, hcyc⟩

/-- **Entering a signal** keeps what holds of the finished ones. -/
theorem Searched.mark {st : InlineState D} (hst : Searched signals index st) {i : Nat}
    (hi : st.visited i = .unvisited) : Searched signals index (st.mark i .visiting) := by
  have hdone : ∀ {j}, (st.mark i .visiting).visited j = .done ↔ st.visited j = .done := by
    intro j
    by_cases hij : j = i
    · simp [hij, hi]
    · simp [hij]
  refine ⟨?_, ?_, ?_⟩
  · intro j k hj hjk
    exact hdone.mpr (hst.closed (hdone.mp hj) hjk)
  · intro j s hj hs
    exact hst.resolved (hdone.mp hj) hs
  · intro j hj
    exact hst.acyclic (hdone.mp hj)

/-- What is reachable from a finished signal is finished. -/
theorem Searched.closed_refl {st : InlineState D} (hst : Searched signals index st) {i j : Nat}
    (hi : st.visited i = .done) (h : ReflTransGen (Mentions signals) i j) :
    st.visited j = .done := by
  induction h with
  | refl => exact hi
  | tail _ hjk ih => exact hst.closed ih hjk

/-- **Leaving a signal**: what it mentions is finished, so now it is as well. -/
theorem Searched.finish (hindex : Indexes signals index) {st : InlineState D}
    (hst : Searched signals index st) {i : Nat} {s : SignalDef D} (hs : signals[i]? = some s)
    (hi : st.visited i = .visiting) (hall : ∀ j, Mentions signals i j → st.visited j = .done) :
    Searched signals index ((st.resolve i
      (inlineExpr (inlineDefs index st.resolved (collectRefs s.body)) s.body)).mark i .done) := by
  have hne : ∀ {j}, st.visited j = .done → j ≠ i := by
    rintro j hj rfl
    rw [hi] at hj
    cases hj
  refine ⟨?_, ?_, ?_⟩
  · intro j k hj hjk
    have hk : st.visited k = .done := by
      by_cases hji : j = i
      · exact hall k (hji ▸ hjk)
      · exact hst.closed (by simpa [hji] using hj) hjk
    simpa [hne hk] using hk
  · intro j t hj ht
    have hdeps : ∀ k, Mentions signals j k → st.visited k = .done := by
      intro k hjk
      by_cases hji : j = i
      · exact hall k (hji ▸ hjk)
      · exact hst.closed (by simpa [hji] using hj) hjk
    rw [← inlineDefs_congr hindex ht fun k hjk => by
      rw [InlineState.mark_resolved, InlineState.resolve_resolved, if_neg (hne (hdeps k hjk))],
      InlineState.mark_resolved, InlineState.resolve_resolved]
    by_cases hji : j = i
    · subst hji
      rw [hs] at ht
      cases ht
      rw [if_pos rfl]
    · rw [if_neg hji]
      exact hst.resolved (by simpa [hji] using hj) ht
  · intro j hj hcyc
    by_cases hji : j = i
    · subst hji
      obtain ⟨k, hjk, hrest⟩ := TransGen.head'_iff.mp hcyc
      exact hne (hst.closed_refl (hall k hjk) hrest) rfl
    · exact hst.acyclic (by simpa [hji] using hj) hcyc

/-- **The search of a signal** finishes it or finds a cycle. -/
theorem inlineDfs_spec (hindex : Indexes signals index) (order : HashOrder) (fuel i : Nat)
    (st : InlineState D) (hi : i < signals.length) (hst : Searched signals index st)
    (hfuel : unvisited signals st < fuel)
    (hpath : ∀ k, st.visited k = .visiting → TransGen (Mentions signals) k i) :
    SearchSpec signals index i st (inlineDfs order signals index fuel i st) := by
  induction fuel generalizing i st with
  | zero => exact absurd hfuel (Nat.not_lt_zero _)
  | succ fuel ih =>
    have hs : signals[i]? = some signals[i] := List.getElem?_eq_getElem hi
    generalize signals[i] = s at hs
    rw [inlineDfs, hs]
    cases hv : st.visited i with
    | done => exact .inl ⟨st, rfl, hst, .refl st, hv⟩
    | visiting => exact .inr ⟨s.name, rfl, i, hpath i hv⟩
    | unvisited =>
      -- the references, as positions
      have hmem : ∀ j, j ∈ (order.iterate i (collectRefs s.body)).filterMap index ↔
          Mentions signals i j := by
        intro j
        rw [List.mem_filterMap]
        constructor
        · rintro ⟨r, hr, hj⟩
          obtain ⟨b, hb, rfl⟩ := (hindex r j).mp hj
          exact ⟨s, b, hs, hb, (order.mem_iterate i _ _).mp hr⟩
        · rintro ⟨a, b, ha, hb, hr⟩
          rw [hs] at ha
          cases ha
          exact ⟨b.name, (order.mem_iterate i _ _).mpr hr, (hindex _ _).mpr ⟨b, hb, rfl⟩⟩
      have hpath' : ∀ j, Mentions signals i j → ∀ k, (st.mark i .visiting).visited k = .visiting →
          TransGen (Mentions signals) k j := by
        intro j hij k hk
        by_cases hki : k = i
        · exact hki ▸ .single hij
        · exact .tail (hpath k (by simpa [hki] using hk)) hij
      have hfuel' : unvisited signals (st.mark i .visiting) < fuel := by
        have := unvisited_mark hi hv
        omega
      obtain ⟨st', hok, hst', hext, hdone⟩ | ⟨n, herr, hcyc⟩ :=
        foldlM_search (fun st j => inlineDfs order signals index fuel j st)
          ((order.iterate i (collectRefs s.body)).filterMap index)
          (st.mark i .visiting) (hst.mark hv) hfuel' (fun j hj => hpath' j ((hmem j).mp hj))
          fun j hj st => ih j st ((hmem j).mp hj).lt
      · refine .inl ⟨_, by dsimp only; rw [hok]; rfl, ?_, ?_, ?_⟩
        · exact hst'.finish hindex hs ((hext.visiting i).mpr (by simp))
            fun j hij => hdone j ((hmem j).mpr hij)
        · refine ⟨?_, ?_, ?_⟩
          · intro k
            by_cases hki : k = i
            · simp [hki, hv]
            · simpa [hki] using hext.visiting k
          · intro k hk
            by_cases hki : k = i
            · simp [hki]
            · have := hext.done (i := k) (by simpa [hki] using hk)
              simpa [hki] using this
          · intro k hk
            have hki : k ≠ i := by
              rintro rfl
              rw [hv] at hk
              cases hk
            have := hext.resolved (i := k) (by simpa [hki] using hk)
            simpa [hki] using this
        · simp
      · exact .inr ⟨n, by dsimp only; rw [herr]; rfl, hcyc⟩

end Search

/-! ## The bodies that come out -/

/-- Bodies such that each is the inlining of the original over the others. -/
def Resolves (signals : List (SignalDef D)) (index : String → Option Nat)
    (resolved : Nat → Option (Expr D)) : Prop :=
  ∀ i s, signals[i]? = some s →
    resolved i = some (inlineExpr (inlineDefs index resolved (collectRefs s.body)) s.body)

/-- The output of the search. -/
def withBodies (signals : List (SignalDef D)) (resolved : Nat → Option (Expr D)) :
    List (SignalDef D) :=
  signals.mapIdx fun i s => { s with body := (resolved i).getD s.body }

/-- **Inlining** throws on a duplicate name and on a cycle, and otherwise resolves all
bodies. -/
theorem inlineSignalDependencies_cases (order : HashOrder) (signals : List (SignalDef D)) :
    (∃ n, ¬ (signals.map (·.name)).Nodup ∧
      inlineSignalDependencies order signals = .error (.duplicateName n)) ∨
    (∃ n, Cyclic signals ∧ inlineSignalDependencies order signals = .error (.cycle n)) ∨
    ((signals.map (·.name)).Nodup ∧ ¬ Cyclic signals ∧ ∃ index resolved,
      Indexes signals index ∧ Resolves signals index resolved ∧
      inlineSignalDependencies order signals = .ok (withBodies signals resolved)) := by
  have hnone : Indexes ([] : List (SignalDef D)) fun _ => none := by
    intro r j
    simp
  unfold inlineSignalDependencies
  obtain ⟨hnd, index, hok, hindex⟩ | ⟨hnd, n, herr⟩ :=
    indexSignals_spec [] signals _ hnone List.nodup_nil
  · have hinit : Searched signals index (InlineState.init : InlineState D) :=
      ⟨(nomatch ·), (nomatch ·), (nomatch ·)⟩
    have hfuel : unvisited signals (InlineState.init : InlineState D) < signals.length + 1 := by
      have := List.countP_le_length (l := List.range signals.length)
        (p := fun i => (InlineState.init : InlineState D).visited i = .unvisited)
      rw [List.length_range] at this
      exact Nat.lt_succ_of_le this
    obtain ⟨st, hst, hinv, -, hall⟩ | ⟨n, hcyc, hc⟩ :=
      foldlM_search (fun st i => inlineDfs order signals index (signals.length + 1) i st)
        (List.range signals.length) .init hinit hfuel (fun _ _ k hk => nomatch hk)
        fun j hj st => inlineDfs_spec hindex order _ j st (List.mem_range.mp hj)
    · have hdone : ∀ {i s}, signals[i]? = some s → st.visited i = .done := fun hs =>
        hall _ (List.mem_range.mpr (List.getElem?_eq_some_iff.mp hs).1)
      refine .inr (.inr ⟨hnd, ?_, index, st.resolved, hindex, ?_, ?_⟩)
      · rintro ⟨i, hi⟩
        obtain ⟨j, ⟨a, -, ha, -⟩, -⟩ := TransGen.head'_iff.mp hi
        exact hinv.acyclic (hdone ha) hi
      · intro i s hs
        exact hinv.resolved (hdone hs) hs
      · rw [List.length_nil] at hok
        simp only [hok, hst, bind, Except.bind]
        rfl
    · refine .inr (.inl ⟨n, hc, ?_⟩)
      rw [List.length_nil] at hok
      simp only [hok, hcyc, bind, Except.bind]
  · refine .inl ⟨n, hnd, ?_⟩
    rw [List.length_nil] at herr
    rw [herr]
    rfl

/-- What is behind bodies that come out. -/
theorem inlineSignalDependencies_ok {order : HashOrder} {signals out : List (SignalDef D)}
    (h : inlineSignalDependencies order signals = .ok out) :
    (signals.map (·.name)).Nodup ∧ ¬ Cyclic signals ∧ ∃ index resolved,
      Indexes signals index ∧ Resolves signals index resolved ∧
      out = withBodies signals resolved := by
  obtain ⟨n, -, herr⟩ | ⟨n, -, herr⟩ | ⟨hnd, hacyc, index, resolved, hindex, hres, hok⟩ :=
    inlineSignalDependencies_cases order signals
  · rw [herr] at h
    cases h
  · rw [herr] at h
    cases h
  · rw [hok] at h
    exact ⟨hnd, hacyc, index, resolved, hindex, hres, (Except.ok.inj h).symm⟩

/-- Without cycles, references lead down. -/
theorem mentions_wellFounded {signals : List (SignalDef D)} (h : ¬ Cyclic signals) :
    WellFounded fun j i => Mentions signals i j := by
  let below (a b : Fin signals.length) : Prop := TransGen (Mentions signals) b a
  have : IsTrans _ below := ⟨fun _ _ _ hab hbc => hbc.trans hab⟩
  have : Std.Irrefl below := ⟨fun a ha => h ⟨a, ha⟩⟩
  have hwf : WellFounded below := Finite.wellFounded_of_trans_of_irrefl below
  have hacc : ∀ a : Fin signals.length, Acc (fun j i => Mentions signals i j) a := by
    intro a
    induction a using hwf.induction with
    | _ a ih => exact ⟨_, fun j hj => ih ⟨j, hj.lt⟩ (.single hj)⟩
  refine ⟨fun i => ⟨i, fun j hj => hacc ⟨j, hj.lt⟩⟩⟩

/-- **There is one way to resolve** a program without cycles. -/
theorem Resolves.unique {signals : List (SignalDef D)} {index : String → Option Nat}
    (hindex : Indexes signals index) (hacyc : ¬ Cyclic signals)
    {resolved resolved' : Nat → Option (Expr D)} (h : Resolves signals index resolved)
    (h' : Resolves signals index resolved') {i : Nat} {s : SignalDef D}
    (hs : signals[i]? = some s) : resolved i = resolved' i := by
  induction i using (mentions_wellFounded hacyc).induction generalizing s with
  | _ i ih =>
    have hdefs : inlineDefs index resolved (collectRefs s.body) =
        inlineDefs index resolved' (collectRefs s.body) :=
      inlineDefs_congr hindex hs fun j hij => by
        obtain ⟨_, b, -, hb, -⟩ := id hij
        exact ih j hij hb
    rw [h i s hs, h' i s hs, hdefs]

/-- The positions of the names are determined. -/
theorem Indexes.unique {signals : List (SignalDef D)} {index index' : String → Option Nat}
    (h : Indexes signals index) (h' : Indexes signals index') : index = index' := by
  funext r
  exact Option.ext fun j => (h r j).trans (h' r j).symm

/-! ## Replacement of references -/

mutual

/-- All identifiers of an expression. -/
def identifiers : Expr D → List String
  | .numberLiteral _ _ => []
  | .identifierExpr _ n => [n]
  | .parameterExpr _ _ _ => []
  | .unaryOp _ _ e => identifiers e
  | .binaryOp _ _ l r => identifiers l ++ identifiers r
  | .conditional _ c t e => identifiers c ++ identifiers t ++ identifiers e
  | .functionCall _ _ args _ _ => identifiersArgs args

/-- All identifiers of an argument list. -/
def identifiersArgs : List (Expr D) → List String
  | [] => []
  | a :: as => identifiers a ++ identifiersArgs as

end

mutual

/-- The identifiers in ticker positions. -/
def tickers : Expr D → List String
  | .numberLiteral _ _ => []
  | .identifierExpr _ _ => []
  | .parameterExpr _ _ _ => []
  | .unaryOp _ _ e => tickers e
  | .binaryOp _ _ l r => tickers l ++ tickers r
  | .conditional _ c t e => tickers c ++ tickers t ++ tickers e
  | .functionCall _ n args _ _ =>
    if isTickerFirstArgFn n then tickersCall args else tickersArgs args

/-- The identifiers in ticker positions of an argument list. -/
def tickersArgs : List (Expr D) → List String
  | [] => []
  | a :: as => tickers a ++ tickersArgs as

/-- The identifiers in ticker positions where the first argument is one. -/
def tickersCall : List (Expr D) → List String
  | [] => []
  | a :: as => identifiers a ++ tickersArgs as

end

mutual

/-- What inlining is for: the references become bodies, tickers stay what they are. -/
def Expr.replaceRefs (defs : String → Option (Expr D)) : Expr D → Expr D
  | .numberLiteral loc v => .numberLiteral loc v
  | .identifierExpr loc n => (defs n).getD (.identifierExpr loc n)
  | .parameterExpr loc n i => .parameterExpr loc n i
  | .unaryOp loc k e => .unaryOp loc k (e.replaceRefs defs)
  | .binaryOp loc k l r => .binaryOp loc k (l.replaceRefs defs) (r.replaceRefs defs)
  | .conditional loc c t e =>
    .conditional loc (c.replaceRefs defs) (t.replaceRefs defs) (e.replaceRefs defs)
  | .functionCall loc n args nid sid =>
    .functionCall loc n (if isTickerFirstArgFn n then replaceRefsCall defs args
      else replaceRefsArgs defs args) nid sid

/-- `Expr.replaceRefs` on an argument list. -/
def Expr.replaceRefsArgs (defs : String → Option (Expr D)) : List (Expr D) → List (Expr D)
  | [] => []
  | a :: as => a.replaceRefs defs :: replaceRefsArgs defs as

/-- `Expr.replaceRefs` on the arguments of a market call. -/
def Expr.replaceRefsCall (defs : String → Option (Expr D)) : List (Expr D) → List (Expr D)
  | [] => []
  | a :: as => a :: replaceRefsArgs defs as

end

/-- The body of a signal. -/
def bodyOf (signals : List (SignalDef D)) (name : String) : Option (Expr D) :=
  (signals.find? fun s => s.name = name).map (·.body)

section Lists

theorem collectRefsArgs_eq (as : List (Expr D)) : collectRefsArgs as = as.flatMap collectRefs := by
  induction as with
  | nil => rfl
  | cons a as ih => rw [collectRefsArgs, ih, List.flatMap_cons]

theorem identifiersArgs_eq (as : List (Expr D)) : identifiersArgs as = as.flatMap identifiers := by
  induction as with
  | nil => rfl
  | cons a as ih => rw [identifiersArgs, ih, List.flatMap_cons]

theorem tickersArgs_eq (as : List (Expr D)) : tickersArgs as = as.flatMap tickers := by
  induction as with
  | nil => rfl
  | cons a as ih => rw [tickersArgs, ih, List.flatMap_cons]

theorem inlineArgs_eq (defs : String → Option (Expr D)) (as : List (Expr D)) :
    inlineArgs defs as = as.map (inlineExpr defs) := by
  induction as with
  | nil => rfl
  | cons a as ih => rw [inlineArgs, ih, List.map_cons]

theorem cloneArgs_eq (as : List (Expr D)) : cloneArgs as = as.map cloneExpr := by
  induction as with
  | nil => rfl
  | cons a as ih => rw [cloneArgs, ih, List.map_cons]

theorem Expr.replaceRefsArgs_eq (defs : String → Option (Expr D)) (as : List (Expr D)) :
    replaceRefsArgs defs as = as.map (·.replaceRefs defs) := by
  induction as with
  | nil => rfl
  | cons a as ih => rw [replaceRefsArgs, ih, List.map_cons]

end Lists

/-- A copy of a tree without locations and ids is that tree. -/
theorem cloneExpr_of_strip {e : Expr D} (h : e.strip = e) : cloneExpr e = e := by
  induction e using Expr.induct with
  | numberLiteral | identifierExpr | parameterExpr => rfl
  | unaryOp loc k e ih =>
    simp only [Expr.strip, Expr.unaryOp.injEq, true_and] at h
    rw [cloneExpr, ih h.2]
  | binaryOp loc k l r ihl ihr =>
    simp only [Expr.strip, Expr.binaryOp.injEq, true_and] at h
    rw [cloneExpr, ihl h.2.1, ihr h.2.2]
  | conditional loc c t e ihc iht ihe =>
    simp only [Expr.strip, Expr.conditional.injEq] at h
    rw [cloneExpr, ihc h.2.1, iht h.2.2.1, ihe h.2.2.2]
  | functionCall loc n args nid sid ih =>
    simp only [Expr.strip, Expr.functionCall.injEq, true_and, Expr.stripArgs_eq_map] at h
    obtain ⟨-, hargs, rfl, rfl⟩ := h
    have hall : ∀ a ∈ args, a.strip = a :=
      List.map_inj_left.mp (hargs.trans (List.map_id' args).symm)
    rw [cloneExpr, cloneArgs_eq, List.map_congr_left fun a ha => ih a ha (hall a ha), List.map_id']

/-- What inlining builds has no locations and no ids. -/
theorem inlineExpr_strip {defs : String → Option (Expr D)}
    (hdefs : ∀ n b, defs n = some b → b.strip = b) (e : Expr D) :
    (inlineExpr defs e).strip = inlineExpr defs e := by
  induction e using Expr.induct with
  | numberLiteral | parameterExpr => rfl
  | identifierExpr loc n =>
    rw [inlineExpr]
    cases hn : defs n with
    | none => rfl
    | some b =>
      dsimp only
      rw [cloneExpr_of_strip (hdefs n b hn), hdefs n b hn]
  | unaryOp loc k e ih => rw [inlineExpr, Expr.strip, ih]
  | binaryOp loc k l r ihl ihr => rw [inlineExpr, Expr.strip, ihl, ihr]
  | conditional loc c t e ihc iht ihe => rw [inlineExpr, Expr.strip, ihc, iht, ihe]
  | functionCall loc n args nid sid ih =>
    rw [inlineExpr, Expr.strip, Expr.stripArgs_eq_map, inlineArgs_eq, List.map_map]
    exact congrArg (Expr.functionCall {} n · (-1) (-1)) (List.map_congr_left ih)

/-- Where nothing is defined, inlining only cleans up. -/
theorem inlineExpr_of_undefined {defs : String → Option (Expr D)} (e : Expr D)
    (h : ∀ n ∈ identifiers e, defs n = none) : inlineExpr defs e = e.strip := by
  induction e using Expr.induct with
  | numberLiteral | parameterExpr => rfl
  | identifierExpr loc n => rw [inlineExpr, h n (by simp [identifiers])]; rfl
  | unaryOp loc k e ih => rw [inlineExpr, ih h, Expr.strip]
  | binaryOp loc k l r ihl ihr =>
    simp only [identifiers, List.mem_append] at h
    rw [inlineExpr, ihl fun n hn => h n (.inl hn), ihr fun n hn => h n (.inr hn), Expr.strip]
  | conditional loc c t e ihc iht ihe =>
    simp only [identifiers, List.mem_append] at h
    rw [inlineExpr, ihc fun n hn => h n (.inl (.inl hn)), iht fun n hn => h n (.inl (.inr hn)),
      ihe fun n hn => h n (.inr hn), Expr.strip]
  | functionCall loc n args nid sid ih =>
    simp only [identifiers, identifiersArgs_eq, List.mem_flatMap] at h
    rw [inlineExpr, Expr.strip, inlineArgs_eq, Expr.stripArgs_eq_map,
      List.map_congr_left fun a ha => ih a ha fun m hm => h m ⟨a, ha, hm⟩]

/-- **Inlining replaces references**, as long as it does not meet a ticker it knows. -/
theorem inlineExpr_eq_replaceRefs {defs : String → Option (Expr D)}
    (defs' : String → Option (Expr D)) (hdefs : ∀ n b, defs n = some b → b.strip = b) (e : Expr D)
    (hrefs : ∀ n ∈ collectRefs e, defs n = defs' n) (htick : ∀ n ∈ tickers e, defs n = none) :
    inlineExpr defs e = (e.replaceRefs defs').strip := by
  induction e using Expr.induct with
  | numberLiteral | parameterExpr => rfl
  | identifierExpr loc n =>
    rw [inlineExpr, Expr.replaceRefs, ← hrefs n (by simp [collectRefs])]
    cases hn : defs n with
    | none => rfl
    | some b => exact (cloneExpr_of_strip (hdefs n b hn)).trans (hdefs n b hn).symm
  | unaryOp loc k e ih => rw [inlineExpr, ih hrefs htick, Expr.replaceRefs, Expr.strip]
  | binaryOp loc k l r ihl ihr =>
    simp only [collectRefs, tickers, List.mem_append] at hrefs htick
    rw [inlineExpr, ihl (fun n hn => hrefs n (.inl hn)) fun n hn => htick n (.inl hn),
      ihr (fun n hn => hrefs n (.inr hn)) fun n hn => htick n (.inr hn), Expr.replaceRefs,
      Expr.strip]
  | conditional loc c t e ihc iht ihe =>
    simp only [collectRefs, tickers, List.mem_append] at hrefs htick
    rw [inlineExpr,
      ihc (fun n hn => hrefs n (.inl (.inl hn))) fun n hn => htick n (.inl (.inl hn)),
      iht (fun n hn => hrefs n (.inl (.inr hn))) fun n hn => htick n (.inl (.inr hn)),
      ihe (fun n hn => hrefs n (.inr hn)) fun n hn => htick n (.inr hn), Expr.replaceRefs,
      Expr.strip]
  | functionCall loc n args nid sid ih =>
    rw [inlineExpr, Expr.replaceRefs, Expr.strip, inlineArgs_eq, Expr.stripArgs_eq_map]
    rw [collectRefs] at hrefs
    rw [tickers] at htick
    congr 1
    by_cases hn : isTickerFirstArgFn n = true
    · rw [if_pos hn] at hrefs htick ⊢
      cases args with
      | nil => rfl
      | cons a as =>
        simp only [collectRefsTail, collectRefsArgs_eq, List.mem_flatMap] at hrefs
        simp only [tickersCall, tickersArgs_eq, List.mem_append, List.mem_flatMap] at htick
        rw [Expr.replaceRefsCall, Expr.replaceRefsArgs_eq, List.map_cons, List.map_cons,
          List.map_map, inlineExpr_of_undefined a fun m hm => htick m (.inl hm),
          List.map_congr_left fun b hb => ih b (List.mem_cons_of_mem _ hb)
            (fun m hm => hrefs m ⟨b, hb, hm⟩) fun m hm => htick m (.inr ⟨b, hb, hm⟩)]
        rfl
    · rw [if_neg hn] at hrefs htick ⊢
      simp only [collectRefsArgs_eq, tickersArgs_eq, List.mem_flatMap] at hrefs htick
      rw [Expr.replaceRefsArgs_eq, List.map_map, List.map_congr_left fun b hb => ih b hb
        (fun m hm => hrefs m ⟨b, hb, hm⟩) fun m hm => htick m ⟨b, hb, hm⟩]
      rfl

/-- What is built from bodies without references to signals has none. -/
theorem collectRefs_inlineExpr {defs : String → Option (Expr D)} {names : List String}
    (hdefs : ∀ n b, defs n = some b → b.strip = b ∧ ∀ m ∈ collectRefs b, m ∉ names) (e : Expr D)
    (hall : ∀ n ∈ collectRefs e, n ∈ names → defs n ≠ none) :
    ∀ m ∈ collectRefs (inlineExpr defs e), m ∉ names := by
  induction e using Expr.induct with
  | numberLiteral | parameterExpr => exact fun m hm => absurd hm List.not_mem_nil
  | identifierExpr loc n =>
    rw [inlineExpr]
    cases hn : defs n with
    | none =>
      intro m hm hname
      rw [collectRefs, List.mem_singleton] at hm
      exact hall n (by simp [collectRefs]) (hm ▸ hname) hn
    | some b =>
      dsimp only
      rw [cloneExpr_of_strip (hdefs n b hn).1]
      exact (hdefs n b hn).2
  | unaryOp loc k e ih => exact ih hall
  | binaryOp loc k l r ihl ihr =>
    simp only [collectRefs, List.mem_append] at hall
    intro m hm
    rw [inlineExpr, collectRefs, List.mem_append] at hm
    exact hm.elim (ihl (fun n hn => hall n (.inl hn)) m) (ihr (fun n hn => hall n (.inr hn)) m)
  | conditional loc c t e ihc iht ihe =>
    simp only [collectRefs, List.mem_append] at hall
    intro m hm
    rw [inlineExpr, collectRefs, List.mem_append, List.mem_append] at hm
    rcases hm with (hm | hm) | hm
    · exact ihc (fun n hn => hall n (.inl (.inl hn))) m hm
    · exact iht (fun n hn => hall n (.inl (.inr hn))) m hm
    · exact ihe (fun n hn => hall n (.inr hn)) m hm
  | functionCall loc n args nid sid ih =>
    have hargs : ∀ as : List (Expr D), (∀ a ∈ as, a ∈ args) →
        (∀ n ∈ as.flatMap collectRefs, n ∈ names → defs n ≠ none) →
        ∀ m ∈ (as.map (inlineExpr defs)).flatMap collectRefs, m ∉ names := by
      intro as has hall m hm
      obtain ⟨_, hb, hm⟩ := List.mem_flatMap.mp hm
      obtain ⟨a, ha, rfl⟩ := List.mem_map.mp hb
      exact ih a (has a ha) (fun n hn => hall n (List.mem_flatMap.mpr ⟨a, ha, hn⟩)) m hm
    rw [collectRefs] at hall
    rw [inlineExpr, collectRefs, inlineArgs_eq]
    by_cases hn : isTickerFirstArgFn n = true
    · rw [if_pos hn] at hall ⊢
      cases args with
      | nil => exact fun m hm => absurd hm List.not_mem_nil
      | cons a as =>
        rw [List.map_cons, collectRefsTail, collectRefsArgs_eq]
        rw [collectRefsTail, collectRefsArgs_eq] at hall
        exact hargs as (fun b hb => List.mem_cons_of_mem _ hb) hall
    · rw [if_neg hn, collectRefsArgs_eq] at hall ⊢
      exact hargs args (fun _ h => h) hall

section Resolved

variable {signals : List (SignalDef D)} {index : String → Option Nat}
  {resolved : Nat → Option (Expr D)}

/-- A definition is the body of a signal that is mentioned. -/
theorem inlineDefs_eq_some (hindex : Indexes signals index) {i : Nat} {s : SignalDef D}
    (hs : signals[i]? = some s) {n : String} {b : Expr D}
    (h : inlineDefs index resolved (collectRefs s.body) n = some b) :
    ∃ j, Mentions signals i j ∧ index n = some j ∧ resolved j = some b := by
  unfold inlineDefs at h
  by_cases hn : n ∈ collectRefs s.body
  · rw [if_pos hn, Option.bind_eq_some_iff] at h
    obtain ⟨j, hj, hb⟩ := h
    obtain ⟨t, ht, rfl⟩ := (hindex n j).mp hj
    exact ⟨j, ⟨s, t, hs, ht, hn⟩, hj, hb⟩
  · rw [if_neg hn] at h
    cases h

/-- A reference to a signal has a definition. -/
theorem inlineDefs_of_mem (hindex : Indexes signals index) (h : Resolves signals index resolved)
    {s : SignalDef D} {n : String} (hn : n ∈ collectRefs s.body)
    (hname : n ∈ signals.map (·.name)) :
    ∃ j t b, signals[j]? = some t ∧ t.name = n ∧ resolved j = some b ∧
      inlineDefs index resolved (collectRefs s.body) n = some b := by
  obtain ⟨t, ht, rfl⟩ := List.mem_map.mp hname
  obtain ⟨j, hj⟩ := List.mem_iff_getElem?.mp ht
  refine ⟨j, t, _, hj, rfl, h j t hj, ?_⟩
  rw [inlineDefs, if_pos hn, (hindex _ j).mpr ⟨t, hj, rfl⟩]
  exact h j t hj

/-- **The bodies are clean**: no locations, no ids, and no references to signals. -/
theorem Resolves.clean (hindex : Indexes signals index) (hacyc : ¬ Cyclic signals)
    (h : Resolves signals index resolved) {i : Nat} {s : SignalDef D} {b : Expr D}
    (hs : signals[i]? = some s) (hb : resolved i = some b) :
    b.strip = b ∧ ∀ m ∈ collectRefs b, m ∉ signals.map (·.name) := by
  induction i using (mentions_wellFounded hacyc).induction generalizing s b with
  | _ i ih =>
    have hdefs : ∀ n b, inlineDefs index resolved (collectRefs s.body) n = some b →
        b.strip = b ∧ ∀ m ∈ collectRefs b, m ∉ signals.map (·.name) := by
      intro n b hn
      obtain ⟨j, hij, -, hj⟩ := inlineDefs_eq_some hindex hs hn
      obtain ⟨_, t, -, ht, -⟩ := id hij
      exact ih j hij ht hj
    rw [h i s hs] at hb
    cases hb
    refine ⟨inlineExpr_strip (fun n b hn => (hdefs n b hn).1) _,
      collectRefs_inlineExpr hdefs _ fun n hn hname => ?_⟩
    obtain ⟨_, _, b, -, -, -, hb⟩ := inlineDefs_of_mem hindex h hn hname
    rw [hb]
    exact Option.some_ne_none b

theorem withBodies_getElem? (i : Nat) :
    (withBodies signals resolved)[i]? =
      signals[i]?.map fun s => { s with body := (resolved i).getD s.body } := by
  unfold withBodies
  exact List.getElem?_mapIdx

/-- Each body of the output is resolved. -/
theorem mem_withBodies (h : Resolves signals index resolved) {r : SignalDef D}
    (hr : r ∈ withBodies signals resolved) :
    ∃ i s, signals[i]? = some s ∧ resolved i = some r.body := by
  obtain ⟨i, hi⟩ := List.mem_iff_getElem?.mp hr
  rw [withBodies_getElem?, Option.map_eq_some_iff] at hi
  obtain ⟨s, hs, rfl⟩ := hi
  refine ⟨i, s, hs, ?_⟩
  dsimp only
  rw [h i s hs, Option.getD_some]

/-- The output maps names to the resolved bodies. -/
theorem bodyOf_withBodies (hindex : Indexes signals index) (h : Resolves signals index resolved)
    (n : String) : bodyOf (withBodies signals resolved) n = (index n).bind resolved := by
  unfold bodyOf
  cases hfind : (withBodies signals resolved).find? fun s => s.name = n with
  | some r =>
    have hname := List.find?_some hfind
    obtain ⟨j, hj⟩ := List.mem_iff_getElem?.mp (List.mem_of_find?_eq_some hfind)
    rw [withBodies_getElem?, Option.map_eq_some_iff] at hj
    obtain ⟨s, hs, rfl⟩ := hj
    rw [(hindex n j).mpr ⟨s, hs, of_decide_eq_true hname⟩]
    change some ((resolved j).getD s.body) = resolved j
    rw [h j s hs]
    rfl
  | none =>
    rw [List.find?_eq_none] at hfind
    cases hj : index n with
    | none => rfl
    | some j =>
      obtain ⟨s, hs, rfl⟩ := (hindex n j).mp hj
      have hmem : { s with body := (resolved j).getD s.body } ∈ withBodies signals resolved :=
        List.mem_of_getElem? (by rw [withBodies_getElem?, hs]; rfl)
      have hne := hfind _ hmem
      exact absurd (decide_eq_true rfl) hne

end Resolved

/-! ## Inlining is exact -/

/-- **Inlining is exact** where no ticker has the name of a signal. It throws on duplicate
names and on cycles and on nothing else; what it returns does not depend on the order of
the hash sets, has the names in their order, and has as bodies the originals with the
references replaced by the bodies returned, none of which mentions a signal. -/
theorem inlineSignalDependencies_exact (signals : List (SignalDef D))
    (htickers : ∀ s ∈ signals, ∀ n ∈ tickers s.body, n ∉ signals.map (·.name)) :
    (∀ order, (∃ err, inlineSignalDependencies order signals = .error err) ↔
      ¬ (signals.map (·.name)).Nodup ∨ Cyclic signals) ∧
    (∀ order, inlineSignalDependencies order signals ≠ .error .outOfFuel) ∧
    ∀ order out, inlineSignalDependencies order signals = .ok out →
      (∀ order', inlineSignalDependencies order' signals = .ok out) ∧
      out.length = signals.length ∧
      (∀ (i : Nat) s, signals[i]? = some s →
        out[i]? = some ⟨s.name, (s.body.replaceRefs (bodyOf out)).strip⟩) ∧
      ∀ r ∈ out, ∀ n ∈ collectRefs r.body, n ∉ signals.map (·.name) := by
  refine ⟨?_, ?_, ?_⟩
  · intro order
    obtain ⟨n, hnd, h⟩ | ⟨n, hcyc, h⟩ | ⟨hnd, hacyc, index, resolved, -, -, h⟩ :=
      inlineSignalDependencies_cases order signals
    · exact ⟨fun _ => .inl hnd, fun _ => ⟨_, h⟩⟩
    · exact ⟨fun _ => .inr hcyc, fun _ => ⟨_, h⟩⟩
    · rw [h]
      refine ⟨fun ⟨_, herr⟩ => (nomatch herr), fun hbad => ?_⟩
      rcases hbad with hbad | hbad
      · exact absurd hnd hbad
      · exact absurd hbad hacyc
  · intro order
    obtain ⟨n, -, h⟩ | ⟨n, -, h⟩ | ⟨-, -, index, resolved, -, -, h⟩ :=
      inlineSignalDependencies_cases order signals <;> rw [h] <;> exact nofun
  · intro order out hout
    obtain ⟨hnd, hacyc, index, resolved, hindex, hres, rfl⟩ := inlineSignalDependencies_ok hout
    refine ⟨?_, by simp [withBodies], ?_, ?_⟩
    · intro order'
      obtain ⟨n, hnd', h'⟩ | ⟨n, hcyc, h'⟩ | ⟨-, -, index', resolved', hindex', hres', h'⟩ :=
        inlineSignalDependencies_cases order' signals
      · exact absurd hnd hnd'
      · exact absurd hcyc hacyc
      · obtain rfl := hindex.unique hindex'
        rw [h']
        congr 1
        refine List.ext_getElem? fun i => ?_
        rw [withBodies_getElem?, withBodies_getElem?]
        cases hs : signals[i]? with
        | none => rfl
        | some s => rw [Option.map_some, Option.map_some, hres.unique hindex hacyc hres' hs]
    · intro i s hs
      have hdefs : ∀ n b, inlineDefs index resolved (collectRefs s.body) n = some b →
          b.strip = b := by
        intro n b hn
        obtain ⟨j, hij, -, hj⟩ := inlineDefs_eq_some hindex hs hn
        obtain ⟨_, t, -, ht, -⟩ := id hij
        exact (hres.clean hindex hacyc ht hj).1
      have hbody := inlineExpr_eq_replaceRefs (bodyOf (withBodies signals resolved)) hdefs
        s.body (fun n hn => by rw [inlineDefs, if_pos hn, bodyOf_withBodies hindex hres])
        fun n hn => by
          cases hd : inlineDefs index resolved (collectRefs s.body) n with
          | none => rfl
          | some b =>
            obtain ⟨j, -, hj, -⟩ := inlineDefs_eq_some hindex hs hd
            obtain ⟨t, ht, rfl⟩ := (hindex n j).mp hj
            exact absurd (List.mem_map_of_mem (List.mem_of_getElem? ht))
              (htickers s (List.mem_of_getElem? hs) _ hn)
      rw [withBodies_getElem?, hs, Option.map_some, hres i s hs, Option.getD_some, hbody]
    · intro r hr
      obtain ⟨i, s, hs, hb⟩ := mem_withBodies hres hr
      exact (hres.clean hindex hacyc hs hb).2

/-- `m = mid(A)` and `s = m + m` -/
def twiceMid : List (SignalDef (Exact ℚ)) :=
  [⟨"m", Concrete.mid "A"⟩, ⟨"s", Concrete.plus (Concrete.ident "m") (Concrete.ident "m")⟩]

/-- Iteration in the order of insertion. -/
def insertionOrder : HashOrder where
  iterate _ names := names.dedup
  mem_iterate _ _ _ := List.mem_dedup
  nodup_iterate _ names := List.nodup_dedup names

theorem inlineSignalDependencies_exact_twiceMid :
    ∃ out, inlineSignalDependencies insertionOrder twiceMid = .ok out ∧
      out[1]? = some ⟨"s", Concrete.plus (Concrete.mid "A") (Concrete.mid "A")⟩ :=
  ⟨_, rfl, ((inlineSignalDependencies_exact twiceMid (by decide)).2.2 insertionOrder _ rfl).2.2.1
    1 _ rfl⟩

/-! ## Tickers -/

/-- Whether every market call that has arguments starts with an identifier. -/
def Expr.tickersOk : Expr D → Bool
  | .numberLiteral _ _ => true
  | .identifierExpr _ _ => true
  | .parameterExpr _ _ _ => true
  | .unaryOp _ _ e => e.tickersOk
  | .binaryOp _ _ l r => l.tickersOk && r.tickersOk
  | .conditional _ c t e => c.tickersOk && t.tickersOk && e.tickersOk
  | .functionCall _ n args _ _ =>
    (!isTickerFirstArgFn n || args.head?.all fun a => a.asIdentifier.isSome) && tickersOkArgs args
where
  /-- `Expr.tickersOk` for an argument list. -/
  tickersOkArgs : List (Expr D) → Bool
    | [] => true
    | a :: as => a.tickersOk && tickersOkArgs as

theorem Expr.tickersOkArgs_iff {as : List (Expr D)} :
    tickersOk.tickersOkArgs as = true ↔ ∀ a ∈ as, a.tickersOk = true := by
  induction as with
  | nil => simp [tickersOk.tickersOkArgs]
  | cons a as ih => simp [tickersOk.tickersOkArgs, ih]

/-- `r` is a copy of `e` in which references to signals are expanded and each market call
has the ticker of the call it was copied from. -/
inductive CopiesTickers (signals : List (SignalDef D)) : Expr D → Expr D → Prop
  | numberLiteral (loc : SourceLoc) (v : D) :
    CopiesTickers signals (.numberLiteral loc v) (.numberLiteral {} v)
  /-- a reference is expanded -/
  | reference (loc : SourceLoc) {s : SignalDef D} {r : Expr D} (hs : s ∈ signals)
    (h : CopiesTickers signals s.body r) : CopiesTickers signals (.identifierExpr loc s.name) r
  /-- another identifier stays -/
  | identifierExpr (loc : SourceLoc) {n : String} (hn : n ∉ signals.map (·.name)) :
    CopiesTickers signals (.identifierExpr loc n) (.identifierExpr {} n)
  | parameterExpr (loc : SourceLoc) (n : String) (i : Int) :
    CopiesTickers signals (.parameterExpr loc n i) (.parameterExpr {} n i)
  | unaryOp (loc : SourceLoc) (k : UnaryOpKind) {e e' : Expr D} (h : CopiesTickers signals e e') :
    CopiesTickers signals (.unaryOp loc k e) (.unaryOp {} k e')
  | binaryOp (loc : SourceLoc) (k : BinaryOpKind) {l l' r r' : Expr D}
    (hl : CopiesTickers signals l l') (hr : CopiesTickers signals r r') :
    CopiesTickers signals (.binaryOp loc k l r) (.binaryOp {} k l' r')
  | conditional (loc : SourceLoc) {c c' t t' e e' : Expr D} (hc : CopiesTickers signals c c')
    (ht : CopiesTickers signals t t') (he : CopiesTickers signals e e') :
    CopiesTickers signals (.conditional loc c t e) (.conditional {} c' t' e')
  | functionCall (loc : SourceLoc) {n : String} (nid sid : Int) {args args' : List (Expr D)}
    (hn : isTickerFirstArgFn n = false)
    (hargs : List.Forall₂ (CopiesTickers signals) args args') :
    CopiesTickers signals (.functionCall loc n args nid sid) (.functionCall {} n args' (-1) (-1))
  /-- the first argument of a market call is the same identifier -/
  | marketCall (loc loc' : SourceLoc) {n : String} (nid sid : Int) (ticker : String)
    {args args' : List (Expr D)} (hn : isTickerFirstArgFn n = true)
    (hargs : List.Forall₂ (CopiesTickers signals) args args') :
    CopiesTickers signals (.functionCall loc n (.identifierExpr loc' ticker :: args) nid sid)
      (.functionCall {} n (.identifierExpr {} ticker :: args') (-1) (-1))
  | emptyCall (loc : SourceLoc) {n : String} (nid sid : Int) (hn : isTickerFirstArgFn n = true) :
    CopiesTickers signals (.functionCall loc n [] nid sid) (.functionCall {} n [] (-1) (-1))

section Tickers

variable {signals : List (SignalDef D)}

/-- Inlining keeps the tickers it does not know. -/
theorem copiesTickers_inlineExpr {defs : String → Option (Expr D)}
    (hdefs : ∀ n b, defs n = some b → b.strip = b ∧
      ∃ s ∈ signals, s.name = n ∧ CopiesTickers signals s.body b)
    (e : Expr D) (hok : e.tickersOk = true)
    (hrefs : ∀ n ∈ collectRefs e, n ∈ signals.map (·.name) → defs n ≠ none)
    (htick : ∀ n ∈ tickers e, defs n = none) : CopiesTickers signals e (inlineExpr defs e) := by
  induction e using Expr.induct with
  | numberLiteral loc v => exact .numberLiteral loc v
  | parameterExpr loc n i => exact .parameterExpr loc n i
  | identifierExpr loc n =>
    rw [inlineExpr]
    cases hn : defs n with
    | none => exact .identifierExpr loc fun hname => hrefs n (by simp [collectRefs]) hname hn
    | some b =>
      obtain ⟨hb, s, hs, rfl, hcopy⟩ := hdefs n b hn
      dsimp only
      rw [cloneExpr_of_strip hb]
      exact .reference loc hs hcopy
  | unaryOp loc k e ih => exact .unaryOp loc k (ih hok hrefs htick)
  | binaryOp loc k l r ihl ihr =>
    rw [Expr.tickersOk, Bool.and_eq_true] at hok
    simp only [collectRefs, tickers, List.mem_append] at hrefs htick
    exact .binaryOp loc k
      (ihl hok.1 (fun n hn => hrefs n (.inl hn)) fun n hn => htick n (.inl hn))
      (ihr hok.2 (fun n hn => hrefs n (.inr hn)) fun n hn => htick n (.inr hn))
  | conditional loc c t e ihc iht ihe =>
    rw [Expr.tickersOk, Bool.and_eq_true, Bool.and_eq_true] at hok
    simp only [collectRefs, tickers, List.mem_append] at hrefs htick
    exact .conditional loc
      (ihc hok.1.1 (fun n hn => hrefs n (.inl (.inl hn))) fun n hn => htick n (.inl (.inl hn)))
      (iht hok.1.2 (fun n hn => hrefs n (.inl (.inr hn))) fun n hn => htick n (.inl (.inr hn)))
      (ihe hok.2 (fun n hn => hrefs n (.inr hn)) fun n hn => htick n (.inr hn))
  | functionCall loc n args nid sid ih =>
    rw [Expr.tickersOk, Bool.and_eq_true, Expr.tickersOkArgs_iff] at hok
    obtain ⟨hhead, hall⟩ := hok
    have hargs : ∀ as : List (Expr D), (∀ a ∈ as, a ∈ args) →
        (∀ n ∈ as.flatMap collectRefs, n ∈ signals.map (·.name) → defs n ≠ none) →
        (∀ n ∈ as.flatMap tickers, defs n = none) →
        List.Forall₂ (CopiesTickers signals) as (as.map (inlineExpr defs)) := by
      intro as has hrefs htick
      rw [List.forall₂_map_right_iff, List.forall₂_same]
      intro a ha
      exact ih a (has a ha) (hall a (has a ha))
        (fun m hm => hrefs m (List.mem_flatMap.mpr ⟨a, ha, hm⟩))
        fun m hm => htick m (List.mem_flatMap.mpr ⟨a, ha, hm⟩)
    rw [collectRefs] at hrefs
    rw [tickers] at htick
    rw [inlineExpr, inlineArgs_eq]
    by_cases hn : isTickerFirstArgFn n = true
    · rw [if_pos hn] at hrefs htick
      cases args with
      | nil => exact .emptyCall loc nid sid hn
      | cons a as =>
        simp only [hn, Bool.not_true, Bool.false_or, List.head?_cons, Option.all_some] at hhead
        cases a with
        | identifierExpr loc' ticker =>
          rw [collectRefsTail, collectRefsArgs_eq] at hrefs
          rw [tickersCall, tickersArgs_eq] at htick
          have hnone : defs ticker = none := htick ticker (by simp [identifiers])
          rw [List.map_cons, inlineExpr, hnone]
          exact .marketCall loc loc' nid sid ticker hn
            (hargs as (fun b hb => List.mem_cons_of_mem _ hb) hrefs
              fun m hm => htick m (List.mem_append_right _ hm))
        | _ => cases hhead
    · rw [if_neg hn] at hrefs htick
      rw [collectRefsArgs_eq] at hrefs
      rw [tickersArgs_eq] at htick
      exact .functionCall loc nid sid (by simpa using hn) (hargs args (fun _ h => h) hrefs htick)

/-- What a copy of a call looks like. -/
theorem CopiesTickers.call_inv {loc : SourceLoc} {n : String} {args : List (Expr D)}
    {nid sid : Int} {r : Expr D}
    (h : CopiesTickers signals (.functionCall loc n args nid sid) r) :
    ∃ args', r = .functionCall {} n args' (-1) (-1) ∧
      ((isTickerFirstArgFn n = false ∧ List.Forall₂ (CopiesTickers signals) args args') ∨
      (isTickerFirstArgFn n = true ∧ args = [] ∧ args' = []) ∨
      (isTickerFirstArgFn n = true ∧ ∃ loc' ticker as as', args = .identifierExpr loc' ticker :: as ∧
        args' = .identifierExpr {} ticker :: as' ∧
        List.Forall₂ (CopiesTickers signals) as as')) := by
  cases h with
  | functionCall _ _ _ hn hargs => exact ⟨_, rfl, .inl ⟨hn, hargs⟩⟩
  | marketCall _ loc' _ _ ticker hn hargs =>
    exact ⟨_, rfl, .inr (.inr ⟨hn, loc', ticker, _, _, rfl, rfl, hargs⟩)⟩
  | emptyCall _ _ _ hn => exact ⟨_, rfl, .inr (.inl ⟨hn, rfl, rfl⟩)⟩

/-- **A ticker that is known is lost**: the body put in its place is no reference to it. -/
theorem undefined_of_copiesTickers {defs : String → Option (Expr D)}
    (hdefs : ∀ n b, defs n = some b → b.strip = b ∧ n ∉ collectRefs b) (e : Expr D)
    (h : CopiesTickers signals e (inlineExpr defs e)) : ∀ n ∈ tickers e, defs n = none := by
  induction e using Expr.induct with
  | numberLiteral | identifierExpr | parameterExpr => exact fun n hn => absurd hn List.not_mem_nil
  | unaryOp loc k e ih =>
    rw [inlineExpr] at h
    cases h with
    | unaryOp _ _ h => exact ih h
  | binaryOp loc k l r ihl ihr =>
    rw [inlineExpr] at h
    cases h with
    | binaryOp _ _ hl hr => exact fun n hn => (List.mem_append.mp hn).elim (ihl hl n) (ihr hr n)
  | conditional loc c t e ihc iht ihe =>
    rw [inlineExpr] at h
    cases h with
    | conditional _ hc ht he =>
      intro n hn
      rw [tickers, List.mem_append, List.mem_append] at hn
      rcases hn with (hn | hn) | hn
      · exact ihc hc n hn
      · exact iht ht n hn
      · exact ihe he n hn
  | functionCall loc f args nid sid ih =>
    have hall : ∀ as : List (Expr D), (∀ a ∈ as, a ∈ args) →
        List.Forall₂ (CopiesTickers signals) as (as.map (inlineExpr defs)) →
        ∀ n ∈ as.flatMap tickers, defs n = none := by
      intro as has hcopies n hn
      rw [List.forall₂_map_right_iff, List.forall₂_same] at hcopies
      obtain ⟨a, ha, hn⟩ := List.mem_flatMap.mp hn
      exact ih a (has a ha) (hcopies a ha) n hn
    rw [inlineExpr, inlineArgs_eq] at h
    obtain ⟨args', heq, ⟨hf, hargs⟩ | ⟨hf, rfl, -⟩ | ⟨hf, loc', ticker, as, as', rfl, hargs', has⟩⟩ :=
      h.call_inv
    · obtain rfl : args.map (inlineExpr defs) = args' := by
        simpa only [Expr.functionCall.injEq, true_and, and_true] using heq
      rw [tickers, if_neg (by rw [hf]; exact Bool.false_ne_true), tickersArgs_eq]
      exact hall args (fun _ h => h) hargs
    · rw [tickers, if_pos hf]
      exact fun n hn => absurd hn List.not_mem_nil
    · obtain ⟨hhead, rfl⟩ : inlineExpr defs (.identifierExpr loc' ticker) = .identifierExpr {} ticker ∧
          as.map (inlineExpr defs) = as' := by
        rw [hargs'] at heq
        simpa only [Expr.functionCall.injEq, true_and, and_true, List.map_cons,
          List.cons.injEq] using heq
      rw [tickers, if_pos hf, tickersCall, tickersArgs_eq]
      intro n hn
      rw [List.mem_append, identifiers, List.mem_singleton] at hn
      rcases hn with rfl | hn
      · cases hd : defs n with
        | none => rfl
        | some b =>
          obtain ⟨hb, hnot⟩ := hdefs n b hd
          rw [inlineExpr, hd] at hhead
          dsimp only at hhead
          rw [cloneExpr_of_strip hb] at hhead
          exact absurd (by rw [hhead]; exact List.mem_singleton.mpr rfl) hnot
      · exact hall as (fun b hb => List.mem_cons_of_mem _ hb) has n hn

/-- **Inlining keeps every ticker** exactly when no body refers, outside ticker positions,
to a signal with the name of one of its tickers. -/
theorem inlineSignalDependencies_keepsTickers (order : HashOrder) {out : List (SignalDef D)}
    (htickers : ∀ s ∈ signals, s.body.tickersOk = true)
    (hout : inlineSignalDependencies order signals = .ok out) :
    (∀ (i : Nat) s r, signals[i]? = some s → out[i]? = some r →
      CopiesTickers signals s.body r.body) ↔
    ∀ s ∈ signals, ∀ n ∈ tickers s.body, n ∈ collectRefs s.body → n ∉ signals.map (·.name) := by
  obtain ⟨-, hacyc, index, resolved, hindex, hres, rfl⟩ := inlineSignalDependencies_ok hout
  have hbody : ∀ {i : Nat} {s : SignalDef D}, signals[i]? = some s →
      (withBodies signals resolved)[i]? = some { s with
        body := inlineExpr (inlineDefs index resolved (collectRefs s.body)) s.body } := by
    intro i s hs
    rw [withBodies_getElem?, hs, Option.map_some, hres i s hs, Option.getD_some]
  constructor
  · intro hcopies s hs n htick hn hname
    obtain ⟨i, hi⟩ := List.mem_iff_getElem?.mp hs
    have hdefs : ∀ n b, inlineDefs index resolved (collectRefs s.body) n = some b →
        b.strip = b ∧ n ∉ collectRefs b := by
      intro n b hd
      obtain ⟨j, -, hj, hb⟩ := inlineDefs_eq_some hindex hi hd
      obtain ⟨t, ht, rfl⟩ := (hindex n j).mp hj
      have hclean := hres.clean hindex hacyc ht hb
      exact ⟨hclean.1, fun hmem => hclean.2 _ hmem (List.mem_map_of_mem (List.mem_of_getElem? ht))⟩
    have hnone := undefined_of_copiesTickers hdefs s.body (hcopies i s _ hi (hbody hi)) n htick
    obtain ⟨_, _, b, -, -, -, hb⟩ := inlineDefs_of_mem hindex hres hn hname
    rw [hnone] at hb
    cases hb
  · intro hfree i s r hs hr
    rw [hbody hs] at hr
    cases hr
    induction i using (mentions_wellFounded hacyc).induction generalizing s with
    | _ i ih =>
      refine copiesTickers_inlineExpr ?_ s.body (htickers s (List.mem_of_getElem? hs)) ?_ ?_
      · intro n b hd
        obtain ⟨j, hij, hj, hb⟩ := inlineDefs_eq_some hindex hs hd
        obtain ⟨t, ht, rfl⟩ := (hindex n j).mp hj
        refine ⟨(hres.clean hindex hacyc ht hb).1, t, List.mem_of_getElem? ht, rfl, ?_⟩
        rw [hres j t ht] at hb
        cases hb
        exact ih j hij t ht
      · intro n hn hname
        obtain ⟨_, _, b, -, -, -, hb⟩ := inlineDefs_of_mem hindex hres hn hname
        rw [hb]
        exact Option.some_ne_none b
      · intro n htick
        cases hd : inlineDefs index resolved (collectRefs s.body) n with
        | none => rfl
        | some b =>
          obtain ⟨j, -, hj, -⟩ := inlineDefs_eq_some hindex hs hd
          obtain ⟨t, ht, rfl⟩ := (hindex n j).mp hj
          have hn : t.name ∈ collectRefs s.body := by
            unfold inlineDefs at hd
            by_contra hnot
            rw [if_neg hnot] at hd
            cases hd
          exact absurd (List.mem_map_of_mem (List.mem_of_getElem? ht))
            (hfree s (List.mem_of_getElem? hs) _ htick hn)

end Tickers

/-! ## Tickers of parsed programs -/

/-- A body the type checker accepts has identifiers for tickers. -/
theorem tickersOk_of_typeCheck {e : Expr D} {T : StaticType} (h : typeCheckExpr e = .ok T) :
    e.tickersOk = true := by
  induction e using Expr.induct generalizing T with
  | numberLiteral | identifierExpr | parameterExpr => rfl
  | unaryOp loc k e ih => exact ih (typeCheckExpr_unaryOp.mp h).1
  | binaryOp loc k l r ihl ihr =>
    obtain ⟨hl, hr, -⟩ := typeCheckExpr_binaryOp.mp h
    rw [Expr.tickersOk, ihl hl, ihr hr]
    rfl
  | conditional loc c t e ihc iht ihe =>
    obtain ⟨hc, ht, he, -⟩ := typeCheckExpr_conditional.mp h
    rw [Expr.tickersOk, ihc hc, iht ht, ihe he]
    rfl
  | functionCall loc n args nid sid ih =>
    obtain ⟨hargs, -⟩ := typeCheckExpr_functionCall.mp h
    rw [Expr.tickersOk, Bool.and_eq_true, Expr.tickersOkArgs_iff]
    by_cases hn : isTickerFirstArgFn n = true
    · rw [if_pos hn, typeCheckTicker_ok] at hargs
      cases args with
      | nil => simp
      | cons a as =>
        have ha : a.asIdentifier ≠ none := hargs.1 a rfl
        refine ⟨by simp [Option.isSome_iff_ne_none, ha], fun b hb => ?_⟩
        rcases List.mem_cons.mp hb with rfl | hb
        · cases b with
          | identifierExpr => rfl
          | _ => exact absurd rfl ha
        · exact ih b (List.mem_cons_of_mem _ hb) (hargs.2 b hb)
    · rw [if_neg hn, typeCheckArgs_ok] at hargs
      exact ⟨by simp [hn], fun a ha => ih a ha (hargs a ha)⟩

/-- Folding leaves tickers alone. -/
theorem tickersOk_foldConstants [Fp D] {e : Expr D} (h : e.tickersOk = true) :
    (foldConstants e).tickersOk = true := by
  induction e using Expr.induct with
  | numberLiteral | identifierExpr | parameterExpr => rfl
  | unaryOp loc k e ih =>
    simp only [foldConstants]
    cases (foldConstants e).asNumber with
    | some v => rfl
    | none => exact ih h
  | binaryOp loc k l r ihl ihr =>
    rw [Expr.tickersOk, Bool.and_eq_true] at h
    have hboth : (Expr.binaryOp loc k (foldConstants l) (foldConstants r)).tickersOk = true := by
      rw [Expr.tickersOk, ihl h.1, ihr h.2]
      rfl
    simp only [foldConstants]
    cases (foldConstants l).asNumber <;> cases (foldConstants r).asNumber <;>
      first | exact hboth | rfl
  | conditional loc c t e ihc iht ihe =>
    rw [Expr.tickersOk, Bool.and_eq_true, Bool.and_eq_true] at h
    have hloc : ∀ e : Expr D, (e.withLoc loc).tickersOk = e.tickersOk := fun e => by cases e <;> rfl
    simp only [foldConstants]
    cases (foldConstants c).asNumber with
    | none =>
      dsimp only
      rw [Expr.tickersOk, ihc h.1.1, iht h.1.2, ihe h.2]
      rfl
    | some v =>
      dsimp only
      rw [hloc]
      by_cases hv : Fp.truthy v = true
      · rw [if_pos hv]
        exact iht h.1.2
      · rw [if_neg hv]
        exact ihe h.2
  | functionCall loc n args nid sid ih =>
    rw [Expr.tickersOk, Bool.and_eq_true, Expr.tickersOkArgs_iff] at h
    rw [foldConstants, foldArgs_eq_map, Expr.tickersOk, Bool.and_eq_true, Expr.tickersOkArgs_iff,
      List.forall_mem_map]
    refine ⟨?_, fun a ha => ih a ha (h.2 a ha)⟩
    cases args with
    | nil => exact h.1
    | cons a as =>
      cases a with
      | identifierExpr loc m => exact h.1
      | _ =>
        have hn : isTickerFirstArgFn n = false := by simpa [Expr.asIdentifier] using h.1
        simp [hn]

/-- Parameters are not put in place of tickers. -/
theorem tickersOk_resolveParameterRefs {paramIds : String → Option Int} {e : Expr D}
    (h : e.tickersOk = true) : (resolveParameterRefs paramIds e).tickersOk = true := by
  have hargsEq : ∀ as : List (Expr D),
      resolveParameterArgs paramIds as = as.map (resolveParameterRefs paramIds) := by
    intro as
    induction as with
    | nil => rfl
    | cons a as ih => rw [resolveParameterArgs, ih, List.map_cons]
  induction e using Expr.induct with
  | numberLiteral | parameterExpr => rfl
  | identifierExpr loc n =>
    rw [resolveParameterRefs]
    cases paramIds n <;> rfl
  | unaryOp loc k e ih => exact ih h
  | binaryOp loc k l r ihl ihr =>
    rw [Expr.tickersOk, Bool.and_eq_true] at h
    rw [resolveParameterRefs, Expr.tickersOk, ihl h.1, ihr h.2]
    rfl
  | conditional loc c t e ihc iht ihe =>
    rw [Expr.tickersOk, Bool.and_eq_true, Bool.and_eq_true] at h
    rw [resolveParameterRefs, Expr.tickersOk, ihc h.1.1, iht h.1.2, ihe h.2]
    rfl
  | functionCall loc n args nid sid ih =>
    rw [Expr.tickersOk, Bool.and_eq_true, Expr.tickersOkArgs_iff] at h
    rw [resolveParameterRefs, Expr.tickersOk, Bool.and_eq_true, Expr.tickersOkArgs_iff]
    by_cases hn : isTickerFirstArgFn n = true
    · rw [if_pos hn]
      cases args with
      | nil => exact h
      | cons a as =>
        rw [resolveParameterTail, hargsEq]
        refine ⟨h.1, fun b hb => ?_⟩
        rcases List.mem_cons.mp hb with rfl | hb
        · exact h.2 b List.mem_cons_self
        · obtain ⟨c, hc, rfl⟩ := List.mem_map.mp hb
          exact ih c (List.mem_cons_of_mem _ hc) (h.2 c (List.mem_cons_of_mem _ hc))
    · rw [if_neg hn, hargsEq]
      refine ⟨by simp [hn], fun b hb => ?_⟩
      obtain ⟨c, hc, rfl⟩ := List.mem_map.mp hb
      exact ih c hc (h.2 c hc)

/-- **What `ParseProgram` makes of an accepted body** has identifiers for tickers. -/
theorem tickersOk_parsed [Fp D] {s : SignalDef D} (h : typeCheckSignal s = .ok ())
    (paramIds : String → Option Int) :
    (resolveParameterRefs paramIds (foldConstants s.body)).tickersOk = true := by
  rw [typeCheckSignal, except_bind_ok] at h
  obtain ⟨T, hT, -⟩ := h
  exact tickersOk_resolveParameterRefs (tickersOk_foldConstants (tickersOk_of_typeCheck hT))

/-! ## A ticker with the name of a signal -/

section Collision

open Concrete

/-- `A = mid(B)` and `s = mid(A) + A` -/
def tickerAndSignal : List (SignalDef (Exact ℚ)) :=
  [⟨"A", mid "B"⟩, ⟨"s", plus (mid "A") (ident "A")⟩]

/-- `A = mid(B)` and `s = mid(A)`: no reference, no harm. -/
def tickerNamedSignal : List (SignalDef (Exact ℚ)) := [⟨"A", mid "B"⟩, ⟨"s", mid "A"⟩]

theorem inlineSignalDependencies_keepsTickers_tickerNamedSignal :
    ∃ out, inlineSignalDependencies insertionOrder tickerNamedSignal = .ok out ∧
      ∀ (i : Nat) s r, tickerNamedSignal[i]? = some s → out[i]? = some r →
        CopiesTickers tickerNamedSignal s.body r.body :=
  ⟨_, rfl, (inlineSignalDependencies_keepsTickers insertionOrder (by decide) rfl).mpr
    (by decide)⟩

/-- **A ticker can be rewritten**: `mid(A)` becomes `mid(mid(B))`. -/
theorem inlineSignalDependencies_rewritesTicker :
    (∀ s ∈ tickerAndSignal, typeCheckSignal s = .ok ()) ∧ ¬ Cyclic tickerAndSignal ∧
      inlineSignalDependencies insertionOrder tickerAndSignal =
        .ok [⟨"A", mid "B"⟩, ⟨"s", plus (app "mid" [mid "B"]) (mid "B")⟩] ∧
      ¬ CopiesTickers tickerAndSignal (plus (mid "A") (ident "A"))
        (plus (app "mid" [mid "B"]) (mid "B")) := by
  have hout : inlineSignalDependencies insertionOrder tickerAndSignal =
      .ok [⟨"A", mid "B"⟩, ⟨"s", plus (app "mid" [mid "B"]) (mid "B")⟩] := rfl
  refine ⟨by decide, (inlineSignalDependencies_ok hout).2.1, hout, ?_⟩
  · intro h
    cases h with
    | binaryOp _ _ hl _ =>
      obtain ⟨_, hargs, ⟨hn, -⟩ | ⟨-, h, -⟩ | ⟨-, _, _, _, _, -, h, -⟩⟩ := hl.call_inv
      · cases hn
      · cases h
      · cases hargs
        cases h

end Collision

end JitSignalEngine
