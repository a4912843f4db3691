import Mathlib.Data.List.Forall2
import Mathlib.Data.List.Induction

/-!
# Runs of a step over a stream

A step takes a state and an input to an output and the next state, or fails. `runTicks` is its
run over a list of inputs.

* `runTicks_lockstep` — two steps that keep a relation of their states over one input keep it
  over a stream, and what holds of their outputs holds at every tick.
* `runValues_agree` — two steps that return the same as long as they are in related states.
* `runTicks_history`, `runValues_history`, `foldlM_history` — an invariant of the state and the
  inputs so far is kept over a stream.
-/

namespace JitSignalEngine

variable {ε S T I O P : Type}

/-- The outputs over a stream, and the state after it. -/
def runTicks (step : S → I → Except ε (O × S)) : S → List I → Except ε (List O × S)
  | s, [] => .ok ([], s)
  | s, i :: is => do
    let (o, s) ← step s i
    let (os, s) ← runTicks step s is
    .ok (o :: os, s)

theorem runTicks_cons {step : S → I → Except ε (O × S)} {s s' s'' : S} {i : I} {is : List I}
    {o : O} {os : List O} (h : step s i = .ok (o, s')) (hs : runTicks step s' is = .ok (os, s'')) :
    runTicks step s (i :: is) = .ok (o :: os, s'') := by
  rw [runTicks, h]
  simp only [bind, Except.bind, hs]

/-- The outputs alone. -/
def runValues (step : S → I → Except ε (O × S)) (s : S) (is : List I) : Except ε (List O) :=
  (runTicks step s is).map Prod.fst

theorem runValues_cons {step : S → I → Except ε (O × S)} {s s' : S} {i : I} {o : O}
    (h : step s i = .ok (o, s')) (is : List I) :
    runValues step s (i :: is) = (runValues step s' is).map (o :: ·) := by
  rw [runValues, runTicks, h]
  simp only [bind, Except.bind, runValues]
  cases runTicks step s' is <;> rfl

theorem runValues_congr {step step' : S → I → Except ε (O × S)} {is : List I}
    (h : ∀ i ∈ is, ∀ s, step s i = step' s i) (s : S) :
    runValues step s is = runValues step' s is := by
  have hruns : runTicks step s is = runTicks step' s is := by
    induction is generalizing s with
    | nil => rfl
    | cons i is ih =>
      have hrest := fun s' => ih (fun j hj => h j (List.mem_cons_of_mem _ hj)) s'
      simp only [runTicks, h i List.mem_cons_self, hrest]
  rw [runValues, hruns, runValues]

/-- **Lockstep.** By induction on the stream. -/
theorem runTicks_lockstep {A B C : Type} {step : S → A → Except ε (O × S)}
    {step' : T → B → Except ε (P × T)} {f : C → A} {g : C → B} {R : S → T → Prop}
    {Q : O → P → Prop} {cs : List C}
    (hstep : ∀ c ∈ cs, ∀ s t, R s t → ∃ o s' p t', step s (f c) = .ok (o, s') ∧
      step' t (g c) = .ok (p, t') ∧ Q o p ∧ R s' t')
    {s : S} {t : T} (hst : R s t) :
    ∃ os s' ps t', runTicks step s (cs.map f) = .ok (os, s') ∧
      runTicks step' t (cs.map g) = .ok (ps, t') ∧ List.Forall₂ Q os ps ∧
      os.length = cs.length := by
  induction cs generalizing s t with
  | nil => exact ⟨[], s, [], t, rfl, rfl, .nil, rfl⟩
  | cons c cs ih =>
    obtain ⟨o, s', p, t', ho, hp, hop, hnext⟩ := hstep c List.mem_cons_self s t hst
    obtain ⟨os, s'', ps, t'', hos, hps, hall, hlength⟩ :=
      ih (fun c hc => hstep c (List.mem_cons_of_mem _ hc)) hnext
    exact ⟨o :: os, s'', p :: ps, t'', runTicks_cons ho hos, runTicks_cons hp hps, .cons hop hall,
      by simp [hlength]⟩

/-- **Histories.** A step that keeps an invariant of its state and the inputs so far keeps it over
a stream, and what it establishes of its output holds at every tick of the inputs up to there. -/
theorem runTicks_history {step : S → I → Except ε (O × S)} {Inv : List I → S → Prop}
    {Out : List I → O → Prop}
    (hstep : ∀ is s i, Inv is s →
      ∃ o s', step s i = .ok (o, s') ∧ Inv (is ++ [i]) s' ∧ Out (is ++ [i]) o)
    {is : List I} {s : S} (hs : Inv is s) (js : List I) :
    ∃ os s', runTicks step s js = .ok (os, s') ∧ Inv (is ++ js) s' ∧ os.length = js.length ∧
      ∀ k < js.length, ∃ o, os[k]? = some o ∧ Out (is ++ js.take (k + 1)) o := by
  induction js generalizing is s with
  | nil => exact ⟨[], s, rfl, by rwa [List.append_nil], rfl, fun k hk => absurd hk (by simp)⟩
  | cons j js ih =>
    obtain ⟨o, s', ho, hs', hout⟩ := hstep is s j hs
    obtain ⟨os, s'', hos, hs'', hlength, hall⟩ := ih hs'
    rw [List.append_assoc] at hs''
    refine ⟨o :: os, s'', runTicks_cons ho hos, hs'', by simp [hlength], fun k hk => ?_⟩
    cases k with
    | zero => exact ⟨o, rfl, by simpa using hout⟩
    | succ k =>
      obtain ⟨o', ho', hout'⟩ := hall k (by simpa using hk)
      exact ⟨o', by simpa using ho', by simpa using hout'⟩

/-- **Agreement.** Two steps that return the same at every tick, under a relation of the states and
the inputs so far. By induction on what is left of the stream. -/
theorem runValues_agree {step : S → I → Except ε (O × S)} {step' : T → I → Except ε (O × T)}
    {R : List I → S → T → Prop} {is : List I}
    (hstep : ∀ js i s t, js ++ [i] <+: is → R js s t →
      ∃ o s' t', step s i = .ok (o, s') ∧ step' t i = .ok (o, t') ∧ R (js ++ [i]) s' t')
    {s : S} {t : T} (hst : R [] s t) :
    ∃ os, runValues step s is = .ok os ∧ runValues step' t is = .ok os := by
  have hrest : ∀ rest js s t, js ++ rest = is → R js s t →
      ∃ os, runValues step s rest = .ok os ∧ runValues step' t rest = .ok os := by
    intro rest
    induction rest with
    | nil => exact fun _ _ _ _ _ => ⟨[], rfl, rfl⟩
    | cons i rest ih =>
      intro js s t hjs hst
      have hsplit : (js ++ [i]) ++ rest = is := by rw [← hjs, List.append_assoc, List.singleton_append]
      obtain ⟨o, s', t', hs, ht, hnext⟩ := hstep js i s t ⟨rest, hsplit⟩ hst
      obtain ⟨os, hos, hos'⟩ := ih (js ++ [i]) s' t' hsplit hnext
      refine ⟨o :: os, ?_, ?_⟩
      · rw [runValues_cons hs, hos]
        rfl
      · rw [runValues_cons ht, hos']
        rfl
  exact hrest is [] s t rfl hst

/-- A function of the inputs so far, at every tick. -/
def prefixValues (f : List I → O) (is : List I) : List O :=
  (List.range is.length).map fun t => f (is.take (t + 1))

theorem prefixValues_eq_iff {f g : List I → O} {is : List I} :
    prefixValues f is = prefixValues g is ↔
      ∀ t < is.length, f (is.take (t + 1)) = g (is.take (t + 1)) := by
  rw [prefixValues, prefixValues, List.map_inj_left]
  simp only [List.mem_range]

/-- A step whose output is a function of the inputs so far. -/
theorem runValues_history {step : S → I → Except ε (O × S)} {Inv : List I → S → Prop}
    {f : List I → O}
    (hstep : ∀ is s i, Inv is s → ∃ s', step s i = .ok (f (is ++ [i]), s') ∧ Inv (is ++ [i]) s')
    {s : S} (hs : Inv [] s) (is : List I) : runValues step s is = .ok (prefixValues f is) := by
  have hout : ∀ is s i, Inv is s → ∃ o s', step s i = .ok (o, s') ∧ Inv (is ++ [i]) s' ∧
      o = f (is ++ [i]) := by
    intro is s i hs
    obtain ⟨s', hs', hnext⟩ := hstep is s i hs
    exact ⟨_, s', hs', hnext, rfl⟩
  obtain ⟨os, s', hrun, -, hlength, hall⟩ :=
    @runTicks_history ε S I O step Inv (fun is o => o = f is) hout [] s hs is
  have hos : os = prefixValues f is := by
    refine List.ext_getElem? fun t => ?_
    rcases Nat.lt_or_ge t is.length with ht | ht
    · obtain ⟨o, ho, rfl⟩ := hall t ht
      rw [ho, prefixValues, List.getElem?_map, List.getElem?_range ht, List.nil_append]
      rfl
    · rw [List.getElem?_eq_none (hlength ▸ ht), List.getElem?_eq_none (by simpa [prefixValues] using ht)]
  rw [runValues, hrun, ← hos]
  rfl

/-- **Histories of a state.** The same for a step without outputs, along the prefixes of one
stream. By induction on it from the right. -/
theorem foldlM_history {step : S → I → Except ε S} {motive : List I → S → Prop} {js : List I}
    (hstep : ∀ is i s, is ++ [i] <+: js → motive is s → ∃ s', step s i = .ok s' ∧ motive (is ++ [i]) s')
    {s : S} (hs : motive [] s) : ∃ s', js.foldlM step s = .ok s' ∧ motive js s' := by
  induction js using List.reverseRecOn with
  | nil => exact ⟨s, rfl, hs⟩
  | append_singleton js j ih =>
    obtain ⟨s', hrun, hs'⟩ := ih fun is i s hbefore =>
      hstep is i s (hbefore.trans (List.prefix_append js [j]))
    obtain ⟨s'', hlast, hs''⟩ := hstep js j s' (List.prefix_refl _) hs'
    refine ⟨s'', ?_, hs''⟩
    rw [List.foldlM_append, hrun]
    simp only [List.foldlM_cons, List.foldlM_nil, bind, Except.bind, hlast]
    rfl

end JitSignalEngine
