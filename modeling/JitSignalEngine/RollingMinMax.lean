import JitSignalEngine.Exact
import JitSignalEngine.GradientOps
import JitSignalEngine.MonotoneWindow
import JitSignalEngine.RingBuffer
import JitSignalEngine.TickRun

/-!
# Rolling minimum and maximum, with tangents

* `MonoDequeState.entries` — the list a deque stands for, and what its operations do to it.
* `RollingMinMaxState.Fits.update` — the update of `rolling_min` and `rolling_max` is that of a
  list of survivors.
* `minMax_tangent` — from the `p`-th tick on both gradient paths return the best of the last
  `p` samples together with its tangent; of several best ones, those of the latest.

The values need an order, so no sample is NaN; nothing is asked of the tangents. The tick
counters are natural numbers here, as those of the source are up to `2^64` ticks.
-/

namespace JitSignalEngine

open Fp

variable {D L : Type} [Fp D] [Fp L] [Widen D L]

/-! ## The deque as a list -/

namespace MonoDequeState

/-- The entries from the front to the back. -/
def entries (st : MonoDequeState D) : List (Nat × D) := cellsFrom st.buf st.head st.count

/-- The ring has the size it says, and its entries fit. -/
structure Ok (st : MonoDequeState D) : Prop where
  length_eq : st.buf.length = st.cap
  head_lt : st.head < st.cap
  count_le : st.count ≤ st.cap

variable {st : MonoDequeState D}

omit [Fp D] in
theorem Ok.count_le_length (h : st.Ok) : st.count ≤ st.buf.length := h.length_eq ▸ h.count_le

omit [Fp D] in
theorem Ok.length_entries (h : st.Ok) : st.entries.length = st.count :=
  length_cellsFrom h.count_le_length

theorem Ok.front (h : st.Ok) (hpos : 0 < st.count) : st.entries.head? = some st.monoFront := by
  have hhead : st.head < st.buf.length := h.length_eq.symm ▸ h.head_lt
  rw [entries, head?_cellsFrom h.count_le_length hpos hhead, monoFront, List.getD_eq_getElem?_getD,
    List.getElem?_eq_getElem hhead, Option.getD_some]

theorem Ok.back (h : st.Ok) (hpos : 0 < st.count) : st.entries.getLast? = some st.monoBack := by
  have hlt : (st.head + st.count - 1) % st.cap < st.buf.length :=
    h.length_eq.symm ▸ Nat.mod_lt _ (by have := h.head_lt; omega)
  rw [entries, getLast?_cellsFrom h.count_le_length hpos, h.length_eq, monoBack, monoTailIndex,
    List.getD_eq_getElem?_getD, List.getElem?_eq_getElem hlt, Option.getD_some]

omit [Fp D] in
theorem Ok.popFront (h : st.Ok) :
    st.monoPopFront.Ok ∧ st.monoPopFront.entries = st.entries.tail := by
  refine ⟨⟨h.length_eq, Nat.mod_lt _ (by have := h.head_lt; omega), ?_⟩, ?_⟩
  · exact (Nat.sub_le _ _).trans h.count_le
  · rw [entries, entries, ← cellsFrom_popFront h.count_le_length, h.length_eq]
    rfl

omit [Fp D] in
theorem Ok.popBack (h : st.Ok) :
    st.monoPopBack.Ok ∧ st.monoPopBack.entries = st.entries.dropLast :=
  ⟨⟨h.length_eq, h.head_lt, (Nat.sub_le _ _).trans h.count_le⟩,
    cellsFrom_popBack h.count_le_length⟩

omit [Fp D] in
theorem Ok.pushBack (h : st.Ok) (hroom : st.count < st.cap) (v : Nat × D) :
    (st.monoPushBack v).Ok ∧ (st.monoPushBack v).entries = st.entries ++ [v] := by
  refine ⟨⟨List.length_set.trans h.length_eq, h.head_lt, hroom⟩, ?_⟩
  rw [entries, entries, ← cellsFrom_push (h.length_eq.symm ▸ hroom), h.length_eq]
  rfl

/-- The back loop. By induction on the turns that are left. -/
theorem Ok.popBackWhile (pops : D → Bool) (fuel : Nat) (h : st.Ok) (hfuel : st.count ≤ fuel) :
    (st.popBackWhile pops fuel).Ok ∧ (st.popBackWhile pops fuel).cap = st.cap ∧
      (st.popBackWhile pops fuel).entries = st.entries.rdropWhile fun e => pops e.2 := by
  induction fuel generalizing st with
  | zero =>
    have hnil : st.entries = [] := List.eq_nil_of_length_eq_zero (by rw [h.length_entries]; omega)
    rw [MonoDequeState.popBackWhile, hnil]
    exact ⟨h, rfl, by simp⟩
  | succ fuel ih =>
    rw [MonoDequeState.popBackWhile]
    rcases Nat.eq_zero_or_pos st.count with hzero | hpos
    · have hnil : st.entries = [] := List.eq_nil_of_length_eq_zero (by rw [h.length_entries, hzero])
      rw [if_neg (by simp [hzero]), hnil]
      exact ⟨h, rfl, by simp⟩
    · have hsplit : st.entries = st.entries.dropLast ++ [st.monoBack] :=
        (List.dropLast_append_getLast? _ (h.back hpos)).symm
      by_cases hpops : pops st.monoBack.2 = true
      · obtain ⟨hok, hentries⟩ := h.popBack
        obtain ⟨hok', hcap, hrest⟩ := ih hok (by simp [monoPopBack]; omega)
        rw [if_pos ⟨by omega, hpops⟩]
        refine ⟨hok', hcap, ?_⟩
        rw [hrest, hentries]
        conv_rhs => rw [hsplit, List.rdropWhile_concat_pos (fun e : Nat × D => pops e.2) _ _ hpops]
      · rw [if_neg (by simp [hpops])]
        refine ⟨h, rfl, ?_⟩
        rw [hsplit, List.rdropWhile_concat_neg (fun e : Nat × D => pops e.2) _ _ hpops]

/-- The front loop. By induction on the turns that are left. -/
theorem Ok.popFrontWhile (idx period fuel : Nat) (h : st.Ok) (hfuel : st.count ≤ fuel) :
    (st.popFrontWhile idx period fuel).Ok ∧ (st.popFrontWhile idx period fuel).cap = st.cap ∧
      (st.popFrontWhile idx period fuel).entries =
        st.entries.dropWhile fun e => decide (period < idx + 1 - e.1) := by
  induction fuel generalizing st with
  | zero =>
    have hnil : st.entries = [] := List.eq_nil_of_length_eq_zero (by rw [h.length_entries]; omega)
    rw [MonoDequeState.popFrontWhile, hnil]
    exact ⟨h, rfl, by simp⟩
  | succ fuel ih =>
    rw [MonoDequeState.popFrontWhile]
    rcases Nat.eq_zero_or_pos st.count with hzero | hpos
    · have hnil : st.entries = [] := List.eq_nil_of_length_eq_zero (by rw [h.length_entries, hzero])
      rw [if_neg (by simp [hzero]), hnil]
      exact ⟨h, rfl, by simp⟩
    · have hsplit : st.entries = st.monoFront :: st.entries.tail :=
        (List.cons_head?_tail (h.front hpos)).symm
      by_cases hold : period < idx + 1 - st.monoFront.1
      · obtain ⟨hok, hentries⟩ := h.popFront
        obtain ⟨hok', hcap, hrest⟩ := ih hok (by simp [monoPopFront]; omega)
        rw [if_pos ⟨by omega, hold⟩]
        refine ⟨hok', hcap, ?_⟩
        rw [hrest, hentries]
        conv_rhs => rw [hsplit, List.dropWhile_cons_of_pos (by simpa using hold)]
      · rw [if_neg (by simp [hold])]
        refine ⟨h, rfl, ?_⟩
        rw [hsplit, List.dropWhile_cons_of_neg (by simpa using hold)]

end MonoDequeState

/-! ## The update -/

/-- A ring for windows of `p`, with room for one entry more. -/
structure RollingMinMaxState.Fits (p : Nat) (st : RollingMinMaxState D) : Prop where
  ok : st.dq.Ok
  cap_eq : st.dq.cap = p + 1
  length_le : st.dq.entries.length ≤ p

/-- A deque and its tick counter after the samples `xs`. -/
structure RollingMinMaxState.Follows (kind : MonoDequeKind) (p : Nat) (xs : List D)
    (st : RollingMinMaxState D) : Prop where
  ok : st.dq.Ok
  cap_eq : st.dq.cap = p + 1
  idx_eq : st.idx = xs.length
  survivors : Survivors kind.pops xs p st.dq.entries

variable {kind : MonoDequeKind} {p : Nat} {xs : List D} {st : RollingMinMaxState D}

/-- The ring has room for the next sample. -/
theorem RollingMinMaxState.Fits.room (h : st.Fits p) (x : D) :
    (st.dq.popBackWhile (kind.pops x) st.dq.count).count <
      (st.dq.popBackWhile (kind.pops x) st.dq.count).cap := by
  obtain ⟨hok, hcap, hentries⟩ := h.ok.popBackWhile (kind.pops x) st.dq.count le_rfl
  have hle := (List.rdropWhile_prefix (fun e : Nat × D => kind.pops x e.2) st.dq.entries).length_le
  have hfit := h.length_le
  rw [← hentries, hok.length_entries] at hle
  rw [hcap, h.cap_eq]
  omega

/-- **The update on lists.** -/
theorem RollingMinMaxState.Fits.update (h : st.Fits p) (kind : MonoDequeKind) (x : D) :
    (updateRolling kind st p x).2.dq.Ok ∧ (updateRolling kind st p x).2.dq.cap = p + 1 ∧
      (updateRolling kind st p x).2.dq.entries =
        slideSurvivors kind.pops p st.idx x st.dq.entries := by
  obtain ⟨hok, hcap, hentries⟩ := h.ok.popBackWhile (kind.pops x) st.dq.count le_rfl
  obtain ⟨hok', hentries'⟩ := hok.pushBack (h.room x) (st.idx, x)
  obtain ⟨hok'', hcap'', hentries''⟩ := hok'.popFrontWhile st.idx p _ le_rfl
  refine ⟨hok'', hcap''.trans (hcap.trans h.cap_eq), ?_⟩
  rw [slideSurvivors, ← hentries, ← hentries', ← hentries'']
  rfl

theorem RollingMinMaxState.Follows.fits (h : st.Follows kind p xs) : st.Fits p :=
  ⟨h.ok, h.cap_eq, h.survivors.length_le⟩

/-- After a sample there is an entry. -/
theorem RollingMinMaxState.Follows.count_pos (h : st.Follows kind p xs)
    (hx : Comparable kind.pops xs) (hp : 0 < p) (hne : xs ≠ []) : 0 < st.dq.count := by
  obtain ⟨e, rest, he, -⟩ := h.survivors.front hx hp hne
  rw [← h.ok.length_entries, he]
  exact Nat.succ_pos _

/-- **One sample more.** The ring has room for it, and what is read afterwards is the best of
the window. -/
theorem RollingMinMaxState.Follows.update (h : st.Follows kind p xs) (hp : 0 < p) {x : D}
    (hx : Comparable kind.pops (xs ++ [x])) :
    (updateRolling kind st p x).2.Follows kind p (xs ++ [x]) ∧
      ∃ i, (updateRolling kind st p x).2.dq.monoFront = (i, (updateRolling kind st p x).1) ∧
        (xs ++ [x])[i]? = some (updateRolling kind st p x).1 ∧
        BestOfWindow kind.pops (xs ++ [x]) p i := by
  obtain ⟨hok, hcap, hentries⟩ := h.fits.update kind x
  have hsurvivors := h.survivors.slide hp hx
  rw [← h.idx_eq, ← hentries] at hsurvivors
  have hfollows : (updateRolling kind st p x).2.Follows kind p (xs ++ [x]) :=
    ⟨hok, hcap, by simp [updateRolling, h.idx_eq], hsurvivors⟩
  refine ⟨hfollows, ?_⟩
  obtain ⟨e, rest, he, hvalue, hbest⟩ := hsurvivors.front hx hp (by simp)
  have hfront := hfollows.ok.front (hfollows.count_pos hx hp (by simp))
  have hhead : (updateRolling kind st p x).2.dq.entries.head? = some e := by
    rw [show (updateRolling kind st p x).2.dq.entries = e :: rest from he]
    rfl
  rw [hhead] at hfront
  have hout : (updateRolling kind st p x).1 = e.2 := by
    rw [Option.some.inj hfront]
    rfl
  exact ⟨e.1, by rw [hout, ← Option.some.inj hfront], by rw [hout]; exact hvalue, hbest⟩

/-! ## The tangents -/

/-- The states a gradient path works on. -/
def GradSlots.minMax (kind : MonoDequeKind) (slots : GradSlots D L) :
    WithTangent (RollingMinMaxState D) (LagState D) :=
  match kind with
  | .min => ⟨slots.primal.rollingMin, slots.grad.rollingMin⟩
  | .max => ⟨slots.primal.rollingMax, slots.grad.rollingMax⟩

/-- The slots with those states replaced. -/
def GradSlots.setMinMax (kind : MonoDequeKind) (slots : GradSlots D L)
    (st : WithTangent (RollingMinMaxState D) (LagState D)) : GradSlots D L :=
  match kind with
  | .min => ⟨{ slots.primal with rollingMin := st.primal }, { slots.grad with rollingMin := st.grad }⟩
  | .max => ⟨{ slots.primal with rollingMax := st.primal }, { slots.grad with rollingMax := st.grad }⟩

omit [Fp D] [Fp L] [Widen D L] in
@[simp] theorem GradSlots.minMax_setMinMax (kind : MonoDequeKind) (slots : GradSlots D L)
    (st : WithTangent (RollingMinMaxState D) (LagState D)) :
    (slots.setMinMax kind st).minMax kind = st := by cases kind <;> rfl

/-- The four functions. -/
def rollingMinMaxGrad (path : GradientPath) (kind : MonoDequeKind) (slots : GradSlots D L)
    (x : ValueGradient D) (period : Nat) : Except String (ValueGradient D × GradSlots D L) :=
  match path, kind with
  | .helper, .min => jitRtRollingMinGrad slots x period
  | .helper, .max => jitRtRollingMaxGrad slots x period
  | .forward, .min => .ok (forwardRollingMin slots x period)
  | .forward, .max => .ok (forwardRollingMax slots x period)

/-- The outputs over a stream, and the slots after it. -/
def rollingMinMaxGradRun (path : GradientPath) (kind : MonoDequeKind) (period : Nat)
    (slots : GradSlots D L) (xs : List (ValueGradient D)) :
    Except String (List (ValueGradient D) × GradSlots D L) :=
  runTicks (fun slots x => rollingMinMaxGrad path kind slots x period) slots xs

/-- The states after the samples `ps`. -/
structure GradSlots.FollowsMinMax (kind : MonoDequeKind) (p : Nat) (ps : List (ValueGradient D))
    (slots : GradSlots D L) : Prop where
  primal : (slots.minMax kind).primal.Follows kind p (ps.map ValueGradient.value)
  capacity : ((slots.minMax kind).grad.sized p).capacity = p
  ring : HoldsWindow p (ps.map ValueGradient.gradient) ((slots.minMax kind).grad.sized p).buffer

variable {slots : GradSlots D L} {ps : List (ValueGradient D)} (path : GradientPath)

omit [Fp L] [Widen D L] in
/-- On a prewarmed deque all four functions update, and then look the tangent up. -/
theorem rollingMinMaxGrad_eq (hcap : (slots.minMax kind).primal.dq.cap = p + 1)
    (x : ValueGradient D) {out : D × RollingMinMaxState D}
    (hout : updateRolling kind (slots.minMax kind).primal p x.value = out)
    {v : ValueGradient D} {ring : LagState D}
    (hstep : minMaxGradStep (slots.minMax kind).grad p (slots.minMax kind).primal.idx x.gradient
      out = (v, ring)) :
    rollingMinMaxGrad path kind slots x p = .ok (v, slots.setMinMax kind ⟨out.2, ring⟩) := by
  have hprepared : updateRollingPrepared kind (slots.minMax kind).primal x.value = .ok out := by
    rw [updateRollingPrepared.eq_def, if_neg (by omega), hcap, Nat.add_sub_cancel, hout]
  have hinit : updateRollingInit kind (slots.minMax kind).primal p x.value = out := by
    rw [updateRollingInit, MonoDequeState.monoInit, if_pos hcap, hout]
  cases kind <;> cases path <;> simp only [GradSlots.minMax] at hprepared hinit hstep
  case min.helper =>
    simp only [rollingMinMaxGrad, jitRtRollingMinGrad, hprepared, bind, Except.bind, hstep]
    rfl
  case max.helper =>
    simp only [rollingMinMaxGrad, jitRtRollingMaxGrad, hprepared, bind, Except.bind, hstep]
    rfl
  case min.forward =>
    simp only [rollingMinMaxGrad, forwardRollingMin, hinit, hstep]
    rfl
  case max.forward =>
    simp only [rollingMinMaxGrad, forwardRollingMax, hinit, hstep]
    rfl

omit [Fp L] [Widen D L] in
@[simp] theorem minMaxGradStep_snd (ring : LagState D) (before : Nat) (xGrad : D)
    (out : D × RollingMinMaxState D) :
    (minMaxGradStep ring p before xGrad out).2 =
      minMaxGradWrite ring p before out.2.idx xGrad := by
  simp only [minMaxGradStep]
  split <;> rfl

omit [Fp L] [Widen D L] in
/-- The write of a tangent. -/
theorem minMaxGradWrite_sized (ring : LagState D) (hcap : (ring.sized p).capacity = p) (hp : 0 < p)
    (before idx : Nat) (xGrad : D) :
    ((minMaxGradWrite ring p before idx xGrad).sized p).capacity = p ∧
      (minMaxGradWrite ring p before idx xGrad).sized p =
        minMaxGradWrite ring p before idx xGrad ∧
      (minMaxGradWrite ring p before idx xGrad).buffer =
        (ring.sized p).buffer.set (before % p) xGrad := by
  have hwrite : minMaxGradWrite ring p before idx xGrad = { ring.sized p with
      count := if (ring.sized p).count < p then (ring.sized p).count + 1 else (ring.sized p).count
      buffer := (ring.sized p).buffer.set (before % p) xGrad
      head := idx % p } := by
    simp only [minMaxGradWrite, hcap, if_pos hp]
  have hsized : (minMaxGradWrite ring p before idx xGrad).sized p =
      minMaxGradWrite ring p before idx xGrad := by
    rw [hwrite, LagState.sized, if_pos hcap]
  refine ⟨?_, hsized, by rw [hwrite]⟩
  rw [hsized, hwrite]
  exact hcap

omit [Fp L] [Widen D L] in
/-- **One tick.** Before the window is full the output is not a number, then it is the sample
at a best position. -/
theorem GradSlots.FollowsMinMax.tick (h : slots.FollowsMinMax kind p ps) (hp : 0 < p)
    (x : ValueGradient D) (hx : Comparable kind.pops ((ps ++ [x]).map ValueGradient.value)) :
    ∃ v slots', rollingMinMaxGrad path kind slots x p = .ok (v, slots') ∧
      slots'.FollowsMinMax kind p (ps ++ [x]) ∧
      (p ≤ ps.length + 1 → ∃ i, BestOfWindow kind.pops ((ps ++ [x]).map ValueGradient.value) p i ∧
        (ps ++ [x])[i]? = some v) := by
  rw [List.map_append] at hx
  obtain ⟨hfollows, i, hfront, hvalue, hbest⟩ := h.primal.update hp hx
  have hidx : (slots.minMax kind).primal.idx = ps.length := by
    rw [h.primal.idx_eq, List.length_map]
  have hidx' : (updateRolling kind (slots.minMax kind).primal p x.value).2.idx = ps.length + 1 := by
    rw [hfollows.idx_eq]
    simp
  have hring := h.ring.push x.gradient hp
  rw [List.length_map] at hring
  obtain ⟨hcap, hsized, hbuf⟩ := minMaxGradWrite_sized (slots.minMax kind).grad h.capacity hp
    (slots.minMax kind).primal.idx
    (updateRolling kind (slots.minMax kind).primal p x.value).2.idx x.gradient
  have hring : HoldsWindow p ((ps ++ [x]).map ValueGradient.gradient)
      (minMaxGradWrite (slots.minMax kind).grad p (slots.minMax kind).primal.idx
        (updateRolling kind (slots.minMax kind).primal p x.value).2.idx x.gradient).buffer := by
    rw [hbuf, hidx, List.map_append]
    simpa using h.ring.push x.gradient hp
  refine ⟨_, _, rollingMinMaxGrad_eq path h.primal.cap_eq x rfl Prod.mk.eta.symm, ⟨?_, ?_, ?_⟩,
    fun hfull => ?_⟩
  · simpa using hfollows
  · simpa using hcap
  · simpa [hsized] using hring
  · refine ⟨i, by simpa using hbest, ?_⟩
    have hin : i < (ps ++ [x]).length ∧ (ps ++ [x]).length ≤ i + p := by
      simpa [InWindow] using hbest.inWindow
    have hcell := hring.cell i (by simpa using hin.1) (by simpa using hin.2)
    rw [List.getElem?_map, List.getElem?_eq_getElem hin.1] at hcell
    rw [← List.map_singleton, ← List.map_append, List.getElem?_map,
      List.getElem?_eq_getElem hin.1] at hvalue
    simp only [minMaxGradStep, hfront]
    rw [if_neg (by omega), List.getD_eq_getElem?_getD, hcell, List.getElem?_eq_getElem hin.1,
      ← Option.some.inj hvalue]
    rfl

/-! ## Whole streams -/

omit [Fp L] [Widen D L] in
/-- The run from where some samples have been seen. By induction on those to come. -/
theorem GradSlots.FollowsMinMax.run (h : slots.FollowsMinMax kind p ps) (hp : 0 < p)
    (xs : List (ValueGradient D))
    (hx : Comparable kind.pops ((ps ++ xs).map ValueGradient.value)) :
    ∃ vs slots', rollingMinMaxGradRun path kind p slots xs = .ok (vs, slots') ∧
      vs.length = xs.length ∧
      ∀ k < xs.length, p ≤ ps.length + k + 1 → ∃ i,
        BestOfWindow kind.pops (((ps ++ xs).take (ps.length + k + 1)).map ValueGradient.value) p i ∧
        vs[k]? = (ps ++ xs)[i]? := by
  induction xs generalizing ps slots with
  | nil => exact ⟨[], slots, rfl, rfl, fun k hk => absurd hk (Nat.not_lt_zero k)⟩
  | cons x xs ih =>
    have hsplit : ps ++ x :: xs = (ps ++ [x]) ++ xs := by simp
    rw [hsplit] at hx ⊢
    obtain ⟨v, slots', hv, hnext, hbest⟩ := h.tick path hp x
      (hx.of_subset (List.map_subset _ (List.subset_append_left _ _)))
    obtain ⟨vs, last, hvs, hlength, hall⟩ := ih hnext hx
    refine ⟨v :: vs, last, ?_, by simp [hlength], fun k hk hfull => ?_⟩
    · exact runTicks_cons hv hvs
    · rcases k with _ | k
      · obtain ⟨i, hi, hout⟩ := hbest (by omega)
        have hlt : i < (ps ++ [x]).length := by simpa [InWindow] using hi.inWindow.1
        refine ⟨i, ?_, ?_⟩
        · rwa [List.take_append_of_le_length (by simp), List.take_of_length_le (by simp)]
        · rw [List.getElem?_append_left hlt, hout]
          rfl
      · have hcount : (ps ++ [x]).length + k + 1 = ps.length + (k + 1) + 1 := by simp; omega
        have hrest := hall k (by simpa using hk) (by omega)
        rwa [hcount] at hrest

omit [Fp L] [Widen D L] in
/-- Both kinds of comparison are as good as `<=`. -/
theorem comparable_pops {xs : List D} (h : Comparable le xs) : Comparable kind.pops xs := by
  cases kind with
  | min => exact h
  | max =>
    exact ⟨fun x hx y hy => h.total y hy x hx,
      fun x hx y hy z hz hxy hyz => h.trans z hz y hy x hx hyz hxy⟩

/-- The operator of a kind of deque. -/
def MonoDequeKind.fn : MonoDequeKind → StatefulFn
  | .min => .rollingMin
  | .max => .rollingMax

omit [Fp L] [Widen D L] in
/-- A deque `MonoInit` set up. -/
theorem RollingMinMaxState.follows_nil (kind : MonoDequeKind) (p : Nat) :
    (⟨MonoDequeState.init.monoInit p, 0⟩ : RollingMinMaxState D).Follows kind p [] := by
  have hdeque : (MonoDequeState.init : MonoDequeState D).monoInit p =
      ⟨List.replicate (p + 1) (0, ofNat 0), 0, 0, p + 1⟩ := if_neg (Nat.succ_ne_zero p).symm
  rw [hdeque]
  refine ⟨⟨by simp, by simp, by simp⟩, rfl, rfl, ?_⟩
  simpa [MonoDequeState.entries, cellsFrom] using survivors_nil kind.pops p

omit [Widen D L] in
theorem followsMinMax_nil (kind : MonoDequeKind) (hp : 0 < p) {literal : Option D}
    (hperiod : parsePreparedPeriod literal = p) :
    GradSlots.FollowsMinMax kind p []
      (⟨NodeSlot.empty.prewarm kind.fn literal, .empty⟩ : GradSlots D L) := by
  have hfollows := RollingMinMaxState.follows_nil (D := D) kind p
  have hring : HoldsWindow p ([] : List D) (LagState.reset p).buffer := by
    simpa [LagState.reset] using HoldsWindow.empty (List.replicate p (ofNat 0 : D))
  have hsized : (LagState.init : LagState D).sized p = .reset p := if_neg (by simp [LagState.init]; omega)
  cases kind
  case min =>
    refine ⟨?_, ?_, ?_⟩
    · simpa [GradSlots.minMax, NodeSlot.prewarm, MonoDequeKind.fn, hperiod, hp, NodeSlot.empty,
        RollingMinMaxState.init] using hfollows
    · simp [GradSlots.minMax, SensitivitySlot.empty, hsized, LagState.reset]
    · simpa [GradSlots.minMax, SensitivitySlot.empty, hsized] using hring
  case max =>
    refine ⟨?_, ?_, ?_⟩
    · simpa [GradSlots.minMax, NodeSlot.prewarm, MonoDequeKind.fn, hperiod, hp, NodeSlot.empty,
        RollingMinMaxState.init] using hfollows
    · simp [GradSlots.minMax, SensitivitySlot.empty, hsized, LagState.reset]
    · simpa [GradSlots.minMax, SensitivitySlot.empty, hsized] using hring

omit [Widen D L] in
/-- **The gradient selects the active sample.** From a new context prewarmed with the period
`p`, on samples among which `<=` is an order, all four gradient functions return from the `p`-th
tick on the sample, with its tangent, at the last position of the window that holds its
minimum or maximum. -/
theorem minMax_tangent (path : GradientPath) (kind : MonoDequeKind) (p : Nat) (hp : 1 ≤ p)
    (literal : Option D) (hperiod : parsePreparedPeriod literal = p)
    (ps : List (ValueGradient D)) (hps : Comparable le (ps.map ValueGradient.value)) :
    ∃ outs slots', rollingMinMaxGradRun path kind p
        (⟨NodeSlot.empty.prewarm kind.fn literal, .empty⟩ : GradSlots D L) ps = .ok (outs, slots') ∧
      outs.length = ps.length ∧
      ∀ k < ps.length, p ≤ k + 1 → ∃ i,
        BestOfWindow kind.pops ((ps.take (k + 1)).map ValueGradient.value) p i ∧
        outs[k]? = ps[i]? := by
  obtain ⟨outs, slots', hrun, hlength, hall⟩ :=
    (followsMinMax_nil (L := L) kind hp hperiod).run path hp ps
      (comparable_pops hps)
  exact ⟨outs, slots', hrun, hlength, by simpa using hall⟩

/-- Numbers are comparable. -/
theorem comparable_val {K : Type} [Field K] [LinearOrder K] [Transcendental K]
    (xs : List K) : Comparable le (xs.map Exact.val) := by
  constructor
  case total =>
    intro x hx y hy
    obtain ⟨a, -, rfl⟩ := List.mem_map.1 hx
    obtain ⟨b, -, rfl⟩ := List.mem_map.1 hy
    simpa using le_total a b
  case trans =>
    intro x hx y hy z hz
    obtain ⟨a, -, rfl⟩ := List.mem_map.1 hx
    obtain ⟨b, -, rfl⟩ := List.mem_map.1 hy
    obtain ⟨c, -, rfl⟩ := List.mem_map.1 hz
    simpa using le_trans

/-- A window of two that ends in a tie. -/
def tied : List (ValueGradient (Exact ℚ)) :=
  [⟨.val 3, .val 1⟩, ⟨.val 1, .val 2⟩, ⟨.val 1, .val 3⟩]

theorem minMax_tangent_tied : ∃ outs slots', rollingMinMaxGradRun .helper .min 2
      (⟨NodeSlot.empty.prewarm (MonoDequeKind.fn .min) (some (.val 2)), .empty⟩ :
        GradSlots (Exact ℚ) (Exact ℚ)) tied = .ok (outs, slots') ∧
      outs.length = tied.length ∧
      ∀ k < tied.length, 2 ≤ k + 1 → ∃ i,
        BestOfWindow (MonoDequeKind.pops .min) ((tied.take (k + 1)).map ValueGradient.value) 2 i ∧
        outs[k]? = tied[i]? := by
  have hperiod : parsePreparedPeriod (some (.val 2) : Option (Exact ℚ)) = 2 := by decide +kernel
  have hps : Comparable le (tied.map ValueGradient.value) := comparable_val [3, 1, 1]
  exact minMax_tangent .helper .min 2 (by decide) _ hperiod tied hps

end JitSignalEngine
