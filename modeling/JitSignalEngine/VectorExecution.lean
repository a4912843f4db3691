import JitSignalEngine.Execution

/-!
# Running vectorized programs

A vectorized program evaluates its signals for several symbols in one call: every `double` is a
vector with one lane a symbol. What works on values works on all lanes at once. Parameters and
stateful operators are fanned out: one lane after the other looks up the context of its symbol in
the arena and makes a scalar call.

* `VectorFrame` — the state of one call of the compiled function.
* `fanOut` — `EmitScalarizedFanOut`.
* `Instr.execLanes`, `runVectorProgram` — one instruction, one call.
* `vectorArenaAt`, `vectorOutputsAt` — a run.
* `Lanes` — a frame, and what its lanes are.
* `Lanes.run` — a call is one of every lane.
* `vectorArenaAt_of_lanes`, `vectorOutputsAt_of_lanes` — and so is a run.

Lane numbers are added to the base symbol in 32 bits.
-/

namespace JitSignalEngine

open Fp Widen

variable {D L S : Type}

/-! ## One call -/

/-- The state of a call of a vectorized function. -/
structure VectorFrame (D S : Type) where
  /-- the results of instructions, by lane -/
  regs : Nat → Nat → D
  /-- the contexts of the symbols -/
  arena : List (SignalContext D S)
  /-- the outputs that were written -/
  outputs : Nat → Option D

/-- Define the result of an instruction. -/
def VectorFrame.setReg (s : VectorFrame D S) (dst : Nat) (v : Nat → D) : VectorFrame D S :=
  { s with regs := fun r => if r = dst then v else s.regs r }

/-- The results in one lane. -/
def VectorFrame.laneRegs (s : VectorFrame D S) (lane : Nat) : Nat → D := fun r => s.regs r lane

/-- Write the outputs of a signal, which stand next to each other. -/
def VectorFrame.store (s : VectorFrame D S) (lanes index : Nat) (v : Nat → D) : VectorFrame D S :=
  { s with outputs := fun i =>
      if index * lanes ≤ i ∧ i < index * lanes + lanes then some (v (i - index * lanes))
      else s.outputs i }

/-- `lane_sym`, an `i32` -/
def laneSymbol (base : BitVec 32) (lane : Nat) : Nat := (base + BitVec.ofNat 32 lane).toNat

/-- Different lanes have different symbols. -/
theorem laneSymbol_inj {base : BitVec 32} {a b : Nat} (ha : a < 2 ^ 32) (hb : b < 2 ^ 32)
    (h : laneSymbol base a = laneSymbol base b) : a = b := by
  have hadd := BitVec.eq_of_toNat_eq h
  have hofNat : BitVec.ofNat 32 a = BitVec.ofNat 32 b := by simpa using hadd
  have hmod := congrArg BitVec.toNat hofNat
  rwa [BitVec.toNat_ofNat, BitVec.toNat_ofNat, Nat.mod_eq_of_lt ha, Nat.mod_eq_of_lt hb] at hmod

section Machine

variable [Fp D] (base : BitVec 32)

/-- `EmitScalarizedFanOut`: what the calls of the first lanes return, and leave in the arena. A
symbol without a context throws. -/
def fanOut (call : Nat → SignalContext D S → Option (D × SignalContext D S)) :
    Nat → List (SignalContext D S) → Option ((Nat → D) × List (SignalContext D S))
  | 0, arena => some (fun _ => nan, arena)
  | lane + 1, arena => do
    let (result, arena) ← fanOut call lane arena
    let ctx ← arena[laneSymbol base lane]?
    let (v, ctx) ← call lane ctx
    pure (Function.update result lane v, arena.set (laneSymbol base lane) ctx)

variable (step : StatefulOp D → Bool → MarketState D → List D → S → Option (D × S))
  (markets : Nat → MarketState D) (lanes : Nat)

/-- An instruction on all lanes. -/
def Instr.execLanes (i : Instr D) (s : VectorFrame D S) : Option (VectorFrame D S) :=
  match i with
  | .symbolCtx | .loadBase _ | .condBr _ | .phi _ _ _ | .reuse _ => some s
  | .loadField dst symbol field => some (s.setReg dst fun lane => (markets lane symbol).field field)
  | .param dst id =>
    (fanOut base (fun _ ctx => (paramValue ctx.params id).map fun v => (v, ctx)) lanes s.arena).map
      fun out => { s with arena := out.2 }.setReg dst out.1
  | .neg dst a => some (s.setReg dst fun lane => UnaryOpKind.minus.apply (a.eval (s.laneRegs lane)))
  | .binary dst kind a b =>
    some (s.setReg dst fun lane => kind.apply (a.eval (s.laneRegs lane)) (b.eval (s.laneRegs lane)))
  | .math dst fn a => some (s.setReg dst fun lane => fn.apply (a.eval (s.laneRegs lane)))
  | .operator dst op warm nodeId args =>
    (fanOut base (fun lane ctx => (step op warm (markets lane)
        (args.map (Operand.eval (s.laneRegs lane))) (ctx.slots nodeId.toNat)).map fun out =>
      (out.1, ctx.setSlot nodeId.toNat out.2)) lanes s.arena).map
      fun out => { s with arena := out.2 }.setReg dst out.1
  | .select dst cond a b =>
    some (s.setReg dst fun lane =>
      (if truthy (cond.eval (s.laneRegs lane)) then a else b).eval (s.laneRegs lane))
  | .store index a => some (s.store lanes index fun lane => a.eval (s.laneRegs lane))

/-- A piece of code. There are no branches on vectors. -/
def runLanes : Code (Instr D) → VectorFrame D S → Option (VectorFrame D S)
  | .done, s => some s
  | .instr i rest, s => (i.execLanes base step markets lanes s).bind (runLanes rest)
  | .branch _ _ _ _ _, _ => none

end Machine

/-! ## Lanes -/

/-- Code without branches. -/
def Code.Straight {α : Type} : Code α → Prop
  | .done => True
  | .instr _ rest => rest.Straight
  | .branch _ _ _ _ _ => False

theorem Code.straight_append {α : Type} {c d : Code α} :
    (c.append d).Straight ↔ c.Straight ∧ d.Straight := by
  induction c with
  | done => exact ⟨fun h => ⟨trivial, h⟩, And.right⟩
  | instr i rest ih => exact ih
  | branch => exact ⟨False.elim, And.left⟩

/-- **The lanes of a frame.** -/
structure Lanes (base : BitVec 32) (lanes : Nat) (s : VectorFrame D S)
    (frames : Nat → Frame D S) : Prop where
  /-- the results -/
  regs : ∀ lane < lanes, (frames lane).regs = s.laneRegs lane
  /-- the contexts -/
  ctx : ∀ lane < lanes, s.arena[laneSymbol base lane]? = some (frames lane).ctx
  /-- the outputs -/
  outputs : ∀ lane < lanes, ∀ i, (frames lane).outputs i = s.outputs (i * lanes + lane)

section Lanes

variable [Fp D] {base : BitVec 32} {lanes : Nat}

/-- **The lanes of a fan-out do not meet.** -/
theorem fanOut_of_lanes (hlanes : lanes ≤ 2 ^ 32)
    {call : Nat → SignalContext D S → Option (D × SignalContext D S)}
    {arena : List (SignalContext D S)} {before after : Nat → SignalContext D S} {v : Nat → D}
    (harena : ∀ lane < lanes, arena[laneSymbol base lane]? = some (before lane))
    (hcall : ∀ lane < lanes, call lane (before lane) = some (v lane, after lane)) :
    ∃ result arena', fanOut base call lanes arena = some (result, arena') ∧
      (∀ lane < lanes, result lane = v lane ∧
        arena'[laneSymbol base lane]? = some (after lane)) ∧
      ∀ k, (∀ lane < lanes, laneSymbol base lane ≠ k) → arena'[k]? = arena[k]? := by
  suffices h : ∀ n ≤ lanes, ∃ result arena', fanOut base call n arena = some (result, arena') ∧
      (∀ lane < n, result lane = v lane ∧ arena'[laneSymbol base lane]? = some (after lane)) ∧
      ∀ k, (∀ lane < n, laneSymbol base lane ≠ k) → arena'[k]? = arena[k]? from
    h lanes (Nat.le_refl lanes)
  intro n hn
  induction n with
  | zero => exact ⟨_, arena, rfl, fun _ h => absurd h (Nat.not_lt_zero _), fun _ _ => rfl⟩
  | succ n ih =>
    obtain ⟨result, arena', hfan, hdone, hrest⟩ := ih (Nat.le_of_succ_le hn)
    have hne : ∀ lane < n, laneSymbol base lane ≠ laneSymbol base n := fun lane hlane heq =>
      hlane.ne (laneSymbol_inj (by omega) (by omega) heq)
    -- the context of this lane is still as it was
    have hctx : arena'[laneSymbol base n]? = some (before n) :=
      (hrest _ hne).trans (harena n hn)
    have hlt : laneSymbol base n < arena'.length := (List.getElem?_eq_some_iff.mp hctx).1
    refine ⟨Function.update result n (v n), arena'.set (laneSymbol base n) (after n), ?_, ?_, ?_⟩
    · simp only [fanOut, hfan, hctx, hcall n hn, Option.bind_eq_bind, Option.bind_some]
      rfl
    · intro lane hlane
      rcases Nat.lt_succ_iff_lt_or_eq.mp hlane with hlt' | rfl
      · rw [Function.update_of_ne hlt'.ne, List.getElem?_set_ne (hne lane hlt').symm]
        exact hdone lane hlt'
      · rw [Function.update_self, List.getElem?_set_self hlt]
        exact ⟨rfl, rfl⟩
    · intro k hk
      rw [List.getElem?_set_ne (hk n (Nat.lt_succ_self n))]
      exact hrest k fun lane hlane => hk lane (Nat.lt_succ_of_lt hlane)

variable {s : VectorFrame D S} {frames frames' : Nat → Frame D S}

omit [Fp D] in
/-- A result in every lane. -/
theorem Lanes.setReg (h : Lanes base lanes s frames) (dst : Nat) {v : Nat → D}
    (hv : ∀ lane < lanes, frames' lane = (frames lane).setReg dst (v lane)) :
    Lanes base lanes (s.setReg dst v) frames' where
  regs lane hlane := by
    rw [hv lane hlane, Frame.setReg, h.regs lane hlane]
    funext r
    unfold VectorFrame.laneRegs VectorFrame.setReg
    dsimp only
    split <;> rfl
  ctx lane hlane := by
    rw [hv lane hlane]
    exact h.ctx lane hlane
  outputs lane hlane i := by
    rw [hv lane hlane]
    exact h.outputs lane hlane i

omit [Fp D] in
/-- Other contexts in every lane. -/
theorem Lanes.setArena (h : Lanes base lanes s frames) {arena : List (SignalContext D S)}
    {ctx : Nat → SignalContext D S}
    (harena : ∀ lane < lanes, arena[laneSymbol base lane]? = some (ctx lane)) :
    Lanes base lanes { s with arena := arena } fun lane => { frames lane with ctx := ctx lane } where
  regs := h.regs
  ctx := harena
  outputs := h.outputs

omit [Fp D] in
/-- An output in every lane. -/
theorem Lanes.store (h : Lanes base lanes s frames) (index : Nat) {v : Nat → D}
    (hv : ∀ lane < lanes, frames' lane = (frames lane).store index (v lane)) :
    Lanes base lanes (s.store lanes index v) frames' where
  regs lane hlane := by
    rw [hv lane hlane]
    exact h.regs lane hlane
  ctx lane hlane := by
    rw [hv lane hlane]
    exact h.ctx lane hlane
  outputs lane hlane i := by
    rw [hv lane hlane, Frame.store, VectorFrame.store]
    dsimp only
    by_cases hi : i = index
    · subst hi
      rw [if_pos rfl, if_pos ⟨Nat.le_add_right _ _, Nat.add_lt_add_left hlane _⟩,
        Nat.add_sub_cancel_left]
    · rw [if_neg hi, if_neg, h.outputs lane hlane i]
      rintro ⟨hle, hlt⟩
      rcases Nat.lt_or_gt_of_ne hi with hlow | hhigh
      · have := Nat.mul_le_mul_right lanes (Nat.succ_le_of_lt hlow)
        rw [Nat.succ_mul] at this
        omega
      · have := Nat.mul_le_mul_right lanes (Nat.succ_le_of_lt hhigh)
        rw [Nat.succ_mul] at this
        omega

variable {step : StatefulOp D → Bool → MarketState D → List D → S → Option (D × S)}
  {markets : Nat → MarketState D}

/-- A fan-out in every lane. -/
theorem Lanes.fanOut (h : Lanes base lanes s frames) (hlanes : lanes ≤ 2 ^ 32) (dst : Nat)
    (call : Nat → SignalContext D S → Option (D × SignalContext D S))
    (hcall : ∀ lane < lanes, ∃ v ctx, call lane (frames lane).ctx = some (v, ctx) ∧
      frames' lane = { frames lane with ctx := ctx }.setReg dst v) :
    ∃ out, JitSignalEngine.fanOut base call lanes s.arena = some out ∧
      Lanes base lanes ({ s with arena := out.2 }.setReg dst out.1) frames' := by
  have : Nonempty D := ⟨nan⟩
  have : Nonempty (SignalContext D S) := ⟨(frames 0).ctx⟩
  choose! v ctx hcall hframes using hcall
  obtain ⟨result, arena, hfan, hdone, -⟩ := fanOut_of_lanes hlanes h.ctx hcall
  refine ⟨(result, arena), hfan, (h.setArena fun lane hlane => (hdone lane hlane).2).setReg dst ?_⟩
  intro lane hlane
  rw [hframes lane hlane]
  exact congrArg _ (hdone lane hlane).1.symm

/-- **An instruction is one of every lane.** -/
theorem Lanes.exec (h : Lanes base lanes s frames) (hlanes : lanes ≤ 2 ^ 32) (i : Instr D)
    (hexec : ∀ lane < lanes, i.exec step (markets lane) (frames lane) = some (frames' lane)) :
    ∃ s', i.execLanes base step markets lanes s = some s' ∧ Lanes base lanes s' frames' := by
  -- an instruction without effect
  have hskip : (∀ lane < lanes, some (frames lane) = some (frames' lane)) →
      Lanes base lanes s frames' := fun heq =>
    { regs := fun lane hlane => Option.some.inj (heq lane hlane) ▸ h.regs lane hlane
      ctx := fun lane hlane => Option.some.inj (heq lane hlane) ▸ h.ctx lane hlane
      outputs := fun lane hlane => Option.some.inj (heq lane hlane) ▸ h.outputs lane hlane }
  -- an instruction that computes a value from those of its lane
  have hvalue : ∀ (dst : Nat) (f : (Nat → D) → Nat → D),
      (∀ lane < lanes, some ((frames lane).setReg dst (f (frames lane).regs lane)) =
        some (frames' lane)) →
      Lanes base lanes (s.setReg dst fun lane => f (s.laneRegs lane) lane) frames' := by
    refine fun dst f heq => h.setReg dst fun lane hlane => ?_
    rw [← Option.some.inj (heq lane hlane), h.regs lane hlane]
  cases i with
  | symbolCtx | loadBase | condBr | phi | reuse => exact ⟨s, rfl, hskip hexec⟩
  | loadField dst symbol field =>
    exact ⟨_, rfl, hvalue dst (fun _ lane => (markets lane symbol).field field) hexec⟩
  | neg dst a => exact ⟨_, rfl, hvalue dst (fun regs _ => UnaryOpKind.minus.apply (a.eval regs)) hexec⟩
  | binary dst kind a b =>
    exact ⟨_, rfl, hvalue dst (fun regs _ => kind.apply (a.eval regs) (b.eval regs)) hexec⟩
  | math dst fn a => exact ⟨_, rfl, hvalue dst (fun regs _ => fn.apply (a.eval regs)) hexec⟩
  | select dst cond a b =>
    exact ⟨_, rfl, hvalue dst
      (fun regs _ => (if truthy (cond.eval regs) then a else b).eval regs) hexec⟩
  | store index a =>
    refine ⟨_, rfl, h.store index fun lane hlane => ?_⟩
    rw [← Option.some.inj (hexec lane hlane), h.regs lane hlane]
  | param dst id =>
    obtain ⟨out, hfan, hout⟩ : ∃ out, JitSignalEngine.fanOut base
        (fun _ ctx => (paramValue ctx.params id).map fun v => (v, ctx)) lanes s.arena = some out ∧
        Lanes base lanes ({ s with arena := out.2 }.setReg dst out.1) frames' := by
      refine h.fanOut hlanes dst _ fun lane hlane => ?_
      obtain ⟨v, hv, hframe⟩ := Option.map_eq_some_iff.mp (hexec lane hlane)
      exact ⟨v, _, by rw [hv]; rfl, hframe.symm⟩
    exact ⟨_, by rw [Instr.execLanes, hfan]; rfl, hout⟩
  | operator dst op warm nodeId args =>
    obtain ⟨out, hfan, hout⟩ : ∃ out, JitSignalEngine.fanOut base
        (fun lane ctx => (step op warm (markets lane) (args.map (Operand.eval (s.laneRegs lane)))
          (ctx.slots nodeId.toNat)).map fun out => (out.1, ctx.setSlot nodeId.toNat out.2))
        lanes s.arena = some out ∧
        Lanes base lanes ({ s with arena := out.2 }.setReg dst out.1) frames' := by
      refine h.fanOut hlanes dst _ fun lane hlane => ?_
      obtain ⟨⟨v, slot⟩, hv, hframe⟩ := Option.map_eq_some_iff.mp (hexec lane hlane)
      rw [h.regs lane hlane] at hv
      exact ⟨v, _, by rw [hv]; rfl, hframe.symm⟩
    exact ⟨_, by rw [Instr.execLanes, hfan]; rfl, hout⟩

/-- **Code is code of every lane.** -/
theorem Lanes.run {c : Code (Instr D)} (hc : c.Straight) (h : Lanes base lanes s frames)
    (hlanes : lanes ≤ 2 ^ 32) (hrun : ∀ lane < lanes,
      (instrMachine step (markets lane)).run c (frames lane) = some (frames' lane)) :
    ∃ s', runLanes base step markets lanes c s = some s' ∧ Lanes base lanes s' frames' := by
  induction c generalizing s frames with
  | done =>
    exact ⟨s, rfl,
      { regs := fun lane hlane => Option.some.inj (hrun lane hlane) ▸ h.regs lane hlane
        ctx := fun lane hlane => Option.some.inj (hrun lane hlane) ▸ h.ctx lane hlane
        outputs := fun lane hlane => Option.some.inj (hrun lane hlane) ▸ h.outputs lane hlane }⟩
  | instr i rest ih =>
    have : Nonempty (Frame D S) := ⟨frames 0⟩
    have hfirst : ∀ lane < lanes, ∃ frame, i.exec step (markets lane) (frames lane) = some frame ∧
        (instrMachine step (markets lane)).run rest frame = some (frames' lane) :=
      fun lane hlane => Option.bind_eq_some_iff.mp (hrun lane hlane)
    choose! mid hexec hrest using hfirst
    obtain ⟨s₁, hs₁, hmid⟩ := h.exec hlanes i hexec
    obtain ⟨s', hs', hlast⟩ := ih hc hmid hrest
    exact ⟨s', by rw [runLanes, hs₁, Option.bind_some, hs'], hlast⟩
  | branch => exact hc.elim

end Lanes

/-! ## Runs -/

section Runs

variable [Fp D] [Fp L] [Widen D L] (base : BitVec 32) (lanes : Nat)

/-- One call of the compiled function, on an arena. -/
def runVectorProgram (code : Code (Instr D)) (markets : Nat → MarketState D)
    (arena : List (SignalContext D (NodeStates D L))) : Option (VectorFrame D (NodeStates D L)) :=
  runLanes base emittedStep markets lanes code ⟨fun _ _ => nan, arena, fun _ => none⟩

/-- The arena before tick `n`, if the calls before it return. -/
def vectorArenaAt (code : Code (Instr D)) (ticks : Nat → Nat → MarketState D)
    (arena : List (SignalContext D (NodeStates D L))) :
    Nat → Option (List (SignalContext D (NodeStates D L)))
  | 0 => some arena
  | n + 1 => (vectorArenaAt code ticks arena n).bind fun arena =>
    (runVectorProgram base lanes code (ticks n) arena).map VectorFrame.arena

/-- What the call at tick `n` writes, if it returns. -/
def vectorOutputsAt (code : Code (Instr D)) (ticks : Nat → Nat → MarketState D)
    (arena : List (SignalContext D (NodeStates D L))) (n : Nat) : Option (Nat → Option D) :=
  (vectorArenaAt base lanes code ticks arena n).bind fun arena =>
    (runVectorProgram base lanes code (ticks n) arena).map VectorFrame.outputs

variable {base lanes} {code : Code (Instr D)} {ticks : Nat → Nat → MarketState D}
  {arena : List (SignalContext D (NodeStates D L))}
  {ctx after : Nat → SignalContext D (NodeStates D L)}

/-- A call of the function is a call of every lane. -/
theorem runVectorProgram_of_lanes (hcode : code.Straight) (hlanes : lanes ≤ 2 ^ 32)
    (markets : Nat → MarketState D) {frames : Nat → Frame D (NodeStates D L)}
    (harena : ∀ lane < lanes, arena[laneSymbol base lane]? = some (ctx lane))
    (hrun : ∀ lane < lanes, runProgram code (markets lane) (ctx lane) = some (frames lane)) :
    ∃ s, runVectorProgram base lanes code markets arena = some s ∧ Lanes base lanes s frames := by
  refine Lanes.run hcode ⟨fun _ _ => rfl, harena, fun _ _ _ => rfl⟩ hlanes hrun

/-- The calls behind what the lanes end with. -/
theorem exists_calls {α : Type} {f : Frame D (NodeStates D L) → α} {n : Nat}
    {last : Nat → α} (hrun : ∀ lane < lanes,
      ((compiledContextAt (fun _ => code) (fun t => ticks t lane) (ctx lane) n).bind fun ctx =>
        (runProgram code (ticks n lane) ctx).map f) = some (last lane)) :
    ∃ (before : Nat → SignalContext D (NodeStates D L)) (frames : Nat → Frame D (NodeStates D L)),
      ∀ lane < lanes,
        compiledContextAt (fun _ => code) (fun t => ticks t lane) (ctx lane) n =
          some (before lane) ∧
        runProgram code (ticks n lane) (before lane) = some (frames lane) ∧
        f (frames lane) = last lane := by
  have : Nonempty (SignalContext D (NodeStates D L)) := ⟨ctx 0⟩
  have : Nonempty (Frame D (NodeStates D L)) := ⟨⟨fun _ => nan, ctx 0, fun _ => none⟩⟩
  have hsplit : ∀ lane < lanes, ∃ before frame,
      compiledContextAt (fun _ => code) (fun t => ticks t lane) (ctx lane) n = some before ∧
      runProgram code (ticks n lane) before = some frame ∧ f frame = last lane := by
    intro lane hlane
    obtain ⟨before, hbefore, hcall⟩ := Option.bind_eq_some_iff.mp (hrun lane hlane)
    obtain ⟨frame, hframe, hlast⟩ := Option.map_eq_some_iff.mp hcall
    exact ⟨before, frame, hbefore, hframe, hlast⟩
  choose! before frames hcalls using hsplit
  exact ⟨before, frames, hcalls⟩

/-- **The contexts of a run.** -/
theorem vectorArenaAt_of_lanes (hcode : code.Straight) (hlanes : lanes ≤ 2 ^ 32)
    (harena : ∀ lane < lanes, arena[laneSymbol base lane]? = some (ctx lane)) (n : Nat)
    (hrun : ∀ lane < lanes, compiledContextAt (fun _ => code) (fun t => ticks t lane) (ctx lane) n =
      some (after lane)) :
    ∃ arena', vectorArenaAt base lanes code ticks arena n = some arena' ∧
      ∀ lane < lanes, arena'[laneSymbol base lane]? = some (after lane) := by
  induction n generalizing after with
  | zero =>
    refine ⟨arena, rfl, fun lane hlane => ?_⟩
    rw [harena lane hlane]
    exact hrun lane hlane
  | succ n ih =>
    obtain ⟨before, frames, hcalls⟩ := exists_calls hrun
    obtain ⟨arena', hars, hbefore⟩ := ih fun lane hlane => (hcalls lane hlane).1
    obtain ⟨s, hs, hall⟩ := runVectorProgram_of_lanes hcode hlanes (ticks n) hbefore
      fun lane hlane => (hcalls lane hlane).2.1
    refine ⟨s.arena, by rw [vectorArenaAt, hars, Option.bind_some, hs, Option.map_some], ?_⟩
    intro lane hlane
    rw [hall.ctx lane hlane, (hcalls lane hlane).2.2]

/-- **The outputs of a run.** -/
theorem vectorOutputsAt_of_lanes (hcode : code.Straight) (hlanes : lanes ≤ 2 ^ 32)
    (harena : ∀ lane < lanes, arena[laneSymbol base lane]? = some (ctx lane)) (n : Nat)
    {outputs : Nat → Nat → Option D} (hrun : ∀ lane < lanes,
      compiledOutputsAt (fun _ => code) (fun t => ticks t lane) (ctx lane) n =
        some (outputs lane)) :
    ∃ out, vectorOutputsAt base lanes code ticks arena n = some out ∧
      ∀ lane < lanes, ∀ i, out (i * lanes + lane) = outputs lane i := by
  obtain ⟨before, frames, hcalls⟩ := exists_calls hrun
  obtain ⟨arena', hars, hbefore⟩ := vectorArenaAt_of_lanes hcode hlanes harena n
    fun lane hlane => (hcalls lane hlane).1
  obtain ⟨s, hs, hall⟩ := runVectorProgram_of_lanes hcode hlanes (ticks n) hbefore
    fun lane hlane => (hcalls lane hlane).2.1
  refine ⟨s.outputs, by rw [vectorOutputsAt, hars, Option.bind_some, hs, Option.map_some], ?_⟩
  intro lane hlane i
  rw [← hall.outputs lane hlane i, (hcalls lane hlane).2.2]

end Runs

end JitSignalEngine
