import JitSignalEngine.Emission
import JitSignalEngine.Lowered
import JitSignalEngine.StructuredRun

/-!
# Running compiled programs

The machine that emitted code runs on, and what a program does over many ticks.

* `Frame` — the state of one call of the compiled function: results of instructions, the
  context, the outputs written so far.
* `Instr.exec` — one instruction. Reading a parameter that is not there throws, and so may an
  operator; then the function does not return.
* `compiledContextAt`, `compiledOutputsAt` — a run. The code may change from tick to tick.
-/

namespace JitSignalEngine

open Fp Widen

variable {D L S : Type}

/-! ## One call -/

/-- The state of a call of the compiled function. -/
structure Frame (D S : Type) where
  /-- the results of instructions -/
  regs : Nat → D
  /-- the context -/
  ctx : SignalContext D S
  /-- the outputs that were written -/
  outputs : Nat → Option D

namespace Frame

/-- Define the result of an instruction. -/
def setReg (s : Frame D S) (dst : Nat) (v : D) : Frame D S :=
  { s with regs := fun r => if r = dst then v else s.regs r }

/-- Write an output. -/
def store (s : Frame D S) (index : Nat) (v : D) : Frame D S :=
  { s with outputs := fun i => if i = index then some v else s.outputs i }

@[simp] theorem setReg_ctx (s : Frame D S) (dst : Nat) (v : D) : (s.setReg dst v).ctx = s.ctx := rfl

@[simp] theorem setReg_outputs (s : Frame D S) (dst : Nat) (v : D) :
    (s.setReg dst v).outputs = s.outputs := rfl

@[simp] theorem store_ctx (s : Frame D S) (index : Nat) (v : D) : (s.store index v).ctx = s.ctx :=
  rfl

@[simp] theorem store_regs (s : Frame D S) (index : Nat) (v : D) :
    (s.store index v).regs = s.regs := rfl

@[simp] theorem setReg_regs_self (s : Frame D S) (dst : Nat) (v : D) :
    (s.setReg dst v).regs dst = v := if_pos rfl

theorem setReg_regs_ne (s : Frame D S) {dst r : Nat} (v : D) (h : r ≠ dst) :
    (s.setReg dst v).regs r = s.regs r := if_neg h

end Frame

/-- The value of an operand. -/
def Operand.eval (regs : Nat → D) : Operand D → D
  | .const v => v
  | .reg n => regs n

section Machine

variable [Fp D]

/-- The choice a fork makes. A NaN condition is true. -/
def Instr.takes (i : Instr D) (s : Frame D S) : Bool :=
  match i with
  | .condBr cond => truthy (cond.eval s.regs)
  | _ => false

/-- The value that arrives at a join, by the branch it comes from. -/
def Instr.merge (i : Instr D) (taken : Bool) (s : Frame D S) : Frame D S :=
  match i with
  | .phi dst a b => s.setReg dst ((if taken then a else b).eval s.regs)
  | _ => s

/-- An instruction, given what operators do: `step op warm market args slot`. -/
def Instr.exec (step : StatefulOp D → Bool → MarketState D → List D → S → Option (D × S))
    (market : MarketState D) (i : Instr D) (s : Frame D S) : Option (Frame D S) :=
  match i with
  | .symbolCtx | .loadBase _ | .condBr _ | .phi _ _ _ | .reuse _ => some s
  | .loadField dst symbol field => some (s.setReg dst ((market symbol).field field))
  | .param dst id => (paramValue s.ctx.params id).map (s.setReg dst)
  | .neg dst a => some (s.setReg dst (UnaryOpKind.minus.apply (a.eval s.regs)))
  | .binary dst kind a b => some (s.setReg dst (kind.apply (a.eval s.regs) (b.eval s.regs)))
  | .math dst fn a => some (s.setReg dst (fn.apply (a.eval s.regs)))
  | .operator dst op warm nodeId args =>
    (step op warm market (args.map (Operand.eval s.regs)) (s.ctx.slots nodeId.toNat)).map fun out =>
      { s with ctx := s.ctx.setSlot nodeId.toNat out.2 }.setReg dst out.1
  | .select dst cond a b =>
    some (s.setReg dst ((if truthy (cond.eval s.regs) then a else b).eval s.regs))
  | .store index a => some (s.store index (a.eval s.regs))

/-- The machine of a tick. -/
def instrMachine (step : StatefulOp D → Bool → MarketState D → List D → S → Option (D × S))
    (market : MarketState D) : Machine (Instr D) (Frame D S) where
  step := Instr.exec step market
  takes := Instr.takes
  join := Instr.merge

omit [Fp D] in
/-- No step of a join touches the context. -/
@[simp] theorem Instr.merge_ctx (i : Instr D) (taken : Bool) (s : Frame D S) :
    (i.merge taken s).ctx = s.ctx := by
  cases i <;> rfl

/-- What an instruction does to the context: nothing, unless it is an operator. -/
theorem Instr.exec_ctx {step : StatefulOp D → Bool → MarketState D → List D → S → Option (D × S)}
    {market : MarketState D} {i : Instr D} {s s' : Frame D S}
    (h : i.exec step market s = some s') :
    s'.ctx = s.ctx ∨ ∃ dst op warm nodeId args vs v slot,
      i = .operator dst op warm nodeId args ∧
      step op warm market vs (s.ctx.slots nodeId.toNat) = some (v, slot) ∧
      s'.ctx = s.ctx.setSlot nodeId.toNat slot := by
  cases i with
  | operator dst op warm nodeId args =>
    obtain ⟨⟨v, slot⟩, hout, rfl⟩ := Option.map_eq_some_iff.mp h
    exact .inr ⟨dst, op, warm, nodeId, args, _, v, slot, rfl, hout, rfl⟩
  | param dst id =>
    obtain ⟨v, -, rfl⟩ := Option.map_eq_some_iff.mp h
    exact .inl rfl
  | _ =>
    cases h
    exact .inl rfl

end Machine

/-! ## Programs -/

section Runs

variable [Fp D] [Fp L] [Widen D L]

/-- One call of the compiled function, on a context. -/
def runProgram (code : Code (Instr D)) (market : MarketState D)
    (ctx : SignalContext D (NodeStates D L)) : Option (Frame D (NodeStates D L)) :=
  (instrMachine emittedStep market).run code ⟨fun _ => nan, ctx, fun _ => none⟩

/-- The context before tick `n`, if the calls before it return. At tick `k` the function
compiled from `code k` is called. -/
def compiledContextAt (code : Nat → Code (Instr D)) (ticks : Nat → MarketState D)
    (ctx : SignalContext D (NodeStates D L)) : Nat → Option (SignalContext D (NodeStates D L))
  | 0 => some ctx
  | n + 1 => (compiledContextAt code ticks ctx n).bind fun ctx =>
    (runProgram (code n) (ticks n) ctx).map Frame.ctx

/-- What the call at tick `n` writes, if it returns. -/
def compiledOutputsAt (code : Nat → Code (Instr D)) (ticks : Nat → MarketState D)
    (ctx : SignalContext D (NodeStates D L)) (n : Nat) : Option (Nat → Option D) :=
  (compiledContextAt code ticks ctx n).bind fun ctx =>
    (runProgram (code n) (ticks n) ctx).map Frame.outputs

end Runs

end JitSignalEngine
