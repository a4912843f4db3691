import JitSignalEngine.MonoDequeWords

/-!
# The lowered monotone deque

`EmitLoweredMonoDequeRolling` on its words. The IR keeps head, count, capacity and index as `i64`
and compares them signed, where the runtime has `std::size_t`. The accesses to the ring are those of
`MonoDequeWords`, with its checks.

* `sgt`, `sge` — signed comparisons. Below `2^63` they are the unsigned ones.
* `emittedMonoDequeRolling` — the blocks of the IR.
* `RollingMinMaxWords.Refines.emitted` — below `2^63` samples no check fails, and the value is the
  one the runtime returns.
-/

namespace JitSignalEngine

open Fp

/-! ## Signed comparisons -/

/-- `icmp sgt` -/
def sgt (a b : UInt64) : Bool := b.toBitVec.slt a.toBitVec

/-- `icmp sge` -/
def sge (a b : UInt64) : Bool := b.toBitVec.sle a.toBitVec

section Signed

variable {a b : UInt64}

theorem toInt_of_lt (ha : a.toNat < 2 ^ 63) : a.toBitVec.toInt = a.toNat := by
  rw [BitVec.toInt_eq_toNat_of_lt]
  · rfl
  · rw [UInt64.toNat_toBitVec]
    omega

theorem sgt_iff (ha : a.toNat < 2 ^ 63) (hb : b.toNat < 2 ^ 63) :
    sgt a b = true ↔ b.toNat < a.toNat := by
  rw [sgt, BitVec.slt_iff_toInt_lt, toInt_of_lt ha, toInt_of_lt hb, Int.ofNat_lt]

theorem sge_iff (ha : a.toNat < 2 ^ 63) (hb : b.toNat < 2 ^ 63) :
    sge a b = true ↔ b.toNat ≤ a.toNat := by
  rw [sge, BitVec.sle_iff_toInt_le, toInt_of_lt ha, toInt_of_lt hb, Int.ofNat_le]

theorem sgt_zero_iff (ha : a.toNat < 2 ^ 63) : sgt a 0 = true ↔ ¬ a = 0 := by
  rw [sgt_iff ha (by decide), UInt64.toNat_zero, Nat.pos_iff_ne_zero, Ne, ← UInt64.toNat_inj,
    UInt64.toNat_zero]

end Signed

/-! ## The blocks -/

namespace MonoDequeWords

variable {D : Type}

/-- The blocks `mono_pop_back_hdr`, `mono_pop_back_chk` and `mono_pop_back_body`, entered at most
so many times. -/
def emittedPopBack (pops : D → Bool) : Nat → MonoDequeWords D → Except String (MonoDequeWords D)
  | 0, _ => .error "no turns left"
  | turns + 1, st =>
    if sgt st.count 0 then do
      let back ← st.monoBack
      if pops back.2 then emittedPopBack pops turns st.monoPopBack else .ok st
    else .ok st

/-- The blocks `mono_pop_front_hdr`, `mono_pop_front_chk` and `mono_pop_front_body`. -/
def emittedPopFront (idx period : UInt64) :
    Nat → MonoDequeWords D → Except String (MonoDequeWords D)
  | 0, _ => .error "no turns left"
  | turns + 1, st =>
    if sgt st.count 0 then do
      let front ← st.monoFront
      if sgt (idx + 1 - front.1) period then emittedPopFront idx period turns st.monoPopFront
      else .ok st
    else .ok st

variable {st : MonoDequeWords D} {t : Nat}

namespace Fits

/-- The count is too small to be negative. -/
theorem sgt_count_iff (h : st.Fits t) (ht : t < 2 ^ 63) : sgt st.count 0 = true ↔ ¬ st.count = 0 := by
  have hsum := h.sum_le
  exact sgt_zero_iff (by omega)

/-- The loop at the back is the one of the runtime. By induction on the turns. -/
theorem emittedPopBack [Fp D] (h : st.Fits t) (ht : t < 2 ^ 63) (pops : D → Bool) (turns : Nat) :
    st.emittedPopBack pops turns = st.popBackWhile pops turns := by
  induction turns generalizing st with
  | zero => rfl
  | succ turns ih =>
    rw [MonoDequeWords.emittedPopBack, MonoDequeWords.popBackWhile]
    by_cases hne : st.count = 0
    · rw [if_pos hne, if_neg fun hpos => (h.sgt_count_iff ht).1 hpos hne]
    · obtain ⟨e, -, hread, -⟩ := h.back (by omega) hne
      rw [if_neg hne, if_pos ((h.sgt_count_iff ht).2 hne), hread]
      simp only [bind, Except.bind, ih (h.popBack hne).2]

/-- So is the loop at the front, as no entry is older than `t + 1`. -/
theorem emittedPopFront [Fp D] (h : st.Fits (t + 1)) (ht : t + 1 < 2 ^ 63) {idx period : UInt64}
    (hidx : idx.toNat = t) (hperiod : period.toNat < 2 ^ 63) (turns : Nat) :
    st.emittedPopFront idx period turns = st.popFrontWhile idx period turns := by
  induction turns generalizing st with
  | zero => rfl
  | succ turns ih =>
    rw [MonoDequeWords.emittedPopFront, MonoDequeWords.popFrontWhile]
    by_cases hne : st.count = 0
    · rw [if_pos hne, if_neg fun hpos => (h.sgt_count_iff ht).1 hpos hne]
    · obtain ⟨e, hmem, hread, -⟩ := h.front hne
      have hnext : (idx + 1).toNat = t + 1 := by
        rw [UInt64.toNat_add, UInt64.toNat_one, hidx, Nat.mod_eq_of_lt (by omega)]
      have hage : (idx + 1 - e.1).toNat < 2 ^ 63 := by
        rw [UInt64.toNat_sub_of_le, hnext]
        · omega
        · rw [UInt64.le_iff_toNat_le, hnext]
          exact h.index_le e hmem
      rw [if_neg hne, if_pos ((h.sgt_count_iff ht).2 hne), hread]
      simp only [bind, Except.bind, ih (h.popFront (by omega) hne).2, sgt_iff hage hperiod,
        UInt64.lt_iff_toNat_lt]

end Fits

end MonoDequeWords

/-! ## The operator -/

section Operator

variable {D : Type} [Fp D]

/-- `EmitLoweredMonoDequeRolling` -/
def emittedMonoDequeRolling (kind : MonoDequeKind) (period : UInt64) (st : RollingMinMaxWords D)
    (sample : D) : Except String (D × RollingMinMaxWords D) := do
  let dq ← st.dq.emittedPopBack (kind.pops sample) (st.dq.count.toNat + 1)
  let dq ← dq.monoPushBack (st.idx, sample)
  let dq ← dq.emittedPopFront st.idx period (dq.count.toNat + 1)
  let idx := st.idx + 1
  let front ← dq.monoFront
  .ok (if sge idx period then front.2 else nan, ⟨dq, idx⟩)

variable {kind : MonoDequeKind} {p : UInt64} {xs : List D} {st : RollingMinMaxWords D}

/-- What the prewarm leaves in `rolling_min_lowered` and `rolling_max_lowered`. -/
def RollingMinMaxWords.resetLowered (period : UInt64) : RollingMinMaxWords D :=
  ⟨⟨List.replicate (period + 1).toNat (0, ofNat 0), 0, 0, period + 1⟩, 0⟩

theorem RollingMinMaxWords.refines_resetLowered (kind : MonoDequeKind)
    (hcap : p.toNat + 1 < 2 ^ 64) :
    Refines kind p [] (.resetLowered p : RollingMinMaxWords D) ∧
      toState (.resetLowered p : RollingMinMaxWords D) =
        ⟨MonoDequeState.init.monoInit p.toNat, 0⟩ := by
  rw [resetLowered, ← monoInit_words hcap]
  exact ⟨refines_nil kind hcap, toState_monoInit hcap⟩

/-- The IR is the update of the runtime with the gate of `jit_rt_rolling_min` behind it. -/
theorem RollingMinMaxWords.Refines.emitted_eq (h : st.Refines kind p xs) (hp63 : p.toNat < 2 ^ 63)
    (hlength : xs.length + 1 < 2 ^ 63) (x : D) :
    emittedMonoDequeRolling kind p st x = (updateRollingChecked kind p st x).map fun out =>
      (if sge out.2.idx p then out.1 else nan, out.2) := by
  have hidx : st.idx.toNat = xs.length := h.follows.idx_eq
  obtain ⟨dq, hback, hdq, hfits⟩ := h.fits.popBackWhile (by omega) (kind.pops x) le_rfl
  have hroom : dq.toState.count < dq.toState.cap := hdq ▸ h.follows.fits.room x
  obtain ⟨dq', hpush, -, hfits'⟩ := hfits.pushBack (by omega) hroom
    (show (st.idx, x).1.toNat ≤ xs.length + 1 by rw [hidx]; exact Nat.le_succ _)
  obtain ⟨dq'', hfront, -, -⟩ := hfits'.popFrontWhile (by omega) hidx p le_rfl
  rw [emittedMonoDequeRolling, updateRollingChecked, h.fits.emittedPopBack (by omega), hback]
  simp only [bind, Except.bind, hpush, hfits'.emittedPopFront hlength hidx hp63, hfront]
  cases dq''.monoFront <;> rfl

/-- **One sample more.** -/
theorem RollingMinMaxWords.Refines.emitted (h : st.Refines kind p xs) (hp : 0 < p.toNat)
    (hp63 : p.toNat < 2 ^ 63) (hlength : xs.length + 1 < 2 ^ 63) {x : D}
    (hx : Comparable kind.pops (xs ++ [x])) :
    ∃ st', emittedMonoDequeRolling kind p st x =
        .ok ((minMaxReadout p.toNat (updateRolling kind st.toState p.toNat x)).1, st') ∧
      st'.toState = (updateRolling kind st.toState p.toNat x).2 ∧
      st'.Refines kind p (xs ++ [x]) := by
  obtain ⟨st', hupdate, hstate, hst'⟩ := h.update hp (by omega) hx
  have hidx : st'.idx.toNat = xs.length + 1 := hst'.follows.idx_eq.trans (by simp)
  have hseen : (updateRolling kind st.toState p.toNat x).2.idx = st'.idx.toNat := by
    rw [← hstate]
    rfl
  refine ⟨st', ?_, hstate, hst'⟩
  rw [h.emitted_eq hp63 hlength, hupdate, minMaxReadout, hseen]
  simp only [Except.map, sge_iff (hidx ▸ hlength) hp63, ← not_lt, ite_not]

end Operator

end JitSignalEngine
