import JitSignalEngine.RollingMinMax

/-!
# The monotone deque on machine words

`UpdateRollingMin` and `UpdateRollingMax` with `std::size_t` fields, additions that wrap and every
access to the ring checked: a read has to hit a cell in use, a write one that is not, and the ring
has to have room for it.

* `MonoDequeWords` — the deque, and its functions with the checks.
* `MonoDequeWords.Fits` — head and count are too small to wrap.
* `RollingMinMaxWords.Refines.update` — below `2^64` samples no check fails, and the update is
  `updateRolling`.
* `monoDeque_window` — the front is the extremum of the window.
-/

namespace JitSignalEngine

open Fp

/-! ## The deque -/

/-- `MonoDequeState` -/
structure MonoDequeWords (D : Type) where
  /-- storage of the ring -/
  buf : List (UInt64 × D)
  /-- position of the front -/
  head : UInt64
  /-- entries held -/
  count : UInt64
  /-- size of the ring -/
  cap : UInt64

namespace MonoDequeWords

section Functions

variable {D : Type}

/-- `MonoDequeState{}` -/
def init : MonoDequeWords D := ⟨[], 0, 0, 0⟩

/-- `MonoInit` -/
def monoInit [Fp D] (st : MonoDequeWords D) (period : UInt64) : MonoDequeWords D :=
  let neededCap := period + 1
  if st.cap = neededCap then st
  else ⟨List.replicate neededCap.toNat (0, ofNat 0), 0, 0, neededCap⟩

/-- The cells in use. -/
def liveCells (st : MonoDequeWords D) : List Nat :=
  (List.range st.count.toNat).map fun i => (st.head.toNat + i) % st.cap.toNat

/-- A read. -/
def readCell (st : MonoDequeWords D) (cell : UInt64) : Except String (UInt64 × D) :=
  match st.buf[cell.toNat]? with
  | some entry => if cell.toNat ∈ st.liveCells then .ok entry else .error "read of a dead cell"
  | none => .error "read out of bounds"

/-- `MonoTailIndex` -/
def monoTailIndex (st : MonoDequeWords D) : UInt64 := (st.head + st.count - 1) % st.cap

/-- `MonoFront` -/
def monoFront (st : MonoDequeWords D) : Except String (UInt64 × D) := st.readCell st.head

/-- `MonoBack` -/
def monoBack (st : MonoDequeWords D) : Except String (UInt64 × D) := st.readCell st.monoTailIndex

/-- `MonoPopFront` -/
def monoPopFront (st : MonoDequeWords D) : MonoDequeWords D :=
  { st with head := (st.head + 1) % st.cap, count := st.count - 1 }

/-- `MonoPopBack` -/
def monoPopBack (st : MonoDequeWords D) : MonoDequeWords D := { st with count := st.count - 1 }

/-- `MonoPushBack` -/
def monoPushBack (st : MonoDequeWords D) (v : UInt64 × D) : Except String (MonoDequeWords D) :=
  let writeIdx := (st.head + st.count) % st.cap
  if st.cap ≤ st.count then .error "the ring is full"
  else if writeIdx.toNat ∈ st.liveCells then .error "write over a live cell"
  else .ok { st with buf := st.buf.set writeIdx.toNat v, count := st.count + 1 }

/-- The loop at the back, in at most so many turns. -/
def popBackWhile (pops : D → Bool) : Nat → MonoDequeWords D → Except String (MonoDequeWords D)
  | 0, _ => .error "no turns left"
  | turns + 1, st =>
    if st.count = 0 then .ok st
    else do
      let back ← st.monoBack
      if pops back.2 then popBackWhile pops turns st.monoPopBack else .ok st

/-- The loop at the front; the age of an entry is `idx + 1 - index`. -/
def popFrontWhile (idx period : UInt64) :
    Nat → MonoDequeWords D → Except String (MonoDequeWords D)
  | 0, _ => .error "no turns left"
  | turns + 1, st =>
    if st.count = 0 then .ok st
    else do
      let front ← st.monoFront
      if period < idx + 1 - front.1 then popFrontWhile idx period turns st.monoPopFront else .ok st

/-- The entries from the front to the back. -/
def entries (st : MonoDequeWords D) : List (UInt64 × D) :=
  cellsFrom st.buf st.head.toNat st.count.toNat

end Functions

end MonoDequeWords

/-- A deque together with its tick counter. -/
structure RollingMinMaxWords (D : Type) where
  /-- the deque -/
  dq : MonoDequeWords D
  /-- ticks seen -/
  idx : UInt64

section Update

variable {D : Type} [Fp D]

/-- What `UpdateRollingMin`, `UpdateRollingMax` and their `Prepared` forms share. -/
def updateRollingChecked (kind : MonoDequeKind) (period : UInt64) (st : RollingMinMaxWords D)
    (sample : D) : Except String (D × RollingMinMaxWords D) := do
  let dq ← st.dq.popBackWhile (kind.pops sample) (st.dq.count.toNat + 1)
  let dq ← dq.monoPushBack (st.idx, sample)
  let dq ← dq.popFrontWhile st.idx period (dq.count.toNat + 1)
  let front ← dq.monoFront
  .ok (front.2, ⟨dq, st.idx + 1⟩)

/-- Whose `Prepared` form is called. -/
inductive RollingCaller where
  /-- `UpdateRollingMin` and `UpdateRollingMax`, with the period -/
  | interpreter
  /-- `UpdateRollingMinPrepared` and `UpdateRollingMaxPrepared` -/
  | compiled
deriving DecidableEq, Repr

/-- The four functions. -/
def updateRollingWords (caller : RollingCaller) (kind : MonoDequeKind) (period : UInt64)
    (st : RollingMinMaxWords D) (sample : D) : Except String (D × RollingMinMaxWords D) :=
  match caller with
  | .interpreter => updateRollingChecked kind period { st with dq := st.dq.monoInit period } sample
  | .compiled =>
    if st.dq.cap = 0 then
      .error (match kind with
        | .min => "UpdateRollingMinPrepared called before state prewarm"
        | .max => "UpdateRollingMaxPrepared called before state prewarm")
    else updateRollingChecked kind (st.dq.cap - 1) st sample

/-- The state after a stream, from a deque `MonoInit` set up and index zero. -/
def rollingAfter (caller : RollingCaller) (kind : MonoDequeKind) (period : UInt64) (xs : List D) :
    Except String (RollingMinMaxWords D) :=
  xs.foldlM (fun st x => (updateRollingWords caller kind period st x).map Prod.snd)
    ⟨MonoDequeWords.init.monoInit period, 0⟩

end Update

/-! ## On natural numbers -/

namespace MonoDequeWords

variable {D : Type} [Fp D] {st : MonoDequeWords D} {t : Nat}

/-- An entry with its index read as a number. -/
def readEntry (e : UInt64 × D) : Nat × D := (e.1.toNat, e.2)

/-- The words read as numbers. -/
def toState (st : MonoDequeWords D) : MonoDequeState D :=
  ⟨st.buf.map readEntry, st.head.toNat, st.count.toNat, st.cap.toNat⟩

/-- **Nothing wraps.** Every sample moves the sum of head and count by at most one, and the index
of an entry is one of a sample before. -/
structure Fits (t : Nat) (st : MonoDequeWords D) : Prop where
  ok : st.toState.Ok
  sum_le : st.head.toNat + st.count.toNat ≤ t
  index_le : ∀ e ∈ st.buf, e.1.toNat ≤ t

omit [Fp D] in
theorem entries_eq (st : MonoDequeWords D) :
    st.entries = st.toState.entries.map fun e => (.ofNat e.1, e.2) := by
  have hread : (fun e : Nat × D => (UInt64.ofNat e.1, e.2)) ∘ readEntry = id := by
    funext e
    simp [readEntry]
  rw [MonoDequeState.entries, toState, cellsFrom, ← List.map_rotate, ← List.map_take, List.map_map,
    hread, List.map_id]
  rfl

omit [Fp D] in
theorem count_pos (hne : ¬ st.count = 0) : 0 < st.count.toNat := by
  refine Nat.pos_of_ne_zero fun h => hne ?_
  rwa [← UInt64.toNat_inj, UInt64.toNat_zero]

omit [Fp D] in
theorem count_pop (hne : ¬ st.count = 0) : (st.count - 1).toNat = st.count.toNat - 1 := by
  have hone : (1 : UInt64) ≤ st.count := by
    rw [UInt64.le_iff_toNat_le, UInt64.toNat_one]
    exact count_pos hne
  rw [UInt64.toNat_sub_of_le _ _ hone, UInt64.toNat_one]

omit [Fp D] in
/-- A cell in use is read. -/
theorem readCell_live {cell : UInt64} (hlive : cell.toNat ∈ st.liveCells)
    (hlt : cell.toNat < st.buf.length) : st.readCell cell = .ok st.buf[cell.toNat] := by
  rw [readCell, List.getElem?_eq_getElem hlt]
  exact if_pos hlive

omit [Fp D] in
theorem mem_liveCells {cell : Nat} :
    cell ∈ st.liveCells ↔ ∃ i < st.count.toNat, (st.head.toNat + i) % st.cap.toNat = cell := by
  simp [liveCells]

namespace Fits

omit [Fp D] in
theorem popBack (h : st.Fits t) (hne : ¬ st.count = 0) :
    st.monoPopBack.toState = st.toState.monoPopBack ∧ st.monoPopBack.Fits t := by
  have hpop : st.monoPopBack.toState = st.toState.monoPopBack := by
    simp [toState, monoPopBack, MonoDequeState.monoPopBack, count_pop hne]
  refine ⟨hpop, hpop ▸ h.ok.popBack.1, ?_, h.index_le⟩
  have hsum := h.sum_le
  simp only [monoPopBack, count_pop hne]
  omega

omit [Fp D] in
theorem popFront (h : st.Fits t) (ht : t < 2 ^ 64) (hne : ¬ st.count = 0) :
    st.monoPopFront.toState = st.toState.monoPopFront ∧ st.monoPopFront.Fits t := by
  have hpos := count_pos hne
  have hsum := h.sum_le
  have hhead : (st.head + 1).toNat = st.head.toNat + 1 := by
    rw [UInt64.toNat_add, UInt64.toNat_one, Nat.mod_eq_of_lt (by omega)]
  have hpop : st.monoPopFront.toState = st.toState.monoPopFront := by
    simp [toState, monoPopFront, MonoDequeState.monoPopFront, count_pop hne, hhead]
  refine ⟨hpop, hpop ▸ h.ok.popFront.1, ?_, h.index_le⟩
  have hle := Nat.mod_le (st.head.toNat + 1) st.cap.toNat
  simp only [monoPopFront, count_pop hne, UInt64.toNat_mod, hhead]
  omega

/-- The front is a cell in use. -/
theorem front (h : st.Fits t) (hne : ¬ st.count = 0) :
    ∃ e ∈ st.buf, st.monoFront = .ok e ∧ readEntry e = st.toState.monoFront := by
  have hlt : st.head.toNat < st.buf.length := by
    have hhead := h.ok.head_lt
    have hlength := h.ok.length_eq
    simp only [toState, List.length_map] at hhead hlength
    omega
  refine ⟨_, List.getElem_mem hlt, readCell_live (mem_liveCells.2 ⟨0, count_pos hne, ?_⟩) hlt, ?_⟩
  · rw [Nat.add_zero]
    exact Nat.mod_eq_of_lt h.ok.head_lt
  · simp [MonoDequeState.monoFront, toState, hlt]

omit [Fp D] in
/-- The back is the cell it is on numbers. -/
theorem tailIndex (h : st.Fits t) (ht : t < 2 ^ 64) (hne : ¬ st.count = 0) :
    st.monoTailIndex.toNat = st.toState.monoTailIndex := by
  have hpos := count_pos hne
  have hsum := h.sum_le
  have hadd : (st.head + st.count).toNat = st.head.toNat + st.count.toNat := by
    rw [UInt64.toNat_add, Nat.mod_eq_of_lt (by omega)]
  have hone : (1 : UInt64) ≤ st.head + st.count := by
    rw [UInt64.le_iff_toNat_le, UInt64.toNat_one, hadd]
    omega
  rw [monoTailIndex, UInt64.toNat_mod, UInt64.toNat_sub_of_le _ _ hone, UInt64.toNat_one, hadd]
  rfl

/-- The back is a cell in use. -/
theorem back (h : st.Fits t) (ht : t < 2 ^ 64) (hne : ¬ st.count = 0) :
    ∃ e ∈ st.buf, st.monoBack = .ok e ∧ readEntry e = st.toState.monoBack := by
  have hpos := count_pos hne
  have htail := h.tailIndex ht hne
  have hcell : st.toState.monoTailIndex =
      (st.head.toNat + (st.count.toNat - 1)) % st.cap.toNat := by
    rw [MonoDequeState.monoTailIndex, toState, Nat.add_sub_assoc hpos]
  have hlt : st.monoTailIndex.toNat < st.buf.length := by
    have hhead := h.ok.head_lt
    have hlength := h.ok.length_eq
    simp only [toState, List.length_map] at hhead hlength
    rw [htail, hcell, hlength]
    exact Nat.mod_lt _ (by omega)
  refine ⟨_, List.getElem_mem hlt, readCell_live (mem_liveCells.2 ⟨st.count.toNat - 1, by omega, ?_⟩)
    hlt, ?_⟩
  · rw [htail, hcell]
  · rw [MonoDequeState.monoBack, ← htail]
    simp [toState, hlt]

omit [Fp D] in
/-- **The push** goes to a cell that is not in use. -/
theorem pushBack (h : st.Fits t) (ht : t + 1 < 2 ^ 64) (hroom : st.toState.count < st.toState.cap)
    {v : UInt64 × D} (hv : v.1.toNat ≤ t + 1) :
    ∃ st', st.monoPushBack v = .ok st' ∧ st'.toState = st.toState.monoPushBack (readEntry v) ∧
      st'.Fits (t + 1) := by
  have hsum := h.sum_le
  have hroom' : st.count.toNat < st.cap.toNat := hroom
  have hadd : (st.head + st.count).toNat = st.head.toNat + st.count.toNat := by
    rw [UInt64.toNat_add, Nat.mod_eq_of_lt (by omega)]
  have hcount : (st.count + 1).toNat = st.count.toNat + 1 := by
    rw [UInt64.toNat_add, UInt64.toNat_one, Nat.mod_eq_of_lt (by omega)]
  have hfull : ¬ st.cap ≤ st.count := by
    rw [UInt64.le_iff_toNat_le]
    omega
  have hdead : ¬ ((st.head + st.count) % st.cap).toNat ∈ st.liveCells := by
    rw [mem_liveCells, UInt64.toNat_mod, hadd]
    rintro ⟨i, hi, hcell⟩
    exact HoldsWindow.cell_ne (by omega) (by omega) hcell
  refine ⟨_, (if_neg hfull).trans (if_neg hdead), ?_⟩
  have hpush : toState { st with
      buf := st.buf.set ((st.head + st.count) % st.cap).toNat v
      count := st.count + 1 } = st.toState.monoPushBack (readEntry v) := by
    simp [toState, MonoDequeState.monoPushBack, hcount, hadd, List.map_set]
  refine ⟨hpush, hpush ▸ (h.ok.pushBack hroom _).1, ?_, fun e he => ?_⟩
  · simp only [hcount]
    omega
  · rcases List.mem_or_eq_of_mem_set he with hmem | rfl
    · exact (h.index_le e hmem).trans (Nat.le_succ t)
    · exact hv

/-- The loop at the back. By induction on the turns. -/
theorem popBackWhile (h : st.Fits t) (ht : t < 2 ^ 64) (pops : D → Bool) {turns : Nat}
    (hturns : st.count.toNat ≤ turns) :
    ∃ st', st.popBackWhile pops (turns + 1) = .ok st' ∧
      st'.toState = st.toState.popBackWhile pops turns ∧ st'.Fits t := by
  induction turns generalizing st with
  | zero =>
    have hzero : st.count = 0 := by
      rw [← UInt64.toNat_inj, UInt64.toNat_zero]
      omega
    exact ⟨st, if_pos hzero, rfl, h⟩
  | succ turns ih =>
    by_cases hne : st.count = 0
    · have hstop : ¬ (st.toState.count ≠ 0 ∧ pops st.toState.monoBack.2) := by simp [toState, hne]
      exact ⟨st, if_pos hne, (if_neg hstop).symm, h⟩
    · obtain ⟨e, -, hread, hback⟩ := h.back ht hne
      have hsnd : st.toState.monoBack.2 = e.2 := by rw [← hback]; rfl
      have hcount : st.toState.count ≠ 0 := (count_pos hne).ne'
      rw [MonoDequeWords.popBackWhile, if_neg hne, hread, MonoDequeState.popBackWhile, hsnd]
      simp only [bind, Except.bind]
      by_cases hpops : pops e.2 = true
      · obtain ⟨hpop, hfits⟩ := h.popBack hne
        have hturns' : st.monoPopBack.count.toNat ≤ turns := by
          simp only [monoPopBack, count_pop hne]
          omega
        rw [if_pos hpops, if_pos ⟨hcount, hpops⟩, ← hpop]
        exact ih hfits hturns'
      · rw [if_neg hpops, if_neg fun hboth => hpops hboth.2]
        exact ⟨st, rfl, rfl, h⟩

/-- The loop at the front. By induction on the turns. -/
theorem popFrontWhile (h : st.Fits (t + 1)) (ht : t + 1 < 2 ^ 64) {idx : UInt64}
    (hidx : idx.toNat = t) (period : UInt64) {turns : Nat} (hturns : st.count.toNat ≤ turns) :
    ∃ st', st.popFrontWhile idx period (turns + 1) = .ok st' ∧
      st'.toState = st.toState.popFrontWhile t period.toNat turns ∧ st'.Fits (t + 1) := by
  induction turns generalizing st with
  | zero =>
    have hzero : st.count = 0 := by
      rw [← UInt64.toNat_inj, UInt64.toNat_zero]
      omega
    exact ⟨st, if_pos hzero, rfl, h⟩
  | succ turns ih =>
    by_cases hne : st.count = 0
    · have hstop : ¬ (st.toState.count ≠ 0 ∧ period.toNat < t + 1 - st.toState.monoFront.1) := by
        simp [toState, hne]
      exact ⟨st, if_pos hne, (if_neg hstop).symm, h⟩
    · obtain ⟨e, hmem, hread, hfront⟩ := h.front hne
      have hfst : st.toState.monoFront.1 = e.1.toNat := by rw [← hfront]; rfl
      have hcount : st.toState.count ≠ 0 := (count_pos hne).ne'
      -- the age does not wrap
      have hnext : (idx + 1).toNat = t + 1 := by
        rw [UInt64.toNat_add, UInt64.toNat_one, hidx, Nat.mod_eq_of_lt (by omega)]
      have hage : (idx + 1 - e.1).toNat = t + 1 - e.1.toNat := by
        rw [UInt64.toNat_sub_of_le, hnext]
        rw [UInt64.le_iff_toNat_le, hnext]
        exact h.index_le e hmem
      rw [MonoDequeWords.popFrontWhile, if_neg hne, hread, MonoDequeState.popFrontWhile, hfst]
      simp only [bind, Except.bind, UInt64.lt_iff_toNat_lt, hage]
      by_cases hold : period.toNat < t + 1 - e.1.toNat
      · obtain ⟨hpop, hfits⟩ := h.popFront ht hne
        have hturns' : st.monoPopFront.count.toNat ≤ turns := by
          simp only [monoPopFront, count_pop hne]
          omega
        rw [if_pos hold, if_pos ⟨hcount, hold⟩, ← hpop]
        exact ih hfits hturns'
      · rw [if_neg hold, if_neg fun hboth => hold hboth.2]
        exact ⟨st, rfl, rfl, h⟩

end Fits

end MonoDequeWords

/-! ## The update -/

namespace RollingMinMaxWords

variable {D : Type} [Fp D] {kind : MonoDequeKind} {p : UInt64} {xs : List D}
  {st : RollingMinMaxWords D}

/-- The words read as numbers. -/
def toState (st : RollingMinMaxWords D) : RollingMinMaxState D := ⟨st.dq.toState, st.idx.toNat⟩

/-- The state after the samples `xs`. -/
structure Refines (kind : MonoDequeKind) (p : UInt64) (xs : List D) (st : RollingMinMaxWords D) :
    Prop where
  follows : st.toState.Follows kind p.toNat xs
  fits : st.dq.Fits xs.length

/-- **One sample more.** No check fails, and the words stand for the numbers. -/
theorem Refines.update (h : st.Refines kind p xs) (hp : 0 < p.toNat)
    (hlength : xs.length + 1 < 2 ^ 64) {x : D} (hx : Comparable kind.pops (xs ++ [x])) :
    ∃ st', updateRollingChecked kind p st x =
        .ok ((updateRolling kind st.toState p.toNat x).1, st') ∧
      st'.toState = (updateRolling kind st.toState p.toNat x).2 ∧ st'.Refines kind p (xs ++ [x]) := by
  have hidx : st.idx.toNat = xs.length := h.follows.idx_eq
  obtain ⟨dq, hback, hdq, hfits⟩ := h.fits.popBackWhile (by omega) (kind.pops x) le_rfl
  have hroom : dq.toState.count < dq.toState.cap := hdq ▸ h.follows.fits.room x
  obtain ⟨dq', hpush, hdq', hfits'⟩ := hfits.pushBack hlength hroom
    (show (st.idx, x).1.toNat ≤ xs.length + 1 by rw [hidx]; exact Nat.le_succ _)
  obtain ⟨dq'', hfront, hdq'', hfits''⟩ := hfits'.popFrontWhile hlength hidx p le_rfl
  obtain ⟨hfollows, i, hout, -⟩ := h.follows.update hp hx
  have hdeque : dq''.toState = (updateRolling kind st.toState p.toNat x).2.dq := by
    rw [hdq'', show dq'.count.toNat = dq'.toState.count from rfl, hdq', hdq, ← hidx]
    rfl
  have hne : ¬ dq''.count = 0 := by
    have hpos := hfollows.count_pos hx hp (by simp)
    rw [← hdeque] at hpos
    intro hzero
    simp [MonoDequeWords.toState, hzero] at hpos
  obtain ⟨e, -, hread, he⟩ := hfits''.front hne
  have hvalue : e.2 = (updateRolling kind st.toState p.toNat x).1 := by
    rw [← hdeque, ← he] at hout
    exact congrArg Prod.snd hout
  have hnext : (st.idx + 1).toNat = st.idx.toNat + 1 := by
    rw [UInt64.toNat_add, UInt64.toNat_one, Nat.mod_eq_of_lt (by omega)]
  have hstate : toState ⟨dq'', st.idx + 1⟩ = (updateRolling kind st.toState p.toNat x).2 := by
    rw [toState, hdeque, hnext]
    rfl
  refine ⟨⟨dq'', st.idx + 1⟩, ?_, hstate, hstate ▸ hfollows, by simpa using hfits''⟩
  rw [updateRollingChecked, hback]
  simp only [bind, Except.bind, hpush, hfront, hread, hvalue]

theorem succ_toNat (hcap : p.toNat + 1 < 2 ^ 64) : (p + 1).toNat = p.toNat + 1 := by
  rw [UInt64.toNat_add, UInt64.toNat_one, Nat.mod_eq_of_lt hcap]

/-- The deque `MonoInit` sets up. -/
theorem monoInit_words (hcap : p.toNat + 1 < 2 ^ 64) :
    (MonoDequeWords.init : MonoDequeWords D).monoInit p =
      ⟨List.replicate (p + 1).toNat (0, ofNat 0), 0, 0, p + 1⟩ := by
  have hfresh : ¬ (MonoDequeWords.init : MonoDequeWords D).cap = p + 1 := by
    rw [← UInt64.toNat_inj, succ_toNat hcap]
    exact (Nat.succ_ne_zero _).symm
  rw [MonoDequeWords.monoInit, if_neg hfresh]

/-- The same on numbers. -/
theorem toState_monoInit (hcap : p.toNat + 1 < 2 ^ 64) :
    toState (⟨MonoDequeWords.init.monoInit p, 0⟩ : RollingMinMaxWords D) =
      ⟨MonoDequeState.init.monoInit p.toNat, 0⟩ := by
  rw [monoInit_words hcap, MonoDequeState.monoInit_init]
  simp [toState, MonoDequeWords.toState, MonoDequeWords.readEntry, succ_toNat hcap]

/-- Before the first sample. -/
theorem refines_nil (kind : MonoDequeKind) (hcap : p.toNat + 1 < 2 ^ 64) :
    Refines kind p [] (⟨MonoDequeWords.init.monoInit p, 0⟩ : RollingMinMaxWords D) := by
  have hfollows := RollingMinMaxState.follows_nil (D := D) kind p.toNat
  rw [← toState_monoInit hcap] at hfollows
  refine ⟨hfollows, hfollows.ok, ?_, ?_⟩
  · simp [monoInit_words hcap]
  · rw [monoInit_words hcap]
    intro e he
    rw [List.eq_of_mem_replicate he]
    exact le_rfl

/-- Past the guards of their first lines the four functions are one. -/
theorem Refines.words (h : st.Refines kind p xs) (hcap : p.toNat + 1 < 2 ^ 64)
    (caller : RollingCaller) (x : D) :
    updateRollingWords caller kind p st x = updateRollingChecked kind p st x := by
  have hdq : st.dq.cap = p + 1 := by
    rw [← UInt64.toNat_inj, succ_toNat hcap]
    exact h.follows.cap_eq
  cases caller with
  | interpreter => rw [updateRollingWords, MonoDequeWords.monoInit, if_pos hdq]
  | compiled =>
    have hne : ¬ p + 1 = 0 := by
      rw [← UInt64.toNat_inj, succ_toNat hcap]
      exact Nat.succ_ne_zero _
    simp only [updateRollingWords, hdq, if_neg hne, UInt64.add_sub_cancel]

/-- **Every stream.** -/
theorem rollingAfter_refines (caller : RollingCaller) (hp : 0 < p.toNat)
    (hcap : p.toNat + 1 < 2 ^ 64) (hlength : xs.length < 2 ^ 64)
    (hxs : Comparable kind.pops xs) :
    ∃ st, rollingAfter caller kind p xs = .ok st ∧ st.Refines kind p xs := by
  refine foldlM_history (motive := Refines kind p) (fun ys y st hbefore hst => ?_)
    (refines_nil kind hcap)
  have hle := hbefore.length_le
  rw [List.length_append, List.length_singleton] at hle
  obtain ⟨st', hupdate, -, hst'⟩ := hst.update hp (by omega) (hxs.of_subset hbefore.subset)
  refine ⟨st', ?_, hst'⟩
  rw [hst.words hcap caller, hupdate]
  rfl

end RollingMinMaxWords

/-! ## Samples from a linear order -/

section Ordered

variable {α D : Type} [LinearOrder α] [Fp D]

/-- The minimum or maximum of some samples. -/
def MonoDequeKind.IsExtremum (kind : MonoDequeKind) (us : List α) (v : α) : Prop :=
  match kind with
  | .min => IsLeast {u | u ∈ us} v
  | .max => IsGreatest {u | u ∈ us} v

/-- The order of the values from the front to the back. -/
def MonoDequeKind.Before (kind : MonoDequeKind) (u v : α) : Prop :=
  match kind with
  | .min => u < v
  | .max => v < u

/-- What a deque holds after the samples `us`. -/
structure SortedWindow (kind : MonoDequeKind) (p : Nat) (us : List α) (es : List (Nat × α)) :
    Prop where
  ne_nil : es ≠ []
  length_le : es.length ≤ p
  indices : es.Pairwise fun e e' => e.1 < e'.1
  values : es.Pairwise fun e e' => kind.Before e.2 e'.2
  sample : ∀ e ∈ es, InWindow p us.length e.1 ∧ us[e.1]? = some e.2

omit [LinearOrder α] in
/-- Positions in the window. -/
theorem mem_window_iff {p : Nat} {us : List α} {u : α} :
    u ∈ window p us ↔ ∃ i, InWindow p us.length i ∧ us[i]? = some u := by
  rw [window, List.mem_iff_getElem?]
  constructor
  · rintro ⟨j, hj⟩
    rw [List.getElem?_drop] at hj
    have hlt := (List.getElem?_eq_some_iff.1 hj).1
    exact ⟨us.length - p + j, ⟨hlt, by omega⟩, hj⟩
  · rintro ⟨i, ⟨hlt, hle⟩, hi⟩
    refine ⟨i - (us.length - p), ?_⟩
    rw [List.getElem?_drop, Nat.add_sub_cancel' (by omega), hi]

section Embedding

variable {f : α → D} (hf : ∀ u v, le (f u) (f v) = decide (u ≤ v))

include hf

theorem comparable_map (us : List α) : Comparable le (us.map f) := by
  constructor
  · intro x hx y hy
    obtain ⟨u, -, rfl⟩ := List.mem_map.1 hx
    obtain ⟨v, -, rfl⟩ := List.mem_map.1 hy
    simpa [hf] using le_total u v
  · intro x hx y hy z hz
    obtain ⟨u, -, rfl⟩ := List.mem_map.1 hx
    obtain ⟨v, -, rfl⟩ := List.mem_map.1 hy
    obtain ⟨w, -, rfl⟩ := List.mem_map.1 hz
    simpa [hf] using le_trans (a := u) (b := v) (c := w)

theorem before_of_pops (kind : MonoDequeKind) {u v : α} (h : kind.pops (f v) (f u) = false) :
    kind.Before u v := by
  cases kind with
  | min => exact not_le.1 (by simpa [MonoDequeKind.pops, hf] using h)
  | max => exact not_le.1 (by simpa [MonoDequeKind.pops, hf] using h)

/-- A best value of the window is its extremum. -/
theorem BestOfWindow.isExtremum {kind : MonoDequeKind} {p i : Nat} {us : List α} {v : α}
    (h : BestOfWindow kind.pops (us.map f) p i) (hv : us[i]? = some v) :
    kind.IsExtremum (window p us) v := by
  have hmem : v ∈ window p us := mem_window_iff.2 ⟨i, by simpa using h.inWindow, hv⟩
  have hbest : ∀ u ∈ window p us, kind.pops (f v) (f u) = true := by
    intro u hu
    obtain ⟨j, hj, hu⟩ := mem_window_iff.1 hu
    exact h.best j (by simpa using hj) (f v) (by simp [hv]) (f u) (by simp [hu])
  cases kind with
  | min => exact ⟨hmem, fun u hu => by simpa [MonoDequeKind.pops, hf] using hbest u hu⟩
  | max => exact ⟨hmem, fun u hu => by simpa [MonoDequeKind.pops, hf] using hbest u hu⟩

/-- The entries of a deque are samples. -/
theorem Survivors.unmap {kind : MonoDequeKind} {p : Nat} {us : List α} {ds : List (Nat × D)}
    (h : Survivors kind.pops (us.map f) p ds) (hne : ds ≠ []) :
    ∃ es, ds = es.map (fun e => (e.1, f e.2)) ∧ SortedWindow kind p us es := by
  obtain ⟨es, rfl, hes⟩ : ∃ es : List (Nat × α), ds = es.map (fun e => (e.1, f e.2)) ∧
      ∀ e ∈ es, us[e.1]? = some e.2 := by
    have hvalue := h.value
    clear h hne
    induction ds with
    | nil => exact ⟨[], rfl, by simp⟩
    | cons d ds ih =>
      obtain ⟨es, rfl, hes⟩ := ih fun e he => hvalue e (List.mem_cons_of_mem _ he)
      have hd := hvalue d List.mem_cons_self
      rw [List.getElem?_map, Option.map_eq_some_iff] at hd
      obtain ⟨u, hu, hfu⟩ := hd
      refine ⟨(d.1, u) :: es, by rw [List.map_cons, hfu], fun e he => ?_⟩
      rcases List.mem_cons.1 he with rfl | he
      · exact hu
      · exact hes e he
  have hchain := List.pairwise_map.1 h.chain
  refine ⟨es, rfl, by simpa using hne, by simpa using h.length_le, hchain.imp fun hlt => hlt.1,
    hchain.imp fun hlt => before_of_pops hf kind hlt.2, fun e he => ⟨⟨?_, ?_⟩, hes e he⟩⟩
  · exact (List.getElem?_eq_some_iff.1 (hes e he)).1
  · have hrecent := h.recent _ (List.mem_map_of_mem he)
    simpa using hrecent

end Embedding

end Ordered

/-- **The deque yields the extremum of the window.** After any stream of fewer than `2^64` samples,
the next sample included, no check of the update ever failed: every read hit a cell in use, every
write another one, and the ring had room. The value returned is the extremum of the window, and
the entries are sorted samples of it. -/
theorem monoDeque_window {α D : Type} [LinearOrder α] [Fp D] {f : α → D}
    (hf : ∀ u v, le (f u) (f v) = decide (u ≤ v)) (caller : RollingCaller) (kind : MonoDequeKind)
    {p : UInt64} (hp : 1 ≤ p.toNat) (hcap : p.toNat + 1 < 2 ^ 64) (past : List α) (u : α)
    (hlength : past.length + 1 < 2 ^ 64) :
    ∃ st v st' es, rollingAfter caller kind p (past.map f) = .ok st ∧
      updateRollingWords caller kind p st (f u) = .ok (f v, st') ∧
      kind.IsExtremum (window p.toNat (past ++ [u])) v ∧
      SortedWindow kind p.toNat (past ++ [u]) es ∧
      st'.dq.entries = es.map (fun e => (.ofNat e.1, f e.2)) ∧
      st'.dq.count.toNat = es.length ∧ st'.dq.cap.toNat = p.toNat + 1 := by
  have hmap : (past ++ [u]).map f = past.map f ++ [f u] := by simp
  have hall : Comparable kind.pops (past.map f ++ [f u]) :=
    hmap ▸ comparable_pops (comparable_map hf _)
  obtain ⟨st, hrun, hst⟩ := RollingMinMaxWords.rollingAfter_refines caller hp hcap
    (by simpa using Nat.lt_of_succ_lt hlength) (comparable_pops (comparable_map hf past))
  obtain ⟨st', hupdate, -, hst'⟩ := hst.update hp (by simpa using hlength) hall
  obtain ⟨-, i, -, hvalue, hbest⟩ := hst.follows.update hp hall
  rw [← hmap] at hvalue hbest hall hst'
  -- the value returned is a sample
  obtain ⟨v, hv, hfv⟩ := Option.map_eq_some_iff.1 (List.getElem?_map ▸ hvalue)
  rw [← hfv] at hupdate
  -- and so are the entries
  have hne : st'.dq.toState.entries ≠ [] := by
    have hpos := hst'.follows.count_pos hall hp (by simp)
    rw [← hst'.follows.ok.length_entries] at hpos
    exact List.ne_nil_of_length_pos hpos
  obtain ⟨es, hes, hsorted⟩ := hst'.follows.survivors.unmap hf hne
  refine ⟨st, v, st', es, hrun, ?_, hbest.isExtremum hf hv, hsorted, ?_, ?_, hst'.follows.cap_eq⟩
  · rw [hst.words hcap caller]
    exact hupdate
  · rw [MonoDequeWords.entries_eq, show st'.dq.toState.entries = _ from hes, List.map_map]
    rfl
  · have hcount := hst'.follows.ok.length_entries
    rw [show st'.toState.dq.entries = _ from hes, List.length_map] at hcount
    exact hcount.symm

/-- A window of two in which the oldest sample, a minimum, is about to leave. -/
theorem monoDeque_window_two :
    ∃ st v st' es, rollingAfter .compiled .min 2 ([1, 3].map (Exact.val : ℚ → Exact ℚ)) = .ok st ∧
      updateRollingWords .compiled .min 2 st (.val 2) = .ok (.val v, st') ∧
      MonoDequeKind.min.IsExtremum (window 2 ([1, 3] ++ [2])) v ∧
      SortedWindow .min 2 ([1, 3] ++ [2]) es ∧
      st'.dq.entries = es.map (fun e => (.ofNat e.1, .val e.2)) ∧
      st'.dq.count.toNat = es.length ∧ st'.dq.cap.toNat = 2 + 1 :=
  monoDeque_window (fun _ _ => rfl) .compiled .min (by decide) (by decide) [1, 3] 2 (by decide)

end JitSignalEngine
