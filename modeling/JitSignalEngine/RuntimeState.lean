import JitSignalEngine.Arithmetic
import Mathlib.Data.List.Basic

/-!
# Operator state and its updates

The per-node states of the stateful operators and the functions of `runtime.cpp`
that push a sample into them and read a value out. Each state is a plain record
with the fields of the C++ struct; `Default` is the C++ default member
initialisation, which is also what `PrewarmSignalContext` finds in a new context.

Every windowed state comes with two pushes. The interpreter calls the one that
takes the period and re-initialises the state when its capacity differs; compiled
code calls the `Prepared` one, which relies on the prewarm. Past the guard the two
run the same statements, which are written once here (`slide`).

Buffers are lists of the length the C++ vector has. The refresh of the Welford
accumulators follows the default branch of `RingStatsRefreshInterval` (one refresh
per `capacity` slides), not the one for MSVC.
-/

namespace JitSignalEngine

open Fp Widen

variable {D L : Type} [Fp D] [Fp L] [Widen D L]

/-! ## Rolling-window statistics: `sma`, `rolling_std`, `zscore` -/

/-- `RingStatsState`: a ring buffer, a running sum, and Welford's running mean and
sum of squared deviations. -/
structure RingStatsState (D L : Type) where
  /-- the last `capacity` samples, `head` pointing at the oldest once full -/
  buffer : List D
  /-- window length, `0` before the first initialisation -/
  capacity : Nat
  /-- next slot to write -/
  head : Nat
  /-- samples held -/
  count : Nat
  /-- running sum -/
  sum : L
  /-- Welford running mean -/
  mean : L
  /-- Welford sum of squared deviations -/
  m2 : L
  /-- slides since `mean` and `m2` were last recomputed from the buffer -/
  slidesSinceRefresh : Nat

namespace RingStatsState

/-- `RingStatsState{}` -/
def init : RingStatsState D L :=
  ⟨[], 0, 0, 0, ofNat 0, ofNat 0, ofNat 0, 0⟩

/-- The state both `RingStatsPush` and the prewarm assign when the capacity does
not match the period. -/
def reset (period : Nat) : RingStatsState D L :=
  ⟨List.replicate period (ofNat 0), period, 0, 0, ofNat 0, ofNat 0, ofNat 0, 0⟩

end RingStatsState

/-- `RingStatsRefreshInterval` -/
def ringStatsRefreshInterval (capacity : Nat) : Nat := capacity

/-- `RingStatsUpdateMeanM2OnAdd`; `count` already counts the new sample. -/
def ringStatsUpdateMeanM2OnAdd (st : RingStatsState D L) (sample : D) : RingStatsState D L :=
  let x : L := widen sample
  let n : L := ofNat st.count
  let delta := sub x st.mean
  let mean := add st.mean (div delta n)
  let delta2 := sub x mean
  { st with mean := mean, m2 := add st.m2 (mul delta delta2) }

/-- `RingStatsUpdateMeanM2OnSlide`: remove the expiring sample, add the new one,
clamp `m2` at zero. -/
def ringStatsUpdateMeanM2OnSlide (st : RingStatsState D L) (oldSample newSample : D) :
    RingStatsState D L :=
  if st.capacity ≤ 1 then
    { st with mean := widen newSample, m2 := ofNat 0 }
  else
    let n : L := ofNat st.count
    -- phase 1: remove the old sample
    let xOld : L := widen oldSample
    let delta := sub xOld st.mean
    let mean := sub st.mean (div delta (sub n (ofNat 1)))
    let m2 := sub st.m2 (mul delta (sub xOld mean))
    -- phase 2: add the new one
    let xNew : L := widen newSample
    let delta := sub xNew mean
    let mean := add mean (div delta n)
    let m2 := add m2 (mul delta (sub xNew mean))
    { st with mean := mean, m2 := if lt m2 (ofNat 0) then ofNat 0 else m2 }

/-- The summation loop of `RingStatsRefreshMeanM2FromBuffer`. -/
def ringStatsBufferSum (xs : List D) : L :=
  xs.foldl (fun sum b => add sum (widen b)) (ofNat 0)

/-- The deviation loop of `RingStatsRefreshMeanM2FromBuffer`. -/
def ringStatsBufferSquares (mean : L) (xs : List D) : L :=
  xs.foldl (fun ss b => add ss (mul (sub (widen b) mean) (sub (widen b) mean))) (ofNat 0)

/-- `RingStatsRefreshMeanM2FromBuffer` -/
def ringStatsRefreshMeanM2FromBuffer (st : RingStatsState D L) : RingStatsState D L :=
  let n : L := ofNat st.count
  let mean := div (ringStatsBufferSum (st.buffer.take st.count)) n
  let ss := ringStatsBufferSquares mean (st.buffer.take st.count)
  { st with
    mean := mean
    m2 := if lt ss (ofNat 0) then ofNat 0 else ss
    slidesSinceRefresh := 0 }

/-- The statements `RingStatsPush` and `RingStatsPushPrepared` share, up to the
write of the sample: drop the oldest sample from a full window or count a new one. -/
def ringStatsAdmit (st : RingStatsState D L) (sample : D) : RingStatsState D L :=
  if st.count = st.capacity then
    let old := st.buffer.getD st.head (ofNat 0)
    ringStatsUpdateMeanM2OnSlide { st with sum := sub st.sum (widen old) } old sample
  else
    ringStatsUpdateMeanM2OnAdd { st with count := st.count + 1 } sample

/-- The write of the sample: buffer, running sum, head. -/
def ringStatsWrite (st : RingStatsState D L) (sample : D) : RingStatsState D L :=
  { st with
    buffer := st.buffer.set st.head sample
    sum := add st.sum (widen sample)
    head := (st.head + 1) % st.capacity }

/-- The refresh that ends a push which slid the window. -/
def ringStatsTick (st : RingStatsState D L) : RingStatsState D L :=
  let st := { st with slidesSinceRefresh := st.slidesSinceRefresh + 1 }
  if ringStatsRefreshInterval st.capacity ≤ st.slidesSinceRefresh ∧ 1 < st.capacity then
    ringStatsRefreshMeanM2FromBuffer st
  else st

/-- The body of `RingStatsPush` and `RingStatsPushPrepared` past their guards. -/
def ringStatsSlide (st : RingStatsState D L) (sample : D) : RingStatsState D L :=
  let st' := ringStatsWrite (ringStatsAdmit st sample) sample
  if st.count = st.capacity then ringStatsTick st' else st'

/-- `RingStatsPush` -/
def ringStatsPush (st : RingStatsState D L) (period : Nat) (sample : D) :
    Except String (RingStatsState D L) :=
  if period = 0 then .error "RingStatsPush requires period > 0"
  else .ok (ringStatsSlide (if st.capacity = period then st else .reset period) sample)

/-- `RingStatsPushPrepared` -/
def ringStatsPushPrepared (st : RingStatsState D L) (sample : D) :
    Except String (RingStatsState D L) :=
  if st.capacity = 0 ∨ st.buffer = [] then
    .error "RingStatsPushPrepared called before state prewarm"
  else .ok (ringStatsSlide st sample)

/-- `RingStatsMean` -/
def ringStatsMean (st : RingStatsState D L) : D :=
  if st.count = 0 then nan else narrow (div st.sum (ofNat st.count))

/-- The final steps of `RingStatsStddevSample`: a variance that rounding left
slightly below zero counts as zero. -/
def stddevOfVariance (var m2 : L) : D :=
  let scale : L := add (ofNat 1) m2
  let var := if lt var (ofNat 0) && le (fabs var) (mul (ofRat (1 / 1000000000000000)) scale)
    then ofNat 0 else var
  if lt var (ofNat 0) then nan else sqrt (narrow var)

/-- `RingStatsStddevSample` -/
def ringStatsStddevSample (st : RingStatsState D L) : D :=
  if st.count < 2 then nan
  else stddevOfVariance (div st.m2 (sub (ofNat st.count) (ofNat 1))) st.m2

/-- `RingStatsFull` -/
def ringStatsFull (st : RingStatsState D L) : Bool :=
  st.count = st.capacity && 0 < st.capacity

/-! ## Exponential moving averages -/

/-- `EMAState` -/
structure EMAState (D : Type) where
  /-- current average -/
  value : D
  /-- smoothing factor, read back by compiled code -/
  alpha : D
  /-- the period the slot was prewarmed with -/
  period : Int
  /-- whether a first sample was taken -/
  initialized : Bool

/-- `EMAState{}` -/
def EMAState.init : EMAState D := ⟨ofNat 0, ofNat 0, 0, false⟩

/-- `2.0 / (static_cast<double>(period) + 1.0)` -/
def emaAlphaOfPeriod (period : Int) : D := div (ofNat 2) (add (ofInt period) (ofNat 1))

/-- `alpha * x + (1.0 - alpha) * value` -/
def emaBlend (alpha x value : D) : D := add (mul alpha x) (mul (sub (ofNat 1) alpha) value)

/-! ## Volume-weighted average price -/

/-- `VwapState` -/
structure VwapState (D L : Type) where
  /-- the last `capacity` prices -/
  priceBuf : List D
  /-- the volumes that belong to them -/
  volBuf : List D
  /-- window length -/
  capacity : Nat
  /-- next slot to write -/
  head : Nat
  /-- samples held -/
  count : Nat
  /-- running sum of price times volume -/
  sumPv : L
  /-- running sum of volume -/
  sumVol : L

namespace VwapState

/-- `VwapState{}` -/
def init : VwapState D L := ⟨[], [], 0, 0, 0, ofNat 0, ofNat 0⟩

/-- The state `VwapPush` and the prewarm assign when the capacity does not match. -/
def reset (period : Nat) : VwapState D L :=
  ⟨List.replicate period (ofNat 0), List.replicate period (ofNat 0), period, 0, 0,
    ofNat 0, ofNat 0⟩

end VwapState

/-- The body of `VwapPush` and `VwapPushPrepared` past their guards. -/
def vwapSlide (st : VwapState D L) (price volume : D) : VwapState D L :=
  let oldP : L := widen (st.priceBuf.getD st.head (ofNat 0))
  let oldV : L := widen (st.volBuf.getD st.head (ofNat 0))
  let full := st.count = st.capacity
  let sumPv := if full then sub st.sumPv (mul oldP oldV) else st.sumPv
  let sumVol := if full then sub st.sumVol oldV else st.sumVol
  { st with
    count := if full then st.count else st.count + 1
    priceBuf := st.priceBuf.set st.head price
    volBuf := st.volBuf.set st.head volume
    sumPv := add sumPv (mul (widen price) (widen volume))
    sumVol := add sumVol (widen volume)
    head := (st.head + 1) % st.capacity }

/-- `VwapPush` -/
def vwapPush (st : VwapState D L) (period : Nat) (price volume : D) :
    Except String (VwapState D L) :=
  if period = 0 then .error "VwapPush requires period > 0"
  else .ok (vwapSlide (if st.capacity = period then st else .reset period) price volume)

/-- `VwapPushPrepared` -/
def vwapPushPrepared (st : VwapState D L) (price volume : D) : Except String (VwapState D L) :=
  if st.capacity = 0 ∨ st.priceBuf = [] ∨ st.volBuf = [] then
    .error "VwapPushPrepared called before state prewarm"
  else .ok (vwapSlide st price volume)

/-- `VwapValue` -/
def vwapValue (st : VwapState D L) : D :=
  if st.count = 0 || eq st.sumVol (ofNat 0) then nan else narrow (div st.sumPv st.sumVol)

/-- `VwapFull` -/
def vwapFull (st : VwapState D L) : Bool := st.count = st.capacity && 0 < st.capacity

/-! ## Lag -/

/-- `LagState` -/
structure LagState (D : Type) where
  /-- the last `capacity` samples -/
  buffer : List D
  /-- the delay in ticks -/
  capacity : Nat
  /-- next slot to write, which is the oldest sample once full -/
  head : Nat
  /-- samples held -/
  count : Nat

namespace LagState

/-- `LagState{}` -/
def init : LagState D := ⟨[], 0, 0, 0⟩

/-- The state `LagPush` and the prewarm assign when the capacity does not match. -/
def reset (period : Nat) : LagState D := ⟨List.replicate period (ofNat 0), period, 0, 0⟩

end LagState

/-- The body of `LagPush` and `LagPushPrepared` past their guards. -/
def lagSlide (st : LagState D) (sample : D) : LagState D :=
  { st with
    buffer := st.buffer.set st.head sample
    head := (st.head + 1) % st.capacity
    count := if st.count < st.capacity then st.count + 1 else st.count }

/-- `LagPush` -/
def lagPush (st : LagState D) (period : Nat) (sample : D) : Except String (LagState D) :=
  if period = 0 then .error "LagPush requires period > 0"
  else .ok (lagSlide (if st.capacity = period then st else .reset period) sample)

/-- `LagPushPrepared` -/
def lagPushPrepared (st : LagState D) (sample : D) : Except String (LagState D) :=
  if st.capacity = 0 ∨ st.buffer = [] then
    .error "LagPushPrepared called before state prewarm"
  else .ok (lagSlide st sample)

/-- `LagValue` -/
def lagValue (st : LagState D) : D :=
  if st.capacity = 0 ∨ st.count < st.capacity then nan else st.buffer.getD st.head (ofNat 0)

/-! ## Crossings -/

/-- `CrossState` -/
structure CrossState (D : Type) where
  /-- first argument at the previous tick -/
  prevA : D
  /-- second argument at the previous tick -/
  prevB : D
  /-- whether a previous tick exists -/
  initialized : Bool

/-- `CrossState{}` -/
def CrossState.init : CrossState D := ⟨ofNat 0, ofNat 0, false⟩

/-- The body of `EvalCrossAbove`, `EvalCrossBelow` and their `jit_rt_` twins; they
differ in the event looked for. -/
def crossStep (event : D → D → D → D → Bool) (st : CrossState D) (a b : D) :
    D × CrossState D :=
  if st.initialized then (ofBool (event st.prevA st.prevB a b), ⟨a, b, true⟩)
  else (ofNat 0, ⟨a, b, true⟩)

/-- `cross_above`: from at or below to strictly above. -/
def crossedAbove (prevA prevB a b : D) : Bool := le prevA prevB && lt b a

/-- `cross_below`: from at or above to strictly below. -/
def crossedBelow (prevA prevB a b : D) : Bool := le prevB prevA && lt a b

/-! ## Paired series: `rolling_corr`, `rolling_beta` -/

/-- `RollingPairState` -/
structure RollingPairState (D L : Type) where
  /-- the last `capacity` first components -/
  xBuf : List D
  /-- the second components that belong to them -/
  yBuf : List D
  /-- window length -/
  capacity : Nat
  /-- next slot to write -/
  head : Nat
  /-- pairs held -/
  count : Nat
  /-- running sum of `x` -/
  sumX : L
  /-- running sum of `y` -/
  sumY : L
  /-- running sum of `x * y` -/
  sumXy : L
  /-- running sum of `x * x` -/
  sumXx : L
  /-- running sum of `y * y` -/
  sumYy : L

namespace RollingPairState

/-- `RollingPairState{}` -/
def init : RollingPairState D L :=
  ⟨[], [], 0, 0, 0, ofNat 0, ofNat 0, ofNat 0, ofNat 0, ofNat 0⟩

/-- The state `RollingPairPush` and the prewarm assign when the capacity does not
match. -/
def reset (period : Nat) : RollingPairState D L :=
  ⟨List.replicate period (ofNat 0), List.replicate period (ofNat 0), period, 0, 0,
    ofNat 0, ofNat 0, ofNat 0, ofNat 0, ofNat 0⟩

end RollingPairState

/-- The body of `RollingPairPush` past the guard and the re-initialisation. -/
def rollingPairSlide (st : RollingPairState D L) (x y : D) : RollingPairState D L :=
  let ox : L := widen (st.xBuf.getD st.head (ofNat 0))
  let oy : L := widen (st.yBuf.getD st.head (ofNat 0))
  let full := st.count = st.capacity
  let drop := fun (sum old : L) => if full then sub sum old else sum
  { st with
    count := if full then st.count else st.count + 1
    xBuf := st.xBuf.set st.head x
    yBuf := st.yBuf.set st.head y
    sumX := add (drop st.sumX ox) (widen x)
    sumY := add (drop st.sumY oy) (widen y)
    sumXy := add (drop st.sumXy (mul ox oy)) (mul (widen x) (widen y))
    sumXx := add (drop st.sumXx (mul ox ox)) (mul (widen x) (widen x))
    sumYy := add (drop st.sumYy (mul oy oy)) (mul (widen y) (widen y))
    head := (st.head + 1) % st.capacity }

/-- `RollingPairPush` -/
def rollingPairPush (st : RollingPairState D L) (period : Nat) (x y : D) :
    Except String (RollingPairState D L) :=
  if period = 0 then .error "RollingPairPush requires period > 0"
  else .ok (rollingPairSlide (if st.capacity = period then st else .reset period) x y)

/-- `RollingPairFull` -/
def rollingPairFull (st : RollingPairState D L) : Bool :=
  st.count = st.capacity && 0 < st.capacity

/-- `sum_xy - sum_x * sum_y / n`, a sum of products of deviations. -/
def unnormalized (sumXy sumX sumY n : L) : L := sub sumXy (div (mul sumX sumY) n)

/-- `RollingPairCorrelation` -/
def rollingPairCorrelation (st : RollingPairState D L) : D :=
  if !rollingPairFull st then nan
  else
    let n : L := ofNat st.count
    let cov := unnormalized st.sumXy st.sumX st.sumY n
    let varX := unnormalized st.sumXx st.sumX st.sumX n
    let varY := unnormalized st.sumYy st.sumY st.sumY n
    if le varX (ofNat 0) || le varY (ofNat 0) then nan
    else
      let denom := sqrt (mul varX varY)
      if eq denom (ofNat 0) then nan
      else
        let r := div cov denom
        let r := if lt (ofNat 1) r then ofNat 1 else r
        let r := if lt r (ofRat (-1)) then ofRat (-1) else r
        narrow r

/-- `RollingPairBeta` -/
def rollingPairBeta (st : RollingPairState D L) : D :=
  if !rollingPairFull st then nan
  else
    let n : L := ofNat st.count
    let cov := unnormalized st.sumXy st.sumX st.sumY n
    let varX := unnormalized st.sumXx st.sumX st.sumX n
    if le varX (ofNat 0) then nan else narrow (div cov varX)

/-! ## The scalar Kalman filter -/

/-- `Kalman1dState` -/
structure Kalman1dState (D : Type) where
  /-- posterior estimate -/
  xHat : D
  /-- posterior error variance -/
  p : D
  /-- process noise of the last update -/
  q : D
  /-- measurement noise of the last update -/
  r : D
  /-- whether a first measurement was taken -/
  initialized : Bool

/-- `Kalman1dState{}` -/
def Kalman1dState.init : Kalman1dState D := ⟨ofNat 0, ofNat 0, ofNat 0, ofNat 0, false⟩

/-- `Kalman1dStep` -/
def kalman1dStep (st : Kalman1dState D) (x q r : D) : D × Kalman1dState D :=
  if !st.initialized then (x, ⟨x, r, q, r, true⟩)
  else
    let pPred := add st.p q
    let denom := add pPred r
    if le denom (ofNat 0) then (st.xHat, st)
    else
      let kGain := div pPred denom
      let xHat := add st.xHat (mul kGain (sub x st.xHat))
      let pNew := mul (sub (ofNat 1) kGain) pPred
      let pNew := if lt pNew (ofNat 0) then ofNat 0 else pNew
      (xHat, ⟨xHat, pNew, q, r, true⟩)

/-! ## Monotone deques: `rolling_min`, `rolling_max` -/

/-- `MonoDequeState`: a ring of (tick index, value) pairs. -/
structure MonoDequeState (D : Type) where
  /-- storage of the ring -/
  buf : List (Nat × D)
  /-- position of the front -/
  head : Nat
  /-- entries held -/
  count : Nat
  /-- size of the ring, one more than the window -/
  cap : Nat

namespace MonoDequeState

/-- `MonoDequeState{}` -/
def init : MonoDequeState D := ⟨[], 0, 0, 0⟩

/-- `MonoInit` -/
def monoInit (st : MonoDequeState D) (period : Nat) : MonoDequeState D :=
  if st.cap = period + 1 then st
  else ⟨List.replicate (period + 1) (0, ofNat 0), 0, 0, period + 1⟩

omit [Fp L] [Widen D L] in
theorem monoInit_init (period : Nat) : (init : MonoDequeState D).monoInit period =
    ⟨List.replicate (period + 1) (0, ofNat 0), 0, 0, period + 1⟩ :=
  if_neg (Nat.succ_ne_zero period).symm

/-- `MonoTailIndex` -/
def monoTailIndex (st : MonoDequeState D) : Nat := (st.head + st.count - 1) % st.cap

/-- `MonoFront` -/
def monoFront (st : MonoDequeState D) : Nat × D := st.buf.getD st.head (0, ofNat 0)

/-- `MonoBack` -/
def monoBack (st : MonoDequeState D) : Nat × D := st.buf.getD st.monoTailIndex (0, ofNat 0)

/-- `MonoPopFront` -/
def monoPopFront (st : MonoDequeState D) : MonoDequeState D :=
  { st with head := (st.head + 1) % st.cap, count := st.count - 1 }

/-- `MonoPopBack` -/
def monoPopBack (st : MonoDequeState D) : MonoDequeState D := { st with count := st.count - 1 }

/-- `MonoPushBack` -/
def monoPushBack (st : MonoDequeState D) (v : Nat × D) : MonoDequeState D :=
  { st with buf := st.buf.set ((st.head + st.count) % st.cap) v, count := st.count + 1 }

/-- `while (!MonoEmpty(dq) && pops(MonoBack(dq).second)) MonoPopBack(dq)`. Each turn
removes one entry, so `count` turns are enough. -/
def popBackWhile (pops : D → Bool) : Nat → MonoDequeState D → MonoDequeState D
  | 0, st => st
  | fuel + 1, st =>
    if st.count ≠ 0 ∧ pops st.monoBack.2 then popBackWhile pops fuel st.monoPopBack else st

/-- `while (!MonoEmpty(dq) && (idx + 1 - MonoFront(dq).first) > period)
MonoPopFront(dq)` -/
def popFrontWhile (idx period : Nat) : Nat → MonoDequeState D → MonoDequeState D
  | 0, st => st
  | fuel + 1, st =>
    if st.count ≠ 0 ∧ period < idx + 1 - st.monoFront.1
    then popFrontWhile idx period fuel st.monoPopFront else st

end MonoDequeState

/-- The comparison under which a back entry is dropped: `pops back sample` is
`back >= sample` for `rolling_min` and `back <= sample` for `rolling_max`. -/
inductive MonoDequeKind where
  | min | max
deriving DecidableEq, Repr

/-- The loop condition on the back entry. -/
def MonoDequeKind.pops (kind : MonoDequeKind) (sample back : D) : Bool :=
  match kind with
  | .min => le sample back
  | .max => le back sample

/-- A deque together with its tick counter (`rolling_min_indices`). -/
structure RollingMinMaxState (D : Type) where
  /-- the deque -/
  dq : MonoDequeState D
  /-- ticks seen -/
  idx : Nat

/-- A default deque and a zero index. -/
def RollingMinMaxState.init : RollingMinMaxState D := ⟨.init, 0⟩

/-- The body `UpdateRollingMin`, `UpdateRollingMax` and their `Prepared` forms share:
pop the dominated entries, push, drop the expired ones, read the front. -/
def updateRolling (kind : MonoDequeKind) (st : RollingMinMaxState D) (period : Nat)
    (sample : D) : D × RollingMinMaxState D :=
  let dq := st.dq.popBackWhile (kind.pops sample) st.dq.count
  let dq := dq.monoPushBack (st.idx, sample)
  let dq := dq.popFrontWhile st.idx period dq.count
  (dq.monoFront.2, ⟨dq, st.idx + 1⟩)

/-- `UpdateRollingMin` / `UpdateRollingMax` -/
def updateRollingInit (kind : MonoDequeKind) (st : RollingMinMaxState D) (period : Nat)
    (sample : D) : D × RollingMinMaxState D :=
  updateRolling kind { st with dq := st.dq.monoInit period } period sample

/-- `UpdateRollingMinPrepared` / `UpdateRollingMaxPrepared`: the period is read back
from the capacity. -/
def updateRollingPrepared (kind : MonoDequeKind) (st : RollingMinMaxState D) (sample : D) :
    Except String (D × RollingMinMaxState D) :=
  if st.dq.cap = 0 then
    .error (match kind with
      | .min => "UpdateRollingMinPrepared called before state prewarm"
      | .max => "UpdateRollingMaxPrepared called before state prewarm")
  else .ok (updateRolling kind st (st.dq.cap - 1) sample)

end JitSignalEngine
