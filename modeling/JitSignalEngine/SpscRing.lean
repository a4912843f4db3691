import Mathlib.Algebra.Group.Nat.Defs
import Mathlib.Data.List.Basic
import Mathlib.Tactic.Common

/-!
# The single-producer single-consumer ring

`spsc_ring.h`: a ring of fixed capacity between one thread that pushes and one that
pops. The two share `head_`, `tail_` and the slots; each keeps a private copy of the
index of the other side and refreshes it only when the ring looks full or empty.

Every access of a thread to shared memory is one step (`producerStep`, `consumerStep`),
and a run is any interleaving of such steps (`RingReachable`). Indices are 64-bit words that
wrap around.

* `RingRun` — the ring, where each thread stands, and what was pushed, read and popped
  so far. Nothing in the ring depends on these histories.
* `RingInv` — the invariant. It names the unbounded counters the four words stand for.
* `spscRing_fifo` — the ring is a first-in first-out queue: nothing is lost, duplicated,
  reordered or overwritten.

An element whose slot was read counts against the capacity until `tail_` is published
(`rejects_with_a_read_element`).
-/

namespace JitSignalEngine

/-! ## Capacities and indices -/

/-- The capacity `N`, with what the `static_assert`s demand. -/
structure RingCapacity where
  /-- `N` -/
  size : Nat
  /-- at least two slots -/
  two_le : 2 ≤ size
  /-- a power of two -/
  powerOfTwo : size &&& (size - 1) = 0
  /-- `N` is a `std::size_t` -/
  fits : size < 2 ^ 64

namespace RingCapacity

variable (N : RingCapacity)

/-- `N` as an index. -/
def word : BitVec 64 := BitVec.ofNat 64 N.size

/-- `kMask` -/
def mask : BitVec 64 := BitVec.ofNat 64 (N.size - 1)

/-- `slots_[i & kMask]`: the slot of an index. -/
def slot (i : BitVec 64) : Nat := (i &&& N.mask).toNat

/-- The slot of an index is its remainder, also past the wrap around of the index. -/
theorem slot_ofNat (n : Nat) : N.slot (BitVec.ofNat 64 n) = n % N.size := by
  have hne : N.size ≠ 0 := by have := N.two_le; omega
  obtain ⟨k, hk⟩ := (Nat.and_sub_one_eq_zero_iff_isPowerOfTwo hne).mp N.powerOfTwo
  have hlt := N.fits
  have hdvd : N.size ∣ 2 ^ 64 := by
    rw [hk]
    refine Nat.pow_dvd_pow 2 ?_
    rw [hk] at hlt
    exact Nat.le_of_lt ((Nat.pow_lt_pow_iff_right (by decide)).mp hlt)
  have hmask : (N.size - 1) % 2 ^ 64 = N.size - 1 := Nat.mod_eq_of_lt (by omega)
  rw [slot, mask, BitVec.toNat_and, BitVec.toNat_ofNat, BitVec.toNat_ofNat, hmask, hk,
    Nat.and_two_pow_sub_one_eq_mod, ← hk, Nat.mod_mod_of_dvd _ hdvd]

/-- `h - cached_tail_ == N`, when the ring holds at most `N` elements. -/
theorem sub_eq_word {m n : Nat} (hle : m ≤ n) (hroom : n ≤ m + N.size) :
    BitVec.ofNat 64 n - BitVec.ofNat 64 m = N.word ↔ n = m + N.size := by
  obtain ⟨d, rfl⟩ := Nat.exists_eq_add_of_le hle
  have hlt := N.fits
  have hd : BitVec.ofNat 64 (m + d) - BitVec.ofNat 64 m = BitVec.ofNat 64 d := by
    rw [BitVec.ofNat_add, BitVec.add_comm, BitVec.add_sub_cancel]
  rw [hd, word, ← BitVec.toNat_inj, BitVec.toNat_ofNat, BitVec.toNat_ofNat,
    Nat.mod_eq_of_lt (show d < 2 ^ 64 by omega), Nat.mod_eq_of_lt hlt]
  omega

/-- `t == cached_head_`, when the two are at most `N` apart. -/
theorem ofNat_eq_iff {m n : Nat} (hle : m ≤ n) (hroom : n ≤ m + N.size) :
    BitVec.ofNat 64 m = BitVec.ofNat 64 n ↔ m = n := by
  obtain ⟨d, rfl⟩ := Nat.exists_eq_add_of_le hle
  have hlt := N.fits
  rw [← BitVec.toNat_inj, BitVec.toNat_ofNat, BitVec.toNat_ofNat]
  omega

/-- Different elements of a ring that is not overfull have different slots. -/
theorem slot_ne {m n : Nat} (hlt : m < n) (hroom : n < m + N.size) : m % N.size ≠ n % N.size := by
  intro h
  have hdvd : N.size ∣ n - m := Nat.dvd_of_mod_eq_zero (Nat.sub_mod_eq_zero_of_mod_eq h.symm)
  have := Nat.le_of_dvd (by omega) hdvd
  omega

end RingCapacity

theorem succ_ofNat (n : Nat) : BitVec.ofNat 64 n + 1 = BitVec.ofNat 64 (n + 1) := by
  rw [BitVec.ofNat_add]
  rfl

/-! ## Runs -/

/-- Where the producer stands in `try_push(value)`. -/
inductive ProducerAt (T : Type) where
  /-- between two calls -/
  | idle
  /-- the ring looks full, `tail_` is to be read -/
  | refresh (value : T) (h : BitVec 64)
  /-- the slot is to be written -/
  | write (value : T) (h : BitVec 64)
  /-- `head_` is to be published -/
  | publish (value : T) (h : BitVec 64)

/-- Where the consumer stands in `try_pop(out)`. -/
inductive ConsumerAt (T : Type) where
  /-- between two calls -/
  | idle
  /-- the ring looks empty, `head_` is to be read -/
  | refresh (t : BitVec 64)
  /-- the slot is to be read -/
  | read (t : BitVec 64)
  /-- `tail_` is to be published -/
  | publish (t : BitVec 64) (out : T)

/-- A ring in use. -/
structure RingRun (T : Type) where
  /-- `head_` -/
  head : BitVec 64
  /-- `cached_tail_` -/
  cachedTail : BitVec 64
  /-- `tail_` -/
  tail : BitVec 64
  /-- `cached_head_` -/
  cachedHead : BitVec 64
  /-- `slots_` -/
  slots : Nat → T
  /-- the producer thread -/
  producer : ProducerAt T
  /-- the consumer thread -/
  consumer : ConsumerAt T
  /-- the values `try_push` published -/
  pushed : List T
  /-- the values read out of slots -/
  read : List T
  /-- the values of the `try_pop` calls that published `tail_` -/
  popped : List T

/-- What a step does to shared memory. -/
inductive RingAction where
  /-- `head_.load()` of the producer -/
  | loadHead
  /-- `cached_tail_ = tail_.load()` -/
  | refreshTail
  /-- the same, after which `try_push` returns false -/
  | rejectPush
  /-- the write of a slot -/
  | writeSlot (slot : Nat)
  /-- `head_.store(h + 1)` -/
  | publishHead
  /-- `tail_.load()` of the consumer -/
  | loadTail
  /-- `cached_head_ = head_.load()` -/
  | refreshHead
  /-- the same, after which `try_pop` returns false -/
  | rejectPop
  /-- the read of a slot -/
  | readSlot (slot : Nat)
  /-- `tail_.store(t + 1)` -/
  | publishTail
deriving DecidableEq, Repr

section Steps

variable {T : Type} (N : RingCapacity)

/-- A ring right after its construction. -/
def RingRun.init [Inhabited T] : RingRun T :=
  ⟨0, 0, 0, 0, fun _ => default, .idle, .idle, [], [], []⟩

/-- The next step of the producer. An idle producer calls `try_push(value)`. -/
def producerStep (value : T) (s : RingRun T) : RingAction × RingRun T :=
  match s.producer with
  | .idle =>
    (.loadHead, { s with
      producer := if s.head - s.cachedTail = N.word then .refresh value s.head
        else .write value s.head })
  | .refresh value h =>
    if h - s.tail = N.word then
      (.rejectPush, { s with cachedTail := s.tail, producer := .idle })
    else (.refreshTail, { s with cachedTail := s.tail, producer := .write value h })
  | .write value h =>
    (.writeSlot (N.slot h), { s with
      slots := fun i => if i = N.slot h then value else s.slots i
      producer := .publish value h })
  | .publish value h =>
    (.publishHead, { s with head := h + 1, producer := .idle, pushed := s.pushed ++ [value] })

/-- The next step of the consumer. An idle consumer calls `try_pop`. -/
def consumerStep (s : RingRun T) : RingAction × RingRun T :=
  match s.consumer with
  | .idle =>
    (.loadTail, { s with
      consumer := if s.tail = s.cachedHead then .refresh s.tail else .read s.tail })
  | .refresh t =>
    if t = s.head then (.rejectPop, { s with cachedHead := s.head, consumer := .idle })
    else (.refreshHead, { s with cachedHead := s.head, consumer := .read t })
  | .read t =>
    (.readSlot (N.slot t), { s with
      consumer := .publish t (s.slots (N.slot t))
      read := s.read ++ [s.slots (N.slot t)] })
  | .publish t out =>
    (.publishTail, { s with tail := t + 1, consumer := .idle, popped := s.popped ++ [out] })

/-- Which thread moves next. -/
inductive RingThread (T : Type) where
  /-- the producer; the value is the one it pushes if it starts a call -/
  | producer (value : T)
  /-- the consumer -/
  | consumer

/-- One step of one of the threads. -/
def ringStep : RingThread T → RingRun T → RingAction × RingRun T
  | .producer value => producerStep N value
  | .consumer => consumerStep N

/-- What the threads can bring about, in any order of their steps. -/
inductive RingReachable [Inhabited T] : RingRun T → Prop where
  /-- a new ring -/
  | init : RingReachable RingRun.init
  /-- one more step -/
  | step {s : RingRun T} (thread : RingThread T) (h : RingReachable s) :
    RingReachable (ringStep N thread s).2

/-! ## The invariant -/

/-- What the producer relies on: the index it holds, and room for its value. -/
def ProducerOk (s : RingRun T) (ct : Nat) : Prop :=
  match s.producer with
  | .idle => True
  | .refresh _ h => h = BitVec.ofNat 64 s.pushed.length
  | .write _ h => h = BitVec.ofNat 64 s.pushed.length ∧ s.pushed.length < ct + N.size
  | .publish value h => h = BitVec.ofNat 64 s.pushed.length ∧ s.pushed.length < ct + N.size ∧
    s.slots (s.pushed.length % N.size) = value

/-- What the consumer relies on: the index it holds, and a value to read. -/
def ConsumerOk (s : RingRun T) (ch : Nat) : Prop :=
  match s.consumer with
  | .idle => s.read = s.popped
  | .refresh t => t = BitVec.ofNat 64 s.popped.length ∧ s.read = s.popped
  | .read t => t = BitVec.ofNat 64 s.popped.length ∧ s.popped.length < ch ∧ s.read = s.popped
  | .publish t out => t = BitVec.ofNat 64 s.popped.length ∧ s.popped.length < ch ∧
    s.read = s.popped ++ [out] ∧ s.pushed[s.popped.length]? = some out

/-- The invariant. The words stand for counters: `head_` for the number of values pushed,
`tail_` for that of values popped, and the private copies for earlier values `ct` and
`ch` of the two. -/
structure RingInv (s : RingRun T) (ct ch : Nat) : Prop where
  /-- `head_` -/
  head : s.head = BitVec.ofNat 64 s.pushed.length
  /-- `tail_` -/
  tail : s.tail = BitVec.ofNat 64 s.popped.length
  /-- `cached_tail_` -/
  cachedTail : s.cachedTail = BitVec.ofNat 64 ct
  /-- `cached_head_` -/
  cachedHead : s.cachedHead = BitVec.ofNat 64 ch
  /-- the producer's copy is not ahead -/
  ct_le : ct ≤ s.popped.length
  /-- the consumer has not overtaken its copy -/
  popped_le : s.popped.length ≤ ch
  /-- the consumer's copy is not ahead -/
  ch_le : ch ≤ s.pushed.length
  /-- the ring is not overfull, even by the producer's copy -/
  room : s.pushed.length ≤ ct + N.size
  /-- what was popped was pushed, in this order -/
  popped : s.popped = s.pushed.take s.popped.length
  /-- what was pushed and not popped is in its slot -/
  slots : ∀ j, s.popped.length ≤ j → j < s.pushed.length →
    s.pushed[j]? = some (s.slots (j % N.size))
  /-- the producer -/
  producer : ProducerOk N s ct
  /-- the consumer -/
  consumer : ConsumerOk s ch

variable {N}

theorem ringInv_init [Inhabited T] : RingInv N (RingRun.init : RingRun T) 0 0 where
  head := rfl
  tail := rfl
  cachedTail := rfl
  cachedHead := rfl
  ct_le := Nat.le_refl _
  popped_le := Nat.le_refl _
  ch_le := Nat.le_refl _
  room := Nat.zero_le _
  popped := rfl
  slots j _ hj := absurd hj (Nat.not_lt_zero j)
  producer := trivial
  consumer := rfl

/-- **A step of the producer** keeps the invariant. -/
theorem producerStep_inv (value : T) {s : RingRun T} {ct ch : Nat} (h : RingInv N s ct ch) :
    ∃ ct', RingInv N (producerStep N value s).2 ct' ch := by
  have hp := h.producer
  have hroom := h.room
  have hct := h.ct_le
  have hpop := h.popped_le
  have hch := h.ch_le
  unfold ProducerOk at hp
  unfold producerStep
  rcases hat : s.producer with _ | ⟨v, w⟩ | ⟨v, w⟩ | ⟨v, w⟩
  · -- the first look at `head_`, against the private copy
    refine ⟨ct, { h with producer := ?_ }⟩
    dsimp only
    have hfull := N.sub_eq_word (m := ct) (n := s.pushed.length) (by omega) hroom
    rw [h.head, h.cachedTail]
    by_cases hc : BitVec.ofNat 64 s.pushed.length - BitVec.ofNat 64 ct = N.word
    · rw [if_pos hc]
      exact rfl
    · rw [if_neg hc]
      refine ⟨rfl, ?_⟩
      have := mt hfull.mpr hc
      dsimp only
      omega
  · -- the copy becomes the live value
    rw [hat] at hp
    dsimp only at hp ⊢
    have hfull : w - s.tail = N.word ↔ s.pushed.length = s.popped.length + N.size := by
      rw [hp, h.tail]
      exact N.sub_eq_word (by omega) (by omega)
    refine ⟨s.popped.length, ?_⟩
    by_cases hc : w - s.tail = N.word
    · rw [if_pos hc]
      exact { h with
        cachedTail := h.tail
        ct_le := Nat.le_refl _
        room := by dsimp only; omega
        producer := trivial }
    · rw [if_neg hc]
      have := mt hfull.mpr hc
      exact { h with
        cachedTail := h.tail
        ct_le := Nat.le_refl _
        room := by dsimp only; omega
        producer := ⟨hp, by dsimp only; omega⟩ }
  · -- the slot written holds nothing that was not popped
    rw [hat] at hp
    obtain ⟨rfl, hlt⟩ := hp
    refine ⟨ct, { h with slots := ?_, producer := ?_ }⟩
    · intro j hj hlt'
      have hj : s.popped.length ≤ j := hj
      have hne := N.slot_ne (m := j) (n := s.pushed.length) hlt' (by omega)
      dsimp only
      rw [N.slot_ofNat, if_neg hne]
      exact h.slots j hj hlt'
    · refine ⟨rfl, hlt, ?_⟩
      dsimp only
      rw [N.slot_ofNat, if_pos rfl]
  · -- the new element is where the consumer will look for it
    rw [hat] at hp
    obtain ⟨rfl, hlt, hslot⟩ := hp
    have hlen : (s.pushed ++ [v]).length = s.pushed.length + 1 := by simp
    refine ⟨ct, { h with
      head := ?_
      ch_le := ?_
      room := ?_
      popped := ?_
      slots := ?_
      producer := trivial
      consumer := ?_ }⟩
    · dsimp only
      rw [succ_ofNat, hlen]
    · dsimp only
      omega
    · dsimp only
      omega
    · dsimp only
      rw [List.take_append_of_le_length (by omega)]
      exact h.popped
    · intro j hj hlt'
      dsimp only at hj hlt' ⊢
      by_cases hlast : j = s.pushed.length
      · subst hlast
        rw [List.getElem?_append_right (Nat.le_refl _), Nat.sub_self, hslot]
        rfl
      · rw [List.getElem?_append_left (by omega)]
        exact h.slots j hj (by omega)
    · have hc := h.consumer
      unfold ConsumerOk at hc ⊢
      dsimp only
      rcases hcat : s.consumer with _ | w | w | ⟨w, out⟩ <;> rw [hcat] at hc
      · exact hc
      · exact hc
      · exact hc
      · obtain ⟨hw, hlt', hread, hout⟩ := hc
        refine ⟨hw, hlt', hread, ?_⟩
        rw [List.getElem?_append_left (by omega)]
        exact hout

/-- **A step of the consumer** keeps the invariant. -/
theorem consumerStep_inv {s : RingRun T} {ct ch : Nat} (h : RingInv N s ct ch) :
    ∃ ch', RingInv N (consumerStep N s).2 ct ch' := by
  have hc := h.consumer
  have hroom := h.room
  have hct := h.ct_le
  have hpop := h.popped_le
  have hch := h.ch_le
  unfold ConsumerOk at hc
  unfold consumerStep
  rcases hat : s.consumer with _ | w | w | ⟨w, out⟩
  · -- the first look at `tail_`, against the private copy
    rw [hat] at hc
    refine ⟨ch, { h with consumer := ?_ }⟩
    have hempty := N.ofNat_eq_iff (m := s.popped.length) (n := ch) (by omega) (by omega)
    unfold ConsumerOk
    dsimp only
    rw [h.tail, h.cachedHead]
    by_cases heq : BitVec.ofNat 64 s.popped.length = BitVec.ofNat 64 ch
    · rw [if_pos heq]
      exact ⟨rfl, hc⟩
    · rw [if_neg heq]
      have := mt hempty.mpr heq
      exact ⟨rfl, by omega, hc⟩
  · -- the copy becomes the live value
    rw [hat] at hc
    obtain ⟨hw, hread⟩ := hc
    have hempty : w = s.head ↔ s.popped.length = s.pushed.length := by
      rw [hw, h.head]
      exact N.ofNat_eq_iff (by omega) (by omega)
    refine ⟨s.pushed.length, ?_⟩
    dsimp only
    by_cases heq : w = s.head
    · rw [if_pos heq]
      exact { h with
        cachedHead := h.head
        popped_le := by dsimp only; omega
        ch_le := Nat.le_refl _
        consumer := hread }
    · rw [if_neg heq]
      have := mt hempty.mpr heq
      exact { h with
        cachedHead := h.head
        popped_le := by dsimp only; omega
        ch_le := Nat.le_refl _
        consumer := ⟨hw, by dsimp only; omega, hread⟩ }
  · -- the slot holds the oldest element
    rw [hat] at hc
    obtain ⟨rfl, hlt, hread⟩ := hc
    have hslot := h.slots s.popped.length (Nat.le_refl _) (by omega)
    refine ⟨ch, { h with consumer := ⟨rfl, hlt, ?_, ?_⟩ }⟩
    · dsimp only
      rw [hread]
    · dsimp only
      rw [N.slot_ofNat]
      exact hslot
  · rw [hat] at hc
    obtain ⟨rfl, hlt, hread, hout⟩ := hc
    have hlen : (s.popped ++ [out]).length = s.popped.length + 1 := by simp
    refine ⟨ch, { h with
      tail := ?_
      ct_le := ?_
      popped_le := ?_
      popped := ?_
      slots := ?_
      consumer := hread }⟩
    · dsimp only
      rw [succ_ofNat, hlen]
    · dsimp only
      omega
    · dsimp only
      omega
    · dsimp only
      rw [hlen, List.take_add_one, hout, ← h.popped]
      rfl
    · intro j hj hlt'
      dsimp only at hj hlt' ⊢
      exact h.slots j (by omega) hlt'

/-- **The invariant holds in every interleaving.** -/
theorem ringReachable_inv [Inhabited T] {s : RingRun T} (h : RingReachable N s) :
    ∃ ct ch, RingInv N s ct ch := by
  induction h with
  | init => exact ⟨0, 0, ringInv_init⟩
  | step thread _ ih =>
    obtain ⟨ct, ch, ih⟩ := ih
    cases thread with
    | producer value =>
      obtain ⟨ct', h⟩ := producerStep_inv value ih
      exact ⟨ct', ch, h⟩
    | consumer =>
      obtain ⟨ch', h⟩ := consumerStep_inv ih
      exact ⟨ct, ch', h⟩

/-! ## The ring is a queue -/

/-- What the consumer read is what it popped, and at most one value more. -/
theorem ConsumerOk.read_eq {s : RingRun T} {ch : Nat} (h : ConsumerOk s ch) :
    s.read = s.popped ∨ ∃ out, s.read = s.popped ++ [out] ∧
      s.pushed[s.popped.length]? = some out := by
  unfold ConsumerOk at h
  rcases hat : s.consumer with _ | w | w | ⟨w, out⟩ <;> rw [hat] at h
  · exact .inl h
  · exact .inl h.2
  · exact .inl h.2.2
  · exact .inr ⟨out, h.2.2⟩

/-- Nothing is read that was not pushed, and nothing out of order. -/
theorem RingInv.read_prefix {s : RingRun T} {ct ch : Nat} (h : RingInv N s ct ch) :
    s.read <+: s.pushed := by
  have hpopped : s.popped <+: s.pushed := by
    rw [h.popped]
    exact List.take_prefix _ _
  obtain heq | ⟨out, heq, hout⟩ := h.consumer.read_eq
  · rw [heq]
    exact hpopped
  · refine ⟨s.pushed.drop (s.popped.length + 1), ?_⟩
    have htake : s.pushed.take (s.popped.length + 1) = s.popped ++ [out] := by
      rw [List.take_add_one, hout, ← h.popped]
      rfl
    rw [heq, ← htake, List.take_append_drop]

/-- What the producer can do, and when. -/
theorem producerStep_action (value : T) (s : RingRun T) :
    (producerStep N value s).1 = .loadHead ∨
    (producerStep N value s).1 = .refreshTail ∨
    (∃ v h, s.producer = .refresh v h ∧ h - s.tail = N.word ∧
      (producerStep N value s).1 = .rejectPush) ∨
    (∃ v h, s.producer = .write v h ∧ (producerStep N value s).1 = .writeSlot (N.slot h)) ∨
    (producerStep N value s).1 = .publishHead := by
  rcases hat : s.producer with _ | ⟨v, h⟩ | ⟨v, h⟩ | ⟨v, h⟩
  · exact .inl (by simp [producerStep, hat])
  · by_cases hfull : h - s.tail = N.word
    · exact .inr (.inr (.inl ⟨v, h, rfl, hfull, by simp [producerStep, hat, hfull]⟩))
    · exact .inr (.inl (by simp [producerStep, hat, hfull]))
  · exact .inr (.inr (.inr (.inl ⟨v, h, rfl, by simp [producerStep, hat]⟩)))
  · exact .inr (.inr (.inr (.inr (by simp [producerStep, hat]))))

/-- What the consumer can do, and when. -/
theorem consumerStep_action (s : RingRun T) :
    (consumerStep N s).1 = .loadTail ∨
    (consumerStep N s).1 = .refreshHead ∨
    (∃ t, s.consumer = .refresh t ∧ t = s.head ∧ (consumerStep N s).1 = .rejectPop) ∨
    (∃ i, (consumerStep N s).1 = .readSlot i) ∨
    (consumerStep N s).1 = .publishTail := by
  rcases hat : s.consumer with _ | t | t | ⟨t, out⟩
  · exact .inl (by simp [consumerStep, hat])
  · by_cases hempty : t = s.head
    · exact .inr (.inr (.inl ⟨t, rfl, hempty, by simp [consumerStep, hat, hempty]⟩))
    · exact .inr (.inl (by simp [consumerStep, hat, hempty]))
  · exact .inr (.inr (.inr (.inl ⟨N.slot t, by simp [consumerStep, hat]⟩)))
  · exact .inr (.inr (.inr (.inr (by simp [consumerStep, hat]))))

/-- A slot is written only by the producer that is about to write it. -/
theorem ringStep_writeSlot {thread : RingThread T} {s : RingRun T} {i : Nat}
    (h : (ringStep N thread s).1 = .writeSlot i) :
    ∃ v w, s.producer = .write v w ∧ i = N.slot w := by
  cases thread with
  | producer value =>
    have h : (producerStep N value s).1 = .writeSlot i := h
    obtain hact | hact | ⟨v, w, -, -, hact⟩ | ⟨v, w, hat, hact⟩ | hact :=
      producerStep_action (N := N) value s <;> rw [hact] at h <;> cases h
    exact ⟨v, w, hat, rfl⟩
  | consumer =>
    have h : (consumerStep N s).1 = .writeSlot i := h
    obtain hact | hact | ⟨w, -, -, hact⟩ | ⟨w, hact⟩ | hact :=
      consumerStep_action (N := N) s <;> rw [hact] at h <;> cases h

theorem ringStep_rejectPush {thread : RingThread T} {s : RingRun T}
    (h : (ringStep N thread s).1 = .rejectPush) :
    ∃ v w, s.producer = .refresh v w ∧ w - s.tail = N.word := by
  cases thread with
  | producer value =>
    have h : (producerStep N value s).1 = .rejectPush := h
    obtain hact | hact | ⟨v, w, hat, hfull, hact⟩ | ⟨v, w, -, hact⟩ | hact :=
      producerStep_action (N := N) value s <;> rw [hact] at h <;> cases h
    exact ⟨v, w, hat, hfull⟩
  | consumer =>
    have h : (consumerStep N s).1 = .rejectPush := h
    obtain hact | hact | ⟨w, -, -, hact⟩ | ⟨w, hact⟩ | hact :=
      consumerStep_action (N := N) s <;> rw [hact] at h <;> cases h

theorem ringStep_rejectPop {thread : RingThread T} {s : RingRun T}
    (h : (ringStep N thread s).1 = .rejectPop) : ∃ w, s.consumer = .refresh w ∧ w = s.head := by
  cases thread with
  | producer value =>
    have h : (producerStep N value s).1 = .rejectPop := h
    obtain hact | hact | ⟨v, w, -, -, hact⟩ | ⟨v, w, -, hact⟩ | hact :=
      producerStep_action (N := N) value s <;> rw [hact] at h <;> cases h
  | consumer =>
    have h : (consumerStep N s).1 = .rejectPop := h
    obtain hact | hact | ⟨w, hat, hempty, hact⟩ | ⟨w, hact⟩ | hact :=
      consumerStep_action (N := N) s <;> rw [hact] at h <;> cases h
    exact ⟨w, hat, hempty⟩

/-- A slot is written only when the value it held was popped. -/
theorem RingInv.writeSlot {s : RingRun T} {ct ch : Nat} (h : RingInv N s ct ch)
    {thread : RingThread T} {i : Nat} (hact : (ringStep N thread s).1 = .writeSlot i)
    {j : Nat} (hj : s.popped.length ≤ j) (hlt : j < s.pushed.length) : j % N.size ≠ i := by
  have hp := h.producer
  have hct := h.ct_le
  obtain ⟨v, w, hat, rfl⟩ := ringStep_writeSlot hact
  unfold ProducerOk at hp
  rw [hat] at hp
  obtain ⟨rfl, hroom⟩ := hp
  rw [N.slot_ofNat]
  exact N.slot_ne hlt (by omega)

/-- `try_push` fails only on a full ring. -/
theorem RingInv.rejectPush {s : RingRun T} {ct ch : Nat} (h : RingInv N s ct ch)
    {thread : RingThread T} (hact : (ringStep N thread s).1 = .rejectPush) :
    s.pushed.length = s.popped.length + N.size := by
  have hp := h.producer
  have hroom := h.room
  have hct := h.ct_le
  have hpop := h.popped_le
  have hch := h.ch_le
  obtain ⟨v, w, hat, hfull⟩ := ringStep_rejectPush hact
  unfold ProducerOk at hp
  rw [hat] at hp
  rw [show w = _ from hp, h.tail] at hfull
  exact (N.sub_eq_word (by omega) (by omega)).mp hfull

/-- `try_pop` fails only on an empty ring. -/
theorem RingInv.rejectPop {s : RingRun T} {ct ch : Nat} (h : RingInv N s ct ch)
    {thread : RingThread T} (hact : (ringStep N thread s).1 = .rejectPop) :
    s.read = s.pushed := by
  have hc := h.consumer
  have hroom := h.room
  have hct := h.ct_le
  have hpop := h.popped_le
  have hch := h.ch_le
  obtain ⟨w, hat, hempty⟩ := ringStep_rejectPop hact
  unfold ConsumerOk at hc
  rw [hat] at hc
  obtain ⟨hw, hread⟩ := hc
  rw [hw, h.head, N.ofNat_eq_iff (by omega) (by omega)] at hempty
  rw [hread, h.popped, hempty, List.take_length]

/-- **The ring is a first-in first-out queue.** In every interleaving: what was popped and
what was read are prefixes of what was pushed, and at most one value is read and not yet
popped; the unread values are in their slots, and the next step overwrites none of them;
`try_push` fails only when `N` pushed values are not popped, `try_pop` only when every
pushed value was read. -/
theorem spscRing_fifo [Inhabited T] {s : RingRun T} (h : RingReachable N s) :
    s.popped <+: s.pushed ∧ s.read <+: s.pushed ∧ s.popped <+: s.read ∧
    s.read.length ≤ s.popped.length + 1 ∧
    (∀ j, s.read.length ≤ j → j < s.pushed.length →
      s.pushed[j]? = some (s.slots (j % N.size))) ∧
    (∀ thread i, (ringStep N thread s).1 = .writeSlot i →
      ∀ j, s.popped.length ≤ j → j < s.pushed.length → j % N.size ≠ i) ∧
    (∀ thread, (ringStep N thread s).1 = .rejectPush →
      s.pushed.length = s.popped.length + N.size) ∧
    (∀ thread, (ringStep N thread s).1 = .rejectPop → s.read = s.pushed) := by
  obtain ⟨ct, ch, hinv⟩ := ringReachable_inv h
  have hpopped : s.popped <+: s.read := by
    obtain heq | ⟨out, heq, -⟩ := hinv.consumer.read_eq
    · exact heq ▸ List.prefix_rfl
    · exact heq ▸ List.prefix_append _ _
  have hone : s.read.length ≤ s.popped.length + 1 := by
    obtain heq | ⟨out, heq, -⟩ := hinv.consumer.read_eq
    · rw [heq]
      exact Nat.le_succ _
    · simp [heq]
  refine ⟨hpopped.trans hinv.read_prefix, hinv.read_prefix, hpopped, hone, ?_, ?_, ?_, ?_⟩
  · intro j hj hlt
    exact hinv.slots j (Nat.le_trans hpopped.length_le hj) hlt
  · intro thread i hact j hj hlt
    exact hinv.writeSlot hact hj hlt
  · intro thread hact
    exact hinv.rejectPush hact
  · intro thread hact
    exact hinv.rejectPop hact

/-- A run under a given schedule. -/
def ringSchedule [Inhabited T] : List (RingThread T) → RingRun T
  | [] => .init
  | thread :: threads => (ringStep N thread (ringSchedule threads)).2

theorem ringSchedule_reachable [Inhabited T] (threads : List (RingThread T)) :
    RingReachable N (ringSchedule (N := N) threads) := by
  induction threads with
  | nil => exact .init
  | cons thread threads ih => exact .step thread ih

end Steps

/-! ## A value that is read and not popped -/

/-- The smallest ring. -/
def ringOfTwo : RingCapacity := ⟨2, by decide, by decide, by decide⟩

/-- Two values are pushed; the consumer reads the first and stops before `tail_.store`; the
producer finds its copy of `tail_` out of date. The last step comes first. -/
def readBeforePublish : List (RingThread Nat) :=
  [.producer 9] ++ List.replicate 3 .consumer ++ List.replicate 3 (.producer 8) ++
    List.replicate 3 (.producer 7)

theorem spscRing_fifo_readBeforePublish :
    (ringSchedule (N := ringOfTwo) readBeforePublish).popped <+:
      (ringSchedule (N := ringOfTwo) readBeforePublish).pushed :=
  (spscRing_fifo (ringSchedule_reachable readBeforePublish)).1

/-- **A read value still takes room**: `try_push` can fail although fewer than `N` of the
pushed values are unread. -/
theorem rejects_with_a_read_element :
    ¬ ∀ (N : RingCapacity) (s : RingRun Nat) (thread : RingThread Nat), RingReachable N s →
      (ringStep N thread s).1 = .rejectPush → s.pushed.length = s.read.length + N.size := by
  intro h
  have := h ringOfTwo (ringSchedule (N := ringOfTwo) readBeforePublish) (.producer 9)
    (ringSchedule_reachable readBeforePublish) (by decide)
  exact absurd this (by decide)

end JitSignalEngine
