import JitSignalEngine.AllocatedRun
import JitSignalEngine.Exact

/-!
# Slots are updated once

A body may contain the same stateful call many times. `AllocateNodeIds` gives equal calls one
slot, and the cache of `Evaluate` keeps the slot from being updated more than once.

* `Aliased` — a call has the id of a remembered unconditional call that equals it.
* `Shares`, `allocateWalk_shares` — calls that share an id share the ids outside branches inside
  them, so a cached call leaves nothing out that its arguments would have updated.
* `OncePerSlot` — the invariant of `Evaluate`: a slot was updated once if its id is cached and
  not at all otherwise, and what was returned for an id is what is cached.
* `Evaluate` reaches every call outside branches (`visit_steps`), which is all of
  `slots_updated_once`.
-/

namespace JitSignalEngine

open Fp Widen Interpreter

variable {D L : Type}

/-! ## Calls outside branches -/

mutual

/-- The stateful calls of an expression outside all then- and else-branches. -/
def Expr.unconditionalCalls : Expr D → List (Call D)
  | .numberLiteral _ _ => []
  | .identifierExpr _ _ => []
  | .parameterExpr _ _ _ => []
  | .unaryOp _ _ e => e.unconditionalCalls
  | .binaryOp _ _ l r => l.unconditionalCalls ++ r.unconditionalCalls
  | .conditional _ c _ _ => c.unconditionalCalls
  | .functionCall _ n args nid sid =>
    (if isStatefulOp n then [⟨n, args, nid, sid⟩] else []) ++ unconditionalCallsArgs args

/-- `Expr.unconditionalCalls` on an argument list. -/
def Expr.unconditionalCallsArgs : List (Expr D) → List (Call D)
  | [] => []
  | a :: as => a.unconditionalCalls ++ unconditionalCallsArgs as

end

theorem Expr.mem_unconditionalCallsArgs {c : Call D} {as : List (Expr D)} :
    c ∈ unconditionalCallsArgs as ↔ ∃ a ∈ as, c ∈ a.unconditionalCalls := by
  induction as with
  | nil => exact ⟨fun h => absurd h List.not_mem_nil, fun ⟨_, h, _⟩ => absurd h List.not_mem_nil⟩
  | cons a as ih =>
    rw [unconditionalCallsArgs, List.mem_append, ih, List.exists_mem_cons_iff]

/-- They are calls of the expression. -/
theorem Expr.unconditionalCalls_subset (e : Expr D) :
    ∀ c ∈ e.unconditionalCalls, c ∈ e.calls ∧ isStatefulOp c.name = true := by
  induction e using Expr.induct with
  | numberLiteral | identifierExpr | parameterExpr => exact fun c hc => absurd hc List.not_mem_nil
  | unaryOp loc k e ih => exact ih
  | binaryOp loc k l r ihl ihr =>
    intro c hc
    rcases List.mem_append.mp hc with hc | hc
    · exact ⟨List.mem_append_left _ (ihl c hc).1, (ihl c hc).2⟩
    · exact ⟨List.mem_append_right _ (ihr c hc).1, (ihr c hc).2⟩
  | conditional loc c t e ihc iht ihe =>
    intro d hd
    exact ⟨List.mem_append_left _ (List.mem_append_left _ (ihc d hd).1), (ihc d hd).2⟩
  | functionCall loc n args nid sid ih =>
    intro c hc
    rcases List.mem_append.mp hc with hc | hc
    · by_cases hn : isStatefulOp n = true
      · rw [if_pos hn] at hc
        obtain rfl := List.mem_singleton.mp hc
        exact ⟨List.mem_cons_self, hn⟩
      · rw [if_neg hn] at hc
        exact absurd hc List.not_mem_nil
    · obtain ⟨a, ha, hca⟩ := Expr.mem_unconditionalCallsArgs.mp hc
      exact ⟨List.mem_cons_of_mem _ (Expr.mem_callsArgs.mpr ⟨a, ha, (ih a ha c hca).1⟩),
        (ih a ha c hca).2⟩

/-- Without locations and ids they are what `Expr.unconditional` lists. -/
theorem Expr.map_strip_unconditionalCalls (e : Expr D) :
    e.unconditionalCalls.map Call.strip = e.unconditional := by
  induction e using Expr.induct with
  | numberLiteral | identifierExpr | parameterExpr => rfl
  | unaryOp loc k e ih => exact ih
  | binaryOp loc k l r ihl ihr =>
    rw [unconditionalCalls, unconditional, List.map_append, ihl, ihr]
  | conditional loc c t e ihc iht ihe => exact ihc
  | functionCall loc n args nid sid ih =>
    have hargs : ∀ as : List (Expr D), (∀ a ∈ as, a ∈ args) →
        (unconditionalCallsArgs as).map Call.strip = unconditionalArgs as := by
      intro as
      induction as with
      | nil => intro _; rfl
      | cons a as iha =>
        intro hmem
        rw [unconditionalCallsArgs, unconditionalArgs, List.map_append, ih a (hmem a List.mem_cons_self),
          iha fun b hb => hmem b (List.mem_cons_of_mem _ hb)]
    rw [unconditionalCalls, unconditional, List.map_append, hargs args fun _ h => h]
    congr 1
    split
    · rw [List.map_singleton, Call.strip, Expr.strip, stripArgs_eq_map]
    · rfl

theorem Expr.map_strip_unconditionalCallsArgs (as : List (Expr D)) :
    (unconditionalCallsArgs as).map Call.strip = unconditionalArgs as := by
  induction as with
  | nil => rfl
  | cons a as ih =>
    rw [unconditionalCallsArgs, unconditionalArgs, List.map_append, a.map_strip_unconditionalCalls, ih]

/-! ## Ids inside calls that share their id -/

/-- The call has the id of a remembered unconditional call that equals it. -/
def Aliased (seen : List (SeenStateful D)) (c : Call D) : Prop :=
  ∃ s ∈ seen, s.unconditional = true ∧ s.nodeId = c.nodeId ∧ s.node.strip = c.strip

/-- No two remembered unconditional calls are equal. -/
def DistinctKnown (seen : List (SeenStateful D)) : Prop :=
  ∀ s ∈ seen, ∀ s' ∈ seen, s.unconditional = true → s'.unconditional = true →
    s.node.strip = s'.node.strip → s = s'

/-- What is unconditional in small remembered calls is remembered. Calls that the walk is in
the middle of are larger than `bound`. -/
def CompleteBelow (bound : Nat) (seen : List (SeenStateful D)) : Prop :=
  ∀ s ∈ seen, s.unconditional = true → s.node.size ≤ bound →
    ∀ x ∈ s.node.unconditional, Known seen x

/-- The id of the call was handed out between `st` and `st'`, inside a branch, and no other
call of `cs` has it. -/
structure Single (cs : List (Call D)) (st st' : AllocState D) (c : Call D) : Prop where
  /-- the id is new -/
  new : st.nextId ≤ c.nodeId
  /-- and was not handed out outside branches -/
  conditional : ∀ s ∈ st'.seen, s.nodeId = c.nodeId → s.unconditional = false
  /-- the call is alone -/
  alone : ∀ d ∈ cs, isStatefulOp d.name = true → d.nodeId = c.nodeId → d = c

/-- What a walk over code whose calls outside branches are `us`, with their ids `us'`, does to
the sharing of ids: `cs'` are all calls with their ids. -/
structure Shares (u : Bool) (us : List (Expr D)) (us' cs' : List (Call D)) (st st' : AllocState D) :
    Prop where
  /-- what was remembered during the walk is complete -/
  complete : ∀ s ∈ st'.seen, s.unconditional = true →
    s ∈ st.seen ∨ ∀ x ∈ s.node.unconditional, Known st'.seen x
  /-- remembered unconditional calls stay different -/
  distinct : DistinctKnown st.seen → DistinctKnown st'.seen
  /-- known calls, and those outside branches, have the id of a remembered call -/
  aliased : (u = true ∨ ∀ x ∈ us, Known st.seen x) → ∀ d ∈ us', Aliased st'.seen d
  /-- a call that may share its id shares the ids outside branches inside it -/
  inner : ∀ c ∈ cs', isStatefulOp c.name = true →
    (Aliased st'.seen c ∧ ∀ d ∈ Expr.unconditionalCallsArgs c.args, Aliased st'.seen d) ∨
    Single cs' st st' c

theorem Aliased.append {seen : List (SeenStateful D)} {c : Call D} (h : Aliased seen c)
    (new : List (SeenStateful D)) : Aliased (seen ++ new) c :=
  have ⟨s, hs, hrest⟩ := h
  ⟨s, List.mem_append_left _ hs, hrest⟩

section Shares

variable {u : Bool} {us us₁ us₂ : List (Expr D)} {us' us₁' us₂' cs cs₁ cs₂ cs' cs₁' cs₂' : List (Call D)}
  {st st₁ st₂ : AllocState D}

theorem Allocates.aliased_mono (h : Allocates u cs us cs' st st₁) {c : Call D}
    (hc : Aliased st.seen c) : Aliased st₁.seen c := by
  obtain ⟨new, hnew, -⟩ := h.grows
  rw [hnew]
  exact hc.append new

/-- The walk completes what it remembers. -/
theorem CompleteBelow.walk (h : Allocates u cs us cs' st st₁) (hs : Shares u us us' cs' st st₁)
    {bound : Nat} (hb : CompleteBelow bound st.seen) : CompleteBelow bound st₁.seen := by
  intro s hmem hu hsize x hx
  rcases hs.complete s hmem hu with hold | hall
  · exact h.known_mono (hb s hold hu hsize x hx)
  · exact hall x hx

namespace Shares

theorem nil (u : Bool) (st : AllocState D) : Shares u [] [] [] st st where
  complete _ hs _ := .inl hs
  distinct h := h
  aliased _ _ hd := absurd hd List.not_mem_nil
  inner _ hc _ := absurd hc List.not_mem_nil

/-- Ids of remembered calls below `n` were remembered when `n` was the next id. -/
theorem old_of_lt (h : Allocates u cs us cs' st st₁) {s : SeenStateful D} (hs : s ∈ st₁.seen)
    (hlt : s.nodeId < st.nextId) : s ∈ st.seen := by
  obtain ⟨new, hnew, hid, -⟩ := h.grows
  rw [hnew] at hs
  rcases List.mem_append.mp hs with hs | hs
  · exact hs
  · exact absurd (hid s hs) (Int.not_le.mpr hlt)

/-- One piece of code after another. -/
theorem append (ha : Allocates u cs₁ us₁ cs₁' st st₁) (ha' : Allocates u cs₂ us₂ cs₂' st₁ st₂)
    (h : Shares u us₁ us₁' cs₁' st st₁) (h' : Shares u us₂ us₂' cs₂' st₁ st₂) :
    Shares u (us₁ ++ us₂) (us₁' ++ us₂') (cs₁' ++ cs₂') st st₂ where
  complete s hs hu := by
    rcases h'.complete s hs hu with hs | hall
    · exact (h.complete s hs hu).imp_right fun hall x hx => ha'.known_mono (hall x hx)
    · exact .inr hall
  distinct hd := h'.distinct (h.distinct hd)
  aliased hk d hd := by
    rcases List.mem_append.mp hd with hd | hd
    · exact ha'.aliased_mono
        (h.aliased (hk.imp_right fun hk x hx => hk x (List.mem_append_left _ hx)) d hd)
    · exact h'.aliased
        (hk.imp_right fun hk x hx => ha.known_mono (hk x (List.mem_append_right _ hx))) d hd
  inner c hc hst := by
    rcases List.mem_append.mp hc with hc | hc
    · rcases h.inner c hc hst with ⟨hself, hin⟩ | hsingle
      · exact .inl ⟨ha'.aliased_mono hself, fun d hd => ha'.aliased_mono (hin d hd)⟩
      -- the id is older than the second piece
      obtain ⟨s, hs, hsid, -⟩ := ha.found c hc hst
      have hlt : c.nodeId < st₁.nextId := hsid ▸ (ha.ok.range s hs).2
      have hcond : ∀ s ∈ st₂.seen, s.nodeId = c.nodeId → s.unconditional = false :=
        fun s hs hid => hsingle.conditional s (old_of_lt ha' hs (hid ▸ hlt)) hid
      refine .inr ⟨hsingle.new, hcond, fun d hd hd' hid => ?_⟩
      rcases List.mem_append.mp hd with hd | hd
      · exact hsingle.alone d hd hd' hid
      rcases h'.inner d hd hd' with ⟨⟨s, hs, hu, hsid, -⟩, -⟩ | hsingle'
      · have := hcond s hs (hsid.trans hid)
        rw [hu] at this
        cases this
      · have := hsingle'.new
        omega
    · rcases h'.inner c hc hst with halias | hsingle
      · exact .inl halias
      refine .inr ⟨Int.le_trans ha.le hsingle.new, hsingle.conditional, fun d hd hd' hid => ?_⟩
      rcases List.mem_append.mp hd with hd | hd
      · obtain ⟨s, hs, hsid, -⟩ := ha.found d hd hd'
        have := (ha.ok.range s hs).2
        have := hsingle.new
        omega
      · exact hsingle.alone d hd hd' hid

/-- A branch, seen from outside. -/
theorem branch (h : Shares false us us' cs' st st₁) : Shares u [] [] cs' st st₁ where
  complete := h.complete
  distinct := h.distinct
  aliased _ _ hd := absurd hd List.not_mem_nil
  inner := h.inner

/-- A call around its arguments, when it is not a stateful one. -/
theorem stateless {c : Call D} (hc : isStatefulOp c.name = false)
    (h : Shares u us us' cs' st st₁) : Shares u us us' (c :: cs') st st₁ where
  complete := h.complete
  distinct := h.distinct
  aliased := h.aliased
  inner d hd hst := by
    rcases List.mem_cons.mp hd with rfl | hd
    · rw [hc] at hst
      cases hst
    refine (h.inner d hd hst).imp_right fun hsingle => ⟨hsingle.new, hsingle.conditional, ?_⟩
    intro d' hd' hst' hid
    rcases List.mem_cons.mp hd' with rfl | hd'
    · rw [hc] at hst'
      cases hst'
    · exact hsingle.alone d' hd' hst' hid

/-- A call around its arguments, when it is a known one. -/
theorem known_call {c : Call D} {s : SeenStateful D} {x : Expr D} (hok : st.Ok) (hs : s ∈ st.seen)
    (hu : s.unconditional = true) (hid : s.nodeId = c.nodeId) (hstrip : s.node.strip = c.strip)
    (ha : Allocates u cs us cs' st st₁) (hknown : ∀ x ∈ us, Known st.seen x)
    (hargs : Expr.unconditionalCallsArgs c.args = us')
    (h : Shares u us us' cs' st st₁) : Shares u (x :: us) (c :: us') (c :: cs') st st₁ := by
  have hself : Aliased st₁.seen c := ⟨s, ha.seen_subset hs, hu, hid, hstrip⟩
  refine ⟨h.complete, h.distinct, fun _ d hd => ?_, fun d hd hst => ?_⟩
  · rcases List.mem_cons.mp hd with rfl | hd
    · exact hself
    · exact h.aliased (.inr hknown) d hd
  · rcases List.mem_cons.mp hd with rfl | hd
    · exact .inl ⟨hself, hargs ▸ h.aliased (.inr hknown)⟩
    refine (h.inner d hd hst).imp_right fun hsingle => ⟨hsingle.new, hsingle.conditional, ?_⟩
    intro d' hd' hst' hid'
    rcases List.mem_cons.mp hd' with rfl | hd'
    · have := (hok.range s hs).2
      have := hsingle.new
      omega
    · exact hsingle.alone d' hd' hst' hid'

/-- A call around its arguments, when it is a new one. -/
theorem new_call {c : Call D} {call : Expr D} (hid : c.nodeId = st.nextId)
    (hstrip : call.strip = c.strip) (hnew : ¬ Known st.seen call.strip)
    (hst₁ : st₁ = ⟨st.nextId + 1, st.seen ++ [⟨call, st.nextId, u⟩]⟩)
    (ha : Allocates u cs us cs' st₁ st₂)
    (hknown : u = true → ∀ x ∈ call.unconditional, Known st₂.seen x)
    (hargs : Expr.unconditionalCallsArgs c.args = us') (h : Shares u us us' cs' st₁ st₂) :
    Shares u (call.strip :: us) (c :: us') (c :: cs') st st₂ := by
  have hlast : ∀ s ∈ st₁.seen, s ∈ st.seen ∨ s = ⟨call, st.nextId, u⟩ := by
    rw [hst₁]
    exact fun s hs => (List.mem_append.mp hs).imp_right List.mem_singleton.mp
  have hmem : (⟨call, st.nextId, u⟩ : SeenStateful D) ∈ st₂.seen := by
    refine ha.seen_subset ?_
    rw [hst₁]
    exact List.mem_append_right _ List.mem_cons_self
  have hnext : st₁.nextId = st.nextId + 1 := by rw [hst₁]
  refine ⟨fun s hs hu => ?_, fun hd => h.distinct ?_, fun hk d hd => ?_, fun d hd hst => ?_⟩
  · rcases h.complete s hs hu with hs | hall
    · rcases hlast s hs with hs | rfl
      · exact .inl hs
      · exact .inr (hknown hu)
    · exact .inr hall
  · intro s hs s' hs' hu hu' heq
    rcases hlast s hs with hs | rfl <;> rcases hlast s' hs' with hs' | rfl
    · exact hd s hs s' hs' hu hu' heq
    · exact absurd ⟨s, hs, hu, heq⟩ hnew
    · exact absurd ⟨s', hs', hu', heq.symm⟩ hnew
    · rfl
  · have hu : u = true := by
      rcases hk with hu | hk
      · exact hu
      · exact absurd (hk _ List.mem_cons_self) hnew
    rcases List.mem_cons.mp hd with rfl | hd
    · exact ⟨_, hmem, hu, hid.symm, hstrip⟩
    · exact h.aliased (.inl hu) d hd
  -- ids inside the call are newer than its own, or those of unconditional calls
  · have hentry : ∀ s ∈ st₂.seen, s.nodeId = st.nextId → s = ⟨call, st.nextId, u⟩ :=
      fun s hs h => ha.ok.unique hs hmem h
    rcases List.mem_cons.mp hd with rfl | hd
    · cases u with
      | true => exact .inl ⟨⟨_, hmem, rfl, hid.symm, hstrip⟩, hargs ▸ h.aliased (.inl rfl)⟩
      | false =>
        refine .inr ⟨Int.le_of_eq hid.symm, fun s hs h => ?_, fun d' hd' hst' hid' => ?_⟩
        · rw [hentry s hs (h.trans hid)]
        rcases List.mem_cons.mp hd' with rfl | hd'
        · rfl
        rcases h.inner d' hd' hst' with ⟨⟨s, hs, hu, hsid, -⟩, -⟩ | hsingle
        · rw [hentry s hs (hsid.trans (hid'.trans hid))] at hu
          cases hu
        · have := hsingle.new
          omega
    · refine (h.inner d hd hst).imp_right fun hsingle => ⟨?_, hsingle.conditional, ?_⟩
      · have := hsingle.new
        omega
      · intro d' hd' hst' hid'
        rcases List.mem_cons.mp hd' with rfl | hd'
        · have := hsingle.new
          omega
        · exact hsingle.alone d' hd' hst' hid'

end Shares

variable [DecidableEq D]

/-- **Calls that share an id share the ids outside branches inside them.** -/
theorem allocateWalk_shares (e : Expr D) : ∀ (u : Bool) (st : AllocState D), st.Ok →
    Unallocated e.calls → CompleteBelow e.size st.seen →
    Shares u e.unconditional (allocateWalk e u st).1.unconditionalCalls
      (allocateWalk e u st).1.calls st (allocateWalk e u st).2 := by
  induction e using Expr.induct with
  | numberLiteral | identifierExpr | parameterExpr => exact fun u st _ _ _ => .nil u st
  | unaryOp loc k e ih =>
    intro u st hst hun hb
    exact ih u st hst hun fun s hs hu hsize => hb s hs hu (by rw [Expr.size]; omega)
  | binaryOp loc k l r ihl ihr =>
    intro u st hst hun hb
    have hunl : Unallocated l.calls := fun c hc => hun c (List.mem_append_left _ hc)
    have hunr : Unallocated r.calls := fun c hc => hun c (List.mem_append_right _ hc)
    have hl := allocateWalk_allocates l u st hst hunl
    have hsl := ihl u st hst hunl fun s hs hu hsize => hb s hs hu (by rw [Expr.size]; omega)
    exact hsl.append hl (allocateWalk_allocates r u _ hl.ok hunr) (ihr u _ hl.ok hunr
      (CompleteBelow.walk hl hsl fun s hs hu hsize => hb s hs hu (by rw [Expr.size]; omega)))
  | conditional loc c t e ihc iht ihe =>
    intro u st hst hun hb
    have hunc : Unallocated c.calls := fun d hd =>
      hun d (List.mem_append_left _ (List.mem_append_left _ hd))
    have hunt : Unallocated t.calls := fun d hd =>
      hun d (List.mem_append_left _ (List.mem_append_right _ hd))
    have hune : Unallocated e.calls := fun d hd => hun d (List.mem_append_right _ hd)
    have hb' : ∀ n ≤ (Expr.conditional loc c t e).size, CompleteBelow n st.seen :=
      fun n hn s hs hu hsize => hb s hs hu (Nat.le_trans hsize hn)
    have hc := allocateWalk_allocates c u st hst hunc
    have hsc := ihc u st hst hunc (hb' _ (by rw [Expr.size]; omega))
    have ht := allocateWalk_allocates t false _ hc.ok hunt
    have hst := iht false _ hc.ok hunt (.walk hc hsc (hb' _ (by rw [Expr.size]; omega)))
    have he := allocateWalk_allocates e false _ ht.ok hune
    have hse := ihe false _ ht.ok hune
      (.walk ht hst (.walk hc hsc (hb' _ (by rw [Expr.size]; omega))))
    have h := ((hsc.append hc (ht.branch (u := u)) hst.branch).append
      (hc.append ht.branch) he.branch hse.branch)
    rw [List.append_nil, List.append_nil, List.append_nil, List.append_nil] at h
    exact h
  | functionCall loc n args nid sid ih =>
    intro u st hst hun hb
    have hargs : ∀ (as : List (Expr D)), (∀ a ∈ as, a ∈ args) → ∀ st : AllocState D, st.Ok →
        CompleteBelow (Expr.sizeArgs as) st.seen →
        Shares u (Expr.unconditionalArgs as)
          (Expr.unconditionalCallsArgs (allocateWalkArgs as u st).1)
          (Expr.callsArgs (allocateWalkArgs as u st).1) st (allocateWalkArgs as u st).2 := by
      intro as
      induction as with
      | nil => exact fun _ st _ _ => .nil u st
      | cons a as iha =>
        intro hmem st hst hb
        have huna : ∀ b ∈ a :: as, Unallocated b.calls := fun b hb' c hc =>
          hun c (List.mem_cons_of_mem _ (Expr.mem_callsArgs.mpr ⟨b, hmem b hb', hc⟩))
        have hunas : Unallocated (Expr.callsArgs as) := by
          intro c hc
          obtain ⟨b, hb, hcb⟩ := Expr.mem_callsArgs.mp hc
          exact huna b (List.mem_cons_of_mem _ hb) c hcb
        have ha := allocateWalk_allocates a u st hst (huna a List.mem_cons_self)
        have hsa := ih a (hmem a List.mem_cons_self) u st hst (huna a List.mem_cons_self)
          fun s hs hu hsize => hb s hs hu (by rw [Expr.sizeArgs]; omega)
        exact hsa.append ha (allocateWalkArgs_allocates as u _ ha.ok hunas)
          (iha (fun b hb => hmem b (List.mem_cons_of_mem _ hb)) _ ha.ok
            (.walk ha hsa fun s hs hu hsize => hb s hs hu (by rw [Expr.sizeArgs]; omega)))
    have hunargs : Unallocated (Expr.callsArgs args) := fun c hc =>
      hun c (List.mem_cons_of_mem _ hc)
    have hnid : nid = -1 := hun ⟨n, args, nid, sid⟩ List.mem_cons_self
    have hall := allocateWalk_allocates (.functionCall loc n args nid sid) u st hst hun
    have hmem : ∀ x ∈ Expr.unconditionalArgs args,
        x ∈ (Expr.functionCall loc n args nid sid).unconditional :=
      fun x hx => List.mem_append_right _ hx
    have hstrips : ∀ (m : Int) (st' : AllocState D), (Expr.functionCall loc n args nid sid).strip =
        (⟨n, (allocateWalkArgs args u st').1, m, sid⟩ : Call D).strip := by
      intro m st'
      rw [Call.strip, allocateWalkArgs_strip, Expr.strip, Expr.stripArgs_eq_map]
    by_cases hname : isStatefulOp n = true
    · rcases assignNodeId_cases hst loc args sid hname hnid u with
        ⟨s, hs, hu, hstrip, heq⟩ | ⟨hnew, heq⟩
      · -- the entry is as large as the call, so that the call is not inside it
        have hknown : ∀ x ∈ Expr.unconditionalArgs args, Known st.seen x := by
          intro x hx
          refine hb s hs hu ?_ x ?_
          · rw [← s.node.size_strip, hstrip, Expr.size_strip]
          · rw [← s.node.unconditional_strip, hstrip, Expr.unconditional_strip]
            exact hmem x hx
        have hwalk := hargs args (fun _ h => h) st hst
          fun s hs hu hsize => hb s hs hu (by rw [Expr.size]; omega)
        rw [allocateWalk, heq, Expr.unconditional, Expr.unconditionalCalls, Expr.calls, if_pos hname,
          if_pos hname, List.singleton_append, List.singleton_append]
        exact .known_call hst hs hu rfl (hstrip.trans (hstrips _ _))
          (allocateWalkArgs_allocates args u st hst hunargs) hknown rfl hwalk
      · have hok := (assignNodeId_allocates hst loc n sid hnid u
          (allocateWalkArgs_strip args u st)).ok
        rw [heq] at hok
        have hwalk := hargs args (fun _ h => h) _ hok fun s hs hu hsize x hx => by
          rcases List.mem_append.mp hs with hs | hs
          · exact (hb s hs hu (by rw [Expr.size]; omega) x hx).append _
          · rw [List.mem_singleton.mp hs, Expr.size] at hsize
            omega
        rw [allocateWalk, heq] at hall
        rw [allocateWalk, heq, Expr.unconditional, Expr.unconditionalCalls, Expr.calls, if_pos hname,
          if_pos hname, List.singleton_append, List.singleton_append]
        exact .new_call rfl (hstrips _ _) hnew rfl (allocateWalkArgs_allocates args u _ hok hunargs)
          hall.known rfl hwalk
    · have heq : assignNodeId st loc n args nid sid u = (nid, st) := by
        unfold assignNodeId
        rw [Bool.eq_false_iff.mpr hname, Bool.false_and, if_neg Bool.false_ne_true]
      have hwalk := hargs args (fun _ h => h) st hst
        fun s hs hu hsize => hb s hs hu (by rw [Expr.size]; omega)
      rw [allocateWalk, heq, Expr.unconditional, Expr.unconditionalCalls, Expr.calls, if_neg hname,
        if_neg hname, List.nil_append, List.nil_append]
      exact hwalk.stateless (Bool.eq_false_iff.mpr hname)

/-- Two calls with one id have the same ids outside branches inside them. -/
def SharesIds (cs : List (Call D)) : Prop :=
  ∀ c ∈ cs, ∀ d ∈ cs, isStatefulOp c.name = true → isStatefulOp d.name = true →
    c.nodeId = d.nodeId → ∀ x ∈ Expr.unconditionalCallsArgs c.args,
      ∃ y ∈ Expr.unconditionalCallsArgs d.args, y.nodeId = x.nodeId

theorem sharesIds_allocateNodeIds {body : Expr D} (hun : Unallocated body.calls) :
    SharesIds (allocateNodeIds body).calls := by
  have ha := allocateNodeIds_allocates hun
  have hs := allocateWalk_shares body true ⟨1, []⟩ (.init Int.one_pos) hun
    fun s hs => absurd hs List.not_mem_nil
  have hdistinct := hs.distinct fun s hs => absurd hs List.not_mem_nil
  intro c hc d hd hst hst' hid x hx
  rcases hs.inner c hc hst with ⟨⟨s, hmem, hu, hsid, hstrip⟩, hin⟩ | hsingle
  · -- the two calls are equal, and equal calls outside branches inside them have one id
    rcases hs.inner d hd hst' with ⟨⟨s', hmem', hu', hsid', hstrip'⟩, hin'⟩ | hsingle'
    · obtain rfl := ha.ok.unique hmem hmem' (hsid.trans (hid.trans hsid'.symm))
      have hargs := Expr.unconditionalArgs_congr (Call.strip_inj (hstrip.symm.trans hstrip')).2
      have hxs : x.strip ∈ Expr.unconditionalArgs d.args := by
        rw [← hargs, ← Expr.map_strip_unconditionalCallsArgs]
        exact List.mem_map_of_mem hx
      rw [← Expr.map_strip_unconditionalCallsArgs] at hxs
      obtain ⟨y, hy, hyx⟩ := List.mem_map.mp hxs
      refine ⟨y, hy, ?_⟩
      obtain ⟨t, ht, htu, htid, htx⟩ := hin x hx
      obtain ⟨t', ht', htu', htid', hty⟩ := hin' y hy
      rw [← htid, ← htid', hdistinct t ht t' ht' htu htu' (htx.trans (hyx.symm.trans hty.symm))]
    · exact absurd (hsingle'.conditional s hmem (hsid.trans hid)) (by rw [hu]; decide)
  · obtain rfl := hsingle.alone d hd hst' hid.symm
    exact ⟨x, hx, rfl⟩

end Shares

/-! ## One `Evaluate` -/

/-- The event is an update of the slot of `n`. -/
def Event.updates (n : Int) : Event D → Bool
  | .slotUpdated _ m => m = n
  | .callReturned _ _ => false

/-- How often the slot of `n` was updated. -/
def updateCount (n : Int) (trace : List (Event D)) : Nat := trace.countP (Event.updates n)

/-- In the middle of an `Evaluate` of a body with the calls `cs`: a slot was updated once if its
id is cached and not at all otherwise. -/
structure OncePerSlot (cs : List (Call D)) (s : EvalState D L) : Prop where
  /-- the cached ids are the updated ones -/
  updated : ∀ n, updateCount n s.trace = (s.cache n).isSome.toNat
  /-- what was returned is cached -/
  returned : ∀ n v, .callReturned n v ∈ s.trace → s.cache n = some v
  /-- a cached call leaves no call inside it behind -/
  closed : ∀ c ∈ cs, isStatefulOp c.name = true → s.cache c.nodeId ≠ none →
    ∀ d ∈ Expr.unconditionalCallsArgs c.args, s.cache d.nodeId ≠ none

/-- A computation went from `s` to `s'`, over code with the calls `calls`, of which it passed `us`
for certain. -/
structure Steps (cs calls us : List (Call D)) (s s' : EvalState D L) : Prop where
  /-- the invariant holds afterwards -/
  once : OncePerSlot cs s'
  /-- what is cached stays -/
  grows : ∀ n v, s.cache n = some v → s'.cache n = some v
  /-- only ids of the calls are added -/
  only : ∀ n, s'.cache n ≠ none → s.cache n ≠ none ∨ ∃ c ∈ calls, c.nodeId = n
  /-- and those of `us` are -/
  reached : ∀ d ∈ us, s'.cache d.nodeId ≠ none

/-- When it returns, the computation goes through code with the calls `calls`, and passes `us`. -/
def Stepping {α : Type} (cs calls us : List (Call D)) (m : EvalM D L α) : Prop :=
  ∀ s v s', OncePerSlot cs s → m s = (.ok v, s') → Steps cs calls us s s'

section Stepping

variable {cs calls calls' us us' : List (Call D)} {s s' s'' : EvalState D L}

theorem Steps.refl (h : OncePerSlot cs s) : Steps cs [] [] s s :=
  ⟨h, fun _ _ hc => hc, fun _ hc => .inl hc, fun _ hd => absurd hd List.not_mem_nil⟩

theorem Steps.kept (h : Steps cs calls us s s') {n : Int} (hn : s.cache n ≠ none) :
    s'.cache n ≠ none := by
  obtain ⟨v, hv⟩ := Option.ne_none_iff_exists'.mp hn
  rw [h.grows n v hv]
  exact Option.some_ne_none v

theorem Steps.trans (h : Steps cs calls us s s') (h' : Steps cs calls' us' s' s'') :
    Steps cs (calls ++ calls') (us ++ us') s s'' where
  once := h'.once
  grows n v hv := h'.grows n v (h.grows n v hv)
  only n hn := by
    rcases h'.only n hn with hn | ⟨c, hc, hcn⟩
    · exact (h.only n hn).imp_right fun ⟨c, hc, hcn⟩ => ⟨c, List.mem_append_left _ hc, hcn⟩
    · exact .inr ⟨c, List.mem_append_right _ hc, hcn⟩
  reached d hd := by
    rcases List.mem_append.mp hd with hd | hd
    · exact h'.kept (h.reached d hd)
    · exact h'.reached d hd

theorem Steps.weaken (h : Steps cs calls us s s') (hc : ∀ c ∈ calls, c ∈ calls')
    (hu : ∀ d ∈ us', d ∈ us) : Steps cs calls' us' s s' where
  once := h.once
  grows := h.grows
  only n hn := (h.only n hn).imp_right fun ⟨c, hc', hcn⟩ => ⟨c, hc c hc', hcn⟩
  reached d hd := h.reached d (hu d hd)

namespace Stepping

variable {α β : Type}

theorem pure (a : α) : Stepping (L := L) cs [] [] (pure a : EvalM D L α) := by
  rintro s v s' hs h
  cases h
  exact .refl hs

theorem throw (e : String) : Stepping cs calls us (EvalM.throw e : EvalM D L α) := by
  rintro s v s' hs h
  cases h

theorem bind {m : EvalM D L α} {f : α → EvalM D L β} (hm : Stepping cs calls us m)
    (hf : ∀ a, Stepping cs calls' us' (f a)) :
    Stepping cs (calls ++ calls') (us ++ us') (m >>= f) := by
  intro s v s'' hs h
  obtain ⟨a, s', hms, hfs⟩ := EvalM.bind_eq_ok h
  have hstep := hm s a s' hs hms
  exact hstep.trans (hf a s' v s'' hstep.once hfs)

theorem weaken {m : EvalM D L α} (h : Stepping cs calls us m) (hc : ∀ c ∈ calls, c ∈ calls')
    (hu : ∀ d ∈ us', d ∈ us) : Stepping cs calls' us' m :=
  fun s v s' hs hm => (h s v s' hs hm).weaken hc hu

/-- A pure continuation. -/
theorem map {m : EvalM D L α} (h : Stepping cs calls us m) (f : α → β) :
    Stepping cs calls us (m >>= fun a => Pure.pure (f a)) := by
  have hpure : ∀ a, Stepping (L := L) cs [] [] (Pure.pure (f a) : EvalM D L _) :=
    fun a => Stepping.pure (f a)
  have h' := h.bind hpure
  rwa [List.append_nil, List.append_nil] at h'

theorem visitParameter (name : String) (id : Int) :
    Stepping cs [] [] (Interpreter.visitParameter name id : EvalM D L D) := by
  intro s v s' hs h
  have hsame : s' = s := by
    unfold Interpreter.visitParameter at h
    split at h
    · cases h
    · split at h
      · cases h
      · split at h <;> cases h
        rfl
  rw [hsame]
  exact .refl hs

/-- Operands from left to right. -/
theorem evalAll {f : Expr D → EvalM D L D} (args : List (Expr D))
    (h : ∀ a ∈ args, Stepping cs a.calls a.unconditionalCalls (f a)) :
    Stepping cs (Expr.callsArgs args) (Expr.unconditionalCallsArgs args)
      (Interpreter.evalAll (args.map f)) := by
  induction args with
  | nil => exact .pure _
  | cons a as ih =>
    exact (h a List.mem_cons_self).bind fun v =>
      (ih fun b hb => h b (List.mem_cons_of_mem _ hb)).map fun vs => v :: vs

end Stepping

/-- **The step of a call** whose operands were evaluated and whose id is not cached. -/
theorem steps_call (hshare : SharesIds cs) {c : Call D} (hc : c ∈ cs)
    (hst : isStatefulOp c.name = true) (hpos : 0 < c.nodeId) (hs : OncePerSlot cs s)
    (hidle : s.cache c.nodeId = none)
    (hargs : ∀ d ∈ Expr.unconditionalCallsArgs c.args, s.cache d.nodeId ≠ none) {fn : StatefulFn}
    {step : NodeSlot D L → Except String (D × NodeSlot D L)} {v : D}
    (h : (updateSlot fn c.nodeId step >>= cacheAndReturn c.nodeId) s = (.ok v, s')) :
    Steps cs [c] [c] s s' := by
  obtain ⟨w, s₁, hupdate, hreturn⟩ := EvalM.bind_eq_ok h
  have htrace : s₁.cache = s.cache ∧ s₁.trace = s.trace ++ [.slotUpdated fn c.nodeId] := by
    unfold updateSlot at hupdate
    split at hupdate <;> cases hupdate
    exact ⟨rfl, rfl⟩
  unfold cacheAndReturn noteReturn at hreturn
  rw [if_pos hpos] at hreturn
  cases hreturn
  have hcache : ∀ n, n ≠ c.nodeId → (if n = c.nodeId then some v else s₁.cache n) = s.cache n := by
    intro n hn
    rw [if_neg hn, htrace.1]
  refine ⟨⟨fun n => ?_, fun n w hw => ?_, fun d hd hdst hdn x hx => ?_⟩, fun n w hw => ?_,
    fun n hn => ?_, fun d hd => ?_⟩ <;> dsimp only at *
  · have hcount : updateCount n (s₁.trace ++ [.callReturned c.nodeId v]) =
        updateCount n s.trace + if n = c.nodeId then 1 else 0 := by
      rw [htrace.2]
      unfold updateCount
      rw [List.countP_append, List.countP_append, List.countP_singleton, List.countP_singleton]
      by_cases hn : n = c.nodeId
      · simp [Event.updates, hn]
      · simp [Event.updates, hn, Ne.symm hn]
    rw [hcount, hs.updated]
    by_cases hn : n = c.nodeId
    · rw [hn, hidle, if_pos rfl, if_pos rfl]
      rfl
    · rw [if_neg hn, hcache n hn, Nat.add_zero]
  · rw [htrace.2] at hw
    rcases List.mem_append.mp hw with hw | hw
    · rcases List.mem_append.mp hw with hw | hw
      · have hold := hs.returned n w hw
        rw [hcache n fun hn => by rw [hn, hidle] at hold; cases hold]
        exact hold
      · exact nomatch List.mem_singleton.mp hw
    · cases List.mem_singleton.mp hw
      exact if_pos rfl
  · -- calls with the id of `c` have the ids inside `c`
    have hkept : ∀ n, s.cache n ≠ none → (if n = c.nodeId then some v else s₁.cache n) ≠ none := by
      intro n hn
      by_cases hnc : n = c.nodeId
      · rw [if_pos hnc]
        exact Option.some_ne_none v
      · rwa [hcache n hnc]
    by_cases hid : d.nodeId = c.nodeId
    · obtain ⟨y, hy, hyx⟩ := hshare d hd c hc hdst hst hid x hx
      rw [← hyx]
      exact hkept _ (hargs y hy)
    · rw [hcache _ hid] at hdn
      exact hkept _ (hs.closed d hd hdst hdn x hx)
  · rw [hcache n fun hn => by rw [hn, hidle] at hw; cases hw]
    exact hw
  · by_cases hnc : n = c.nodeId
    · exact .inr ⟨c, List.mem_cons_self, hnc.symm⟩
    · rw [hcache n hnc] at hn
      exact .inl hn
  · rw [List.mem_singleton.mp hd, if_pos rfl]
    exact Option.some_ne_none v

end Stepping

/-! ## The visitor -/

section Visitor

/-- Allocation keeps tickers. -/
theorem Allocates.tickerNamed {u : Bool} {cs cs' : List (Call D)} {us : List (Expr D)}
    {st st' : AllocState D} (h : Allocates u cs us cs' st st') (hcs : ∀ c ∈ cs, c.TickerNamed) :
    ∀ c ∈ cs', c.TickerNamed := by
  intro c hc hf hs a as hargs
  obtain ⟨d, hd, hren⟩ := forall₂_mem_right h.renumbered hc
  have hfaces := sameFaces_of_strip hren.args
  rw [hargs] at hfaces
  cases hd' : d.args with
  | nil => rw [hd'] at hfaces; cases hfaces
  | cons b bs =>
    rw [hd'] at hfaces
    cases hfaces with
    | cons hab _ =>
      obtain ⟨ticker, ht⟩ := hcs d hd (hren.name ▸ hf) (hren.symbolId ▸ hs) b bs hd'
      exact ⟨ticker, (asIdentifier_eq_of_face hab).trans ht⟩

/-- Expressions without calls have none outside branches. -/
theorem unconditionalCallsArgs_take {args : List (Expr D)} {k : Nat}
    (h : ∀ a ∈ args.drop k, a.calls = []) {d : Call D}
    (hd : d ∈ Expr.unconditionalCallsArgs args) : d ∈ Expr.unconditionalCallsArgs (args.take k) := by
  obtain ⟨a, ha, hda⟩ := Expr.mem_unconditionalCallsArgs.mp hd
  rw [← List.take_append_drop k args] at ha
  rcases List.mem_append.mp ha with ha | ha
  · exact Expr.mem_unconditionalCallsArgs.mpr ⟨a, ha, hda⟩
  · have := (a.unconditionalCalls_subset d hda).1
    rw [h a ha] at this
    exact absurd this List.not_mem_nil

variable [Fp D]

/-- A call whose ticker is named has the shape it has in some table without its symbol id. -/
theorem decodeCall_tickerNamed (impl : StatefulFn → List (Option D) → Impl)
    (symbols : SymbolTable) {c : Call D} (hc : c.TickerNamed) :
    ∃ symbols' : SymbolTable, decodeCall impl symbols c.name c.args c.symbolId =
      decodeCall impl symbols' c.name c.args (-1) := by
  by_cases hs : 0 ≤ c.symbolId
  · -- the table does not matter, so that it may be one that has the ticker
    let symbols' : SymbolTable := fun _ => some c.symbolId.toNat
    have hresolve : ∀ name args, resolveSymbolSlot symbols name args c.symbolId =
        resolveSymbolSlot symbols' name (args : List (Expr D)) c.symbolId := by
      intro name args
      unfold resolveSymbolSlot
      rw [if_pos hs, if_pos hs]
    have hok : c.SymbolOk symbols' := fun hf hs a as ha =>
      have ⟨ticker, ht⟩ := hc hf hs a as ha
      ⟨ticker, ht, rfl⟩
    refine ⟨symbols', Eq.trans ?_ (decodeCall_symbolOk impl hok)⟩
    unfold decodeCall decodeStateful
    simp only [hresolve]
  · exact ⟨symbols, decodeCall_symbolOk impl fun _ h => absurd h hs⟩

variable [Fp L] [Widen D L] {symbols : SymbolTable} {market : MarketState D} {body : Expr D}

/-- An operator after its operands. -/
theorem stepping_operator (hids : ConsistentIds body.calls) (hshare : SharesIds body.calls)
    {c : Call D} (hc : c ∈ body.calls) (hst : isStatefulOp c.name = true) {s s' : EvalState D L}
    (hs : OncePerSlot body.calls s) (hidle : s.cache c.nodeId = none) {op : StatefulOp D}
    (hrest : ∀ a ∈ c.args.drop op.fn.arity, a.calls = [])
    (hkalman : op.fn = .kalman1d → c.args.length = 3)
    (ih : ∀ a ∈ c.args, Stepping body.calls a.calls a.unconditionalCalls
      (visit symbols market a : EvalM D L D)) {v : D}
    (h : (evalOperator op market c.nodeId ((c.args.take op.fn.arity).map (visit symbols market)) >>=
      cacheAndReturn c.nodeId) s = (.ok v, s')) :
    Steps body.calls (c :: Expr.callsArgs c.args) (c :: Expr.unconditionalCallsArgs c.args) s s' := by
  have hpos := hids.stateful c hc hst
  -- the step, once the operands are evaluated
  have hlast : ∀ {fn : StatefulFn} {step : NodeSlot D L → Except String (D × NodeSlot D L)}
      {s₁ : EvalState D L}, Steps body.calls (Expr.callsArgs c.args)
        (Expr.unconditionalCallsArgs c.args) s s₁ →
      (updateSlot fn c.nodeId step >>= cacheAndReturn c.nodeId) s₁ = (.ok v, s') →
      Steps body.calls (c :: Expr.callsArgs c.args) (c :: Expr.unconditionalCallsArgs c.args) s s' := by
    intro fn step s₁ hargs hstep
    have hidle₁ : s₁.cache c.nodeId = none := by
      by_contra hn
      rcases hargs.only c.nodeId hn with hn | ⟨d, hd, hid⟩
      · exact hn hidle
      · exact hids.acyclic hc hst d hd hid
    refine (hargs.trans (steps_call hshare hc hst hpos hargs.once hidle₁ hargs.reached hstep)).weaken
      (fun d hd => ?_) (fun d hd => ?_)
    · rw [← List.singleton_append]
      exact List.mem_append.mpr (List.mem_append.mp hd).symm
    · rw [← List.singleton_append] at hd
      exact List.mem_append.mpr (List.mem_append.mp hd).symm
  have hall : ∀ {us : List (Call D)} {s₁ : EvalState D L},
      Steps body.calls (Expr.callsArgs (c.args.take op.fn.arity)) us s s₁ →
      (∀ d ∈ Expr.unconditionalCallsArgs (c.args.take op.fn.arity), d ∈ us) →
      Steps body.calls (Expr.callsArgs c.args) (Expr.unconditionalCallsArgs c.args) s s₁ := by
    intro us s₁ hsteps hus
    rw [callsArgs_take hrest] at hsteps
    exact hsteps.weaken (fun _ h => h) fun d hd => hus d (unconditionalCallsArgs_take hrest hd)
  by_cases hop : op.fn = .kalman1d
  · -- the measurement is evaluated last
    obtain ⟨x, q, r, hxqr⟩ := List.length_eq_three.mp (hkalman hop)
    have htake : c.args.take op.fn.arity = [x, q, r] := by
      rw [hop, hxqr]
      rfl
    rw [htake, List.map_cons, List.map_cons, List.map_cons, List.map_nil,
      evalOperator_kalman1d hop] at h
    rw [htake] at hall
    rw [hxqr] at ih
    obtain ⟨vq, s₁, hvq, h⟩ := EvalM.bind_eq_ok h
    obtain ⟨vr, s₂, hvr, h⟩ := EvalM.bind_eq_ok h
    split at h
    · cases h
    obtain ⟨vx, s₃, hvx, hstep⟩ := EvalM.bind_eq_ok h
    have hq := ih q (by simp) s vq s₁ hs hvq
    have hr := ih r (by simp) s₁ vr s₂ hq.once hvr
    have hx := ih x (by simp) s₂ vx s₃ hr.once hvx
    refine hlast (hall (((hq.trans hr).trans hx).weaken ?_ fun _ h => h) ?_) hstep
    · intro d hd
      simp only [Expr.callsArgs, List.mem_append] at hd ⊢
      tauto
    · intro d hd
      simp only [Expr.unconditionalCallsArgs, List.mem_append] at hd ⊢
      tauto
  · rw [evalOperator_of_ne hop, EvalM.bind_assoc] at h
    obtain ⟨vs, s₁, hvs, hstep⟩ := EvalM.bind_eq_ok h
    have hargs := Stepping.evalAll _ (fun a ha => ih a (List.mem_of_mem_take ha)) s vs s₁ hs hvs
    exact hlast (hall hargs fun d hd => hd) hstep

/-- A call, cached or not. -/
theorem stepping_call (hids : ConsistentIds body.calls) (hshare : SharesIds body.calls)
    {c : Call D} (hc : c ∈ body.calls) (hticker : c.TickerNamed)
    (ih : ∀ a ∈ c.args, Stepping body.calls a.calls a.unconditionalCalls
      (visit symbols market a : EvalM D L D)) :
    Stepping body.calls (c :: Expr.callsArgs c.args)
      ((if isStatefulOp c.name then [c] else []) ++ Expr.unconditionalCallsArgs c.args)
      (visitCall symbols market c.name
        ⟨visitArgs symbols market c.args, c.nodeId, c.symbolId⟩ : EvalM D L D) := by
  intro s v s' hs h
  unfold visitCall at h
  split at h
  · -- the id is cached, and with it all that is inside the call
    rename_i w hcached
    dsimp only at h hcached
    by_cases hpos : 0 < c.nodeId
    · rw [if_pos hpos] at hcached
      have hst := hids.stateful_of_pos hc hpos
      have hne : s.cache c.nodeId ≠ none := by
        rw [hcached]
        exact Option.some_ne_none w
      cases h
      refine ⟨⟨fun n => ?_, fun n u hu => ?_, hs.closed⟩, fun _ _ h => h, fun _ h => .inl h, ?_⟩
      · rw [← hs.updated n]
        unfold updateCount
        rw [List.countP_append]
        rfl
      · rcases List.mem_append.mp hu with hu | hu
        · exact hs.returned n u hu
        · cases List.mem_singleton.mp hu
          exact hcached
      · intro d hd
        rw [if_pos hst] at hd
        rcases List.mem_append.mp hd with hd | hd
        · rw [List.mem_singleton.mp hd]
          exact hne
        · exact hs.closed c hc hst hne d hd
    · rw [if_neg hpos] at hcached
      cases hcached
  · rename_i hcached
    dsimp only at hcached
    have hview : (visitArgs symbols market c.args : List (CallArg D L)).map CallArg.expr = c.args := by
      rw [visitArgs_eq_map, List.map_map]
      exact List.map_id _
    have hspec := dispatch_spec symbols market c.name
      ⟨(visitArgs symbols market c.args : List (CallArg D L)), c.nodeId, c.symbolId⟩
      fun hst => Int.not_lt.mpr (Int.le_of_lt (hids.stateful c hc hst))
    dsimp only at hspec
    obtain ⟨symbols', hdecode⟩ := decodeCall_tickerNamed runtimeImpl symbols hticker
    rw [hview, hdecode] at hspec
    have hstateless : (∀ op, decodeCall runtimeImpl symbols' c.name c.args (-1) ≠ .stateful op) →
        decodeCall runtimeImpl symbols' c.name c.args (-1) ≠ .invalid →
        (if isStatefulOp c.name then [c] else []) = [] := by
      intro hop hvalid
      refine if_neg fun hst => ?_
      obtain ⟨fn, hfn⟩ := isStatefulOp_iff.mp hst
      rcases decodeCall_stateful runtimeImpl symbols' c.args hfn with hinv | ⟨op, hshape, -⟩
      · exact hvalid hinv
      · exact hop op hshape
    rcases hshape : decodeCall runtimeImpl symbols' c.name c.args (-1) with _ | ⟨fn, sym⟩ | fn | op <;>
      rw [hshape] at hspec
    · obtain ⟨e, he⟩ := hspec
      rw [he] at h
      cases h
    · have hspec : dispatch symbols market c.name _ = _ := hspec
      rw [hspec] at h
      cases h
      obtain ⟨a, harg, ha⟩ := args_of_market hshape
      refine (Steps.refl hs).weaken (fun _ hd => absurd hd List.not_mem_nil) fun d hd => ?_
      rw [hstateless (by rw [hshape]; exact fun _ => nofun) (by rw [hshape]; nofun), List.nil_append] at hd
      obtain ⟨b, hb, hdb⟩ := Expr.mem_unconditionalCallsArgs.mp hd
      rw [harg] at hb
      rw [List.mem_singleton.mp hb] at hdb
      have := (a.unconditionalCalls_subset d hdb).1
      rw [ha] at this
      exact this
    · obtain ⟨arg, harg, heq⟩ := hspec
      rw [heq] at h
      rw [visitArgs_eq_map] at harg
      obtain ⟨a, hargs, rfl⟩ := List.map_eq_singleton_iff.mp harg
      have hstep := ((ih a (by rw [hargs]; exact List.mem_cons_self)).map fn.apply) s v s' hs h
      rw [hstateless (by rw [hshape]; exact fun _ => nofun) (by rw [hshape]; nofun), hargs]
      refine hstep.weaken (fun d hd => ?_) fun d hd => ?_
      · exact List.mem_cons_of_mem _ (List.mem_append_left _ hd)
      · rwa [List.nil_append, Expr.unconditionalCallsArgs, Expr.unconditionalCallsArgs,
          List.append_nil] at hd
    · have hspec : dispatch symbols market c.name _ = _ := hspec
      have hmap : ((visitArgs symbols market c.args : List (CallArg D L)).take op.fn.arity).map
          CallArg.eval = (c.args.take op.fn.arity).map (visit symbols market) := by
        rw [visitArgs_eq_map, ← List.map_take, List.map_map]
        rfl
      rw [hspec, hmap] at h
      have hst : isStatefulOp c.name = true := by
        by_contra hst
        exact decodeCall_stateless (-1) (Bool.eq_false_iff.mpr hst) op hshape
      obtain ⟨fn, hfn⟩ := isStatefulOp_iff.mp hst
      rw [if_pos hst]
      rw [if_pos (hids.stateful c hc hst)] at hcached
      rcases decodeCall_stateful runtimeImpl symbols' c.args hfn with hinv | ⟨op', hop, hdec⟩
      · rw [hinv] at hshape
        cases hshape
      rw [hop] at hshape
      cases hshape
      exact stepping_operator hids hshare hc hst hs hcached (hdec.fn_eq ▸ hdec.rest)
        (fun hk => hdec.kalman (hdec.fn_eq.symm.trans hk)) ih h

/-- **The visitor goes through every expression once**, as far as slots are concerned. -/
theorem visit_steps (hids : ConsistentIds body.calls) (hshare : SharesIds body.calls)
    (hticker : ∀ c ∈ body.calls, c.TickerNamed) (e : Expr D) : (∀ c ∈ e.calls, c ∈ body.calls) →
    Stepping body.calls e.calls e.unconditionalCalls (visit symbols market e : EvalM D L D) := by
  induction e using Expr.induct with
  | numberLiteral loc v => exact fun _ => .pure v
  | identifierExpr loc n => exact fun _ => .throw _
  | parameterExpr loc n i => exact fun _ => .visitParameter n i
  | unaryOp loc k e ih => exact fun h => (ih h).map _
  | binaryOp loc k l r ihl ihr =>
    intro h
    exact (ihl fun c hc => h c (List.mem_append_left _ hc)).bind fun v =>
      (ihr fun c hc => h c (List.mem_append_right _ hc)).map _
  | conditional loc c t e ihc iht ihe =>
    intro h
    have hc := ihc fun d hd => h d (List.mem_append_left _ (List.mem_append_left _ hd))
    have ht := iht fun d hd => h d (List.mem_append_left _ (List.mem_append_right _ hd))
    have he := ihe fun d hd => h d (List.mem_append_right _ hd)
    have hbranch : ∀ v : D, Stepping body.calls (t.calls ++ e.calls) []
        (if truthy v then visit symbols market t else visit symbols market e : EvalM D L D) := by
      intro v
      split
      · exact ht.weaken (fun d hd => List.mem_append_left _ hd) fun d hd => absurd hd List.not_mem_nil
      · exact he.weaken (fun d hd => List.mem_append_right _ hd) fun d hd => absurd hd List.not_mem_nil
    have h := hc.bind hbranch
    rw [List.append_nil, ← List.append_assoc] at h
    exact h
  | functionCall loc n args nid sid ih =>
    intro h
    refine stepping_call hids hshare (c := ⟨n, args, nid, sid⟩) (h _ List.mem_cons_self)
      (hticker _ (h _ List.mem_cons_self)) fun a ha => ih a ha fun c hc => ?_
    exact h c (List.mem_cons_of_mem _ (Expr.mem_callsArgs.mpr ⟨a, ha, hc⟩))

/-- **Every slot is updated once.** After `AllocateNodeIds`, calls with one id are structurally
equal; and an `Evaluate` that returns updates the slot of every call outside branches exactly
once, every other slot at most once, and returns one value for all calls with one id. -/
theorem slots_updated_once [DecidableEq D] {body : Expr D} (hun : Unallocated body.calls)
    (hticker : ∀ c ∈ body.calls, c.TickerNamed) :
    (∀ c ∈ (allocateNodeIds body).calls, ∀ d ∈ (allocateNodeIds body).calls,
      isStatefulOp c.name = true → isStatefulOp d.name = true → c.nodeId = d.nodeId →
      astEquals (.functionCall {} c.name c.args c.nodeId c.symbolId)
        (.functionCall {} d.name d.args d.nodeId d.symbolId) = true) ∧
    ∀ (symbols : SymbolTable) (market : MarketState D) (ctx : SignalContext D (NodeSlot D L)) (v : D)
      (s : EvalState D L), evaluateState symbols (allocateNodeIds body) market ctx = (.ok v, s) →
      (∀ c ∈ (allocateNodeIds body).unconditionalCalls, updateCount c.nodeId s.trace = 1) ∧
      (∀ n, updateCount n s.trace ≤ 1) ∧
      ∀ n v w, .callReturned n v ∈ s.trace → .callReturned n w ∈ s.trace → v = w := by
  have ha := allocateNodeIds_allocates hun
  have hids := ha.consistentIds hun
  have hvisit : ∀ (symbols : SymbolTable) (market : MarketState D),
      Stepping (allocateNodeIds body).calls (allocateNodeIds body).calls
        (allocateNodeIds body).unconditionalCalls
        (visit symbols market (allocateNodeIds body) : EvalM D L D) := fun symbols market =>
    visit_steps hids (sharesIds_allocateNodeIds hun) (ha.tickerNamed hticker) _ fun _ h => h
  refine ⟨fun c hc d hd hst _ hid => ?_, fun symbols market ctx v s h => ?_⟩
  · rw [astEquals_iff, Expr.strip, Expr.strip, Expr.stripArgs_eq_map, Expr.stripArgs_eq_map]
    exact hids.equal c hc d hd hst hid
  · have hsteps := hvisit symbols market ⟨ctx, fun _ => none, []⟩ v s
      ⟨fun _ => rfl, fun _ _ h => absurd h List.not_mem_nil, fun _ _ _ h => absurd rfl h⟩ h
    refine ⟨fun c hc => ?_, fun n => ?_, fun n v w hv hw => ?_⟩
    · obtain ⟨u, hu⟩ := Option.ne_none_iff_exists'.mp (hsteps.reached c hc)
      rw [hsteps.once.updated, hu]
      rfl
    · rw [hsteps.once.updated]
      exact Bool.toNat_le _
    · have h := (hsteps.once.returned n v hv).symm.trans (hsteps.once.returned n w hw)
      exact Option.some.inj h

end Visitor

/-! ### One average three times -/

section ThreeAverages

open Concrete

/-- `sma(sma(mid(A), 2), 2) + (if mid(A) > 5 then sma(sma(mid(A), 2), 2) else sma(mid(A), 2))` -/
def threeAverages : Expr (Exact ℚ) :=
  plus (app "sma" [app "sma" [mid "A", num 2], num 2])
    (ifThenElse (gt (mid "A") (num 5)) (app "sma" [app "sma" [mid "A", num 2], num 2])
      (app "sma" [mid "A", num 2]))

theorem slots_updated_once_threeAverages :
    (∀ c ∈ (allocateNodeIds threeAverages).calls, ∀ d ∈ (allocateNodeIds threeAverages).calls,
      isStatefulOp c.name = true → isStatefulOp d.name = true → c.nodeId = d.nodeId →
      astEquals (.functionCall {} c.name c.args c.nodeId c.symbolId)
        (.functionCall {} d.name d.args d.nodeId d.symbolId) = true) ∧
    ∃ v s, evaluateState symbols (allocateNodeIds threeAverages) (quote 7 7)
        (freshContext [] (allocateNodeIds threeAverages) : SignalContext (Exact ℚ)
          (NodeSlot (Exact ℚ) (Exact ℚ))) = (.ok v, s) ∧
      (∀ c ∈ (allocateNodeIds threeAverages).unconditionalCalls, updateCount c.nodeId s.trace = 1) ∧
      (∀ n, updateCount n s.trace ≤ 1) ∧
      ∀ n v w, .callReturned n v ∈ s.trace → .callReturned n w ∈ s.trace → v = w := by
  have hun : ∀ c ∈ threeAverages.calls, c.nodeId = -1 := by decide +kernel
  have hunset : ∀ c ∈ threeAverages.calls, c.symbolId < 0 := by decide +kernel
  have h := slots_updated_once (L := Exact ℚ) hun
    fun c hc _ hs => absurd hs (Int.not_le.mpr (hunset c hc))
  have hok : (evaluateState symbols (allocateNodeIds threeAverages) (quote 7 7)
      (freshContext [] (allocateNodeIds threeAverages) : SignalContext (Exact ℚ)
        (NodeSlot (Exact ℚ) (Exact ℚ)))).1.toBool = true := by decide +kernel
  rcases hrun : evaluateState symbols (allocateNodeIds threeAverages) (quote 7 7)
    (freshContext [] (allocateNodeIds threeAverages)) with ⟨_ | v, s⟩
  · rw [hrun] at hok
    cases hok
  · exact ⟨h.1, v, s, rfl, h.2 symbols (quote 7 7) _ v s hrun⟩

end ThreeAverages

end JitSignalEngine
