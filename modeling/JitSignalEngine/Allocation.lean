import JitSignalEngine.SignalProgram
import JitSignalEngine.InterpreterSchedule

/-!
# What the id allocator guarantees

The allocator walks a body in pre-order. A stateful call gets the id of an earlier
unconditional call that is structurally equal to it, or else a fresh id.

* `allocateWalk_strip` — only ids change.
* `Allocates` — what a walk does to the ids, composed piece by piece: ids grow, every
  stateful call has the id of a remembered call that equals it (`Allocates.found`), and
  every unconditional call has an unconditional equal in the memory
  (`Allocates.known`).
* `walk_scheduled` — the ids of a walked body have one site each in its schedule, in
  the order in which they were handed out.
* `wellNumbered_allocateNodeIds` — the interpreter can be followed on allocated bodies.
-/

namespace JitSignalEngine

variable {D : Type}

/-! ## Unconditional calls -/

mutual

/-- The stateful calls of an expression outside all then- and else-branches, without
locations and ids. -/
def Expr.unconditional : Expr D → List (Expr D)
  | .numberLiteral _ _ => []
  | .identifierExpr _ _ => []
  | .parameterExpr _ _ _ => []
  | .unaryOp _ _ e => e.unconditional
  | .binaryOp _ _ l r => l.unconditional ++ r.unconditional
  | .conditional _ c _ _ => c.unconditional
  | .functionCall loc n args nid sid =>
    (if isStatefulOp n then [Expr.strip (.functionCall loc n args nid sid)] else []) ++
      unconditionalArgs args

/-- `Expr.unconditional` on an argument list. -/
def Expr.unconditionalArgs : List (Expr D) → List (Expr D)
  | [] => []
  | a :: as => a.unconditional ++ unconditionalArgs as

end

/-- A call as an expression, without location and ids. -/
def Call.strip (c : Call D) : Expr D := .functionCall {} c.name (c.args.map Expr.strip) (-1) (-1)

/-- Structurally equal trees have structurally equal unconditional calls. -/
theorem Expr.unconditional_strip (e : Expr D) : e.strip.unconditional = e.unconditional := by
  induction e using Expr.induct with
  | numberLiteral | identifierExpr | parameterExpr => rfl
  | unaryOp loc k e ih => exact ih
  | binaryOp loc k l r ihl ihr => rw [strip, unconditional, unconditional, ihl, ihr]
  | conditional loc c t e ihc iht ihe => exact ihc
  | functionCall loc n args nid sid ih =>
    have hargs : ∀ as : List (Expr D), (∀ a ∈ as, a.strip.unconditional = a.unconditional) →
        unconditionalArgs (as.map strip) = unconditionalArgs as := by
      intro as
      induction as with
      | nil => intro _; rfl
      | cons a as iha =>
        intro h
        rw [List.map_cons, unconditionalArgs, unconditionalArgs, h a List.mem_cons_self,
          iha fun b hb => h b (List.mem_cons_of_mem _ hb)]
    have hstrip := (Expr.functionCall loc n args nid sid).strip_strip
    rw [strip, stripArgs_eq_map] at hstrip ⊢
    rw [unconditional, unconditional, hargs args ih, hstrip, strip, stripArgs_eq_map]

theorem Expr.unconditionalArgs_congr {as bs : List (Expr D)}
    (h : as.map Expr.strip = bs.map Expr.strip) :
    unconditionalArgs as = unconditionalArgs bs := by
  induction as generalizing bs with
  | nil =>
    rw [List.map_nil, eq_comm, List.map_eq_nil_iff] at h
    rw [h]
  | cons a as ih =>
    cases bs with
    | nil => cases h
    | cons b bs =>
      rw [List.map_cons, List.map_cons, List.cons.injEq] at h
      rw [unconditionalArgs, unconditionalArgs, ih h.2, ← a.unconditional_strip, h.1,
        b.unconditional_strip]

/-! ## The memory of the walk -/

/-- The walk remembers an unconditional call that equals `x`. -/
def Known (seen : List (SeenStateful D)) (x : Expr D) : Prop :=
  ∃ s ∈ seen, s.unconditional = true ∧ s.node.strip = x

theorem Known.append {seen : List (SeenStateful D)} {x : Expr D} (h : Known seen x)
    (new : List (SeenStateful D)) : Known (seen ++ new) x :=
  have ⟨s, hs, hrest⟩ := h
  ⟨s, List.mem_append_left _ hs, hrest⟩

/-- Ids are positive, were handed out, and are different. -/
structure AllocState.Ok (st : AllocState D) : Prop where
  /-- ids start at one -/
  pos : 0 < st.nextId
  /-- remembered ids were handed out -/
  range : ∀ s ∈ st.seen, 0 < s.nodeId ∧ s.nodeId < st.nextId
  /-- each of them once -/
  nodup : (st.seen.map SeenStateful.nodeId).Nodup

theorem AllocState.Ok.init {n : Int} (h : 0 < n) : (⟨n, []⟩ : AllocState D).Ok :=
  ⟨h, fun _ hs => absurd hs List.not_mem_nil, List.nodup_nil⟩

/-- An id determines the remembered call. -/
theorem AllocState.Ok.unique {st : AllocState D} (h : st.Ok) {s s' : SeenStateful D}
    (hs : s ∈ st.seen) (hs' : s' ∈ st.seen) (hid : s.nodeId = s'.nodeId) : s = s' :=
  List.inj_on_of_nodup_map h.nodup hs hs' hid

section Walk

variable [DecidableEq D]

/-- What happens to a stateful call without an id. -/
theorem assignNodeId_cases {st : AllocState D} (hst : st.Ok) (loc : SourceLoc) {name : String}
    (args : List (Expr D)) {nid : Int} (sid : Int) (hname : isStatefulOp name = true) (hnid : nid = -1)
    (u : Bool) :
    (∃ s ∈ st.seen, s.unconditional = true ∧
      s.node.strip = (Expr.functionCall loc name args nid sid).strip ∧
      assignNodeId st loc name args nid sid u = (s.nodeId, st)) ∨
    (¬ Known st.seen (Expr.functionCall loc name args nid sid).strip ∧
      assignNodeId st loc name args nid sid u =
        (st.nextId, ⟨st.nextId + 1,
          st.seen ++ [⟨.functionCall loc name args nid sid, st.nextId, u⟩]⟩)) := by
  have hcond : (isStatefulOp name && decide (nid < 0)) = true := by
    rw [hname, hnid]
    rfl
  unfold assignNodeId tryAliasNodeId
  rw [if_pos hcond]
  rcases hfind : st.seen.find? fun s => s.unconditional && astEquals s.node
      (.functionCall loc name args nid sid) with _ | s
  · refine .inr ⟨?_, by simp only [hfind]; rfl⟩
    rintro ⟨s, hs, hu, heq⟩
    have := List.find?_eq_none.mp hfind s hs
    rw [hu, Bool.true_and] at this
    exact this ((astEquals_iff _ _).mpr heq)
  · have hmem := List.mem_of_find?_eq_some hfind
    have hs := List.find?_some hfind
    rw [Bool.and_eq_true] at hs
    refine .inl ⟨s, hmem, hs.1, (astEquals_iff _ _).mp hs.2, ?_⟩
    simp only [hfind, if_pos (hst.range s hmem).1]

/-- Only ids change. -/
theorem allocateWalk_strip (e : Expr D) : ∀ (u : Bool) (st : AllocState D),
    (allocateWalk e u st).1.strip = e.strip := by
  induction e using Expr.induct with
  | numberLiteral | identifierExpr | parameterExpr => intro u st; rfl
  | unaryOp loc k e ih =>
    intro u st
    rw [allocateWalk, Expr.strip, Expr.strip, ih]
  | binaryOp loc k l r ihl ihr =>
    intro u st
    rw [allocateWalk, Expr.strip, Expr.strip, ihl, ihr]
  | conditional loc c t e ihc iht ihe =>
    intro u st
    rw [allocateWalk, Expr.strip, Expr.strip, ihc, iht, ihe]
  | functionCall loc n args nid sid ih =>
    intro u st
    have hargs : ∀ (as : List (Expr D)), (∀ a ∈ as, a ∈ args) → ∀ st,
        (allocateWalkArgs as u st).1.map Expr.strip = as.map Expr.strip := by
      intro as
      induction as with
      | nil => intro _ st; rfl
      | cons a as iha =>
        intro hmem st
        rw [allocateWalkArgs, List.map_cons, List.map_cons, ih a (hmem a List.mem_cons_self),
          iha fun b hb => hmem b (List.mem_cons_of_mem _ hb)]
    rw [allocateWalk, Expr.strip, Expr.strip, Expr.stripArgs_eq_map, Expr.stripArgs_eq_map]
    rw [hargs args fun _ h => h]

/-- `allocateWalk_strip` for an argument list. -/
theorem allocateWalkArgs_strip (args : List (Expr D)) (u : Bool) (st : AllocState D) :
    (allocateWalkArgs args u st).1.map Expr.strip = args.map Expr.strip := by
  induction args generalizing st with
  | nil => rfl
  | cons a as ih =>
    rw [allocateWalkArgs, List.map_cons, List.map_cons, allocateWalk_strip, ih]

omit [DecidableEq D] in
/-- `c'` is `c` with other ids. -/
structure Renumbered (c c' : Call D) : Prop where
  /-- the same function -/
  name : c'.name = c.name
  /-- the same symbol id -/
  symbolId : c'.symbolId = c.symbolId
  /-- arguments that differ in ids -/
  args : c'.args.map Expr.strip = c.args.map Expr.strip
  /-- calls without state keep what is in their id field -/
  stateless : isStatefulOp c.name = false → c'.nodeId = c.nodeId

/-- What a walk over code with the calls `cs`, of which `us` stand outside the branches,
does: `cs'` are the calls with their ids. -/
structure Allocates (u : Bool) (cs : List (Call D)) (us : List (Expr D)) (cs' : List (Call D))
    (st st' : AllocState D) : Prop where
  /-- the memory stays in order -/
  ok : st'.Ok
  /-- ids grow -/
  le : st.nextId ≤ st'.nextId
  /-- the memory grows, by calls with new ids -/
  grows : ∃ new, st'.seen = st.seen ++ new ∧ (∀ s ∈ new, st.nextId ≤ s.nodeId) ∧
    ∀ s ∈ new, s.unconditional = true → u = true
  /-- only ids change -/
  renumbered : List.Forall₂ Renumbered cs cs'
  /-- every stateful call has the id of a remembered call that equals it -/
  found : ∀ c ∈ cs', isStatefulOp c.name = true →
    ∃ s ∈ st'.seen, s.nodeId = c.nodeId ∧ s.node.strip = c.strip
  /-- every unconditional call has an unconditional equal in the memory -/
  known : u = true → ∀ x ∈ us, Known st'.seen x

namespace Allocates

variable {u : Bool} {cs₁ cs₂ cs₁' cs₂' : List (Call D)} {us₁ us₂ : List (Expr D)}
  {st st₁ st₂ : AllocState D}

omit [DecidableEq D] in
theorem refl (h : st.Ok) : Allocates u [] [] [] st st :=
  ⟨h, Int.le_refl _, ⟨[], (List.append_nil _).symm, fun _ hs => absurd hs List.not_mem_nil,
    fun _ hs => absurd hs List.not_mem_nil⟩, .nil, fun _ hc => absurd hc List.not_mem_nil,
    fun _ _ hx => absurd hx List.not_mem_nil⟩

omit [DecidableEq D] in
theorem seen_subset (h : Allocates u cs₁ us₁ cs₁' st st₁) {s : SeenStateful D}
    (hs : s ∈ st.seen) : s ∈ st₁.seen := by
  obtain ⟨new, hnew, _⟩ := h.grows
  rw [hnew]
  exact List.mem_append_left _ hs

omit [DecidableEq D] in
theorem known_mono (h : Allocates u cs₁ us₁ cs₁' st st₁) {x : Expr D} (hx : Known st.seen x) :
    Known st₁.seen x := by
  obtain ⟨new, hnew, _⟩ := h.grows
  rw [hnew]
  exact hx.append new

omit [DecidableEq D] in
/-- One piece of code after another. -/
theorem append (h : Allocates u cs₁ us₁ cs₁' st st₁) (h' : Allocates u cs₂ us₂ cs₂' st₁ st₂) :
    Allocates u (cs₁ ++ cs₂) (us₁ ++ us₂) (cs₁' ++ cs₂') st st₂ where
  ok := h'.ok
  le := Int.le_trans h.le h'.le
  grows := by
    obtain ⟨new, hnew, hid, hu⟩ := h.grows
    obtain ⟨new', hnew', hid', hu'⟩ := h'.grows
    refine ⟨new ++ new', by rw [hnew', hnew, List.append_assoc], fun s hs => ?_, fun s hs => ?_⟩
    · rcases List.mem_append.mp hs with hs | hs
      · exact hid s hs
      · exact Int.le_trans h.le (hid' s hs)
    · exact (List.mem_append.mp hs).elim (hu s) (hu' s)
  renumbered := List.rel_append h.renumbered h'.renumbered
  found c hc hf := by
    rcases List.mem_append.mp hc with hc | hc
    · obtain ⟨s, hs, hrest⟩ := h.found c hc hf
      exact ⟨s, h'.seen_subset hs, hrest⟩
    · exact h'.found c hc hf
  known hu x hx := (List.mem_append.mp hx).elim (fun hx => h'.known_mono (h.known hu x hx))
    (h'.known hu x)

omit [DecidableEq D] in
/-- A branch, seen from outside. -/
theorem branch (h : Allocates false cs₁ us₁ cs₁' st st₁) :
    Allocates u cs₁ [] cs₁' st st₁ where
  ok := h.ok
  le := h.le
  grows := by
    obtain ⟨new, hnew, hid, hu⟩ := h.grows
    exact ⟨new, hnew, hid, fun s hs hs' => absurd (hu s hs hs') Bool.false_ne_true⟩
  renumbered := h.renumbered
  found := h.found
  known _ _ hx := absurd hx List.not_mem_nil

end Allocates

/-- The first step of a call. -/
theorem assignNodeId_allocates {st : AllocState D} (hst : st.Ok) (loc : SourceLoc)
    (name : String) {args : List (Expr D)} {nid : Int} (sid : Int)
    (hnid : nid = -1) (u : Bool) {args' : List (Expr D)}
    (hargs : args'.map Expr.strip = args.map Expr.strip) :
    Allocates u [⟨name, args, nid, sid⟩]
      (if isStatefulOp name then [(Expr.functionCall loc name args nid sid).strip] else [])
      [⟨name, args', (assignNodeId st loc name args nid sid u).1, sid⟩] st
      (assignNodeId st loc name args nid sid u).2 := by
  have hstrip : (⟨name, args', (assignNodeId st loc name args nid sid u).1, sid⟩ : Call D).strip
      = (Expr.functionCall loc name args nid sid).strip := by
    rw [Call.strip, Expr.strip, Expr.stripArgs_eq_map, hargs]
  by_cases hname : isStatefulOp name = true
  · have hren : ∀ n : Int, Renumbered (⟨name, args, nid, sid⟩ : Call D) ⟨name, args', n, sid⟩ :=
      fun n => ⟨rfl, rfl, hargs, fun h => absurd (hname.symm.trans h) Bool.true_eq_false.mp⟩
    rw [if_pos hname]
    rcases assignNodeId_cases hst loc args sid hname hnid u with
      ⟨s, hs, hu, hstrip', heq⟩ | ⟨hnew, heq⟩
    · rw [heq] at hstrip ⊢
      refine ⟨hst, Int.le_refl _, ⟨[], (List.append_nil _).symm, fun _ h => absurd h List.not_mem_nil,
        fun _ h => absurd h List.not_mem_nil⟩, .cons (hren _) .nil, fun c hc _ => ?_,
        fun _ x hx => ?_⟩
      · rw [List.mem_singleton.mp hc]
        exact ⟨s, hs, rfl, hstrip'.trans hstrip.symm⟩
      · rw [List.mem_singleton.mp hx]
        exact ⟨s, hs, hu, hstrip'⟩
    · rw [heq] at hstrip ⊢
      have hlast : ∀ s ∈ st.seen ++ [⟨.functionCall loc name args nid sid, st.nextId, u⟩],
          s ∈ st.seen ∨ s = ⟨.functionCall loc name args nid sid, st.nextId, u⟩ := fun s hs =>
        (List.mem_append.mp hs).imp_right List.mem_singleton.mp
      refine ⟨⟨?_, ?_, ?_⟩, ?_, ⟨_, rfl, fun s hs => ?_, fun s hs hu => ?_⟩,
        .cons (hren _) .nil, fun c hc _ => ?_, fun hu x hx => ?_⟩
      · have := hst.pos
        dsimp only
        omega
      · intro s hs
        dsimp only
        rcases hlast s hs with hs | rfl
        · have := hst.range s hs
          omega
        · have := hst.pos
          dsimp only
          omega
      · rw [List.map_append, List.map_singleton, List.nodup_append]
        refine ⟨hst.nodup, List.nodup_singleton _, fun n hn m hm => ?_⟩
        obtain ⟨s, hs, rfl⟩ := List.mem_map.mp hn
        rw [List.mem_singleton.mp hm]
        have := (hst.range s hs).2
        dsimp only
        omega
      · dsimp only
        omega
      · obtain rfl := List.mem_singleton.mp hs
        exact Int.le_refl _
      · rw [List.mem_singleton.mp hs] at hu
        exact hu
      · rw [List.mem_singleton.mp hc]
        exact ⟨_, List.mem_append_right _ List.mem_cons_self, rfl, hstrip.symm⟩
      · rw [List.mem_singleton.mp hx]
        exact ⟨_, List.mem_append_right _ List.mem_cons_self, hu, rfl⟩
  · have heq : assignNodeId st loc name args nid sid u = (nid, st) := by
      unfold assignNodeId
      rw [Bool.eq_false_iff.mpr hname, Bool.false_and, if_neg Bool.false_ne_true]
    rw [heq, if_neg hname]
    refine ⟨hst, Int.le_refl _, ⟨[], (List.append_nil _).symm, fun _ h => absurd h List.not_mem_nil,
      fun _ h => absurd h List.not_mem_nil⟩, .cons ⟨rfl, rfl, hargs, fun _ => rfl⟩ .nil,
      fun c hc hf => ?_, fun _ x hx => absurd hx List.not_mem_nil⟩
    rw [List.mem_singleton.mp hc] at hf
    exact absurd hf hname

omit [DecidableEq D] in
/-- No call has an id: every `node_id` is at its default. -/
def Unallocated (cs : List (Call D)) : Prop := ∀ c ∈ cs, c.nodeId = -1

/-- **What a walk does to the ids.** -/
theorem allocateWalk_allocates (e : Expr D) : ∀ (u : Bool) (st : AllocState D), st.Ok →
    Unallocated e.calls →
    Allocates u e.calls e.unconditional (allocateWalk e u st).1.calls st
      (allocateWalk e u st).2 := by
  induction e using Expr.induct with
  | numberLiteral | identifierExpr | parameterExpr => intro u st hst _; exact .refl hst
  | unaryOp loc k e ih => intro u st hst hun; exact ih u st hst hun
  | binaryOp loc k l r ihl ihr =>
    intro u st hst hun
    have hl := ihl u st hst fun c hc => hun c (List.mem_append_left _ hc)
    exact hl.append (ihr u _ hl.ok fun c hc => hun c (List.mem_append_right _ hc))
  | conditional loc c t e ihc iht ihe =>
    intro u st hst hun
    have hc := ihc u st hst fun c hc =>
      hun c (List.mem_append_left _ (List.mem_append_left _ hc))
    have ht := iht false _ hc.ok fun c hc =>
      hun c (List.mem_append_left _ (List.mem_append_right _ hc))
    have he := ihe false _ ht.ok fun c hc => hun c (List.mem_append_right _ hc)
    have h := (hc.append (ht.branch (u := u))).append (he.branch (u := u))
    rw [List.append_nil, List.append_nil] at h
    exact h
  | functionCall loc n args nid sid ih =>
    intro u st hst hun
    have hargs : ∀ (as : List (Expr D)), (∀ a ∈ as, a ∈ args) → ∀ st : AllocState D, st.Ok →
        Allocates u (Expr.callsArgs as) (Expr.unconditionalArgs as)
          (Expr.callsArgs (allocateWalkArgs as u st).1) st (allocateWalkArgs as u st).2 := by
      intro as
      induction as with
      | nil => intro _ st hst; exact .refl hst
      | cons a as iha =>
        intro hmem st hst
        have ha := ih a (hmem a List.mem_cons_self) u st hst fun c hc =>
          hun c (List.mem_cons_of_mem _ (Expr.mem_callsArgs.mpr ⟨a, hmem a List.mem_cons_self, hc⟩))
        exact ha.append (iha (fun b hb => hmem b (List.mem_cons_of_mem _ hb)) _ ha.ok)
    have hself := assignNodeId_allocates hst loc n sid
      (hun _ List.mem_cons_self) u (allocateWalkArgs_strip args u
        (assignNodeId st loc n args nid sid u).2)
    exact hself.append (hargs args (fun _ h => h) _ hself.ok)

/-- `allocateWalk_allocates` for an argument list. -/
theorem allocateWalkArgs_allocates (args : List (Expr D)) (u : Bool) (st : AllocState D)
    (hst : st.Ok) (hun : Unallocated (Expr.callsArgs args)) :
    Allocates u (Expr.callsArgs args) (Expr.unconditionalArgs args)
      (Expr.callsArgs (allocateWalkArgs args u st).1) st (allocateWalkArgs args u st).2 := by
  induction args generalizing st with
  | nil => exact .refl hst
  | cons a as ih =>
    have ha := allocateWalk_allocates a u st hst fun c hc => hun c (List.mem_append_left _ hc)
    exact ha.append (ih _ ha.ok fun c hc => hun c (List.mem_append_right _ hc))

/-- Calls that are known already leave no new unconditional entries. -/
theorem allocateWalk_of_known (e : Expr D) : ∀ (u : Bool) (st : AllocState D), st.Ok →
    Unallocated e.calls → (∀ x ∈ e.unconditional, Known st.seen x) →
    ∀ s ∈ (allocateWalk e u st).2.seen, s.unconditional = true → s ∈ st.seen := by
  induction e using Expr.induct with
  | numberLiteral | identifierExpr | parameterExpr => intro u st _ _ _ s hs _; exact hs
  | unaryOp loc k e ih => intro u st hst hun hk; exact ih u st hst hun hk
  | binaryOp loc k l r ihl ihr =>
    intro u st hst hun hk s hs hu
    have hunl : Unallocated l.calls := fun c hc => hun c (List.mem_append_left _ hc)
    have hl := allocateWalk_allocates l u st hst hunl
    have hs' := ihr u _ hl.ok (fun c hc => hun c (List.mem_append_right _ hc))
      (fun x hx => hl.known_mono (hk x (List.mem_append_right _ hx))) s hs hu
    exact ihl u st hst hunl (fun x hx => hk x (List.mem_append_left _ hx)) s hs' hu
  | conditional loc c t e ihc iht ihe =>
    intro u st hst hun hk s hs hu
    have hunc : Unallocated c.calls := fun d hd =>
      hun d (List.mem_append_left _ (List.mem_append_left _ hd))
    have hunt : Unallocated t.calls := fun d hd =>
      hun d (List.mem_append_left _ (List.mem_append_right _ hd))
    have hc := allocateWalk_allocates c u st hst hunc
    have ht := allocateWalk_allocates t false _ hc.ok hunt
    have he := allocateWalk_allocates e false _ ht.ok fun d hd =>
      hun d (List.mem_append_right _ hd)
    -- nothing found in a branch is unconditional
    have hnone : ∀ {cs us cs'} {st st' : AllocState D}, Allocates false cs us cs' st st' →
        ∀ s ∈ st'.seen, s.unconditional = true → s ∈ st.seen := by
      intro cs us cs' st st' h s hs hu
      obtain ⟨new, hnew, _, hcond⟩ := h.grows
      rw [hnew] at hs
      exact (List.mem_append.mp hs).elim id fun hs => absurd (hcond s hs hu) Bool.false_ne_true
    exact ihc u st hst hunc hk s (hnone ht s (hnone he s hs hu) hu) hu
  | functionCall loc n args nid sid ih =>
    intro u st hst hun hk s hs hu
    have hargs : ∀ (as : List (Expr D)), (∀ a ∈ as, a ∈ args) → ∀ st : AllocState D, st.Ok →
        (∀ x ∈ Expr.unconditionalArgs as, Known st.seen x) →
        ∀ s ∈ (allocateWalkArgs as u st).2.seen, s.unconditional = true → s ∈ st.seen := by
      intro as
      induction as with
      | nil => intro _ st _ _ s hs _; exact hs
      | cons a as iha =>
        intro hmem st hst hk s hs hu
        have huna : Unallocated a.calls := fun c hc =>
          hun c (List.mem_cons_of_mem _ (Expr.mem_callsArgs.mpr ⟨a, hmem a List.mem_cons_self, hc⟩))
        have ha := allocateWalk_allocates a u st hst huna
        have hs' := iha (fun b hb => hmem b (List.mem_cons_of_mem _ hb)) _ ha.ok
          (fun x hx => ha.known_mono (hk x (List.mem_append_right _ hx))) s hs hu
        exact ih a (hmem a List.mem_cons_self) u st hst huna
          (fun x hx => hk x (List.mem_append_left _ hx)) s hs' hu
    have hself := assignNodeId_allocates hst loc n sid
      (hun _ List.mem_cons_self) u (allocateWalkArgs_strip args u
        (assignNodeId st loc n args nid sid u).2)
    have hs' := hargs args (fun _ h => h) _ hself.ok
      (fun x hx => hself.known_mono (hk x (List.mem_append_right _ hx))) s hs hu
    by_cases hname : isStatefulOp n = true
    · have hknown := hk (Expr.functionCall loc n args nid sid).strip
        (List.mem_append_left _ (by rw [if_pos hname]; exact List.mem_cons_self))
      rcases assignNodeId_cases hst loc args sid hname
          (hun _ List.mem_cons_self) u with ⟨_, _, _, _, heq⟩ | ⟨hnew, _⟩
      · rw [heq] at hs'
        exact hs'
      · exact absurd hknown hnew
    · unfold assignNodeId at hs'
      rw [Bool.eq_false_iff.mpr hname, Bool.false_and, if_neg Bool.false_ne_true] at hs'
      exact hs'

/-- `allocateWalk_of_known` for an argument list. -/
theorem allocateWalkArgs_of_known (args : List (Expr D)) (u : Bool) (st : AllocState D)
    (hst : st.Ok) (hun : Unallocated (Expr.callsArgs args))
    (hk : ∀ x ∈ Expr.unconditionalArgs args, Known st.seen x) :
    ∀ s ∈ (allocateWalkArgs args u st).2.seen, s.unconditional = true → s ∈ st.seen := by
  induction args generalizing st with
  | nil => intro s hs _; exact hs
  | cons a as ih =>
    intro s hs hu
    have huna : Unallocated a.calls := fun c hc => hun c (List.mem_append_left _ hc)
    have ha := allocateWalk_allocates a u st hst huna
    have hs' := ih _ ha.ok (fun c hc => hun c (List.mem_append_right _ hc))
      (fun x hx => ha.known_mono (hk x (List.mem_append_right _ hx))) s hs hu
    exact allocateWalk_of_known a u st hst huna (fun x hx => hk x (List.mem_append_left _ hx))
      s hs' hu

/-! ## Allocation and schedules -/

variable [Fp D] (env : ScheduleEnv D)

omit [DecidableEq D] [Fp D] in
/-- A remembered call has been stepped, and everything unconditional in it is
remembered. -/
def Complete (δ : Dict D) (seen : List (SeenStateful D)) (s : SeenStateful D) : Prop :=
  δ s.nodeId ≠ none ∧ ∀ x ∈ s.node.unconditional, Known seen x

omit [DecidableEq D] [Fp D] in
theorem Complete.mono {δ δ' : Dict D} {seen seen' : List (SeenStateful D)} {s : SeenStateful D}
    (h : Complete δ seen s) (hδ : δ.Le δ') (hseen : ∀ x, Known seen x → Known seen' x) :
    Complete δ' seen' s := by
  refine ⟨?_, fun x hx => hseen x (h.2 x hx)⟩
  obtain ⟨p, hp⟩ := Option.ne_none_iff_exists'.mp h.1
  rw [hδ _ _ hp]
  exact Option.some_ne_none p

omit [DecidableEq D] [Fp D] in
/-- The dictionary of a schedule and the memory of the walk at the same point of the
body. Calls that contain the point are remembered but not in the dictionary; these are
larger than `bound`. -/
structure Tracks (δ : Dict D) (bound : Nat) (st : AllocState D) : Prop where
  /-- ids of the dictionary were handed out -/
  range : ∀ {n p}, δ n = some p → 0 < n ∧ n < st.nextId
  /-- small calls are complete -/
  complete : ∀ s ∈ st.seen, s.unconditional = true → s.node.size ≤ bound → Complete δ st.seen s

omit [DecidableEq D] [Fp D] in
theorem Tracks.le {δ : Dict D} {m n : Nat} {st : AllocState D} (h : Tracks δ n st) (hmn : m ≤ n) :
    Tracks δ m st :=
  ⟨h.range, fun s hs hu hsize => h.complete s hs hu (Nat.le_trans hsize hmn)⟩

/-- What the schedule of walked code looks like. -/
structure SitesOk (δ δ' : Dict D) (sites : List (Int × Site D)) (st st' : AllocState D) :
    Prop where
  /-- nothing leaves the dictionary -/
  mono : δ.Le δ'
  /-- ids of the dictionary were handed out -/
  range : ∀ {n p}, δ' n = some p → 0 < n ∧ n < st'.nextId
  /-- what was remembered during the walk is complete -/
  complete : ∀ s ∈ st'.seen, s.unconditional = true → s ∈ st.seen ∨ Complete δ' st'.seen s
  /-- no id has two sites -/
  nodup : (siteIds sites).Nodup
  /-- the sites are those of the new ids -/
  new : ∀ n ∈ siteIds sites, st.nextId ≤ n ∧ n < st'.nextId
  /-- ids inside a site are larger than its own -/
  ordered : ∀ {n S}, (n, S) ∈ sites →
    ∀ y ∈ (scheduleArgs env S.path S.args S.dict).sites, n < y.1

namespace SitesOk

variable {env} {δ δ₁ δ₂ : Dict D} {sites sites' : List (Int × Site D)} {st st₁ st₂ : AllocState D}

omit [DecidableEq D] in
theorem refl {bound : Nat} (h : Tracks δ bound st) : SitesOk env δ δ [] st st where
  mono := .refl δ
  range := h.range
  complete _ hs _ := .inl hs
  nodup := List.nodup_nil
  new _ hn := absurd hn List.not_mem_nil
  ordered hS := absurd hS List.not_mem_nil

omit [DecidableEq D] in
theorem append {u u' : Bool} {cs cs' ds ds' : List (Call D)} {us us' : List (Expr D)}
    (h : SitesOk env δ δ₁ sites st st₁) (h' : SitesOk env δ₁ δ₂ sites' st₁ st₂)
    (ha : Allocates u cs us cs' st st₁) (ha' : Allocates u' ds us' ds' st₁ st₂) :
    SitesOk env δ δ₂ (sites ++ sites') st st₂ where
  mono := h.mono.trans h'.mono
  range := h'.range
  complete s hs hu := by
    rcases h'.complete s hs hu with hs | hc
    · exact (h.complete s hs hu).imp_right fun hc => hc.mono h'.mono fun x => ha'.known_mono
    · exact .inr hc
  nodup := by
    rw [siteIds, List.map_append, List.nodup_append]
    refine ⟨h.nodup, h'.nodup, fun n hn m hm => ?_⟩
    have := (h.new n hn).2
    have := (h'.new m hm).1
    omega
  new n hn := by
    rw [siteIds, List.map_append] at hn
    have := ha.le
    have := ha'.le
    rcases List.mem_append.mp hn with hn | hn
    · have := h.new n hn
      omega
    · have := h'.new n hn
      omega
  ordered hS := (List.mem_append.mp hS).elim h.ordered h'.ordered

omit [DecidableEq D] in
/-- The state of affairs after walked code. -/
theorem tracks {bound : Nat} {u : Bool} {cs cs' : List (Call D)} {us : List (Expr D)}
    (h : SitesOk env δ δ₁ sites st st₁) (ha : Allocates u cs us cs' st st₁)
    (ht : Tracks δ bound st) : Tracks δ₁ bound st₁ where
  range := h.range
  complete s hs hu hsize := (h.complete s hs hu).elim
    (fun hs => (ht.complete s hs hu hsize).mono h.mono fun _ => ha.known_mono) id

end SitesOk

/-- **A walked call**, given what holds of its arguments. -/
theorem walk_call_scheduled {loc : SourceLoc} {name : String} {args args' : List (Expr D)}
    {nid sid : Int} {u : Bool} {path : Path D} {δ : Dict D} {st st' : AllocState D}
    (hst : st.Ok) (hnid : nid = -1) (hu : path.isEmpty = u)
    (ht : Tracks δ (Expr.functionCall loc name args nid sid).size st)
    (ha : Allocates u (Expr.callsArgs args) (Expr.unconditionalArgs args) (Expr.callsArgs args')
      (assignNodeId st loc name args nid sid u).2 st')
    (hknown : (∀ x ∈ Expr.unconditionalArgs args,
        Known (assignNodeId st loc name args nid sid u).2.seen x) →
      ∀ s ∈ st'.seen, s.unconditional = true →
        s ∈ (assignNodeId st loc name args nid sid u).2.seen)
    (hargs : Tracks δ (Expr.sizeArgs args) (assignNodeId st loc name args nid sid u).2 →
      SitesOk env δ (scheduleArgs env path args' δ).dict (scheduleArgs env path args' δ).sites
        (assignNodeId st loc name args nid sid u).2 st') :
    SitesOk env δ
      (schedule env path (.functionCall loc name args'
        (assignNodeId st loc name args nid sid u).1 sid) δ).dict
      (schedule env path (.functionCall loc name args'
        (assignNodeId st loc name args nid sid u).1 sid) δ).sites st st' := by
  by_cases hname : isStatefulOp name = true
  · rcases assignNodeId_cases hst loc args sid hname hnid u with
      ⟨s, hs, hsu, hstrip, heq⟩ | ⟨hnew, heq⟩
    · -- an alias: the call it stands for is complete, and so are the calls inside
      rw [heq] at ha hknown ⊢
      have hsize : s.node.size = (Expr.functionCall loc name args nid sid).size := by
        rw [← s.node.size_strip, hstrip, Expr.size_strip]
      obtain ⟨hδ, hinner⟩ := ht.complete s hs hsu (Nat.le_of_eq hsize)
      obtain ⟨p, hp⟩ := Option.ne_none_iff_exists'.mp hδ
      rw [schedule_alias env hp]
      have hall : ∀ x ∈ Expr.unconditionalArgs args, Known st.seen x := by
        intro x hx
        refine hinner x ?_
        rw [← s.node.unconditional_strip, hstrip, Expr.unconditional_strip, Expr.unconditional]
        exact List.mem_append_right _ hx
      refine ⟨.refl δ, fun hn => ?_, fun s' hs' hu' => .inl (hknown hall s' hs' hu'),
        List.nodup_nil, fun _ hn => absurd hn List.not_mem_nil,
        fun hS => absurd hS List.not_mem_nil⟩
      have := ht.range hn
      have := ha.le
      dsimp only at this
      omega
    · -- a fresh id
      rw [heq] at ha hargs ⊢
      dsimp only at ha hargs ⊢
      have hpos := hst.pos
      have hle := ha.le
      dsimp only at hle
      have hfresh : δ st.nextId = none := by
        rcases hδ : δ st.nextId with _ | p
        · rfl
        · have := (ht.range hδ).2
          omega
      have hr := hargs
        { range := fun hn => by
            have := ht.range hn
            dsimp only
            omega
          complete := fun s hs hsu hsize => by
            rcases List.mem_append.mp hs with hs | hs
            · refine (ht.complete s hs hsu (Nat.le_trans hsize (Nat.le_succ _))).mono (.refl δ)
                fun x hx => hx.append _
            · rw [List.mem_singleton.mp hs, Expr.size] at hsize
              omega }
      have hx : Extends env path (Expr.callsArgs args') δ (scheduleArgs env path args' δ).dict
          (scheduleArgs env path args' δ).sites := scheduleArgs_extends env path args' δ hr.nodup
      have hnid' : st.nextId ∉ siteIds (scheduleArgs env path args' δ).sites := fun hn => by
        have := (hr.new _ hn).1
        dsimp only at this
        omega
      have hcall := hx.scheduleCall name sid hfresh hnid' hr.nodup
      rw [schedule_fresh env hfresh]
      refine ⟨hcall.mono, fun {n p} hn => ?_, fun s hs hsu => ?_, ?_, fun n hn => ?_,
        fun {n S} hS y hy => ?_⟩
      · -- the dictionary: the id itself, or what the arguments left
        unfold scheduleCall at hn
        rw [if_pos hname] at hn
        dsimp only at hn
        split at hn
        · by_cases hn' : n = st.nextId
          · omega
          · rw [Dict.insert_ne _ _ hn'] at hn
            exact hr.range hn
        · exact hr.range hn
      · -- the memory: the call itself, or what the arguments left
        unfold scheduleCall
        rw [if_pos hname]
        dsimp only
        have hins : (scheduleArgs env path args' δ).dict.Le (if path.isEmpty = true then
            (scheduleArgs env path args' δ).dict.insert st.nextId
              (callPlan (env.shape name args') (scheduleArgs env path args' δ).plans)
            else (scheduleArgs env path args' δ).dict) := by
          split
          · refine (Dict.Le.refl _).insert ?_ _
            rcases hd : (scheduleArgs env path args' δ).dict st.nextId with _ | q
            · rfl
            · rcases hx.source hd with hd | ⟨S, hS, _⟩
              · rw [hfresh] at hd; cases hd
              · exact absurd (List.mem_map_of_mem hS) hnid'
          · exact .refl _
        rcases hr.complete s hs hsu with hs' | hc
        · rcases List.mem_append.mp hs' with hs' | hs'
          · exact .inl hs'
          · rw [List.mem_singleton.mp hs'] at hsu ⊢
            have hut : u = true := hsu
            refine .inr ⟨?_, fun x hx => ?_⟩
            · rw [if_pos (hu.trans hut), Dict.insert_self]
              exact Option.some_ne_none _
            · have hself : (⟨.functionCall loc name args nid sid, st.nextId, u⟩ :
                  SeenStateful D) ∈ st'.seen :=
                ha.seen_subset (List.mem_append_right _ List.mem_cons_self)
              rw [Expr.unconditional, if_pos hname] at hx
              rcases List.mem_append.mp hx with hx | hx
              · rw [List.mem_singleton.mp hx]
                exact ⟨_, hself, hut, rfl⟩
              · exact ha.known hut x hx
        · exact .inr (hc.mono hins fun _ h => h)
      · unfold scheduleCall
        rw [if_pos hname, siteIds, List.map_cons, List.nodup_cons]
        exact ⟨hnid', hr.nodup⟩
      · unfold scheduleCall at hn
        rw [if_pos hname, siteIds, List.map_cons] at hn
        rcases List.mem_cons.mp hn with rfl | hn
        · dsimp only
          omega
        · have := hr.new n hn
          dsimp only at this
          omega
      · unfold scheduleCall at hS
        rw [if_pos hname] at hS
        rcases List.mem_cons.mp hS with hS | hS
        · obtain ⟨rfl, rfl⟩ := Prod.mk.inj hS
          dsimp only at hy
          rw [scheduleArgs_outline] at hy
          have := (hr.new y.1 (List.mem_map_of_mem hy)).1
          dsimp only at this
          omega
        · exact hr.ordered hS y hy
  · -- a call without state
    have heq : assignNodeId st loc name args nid sid u = (nid, st) := by
      unfold assignNodeId
      rw [Bool.eq_false_iff.mpr hname, Bool.false_and, if_neg Bool.false_ne_true]
    rw [heq] at hargs ⊢
    dsimp only at hargs ⊢
    have hfresh : δ nid = none := by
      rcases hδ : δ nid with _ | p
      · rfl
      · have := (ht.range hδ).1
        omega
    have hr := hargs (ht.le (Nat.le_succ _))
    rw [schedule_fresh env hfresh]
    unfold scheduleCall
    rw [if_neg hname]
    exact hr

/-- **The schedule of a walked body.** -/
theorem walk_scheduled (e : Expr D) : ∀ (u : Bool) (st : AllocState D) (path : Path D) (δ : Dict D),
    st.Ok → Unallocated e.calls → path.isEmpty = u → Tracks δ e.size st →
    SitesOk env δ (schedule env path (allocateWalk e u st).1 δ).dict
      (schedule env path (allocateWalk e u st).1 δ).sites st (allocateWalk e u st).2 := by
  induction e using Expr.induct with
  | numberLiteral | identifierExpr | parameterExpr => intro u st path δ _ _ _ ht; exact .refl ht
  | unaryOp loc k e ih =>
    intro u st path δ hst hun hu ht
    exact ih u st path δ hst hun hu (ht.le (Nat.le_succ _))
  | binaryOp loc k l r ihl ihr =>
    intro u st path δ hst hun hu ht
    rw [Expr.size] at ht
    have hunl : Unallocated l.calls := fun c hc => hun c (List.mem_append_left _ hc)
    have hunr : Unallocated r.calls := fun c hc => hun c (List.mem_append_right _ hc)
    have hal := allocateWalk_allocates l u st hst hunl
    have hl := ihl u st path δ hst hunl hu (ht.le (by omega))
    have har := allocateWalk_allocates r u _ hal.ok hunr
    have hr := ihr u _ path _ hal.ok hunr hu ((hl.tracks hal ht).le (by omega))
    exact hl.append hr hal har
  | conditional loc c t e ihc iht ihe =>
    intro u st path δ hst hun hu ht
    rw [Expr.size] at ht
    have hunc : Unallocated c.calls := fun d hd =>
      hun d (List.mem_append_left _ (List.mem_append_left _ hd))
    have hunt : Unallocated t.calls := fun d hd =>
      hun d (List.mem_append_left _ (List.mem_append_right _ hd))
    have hune : Unallocated e.calls := fun d hd => hun d (List.mem_append_right _ hd)
    have hac := allocateWalk_allocates c u st hst hunc
    have hc := ihc u st path δ hst hunc hu (ht.le (by omega))
    have htc := hc.tracks hac ht
    have hat := allocateWalk_allocates t false _ hac.ok hunt
    set rc := schedule env path (allocateWalk c u st).1 δ
    have ht' := iht false _ ((rc.plan, true) :: path) _ hac.ok hunt rfl (htc.le (by omega))
    have htt := ht'.tracks hat htc
    have hae := allocateWalk_allocates e false _ hat.ok hune
    have he' := ihe false _ ((rc.plan, false) :: path) _ hat.ok hune rfl (htt.le (by omega))
    exact (hc.append ht' hac hat).append he'
      (hac.append (hat.branch (u := u))) hae
  | functionCall loc n args nid sid ih =>
    intro u st path δ hst hun hu ht
    have hself := assignNodeId_allocates hst loc n sid
      (hun _ List.mem_cons_self) u (allocateWalkArgs_strip args u
        (assignNodeId st loc n args nid sid u).2)
    have hunargs : Unallocated (Expr.callsArgs args) := fun c hc =>
      hun c (List.mem_cons_of_mem _ hc)
    have hargs : ∀ (as : List (Expr D)), (∀ a ∈ as, a ∈ args) → Unallocated (Expr.callsArgs as) →
        ∀ (st : AllocState D) (δ : Dict D), st.Ok → Tracks δ (Expr.sizeArgs as) st →
        SitesOk env δ (scheduleArgs env path (allocateWalkArgs as u st).1 δ).dict
          (scheduleArgs env path (allocateWalkArgs as u st).1 δ).sites st
          (allocateWalkArgs as u st).2 := by
      intro as
      induction as with
      | nil => intro _ _ st δ _ ht; exact .refl ht
      | cons a as iha =>
        intro hmem hun st δ hst ht
        rw [Expr.sizeArgs] at ht
        have huna : Unallocated a.calls := fun c hc => hun c (List.mem_append_left _ hc)
        have hunas : Unallocated (Expr.callsArgs as) := fun c hc =>
          hun c (List.mem_append_right _ hc)
        have haa := allocateWalk_allocates a u st hst huna
        have ha := ih a (hmem a List.mem_cons_self) u st path δ hst huna hu (ht.le (by omega))
        exact ha.append (iha (fun b hb => hmem b (List.mem_cons_of_mem _ hb)) hunas _ _ haa.ok
          ((ha.tracks haa ht).le (by omega))) haa (allocateWalkArgs_allocates as u _ haa.ok hunas)
    refine walk_call_scheduled env hst (hun _ List.mem_cons_self) hu ht
      (allocateWalkArgs_allocates args u _ hself.ok hunargs)
      ?_ (hargs args (fun _ h => h) hunargs _ δ hself.ok)
    exact allocateWalkArgs_of_known args u _ hself.ok hunargs

end Walk

end JitSignalEngine
