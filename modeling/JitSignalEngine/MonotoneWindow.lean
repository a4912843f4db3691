import Mathlib.Data.List.Basic
import Mathlib.Data.List.DropRight
import Mathlib.Data.List.Nodup
import Mathlib.Data.List.Range
import Mathlib.Data.List.Perm.Subperm

/-!
# Best of a sliding window

The list behind the monotone deque. Of the last `p` values of a stream it keeps those no later
value is at least as good as, with their positions. A new value drops the back entries it is at
least as good as, and the front drops out when it gets too old.

* `Comparable` — what the comparison needs: it is total and transitive on the stream.
* `Survivors` — the invariant.
* `Survivors.slide` — one value more keeps it.
* `Survivors.front` — the front is the best value of the window, the latest of equals.
* `Survivors.length_le` — never more than `p` entries.
* `SurvivorsSince` — the invariant on a stream with values that compare to nothing. Such a value
  stops the dropping at the back, so the entries behind the last one are those of a stream that
  starts after it. `SurvivorsSince.slide` and `SurvivorsSince.interrupt` keep it.
-/

namespace JitSignalEngine

variable {α : Type}

/-- `better x y`: `x` is at least as good as `y`. No two values of the stream are incomparable. -/
structure Comparable (better : α → α → Bool) (xs : List α) : Prop where
  total : ∀ x ∈ xs, ∀ y ∈ xs, better x y = true ∨ better y x = true
  trans : ∀ x ∈ xs, ∀ y ∈ xs, ∀ z ∈ xs, better x y = true → better y z = true → better x z = true

theorem Comparable.of_subset {better : α → α → Bool} {xs ys : List α} (h : Comparable better ys)
    (hsub : xs ⊆ ys) : Comparable better xs :=
  ⟨fun x hx y hy => h.total x (hsub hx) y (hsub hy),
    fun x hx y hy z hz => h.trans x (hsub hx) y (hsub hy) z (hsub hz)⟩

/-- Position `i` is among the last `p` of a stream of length `k`. -/
def InWindow (p k i : Nat) : Prop := i < k ∧ k ≤ i + p

/-- Position `i` holds a best value of the last `p`, and no later one does. -/
structure BestOfWindow (better : α → α → Bool) (xs : List α) (p i : Nat) : Prop where
  inWindow : InWindow p xs.length i
  best : ∀ j, InWindow p xs.length j → ∀ x ∈ xs[i]?, ∀ y ∈ xs[j]?, better x y = true
  latest : ∀ j, i < j → InWindow p xs.length j →
    ∀ x ∈ xs[i]?, ∀ y ∈ xs[j]?, better y x = false

/-- **The invariant.** The entries are positions in the window with their values, each one
strictly better than the next, and every value of the window has an entry, not before it, that
is at least as good. -/
structure Survivors (better : α → α → Bool) (xs : List α) (p : Nat) (es : List (Nat × α)) :
    Prop where
  value : ∀ e ∈ es, xs[e.1]? = some e.2
  recent : ∀ e ∈ es, xs.length ≤ e.1 + p
  chain : es.Pairwise fun e e' => e.1 < e'.1 ∧ better e'.2 e.2 = false
  covers : ∀ i x, xs[i]? = some x → xs.length ≤ i + p → ∃ e ∈ es, i ≤ e.1 ∧ better e.2 x = true

/-- One value more, at position `k`. -/
def slideSurvivors (better : α → α → Bool) (p k : Nat) (x : α) (es : List (Nat × α)) :
    List (Nat × α) :=
  (es.rdropWhile (fun e => better x e.2) ++ [(k, x)]).dropWhile fun e => decide (p < k + 1 - e.1)

variable {better : α → α → Bool} {xs : List α} {p : Nat} {es : List (Nat × α)}

/-! ## Dropping from the ends is filtering -/

/-- On a list along which `q` never comes after `¬ q`, dropping from the front drops all `q`. -/
theorem dropWhile_eq_filter {β : Type} {q : β → Bool} {l : List β}
    (h : l.Pairwise fun a b => q b = true → q a = true) :
    l.dropWhile q = l.filter fun a => !q a := by
  induction l with
  | nil => rfl
  | cons a l ih =>
    obtain ⟨ha, hl⟩ := List.pairwise_cons.1 h
    cases hq : q a with
    | true => rw [List.dropWhile_cons_of_pos hq, List.filter_cons_of_neg (by simp [hq]), ih hl]
    | false =>
      have hall : ∀ b ∈ a :: l, (!q b) = true := by
        intro b hb
        rcases List.mem_cons.1 hb with rfl | hb
        · simp [hq]
        · have := ha b hb
          simpa [hq] using this
      rw [List.dropWhile_cons_of_neg (by simp [hq]), List.filter_eq_self.2 hall]

/-- The same from the back. -/
theorem rdropWhile_eq_filter {β : Type} {q : β → Bool} {l : List β}
    (h : l.Pairwise fun a b => q a = true → q b = true) :
    l.rdropWhile q = l.filter fun a => !q a := by
  rw [List.rdropWhile, dropWhile_eq_filter (List.pairwise_reverse.2 h), List.filter_reverse,
    List.reverse_reverse]

/-- Dropping from the front of a list in two parts. -/
theorem dropWhile_append_eq {β : Type} {q : β → Bool} {l l' : List β}
    (h : (l ++ l').Pairwise fun a b => q b = true → q a = true) :
    (l ++ l').dropWhile q = l.dropWhile q ++ l'.dropWhile q := by
  obtain ⟨hl, hl', -⟩ := List.pairwise_append.1 h
  rw [dropWhile_eq_filter h, dropWhile_eq_filter hl, dropWhile_eq_filter hl', List.filter_append]

/-- Dropping from the back stops at a part it does not drop from. -/
theorem rdropWhile_append_eq {β : Type} {q : β → Bool} {l : List β} (h : l.rdropWhile q = l)
    (l' : List β) : (l ++ l').rdropWhile q = l ++ l'.rdropWhile q := by
  induction l' using List.reverseRecOn with
  | nil => simpa using h
  | append_singleton l' b ih =>
    rw [← List.append_assoc]
    by_cases hq : q b = true
    · rw [List.rdropWhile_concat_pos q _ b hq, List.rdropWhile_concat_pos q _ b hq, ih]
    · rw [List.rdropWhile_concat_neg q _ b hq, List.rdropWhile_concat_neg q _ b hq,
        List.append_assoc]

theorem rdropWhile_map_eq {β γ : Type} (q : γ → Bool) (f : β → γ) (l : List β) :
    (l.map f).rdropWhile q = (l.rdropWhile fun b => q (f b)).map f := by
  rw [List.rdropWhile, ← List.map_reverse, List.dropWhile_map, ← List.map_reverse, List.rdropWhile]
  rfl

/-- Entries with increasing positions among the last `p` of a stream are at most `p`. -/
theorem length_le_of_recent {k : Nat} (hlt : ∀ e ∈ es, e.1 < k) (hrecent : ∀ e ∈ es, k ≤ e.1 + p)
    (hordered : es.Pairwise fun e e' => e.1 < e'.1) : es.length ≤ p := by
  have hnodup : (es.map Prod.fst).Nodup := by
    rw [List.Nodup, List.pairwise_map]
    exact hordered.imp fun h => h.ne
  have hsub : es.map Prod.fst ⊆ List.range' (k - p) p := by
    intro i hi
    obtain ⟨e, he, rfl⟩ := List.mem_map.1 hi
    have := hlt e he
    have := hrecent e he
    exact List.mem_range'_1.2 (by omega)
  simpa using (hnodup.subperm hsub).length_le

/-! ## The invariant -/

theorem Survivors.mem (h : Survivors better xs p es) {e : Nat × α} (he : e ∈ es) : e.2 ∈ xs :=
  List.mem_of_getElem? (h.value e he)

theorem Survivors.lt_length (h : Survivors better xs p es) {e : Nat × α} (he : e ∈ es) :
    e.1 < xs.length := (List.getElem?_eq_some_iff.1 (h.value e he)).1

/-- No more entries than positions in the window. -/
theorem Survivors.length_le (h : Survivors better xs p es) : es.length ≤ p :=
  length_le_of_recent (fun _ he => h.lt_length he) h.recent (h.chain.imp fun hlt => hlt.1)

theorem survivors_nil (better : α → α → Bool) (p : Nat) : Survivors better [] p [] :=
  ⟨by simp, by simp, .nil, by simp⟩

/-- Under the invariant both ends drop what a filter drops. -/
theorem Survivors.slide_eq (h : Survivors better xs p es) {x : α}
    (hx : Comparable better (xs ++ [x])) :
    slideSurvivors better p xs.length x es =
      ((es.filter fun e => !better x e.2) ++ [(xs.length, x)]).filter
        fun e => !decide (p < xs.length + 1 - e.1) := by
  have hback : es.rdropWhile (fun e => better x e.2) = es.filter fun e => !better x e.2 := by
    refine rdropWhile_eq_filter (h.chain.imp_of_mem fun {e e'} he he' hlt hxe => ?_)
    have hmem := List.mem_append_left [x] (h.mem he)
    have hmem' := List.mem_append_left [x] (h.mem he')
    have hee' := (hx.total _ hmem _ hmem').resolve_right (by simp [hlt.2])
    exact hx.trans x (by simp) _ hmem _ hmem' hxe hee'
  rw [slideSurvivors, hback]
  refine dropWhile_eq_filter (List.pairwise_append.2 ⟨?_, List.pairwise_singleton _ _, ?_⟩)
  · refine (h.chain.filter _).imp fun hlt hold => ?_
    simp only [decide_eq_true_eq] at hold ⊢
    have := hlt.1
    omega
  · intro e he e' he' hold
    obtain rfl := List.mem_singleton.1 he'
    have := h.lt_length (List.mem_filter.1 he).1
    simp only [decide_eq_true_eq] at hold ⊢
    omega

/-- **One value more.** -/
theorem Survivors.slide (h : Survivors better xs p es) (hp : 0 < p) {x : α}
    (hx : Comparable better (xs ++ [x])) :
    Survivors better (xs ++ [x]) p (slideSurvivors better p xs.length x es) := by
  rw [h.slide_eq hx]
  have hmem : ∀ e, e ∈ ((es.filter fun e => !better x e.2) ++ [(xs.length, x)]).filter
      (fun e => !decide (p < xs.length + 1 - e.1)) ↔
        (e ∈ es ∧ better x e.2 = false ∨ e = (xs.length, x)) ∧ xs.length + 1 ≤ e.1 + p := by
    intro e
    simp only [List.mem_filter, List.mem_append, List.mem_singleton, Bool.not_eq_true',
      decide_eq_false_iff_not]
    constructor <;> rintro ⟨hor, hrecent⟩ <;> exact ⟨hor, by omega⟩
  constructor
  case value =>
    intro e he
    rcases ((hmem e).1 he).1 with ⟨hes, -⟩ | rfl
    · rw [List.getElem?_append_left (h.lt_length hes), h.value e hes]
    · simp
  case recent =>
    intro e he
    simpa using ((hmem e).1 he).2
  case chain =>
    refine List.Pairwise.filter _ (List.pairwise_append.2
      ⟨h.chain.filter _, List.pairwise_singleton _ _, ?_⟩)
    intro e he e' he'
    obtain rfl := List.mem_singleton.1 he'
    obtain ⟨hes, hxe⟩ := List.mem_filter.1 he
    exact ⟨h.lt_length hes, by simpa using hxe⟩
  case covers =>
    intro i y hi hrecent
    rw [List.length_append, List.length_singleton] at hrecent
    have hself : better x x = true := by
      have := hx.total x (by simp) x (by simp)
      simpa using this
    have hlast := (hmem (xs.length, x)).2 ⟨.inr rfl, by simp; omega⟩
    rcases Nat.lt_or_ge i xs.length with hlt | hge
    · rw [List.getElem?_append_left hlt] at hi
      obtain ⟨e, he, hie, hey⟩ := h.covers i y hi (by omega)
      cases hxe : better x e.2 with
      | false => exact ⟨e, (hmem e).2 ⟨.inl ⟨he, hxe⟩, by omega⟩, hie, hey⟩
      | true =>
        refine ⟨_, hlast, hlt.le, ?_⟩
        exact hx.trans x (by simp) _ (List.mem_append_left _ (h.mem he)) y
          (List.mem_append_left _ (List.mem_of_getElem? hi)) hxe hey
    · have hilt := (List.getElem?_eq_some_iff.1 hi).1
      simp only [List.length_append, List.length_singleton] at hilt
      obtain rfl : i = xs.length := by omega
      have hxy : x = y := by simpa using hi
      exact ⟨_, hlast, le_rfl, hxy ▸ hself⟩

/-- **The front.** -/
theorem Survivors.front (h : Survivors better xs p es) (hx : Comparable better xs) (hp : 0 < p)
    (hne : xs ≠ []) : ∃ e rest, es = e :: rest ∧ xs[e.1]? = some e.2 ∧
      BestOfWindow better xs p e.1 := by
  have hpos := List.length_pos_iff.2 hne
  obtain ⟨last, hlast, -, -⟩ := h.covers (xs.length - 1) _
    (List.getElem?_eq_getElem (by omega)) (by omega)
  obtain ⟨e, rest, rfl⟩ := List.exists_cons_of_ne_nil (List.ne_nil_of_mem hlast)
  have he : e ∈ e :: rest := List.mem_cons_self
  obtain ⟨hchain, -⟩ := List.pairwise_cons.1 h.chain
  have hfront : ∀ e' ∈ e :: rest, better e.2 e'.2 = true := by
    intro e' he'
    rcases List.mem_cons.1 he' with rfl | hrest
    · simpa using hx.total e'.2 (h.mem he) e'.2 (h.mem he)
    · exact (hx.total _ (h.mem he) _ (h.mem he')).resolve_right (by simp [(hchain e' hrest).2])
  refine ⟨e, rest, rfl, h.value e he, ⟨h.lt_length he, h.recent e he⟩, ?_, ?_⟩
  · intro j hj x hxj y hy
    rw [h.value e he] at hxj
    obtain rfl := Option.some.inj hxj
    obtain ⟨e', he', -, hy'⟩ := h.covers j y hy hj.2
    exact hx.trans _ (h.mem he) _ (h.mem he') y (List.mem_of_getElem? hy) (hfront e' he') hy'
  · intro j hlt hj x hxj y hy
    rw [h.value e he] at hxj
    obtain rfl := Option.some.inj hxj
    obtain ⟨e', he', hje', hy'⟩ := h.covers j y hy hj.2
    rcases List.mem_cons.1 he' with rfl | hrest
    · omega
    · rw [Bool.eq_false_iff]
      intro hyx
      have := hx.trans _ (h.mem he') y (List.mem_of_getElem? hy) _ (h.mem he) hy' hyx
      rw [(hchain e' hrest).2] at this
      exact Bool.noConfusion this

/-! ## Values that compare to nothing -/

/-- An entry of a stream that starts at position `k`. -/
def shiftEntry (k : Nat) (e : Nat × α) : Nat × α := (k + e.1, e.2)

/-- **The invariant behind position `k`**, before which the stream has a value that compares to
nothing, if it has one. Older entries are stuck in front of the survivors of what came since. -/
structure SurvivorsSince (better : α → α → Bool) (xs : List α) (p k : Nat) (old : List (Nat × α))
    (es : List (Nat × α)) : Prop where
  le_length : k ≤ xs.length
  older : ∀ e ∈ old, e.1 < k
  recent : ∀ e ∈ old, xs.length ≤ e.1 + p
  ordered : old.Pairwise fun e e' => e.1 < e'.1
  /-- nothing is better than the last of them -/
  stuck : ∀ hne : old ≠ [], ∀ x, better x (old.getLast hne).2 = false
  since : Survivors better (xs.drop k) p es

variable {k : Nat} {old : List (Nat × α)}

namespace SurvivorsSince

theorem nil (better : α → α → Bool) (p : Nat) : SurvivorsSince better [] p 0 [] [] :=
  ⟨le_rfl, by simp, by simp, .nil, fun hne => absurd rfl hne, survivors_nil better p⟩

/-- All positions are increasing. -/
theorem pairwise (h : SurvivorsSince better xs p k old es) :
    (old ++ es.map (shiftEntry k)).Pairwise fun e e' => e.1 < e'.1 := by
  refine List.pairwise_append.2 ⟨h.ordered, ?_, fun e he e' he' => ?_⟩
  · rw [List.pairwise_map]
    exact h.since.chain.imp fun hlt => Nat.add_lt_add_left hlt.1 k
  · obtain ⟨d, -, rfl⟩ := List.mem_map.1 he'
    exact (h.older e he).trans_le (Nat.le_add_right k d.1)

theorem bounds (h : SurvivorsSince better xs p k old es) :
    ∀ e ∈ old ++ es.map (shiftEntry k), e.1 < xs.length ∧ xs.length ≤ e.1 + p := by
  intro e he
  have hk := h.le_length
  rcases List.mem_append.1 he with hold | hnew
  · exact ⟨(h.older e hold).trans_le hk, h.recent e hold⟩
  · obtain ⟨d, hd, rfl⟩ := List.mem_map.1 hnew
    have hlt := h.since.lt_length hd
    have hrecent := h.since.recent d hd
    rw [List.length_drop] at hlt hrecent
    simp only [shiftEntry]
    omega

theorem length_le (h : SurvivorsSince better xs p k old es) :
    (old ++ es.map (shiftEntry k)).length ≤ p :=
  length_le_of_recent (fun e he => (h.bounds e he).1) (fun e he => (h.bounds e he).2) h.pairwise

/-- What is left of the older entries after one value more. -/
def expire (p k : Nat) (old : List (Nat × α)) : List (Nat × α) :=
  old.dropWhile fun e => decide (p < k + 1 - e.1)

/-- The back loop stops at the older entries, and the front loop gets to the others when none of
these is left. -/
theorem slide_eq (h : SurvivorsSince better xs p k old es) (x : α) :
    slideSurvivors better p xs.length x (old ++ es.map (shiftEntry k)) =
      expire p xs.length old ++
        (slideSurvivors better p (xs.drop k).length x es).map (shiftEntry k) := by
  have hk := h.le_length
  have hstuck : old.rdropWhile (fun e => better x e.2) = old :=
    List.rdropWhile_eq_self_iff.2 fun hne => by simp [h.stuck hne x]
  have hback : (es.map (shiftEntry k)).rdropWhile (fun e => better x e.2) =
      (es.rdropWhile fun e => better x e.2).map (shiftEntry k) := rdropWhile_map_eq _ _ es
  have hlast : (xs.length, x) = shiftEntry k ((xs.drop k).length, x) := by
    rw [shiftEntry, List.length_drop, Nat.add_sub_cancel' hk]
  have hage : (fun e : Nat × α => decide (p < xs.length + 1 - e.1)) ∘ shiftEntry k =
      fun e => decide (p < (xs.drop k).length + 1 - e.1) := by
    funext e
    rw [Function.comp_apply, decide_eq_decide, shiftEntry, List.length_drop]
    omega
  have hpairwise : (old ++ ((es.rdropWhile fun e => better x e.2) ++
      [((xs.drop k).length, x)]).map (shiftEntry k)).Pairwise fun e e' =>
        decide (p < xs.length + 1 - e'.1) = true → decide (p < xs.length + 1 - e.1) = true := by
    have hall : (old ++ es.map (shiftEntry k) ++ [(xs.length, x)]).Pairwise
        fun e e' => e.1 < e'.1 :=
      List.pairwise_append.2 ⟨h.pairwise, List.pairwise_singleton _ _, fun e he e' he' => by
        obtain rfl := List.mem_singleton.1 he'
        exact (h.bounds e he).1⟩
    rw [List.map_append, List.map_singleton, ← hlast, ← List.append_assoc]
    have hsub := ((List.rdropWhile_prefix (fun e : Nat × α => better x e.2) es).sublist.map
      (shiftEntry k)).append_left old
    refine (hall.sublist (hsub.append_right _)).imp fun hlt hold => ?_
    simp only [decide_eq_true_eq] at hold ⊢
    omega
  rw [slideSurvivors, rdropWhile_append_eq hstuck, hback, hlast, List.append_assoc,
    ← List.map_singleton, ← List.map_append, dropWhile_append_eq hpairwise, List.dropWhile_map,
    hage, slideSurvivors, expire]

/-- The older entries that are left. -/
theorem older_expire (h : SurvivorsSince better xs p k old es) :
    (∀ e ∈ expire p xs.length old, e.1 < k ∧ xs.length + 1 ≤ e.1 + p) ∧
      (expire p xs.length old).Pairwise (fun e e' => e.1 < e'.1) ∧
      ∀ hne : expire p xs.length old ≠ [],
        ∀ x, better x ((expire p xs.length old).getLast hne).2 = false := by
  have hsuffix : expire p xs.length old <:+ old := List.dropWhile_suffix _
  have hfilter : expire p xs.length old =
      old.filter fun e => !decide (p < xs.length + 1 - e.1) := by
    refine dropWhile_eq_filter (h.ordered.imp fun hlt hold => ?_)
    simp only [decide_eq_true_eq] at hold ⊢
    omega
  refine ⟨fun e he => ?_, h.ordered.sublist hsuffix.sublist, fun hne x => ?_⟩
  · have hyoung := hfilter ▸ he
    obtain ⟨hmem, hage⟩ := List.mem_filter.1 hyoung
    have := h.older e hmem
    have := h.le_length
    simp only [Bool.not_eq_true', decide_eq_false_iff_not] at hage
    exact ⟨by omega, by omega⟩
  · rw [hsuffix.getLast hne]
    exact h.stuck _ x

/-- **One value more** that compares to those since position `k`. -/
theorem slide (h : SurvivorsSince better xs p k old es) (hp : 0 < p) {x : α}
    (hx : Comparable better (xs.drop k ++ [x])) :
    SurvivorsSince better (xs ++ [x]) p k (expire p xs.length old)
      (slideSurvivors better p (xs.drop k).length x es) := by
  obtain ⟨holder, hordered, hstuck⟩ := h.older_expire
  have hk := h.le_length
  refine ⟨by simp; omega, fun e he => (holder e he).1, fun e he => ?_, hordered, hstuck, ?_⟩
  · simpa using (holder e he).2
  · rw [List.drop_append_of_le_length hk]
    exact h.since.slide hp hx

/-- **One value more** that compares to nothing: all entries are older ones then. -/
theorem interrupt (h : SurvivorsSince better xs p k old es) (hp : 0 < p) {x : α}
    (hworse : ∀ y, better x y = false) (hbetter : ∀ y, better y x = false) :
    SurvivorsSince better (xs ++ [x]) p (xs.length + 1)
      (slideSurvivors better p xs.length x (old ++ es.map (shiftEntry k))) [] := by
  have hkept : (old ++ es.map (shiftEntry k)).rdropWhile (fun e => better x e.2) =
      old ++ es.map (shiftEntry k) :=
    List.rdropWhile_eq_self_iff.2 fun _ => by simp [hworse]
  have hlt : ∀ e ∈ old ++ es.map (shiftEntry k) ++ [(xs.length, x)], e.1 < xs.length + 1 := by
    intro e he
    rcases List.mem_append.1 he with he | he
    · exact (h.bounds e he).1.trans (Nat.lt_succ_self _)
    · rw [List.mem_singleton.1 he]
      exact Nat.lt_succ_self _
  have hall : (old ++ es.map (shiftEntry k) ++ [(xs.length, x)]).Pairwise fun e e' => e.1 < e'.1 :=
    List.pairwise_append.2 ⟨h.pairwise, List.pairwise_singleton _ _, fun e he e' he' => by
      obtain rfl := List.mem_singleton.1 he'
      exact (h.bounds e he).1⟩
  have hold : ∀ {e e' : Nat × α}, e.1 < e'.1 → decide (p < xs.length + 1 - e'.1) = true →
      decide (p < xs.length + 1 - e.1) = true := by
    intro e e' hee' hage
    simp only [decide_eq_true_eq] at hage ⊢
    omega
  have hyoung : [(xs.length, x)].dropWhile (fun e => decide (p < xs.length + 1 - e.1)) =
      [(xs.length, x)] :=
    List.dropWhile_cons_of_neg (by simp; omega)
  have hslide : slideSurvivors better p xs.length x (old ++ es.map (shiftEntry k)) =
      (old ++ es.map (shiftEntry k)).dropWhile (fun e => decide (p < xs.length + 1 - e.1)) ++
        [(xs.length, x)] := by
    rw [slideSurvivors, hkept, dropWhile_append_eq (hall.imp hold), hyoung]
  have hfilter : slideSurvivors better p xs.length x (old ++ es.map (shiftEntry k)) =
      (old ++ es.map (shiftEntry k) ++ [(xs.length, x)]).filter
        fun e => !decide (p < xs.length + 1 - e.1) := by
    rw [slideSurvivors, hkept, dropWhile_eq_filter (hall.imp hold)]
  refine ⟨by simp, fun e he => hlt e (List.mem_of_mem_filter (hfilter ▸ he)), fun e he => ?_,
    hfilter ▸ hall.filter _, fun hne y => ?_, ?_⟩
  · have hage := (List.mem_filter.1 (hfilter ▸ he)).2
    simp only [Bool.not_eq_true', decide_eq_false_iff_not] at hage
    simp only [List.length_append, List.length_singleton]
    omega
  · simp only [hslide, List.getLast_append_singleton]
    exact hbetter y
  · rw [List.drop_of_length_le (by simp)]
    exact survivors_nil better p

/-- When the last `p` values came since position `k`, the front is the best of them. -/
theorem front (h : SurvivorsSince better xs p k old es) (hx : Comparable better (xs.drop k))
    (hp : 0 < p) (hwindow : k + p ≤ xs.length) : old = [] ∧ ∃ e rest, es = e :: rest ∧
      (xs.drop k)[e.1]? = some e.2 ∧ BestOfWindow better (xs.drop k) p e.1 := by
  refine ⟨List.eq_nil_iff_forall_not_mem.2 fun e he => ?_, h.since.front hx hp ?_⟩
  · have := h.older e he
    have := h.recent e he
    omega
  · exact List.ne_nil_of_length_pos (by rw [List.length_drop]; omega)

end SurvivorsSince

end JitSignalEngine
