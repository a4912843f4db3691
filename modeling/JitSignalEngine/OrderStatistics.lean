import Mathlib.Data.Finset.Max
import Mathlib.Data.List.Basic
import Mathlib.Order.Basic

/-!
# Order statistics by counting

The element of rank `r` of a list is the one that `r` elements, counted with repetitions, are
at most as large as. A histogram finds it up to its bucket: it keeps how many elements fell into
each bucket and scans the counts.

* `IsRank` — the element of a rank. There is one for each rank up to the length.
* `firstReaching` — the scan.
* `IsRank.firstReaching_eq` — it stops at the bucket of the element of that rank, when larger
  elements are never in smaller buckets.
-/

namespace JitSignalEngine

variable {α ι : Type} [LinearOrder α] [LinearOrder ι]

/-! ## Ranks -/

/-- `a` has the rank `r` in `l`, from 1 on, and with repetitions. -/
structure IsRank (l : List α) (r : Nat) (a : α) : Prop where
  mem : a ∈ l
  below : l.countP (· < a) < r
  upTo : r ≤ l.countP (· ≤ a)

variable {l : List α} {r s : Nat} {a b : α}

theorem IsRank.mono (ha : IsRank l r a) (hb : IsRank l s b) (h : r ≤ s) : a ≤ b := by
  by_contra hlt
  have hsub : l.countP (· ≤ b) ≤ l.countP (· < a) := by
    refine List.countP_mono_left fun x _ hx => ?_
    rw [decide_eq_true_eq] at hx ⊢
    exact hx.trans_lt (not_le.mp hlt)
  have := ha.below
  have := hb.upTo
  omega

theorem IsRank.unique (ha : IsRank l r a) (hb : IsRank l r b) : a = b :=
  le_antisymm (ha.mono hb (Nat.le_refl r)) (hb.mono ha (Nat.le_refl r))

theorem IsRank.pos (h : IsRank l r a) : 0 < r := (Nat.zero_le _).trans_lt h.below

/-- An element that bounds some of the list can be chosen from it. -/
theorem exists_last_below (h : 0 < l.countP (· < a)) :
    ∃ b ∈ l, b < a ∧ l.countP (· < a) ≤ l.countP (· ≤ b) := by
  have hne : (l.filter (· < a)).toFinset.Nonempty := by
    obtain ⟨x, hx, hlt⟩ := List.countP_pos_iff.mp h
    exact ⟨x, List.mem_toFinset.mpr (List.mem_filter.mpr ⟨hx, hlt⟩)⟩
  have hmax := Finset.max'_mem _ hne
  obtain ⟨hmem, hlt⟩ := List.mem_filter.mp (List.mem_toFinset.mp hmax)
  refine ⟨_, hmem, of_decide_eq_true hlt, List.countP_mono_left fun x hx hxa => ?_⟩
  exact decide_eq_true (Finset.le_max' _ x (List.mem_toFinset.mpr (List.mem_filter.mpr ⟨hx, hxa⟩)))

theorem exists_isRank (h0 : 0 < r) (h : r ≤ l.length) : ∃ a, IsRank l r a := by
  -- the least element with enough elements up to it
  have hne : (l.filter fun a => r ≤ l.countP (· ≤ a)).toFinset.Nonempty := by
    have hl : l.toFinset.Nonempty := by
      rw [List.toFinset_nonempty_iff]
      rintro rfl
      exact absurd (h0.trans_le h) (Nat.lt_irrefl 0)
    refine ⟨l.toFinset.max' hl, List.mem_toFinset.mpr (List.mem_filter.mpr
      ⟨List.mem_toFinset.mp (Finset.max'_mem _ hl), decide_eq_true ?_⟩)⟩
    rw [List.countP_eq_length.mpr fun x hx =>
      decide_eq_true (Finset.le_max' _ x (List.mem_toFinset.mpr hx))]
    exact h
  have hmin := Finset.min'_mem _ hne
  obtain ⟨hmem, hupTo⟩ := List.mem_filter.mp (List.mem_toFinset.mp hmin)
  refine ⟨_, hmem, ?_, of_decide_eq_true hupTo⟩
  by_contra hbelow
  obtain ⟨b, hb, hlt, hle⟩ := exists_last_below (h0.trans_le (not_lt.mp hbelow))
  have hb' : b ∈ (l.filter fun a => r ≤ l.countP (· ≤ a)).toFinset :=
    List.mem_toFinset.mpr (List.mem_filter.mpr
      ⟨hb, decide_eq_true ((not_lt.mp hbelow).trans hle)⟩)
  exact absurd (Finset.min'_le _ b hb') (not_le.mpr hlt)

/-! ## Scanning counts -/

/-- The first of some buckets at which the counts add up to `target`. -/
def firstReaching (counts : ι → Nat) (target : Nat) : List ι → (acc : Nat) → Option ι
  | [], _ => none
  | i :: is, acc =>
    if target ≤ acc + counts i then some i else firstReaching counts target is (acc + counts i)

omit [LinearOrder α] in
theorem countP_or_disjoint {p q u : α → Bool} (hor : ∀ x ∈ l, u x = (p x || q x))
    (hdisj : ∀ x ∈ l, ¬ (p x = true ∧ q x = true)) : l.countP u = l.countP p + l.countP q := by
  induction l with
  | nil => rfl
  | cons x l ih =>
    have htail := ih (fun y hy => hor y (List.mem_cons_of_mem x hy))
      fun y hy => hdisj y (List.mem_cons_of_mem x hy)
    have hx := hdisj x List.mem_cons_self
    rw [List.countP_cons, List.countP_cons, List.countP_cons, htail, hor x List.mem_cons_self]
    cases hp : p x <;> cases hq : q x
    · rfl
    · exact Nat.add_assoc _ _ 1
    · exact Nat.add_right_comm _ _ 1
    · exact absurd ⟨hp, hq⟩ hx

variable {f : α → ι} {counts : ι → Nat}

/-- The scan, when the buckets before `is` are behind it. -/
theorem IsRank.firstReaching_from (h : IsRank l r a)
    (hcounts : ∀ i, counts i = l.countP fun x => f x = i)
    (hf : ∀ x ∈ l, ∀ y ∈ l, x ≤ y → f x ≤ f y) {is : List ι} (hsorted : is.Pairwise (· < ·))
    (hmem : ∀ x ∈ l, f x ∈ is ∨ ∀ j ∈ is, f x < j) (ha : f a ∈ is) :
    firstReaching counts r is (l.countP fun x => ∀ j ∈ is, f x < j) = some (f a) := by
  induction is with
  | nil => cases ha
  | cons i is ih =>
    obtain ⟨hi, his⟩ := List.pairwise_cons.mp hsorted
    have hstep : (l.countP fun x => ∀ j ∈ i :: is, f x < j) + counts i =
        l.countP fun x => ∀ j ∈ is, f x < j := by
      rw [hcounts]
      refine (countP_or_disjoint (fun x hx => ?_) fun x _ hboth => ?_).symm
      · rw [Bool.eq_iff_iff, Bool.or_eq_true, decide_eq_true_eq, decide_eq_true_eq,
          decide_eq_true_eq]
        constructor
        · intro hlt
          rcases hmem x hx with hin | hall
          · rcases List.mem_cons.mp hin with heq | hin
            · exact .inr heq
            · exact absurd (hlt _ hin) (lt_irrefl _)
          · exact .inl hall
        · rintro (hall | rfl) j hj
          · exact hall j (List.mem_cons_of_mem i hj)
          · exact hi j hj
      · rw [decide_eq_true_eq, decide_eq_true_eq] at hboth
        exact absurd (hboth.1 i List.mem_cons_self) (hboth.2 ▸ lt_irrefl _)
    rw [firstReaching, hstep]
    by_cases hai : f a = i
    · rw [if_pos, hai]
      refine h.upTo.trans (List.countP_mono_left fun x hx hxa => ?_)
      rw [decide_eq_true_eq] at hxa ⊢
      exact fun j hj => (hf x hx a h.mem hxa).trans_lt (hai ▸ hi j hj)
    · have ha' : f a ∈ is := (List.mem_cons.mp ha).resolve_left hai
      rw [if_neg]
      · refine ih his (fun x hx => ?_) ha'
        rcases hmem x hx with hin | hall
        · rcases List.mem_cons.mp hin with rfl | hin
          · exact .inr hi
          · exact .inl hin
        · exact .inr fun j hj => hall j (List.mem_cons_of_mem i hj)
      · refine not_le.mpr (lt_of_le_of_lt (List.countP_mono_left fun x hx hxa => ?_) h.below)
        rw [decide_eq_true_eq] at hxa ⊢
        by_contra hle
        exact absurd (hxa _ ha') (not_lt.mpr (hf a h.mem x hx (not_lt.mp hle)))

/-- **The scan finds the bucket** of the element of a rank. -/
theorem IsRank.firstReaching_eq (h : IsRank l r a)
    (hcounts : ∀ i, counts i = l.countP fun x => f x = i)
    (hf : ∀ x ∈ l, ∀ y ∈ l, x ≤ y → f x ≤ f y) {is : List ι} (hsorted : is.Pairwise (· < ·))
    (hmem : ∀ x ∈ l, f x ∈ is) : firstReaching counts r is 0 = some (f a) := by
  have hnone : (l.countP fun x => ∀ j ∈ is, f x < j) = 0 := by
    refine List.countP_eq_zero.mpr fun x hx hall => ?_
    rw [decide_eq_true_eq] at hall
    exact absurd (hall _ (hmem x hx)) (lt_irrefl _)
  have hscan := h.firstReaching_from hcounts hf hsorted (fun x hx => .inl (hmem x hx))
    (hmem a h.mem)
  rwa [hnone] at hscan

omit [LinearOrder ι] in
/-- A target of zero is reached at once. -/
theorem firstReaching_zero (counts : ι → Nat) (is : List ι) (acc : Nat) :
    firstReaching counts 0 is acc = is.head? := by
  cases is with
  | nil => rfl
  | cons i is => exact if_pos (Nat.zero_le _)

end JitSignalEngine
