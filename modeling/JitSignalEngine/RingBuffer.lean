import Mathlib.Data.List.Basic
import Mathlib.Data.List.Perm.Basic
import Mathlib.Data.List.Rotate

/-!
# Ring buffers

A ring of `n` cells into which a stream is written, each entry over the oldest one. The
reference is the list of everything written so far. Or a ring whose cells from some head on
are a list that both ends of the ring work on.

* `window` — the last `n` entries of a list, and how it slides.
* `HoldsWindow` — entry number `i` lies in cell `i % n` until it is written over.
* `HoldsWindow.push`, `HoldsWindow.oldest` — the next write, and what it writes over.
* `HoldsWindow.exists_perm` — the cells of a full ring are the window up to order.
* `cellsFrom` — the list at a head, and what a write or a step of an end does to it.
-/

namespace JitSignalEngine

variable {α β : Type}

/-- The last `n` entries, all of them while there are fewer. -/
def window (n : Nat) (xs : List α) : List α := xs.drop (xs.length - n)

@[simp] theorem window_nil (n : Nat) : window n ([] : List α) = [] := by simp [window]

theorem length_window (n : Nat) (xs : List α) : (window n xs).length = min xs.length n := by
  simp only [window, List.length_drop]
  omega

theorem window_map (n : Nat) (f : α → β) (xs : List α) :
    window n (xs.map f) = (window n xs).map f := by simp [window]

theorem window_of_length_le {n : Nat} {xs : List α} (h : xs.length ≤ n) : window n xs = xs := by
  rw [window, Nat.sub_eq_zero_of_le h, List.drop_zero]

/-- While the window fills, a new entry joins it. -/
theorem window_fill {n : Nat} {xs : List α} (x : α) (h : xs.length < n) :
    window n (xs ++ [x]) = window n xs ++ [x] := by
  rw [window_of_length_le h.le, window_of_length_le (by simp; omega)]

/-- A full window loses its oldest entry to the new one. -/
theorem window_slide {n : Nat} {xs : List α} (x : α) (hn : 0 < n) (h : n ≤ xs.length) :
    ∃ old rest, xs[xs.length - n]? = some old ∧ window n xs = old :: rest ∧
      window n (xs ++ [x]) = rest ++ [x] := by
  have hlt : xs.length - n < xs.length := by omega
  refine ⟨xs[xs.length - n], xs.drop (xs.length - n + 1), List.getElem?_eq_getElem hlt, ?_, ?_⟩
  · exact List.drop_eq_getElem_cons hlt
  · have hnext : (xs ++ [x]).length - n = xs.length - n + 1 := by simp; omega
    rw [window, hnext, List.drop_append_of_le_length hlt]

/-- **The ring.** `buf` has `n` cells, and of the entries `xs` written into it one after the
other those not yet written over lie where the writes put them. -/
structure HoldsWindow (n : Nat) (xs buf : List α) : Prop where
  length_eq : buf.length = n
  cell : ∀ i < xs.length, xs.length ≤ i + n → buf[i % n]? = xs[i]?

namespace HoldsWindow

variable {n : Nat} {xs buf : List α}

/-- A ring nothing was written into. -/
theorem empty (buf : List α) : HoldsWindow buf.length [] buf :=
  ⟨rfl, fun i hi => absurd hi (Nat.not_lt_zero i)⟩

/-- Two entries less than `n` apart lie in different cells. -/
theorem cell_ne {i j : Nat} (hij : i < j) (hj : j < i + n) : i % n ≠ j % n := by
  intro h
  have hdvd : n ∣ j - i := Nat.dvd_of_mod_eq_zero (Nat.sub_mod_eq_zero_of_mod_eq h.symm)
  have := Nat.le_of_dvd (by omega) hdvd
  omega

/-- The next write goes over the oldest entry. -/
theorem push (h : HoldsWindow n xs buf) (x : α) (hn : 0 < n) :
    HoldsWindow n (xs ++ [x]) (buf.set (xs.length % n) x) := by
  refine ⟨by rw [List.length_set, h.length_eq], fun i hi hlast => ?_⟩
  rw [List.length_append, List.length_singleton] at hi hlast
  rcases Nat.lt_succ_iff_lt_or_eq.1 hi with hlt | rfl
  · rw [List.getElem?_set_ne (cell_ne hlt (by omega)).symm, h.cell i hlt (by omega),
      List.getElem?_append_left hlt]
  · have hcell : xs.length % n < buf.length := h.length_eq.symm ▸ Nat.mod_lt _ hn
    rw [List.getElem?_set_self hcell]
    simp

/-- The cell of the next write still holds the oldest entry of a full window. -/
theorem oldest (h : HoldsWindow n xs buf) (hn : 0 < n) (hfull : n ≤ xs.length) :
    buf[xs.length % n]? = xs[xs.length - n]? := by
  rw [← h.cell (xs.length - n) (by omega) (by omega), Nat.mod_eq_sub_mod hfull]

theorem oldest_getD (h : HoldsWindow n xs buf) (hn : 0 < n) (hfull : n ≤ xs.length) (x : α) :
    xs[xs.length - n]? = some (buf.getD (xs.length % n) x) := by
  have hcell := h.oldest hn hfull
  rw [← hcell, List.getD_eq_getElem?_getD, hcell,
    List.getElem?_eq_getElem (by omega : xs.length - n < xs.length), Option.getD_some]

theorem map (h : HoldsWindow n xs buf) (f : α → β) :
    HoldsWindow n (xs.map f) (buf.map f) := by
  refine ⟨by rw [List.length_map, h.length_eq], fun i hi hlast => ?_⟩
  rw [List.length_map] at hi hlast
  rw [List.getElem?_map, List.getElem?_map, h.cell i hi hlast]

/-- Two rings written together, read together. -/
theorem zip {ps : List (α × β)} {bufA : List α} {bufB : List β}
    (ha : HoldsWindow n (ps.map Prod.fst) bufA) (hb : HoldsWindow n (ps.map Prod.snd) bufB) :
    HoldsWindow n ps (bufA.zip bufB) := by
  refine ⟨by rw [List.length_zip, ha.length_eq, hb.length_eq, Nat.min_self], ?_⟩
  intro i hi hlast
  have hfst := ha.cell i (by simpa using hi) (by simpa using hlast)
  have hsnd := hb.cell i (by simpa using hi) (by simpa using hlast)
  rw [List.getElem?_map, List.getElem?_eq_getElem hi] at hfst hsnd
  rw [List.getElem?_zip_eq_some.2 ⟨hfst, hsnd⟩, List.getElem?_eq_getElem hi]

/-- The oldest pair of two rings that are full. -/
theorem oldest_pair {ps : List (α × β)} {bufA : List α} {bufB : List β}
    (ha : HoldsWindow n (ps.map Prod.fst) bufA) (hb : HoldsWindow n (ps.map Prod.snd) bufB)
    (hn : 0 < n) (hfull : n ≤ ps.length) (a : α) (b : β) :
    ps[ps.length - n]? =
      some (bufA.getD (ps.length % n) a, bufB.getD (ps.length % n) b) := by
  have hlt : ps.length - n < ps.length := by omega
  have hfst := ha.oldest hn (by simpa using hfull)
  have hsnd := hb.oldest hn (by simpa using hfull)
  rw [List.length_map, List.getElem?_map, List.getElem?_eq_getElem hlt] at hfst hsnd
  rw [List.getD_eq_getElem?_getD, List.getD_eq_getElem?_getD, hfst, hsnd,
    List.getElem?_eq_getElem hlt]
  rfl

/-- A ring that fills holds the entries in order. -/
theorem take_eq (h : HoldsWindow n xs buf) (hfills : xs.length ≤ n) : buf.take xs.length = xs := by
  refine List.ext_getElem? fun i => ?_
  rcases Nat.lt_or_ge i xs.length with hi | hi
  · rw [List.getElem?_take_of_lt hi, ← h.cell i hi (by omega), Nat.mod_eq_of_lt (by omega)]
  · rw [List.getElem?_eq_none (by simp; omega), List.getElem?_eq_none hi]

/-- Read from the cell of the next write on, a full ring is the window. -/
theorem rotate_eq (h : HoldsWindow n xs buf) (hfull : n ≤ xs.length) :
    buf.rotate (xs.length % n) = window n xs := by
  refine List.ext_getElem? fun i => ?_
  rcases Nat.lt_or_ge i n with hi | hi
  · have hcell : (i + xs.length % n) % n = (xs.length - n + i) % n := by
      rw [Nat.mod_eq_sub_mod hfull, Nat.add_mod_mod, Nat.add_comm]
    rw [List.getElem?_rotate (h.length_eq.symm ▸ hi), h.length_eq, hcell,
      h.cell _ (by omega) (by omega), window, List.getElem?_drop]
  · rw [List.getElem?_eq_none (by simp [h.length_eq, hi]),
      List.getElem?_eq_none (by rw [length_window]; omega)]

/-- **The cells of a full ring are the window**, in some order. -/
theorem exists_perm {f : β → α} {ys : List β} (h : HoldsWindow n xs buf) (hfull : n ≤ xs.length)
    (hys : window n xs = ys.map f) : ∃ zs : List β, zs.Perm ys ∧ buf = zs.map f := by
  have hrotate := h.rotate_eq hfull
  rw [hys] at hrotate
  obtain ⟨k, hk⟩ := List.IsRotated.symm ⟨_, hrotate⟩
  exact ⟨ys.rotate k, List.rotate_perm _ _, by rw [List.map_rotate, hk]⟩

theorem map_eq {f : β → α} {ys : List β} (h : HoldsWindow n (ys.map f) buf)
    (hfull : n ≤ ys.length) : ∃ zs : List β, zs.Perm (window n ys) ∧ buf = zs.map f :=
  h.exists_perm (by simpa using hfull) (window_map n f ys)

end HoldsWindow

/-! ## A ring with two ends -/

/-- `count` cells from `head` on. -/
def cellsFrom (buf : List α) (head count : Nat) : List α := (buf.rotate head).take count

variable {buf : List α} {head count : Nat}

theorem length_cellsFrom (hcount : count ≤ buf.length) :
    (cellsFrom buf head count).length = count := by simp [cellsFrom, hcount]

theorem getElem?_cellsFrom (hcount : count ≤ buf.length) {i : Nat} (hi : i < count) :
    (cellsFrom buf head count)[i]? = buf[(head + i) % buf.length]? := by
  rw [cellsFrom, List.getElem?_take_of_lt hi, List.getElem?_rotate (by omega), Nat.add_comm]

/-- The front. -/
theorem head?_cellsFrom (hcount : count ≤ buf.length) (hpos : 0 < count) (hhead : head < buf.length) :
    (cellsFrom buf head count).head? = buf[head]? := by
  rw [List.head?_eq_getElem?, getElem?_cellsFrom hcount hpos, Nat.add_zero, Nat.mod_eq_of_lt hhead]

/-- The back. -/
theorem getLast?_cellsFrom (hcount : count ≤ buf.length) (hpos : 0 < count) :
    (cellsFrom buf head count).getLast? = buf[(head + count - 1) % buf.length]? := by
  rw [List.getLast?_eq_getElem?, length_cellsFrom hcount,
    getElem?_cellsFrom hcount (by omega), Nat.add_sub_assoc hpos]

/-- A write behind the back. -/
theorem cellsFrom_push (hroom : count < buf.length) (v : α) :
    cellsFrom (buf.set ((head + count) % buf.length) v) head (count + 1) =
      cellsFrom buf head count ++ [v] := by
  refine List.ext_getElem? fun i => ?_
  have hlength : (cellsFrom buf head count).length = count := length_cellsFrom hroom.le
  rcases Nat.lt_trichotomy i count with hi | rfl | hi
  · rw [getElem?_cellsFrom (by simp; omega) (by omega), List.length_set,
      List.getElem?_set_ne (HoldsWindow.cell_ne (by omega) (by omega)).symm,
      List.getElem?_append_left (by omega), getElem?_cellsFrom hroom.le hi]
  · rw [getElem?_cellsFrom (by simp; omega) (by omega), List.length_set,
      List.getElem?_set_self (Nat.mod_lt _ (by omega)), List.getElem?_append_right (by omega), hlength]
    simp
  · rw [List.getElem?_eq_none, List.getElem?_eq_none]
    · simp [hlength]; omega
    · rw [length_cellsFrom (by simp; omega)]; omega

/-- A step of the front. -/
theorem cellsFrom_popFront (hcount : count ≤ buf.length) :
    cellsFrom buf ((head + 1) % buf.length) (count - 1) = (cellsFrom buf head count).tail := by
  refine List.ext_getElem? fun i => ?_
  rw [List.getElem?_tail]
  rcases Nat.lt_or_ge (i + 1) count with hi | hi
  · rw [getElem?_cellsFrom (by omega) (by omega), getElem?_cellsFrom hcount hi, Nat.mod_add_mod,
      Nat.add_assoc, Nat.add_comm 1]
  · rw [List.getElem?_eq_none, List.getElem?_eq_none]
    · rw [length_cellsFrom hcount]; omega
    · rw [length_cellsFrom (by omega)]; omega

/-- A step of the back. -/
theorem cellsFrom_popBack (hcount : count ≤ buf.length) :
    cellsFrom buf head (count - 1) = (cellsFrom buf head count).dropLast := by
  rw [List.dropLast_eq_take, length_cellsFrom hcount, cellsFrom, cellsFrom, List.take_take,
    Nat.min_eq_left (Nat.sub_le _ _)]

end JitSignalEngine
