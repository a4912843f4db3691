import Mathlib.Data.List.Basic
import Mathlib.Logic.Function.Basic
import Mathlib.Order.Nat

/-!
# Files with inodes

A file system as far as renaming and concurrent access go. A name stands for an inode, an
inode has data. An open file is an inode, so it stays the same file when its name goes to
another one.

* `InodeFs` — the names and the data, with the inodes in use below a bound.
* `openTruncate`, `write`, `rename`, `unlink`, `read` — the operations.
* `writeAt_take` — writing on, from the end of what is written.

Only `openTruncate` and `write` change data, and only that of their inode.
-/

namespace JitSignalEngine

/-- A directory and the data of the inodes. `ν` are the names, `β` the bytes. -/
structure InodeFs (ν β : Type) where
  /-- the inode of a name -/
  dir : ν → Option Nat
  /-- the data of an inode -/
  data : Nat → List β
  /-- the inodes from here on are unused -/
  next : Nat
  dir_lt : ∀ name i, dir name = some i → i < next

namespace InodeFs

variable {ν β : Type}

/-- An empty directory. -/
def empty : InodeFs ν β := ⟨fun _ => none, fun _ => [], 0, nofun⟩

/-- Bytes at an offset. What lies between the end and the offset is filled with `zero`. -/
def writeAt (zero : β) (d : List β) (offset : Nat) (bytes : List β) : List β :=
  (d ++ List.replicate (offset - d.length) zero).take offset ++ bytes ++
    d.drop (offset + bytes.length)

/-- Writing the next piece of `m` behind the pieces before it. -/
theorem writeAt_take (zero : β) (m : List β) (offset n : Nat) (h : offset ≤ m.length) :
    writeAt zero (m.take offset) offset ((m.drop offset).take n) = m.take (offset + n) := by
  have hlength : (m.take offset).length = offset := by simp [h]
  have hover : (m.take offset).drop (offset + ((m.drop offset).take n).length) = [] :=
    List.drop_of_length_le (by omega)
  rw [writeAt, hover, hlength, Nat.sub_self, List.replicate_zero, List.append_nil,
    List.append_nil, List.take_of_length_le hlength.le, ← List.take_add]

/-- `open(name, O_CREAT | O_TRUNC)`: the file of that name without its data, or a new one. -/
def openTruncate [DecidableEq ν] (fs : InodeFs ν β) (name : ν) : InodeFs ν β × Nat :=
  match h : fs.dir name with
  | some i => ({ fs with data := Function.update fs.data i [] }, i)
  | none =>
    ({ dir := Function.update fs.dir name (some fs.next)
       data := Function.update fs.data fs.next []
       next := fs.next + 1
       dir_lt := fun n i hi => by
        by_cases hn : n = name
        · subst hn
          rw [Function.update_self] at hi
          cases hi
          exact Nat.lt_succ_self _
        · rw [Function.update_of_ne hn] at hi
          exact (fs.dir_lt n i hi).trans (Nat.lt_succ_self _) }, fs.next)

/-- `write` on an open file, at the offset of the writer. -/
def write (zero : β) (fs : InodeFs ν β) (i offset : Nat) (bytes : List β) : InodeFs ν β :=
  { fs with data := Function.update fs.data i (writeAt zero (fs.data i) offset bytes) }

/-- `unlink` -/
def unlink [DecidableEq ν] (fs : InodeFs ν β) (name : ν) : InodeFs ν β :=
  { fs with
    dir := Function.update fs.dir name none
    dir_lt := fun n i hi => by
      by_cases hn : n = name
      · subst hn
        rw [Function.update_self] at hi
        cases hi
      · rw [Function.update_of_ne hn] at hi
        exact fs.dir_lt n i hi }

/-- `rename`: the file gets the other name, whose file loses it. -/
def rename [DecidableEq ν] (fs : InodeFs ν β) (source dest : ν) : Option (InodeFs ν β) :=
  match h : fs.dir source with
  | none => none
  | some i => some
    (({ fs with
        dir := Function.update fs.dir dest (some i)
        dir_lt := fun n j hj => by
          by_cases hn : n = dest
          · subst hn
            rw [Function.update_self] at hj
            cases hj
            exact fs.dir_lt source i h
          · rw [Function.update_of_ne hn] at hj
            exact fs.dir_lt n j hj } : InodeFs ν β).unlink source)

/-- `read` on an open file, at the offset of the reader. -/
def read (fs : InodeFs ν β) (i offset n : Nat) : List β := ((fs.data i).drop offset).take n

/-- Reading on, behind what was read. -/
theorem append_read_prefix {fs : InodeFs ν β} {i : Nat} {bytes : List β}
    (h : bytes <+: fs.data i) (n : Nat) : bytes ++ fs.read i bytes.length n <+: fs.data i := by
  obtain ⟨rest, hrest⟩ := h
  rw [read, ← hrest, List.drop_left]
  exact (List.prefix_append_right_inj bytes).2 (List.take_prefix n rest)

variable (fs : InodeFs ν β)

theorem write_data (zero : β) (i offset : Nat) (bytes : List β) :
    (fs.write zero i offset bytes).data i = writeAt zero (fs.data i) offset bytes :=
  Function.update_self ..

theorem write_data_ne (zero : β) {i j : Nat} (h : j ≠ i) (offset : Nat) (bytes : List β) :
    (fs.write zero i offset bytes).data j = fs.data j :=
  Function.update_of_ne h ..

section Names

variable [DecidableEq ν]

theorem openTruncate_data (name : ν) : (fs.openTruncate name).1.data (fs.openTruncate name).2 = [] := by
  rw [openTruncate]
  split <;> exact Function.update_self ..

theorem openTruncate_dir (name : ν) :
    (fs.openTruncate name).1.dir name = some (fs.openTruncate name).2 := by
  rw [openTruncate]
  split
  · assumption
  · exact Function.update_self ..

theorem openTruncate_dir_ne {name other : ν} (h : other ≠ name) :
    (fs.openTruncate name).1.dir other = fs.dir other := by
  rw [openTruncate]
  split
  · rfl
  · exact Function.update_of_ne h ..

theorem openTruncate_next (name : ν) : fs.next ≤ (fs.openTruncate name).1.next := by
  rw [openTruncate]
  split
  · exact le_rfl
  · exact Nat.le_succ _

/-- The file of a truncating open is the file of that name, or new. -/
theorem openTruncate_inode (name : ν) :
    fs.dir name = some (fs.openTruncate name).2 ∨ (fs.openTruncate name).2 = fs.next := by
  rw [openTruncate]
  split
  · exact .inl (by assumption)
  · exact .inr rfl

theorem openTruncate_data_ne {name : ν} {j : Nat} (h : j ≠ (fs.openTruncate name).2) :
    (fs.openTruncate name).1.data j = fs.data j := by
  revert h
  rw [openTruncate]
  split <;> exact fun h => Function.update_of_ne h ..

theorem unlink_dir_self (name : ν) : (fs.unlink name).dir name = none := by
  simp [unlink]

theorem unlink_dir_ne {name other : ν} (h : other ≠ name) :
    (fs.unlink name).dir other = fs.dir other := by
  simp [unlink, h]

variable {fs} in
/-- What a rename does. -/
theorem rename_eq_some {source dest : ν} {fs' : InodeFs ν β}
    (h : fs.rename source dest = some fs') :
    ∃ i, fs.dir source = some i ∧ fs'.data = fs.data ∧ fs'.next = fs.next ∧
      fs'.dir = Function.update (Function.update fs.dir dest (some i)) source none := by
  rw [rename] at h
  split at h
  · cases h
  · rename_i i hi
    cases h
    exact ⟨i, hi, rfl, rfl, rfl⟩

end Names

end InodeFs

end JitSignalEngine
