import Mathlib.Data.List.Basic
import Mathlib.Data.List.Range

/-! Memories addressed by offset, with block reads and block writes.
Bounds are the business of the program that owns the memory. -/
namespace ByteMemory

abbrev Memory (α : Type*) := Nat → α

variable {α : Type*}

def write (m : Memory α) (base : Nat) (bytes : List α) : Memory α := fun o =>
  if base ≤ o then (bytes[o-base]?).getD (m o) else m o

def read (m : Memory α) (base n : Nat) : List α := (List.range n).map (fun i => m (base+i))

theorem write_outside (m : Memory α) {base o : Nat} {bytes : List α}
    (h : o < base ∨ base + bytes.length ≤ o) : write m base bytes o = m o := by
  unfold write
  split
  · rw [List.getElem?_eq_none (by omega), Option.getD_none]
  · rfl

theorem write_inside (m : Memory α) {base o : Nat} {bytes : List α}
    (hb : base ≤ o) (ho : o - base < bytes.length) :
    write m base bytes o = bytes[o-base] := by
  rw [write, if_pos hb, List.getElem?_eq_getElem ho, Option.getD_some]

@[simp] theorem write_nil (m : Memory α) (base : Nat) : write m base [] = m := by
  funext o
  exact write_outside m (by simp; omega)

/-- A block write is the write of its first part followed by the write of its second. -/
theorem write_append (m : Memory α) (base : Nat) (a b : List α) :
    write m base (a ++ b) = write (write m base a) (base + a.length) b := by
  funext o
  by_cases hb : base + a.length ≤ o
  · by_cases hl : o - (base + a.length) < b.length
    · rw [write_inside _ (by omega) (by simp; omega), write_inside _ hb hl,
        List.getElem_append_right (by omega)]
      congr 1
      omega
    · rw [write_outside _ (by simp; omega), write_outside _ (by omega), write_outside _ (by omega)]
  · rw [write_outside _ (Or.inl (by omega : o < base + a.length))]
    by_cases ho : base ≤ o
    · rw [write_inside _ ho (by simp; omega), write_inside _ ho (by omega),
        List.getElem_append_left]
    · rw [write_outside _ (by omega), write_outside _ (by omega)]

/-- Writes to ranges without a common offset commute. -/
theorem write_comm (m : Memory α) {base base' : Nat} {a b : List α}
    (h : base + a.length ≤ base' ∨ base' + b.length ≤ base ∨ a = [] ∨ b = []) :
    write (write m base a) base' b = write (write m base' b) base a := by
  funext o
  rcases h with h | h | rfl | rfl
  · by_cases ho : o < base'
    · rw [write_outside _ (Or.inl ho)]
      unfold write
      simp only [show ¬ base' ≤ o by omega, if_false]
    · rw [write_outside (write m base' b) (by omega)]
      unfold write
      rw [List.getElem?_eq_none (l := a) (by omega)]
      simp
  · by_cases ho : o < base
    · rw [write_outside (write m base' b) (Or.inl ho)]
      unfold write
      simp only [show ¬ base ≤ o by omega, if_false]
    · rw [write_outside (write m base a) (by omega)]
      unfold write
      rw [List.getElem?_eq_none (l := b) (by omega)]
      simp
  · simp
  · simp

@[simp] theorem read_length (m : Memory α) (base n : Nat) : (read m base n).length = n := by
  simp [read]

@[simp] theorem read_zero (m : Memory α) (base : Nat) : read m base 0 = [] := rfl

theorem read_getElem (m : Memory α) {base n i : Nat} (h : i < (read m base n).length) :
    (read m base n)[i] = m (base+i) := by
  simp [read]

theorem head?_read (m : Memory α) (base : Nat) {n : Nat} (h : 0 < n) : (read m base n).head? = some (m base) := by
  rw [List.head?_eq_getElem?, List.getElem?_eq_getElem (by rwa [read_length]), read_getElem]
  rfl

theorem read_add (m : Memory α) (base a b : Nat) :
    read m base (a+b) = read m base a ++ read m (base+a) b := by
  simp [read, List.range_add, Nat.add_assoc]

/-- A part of a block read is a block read. -/
theorem take_drop_read (m : Memory α) (base : Nat) {off k n : Nat} (h : off + k ≤ n) :
    ((read m base n).drop off).take k = read m (base+off) k := by
  obtain ⟨r, rfl⟩ := Nat.exists_eq_add_of_le h
  rw [Nat.add_assoc, read_add, List.drop_left' (read_length m base off), read_add,
    List.take_left' (read_length m (base+off) k)]

/-- A block read depends only on the cells it covers. -/
theorem read_congr {m m' : Memory α} {base n : Nat}
    (h : ∀ o, base ≤ o → o < base + n → m o = m' o) : read m base n = read m' base n := by
  apply List.map_congr_left
  intro i hi
  exact h _ (by omega) (by have := List.mem_range.mp hi; omega)

/-- Memories that are read alike agree on the cells read. -/
theorem read_inj {m m' : Memory α} {base n o : Nat} (h : read m base n = read m' base n) (hlow : base ≤ o)
    (hhigh : o < base + n) : m o = m' o := by
  have hlt : o - base < (read m base n).length := by
    rw [read_length]
    omega
  have hget := List.getElem_of_eq h hlt
  rwa [read_getElem, read_getElem, Nat.add_sub_cancel' hlow] at hget

theorem read_write_disjoint (m : Memory α) {base base' n : Nat} {a : List α}
    (h : base + a.length ≤ base' ∨ base' + n ≤ base ∨ a = [] ∨ n = 0) :
    read (write m base a) base' n = read m base' n := by
  rcases h with h | h | rfl | rfl
  · exact read_congr fun o _ _ => write_outside _ (by omega)
  · exact read_congr fun o _ _ => write_outside _ (by omega)
  · rw [write_nil]
  · rfl

/-- What was just written is what is read back. -/
theorem read_write_self (m : Memory α) (base : Nat) (a : List α) :
    read (write m base a) base a.length = a := by
  apply List.ext_getElem (by simp)
  intro i h _
  rw [read_getElem, write_inside _ (by omega) (by simp at h; omega)]
  congr 1
  omega

end ByteMemory
