import Mathlib.Data.List.Basic

/-! Records one after the other, each as long as what is found at its start says, and the loop that
steps over them up to a limit. -/
namespace Records

structure Sizing where
  size : Nat → Nat
  size_pos : ∀ i, 0 < size i

def Sizing.walk (s : Sizing) (limit i : Nat) : List Nat × Nat :=
  if i < limit then (i :: (s.walk limit (i + s.size i)).1, (s.walk limit (i + s.size i)).2) else ([], i)
termination_by limit - i
decreasing_by all_goals have := s.size_pos i; omega

/-- Records that start at the positions listed fill the stretch from one position to another. -/
inductive Sizing.Tiles (s : Sizing) : Nat → List Nat → Nat → Prop
  | nil (i : Nat) : Tiles s i [] i
  | cons {i j : Nat} {starts : List Nat} (h : Tiles s (i + s.size i) starts j) : Tiles s i (i :: starts) j

variable {s : Sizing} {limit i j : Nat} {starts : List Nat}

theorem Sizing.walk_of_lt (h : i < limit) :
    s.walk limit i = (i :: (s.walk limit (i + s.size i)).1, (s.walk limit (i + s.size i)).2) := by
  rw [walk, if_pos h]

theorem Sizing.walk_of_le (h : limit ≤ i) : s.walk limit i = ([], i) := by
  rw [walk, if_neg (Nat.not_lt.mpr h)]

theorem Sizing.Tiles.le (h : s.Tiles i starts j) : i ≤ j := by
  induction h with
  | nil => exact Nat.le_refl _
  | cons _ ih => omega

theorem Sizing.Tiles.cons_lt {a : Nat} (h : s.Tiles i (a :: starts) j) : i < j := by
  cases h with
  | cons h =>
    have hpos := s.size_pos i
    have hle := h.le
    omega

/-- Whatever the limit, the loop steps over records that lie one behind the other. -/
theorem Sizing.tiles_walk (s : Sizing) (limit i : Nat) : s.Tiles i (s.walk limit i).1 (s.walk limit i).2 := by
  fun_induction Sizing.walk s limit i with
  | case1 i h ih => exact .cons ih
  | case2 i h => exact .nil i

/-- Over records that end at the limit the loop steps exactly, one by one. -/
theorem Sizing.walk_of_tiles (h : s.Tiles i starts j) : s.walk j i = (starts, j) := by
  induction h with
  | nil i => exact walk_of_le (Nat.le_refl i)
  | cons h ih =>
    rw [walk_of_lt (Tiles.cons h).cons_lt, ih]

/-- The records stepped over end inside the limit exactly if the last one ends at it. -/
theorem Sizing.walk_inside_iff (h : i ≤ limit) :
    (∀ start ∈ (s.walk limit i).1, start + s.size start ≤ limit) ↔ (s.walk limit i).2 = limit := by
  fun_induction Sizing.walk s limit i with
  | case1 i hlt ih =>
    rw [List.forall_mem_cons]
    constructor
    · rintro ⟨hfirst, hrest⟩
      exact (ih hfirst).mp hrest
    · intro hstop
      have hfirst : i + s.size i ≤ limit := hstop ▸ (s.tiles_walk limit (i + s.size i)).le
      exact ⟨hfirst, (ih hfirst).mpr hstop⟩
  | case2 i hge =>
    refine iff_of_true (fun start hstart => absurd hstart List.not_mem_nil) ?_
    exact Nat.le_antisymm h (Nat.not_lt.mp hge)

end Records
