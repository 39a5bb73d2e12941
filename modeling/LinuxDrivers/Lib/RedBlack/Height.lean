import Mathlib.Algebra.Group.Nat.Defs
import Mathlib.Data.Nat.Log
import LinuxDrivers.Lib.RedBlack.Tree

/-! How far down a red-black tree can go, and with it every descent that turns left or right at each
entry. -/
namespace RedBlack

variable {α : Type*}

def RbTree.height : RbTree α → Nat
  | .nil => 0
  | .node _ l _ r => max l.height r.height + 1

def RbTree.visits (turn : α → Option Side) : RbTree α → List α
  | .nil => []
  | .node _ l x r =>
    x :: match turn x with
      | none => []
      | some .left => l.visits turn
      | some .right => r.visits turn

theorem RbTree.length_visits_le (turn : α → Option Side) (t : RbTree α) : (t.visits turn).length ≤ t.height := by
  induction t with
  | nil => exact Nat.le_refl 0
  | node c l x r ihl ihr =>
    rw [visits, height, List.length_cons]
    apply Nat.succ_le_succ
    split
    · exact Nat.zero_le _
    · exact Nat.le_trans ihl (Nat.le_max_left _ _)
    · exact Nat.le_trans ihr (Nat.le_max_right _ _)

/-- On the way down at most every other node is red. -/
theorem Balanced.height_le {t : RbTree α} {c : Color} {h : Nat} (hb : Balanced t c h) :
    t.height ≤ 2 * h + if c = .red then 1 else 0 := by
  induction hb with
  | nil => exact Nat.le_refl 0
  | red hl hr ihl ihr =>
    simp only [reduceCtorEq, if_false, if_true, RbTree.height] at ihl ihr ⊢
    omega
  | @black l r x cl cr h hl hr ihl ihr =>
    have hred : ∀ c : Color, (if c = .red then 1 else 0) ≤ 1 := by
      intro c
      split <;> omega
    have hcl := hred cl
    have hcr := hred cr
    simp only [reduceCtorEq, if_false, RbTree.height] at ihl ihr ⊢
    omega

/-- The black nodes alone fill a tree of the black height. -/
theorem Balanced.two_pow_le {t : RbTree α} {c : Color} {h : Nat} (hb : Balanced t c h) :
    2 ^ h ≤ t.toList.length + 1 := by
  induction hb with
  | nil => exact Nat.le_refl 1
  | red hl hr ihl ihr =>
    rw [RbTree.toList, List.length_append, List.length_cons]
    omega
  | black hl hr ihl ihr =>
    rw [RbTree.toList, List.length_append, List.length_cons, Nat.pow_succ]
    omega

theorem Balanced.height_le_log {t : RbTree α} {h : Nat} (hb : Balanced t .black h) :
    t.height ≤ 2 * Nat.log 2 (t.toList.length + 1) := by
  have hheight : t.height ≤ 2 * h := hb.height_le
  have hlog : h ≤ Nat.log 2 (t.toList.length + 1) := Nat.le_log_of_pow_le (by omega) hb.two_pow_le
  omega

end RedBlack
