import Mathlib.Data.List.Basic

/-! Red-black trees, the links that lead into them, and the two ways to list their entries. -/
namespace RedBlack

inductive Color where
  | red
  | black
  deriving DecidableEq, Repr

inductive RbTree (α : Type*) where
  | nil
  | node (color : Color) (left : RbTree α) (entry : α) (right : RbTree α)
  deriving DecidableEq, Repr

inductive Side where
  | left
  | right
  deriving DecidableEq, Repr

structure Frame (α : Type*) where
  side : Side
  color : Color
  entry : α
  sibling : RbTree α

variable {α : Type*}

def RbTree.toList : RbTree α → List α
  | .nil => []
  | .node _ l x r => l.toList ++ x :: r.toList

def RbTree.root? : RbTree α → Option α
  | .nil => none
  | .node _ _ x _ => some x

def Frame.plug (f : Frame α) (t : RbTree α) : RbTree α :=
  match f.side with
  | .left => .node f.color t f.entry f.sibling
  | .right => .node f.color f.sibling f.entry t

/-- The whole tree around a subtree; the first frame is the one of its parent. -/
def plug : List (Frame α) → RbTree α → RbTree α
  | [], t => t
  | f :: link, t => plug link (f.plug t)

/-- A subtree with the color of its root and its black height: no red node has a red child, and
all ways down pass the same number of black nodes. -/
inductive Balanced : RbTree α → Color → Nat → Prop
  | nil : Balanced .nil .black 0
  | red {l r : RbTree α} {x : α} {h : Nat} (hl : Balanced l .black h) (hr : Balanced r .black h) :
      Balanced (.node .red l x r) .red h
  | black {l r : RbTree α} {x : α} {cl cr : Color} {h : Nat} (hl : Balanced l cl h) (hr : Balanced r cr h) :
      Balanced (.node .black l x r) .black (h+1)

/-- The frames around a subtree of this color and black height in a tree with a black root. -/
inductive Fits : List (Frame α) → Color → Nat → Prop
  | top {h : Nat} : Fits [] .black h
  | red {side : Side} {x : α} {t : RbTree α} {link : List (Frame α)} {h : Nat} (ht : Balanced t .black h)
      (hlink : Fits link .red h) : Fits (⟨side, .red, x, t⟩ :: link) .black h
  | black {side : Side} {x : α} {t : RbTree α} {link : List (Frame α)} {c ct : Color} {h : Nat}
      (ht : Balanced t ct h) (hlink : Fits link .black (h+1)) : Fits (⟨side, .black, x, t⟩ :: link) c h

theorem RbTree.node_ne_nil {c : Color} {l r : RbTree α} {x : α} : node c l x r ≠ .nil := nofun

theorem Frame.toList_plug_congr (f : Frame α) {t t' : RbTree α} (h : t.toList = t'.toList) :
    (f.plug t).toList = (f.plug t').toList := by
  unfold plug
  split <;> simp [RbTree.toList, h]

/-- What is plugged in counts by its entries. -/
theorem toList_plug_congr (link : List (Frame α)) {t t' : RbTree α} (h : t.toList = t'.toList) :
    (plug link t).toList = (plug link t').toList := by
  induction link generalizing t t' with
  | nil => exact h
  | cons f link ih => exact ih (f.toList_plug_congr h)

def Color.above : Color → Nat → Nat
  | .red, h => h
  | .black, h => h + 1

/-- A node of color `c` may have a child of color `cc`. -/
def Color.Over (c cc : Color) : Prop := c = .red → cc = .black

theorem balanced_node {c cl cr : Color} {l r : RbTree α} {x : α} {h : Nat} (hl : Balanced l cl h)
    (hr : Balanced r cr h) (hcl : c.Over cl) (hcr : c.Over cr) : Balanced (.node c l x r) c (c.above h) := by
  cases c with
  | red =>
    obtain rfl := hcl rfl
    obtain rfl := hcr rfl
    exact .red hl hr
  | black => exact .black hl hr

theorem Balanced.node_iff {c c' : Color} {l r : RbTree α} {x : α} {h : Nat} :
    Balanced (.node c l x r) c' h ↔
      c' = c ∧ ∃ cl cr h', h = c.above h' ∧ Balanced l cl h' ∧ Balanced r cr h' ∧ c.Over cl ∧ c.Over cr := by
  constructor
  · intro hb
    cases hb with
    | red hl hr => exact ⟨rfl, .black, .black, h, rfl, hl, hr, fun _ => rfl, fun _ => rfl⟩
    | black hl hr => exact ⟨rfl, _, _, _, rfl, hl, hr, nofun, nofun⟩
  · rintro ⟨rfl, cl, cr, h', rfl, hl, hr, hcl, hcr⟩
    exact balanced_node hl hr hcl hcr

theorem Fits.push {link : List (Frame α)} {side : Side} {c ct cs : Color} {x : α} {t : RbTree α} {h : Nat}
    (hlink : Fits link c (c.above h)) (ht : Balanced t ct h) (hct : c.Over ct) (hcs : c.Over cs) :
    Fits (⟨side, c, x, t⟩ :: link) cs h := by
  cases c with
  | red =>
    obtain rfl := hct rfl
    obtain rfl := hcs rfl
    exact .red ht hlink
  | black => exact .black ht hlink

theorem Fits.plug {link : List (Frame α)} {c : Color} {h : Nat} (hlink : Fits link c h) {t : RbTree α}
    (ht : Balanced t c h) : ∃ h', Balanced (RedBlack.plug link t) .black h' := by
  induction hlink generalizing t with
  | @top h => exact ⟨h, ht⟩
  | @red side x s link h hs _ ih =>
    cases side with
    | left => exact ih (.red ht hs)
    | right => exact ih (.red hs ht)
  | @black side x s link c cs h hs _ ih =>
    cases side with
    | left => exact ih (.black ht hs)
    | right => exact ih (.black hs ht)

/-- Of black height 0 there are the empty tree and single red nodes. -/
theorem Balanced.zero {t : RbTree α} {c : Color} (h : Balanced t c 0) :
    (t = .nil ∧ c = .black) ∨ ∃ x, t = .node .red .nil x .nil ∧ c = .red := by
  cases h with
  | nil => exact .inl ⟨rfl, rfl⟩
  | red hl hr =>
    cases hl
    cases hr
    exact .inr ⟨_, rfl, rfl⟩

theorem Balanced.succ_of_black {t : RbTree α} {h : Nat} (ht : Balanced t .black h) (hne : t ≠ .nil) :
    ∃ k, h = k + 1 := by
  cases ht with
  | nil => exact absurd rfl hne
  | black => exact ⟨_, rfl⟩

theorem Balanced.ne_nil {t : RbTree α} {c : Color} {h : Nat} (ht : Balanced t c (h+1)) : t ≠ .nil := by
  rintro rfl
  cases ht

end RedBlack
