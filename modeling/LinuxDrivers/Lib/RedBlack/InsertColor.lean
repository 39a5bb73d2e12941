import LinuxDrivers.Lib.RedBlack.Tree

/-! What insertion does once the new node is linked: recolour and rotate on the way up. -/
namespace RedBlack

variable {α : Type*}

/-- The rotations around the grandparent `g`, for the red node of `l`, `x` and `r` under the red
parent `p` with a black uncle. -/
def rotate (g p : Frame α) (l : RbTree α) (x : α) (r : RbTree α) : RbTree α :=
  match g.side, p.side with
  | .left, .left => .node g.color (.node .red l x r) p.entry (.node .red p.sibling g.entry g.sibling)
  | .left, .right => .node g.color (.node .red p.sibling p.entry l) x (.node .red r g.entry g.sibling)
  | .right, .left => .node g.color (.node .red g.sibling g.entry l) x (.node .red r p.entry p.sibling)
  | .right, .right => .node g.color (.node .red g.sibling g.entry p.sibling) p.entry (.node .red l x r)

def Frame.blacken (f : Frame α) : Frame α := { f with color := .black }

def insertColor : List (Frame α) → RbTree α → α → RbTree α → RbTree α
  | [], l, x, r => .node .black l x r
  | [p], l, x, r => p.plug (.node .red l x r)
  | p :: g :: link, l, x, r =>
    if p.color = .black then plug (p :: g :: link) (.node .red l x r)
    else match g.sibling with
      | .node .red a u b =>
        -- a red uncle: both become black, and the loop goes on with the grandparent
        match g.side with
        | .left => insertColor link (p.blacken.plug (.node .red l x r)) g.entry (.node .black a u b)
        | .right => insertColor link (.node .black a u b) g.entry (p.blacken.plug (.node .red l x r))
      | _ => plug link (rotate g p l x r)

theorem toList_rotate (g p : Frame α) (l : RbTree α) (x : α) (r : RbTree α) :
    (rotate g p l x r).toList = (g.plug (p.plug (.node .red l x r))).toList := by
  unfold rotate Frame.plug
  cases g.side <;> cases p.side <;> simp [RbTree.toList]

theorem Frame.toList_plug_blacken (f : Frame α) (t : RbTree α) :
    (f.blacken.plug t).toList = (f.plug t).toList := by
  unfold Frame.plug Frame.blacken
  cases f.side <;> rfl

theorem Frame.toList_plug (f : Frame α) (t : RbTree α) :
    (f.plug t).toList = match f.side with
      | .left => t.toList ++ f.entry :: f.sibling.toList
      | .right => f.sibling.toList ++ f.entry :: t.toList := by
  unfold Frame.plug
  cases f.side <;> rfl

theorem toList_insertColor (link : List (Frame α)) (l : RbTree α) (x : α) (r : RbTree α) :
    (insertColor link l x r).toList = (plug link (.node .red l x r)).toList := by
  fun_induction insertColor link l x r with
  | case1 l x r => rfl
  | case2 p l x r => rfl
  | case3 p g link l x r h => rfl
  | case4 p g link l x r hp a u b hu hside ih =>
    rw [ih]
    apply toList_plug_congr
    simp only [g.toList_plug, hside, hu, RbTree.toList, p.toList_plug_blacken]
  | case5 p g link l x r hp a u b hu hside ih =>
    rw [ih]
    apply toList_plug_congr
    simp only [g.toList_plug, hside, hu, RbTree.toList, p.toList_plug_blacken]
  | case6 p g link l x r hp hu => exact toList_plug_congr link (toList_rotate g p l x r)

/-- A frame whose hole takes a black node, recoloured black, holds a red node as well. -/
theorem balanced_plug_black {p : Frame α} {t : RbTree α} {c cs : Color} {h : Nat} (ht : Balanced t c h)
    (hs : Balanced p.sibling cs h) : Balanced (p.blacken.plug t) .black (h+1) := by
  unfold Frame.plug Frame.blacken
  cases p.side with
  | left => exact .black ht hs
  | right => exact .black hs ht

theorem balanced_rotate {g p : Frame α} {l r : RbTree α} {x : α} {h : Nat} (hg : g.color = .black)
    (hl : Balanced l .black h) (hr : Balanced r .black h) (hp : Balanced p.sibling .black h)
    (hu : Balanced g.sibling .black h) : Balanced (rotate g p l x r) .black (h+1) := by
  unfold rotate
  rw [hg]
  cases g.side <;> cases p.side
  · exact .black (.red hl hr) (.red hp hu)
  · exact .black (.red hp hl) (.red hr hu)
  · exact .black (.red hu hl) (.red hr hp)
  · exact .black (.red hu hp) (.red hl hr)

/-- A red node linked where a black subtree fits gives a red-black tree again. -/
theorem balanced_insertColor (link : List (Frame α)) (l : RbTree α) (x : α) (r : RbTree α) :
    ∀ {h : Nat}, Fits link .black h → Balanced l .black h → Balanced r .black h →
      ∃ h', Balanced (insertColor link l x r) .black h' := by
  fun_induction insertColor link l x r with
  | case1 l x r =>
    intro h _ hl hr
    exact ⟨h+1, .black hl hr⟩
  | case2 p l x r =>
    rintro h (_ | ⟨_, ⟨⟩⟩ | ⟨ht, htop⟩) hl hr
    exact Fits.plug (.black ht htop) (.red hl hr)
  | case3 p g link l x r hp =>
    rintro h (_ | _ | ⟨ht, hlink⟩) hl hr
    · cases hp
    · exact Fits.plug (.black ht hlink) (.red hl hr)
  | case4 p g link l x r hp a u b hu hside ih =>
    rintro h (_ | ⟨hs, _ | _ | ⟨hg, hlink⟩⟩ | _) hl hr
    · obtain rfl : _ = _ := hu
      cases hg with
      | red ha hb => exact ih hlink (balanced_plug_black (.red hl hr) hs) (.black ha hb)
    · exact absurd rfl hp
  | case5 p g link l x r hp a u b hu hside ih =>
    rintro h (_ | ⟨hs, _ | _ | ⟨hg, hlink⟩⟩ | _) hl hr
    · obtain rfl : _ = _ := hu
      cases hg with
      | red ha hb => exact ih hlink (.black ha hb) (balanced_plug_black (.red hl hr) hs)
    · exact absurd rfl hp
  | case6 p g link l x r hp hu =>
    rintro h (_ | ⟨hs, _ | _ | ⟨hg, hlink⟩⟩ | _) hl hr
    · cases hg with
      | nil => exact hlink.plug (balanced_rotate rfl hl hr hs .nil)
      | black ha hb => exact hlink.plug (balanced_rotate rfl hl hr hs (.black ha hb))
      | red => exact absurd rfl (hu _ _ _)
    · exact absurd rfl hp

end RedBlack
