import LinuxDrivers.Lib.RedBlack.Tree

/-! Deletion: the node is taken out, and the way back up repairs the black heights. A subtree that
comes back short has lost one black node on every way down. -/
namespace RedBlack

variable {α : Type*}

def fixLeftBlack (c : Color) (l : RbTree α) (x : α) (r : RbTree α) : RbTree α × Bool :=
  match r with
  | .node _ sl s (.node .red a y b) => (.node c (.node .black l x sl) s (.node .black a y b), false)
  | .node _ (.node .red a y b) s sr => (.node c (.node .black l x a) y (.node .black b s sr), false)
  | .node _ sl s sr => (.node .black l x (.node .red sl s sr), decide (c = .black))
  | .nil => (.node c l x .nil, false)

/-- A pass of `rb_erase_color` at a parent whose left subtree is short. A red sibling is rotated
above the parent first. -/
def fixLeft (c : Color) (l : RbTree α) (x : α) (r : RbTree α) : RbTree α × Bool :=
  match r with
  | .node .red sl s sr => (.node c (fixLeftBlack .red l x sl).1 s sr, false)
  | r => fixLeftBlack c l x r

def fixRightBlack (c : Color) (l : RbTree α) (x : α) (r : RbTree α) : RbTree α × Bool :=
  match l with
  | .node _ (.node .red a y b) s sr => (.node c (.node .black a y b) s (.node .black sr x r), false)
  | .node _ sl s (.node .red a y b) => (.node c (.node .black sl s a) y (.node .black b x r), false)
  | .node _ sl s sr => (.node .black (.node .red sl s sr) x r, decide (c = .black))
  | .nil => (.node c .nil x r, false)

def fixRight (c : Color) (l : RbTree α) (x : α) (r : RbTree α) : RbTree α × Bool :=
  match l with
  | .node .red sl s sr => (.node c sl s (fixRightBlack .red sr x r).1, false)
  | l => fixRightBlack c l x r

def joinLeft (c : Color) (l : RbTree α × Bool) (x : α) (r : RbTree α) : RbTree α × Bool :=
  if l.2 then fixLeft c l.1 x r else (.node c l.1 x r, false)

def joinRight (c : Color) (l : RbTree α) (x : α) (r : RbTree α × Bool) : RbTree α × Bool :=
  if r.2 then fixRight c l x r.1 else (.node c l x r.1, false)

def eraseMin (c : Color) : RbTree α → α → RbTree α → α × RbTree α × Bool
  | .nil, x, .nil => (x, .nil, decide (c = .black))
  | .nil, x, .node _ a y b => (x, .node .black a y b, false)
  | .node cl a y b, x, r =>
    let (first, l) := eraseMin cl a y b
    (first, joinLeft c l x r)

/-- A node without its entry: its child takes its place and color, or the next entry does. -/
def eraseRoot (c : Color) (l r : RbTree α) : RbTree α × Bool :=
  match l, r with
  | .nil, .nil => (.nil, decide (c = .black))
  | .nil, .node _ a y b => (.node c a y b, false)
  | .node _ a y b, .nil => (.node c a y b, false)
  | l, .node cr a y b =>
    let (next, r) := eraseMin cr a y b
    joinRight c l next r

theorem toList_fixLeftBlack (c : Color) (l : RbTree α) (x : α) (r : RbTree α) :
    (fixLeftBlack c l x r).1.toList = l.toList ++ x :: r.toList := by
  unfold fixLeftBlack
  split <;> simp [RbTree.toList]

theorem toList_fixLeft (c : Color) (l : RbTree α) (x : α) (r : RbTree α) :
    (fixLeft c l x r).1.toList = l.toList ++ x :: r.toList := by
  unfold fixLeft
  split
  · simp [RbTree.toList, toList_fixLeftBlack]
  · exact toList_fixLeftBlack c l x r

theorem toList_fixRightBlack (c : Color) (l : RbTree α) (x : α) (r : RbTree α) :
    (fixRightBlack c l x r).1.toList = l.toList ++ x :: r.toList := by
  unfold fixRightBlack
  split <;> simp [RbTree.toList]

theorem toList_fixRight (c : Color) (l : RbTree α) (x : α) (r : RbTree α) :
    (fixRight c l x r).1.toList = l.toList ++ x :: r.toList := by
  unfold fixRight
  split
  · simp [RbTree.toList, toList_fixRightBlack]
  · exact toList_fixRightBlack c l x r

@[simp] theorem toList_joinLeft (c : Color) (l : RbTree α × Bool) (x : α) (r : RbTree α) :
    (joinLeft c l x r).1.toList = l.1.toList ++ x :: r.toList := by
  unfold joinLeft
  split
  · exact toList_fixLeft c l.1 x r
  · rfl

@[simp] theorem toList_joinRight (c : Color) (l : RbTree α) (x : α) (r : RbTree α × Bool) :
    (joinRight c l x r).1.toList = l.toList ++ x :: r.1.toList := by
  unfold joinRight
  split
  · exact toList_fixRight c l x r.1
  · rfl

theorem toList_eraseMin (c : Color) (l : RbTree α) (x : α) (r : RbTree α) :
    (eraseMin c l x r).1 :: (eraseMin c l x r).2.1.toList = l.toList ++ x :: r.toList := by
  fun_induction eraseMin c l x r with
  | case1 => rfl
  | case2 => rfl
  | case3 c cl a y b x r first l hmin ih =>
    simp only [toList_joinLeft]
    rw [hmin] at ih
    rw [RbTree.toList, ← ih]
    rfl

theorem toList_eraseRoot (c : Color) (l r : RbTree α) : (eraseRoot c l r).1.toList = l.toList ++ r.toList := by
  unfold eraseRoot
  split
  · rfl
  · rfl
  · simp [RbTree.toList]
  · rename_i cr a y b _
    rw [toList_joinRight, toList_eraseMin]
    rfl

/-- A deletion within a subtree of this color and black height: the height is kept and no red root
appears where there was none, or a black root and one of the height are lost. -/
def Shrunk (c : Color) (h : Nat) (p : RbTree α × Bool) : Prop :=
  if p.2 then c = .black ∧ ∃ h', h = h' + 1 ∧ Balanced p.1 .black h'
  else ∃ c', Balanced p.1 c' h ∧ (c = .black → c' = .black)

theorem Shrunk.kept {c : Color} {h : Nat} {t : RbTree α} (ht : Balanced t c h) : Shrunk c h (t, false) :=
  ⟨c, ht, id⟩

theorem Balanced.of_not_red {t : RbTree α} {c : Color} {h : Nat} (ht : Balanced t c h)
    (hred : ∀ l x r, t = .node .red l x r → False) : Balanced t .black h := by
  cases ht with
  | nil => exact .nil
  | red => exact (hred _ _ _ rfl).elim
  | black hl hr => exact .black hl hr

theorem shrunk_fixLeftBlack {c : Color} {l r : RbTree α} {x : α} {h : Nat} (hl : Balanced l .black h)
    (hr : Balanced r .black (h+1)) : Shrunk c (c.above (h+1)) (fixLeftBlack c l x r) := by
  cases hr with
  | black hsl hsr =>
    unfold fixLeftBlack
    split
    · rename_i heq
      obtain ⟨_, rfl, rfl, rfl⟩ := heq
      cases hsr with
      | red ha hb => exact .kept (balanced_node (.black hl hsl) (.black ha hb) (fun _ => rfl) (fun _ => rfl))
    · rename_i heq
      obtain ⟨_, rfl, rfl, rfl⟩ := heq
      cases hsl with
      | red ha hb => exact .kept (balanced_node (.black hl ha) (.black hb hsr) (fun _ => rfl) (fun _ => rfl))
    · rename_i hnsr hnsl heq
      obtain ⟨_, rfl, rfl, rfl⟩ := heq
      have hlow := fun s => Balanced.red (x := s) (hsl.of_not_red hnsl) (hsr.of_not_red hnsr)
      cases c with
      | red => exact ⟨.black, .black hl (hlow _), nofun⟩
      | black => exact ⟨rfl, h+1, rfl, .black hl (hlow _)⟩
    · rename_i heq
      cases heq

/-- Below a red root nothing becomes short. -/
theorem Shrunk.of_red {h : Nat} {p : RbTree α × Bool} (hp : Shrunk .red h p) : ∃ c', Balanced p.1 c' h := by
  unfold Shrunk at hp
  split at hp
  · cases hp.1
  · obtain ⟨c', hb, _⟩ := hp
    exact ⟨c', hb⟩

theorem shrunk_fixLeft {c cr : Color} {l r : RbTree α} {x : α} {h : Nat} (hl : Balanced l .black h)
    (hr : Balanced r cr (h+1)) (hc : c.Over cr) : Shrunk c (c.above (h+1)) (fixLeft c l x r) := by
  unfold fixLeft
  split
  · cases hr with
    | red hsl hsr =>
      -- a red sibling has black children and a black parent
      obtain ⟨c', hb⟩ := (shrunk_fixLeftBlack (c := .red) (x := x) hl hsl).of_red
      cases c with
      | red => cases hc rfl
      | black => exact .kept (.black hb hsr)
  · rename_i hred
    exact shrunk_fixLeftBlack hl (hr.of_not_red hred)

def RbTree.mirror : RbTree α → RbTree α
  | .nil => .nil
  | .node c l x r => .node c r.mirror x l.mirror

theorem RbTree.mirror_mirror (t : RbTree α) : t.mirror.mirror = t := by
  induction t with
  | nil => rfl
  | node c l x r ihl ihr => rw [mirror, mirror, ihl, ihr]

theorem Balanced.mirror {t : RbTree α} {c : Color} {h : Nat} (ht : Balanced t c h) : Balanced t.mirror c h := by
  induction ht with
  | nil => exact .nil
  | red _ _ ihl ihr => exact .red ihr ihl
  | black _ _ ihl ihr => exact .black ihr ihl

theorem Shrunk.mirror {c : Color} {h : Nat} {p : RbTree α × Bool} (hp : Shrunk c h p) :
    Shrunk c h (p.1.mirror, p.2) := by
  unfold Shrunk at hp ⊢
  dsimp only
  split
  · rename_i hshort
    rw [if_pos hshort] at hp
    obtain ⟨hc, h', heq, hb⟩ := hp
    exact ⟨hc, h', heq, hb.mirror⟩
  · rename_i hshort
    rw [if_neg hshort] at hp
    obtain ⟨c', hb, hc⟩ := hp
    exact ⟨c', hb.mirror, hc⟩

/-- The repair of a right subtree is the one of a left subtree in the mirror. -/
theorem fixRightBlack_eq_mirror (c : Color) (l : RbTree α) (x : α) (r : RbTree α) :
    fixRightBlack c l x r =
      ((fixLeftBlack c r.mirror x l.mirror).1.mirror, (fixLeftBlack c r.mirror x l.mirror).2) := by
  rcases l with _ | ⟨cs, _ | ⟨_ | _, _, _, _⟩, s, _ | ⟨_ | _, _, _, _⟩⟩ <;>
    simp [fixRightBlack, fixLeftBlack, RbTree.mirror, RbTree.mirror_mirror]

theorem fixRight_eq_mirror (c : Color) (l : RbTree α) (x : α) (r : RbTree α) :
    fixRight c l x r = ((fixLeft c r.mirror x l.mirror).1.mirror, (fixLeft c r.mirror x l.mirror).2) := by
  rcases l with _ | ⟨_ | _, sl, s, sr⟩ <;>
    simp [fixRight, fixLeft, RbTree.mirror, RbTree.mirror_mirror, fixRightBlack_eq_mirror]

theorem shrunk_fixRight {c cl : Color} {l r : RbTree α} {x : α} {h : Nat} (hl : Balanced l cl (h+1))
    (hr : Balanced r .black h) (hc : c.Over cl) : Shrunk c (c.above (h+1)) (fixRight c l x r) := by
  rw [fixRight_eq_mirror]
  exact (shrunk_fixLeft hr.mirror hl.mirror hc).mirror

/-- Back at a parent, the subtree that was changed decides. -/
theorem shrunk_joinLeft {c cl cr : Color} {l : RbTree α × Bool} {x : α} {r : RbTree α} {h : Nat}
    (hl : Shrunk cl h l) (hr : Balanced r cr h) (hcl : c.Over cl) (hcr : c.Over cr) :
    Shrunk c (c.above h) (joinLeft c l x r) := by
  unfold joinLeft
  unfold Shrunk at hl
  split
  · rename_i hshort
    rw [if_pos hshort] at hl
    obtain ⟨_, h', rfl, hb⟩ := hl
    exact shrunk_fixLeft hb hr hcr
  · rename_i hshort
    rw [if_neg hshort] at hl
    obtain ⟨c', hb, hc'⟩ := hl
    exact .kept (balanced_node hb hr (fun hred => hc' (hcl hred)) hcr)

theorem shrunk_joinRight {c cl cr : Color} {l : RbTree α} {x : α} {r : RbTree α × Bool} {h : Nat}
    (hl : Balanced l cl h) (hr : Shrunk cr h r) (hcl : c.Over cl) (hcr : c.Over cr) :
    Shrunk c (c.above h) (joinRight c l x r) := by
  unfold joinRight
  unfold Shrunk at hr
  split
  · rename_i hshort
    rw [if_pos hshort] at hr
    obtain ⟨_, h', rfl, hb⟩ := hr
    exact shrunk_fixRight hl hb hcl
  · rename_i hshort
    rw [if_neg hshort] at hr
    obtain ⟨c', hb, hc'⟩ := hr
    exact .kept (balanced_node hl hb hcl (fun hred => hc' (hcr hred)))

/-- A leaf that goes leaves a short tree when it was black. -/
theorem shrunk_nil {c : Color} {x : α} {h : Nat} (hb : Balanced (.node c .nil x .nil) c h) :
    Shrunk c h ((.nil : RbTree α), decide (c = .black)) := by
  cases hb with
  | red hl _ =>
    cases hl
    exact ⟨.black, .nil, nofun⟩
  | black hl _ =>
    cases hl
    exact ⟨rfl, 0, rfl, .nil⟩

/-- An only child is a red leaf below a black node. -/
theorem Balanced.only_right {c cr : Color} {a b : RbTree α} {x y : α} {h : Nat}
    (hb : Balanced (.node c .nil x (.node cr a y b)) c h) :
    c = .black ∧ h = 1 ∧ cr = .red ∧ a = .nil ∧ b = .nil := by
  cases hb with
  | red hl hr =>
    cases hl
    obtain ⟨h, _⟩ | ⟨_, _, h⟩ := hr.zero <;> cases h
  | black hl hr =>
    cases hl
    obtain ⟨h, _⟩ | ⟨_, h, _⟩ := hr.zero <;> cases h
    exact ⟨rfl, rfl, rfl, rfl, rfl⟩

theorem Balanced.only_left {c cl : Color} {a b : RbTree α} {x y : α} {h : Nat}
    (hb : Balanced (.node c (.node cl a y b) x .nil) c h) :
    c = .black ∧ h = 1 ∧ cl = .red ∧ a = .nil ∧ b = .nil := by
  obtain ⟨hc, hh, hcl, hb', ha⟩ := hb.mirror.only_right
  rw [← RbTree.mirror_mirror a, ← RbTree.mirror_mirror b, ha, hb']
  exact ⟨hc, hh, hcl, rfl, rfl⟩

theorem shrunk_eraseMin {c : Color} {l r : RbTree α} {x : α} {h : Nat} (hb : Balanced (.node c l x r) c h) :
    Shrunk c h (eraseMin c l x r).2 := by
  fun_induction eraseMin c l x r generalizing h with
  | case1 c x => exact shrunk_nil hb
  | case2 c x cr a y b =>
    obtain ⟨rfl, rfl, rfl, rfl, rfl⟩ := hb.only_right
    exact .kept (.black .nil .nil)
  | case3 c cl a y b x r first l hmin ih =>
    obtain ⟨_, cl', cr, h', rfl, hl, hr, hcl, hcr⟩ := Balanced.node_iff.mp hb
    obtain rfl := (Balanced.node_iff.mp hl).1
    have hshrunk := ih hl
    rw [hmin] at hshrunk
    exact shrunk_joinLeft hshrunk hr hcl hcr

theorem shrunk_eraseRoot {c : Color} {l r : RbTree α} {x : α} {h : Nat} (hb : Balanced (.node c l x r) c h) :
    Shrunk c h (eraseRoot c l r) := by
  unfold eraseRoot
  split
  · exact shrunk_nil hb
  · obtain ⟨rfl, rfl, rfl, rfl, rfl⟩ := hb.only_right
    exact .kept (.black .nil .nil)
  · obtain ⟨rfl, rfl, rfl, rfl, rfl⟩ := hb.only_left
    exact .kept (.black .nil .nil)
  · obtain ⟨_, cl, cr', h', rfl, hl, hr, hcl, hcr⟩ := Balanced.node_iff.mp hb
    obtain rfl := (Balanced.node_iff.mp hr).1
    exact shrunk_joinRight hl (shrunk_eraseMin hr) hcl hcr

variable [DecidableEq α]

def eraseShort (x : α) : RbTree α → RbTree α × Bool
  | .nil => (.nil, false)
  | .node c l y r =>
    if x = y then eraseRoot c l r
    else if x ∈ l.toList then joinLeft c (eraseShort x l) y r
    else joinRight c l y (eraseShort x r)

def erase (x : α) (t : RbTree α) : RbTree α := (eraseShort x t).1

theorem shrunk_eraseShort (x : α) {t : RbTree α} {c : Color} {h : Nat} (hb : Balanced t c h) :
    Shrunk c h (eraseShort x t) := by
  induction t generalizing c h with
  | nil =>
    cases hb
    exact .kept .nil
  | node k l y r ihl ihr =>
    obtain ⟨rfl, cl, cr, h', rfl, hl, hr, hcl, hcr⟩ := Balanced.node_iff.mp hb
    rw [eraseShort]
    split
    · exact shrunk_eraseRoot hb
    · split
      · exact shrunk_joinLeft (ihl hl) hr hcl hcr
      · exact shrunk_joinRight hl (ihr hr) hcl hcr

/-- Deletion leaves a red-black tree. -/
theorem balanced_erase (x : α) {t : RbTree α} {c : Color} {h : Nat} (hb : Balanced t c h) :
    ∃ c' h', Balanced (erase x t) c' h' ∧ (c = .black → c' = .black) := by
  have hshrunk := shrunk_eraseShort x hb
  unfold Shrunk at hshrunk
  split at hshrunk
  · obtain ⟨_, h', _, hb'⟩ := hshrunk
    exact ⟨.black, h', hb', fun _ => rfl⟩
  · obtain ⟨c', hb', hc⟩ := hshrunk
    exact ⟨c', h, hb', hc⟩

/-- Exactly one occurrence of the entry is taken out. -/
theorem toList_erase {x : α} {t : RbTree α} (hx : x ∈ t.toList) :
    ∃ before after, t.toList = before ++ x :: after ∧ (erase x t).toList = before ++ after := by
  unfold erase
  induction t with
  | nil => cases hx
  | node c l y r ihl ihr =>
    rw [eraseShort]
    split
    · rename_i heq
      subst heq
      exact ⟨l.toList, r.toList, rfl, toList_eraseRoot c l r⟩
    · rename_i hne
      split
      · rename_i hl
        obtain ⟨before, after, ht, herase⟩ := ihl hl
        refine ⟨before, after ++ y :: r.toList, ?_, ?_⟩
        · rw [RbTree.toList, ht]
          simp
        · rw [toList_joinLeft, herase]
          simp
      · rename_i hl
        have hr : x ∈ r.toList := by
          simp only [RbTree.toList, List.mem_append, List.mem_cons] at hx
          rcases hx with hx | rfl | hx
          · exact absurd hx hl
          · exact absurd rfl hne
          · exact hx
        obtain ⟨before, after, ht, herase⟩ := ihr hr
        refine ⟨l.toList ++ y :: before, after, ?_, ?_⟩
        · rw [RbTree.toList, ht]
          simp
        · rw [toList_joinRight, herase]
          simp

theorem perm_erase {x : α} {t : RbTree α} (hx : x ∈ t.toList) : (x :: (erase x t).toList).Perm t.toList := by
  obtain ⟨before, after, ht, herase⟩ := toList_erase hx
  rw [ht, herase]
  exact List.perm_middle.symm

end RedBlack
