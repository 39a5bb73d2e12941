import LinuxDrivers.Lib.RedBlack.Erase

/-! The postorder walk, and what a deletion at its start does to it. -/
namespace RedBlack

variable {α : Type*}

/-- `rb_first_postorder`: down to the left where that is possible, and else to the right. -/
def RbTree.first : RbTree α → Option α
  | .nil => none
  | .node _ l x r => (l.first.or r.first).or (some x)

def RbTree.Full : RbTree α → Prop
  | .nil => True
  | .node _ l _ r => (l = .nil ↔ r = .nil) ∧ l.Full ∧ r.Full

/-- The nodes off the leftmost way down have no child or two. -/
def RbTree.Settled : RbTree α → Prop
  | .nil => True
  | .node _ l _ r => l.Settled ∧ r.Full

theorem RbTree.first_eq_none {t : RbTree α} : t.first = none ↔ t = .nil := by
  cases t <;> simp [first]

theorem RbTree.first_of_left {c : Color} {l : RbTree α} {x : α} {r : RbTree α} (hl : l ≠ .nil) :
    (node c l x r).first = l.first := by
  obtain ⟨y, hy⟩ := Option.ne_none_iff_exists'.mp (fun h => hl (first_eq_none.mp h))
  simp [first, hy]

theorem RbTree.first_mem {t : RbTree α} {x : α} (h : t.first = some x) : x ∈ t.toList := by
  induction t with
  | nil => cases h
  | node c l y r ihl ihr =>
    simp only [first, Option.or_eq_some_iff] at h
    simp only [toList, List.mem_append, List.mem_cons]
    rcases h with (hl | ⟨_, hr⟩) | ⟨_, hy⟩
    · exact .inl (ihl hl)
    · exact .inr (.inr (ihr hr))
    · exact .inr (.inl (Option.some.inj hy).symm)

theorem RbTree.ne_nil_of_mem {t : RbTree α} {x : α} (h : x ∈ t.toList) : t ≠ .nil := by
  rintro rfl
  cases h

theorem RbTree.exists_first {t : RbTree α} (ht : t ≠ .nil) : ∃ z ∈ t.toList, t.first = some z := by
  obtain ⟨z, hz⟩ := Option.ne_none_iff_exists'.mp (fun h => ht (first_eq_none.mp h))
  exact ⟨z, first_mem hz, hz⟩

theorem RbTree.exists_first_of_left {c : Color} {l : RbTree α} (hl : l ≠ .nil) (x : α) (r : RbTree α) :
    ∃ z ∈ l.toList, (node c l x r).first = some z := by
  rw [first_of_left hl]
  exact exists_first hl

/-- A repair on the right of a parent leaves what is first on the left. -/
theorem first_fixLeft {c : Color} {l : RbTree α} (hl : l ≠ .nil) (x : α) (r : RbTree α) :
    (fixLeft c l x r).1.first = l.first := by
  have hblack : ∀ c r, (fixLeftBlack c l x r).1.first = l.first := by
    intro c r
    unfold fixLeftBlack
    split <;> simp [RbTree.first_of_left, hl]
  unfold fixLeft
  split
  · rename_i sl s sr
    have hx : x ∈ (fixLeftBlack .red l x sl).1.toList := by
      rw [toList_fixLeftBlack]
      simp
    rw [RbTree.first_of_left (RbTree.ne_nil_of_mem hx), hblack]
  · exact hblack c r

theorem first_joinLeft {c : Color} {l : RbTree α × Bool} (hl : l.1 ≠ .nil) (x : α) (r : RbTree α) :
    (joinLeft c l x r).1.first = l.1.first := by
  unfold joinLeft
  split
  · exact first_fixLeft hl x r
  · exact RbTree.first_of_left hl

/-- After a repair on the left of a parent, an entry from there is still first. -/
theorem first_fixRight_mem {c cl : Color} {l : RbTree α} {h : Nat} (hl : Balanced l cl (h+1)) (x : α)
    (r : RbTree α) : ∃ z ∈ l.toList, (fixRight c l x r).1.first = some z := by
  unfold fixRight
  split
  · cases hl with
    | red hsl _ =>
      obtain ⟨z, hz, hfirst⟩ := RbTree.exists_first_of_left hsl.ne_nil _ _
      exact ⟨z, List.mem_append_left _ hz, hfirst⟩
  · unfold fixRightBlack
    split
    · rename_i a y b s sr _
      obtain ⟨z, hz, hfirst⟩ := RbTree.exists_first_of_left (c := c) (l := .node .black a y b) RbTree.node_ne_nil s
        (.node .black sr x r)
      exact ⟨z, List.mem_append_left _ hz, hfirst⟩
    · rename_i sl s a y b _ _
      obtain ⟨z, hz, hfirst⟩ := RbTree.exists_first_of_left (c := c) (l := .node .black sl s a) RbTree.node_ne_nil y
        (.node .black b x r)
      refine ⟨z, ?_, hfirst⟩
      simp only [RbTree.toList, List.mem_append, List.mem_cons] at hz ⊢
      rcases hz with hz | hz | hz
      · exact .inl hz
      · exact .inr (.inl hz)
      · exact .inr (.inr (.inl hz))
    · rename_i sl s sr _ _ _
      exact RbTree.exists_first_of_left (c := .black) (l := .node .red sl s sr) RbTree.node_ne_nil x r
    · cases hl

theorem first_joinRight_mem {c cl cr : Color} {l : RbTree α} {h : Nat} {r : RbTree α × Bool} (hl : Balanced l cl h)
    (hne : l ≠ .nil) (x : α) (hr : Shrunk cr h r) : ∃ z ∈ l.toList, (joinRight c l x r).1.first = some z := by
  unfold joinRight
  unfold Shrunk at hr
  split
  · rename_i hshort
    rw [if_pos hshort] at hr
    obtain ⟨_, h', rfl, _⟩ := hr
    exact first_fixRight_mem hl x r.1
  · exact RbTree.exists_first_of_left hne x r.1

variable [DecidableEq α]

instance RbTree.decidableFull : (t : RbTree α) → Decidable t.Full
  | .nil => inferInstanceAs (Decidable True)
  | .node _ l _ r =>
    have := decidableFull l
    have := decidableFull r
    inferInstanceAs (Decidable ((l = .nil ↔ r = .nil) ∧ l.Full ∧ r.Full))

instance RbTree.decidableSettled : (t : RbTree α) → Decidable t.Settled
  | .nil => inferInstanceAs (Decidable True)
  | .node _ l _ r =>
    have := decidableSettled l
    inferInstanceAs (Decidable (l.Settled ∧ r.Full))

/-- `rb_next_postorder`: from a left child on to the first node of its sibling, and else up. -/
def RbTree.next (x : α) : RbTree α → Option α
  | .nil => none
  | .node _ l y r =>
    if x = y then none
    else if x ∈ l.toList then
      if l.root? = some x then r.first.or (some y) else l.next x
    else if r.root? = some x then some y else r.next x

omit [DecidableEq α] in
theorem RbTree.nodup_node {c : Color} {l r : RbTree α} {y : α} (h : (node c l y r).toList.Nodup) :
    l.toList.Nodup ∧ r.toList.Nodup ∧ y ∉ l.toList ∧ y ∉ r.toList ∧ ∀ z ∈ l.toList, z ∉ r.toList := by
  rw [toList, List.nodup_append] at h
  obtain ⟨hl, hyr, hdisj⟩ := h
  rw [List.nodup_cons] at hyr
  refine ⟨hl, hyr.2, fun hy => hdisj y hy y List.mem_cons_self rfl, hyr.1, ?_⟩
  intro z hz hr
  exact hdisj z hz z (List.mem_cons_of_mem y hr) rfl

theorem RbTree.next_left {c : Color} {l r : RbTree α} {x y : α} (hne : x ≠ y) (hl : x ∈ l.toList) :
    (node c l y r).next x = if l.root? = some x then r.first.or (some y) else l.next x := by
  rw [next, if_neg hne, if_pos hl]

theorem RbTree.next_right {c : Color} {l r : RbTree α} {x y : α} (hne : x ≠ y) (hl : x ∉ l.toList) :
    (node c l y r).next x = if r.root? = some x then some y else r.next x := by
  rw [next, if_neg hne, if_neg hl]

theorem eraseShort_left {c : Color} {l r : RbTree α} {x y : α} (hne : x ≠ y) (hl : x ∈ l.toList) :
    eraseShort x (.node c l y r) = joinLeft c (eraseShort x l) y r := by
  rw [eraseShort, if_neg hne, if_pos hl]

theorem eraseShort_right {c : Color} {l r : RbTree α} {x y : α} (hne : x ≠ y) (hl : x ∉ l.toList) :
    eraseShort x (.node c l y r) = joinRight c l y (eraseShort x r) := by
  rw [eraseShort, if_neg hne, if_neg hl]

omit [DecidableEq α] in
theorem RbTree.mem_right {c : Color} {l r : RbTree α} {x y : α} (hx : x ∈ (node c l y r).toList) (hne : x ≠ y)
    (hl : x ∉ l.toList) : x ∈ r.toList := by
  simp only [toList, List.mem_append, List.mem_cons] at hx
  exact (hx.resolve_left hl).resolve_left hne

/-- The walk goes on inside the tree, and at another node. -/
theorem RbTree.next_mem {t : RbTree α} {x z : α} (hd : t.toList.Nodup) (hx : x ∈ t.toList)
    (h : t.next x = some z) : z ∈ t.toList ∧ z ≠ x := by
  induction t with
  | nil => cases hx
  | node c l y r ihl ihr =>
    obtain ⟨hdl, hdr, hyl, hyr, hlr⟩ := nodup_node hd
    simp only [toList, List.mem_append, List.mem_cons]
    by_cases hxy : x = y
    · rw [next, if_pos hxy] at h
      cases h
    · by_cases hxl : x ∈ l.toList
      · rw [next_left hxy hxl] at h
        split at h
        · rcases Option.or_eq_some_iff.mp h with hr | ⟨_, hy⟩
          · exact ⟨.inr (.inr (first_mem hr)), fun hzx => hlr x hxl (hzx ▸ first_mem hr)⟩
          · obtain rfl := Option.some.inj hy
            exact ⟨.inr (.inl rfl), Ne.symm hxy⟩
        · obtain ⟨hz, hne⟩ := ihl hdl hxl h
          exact ⟨.inl hz, hne⟩
      · rw [next_right hxy hxl] at h
        split at h
        · obtain rfl := Option.some.inj h
          exact ⟨.inr (.inl rfl), Ne.symm hxy⟩
        · obtain ⟨hz, hne⟩ := ihr hdr (mem_right hx hxy hxl) h
          exact ⟨.inr (.inr hz), hne⟩

theorem toList_of_erase_eq_nil {t : RbTree α} {x : α} (hx : x ∈ t.toList) (hnil : erase x t = .nil) :
    t.toList = [x] := by
  obtain ⟨before, after, ht, herase⟩ := toList_erase hx
  rw [hnil] at herase
  obtain ⟨rfl, rfl⟩ := List.append_eq_nil_iff.mp herase.symm
  exact ht

theorem erase_ne_nil {t : RbTree α} {x : α} (hx : x ∈ t.toList) (hfirst : t.first ≠ some x) :
    erase x t ≠ .nil := by
  intro hnil
  obtain ⟨z, hz, hzfirst⟩ := RbTree.exists_first (RbTree.ne_nil_of_mem hx)
  rw [toList_of_erase_eq_nil hx hnil] at hz
  obtain rfl := List.mem_singleton.mp hz
  exact hfirst hzfirst

theorem mem_of_mem_erase {t : RbTree α} {x z : α} (hx : x ∈ t.toList) (hz : z ∈ (erase x t).toList) :
    z ∈ t.toList := by
  obtain ⟨before, after, ht, herase⟩ := toList_erase hx
  rw [herase] at hz
  rw [ht]
  simp only [List.mem_append, List.mem_cons] at hz ⊢
  exact hz.imp_right .inr

theorem erase_ne_nil_of_root {t : RbTree α} {x : α} (hx : x ∈ t.toList) (hroot : t.root? ≠ some x) :
    erase x t ≠ .nil := by
  intro hnil
  cases t with
  | nil => cases hx
  | node c l y r =>
    have hy : y ∈ (RbTree.node c l y r).toList := List.mem_append_right _ List.mem_cons_self
    rw [toList_of_erase_eq_nil hx hnil] at hy
    exact hroot (congrArg some (List.mem_singleton.mp hy))

/-- Once the walk is not at the first node any more, it does not get back there. -/
theorem next_ne_first_erase {t : RbTree α} {c : Color} {h : Nat} (hb : Balanced t c h) (hd : t.toList.Nodup)
    {x : α} (hx : x ∈ t.toList) (hfirst : t.first ≠ some x) : t.next x ≠ (erase x t).first := by
  induction t generalizing c h with
  | nil => cases hx
  | node c l y r ihl ihr =>
    obtain ⟨rfl, cl, cr, h', rfl, hl, hr, hcl, hcr⟩ := Balanced.node_iff.mp hb
    obtain ⟨hdl, hdr, hyl, hyr, hlr⟩ := RbTree.nodup_node hd
    have hrest := erase_ne_nil hx hfirst
    by_cases hxy : x = y
    · rw [RbTree.next, if_pos hxy]
      exact fun hnone => hrest (RbTree.first_eq_none.mp hnone.symm)
    · by_cases hxl : x ∈ l.toList
      · have hfirstl : l.first ≠ some x := by rwa [← RbTree.first_of_left (RbTree.ne_nil_of_mem hxl)]
        have hrestl := erase_ne_nil hxl hfirstl
        rw [RbTree.next_left hxy hxl, erase, eraseShort_left hxy hxl, first_joinLeft hrestl]
        split
        · -- the walk leaves the left subtree, where something is left
          obtain ⟨z, hz, hzfirst⟩ := RbTree.exists_first hrestl
          have hzl := mem_of_mem_erase hxl hz
          rw [← erase, hzfirst]
          intro hor
          rcases Option.or_eq_some_iff.mp hor with hzr | ⟨_, hzy⟩
          · exact hlr z hzl (RbTree.first_mem hzr)
          · exact hyl (Option.some.inj hzy ▸ hzl)
        · exact ihl hl hdl hxl hfirstl
      · have hxr := RbTree.mem_right hx hxy hxl
        have hlne : l ≠ .nil := by
          rintro rfl
          cases hl
          obtain ⟨rfl, _⟩ | ⟨z, rfl, _⟩ := hr.zero
          · cases hxr
          · obtain rfl := List.mem_singleton.mp hxr
            exact hfirst rfl
        obtain ⟨z, hz, hzfirst⟩ := first_joinRight_mem hl hlne y (shrunk_eraseShort x hr)
        rw [RbTree.next_right hxy hxl, erase, eraseShort_right hxy hxl, hzfirst]
        split
        · exact fun hzy => hyl (Option.some.inj hzy ▸ hz)
        · exact fun hnext => hlr z hz (RbTree.next_mem hdr hxr hnext).1

omit [DecidableEq α] in
/-- Over subtrees that are not empty only the nodes below count. -/
theorem RbTree.full_node {c : Color} {l r : RbTree α} {x : α} (hl : l ≠ .nil) (hr : r ≠ .nil) :
    (node c l x r).Full ↔ l.Full ∧ r.Full := by
  simp [Full, hl, hr]

omit [DecidableEq α] in
/-- A repair above the bottom settles nothing and unsettles nothing. -/
theorem settled_fixLeftBlack (c : Color) {l r : RbTree α} (x : α) {h : Nat} (hr : Balanced r .black (h+2)) :
    (fixLeftBlack c l x r).1.Settled ↔ l.Settled ∧ r.Full := by
  cases hr with
  | black hsl hsr =>
    unfold fixLeftBlack
    split
    · rename_i heq
      obtain ⟨_, rfl, rfl, rfl⟩ := heq
      cases hsr with
      | red ha hb => simp [RbTree.Settled, RbTree.Full, hsl.ne_nil, ha.ne_nil, hb.ne_nil, and_assoc]
    · rename_i heq
      obtain ⟨_, rfl, rfl, rfl⟩ := heq
      cases hsl with
      | red ha hb => simp [RbTree.Settled, RbTree.Full, hsr.ne_nil, ha.ne_nil, hb.ne_nil, and_assoc]
    · rename_i heq
      obtain ⟨_, rfl, rfl, rfl⟩ := heq
      simp [RbTree.Settled, RbTree.Full]
    · rename_i heq
      cases heq

omit [DecidableEq α] in
theorem settled_fixLeft (c : Color) {cr : Color} {l r : RbTree α} (x : α) {h : Nat} (hr : Balanced r cr (h+2)) :
    (fixLeft c l x r).1.Settled ↔ l.Settled ∧ r.Full := by
  unfold fixLeft
  split
  · cases hr with
    | red hsl hsr =>
      rw [RbTree.Settled, settled_fixLeftBlack .red x hsl, RbTree.full_node hsl.ne_nil hsr.ne_nil, and_assoc]
  · rename_i hred
    exact settled_fixLeftBlack c x (hr.of_not_red hred)

omit [DecidableEq α] in
theorem settled_joinLeft (c : Color) {cl cr : Color} {l : RbTree α × Bool} {r : RbTree α} (x : α) {h : Nat}
    (hl : Shrunk cl h l) (hne : l.1 ≠ .nil) (hr : Balanced r cr h) :
    (joinLeft c l x r).1.Settled ↔ l.1.Settled ∧ r.Full := by
  unfold joinLeft
  unfold Shrunk at hl
  split
  · rename_i hshort
    rw [if_pos hshort] at hl
    obtain ⟨_, h', rfl, hb⟩ := hl
    obtain ⟨k, rfl⟩ := hb.succ_of_black hne
    exact settled_fixLeft c x hr
  · rfl

/-- The walk goes on at the first node of `t'`, and then `p` says whether `t'` is settled; it goes
on elsewhere, and `p` does not hold. -/
def GoesOn (next : Option α) (t' : RbTree α) (p : Prop) : Prop :=
  (next = t'.first → (p ↔ t'.Settled)) ∧ (next ≠ t'.first → ¬ p)

omit [DecidableEq α] in
/-- A black leaf on the left is gone, and its sibling is black. -/
theorem goesOn_fixLeftBlack (c : Color) {r : RbTree α} {x : α} (hx : x ∉ r.toList) (hr : Balanced r .black 1) :
    GoesOn r.first (fixLeftBlack c .nil x r).1 r.Full := by
  cases hr with
  | @black sl sr s cl cr _ hsl hsr =>
    simp only [RbTree.toList, List.mem_append, List.mem_cons, not_or] at hx
    obtain ⟨hxl, hxs, hxr⟩ := hx
    obtain ⟨rfl, _⟩ | ⟨u, rfl, _⟩ := hsl.zero
    · obtain ⟨rfl, _⟩ | ⟨v, rfl, _⟩ := hsr.zero
      · simp [GoesOn, fixLeftBlack, RbTree.first, RbTree.Full, RbTree.Settled]
      · have hvx : v ≠ x := fun h => hxr (h ▸ List.mem_singleton_self v)
        simp [GoesOn, fixLeftBlack, RbTree.first, RbTree.Full, hvx]
    · have hux : u ≠ x := fun h => hxl (h ▸ List.mem_singleton_self u)
      obtain ⟨rfl, _⟩ | ⟨v, rfl, _⟩ := hsr.zero
      · simp [GoesOn, fixLeftBlack, RbTree.first, RbTree.Full, hux]
      · simp [GoesOn, fixLeftBlack, RbTree.first, RbTree.Full, RbTree.Settled]

omit [DecidableEq α] in
theorem goesOn_fixLeft (c : Color) {cr : Color} {r : RbTree α} {x : α} (hx : x ∉ r.toList) (hr : Balanced r cr 1) :
    GoesOn r.first (fixLeft c .nil x r).1 r.Full := by
  unfold fixLeft
  split
  · rename_i sl s sr
    cases hr with
    | red hsl hsr =>
      have hxl : x ∉ sl.toList := fun h => hx (List.mem_append_left _ h)
      have hne : (fixLeftBlack .red .nil x sl).1 ≠ .nil := by
        apply RbTree.ne_nil_of_mem (x := x)
        rw [toList_fixLeftBlack]
        exact List.mem_cons_self
      have hgo := goesOn_fixLeftBlack .red hxl hsl
      rw [GoesOn, RbTree.first_of_left hne, RbTree.first_of_left hsl.ne_nil, RbTree.full_node hsl.ne_nil hsr.ne_nil,
        RbTree.Settled]
      exact ⟨fun h => and_congr_left' (hgo.1 h), fun h hp => hgo.2 h hp.1⟩
  · rename_i hred
    exact goesOn_fixLeftBlack c hx (hr.of_not_red hred)

omit [DecidableEq α] in
/-- In the first node of a tree nothing is below it. -/
theorem RbTree.first_root {c : Color} {a b : RbTree α} {x : α} (hd : (node c a x b).toList.Nodup)
    (hfirst : (node c a x b).first = some x) : a = .nil ∧ b = .nil := by
  obtain ⟨_, _, hxa, hxb, _⟩ := nodup_node hd
  simp only [first, Option.or_eq_some_iff, Option.or_eq_none_iff, first_eq_none] at hfirst
  rcases hfirst with (ha | ⟨_, hb⟩) | ⟨hnil, _⟩
  · exact absurd (first_mem ha) hxa
  · exact absurd (first_mem hb) hxb
  · exact hnil

theorem goesOn_leaf {c cl cr : Color} {x y : α} {r : RbTree α} {h : Nat}
    (hl : Balanced (.node cl .nil x .nil) cl h) (hr : Balanced r cr h) (hyr : y ∉ r.toList) :
    GoesOn (r.first.or (some y)) (joinLeft c (eraseShort x (.node cl .nil x .nil)) y r).1 r.Full := by
  rw [eraseShort, if_pos rfl, eraseRoot, joinLeft]
  cases cl with
  | red => exact ⟨fun _ => (and_iff_right trivial).symm, fun hne => absurd rfl hne⟩
  | black =>
    cases hl with
    | black hnil _ =>
      cases hnil
      obtain ⟨z, _, hz⟩ := RbTree.exists_first hr.ne_nil
      have hor : r.first.or (some y) = r.first := by rw [hz]; rfl
      rw [hor]
      exact goesOn_fixLeft c hyr hr

/-- At the first node, the walk goes on at the first node of what is left as long as no node off
the leftmost way down has a single child. -/
theorem goesOn_erase {t : RbTree α} {c : Color} {h : Nat} (hb : Balanced t c h) (hd : t.toList.Nodup)
    {x : α} (hfirst : t.first = some x) : GoesOn (t.next x) (erase x t) t.Settled := by
  induction t generalizing c h with
  | nil => cases hfirst
  | node k l y r ihl _ =>
    obtain ⟨_, cl, cr, h', rfl, hl, hr, hcl, hcr⟩ := Balanced.node_iff.mp hb
    obtain ⟨hdl, hdr, hyl, hyr, hlr⟩ := RbTree.nodup_node hd
    cases l with
    | nil =>
      cases hl
      obtain ⟨rfl, _⟩ | ⟨z, rfl, _⟩ := hr.zero
      · obtain rfl : y = x := Option.some.inj hfirst
        simp [GoesOn, RbTree.next, erase, eraseShort, eraseRoot, RbTree.first, RbTree.Settled, RbTree.Full]
      · obtain rfl : z = x := Option.some.inj hfirst
        have hzy : z ≠ y := fun h => hyr (h ▸ List.mem_singleton_self y)
        simp [GoesOn, RbTree.next, erase, eraseShort, eraseRoot, joinRight, RbTree.first, RbTree.root?, RbTree.toList,
          RbTree.Settled, RbTree.Full, hzy]
    | node cl' a w b =>
      obtain ⟨rfl, _⟩ := Balanced.node_iff.mp hl
      have hlne : RbTree.node cl a w b ≠ .nil := RbTree.node_ne_nil
      rw [RbTree.first_of_left hlne] at hfirst
      have hxl := RbTree.first_mem hfirst
      have hxy : x ≠ y := fun h => hyl (h ▸ hxl)
      rw [erase, eraseShort_left hxy hxl, RbTree.next_left hxy hxl]
      split
      · rename_i hroot
        obtain rfl : w = x := Option.some.inj hroot
        obtain ⟨rfl, rfl⟩ := RbTree.first_root hdl hfirst
        have hsettled : (RbTree.node k (.node cl .nil w .nil) y r).Settled ↔ r.Full := by
          simp [RbTree.Settled, RbTree.Full]
        rw [GoesOn, hsettled]
        exact goesOn_leaf hl hr hyr
      · rename_i hroot
        obtain ⟨hsame, hother⟩ := ihl hl hdl hfirst
        have hrest : (eraseShort x (.node cl a w b)).1 ≠ .nil := erase_ne_nil_of_root hxl hroot
        rw [GoesOn, first_joinLeft hrest, settled_joinLeft k y (shrunk_eraseShort x hl) hrest hr, RbTree.Settled]
        exact ⟨fun h => and_congr_left' (hsame h), fun h hp => hother h hp.1⟩

end RedBlack
