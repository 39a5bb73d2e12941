import LinuxDrivers.Lib.RedBlack.Postorder
import LinuxDrivers.Rbtree.Insert

/-! `destroy_tree` of rbtree.c: a postorder walk that erases each node it is at. -/
namespace LinuxDrivers.Rbtree
open RedBlack

/-- An `rb_insert_color` that makes the tree a red-black tree again. -/
structure BalancingColor extends InsertColor where
  balanced_run : ∀ link new, Fits link .black 0 → ∃ h, Balanced (run link new) .black h

def BalancingColor.kernel : BalancingColor where
  toInsertColor := .kernel
  balanced_run link new h := balanced_insertColor link .nil new .nil h .nil .nil

def built (color : BalancingColor) (news : List RbData) : RbTree RbData :=
  news.foldl (insert color.toInsertColor) .nil

/-- `rbtree_postorder_for_each_entry_safe` over `rb_erase` and `kfree`: the tree left at the end and
the nodes freed. The next node is looked up before the body; `none` when the loop gets to a node
that is not in the tree any more. -/
def destroyLoop (root : RbTree RbData) (pos : Option RbData) (freed : List RbData) :
    Option (RbTree RbData × List RbData) :=
  match pos with
  | none => some (root, freed)
  | some cur =>
    if _ : cur ∈ root.toList then destroyLoop (erase cur root) (root.next cur) (freed ++ [cur])
    else none
termination_by root.toList.length
decreasing_by
  have hlength := (perm_erase ‹cur ∈ root.toList›).length_eq
  rw [List.length_cons] at hlength
  omega

theorem destroyLoop_next (cur : RbData) {root : RbTree RbData} {pos : Option RbData} (hpos : pos = some cur)
    (hcur : cur ∈ root.toList) (freed : List RbData) :
    destroyLoop root pos freed = destroyLoop (erase cur root) (root.next cur) (freed ++ [cur]) := by
  rw [hpos, destroyLoop, dif_pos hcur]

theorem destroyLoop_end {pos : Option RbData} (hpos : pos = none) (root : RbTree RbData) (freed : List RbData) :
    destroyLoop root pos freed = some (root, freed) := by
  rw [hpos, destroyLoop]

/-- `destroy_tree(root)`. It prints the root's data first, and there have to be some. -/
def destroyTree : RbTree RbData → Option (RbTree RbData × List RbData)
  | .nil => none
  | .node c l data r => destroyLoop (.node c l data r) (RbTree.node c l data r).first []

/-- The way down in `insert` ends where a red leaf fits. -/
theorem fits_descend {newKey : Int} {link link' : Link} {t : RbTree RbData} {c : Color} {h : Nat}
    (hsome : descend newKey link t = some link') (ht : Balanced t c h) (hlink : Fits link c h) :
    Fits link' .black 0 := by
  induction t generalizing link c h with
  | nil =>
    cases ht
    cases hsome
    exact hlink
  | node k l data r ihl ihr =>
    obtain ⟨rfl, cl, cr, h', rfl, hl, hr, hcl, hcr⟩ := Balanced.node_iff.mp ht
    rw [descend] at hsome
    split at hsome
    · exact ihr hsome hr (hlink.push hl hcl hcr)
    · split at hsome
      · exact ihl hsome hl (hlink.push hr hcr hcl)
      · cases hsome

theorem balanced_insert (color : BalancingColor) {root : RbTree RbData} {h : Nat} (hb : Balanced root .black h)
    (new : RbData) : ∃ h', Balanced (insert color.toInsertColor root new) .black h' := by
  unfold insert
  split
  · exact ⟨h, hb⟩
  · rename_i link hsome
    exact color.balanced_run link new (fits_descend hsome hb .top)

theorem built_balanced_ordered (color : BalancingColor) (news : List RbData) :
    (∃ h, Balanced (built color news) .black h) ∧ Ordered RbData.key (built color news) := by
  suffices hfold : ∀ root, (∃ h, Balanced root .black h) → Ordered RbData.key root →
      (∃ h, Balanced (news.foldl (insert color.toInsertColor) root) .black h) ∧
        Ordered RbData.key (news.foldl (insert color.toInsertColor) root) from
    hfold .nil ⟨0, .nil⟩ List.Pairwise.nil
  induction news with
  | nil => exact fun root hb ho => ⟨hb, ho⟩
  | cons new news ih =>
    rintro root ⟨h, hb⟩ ho
    exact ih _ (balanced_insert color hb new) (ordered_insert color.toInsertColor ho new)

/-- The loop frees nodes of the tree, each at most once, and is never at a node that is not in the
tree. It frees them all exactly when it starts at the first node of a settled tree. -/
theorem destroyLoop_spec (root : RbTree RbData) (pos : Option RbData) (freed : List RbData) :
    ∀ {c : Color} {h : Nat}, Balanced root c h → root.toList.Nodup → (∀ cur, pos = some cur → cur ∈ root.toList) →
      ∃ root' freed', destroyLoop root pos freed = some (root', freed ++ freed') ∧
        (freed' ++ root'.toList).Perm root.toList ∧
        (pos = root.first → (root' = .nil ↔ root.Settled)) ∧ (pos ≠ root.first → root' ≠ .nil) := by
  fun_induction destroyLoop root pos freed with
  | case1 root freed =>
    intro c h _ _ _
    refine ⟨root, [], by rw [List.append_nil], .refl _, ?_, ?_⟩
    · intro hfirst
      obtain rfl := RbTree.first_eq_none.mp hfirst.symm
      exact iff_of_true rfl trivial
    · exact fun hfirst hnil => hfirst (RbTree.first_eq_none.mpr hnil).symm
  | case2 root freed cur hcur ih =>
    intro c h hb hd _
    obtain ⟨c', h', hb', _⟩ := balanced_erase cur hb
    have hperm := perm_erase hcur
    have hd' := (List.nodup_cons.mp (hperm.nodup_iff.mpr hd)).2
    have hnext : ∀ next, root.next cur = some next → next ∈ (erase cur root).toList := by
      intro next hnext
      obtain ⟨hmem, hne⟩ := RbTree.next_mem hd hcur hnext
      exact List.mem_of_ne_of_mem hne (hperm.mem_iff.mpr hmem)
    obtain ⟨root', freed', hloop, hperm', hsame, hother⟩ := ih hb' hd' hnext
    refine ⟨root', cur :: freed', ?_, (hperm'.cons cur).trans hperm, ?_, ?_⟩
    · rw [hloop, List.append_assoc]
      rfl
    · intro hfirst
      obtain ⟨hgo, hleave⟩ := goesOn_erase hb hd hfirst.symm
      by_cases hpos : root.next cur = (erase cur root).first
      · exact (hsame hpos).trans (hgo hpos).symm
      · exact iff_of_false (hother hpos) (hleave hpos)
    · intro hfirst
      exact hother (next_ne_first_erase hb hd hcur (Ne.symm hfirst))
  | case3 root freed cur hcur =>
    intro c h _ _ hpos
    exact absurd (hpos cur rfl) hcur

theorem destroyTree_eq {root : RbTree RbData} (hne : root ≠ .nil) :
    destroyTree root = destroyLoop root root.first [] := by
  cases root with
  | nil => exact absurd rfl hne
  | node => rfl

/-- `destroy_tree` frees the whole tree exactly when no node off the leftmost way down has a single
child. -/
theorem destroyTree_frees_all_iff (color : BalancingColor) (news : List RbData) (hne : built color news ≠ .nil) :
    (∃ freed, destroyTree (built color news) = some (.nil, freed) ∧ freed.Perm (built color news).toList) ↔
      (built color news).Settled := by
  obtain ⟨⟨h, hb⟩, ho⟩ := built_balanced_ordered color news
  have hd : (built color news).toList.Nodup := ho.nodup
  obtain ⟨root', freed', hloop, hperm, hsame, _⟩ :=
    destroyLoop_spec (built color news) (built color news).first [] hb hd (fun _ => RbTree.first_mem)
  rw [destroyTree_eq hne, hloop, ← hsame rfl]
  constructor
  · rintro ⟨freed, heq, _⟩
    exact (Prod.mk.inj (Option.some.inj heq)).1
  · rintro rfl
    refine ⟨freed', rfl, ?_⟩
    rwa [RbTree.toList, List.append_nil] at hperm

/-- Three nodes are all freed. -/
theorem destroyTree_frees_three :
    ∃ freed, destroyTree (built .kernel [⟨1, 1⟩, ⟨2, 2⟩, ⟨3, 3⟩]) = some (.nil, freed) ∧
      freed.Perm (built .kernel [⟨1, 1⟩, ⟨2, 2⟩, ⟨3, 3⟩]).toList :=
  (destroyTree_frees_all_iff .kernel _ (by decide)).mpr (by decide)

/-- Of four nodes the second one stays: the walk goes on from 1 to 4, and the deletion of 1 has
moved 2 below 3, to where it is first. -/
theorem destroyTree_misses_second :
    destroyTree (built .kernel [⟨1, 1⟩, ⟨2, 2⟩, ⟨3, 3⟩, ⟨4, 4⟩]) =
        some (.node .black .nil ⟨2, 2⟩ .nil, [⟨1, 1⟩, ⟨4, 4⟩, ⟨3, 3⟩]) ∧
      ¬ ∃ freed, destroyTree (built .kernel [⟨1, 1⟩, ⟨2, 2⟩, ⟨3, 3⟩, ⟨4, 4⟩]) = some (.nil, freed) := by
  have hrun : destroyTree (built .kernel [⟨1, 1⟩, ⟨2, 2⟩, ⟨3, 3⟩, ⟨4, 4⟩]) =
      some (.node .black .nil ⟨2, 2⟩ .nil, [⟨1, 1⟩, ⟨4, 4⟩, ⟨3, 3⟩]) := by
    rw [destroyTree_eq (by decide), destroyLoop_next ⟨1, 1⟩ (by decide) (by decide),
      destroyLoop_next ⟨4, 4⟩ (by decide) (by decide),
      destroyLoop_next ⟨3, 3⟩ (by decide) (by decide), destroyLoop_end (by decide)]
    decide
  refine ⟨hrun, ?_⟩
  rintro ⟨freed, h⟩
  rw [hrun] at h
  cases h

end LinuxDrivers.Rbtree
