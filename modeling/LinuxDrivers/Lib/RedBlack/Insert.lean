import LinuxDrivers.Lib.RedBlack.Ordered

/-! Insertion at the place that comparisons lead to, over any rebalancing that keeps the order. -/
namespace RedBlack

structure Linker (α : Type*) where
  run : List (Frame α) → α → RbTree α
  toList_run : ∀ link new, (run link new).toList = (plug link (.node .red .nil new .nil)).toList

variable {α κ : Type*} [LinearOrder κ] (label : α → κ)

/-- The way down from a link: to an empty link, or to an entry with the label (`none`). -/
def seek (target : κ) : List (Frame α) → RbTree α → Option (List (Frame α))
  | link, .nil => some link
  | link, .node c l x r =>
    if target > label x then seek target (⟨.right, c, x, l⟩ :: link) r
    else if target < label x then seek target (⟨.left, c, x, r⟩ :: link) l
    else none

def insertNew (linker : Linker α) (t : RbTree α) (new : α) : RbTree α :=
  match seek label (label new) [] t with
  | none => t
  | some link => linker.run link new

variable {label}

/-- The way down ends at an empty link of the same tree, and comparisons with the label lead there. -/
theorem seek_some {target : κ} {link link' : List (Frame α)} {t : RbTree α}
    (h : seek label target link t = some link') (hlink : Directed label target link) :
    plug link' .nil = plug link t ∧ Directed label target link' := by
  induction t generalizing link with
  | nil =>
    cases h
    exact ⟨rfl, hlink⟩
  | node c l x r ihl ihr =>
    rw [seek] at h
    split at h
    · rename_i hgt
      exact ihr h (hlink.push hgt)
    · split at h
      · rename_i hlt
        exact ihl h (hlink.push hlt)
      · cases h

theorem seek_none {target : κ} {link : List (Frame α)} {t : RbTree α} (h : seek label target link t = none) :
    ∃ x ∈ t.toList, label x = target := by
  induction t generalizing link with
  | nil => cases h
  | node c l x r ihl ihr =>
    rw [seek] at h
    split at h
    · obtain ⟨y, hy, hlabel⟩ := ihr h
      exact ⟨y, List.mem_append_right _ (List.mem_cons_of_mem x hy), hlabel⟩
    · rename_i hle
      split at h
      · obtain ⟨y, hy, hlabel⟩ := ihl h
        exact ⟨y, List.mem_append_left _ hy, hlabel⟩
      · rename_i hge
        exact ⟨x, List.mem_append_right _ List.mem_cons_self, le_antisymm (not_lt.mp hge) (not_lt.mp hle)⟩

section Insert

variable (linker : Linker α) {t : RbTree α} (h : Ordered label t) (new : α)
include h

/-- Either the label is there and nothing happens, or the entry comes in at its place in order. -/
theorem insertNew_cases :
    ((∃ x ∈ t.toList, label x = label new) ∧ insertNew label linker t new = t) ∨
      ∃ smaller larger, t.toList = smaller ++ larger ∧
        (insertNew label linker t new).toList = smaller ++ new :: larger ∧
        (∀ x ∈ smaller, label x < label new) ∧ ∀ x ∈ larger, label new < label x := by
  unfold insertNew
  split
  · rename_i hnone
    exact .inl ⟨seek_none hnone, rfl⟩
  · rename_i link hsome
    obtain ⟨hplug, hdirected⟩ := seek_some hsome nofun
    obtain rfl : plug link .nil = t := hplug
    refine .inr ⟨before link, after link, toList_plug link .nil, ?_, h.before_lt hdirected, h.lt_after hdirected⟩
    rw [linker.toList_run, toList_plug]
    rfl

theorem ordered_insertNew : Ordered label (insertNew label linker t new) := by
  obtain ⟨_, hsame⟩ | ⟨smaller, larger, hroot, hinsert, hsmaller, hlarger⟩ := insertNew_cases linker h new
  · rwa [hsame]
  · rw [Ordered, hroot, List.pairwise_append] at h
    rw [Ordered, hinsert, List.pairwise_append, List.pairwise_cons]
    refine ⟨h.1, ⟨hlarger, h.2.1⟩, ?_⟩
    intro x hx y hy
    obtain rfl | hy := List.mem_cons.mp hy
    · exact hsmaller x hx
    · exact h.2.2 x hx y hy

/-- An insertion of a label that is there leaves the tree as it is. -/
theorem insertNew_of_mem (hlabel : label new ∈ t.toList.map label) : insertNew label linker t new = t := by
  obtain ⟨_, hsame⟩ | ⟨smaller, larger, hroot, _, hsmaller, hlarger⟩ := insertNew_cases linker h new
  · exact hsame
  · obtain ⟨x, hx, heq⟩ := List.mem_map.mp hlabel
    rw [hroot, List.mem_append] at hx
    rcases hx with hx | hx
    · exact absurd heq (ne_of_lt (hsmaller x hx))
    · exact absurd heq (ne_of_gt (hlarger x hx))

/-- A new label comes between the smaller ones and the larger ones. -/
theorem toList_insertNew (hlabel : label new ∉ t.toList.map label) :
    (insertNew label linker t new).toList =
      t.toList.filter (label · < label new) ++ new :: t.toList.filter (label new < label ·) := by
  obtain ⟨hmem, _⟩ | ⟨smaller, larger, hroot, hinsert, hsmaller, hlarger⟩ := insertNew_cases linker h new
  · obtain ⟨x, hx, heq⟩ := hmem
    exact absurd (List.mem_map.mpr ⟨x, hx, heq⟩) hlabel
  · have hsmall : smaller.filter (label · < label new) = smaller :=
      List.filter_eq_self.mpr fun x hx => decide_eq_true (hsmaller x hx)
    have hlarge : larger.filter (label new < label ·) = larger :=
      List.filter_eq_self.mpr fun x hx => decide_eq_true (hlarger x hx)
    have hsmall' : smaller.filter (label new < label ·) = [] := by
      refine List.filter_eq_nil_iff.mpr fun x hx => ?_
      simp [le_of_lt (hsmaller x hx)]
    have hlarge' : larger.filter (label · < label new) = [] := by
      refine List.filter_eq_nil_iff.mpr fun x hx => ?_
      simp [le_of_lt (hlarger x hx)]
    rw [hinsert, hroot, List.filter_append, List.filter_append, hsmall, hlarge, hsmall', hlarge', List.append_nil,
      List.nil_append]

theorem mem_insertNew (x : α) :
    x ∈ (insertNew label linker t new).toList ↔
      x ∈ t.toList ∨ (label new ∉ t.toList.map label ∧ x = new) := by
  by_cases hlabel : label new ∈ t.toList.map label
  · simp [insertNew_of_mem linker h new hlabel, hlabel]
  · obtain ⟨hmem, _⟩ | ⟨smaller, larger, hroot, hinsert, _⟩ := insertNew_cases linker h new
    · obtain ⟨y, hy, heq⟩ := hmem
      exact absurd (List.mem_map.mpr ⟨y, hy, heq⟩) hlabel
    · rw [hinsert, and_iff_right hlabel, hroot]
      simp only [List.mem_append, List.mem_cons]
      rw [or_assoc, @or_comm (x = new)]

end Insert

end RedBlack
