import Mathlib.Data.List.Nodup
import Mathlib.Order.Lattice
import LinuxDrivers.Lib.RedBlack.Tree

/-! Trees ordered by a label, and the links that comparisons with it lead to. -/
namespace RedBlack

variable {α κ : Type*}

def before : List (Frame α) → List α
  | [] => []
  | ⟨.left, _, _, _⟩ :: link => before link
  | ⟨.right, _, y, l⟩ :: link => before link ++ (l.toList ++ [y])

def after : List (Frame α) → List α
  | [] => []
  | ⟨.left, _, y, r⟩ :: link => y :: r.toList ++ after link
  | ⟨.right, _, _, _⟩ :: link => after link

theorem toList_plug (link : List (Frame α)) (t : RbTree α) :
    (plug link t).toList = before link ++ (t.toList ++ after link) := by
  induction link generalizing t with
  | nil => simp [plug, before, after]
  | cons f link ih =>
    obtain ⟨side, c, y, s⟩ := f
    rw [plug, ih]
    cases side <;> simp [Frame.plug, RbTree.toList, before, after]

theorem mem_plug (link : List (Frame α)) (c : Color) (l : RbTree α) (x : α) (r : RbTree α) :
    x ∈ (plug link (.node c l x r)).toList := by
  simp [toList_plug, RbTree.toList]

/-- Each entry is at the root of some subtree. -/
theorem exists_plug_of_mem {t : RbTree α} {x : α} (hx : x ∈ t.toList) :
    ∃ link c l r, t = plug link (.node c l x r) := by
  suffices h : ∀ link, ∃ link' c l r, plug link t = plug link' (.node c l x r) from h []
  induction t with
  | nil => cases hx
  | node c l y r ihl ihr =>
    intro link
    simp only [RbTree.toList, List.mem_append, List.mem_cons] at hx
    rcases hx with hl | rfl | hr
    · exact ihl hl (⟨.left, c, y, r⟩ :: link)
    · exact ⟨link, c, l, r, rfl⟩
    · exact ihr hr (⟨.right, c, y, l⟩ :: link)

variable [LinearOrder κ] (label : α → κ)

def Ordered (t : RbTree α) : Prop := t.toList.Pairwise fun x y => label x < label y

/-- The comparison at the frame leads to its hole. -/
def Frame.Directs (target : κ) (f : Frame α) : Prop :=
  match f.side with
  | .left => target < label f.entry
  | .right => label f.entry < target

def Directed (target : κ) (link : List (Frame α)) : Prop := ∀ f ∈ link, f.Directs label target

variable {label}

theorem Directed.push {target : κ} {f : Frame α} {link : List (Frame α)} (hf : f.Directs label target)
    (h : Directed label target link) : Directed label target (f :: link) :=
  List.forall_mem_cons.mpr ⟨hf, h⟩

theorem Ordered.unique {t : RbTree α} (h : Ordered label t) {x y : α} (hx : x ∈ t.toList) (hy : y ∈ t.toList)
    (hxy : label x = label y) : x = y := by
  have hnodup : (t.toList.map label).Nodup := List.pairwise_map.mpr (List.Pairwise.imp (fun hlt => ne_of_lt hlt) h)
  exact List.inj_on_of_nodup_map hnodup hx hy hxy

theorem Ordered.of_plug {link : List (Frame α)} {t : RbTree α} (h : Ordered label (plug link t)) :
    Ordered label t := by
  rw [Ordered, toList_plug] at h
  exact (List.pairwise_append.mp (List.pairwise_append.mp h).2.1).1

theorem Ordered.node {c : Color} {l r : RbTree α} {y : α} (h : Ordered label (.node c l y r)) :
    (∀ x ∈ l.toList, label x < label y) ∧ ∀ x ∈ r.toList, label y < label x := by
  obtain ⟨_, hyr, hl⟩ := List.pairwise_append.mp h
  exact ⟨fun x hx => hl x hx y List.mem_cons_self, (List.pairwise_cons.mp hyr).1⟩

/-- In an ordered tree, what is before a link that comparisons lead to is below the target. -/
theorem Ordered.before_lt {target : κ} {link : List (Frame α)} {t : RbTree α} (h : Ordered label (plug link t))
    (hlink : Directed label target link) : ∀ x ∈ before link, label x < target := by
  induction link generalizing t with
  | nil => nofun
  | cons f link ih =>
    obtain ⟨hf, hlink⟩ := List.forall_mem_cons.mp hlink
    have hrest := ih h hlink
    obtain ⟨_ | _, c, y, s⟩ := f
    · exact hrest
    · have hsub : Ordered label (.node c s y t) := Ordered.of_plug h
      intro x hx
      simp only [before, List.mem_append, List.mem_singleton] at hx
      rcases hx with hx | hx | rfl
      · exact hrest x hx
      · exact lt_trans (hsub.node.1 x hx) hf
      · exact hf

theorem Ordered.lt_after {target : κ} {link : List (Frame α)} {t : RbTree α} (h : Ordered label (plug link t))
    (hlink : Directed label target link) : ∀ x ∈ after link, target < label x := by
  induction link generalizing t with
  | nil => nofun
  | cons f link ih =>
    obtain ⟨hf, hlink⟩ := List.forall_mem_cons.mp hlink
    have hrest := ih h hlink
    obtain ⟨_ | _, c, y, s⟩ := f
    · have hsub : Ordered label (.node c t y s) := Ordered.of_plug h
      intro x hx
      simp only [after, List.cons_append, List.mem_cons, List.mem_append] at hx
      rcases hx with rfl | hx | hx
      · exact hf
      · exact lt_trans hf (hsub.node.2 x hx)
      · exact hrest x hx
    · exact hrest

/-- In an ordered tree, comparisons with the label of an entry lead to it. -/
theorem Ordered.directed {link : List (Frame α)} {t : RbTree α} (h : Ordered label (plug link t)) {x : α}
    (hx : x ∈ t.toList) : Directed label (label x) link := by
  induction link generalizing t with
  | nil => nofun
  | cons f link ih =>
    have hplug : x ∈ (f.plug t).toList := by
      obtain ⟨_ | _, c, y, s⟩ := f
      · exact List.mem_append_left _ hx
      · exact List.mem_append_right _ (List.mem_cons_of_mem y hx)
    refine .push ?_ (ih h hplug)
    obtain ⟨_ | _, c, y, s⟩ := f
    · have hsub : Ordered label (.node c t y s) := Ordered.of_plug h
      exact hsub.node.1 x hx
    · have hsub : Ordered label (.node c s y t) := Ordered.of_plug h
      exact hsub.node.2 x hx

theorem Ordered.find?_eq_some {t : RbTree α} (h : Ordered label t) {target : κ} {x : α} :
    t.toList.find? (fun y => label y = target) = some x ↔ x ∈ t.toList ∧ label x = target := by
  have hmem : ∀ y, t.toList.find? (fun y => label y = target) = some y → y ∈ t.toList ∧ label y = target := by
    intro y hfind
    have htarget := List.find?_some hfind
    exact ⟨List.mem_of_find?_eq_some hfind, of_decide_eq_true htarget⟩
  constructor
  · exact hmem x
  · rintro ⟨hx, htarget⟩
    have hsome : (t.toList.find? (fun y => label y = target)).isSome :=
      List.find?_isSome.mpr ⟨x, hx, by simpa using htarget⟩
    obtain ⟨y, hfind⟩ := Option.isSome_iff_exists.mp hsome
    obtain ⟨hy, hytarget⟩ := hmem y hfind
    rw [hfind, h.unique hy hx (hytarget.trans htarget.symm)]

end RedBlack
