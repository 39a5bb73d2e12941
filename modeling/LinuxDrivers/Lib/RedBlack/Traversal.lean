import LinuxDrivers.Lib.Halting
import LinuxDrivers.Lib.RedBlack.Postorder

/-! The postorder walk over a tree that nobody changes meanwhile. -/
namespace RedBlack
open Halting

variable {α : Type*}

def RbTree.postorder : RbTree α → List α
  | .nil => []
  | .node _ l x r => l.postorder ++ r.postorder ++ [x]

theorem RbTree.postorder_perm (t : RbTree α) : t.postorder.Perm t.toList := by
  induction t with
  | nil => exact .refl _
  | node c l x r ihl ihr =>
    rw [postorder, toList, List.append_assoc]
    exact ihl.append ((ihr.append_right [x]).trans List.perm_append_comm)

theorem RbTree.mem_postorder {t : RbTree α} {x : α} : x ∈ t.postorder ↔ x ∈ t.toList :=
  t.postorder_perm.mem_iff

theorem RbTree.postorder_root? (t : RbTree α) : t.postorder.getLast? = t.root? := by
  cases t with
  | nil => rfl
  | node c l x r => rw [postorder, List.getLast?_concat, root?]

theorem RbTree.first_eq_head? (t : RbTree α) : t.first = t.postorder.head? := by
  induction t with
  | nil => rfl
  | node c l x r ihl ihr => rw [first, ihl, ihr, postorder, List.head?_append, List.head?_append, List.head?_cons]

variable [DecidableEq α]

theorem RbTree.exists_postorder_next {t : RbTree α} (hd : t.toList.Nodup) {x : α} (hx : x ∈ t.toList) :
    ∃ pre post, t.postorder = pre ++ x :: post ∧ t.next x = post.head? := by
  -- the root of a subtree comes last in its listing, and from there the walk leaves the subtree
  have hroot : ∀ {s : RbTree α} {pre post : List α}, s.toList.Nodup → s.postorder = pre ++ x :: post →
      (s.root? = some x ↔ post = []) := by
    intro s pre post hs hpost
    rw [← s.postorder_root?, hpost, List.getLast?_append, List.getLast?_cons, Option.some_or]
    constructor
    · intro hlast
      by_contra hne
      obtain ⟨z, hz⟩ := Option.ne_none_iff_exists'.mp (fun h => hne (List.getLast?_eq_none_iff.mp h))
      rw [hz, Option.getD_some, Option.some.injEq] at hlast
      have hmem : x ∈ post := hlast ▸ List.mem_of_getLast? hz
      have hnodup := s.postorder_perm.nodup_iff.mpr hs
      rw [hpost, List.nodup_append, List.nodup_cons] at hnodup
      exact hnodup.2.1.1 hmem
    · rintro rfl
      rfl
  induction t with
  | nil => cases hx
  | node c l y r ihl ihr =>
    obtain ⟨hdl, hdr, _⟩ := nodup_node hd
    by_cases hy : x = y
    · subst hy
      exact ⟨l.postorder ++ r.postorder, [], rfl, by rw [next, if_pos rfl, List.head?_nil]⟩
    · by_cases hl : x ∈ l.toList
      · obtain ⟨pre, post, hpost, hnext⟩ := ihl hdl hl
        refine ⟨pre, post ++ (r.postorder ++ [y]), by rw [postorder, hpost]; simp, ?_⟩
        rw [next_left hy hl, r.first_eq_head?, hnext, List.head?_append, List.head?_append, List.head?_cons]
        by_cases hlast : post = []
        · rw [if_pos ((hroot hdl hpost).mpr hlast), hlast, List.head?_nil, Option.none_or]
        · obtain ⟨z, zs, rfl⟩ := List.exists_cons_of_ne_nil hlast
          rw [if_neg (fun h => hlast ((hroot hdl hpost).mp h)), List.head?_cons, Option.some_or]
      · obtain ⟨pre, post, hpost, hnext⟩ := ihr hdr (mem_right hx hy hl)
        refine ⟨l.postorder ++ pre, post ++ [y], by rw [postorder, hpost]; simp, ?_⟩
        rw [next_right hy hl, hnext, List.head?_append, List.head?_cons]
        by_cases hlast : post = []
        · rw [if_pos ((hroot hdr hpost).mpr hlast), hlast, List.head?_nil, Option.none_or]
        · obtain ⟨z, zs, rfl⟩ := List.exists_cons_of_ne_nil hlast
          rw [if_neg (fun h => hlast ((hroot hdr hpost).mp h)), List.head?_cons, Option.some_or]

/-- The next node is the one behind in the listing. -/
theorem RbTree.next_eq {t : RbTree α} (hd : t.toList.Nodup) {pre post : List α} {x : α}
    (h : t.postorder = pre ++ x :: post) : t.next x = post.head? := by
  have hnodup := t.postorder_perm.nodup_iff.mpr hd
  have hx : x ∈ t.toList := mem_postorder.mp (by rw [h]; simp)
  obtain ⟨pre', post', h', hnext⟩ := exists_postorder_next hd hx
  rw [h, List.nodup_append, List.nodup_cons] at hnodup
  obtain ⟨_, ⟨hpost, _⟩, hpre⟩ := hnodup
  have hsplit := (List.append_cons_inj_of_notMem (fun hmem => hpre x hmem x List.mem_cons_self rfl) hpost).mp
    (h.symm.trans h')
  rw [hnext, hsplit.2.2]

def RbTree.walk (t : RbTree α) : Option α × List α → Option (Option α × List α)
  | (none, _) => none
  | (some cur, seen) => some (t.next cur, seen ++ [cur])

/-- From its first node the walk comes to each entry once, in postorder, and then ends. -/
theorem RbTree.walk_passes {t : RbTree α} (hd : t.toList.Nodup) :
    ∃ ps, Passes t.walk (t.first, []) ps (none, t.postorder) ∧ ps.map Prod.fst = t.postorder.map some := by
  have hwalk : ∀ post pre, t.postorder = pre ++ post →
      ∃ ps, Passes t.walk (post.head?, pre) ps (none, t.postorder) ∧ ps.map Prod.fst = post.map some := by
    intro post
    induction post with
    | nil =>
      intro pre h
      rw [List.append_nil] at h
      exact ⟨[], h ▸ .stop rfl, rfl⟩
    | cons x post ih =>
      intro pre h
      obtain ⟨ps, hps, hmap⟩ := ih (pre ++ [x]) (by rw [h, List.append_assoc]; rfl)
      refine ⟨(some x, pre) :: ps, .pass ?_ hps, by rw [List.map_cons, hmap, List.map_cons]⟩
      rw [List.head?_cons, walk, next_eq hd h]
  rw [t.first_eq_head?]
  exact hwalk t.postorder [] rfl

end RedBlack
