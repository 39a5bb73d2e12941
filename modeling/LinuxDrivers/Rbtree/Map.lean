import LinuxDrivers.Lib.RedBlack.Traversal
import LinuxDrivers.Rbtree.Search

/-! The tree of rbtree.c as a map from keys to values, which is what `insert`, `rb_replace_node` and
`rb_erase` are used for, and `dump_tree`, which prints it. -/
namespace LinuxDrivers.Rbtree
open RedBlack Runs Halting

def lookup (root : RbTree RbData) (key : Int) : Option Int :=
  (root.toList.find? (fun data => data.key = key)).map RbData.val

/-- What an operation means for the map: the first value of a key stays until it is replaced, and only
an entry that is there is replaced or erased. -/
def mapStep (m : Int → Option Int) : Op → Option (Int → Option Int)
  | .insert _ new => some (if (m new.key).isSome then m else Function.update m new.key (some new.val))
  | .replace victim val =>
    if m victim.key = some victim.val then some (Function.update m victim.key (some val)) else none
  | .erase _ victim =>
    if m victim.key = some victim.val then some (Function.update m victim.key none) else none

/-- `dump_tree(root, str)`: it prints the data of the root, which has to be there, and then those of the
walk. -/
def DumpsTree (root : RbTree RbData) (printed : List RbData) : Prop :=
  ∃ data ps seen, root.root? = some data ∧ Passes root.walk (root.first, []) ps (none, seen) ∧
    printed = data :: seen

section Lookup

variable {root : RbTree RbData} {data victim : RbData} {key val : Int}

theorem lookup_eq_some (h : Ordered RbData.key root) :
    lookup root key = some val ↔ (⟨key, val⟩ : RbData) ∈ root.toList := by
  rw [lookup, Option.map_eq_some_iff]
  constructor
  · rintro ⟨data, hfind, rfl⟩
    obtain ⟨hmem, rfl⟩ := h.find?_eq_some.mp hfind
    exact hmem
  · intro hmem
    exact ⟨⟨key, val⟩, h.find?_eq_some.mpr ⟨hmem, rfl⟩, rfl⟩

theorem lookup_isSome : (lookup root key).isSome ↔ key ∈ root.toList.map RbData.key := by
  rw [lookup, Option.isSome_map, List.find?_isSome, List.mem_map]
  simp

theorem mem_iff_lookup (h : Ordered RbData.key root) : data ∈ root.toList ↔ lookup root data.key = some data.val :=
  (lookup_eq_some h).symm

theorem lookup_insert (color : InsertColor) (h : Ordered RbData.key root) (new : RbData) :
    lookup (insert color root new) =
      if (lookup root new.key).isSome then lookup root else Function.update (lookup root) new.key (some new.val) := by
  funext key
  apply Option.ext
  intro val
  rw [lookup_eq_some (ordered_insert color h new), mem_insert color h, ← lookup_isSome, ← lookup_eq_some h]
  by_cases hsome : (lookup root new.key).isSome
  · rw [if_pos hsome, or_iff_left (fun hn => hn.1 hsome)]
  · rw [if_neg hsome, and_iff_right hsome]
    by_cases hkey : key = new.key
    · subst hkey
      rw [Function.update_self, Option.not_isSome_iff_eq_none.mp hsome, Option.some.injEq]
      constructor
      · rintro (hnone | heq)
        · cases hnone
        · exact (congrArg RbData.val heq).symm
      · rintro rfl
        exact .inr rfl
    · rw [Function.update_of_ne hkey, or_iff_left]
      rintro rfl
      exact hkey rfl

theorem lookup_replaceNode (h : Ordered RbData.key root) (hv : victim ∈ root.toList) (val : Int) :
    lookup (replaceNode victim ⟨victim.key, val⟩ root) = Function.update (lookup root) victim.key (some val) := by
  funext key
  apply Option.ext
  intro v
  rw [lookup_eq_some (ordered_replaceNode h victim val), toList_replaceNode, List.mem_map]
  by_cases hkey : key = victim.key
  · subst hkey
    rw [Function.update_self, Option.some.injEq]
    constructor
    · rintro ⟨data, hdata, heq⟩
      split at heq
      · exact congrArg RbData.val heq
      · rename_i hne
        have hsame : data.key = victim.key := by rw [heq]
        exact absurd (h.unique hdata hv hsame) hne
    · rintro rfl
      exact ⟨victim, hv, if_pos rfl⟩
  · rw [Function.update_of_ne hkey, lookup_eq_some h]
    constructor
    · rintro ⟨data, hdata, heq⟩
      split at heq
      · exact absurd (congrArg RbData.key heq).symm hkey
      · rwa [← heq]
    · intro hdata
      refine ⟨_, hdata, if_neg ?_⟩
      rintro rfl
      exact hkey rfl

theorem lookup_erase (erase : Erase) (h : Ordered RbData.key root) (hv : victim ∈ root.toList) :
    lookup (erase.run victim root) = Function.update (lookup root) victim.key none := by
  funext key
  apply Option.ext
  intro val
  obtain ⟨smaller, larger, hroot, hrun⟩ := erase.toList_run hv
  have hunique : ∀ data ∈ root.toList, data.key = victim.key → data = victim := fun _ hd => h.unique hd hv
  have hnodup : root.toList.Nodup := List.Pairwise.imp (fun hlt heq => by rw [heq] at hlt; exact lt_irrefl _ hlt) h
  rw [lookup_eq_some (erase.ordered h hv), hrun]
  rw [hroot, List.nodup_append, List.nodup_cons] at hnodup
  obtain ⟨_, ⟨hlarger, _⟩, hsmaller⟩ := hnodup
  by_cases hkey : key = victim.key
  · subst hkey
    rw [Function.update_self]
    refine iff_of_false (fun hmem => ?_) nofun
    have hin : (⟨victim.key, val⟩ : RbData) ∈ root.toList := by
      rw [hroot, List.mem_append, List.mem_cons]
      exact (List.mem_append.mp hmem).imp_right .inr
    rw [hunique _ hin rfl, List.mem_append] at hmem
    rcases hmem with hmem | hmem
    · exact hsmaller _ hmem _ List.mem_cons_self rfl
    · exact hlarger hmem
  · rw [Function.update_of_ne hkey, lookup_eq_some h, hroot, List.mem_append, List.mem_append, List.mem_cons,
      or_iff_right (a := _ = victim)]
    rintro rfl
    exact hkey rfl

/-- Each operation does to the map what it means for the map, and is possible where that is. -/
theorem step_lookup (h : Ordered RbData.key root) (op : Op) : (step root op).map lookup = mapStep (lookup root) op := by
  cases op with
  | insert color new => exact congrArg some (lookup_insert color h new)
  | replace victim val =>
    by_cases hv : victim ∈ root.toList
    · rw [step, mapStep, if_pos hv, if_pos ((mem_iff_lookup h).mp hv), Option.map_some, lookup_replaceNode h hv]
    · rw [step, mapStep, if_neg hv, if_neg (fun hmap => hv ((mem_iff_lookup h).mpr hmap)), Option.map_none]
  | erase erase victim =>
    by_cases hv : victim ∈ root.toList
    · rw [step, mapStep, if_pos hv, if_pos ((mem_iff_lookup h).mp hv), Option.map_some, lookup_erase erase h hv]
    · rw [step, mapStep, if_neg hv, if_neg (fun hmap => hv ((mem_iff_lookup h).mpr hmap)), Option.map_none]

end Lookup

theorem lookup_nil : lookup .nil = fun _ => none := rfl

theorem run_lookup (ops : List Op) : (run step .nil ops).map lookup = run mapStep (fun _ => none) ops := by
  rw [← lookup_nil]
  exact run_refines lookup (Ordered RbData.key) (fun _ _ _ => ordered_step) (fun _ op h => step_lookup h op)
    ordered_nil ops

/-- Whatever rebalancing and deletion do inside, a sequence of operations is possible on the tree where it
is on the map, with the map as its result; and the tree lists the map by increasing keys. -/
theorem tree_refines_map (ops : List Op) :
    (run step .nil ops).map lookup = run mapStep (fun _ => none) ops ∧
      ∀ root, run step .nil ops = some root → (root.toList.map RbData.key).Pairwise (· < ·) ∧
        ∀ data, data ∈ root.toList ↔ lookup root data.key = some data.val := by
  refine ⟨run_lookup ops, ?_⟩
  intro root hrun
  have h := ordered_of_run hrun
  exact ⟨List.pairwise_map.mpr h, fun data => mem_iff_lookup h⟩

theorem dumpsTree_iff {root : RbTree RbData} (hd : root.toList.Nodup) (printed : List RbData) :
    DumpsTree root printed ↔ ∃ data, root.root? = some data ∧ printed = data :: root.postorder := by
  obtain ⟨ps, hps, _⟩ := RbTree.walk_passes hd
  constructor
  · rintro ⟨data, qs, seen, hroot, hqs, rfl⟩
    obtain ⟨_, heq⟩ := hqs.unique hps
    exact ⟨data, hroot, by rw [(Prod.mk.inj heq).2]⟩
  · rintro ⟨data, hroot, rfl⟩
    exact ⟨data, ps, root.postorder, hroot, hps, rfl⟩

/-- On every tree that the operations lead to, `dump_tree` ends if there is a root, and prints behind it
each entry of the map once. -/
theorem dumpTree_prints_map (ops : List Op) {m : Int → Option Int} (hmap : run mapStep (fun _ => none) ops = some m) :
    ∃ root, run step .nil ops = some root ∧
      (∀ printed, DumpsTree root printed ↔ ∃ data, root.root? = some data ∧ printed = data :: root.postorder) ∧
      root.postorder.Nodup ∧ ∀ data, data ∈ root.postorder ↔ m data.key = some data.val := by
  have hlookup := run_lookup ops
  rw [hmap] at hlookup
  obtain ⟨root, hrun, rfl⟩ := Option.map_eq_some_iff.mp hlookup
  have h := ordered_of_run hrun
  refine ⟨root, hrun, dumpsTree_iff h.nodup, root.postorder_perm.nodup_iff.mpr h.nodup, fun data => ?_⟩
  rw [RbTree.mem_postorder, mem_iff_lookup h]

/-- Two keys, the first of which gets another value. -/
theorem dumpTree_prints_map_replaced :
    let ops : List Op := [.insert .kernel ⟨2, 2⟩, .insert .kernel ⟨1, 1⟩, .replace ⟨2, 2⟩ 100]
    ∃ root, run step .nil ops = some root ∧
      (∀ printed, DumpsTree root printed ↔ ∃ data, root.root? = some data ∧ printed = data :: root.postorder) ∧
      root.postorder.Nodup ∧ ∀ data, data ∈ root.postorder ↔
        Function.update (Function.update (Function.update (fun _ => none) 2 (some 2)) 1 (some 1)) 2 (some 100)
          data.key = some data.val :=
  dumpTree_prints_map _ rfl

end LinuxDrivers.Rbtree
