import LinuxDrivers.Lib.Runs
import LinuxDrivers.Lib.RedBlack.Erase
import LinuxDrivers.Rbtree.Insert

/-! `search` of rbtree.c, on the trees that insertions, replacements and deletions lead to: it
follows `val` where `insert` follows `key`. -/
namespace LinuxDrivers.Rbtree
open RedBlack Runs

def searchLoop (target : Int) : RbTree RbData → Option RbData
  | .nil => none
  | .node _ l data r =>
    if target > data.val then searchLoop target r
    else if target < data.val then searchLoop target l
    else some data

/-- `search(root, target)`; `root` may be NULL. -/
def search : Option (RbTree RbData) → Int → Option RbData
  | none, _ => none
  | some node, target => searchLoop target node

/-- `rb_erase`: any function that takes out its node and keeps the others in order. -/
structure Erase where
  run : RbData → RbTree RbData → RbTree RbData
  toList_run : ∀ {victim root}, victim ∈ root.toList →
    ∃ smaller larger, root.toList = smaller ++ victim :: larger ∧ (run victim root).toList = smaller ++ larger

def Erase.kernel : Erase := ⟨erase, toList_erase⟩

def replaceNode (victim new : RbData) : RbTree RbData → RbTree RbData
  | .nil => .nil
  | .node c l data r =>
    .node c (replaceNode victim new l) (if data = victim then new else data) (replaceNode victim new r)

/-- What may be done to the tree. A replacement keeps the key, and like a deletion it is for a node
of the tree. -/
inductive Op where
  | insert (color : InsertColor) (new : RbData)
  | replace (victim : RbData) (val : Int)
  | erase (erase : Erase) (victim : RbData)

def step (root : RbTree RbData) : Op → Option (RbTree RbData)
  | .insert color new => some (insert color root new)
  | .replace victim val => if victim ∈ root.toList then some (replaceNode victim ⟨victim.key, val⟩ root) else none
  | .erase erase victim => if victim ∈ root.toList then some (erase.run victim root) else none

def LedTo (target : Int) (data : RbData) (root : RbTree RbData) : Prop :=
  ∃ link c l r, root = plug link (.node c l data r) ∧ Directed RbData.val target link

def SearchAgrees (root : RbTree RbData) (target : Int) : Prop :=
  search (some root) target = root.toList.find? (fun data => data.key = target)

theorem toList_replaceNode (victim new : RbData) (root : RbTree RbData) :
    (replaceNode victim new root).toList = root.toList.map (fun data => if data = victim then new else data) := by
  induction root with
  | nil => rfl
  | node c l data r ihl ihr =>
    rw [replaceNode, RbTree.toList, RbTree.toList, List.map_append, List.map_cons, ihl, ihr]

theorem ordered_replaceNode {root : RbTree RbData} (h : Ordered RbData.key root) (victim : RbData) (val : Int) :
    Ordered RbData.key (replaceNode victim ⟨victim.key, val⟩ root) := by
  rw [Ordered, toList_replaceNode, List.pairwise_map]
  have hkey : ∀ data, (if data = victim then ⟨victim.key, val⟩ else data : RbData).key = data.key := by
    intro data
    split
    · rename_i heq
      rw [heq]
    · rfl
  simp only [hkey]
  exact h

theorem Erase.ordered (erase : Erase) {root : RbTree RbData} (h : Ordered RbData.key root) {victim : RbData}
    (hv : victim ∈ root.toList) : Ordered RbData.key (erase.run victim root) := by
  obtain ⟨smaller, larger, hroot, hrun⟩ := erase.toList_run hv
  rw [Ordered, hroot] at h
  rw [Ordered, hrun]
  exact List.Pairwise.sublist ((List.Sublist.refl smaller).append (List.sublist_cons_self victim larger)) h

theorem ordered_step {root root' : RbTree RbData} {op : Op} (h : Ordered RbData.key root)
    (hstep : step root op = some root') : Ordered RbData.key root' := by
  cases op with
  | insert color new =>
    cases hstep
    exact ordered_insert color h new
  | replace victim val =>
    obtain ⟨_, heq⟩ := Option.ite_none_right_eq_some.mp hstep
    cases heq
    exact ordered_replaceNode h victim val
  | erase erase victim =>
    obtain ⟨hv, heq⟩ := Option.ite_none_right_eq_some.mp hstep
    cases heq
    exact erase.ordered h hv

theorem ordered_nil : Ordered RbData.key .nil := List.Pairwise.nil

theorem ordered_of_run {ops : List Op} {root : RbTree RbData} (h : run step .nil ops = some root) :
    Ordered RbData.key root :=
  invariant_of_run (Ordered RbData.key) (fun _ _ _ => ordered_step) ordered_nil h

/-- Where the comparisons lead to a link, the search goes on there. -/
theorem searchLoop_plug {target : Int} {link : Link} (h : Directed RbData.val target link) (t : RbTree RbData) :
    searchLoop target (plug link t) = searchLoop target t := by
  induction link generalizing t with
  | nil => rfl
  | cons f link ih =>
    obtain ⟨hf, hlink⟩ := List.forall_mem_cons.mp h
    rw [plug, ih hlink]
    obtain ⟨_ | _, c, data, s⟩ := f
    · have hlt : target < data.val := hf
      rw [Frame.plug, searchLoop, if_neg (Int.not_lt.mpr (Int.le_of_lt hlt)), if_pos hlt]
    · have hgt : data.val < target := hf
      rw [Frame.plug, searchLoop, if_pos hgt]

theorem searchLoop_eq_some {target : Int} {data : RbData} {root : RbTree RbData} :
    searchLoop target root = some data ↔ data.val = target ∧ LedTo target data root := by
  constructor
  · suffices h : ∀ t link, searchLoop target t = some data → Directed RbData.val target link →
        data.val = target ∧ LedTo target data (plug link t) from fun hs => h root [] hs nofun
    intro t
    induction t with
    | nil => nofun
    | node c l e r ihl ihr =>
      intro link hs hlink
      rw [searchLoop] at hs
      split at hs
      · rename_i hgt
        exact ihr (⟨.right, c, e, l⟩ :: link) hs (hlink.push hgt)
      · split at hs
        · rename_i hlt
          exact ihl (⟨.left, c, e, r⟩ :: link) hs (hlink.push hlt)
        · obtain rfl := Option.some.inj hs
          exact ⟨by omega, link, c, l, r, rfl, hlink⟩
  · rintro ⟨rfl, link, c, l, r, rfl, hlink⟩
    rw [searchLoop_plug hlink, searchLoop, if_neg (Int.lt_irrefl _), if_neg (Int.lt_irrefl _)]

/-- For one target: the comparisons with `val` have to lead to its entry and to no other one. -/
theorem searchAgrees_iff {root : RbTree RbData} (h : Ordered RbData.key root) (target : Int) :
    SearchAgrees root target ↔
      ∀ data ∈ root.toList, data.key = target ↔ data.val = target ∧ LedTo target data root := by
  have hfind : ∀ data, root.toList.find? (fun data => data.key = target) = some data ↔
      data ∈ root.toList ∧ data.key = target := fun _ => h.find?_eq_some
  constructor
  · intro hagrees data hdata
    rw [SearchAgrees, search] at hagrees
    rw [← searchLoop_eq_some, hagrees, hfind data, and_iff_right hdata]
  · intro hiff
    apply Option.ext
    intro data
    rw [search, searchLoop_eq_some, hfind data]
    constructor
    · rintro ⟨hval, hled⟩
      have hdata : data ∈ root.toList := by
        obtain ⟨link, c, l, r, rfl, _⟩ := hled
        exact mem_plug link c l data r
      exact ⟨hdata, (hiff data hdata).mpr ⟨hval, hled⟩⟩
    · rintro ⟨hdata, hkey⟩
      exact (hiff data hdata).mp hkey

/-- For all targets: each entry has to have its key as `val`. -/
theorem searchAgrees_all_iff {root : RbTree RbData} (h : Ordered RbData.key root) :
    (∀ target, SearchAgrees root target) ↔ ∀ data ∈ root.toList, data.val = data.key := by
  constructor
  · intro hagrees data hdata
    exact (((searchAgrees_iff h data.key).mp (hagrees data.key) data hdata).mp rfl).1
  · intro hval target
    have hordered : Ordered RbData.val root := by
      refine List.Pairwise.imp_of_mem ?_ h
      intro a b ha hb hlt
      rwa [hval a ha, hval b hb]
    rw [searchAgrees_iff h]
    intro data hdata
    rw [← hval data hdata]
    refine ⟨fun hkey => ⟨hkey, ?_⟩, And.left⟩
    obtain ⟨link, c, l, r, rfl⟩ := exists_plug_of_mem hdata
    have hmem : data ∈ (RbTree.node c l data r).toList := List.mem_append_right _ List.mem_cons_self
    exact ⟨link, c, l, r, rfl, hkey ▸ hordered.directed hmem⟩

/-- The operation brings no node into the tree whose `val` is not its key. -/
def KeyAsVal (root : RbTree RbData) : Op → Prop
  | .insert _ new => new.key ∈ root.toList.map RbData.key ∨ new.val = new.key
  | .replace victim val => val = victim.key
  | .erase _ _ => True

/-- From a tree whose entries have their keys as `val`, the step decides about the next one. -/
theorem keyAsVal_step {root root' : RbTree RbData} {op : Op} (h : Ordered RbData.key root)
    (hval : ∀ data ∈ root.toList, data.val = data.key) (hstep : step root op = some root') :
    (∀ data ∈ root'.toList, data.val = data.key) ↔ KeyAsVal root op := by
  cases op with
  | insert color new =>
    cases hstep
    simp only [mem_insert color h, KeyAsVal]
    constructor
    · intro hall
      by_cases hkey : new.key ∈ root.toList.map RbData.key
      · exact .inl hkey
      · exact .inr (hall new (.inr ⟨hkey, rfl⟩))
    · rintro hnew data (hdata | ⟨hkey, rfl⟩)
      · exact hval data hdata
      · exact hnew.resolve_left hkey
  | replace victim val =>
    obtain ⟨hv, heq⟩ := Option.ite_none_right_eq_some.mp hstep
    cases heq
    simp only [toList_replaceNode, List.forall_mem_map, KeyAsVal]
    constructor
    · intro hall
      simpa using hall victim hv
    · intro hnew data hdata
      split
      · exact hnew
      · exact hval data hdata
  | erase erase victim =>
    obtain ⟨hv, heq⟩ := Option.ite_none_right_eq_some.mp hstep
    cases heq
    refine iff_of_true ?_ trivial
    obtain ⟨smaller, larger, hroot, hrun⟩ := erase.toList_run hv
    intro data hdata
    apply hval data
    rw [hrun] at hdata
    rw [hroot]
    simp only [List.mem_append, List.mem_cons] at hdata ⊢
    exact hdata.imp_right .inr

/-- `search` agrees with `insert` along a run exactly as long as no node comes in whose `val` is not
its key; in a tree reached, exactly when no entry is such a node; and for one target, exactly when
the comparisons with `val` lead to the entry that has it as key, and to no entry otherwise. -/
theorem search_agrees_iff (ops : List Op) :
    (Visits step (fun root => ∀ target, SearchAgrees root target) .nil ops ↔ Along step KeyAsVal .nil ops) ∧
      ∀ root, run step .nil ops = some root →
        ((∀ target, SearchAgrees root target) ↔ ∀ data ∈ root.toList, data.val = data.key) ∧
        ∀ target, SearchAgrees root target ↔
          ∀ data ∈ root.toList, data.key = target ↔ data.val = target ∧ LedTo target data root := by
  constructor
  · refine visits_iff_along (Ordered RbData.key) (fun _ _ _ => ordered_step) ?_ ops ordered_nil ?_
    · intro root op root' h hagrees hstep
      rw [searchAgrees_all_iff (ordered_step h hstep)]
      exact keyAsVal_step h ((searchAgrees_all_iff h).mp hagrees) hstep
    · exact (searchAgrees_all_iff ordered_nil).mpr nofun
  · intro root hrun
    have h := ordered_of_run hrun
    exact ⟨searchAgrees_all_iff h, searchAgrees_iff h⟩

/-- `mod_init` up to the update: eleven nodes, and then key 2 gets the `val` 100. -/
def updateRun : List Op :=
  (List.range' 1 11).map (fun (k : Nat) => .insert .kernel ⟨k, k⟩) ++ [.replace ⟨2, 2⟩ 100]

def updated : RbTree RbData := (run step .nil updateRun).getD .nil

/-- What `mod_init` does next: the search for key 2 misses the node that has it. -/
theorem search_misses_updated :
    run step .nil updateRun = some updated ∧ (⟨2, 100⟩ : RbData) ∈ updated.toList ∧ search (some updated) 2 = none ∧
      ¬ SearchAgrees updated 2 := by
  refine ⟨by decide, by decide, by decide, ?_⟩
  unfold SearchAgrees
  decide

/-- And after the deletion of that node the search is right again. -/
theorem search_agrees_iff_erased : SearchAgrees (Erase.kernel.run ⟨2, 100⟩ updated) 2 := by
  have hrun : run step .nil (updateRun ++ [.erase .kernel ⟨2, 100⟩]) = some (Erase.kernel.run ⟨2, 100⟩ updated) := by
    decide
  exact ((search_agrees_iff _).2 _ hrun).1.mpr (by decide) 2

end LinuxDrivers.Rbtree
