import Mathlib.Data.Int.Order.Basic
import Mathlib.Data.List.Induction
import LinuxDrivers.Lib.RedBlack.InsertColor
import LinuxDrivers.Lib.RedBlack.Insert

/-! `insert` and `insert_arr` of rbtree.c, over any rebalancing that keeps the order. -/
namespace LinuxDrivers.Rbtree
open RedBlack

/-- `struct rb_data`; its `rb_node` is the node of the tree it is in. -/
structure RbData where
  key : Int
  val : Int
  deriving DecidableEq, Repr

abbrev Link := List (Frame RbData)

/-- `rb_insert_color`, called for the red node that `rb_link_node` attaches at a link: any function
that keeps the nodes in order. The tree grows with each call, so that no two calls of a run get
the same link and the function is free at each of them. -/
structure InsertColor where
  run : Link → RbData → RbTree RbData
  toList_run : ∀ link new, (run link new).toList = (plug link (.node .red .nil new .nil)).toList

def InsertColor.kernel : InsertColor where
  run link new := insertColor link .nil new .nil
  toList_run link new := toList_insertColor link .nil new .nil

/-- The loop of `insert`, down from a link already reached; `none` where it returns at a node with
the new key. -/
def descend (newKey : Int) : Link → RbTree RbData → Option Link
  | link, .nil => some link
  | link, .node c l data r =>
    if newKey > data.key then descend newKey (⟨.right, c, data, l⟩ :: link) r
    else if newKey < data.key then descend newKey (⟨.left, c, data, r⟩ :: link) l
    else none

def insert (color : InsertColor) (root : RbTree RbData) (new : RbData) : RbTree RbData :=
  match descend new.key [] root with
  | none => root
  | some link => color.run link new

/-- `insert_arr(root, arr, len)`, where all `len` allocations succeed. -/
def insertArr (color : InsertColor) (root : RbTree RbData) (arr : List (Int × Int)) : RbTree RbData :=
  arr.foldl (fun root pair => insert color root ⟨pair.1, pair.2⟩) root

def insertArrs (color : InsertColor) (calls : List (List (Int × Int))) : RbTree RbData :=
  calls.foldl (insertArr color) .nil

def InsertColor.linker (color : InsertColor) : Linker RbData := ⟨color.run, color.toList_run⟩

theorem descend_eq_seek (newKey : Int) (link : Link) (t : RbTree RbData) :
    descend newKey link t = seek RbData.key newKey link t := by
  induction t generalizing link with
  | nil => rfl
  | node c l data r ihl ihr => rw [descend, seek, ihl, ihr]

theorem insert_eq_insertNew (color : InsertColor) (root : RbTree RbData) (new : RbData) :
    insert color root new = insertNew RbData.key color.linker root new := by
  rw [insert, insertNew, descend_eq_seek]
  cases seek RbData.key new.key [] root <;> rfl

theorem ordered_insert (color : InsertColor) {root : RbTree RbData} (h : Ordered RbData.key root) (new : RbData) :
    Ordered RbData.key (insert color root new) := by
  rw [insert_eq_insertNew]
  exact ordered_insertNew color.linker h new

/-- An insertion of a key that is there leaves the tree as it is. -/
theorem insert_of_mem (color : InsertColor) {root : RbTree RbData} (h : Ordered RbData.key root) {new : RbData}
    (hkey : new.key ∈ root.toList.map RbData.key) : insert color root new = root := by
  rw [insert_eq_insertNew]
  exact insertNew_of_mem color.linker h new hkey

theorem mem_insert (color : InsertColor) {root : RbTree RbData} (h : Ordered RbData.key root) (new data : RbData) :
    data ∈ (insert color root new).toList ↔
      data ∈ root.toList ∨ (new.key ∉ root.toList.map RbData.key ∧ data = new) := by
  rw [insert_eq_insertNew]
  exact mem_insertNew color.linker h new data

/-- The tree is the map of the pairs taken so far that keeps the first value of each key. -/
structure KeepsFirst (pairs : List (Int × Int)) (root : RbTree RbData) : Prop where
  ordered : Ordered RbData.key root
  mem_iff : ∀ data, data ∈ root.toList ↔ pairs.find? (fun pair => pair.1 = data.key) = some (data.key, data.val)

theorem KeepsFirst.nil : KeepsFirst [] .nil := ⟨.nil, fun _ => by simp [RbTree.toList]⟩

theorem KeepsFirst.key_mem {pairs : List (Int × Int)} {root : RbTree RbData} (h : KeepsFirst pairs root)
    (key : Int) : key ∈ root.toList.map RbData.key ↔ key ∈ pairs.map Prod.fst := by
  constructor
  · intro hkey
    obtain ⟨data, hdata, rfl⟩ := List.mem_map.mp hkey
    exact List.mem_map.mpr ⟨_, List.mem_of_find?_eq_some ((h.mem_iff data).mp hdata), rfl⟩
  · intro hkey
    obtain ⟨pair, hpair, heq⟩ := List.mem_map.mp hkey
    have hsome : (pairs.find? (fun pair => pair.1 = key)).isSome :=
      List.find?_isSome.mpr ⟨pair, hpair, by simpa using heq⟩
    obtain ⟨first, hfirst⟩ := Option.isSome_iff_exists.mp hsome
    have hfirstKey : first.1 = key := by
      have := List.find?_some hfirst
      exact of_decide_eq_true this
    refine List.mem_map.mpr ⟨⟨key, first.2⟩, (h.mem_iff _).mpr ?_, rfl⟩
    rw [hfirst, ← hfirstKey]

theorem KeepsFirst.insert (color : InsertColor) {pairs : List (Int × Int)} {root : RbTree RbData}
    (h : KeepsFirst pairs root) (pair : Int × Int) :
    KeepsFirst (pairs ++ [pair]) (Rbtree.insert color root ⟨pair.1, pair.2⟩) := by
  refine ⟨ordered_insert color h.ordered ⟨pair.1, pair.2⟩, fun data => ?_⟩
  rw [mem_insert color h.ordered, h.mem_iff, h.key_mem, List.find?_append]
  cases hfind : pairs.find? (fun pair => pair.1 = data.key) with
  | some first =>
    have hkey : data.key ∈ pairs.map Prod.fst := by
      have hfirst := List.find?_some hfind
      exact List.mem_map.mpr ⟨first, List.mem_of_find?_eq_some hfind, of_decide_eq_true hfirst⟩
    have hnew : ¬ (pair.1 ∉ pairs.map Prod.fst ∧ data = ⟨pair.1, pair.2⟩) := by
      rintro ⟨hnot, rfl⟩
      exact hnot hkey
    rw [Option.some_or, or_iff_left hnew]
  | none =>
    have hkey : data.key ∉ pairs.map Prod.fst := by
      intro hkey
      obtain ⟨first, hfirst, heq⟩ := List.mem_map.mp hkey
      exact List.find?_eq_none.mp hfind first hfirst (decide_eq_true heq)
    rw [Option.none_or, List.find?_singleton]
    constructor
    · rintro (hnone | ⟨_, rfl⟩)
      · cases hnone
      · simp
    · intro hsome
      split at hsome
      · obtain rfl := Option.some.inj hsome
        exact .inr ⟨hkey, rfl⟩
      · cases hsome

/-- The calls are one run over all their pairs. -/
theorem insertArrs_eq_foldl (color : InsertColor) (calls : List (List (Int × Int))) :
    insertArrs color calls = calls.flatten.foldl (fun root pair => insert color root ⟨pair.1, pair.2⟩) .nil :=
  List.foldl_flatten.symm

theorem keepsFirst_insertArrs (color : InsertColor) (calls : List (List (Int × Int))) :
    KeepsFirst calls.flatten (insertArrs color calls) := by
  rw [insertArrs_eq_foldl]
  induction calls.flatten using List.reverseRecOn with
  | nil => exact .nil
  | append_singleton pairs pair ih =>
    rw [List.foldl_append]
    exact ih.insert color pair

/-- `insert_arr` makes an ordered map that keeps the first value of each key. -/
theorem insertArrs_keeps_first (color : InsertColor) (calls : List (List (Int × Int))) :
    ((insertArrs color calls).toList.map RbData.key).Pairwise (· < ·) ∧
      (∀ key, key ∈ (insertArrs color calls).toList.map RbData.key ↔ key ∈ calls.flatten.map Prod.fst) ∧
      (∀ data ∈ (insertArrs color calls).toList,
        calls.flatten.find? (fun pair => pair.1 = data.key) = some (data.key, data.val)) ∧
      ∀ new : RbData, new.key ∈ (insertArrs color calls).toList.map RbData.key →
        insert color (insertArrs color calls) new = insertArrs color calls := by
  have h := keepsFirst_insertArrs color calls
  refine ⟨List.pairwise_map.mpr h.ordered, h.key_mem, fun data => (h.mem_iff data).mp, ?_⟩
  intro new hkey
  exact insert_of_mem color h.ordered hkey

end LinuxDrivers.Rbtree
