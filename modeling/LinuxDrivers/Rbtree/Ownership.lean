import Mathlib.Data.List.Infix
import LinuxDrivers.Lib.Ledger
import LinuxDrivers.Rbtree.Insert

/-! Which of the nodes that `insert_arr` allocates are linked in the tree. -/
namespace LinuxDrivers.Rbtree
open RedBlack Ledger

structure Node where
  addr : Nat
  data : RbData
  deriving DecidableEq, Repr

def Node.key (node : Node) : Int := node.data.key

/-- `kzalloc`: the address it gives is not that of a node in use. -/
structure Kzalloc where
  addr : List Node → Nat
  fresh : ∀ held, addr held ∉ held.map Node.addr

theorem le_foldr_max {a : Nat} {addrs : List Nat} (h : a ∈ addrs) : a ≤ addrs.foldr max 0 := by
  induction addrs with
  | nil => exact absurd h List.not_mem_nil
  | cons b addrs ih =>
    rw [List.foldr_cons]
    rcases List.mem_cons.mp h with rfl | h
    · exact Nat.le_max_left _ _
    · exact Nat.le_trans (ih h) (Nat.le_max_right _ _)

def Kzalloc.next : Kzalloc where
  addr held := (held.map Node.addr).foldr max 0 + 1
  fresh _ hmem := absurd (le_foldr_max hmem) (Nat.not_succ_le_self _)

def Node.linker : Linker Node where
  run link new := insertColor link .nil new .nil
  toList_run link new := toList_insertColor link .nil new .nil

structure Heap where
  root : RbTree Node
  account : Account Node

def Heap.empty : Heap := ⟨.nil, .empty⟩

/-- The body of the loop of `insert_arr`, with `insert` on nodes; nothing tells it whether `insert` has
linked the node. -/
def Heap.insertPair (linker : Linker Node) (kzalloc : Kzalloc) (heap : Heap) (pair : Int × Int) : Heap :=
  let data : Node := ⟨kzalloc.addr heap.account.held, pair.1, pair.2⟩
  { root := insertNew Node.key linker heap.root data
    account := heap.account.acquire data }

def Heap.insertArr (linker : Linker Node) (kzalloc : Kzalloc) (heap : Heap) (arr : List (Int × Int)) : Heap :=
  arr.foldl (Heap.insertPair linker kzalloc) heap

def Heap.after (linker : Linker Node) (kzalloc : Kzalloc) (calls : List (List (Int × Int))) : Heap :=
  calls.foldl (Heap.insertArr linker kzalloc) .empty

def Heap.Owned (heap : Heap) : Prop := ∀ node, node ∈ heap.account.held ↔ node ∈ heap.root.toList

structure Heap.Holds (pairs : List (Int × Int)) (heap : Heap) : Prop where
  ordered : Ordered Node.key heap.root
  linked : ∀ node ∈ heap.root.toList, node ∈ heap.account.held
  keys : heap.account.held.map Node.key = (pairs.map Prod.fst).reverse
  covered : ∀ key ∈ heap.account.held.map Node.key, key ∈ heap.root.toList.map Node.key
  nodup : heap.account.held.Nodup

theorem Heap.Holds.empty : Heap.Holds [] .empty where
  ordered := .nil
  linked _ hnode := absurd hnode List.not_mem_nil
  keys := rfl
  covered _ hkey := absurd hkey List.not_mem_nil
  nodup := .nil

section Calls

variable {linker : Linker Node} {kzalloc : Kzalloc} {pairs : List (Int × Int)} {heap : Heap}

theorem Heap.Holds.insertPair (h : heap.Holds pairs) (pair : Int × Int) :
    (heap.insertPair linker kzalloc pair).Holds (pairs ++ [pair]) := by
  let data : Node := ⟨kzalloc.addr heap.account.held, pair.1, pair.2⟩
  have hmem := mem_insertNew linker h.ordered data
  refine ⟨ordered_insertNew linker h.ordered data, ?_, ?_, ?_, ?_⟩
  · intro node hnode
    rcases (hmem node).mp hnode with hnode | ⟨-, rfl⟩
    · exact List.mem_cons_of_mem _ (h.linked node hnode)
    · exact List.mem_cons_self
  · rw [List.map_append, List.reverse_append, ← h.keys]
    rfl
  · intro key hkey
    rcases List.mem_cons.mp hkey with rfl | hkey
    · by_cases hthere : data.key ∈ heap.root.toList.map Node.key
      · obtain ⟨node, hnode, heq⟩ := List.mem_map.mp hthere
        exact List.mem_map.mpr ⟨node, (hmem node).mpr (.inl hnode), heq⟩
      · exact List.mem_map.mpr ⟨data, (hmem data).mpr (.inr ⟨hthere, rfl⟩), rfl⟩
    · obtain ⟨node, hnode, rfl⟩ := List.mem_map.mp (h.covered key hkey)
      exact List.mem_map.mpr ⟨node, (hmem node).mpr (.inl hnode), rfl⟩
  · refine List.nodup_cons.mpr ⟨fun hdata => ?_, h.nodup⟩
    exact kzalloc.fresh _ (List.mem_map.mpr ⟨data, hdata, rfl⟩)

/-- The calls are one run over all their pairs. -/
theorem Heap.after_eq_foldl (calls : List (List (Int × Int))) :
    Heap.after linker kzalloc calls = calls.flatten.foldl (Heap.insertPair linker kzalloc) .empty :=
  List.foldl_flatten.symm

theorem Heap.holds_after (calls : List (List (Int × Int))) :
    (Heap.after linker kzalloc calls).Holds calls.flatten := by
  rw [Heap.after_eq_foldl]
  induction calls.flatten using List.reverseRecOn with
  | nil => exact .empty
  | append_singleton pairs pair ih =>
    rw [List.foldl_append]
    exact ih.insertPair pair

/-- The account balances exactly if no two nodes allocated have the same key. -/
theorem Heap.Holds.owned_iff (h : heap.Holds pairs) : heap.Owned ↔ (pairs.map Prod.fst).Nodup := by
  rw [← List.nodup_reverse, ← h.keys]
  have hlinkedKeys : (heap.root.toList.map Node.key).Nodup :=
    List.pairwise_map.mpr (List.Pairwise.imp (fun hlt => ne_of_lt hlt) h.ordered)
  constructor
  · intro howned
    have hperm := (List.perm_ext_iff_of_nodup h.nodup (List.Nodup.of_map Node.key hlinkedKeys)).mpr howned
    exact (hperm.map Node.key).nodup_iff.mpr hlinkedKeys
  · intro hkeys node
    refine ⟨fun hnode => ?_, h.linked node⟩
    obtain ⟨linked, hlinked, heq⟩ := List.mem_map.mp (h.covered _ (List.mem_map_of_mem hnode))
    obtain rfl := List.inj_on_of_nodup_map hkeys (h.linked linked hlinked) hnode heq
    exact hlinked

structure Heap.Shows (root : RbTree RbData) (heap : Heap) : Prop where
  ordered : Ordered Node.key heap.root
  contents : heap.root.toList.map Node.data = root.toList

theorem Heap.Shows.keys {root : RbTree RbData} (h : heap.Shows root) :
    heap.root.toList.map Node.key = root.toList.map RbData.key := by
  rw [← h.contents, List.map_map]
  rfl

theorem Heap.Shows.ordered_root {root : RbTree RbData} (h : heap.Shows root) : Ordered RbData.key root := by
  have hkeys : (heap.root.toList.map Node.key).Pairwise (· < ·) := List.pairwise_map.mpr h.ordered
  rw [h.keys] at hkeys
  exact List.pairwise_map.mp hkeys

/-- An insertion into both keeps them together, whatever the rebalancings are. -/
theorem Heap.Shows.insertPair {root : RbTree RbData} (h : heap.Shows root) (color : InsertColor)
    (pair : Int × Int) :
    (heap.insertPair linker kzalloc pair).Shows (Rbtree.insert color root ⟨pair.1, pair.2⟩) := by
  let data : Node := ⟨kzalloc.addr heap.account.held, pair.1, pair.2⟩
  refine ⟨ordered_insertNew linker h.ordered data, ?_⟩
  change (insertNew Node.key linker heap.root data).toList.map Node.data = _
  rw [insert_eq_insertNew]
  by_cases hkey : data.key ∈ heap.root.toList.map Node.key
  · have hkey' : data.data.key ∈ root.toList.map RbData.key := h.keys ▸ hkey
    rw [insertNew_of_mem linker h.ordered data hkey, insertNew_of_mem color.linker h.ordered_root data.data hkey']
    exact h.contents
  · have hkey' : data.data.key ∉ root.toList.map RbData.key := h.keys ▸ hkey
    rw [toList_insertNew linker h.ordered data hkey, toList_insertNew color.linker h.ordered_root data.data hkey',
      ← h.contents, List.map_append, List.map_cons, List.filter_map, List.filter_map]
    rfl

/-- The calls on nodes are the calls on their contents. -/
theorem Heap.shows_after (color : InsertColor) (calls : List (List (Int × Int))) :
    (Heap.after linker kzalloc calls).Shows (insertArrs color calls) := by
  rw [Heap.after_eq_foldl, insertArrs_eq_foldl]
  induction calls.flatten using List.reverseRecOn with
  | nil => exact ⟨.nil, rfl⟩
  | append_singleton pairs pair ih =>
    rw [List.foldl_append, List.foldl_append]
    exact ih.insertPair color pair

end Calls

/-- For any sequence of calls: after each of them the nodes allocated are the nodes linked, exactly if
no key comes twice, in one array or in two. -/
theorem keeps_ownership_iff (linker : Linker Node) (kzalloc : Kzalloc) (calls : List (List (Int × Int))) :
    (∀ done, done <+: calls → (Heap.after linker kzalloc done).Owned) ↔ (calls.flatten.map Prod.fst).Nodup := by
  constructor
  · intro h
    exact (Heap.holds_after calls).owned_iff.mp (h calls List.prefix_rfl)
  · rintro h done ⟨rest, rfl⟩
    rw [List.flatten_append, List.map_append] at h
    exact (Heap.holds_after done).owned_iff.mpr (List.Nodup.of_append_left h)

/-- One array with a key twice: the second node is allocated and never linked. -/
theorem repeated_key_not_owned :
    ¬∀ (linker : Linker Node) (kzalloc : Kzalloc) (calls done : List (List (Int × Int))), done <+: calls →
      (Heap.after linker kzalloc done).Owned := by
  intro h
  have howned := h Node.linker .next [[(1, 0), (1, 0)]] _ List.prefix_rfl
  exact absurd ((Heap.holds_after _).owned_iff.mp howned) (by decide)

end LinuxDrivers.Rbtree
