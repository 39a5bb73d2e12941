import LinuxDrivers.Lib.RedBlack.Height
import LinuxDrivers.Rbtree.Destroy
import LinuxDrivers.Rbtree.Search

/-! How many nodes the loops of `insert` and `search` look at, on the trees that the rebalancing of the
kernel, or any other one that keeps a tree balanced, makes of a sequence of operations. -/
namespace LinuxDrivers.Rbtree
open RedBlack Runs

/-- The side on which the loop of `insert` goes on; `none` where it returns. -/
def insertTurn (newKey : Int) (data : RbData) : Option Side :=
  if newKey > data.key then some .right else if newKey < data.key then some .left else none

def searchTurn (target : Int) (data : RbData) : Option Side :=
  if target > data.val then some .right else if target < data.val then some .left else none

def InsertColor.Balances (color : InsertColor) : Prop :=
  ∀ link new, Fits link .black 0 → ∃ h, Balanced (color.run link new) .black h

def Erase.Balances (erase : Erase) : Prop :=
  ∀ victim root h, Balanced root .black h → ∃ h', Balanced (erase.run victim root) .black h'

def Op.Balances : Op → Prop
  | .insert color _ => color.Balances
  | .replace _ _ => True
  | .erase taker _ => taker.Balances

theorem InsertColor.kernel_balances : InsertColor.kernel.Balances := BalancingColor.kernel.balanced_run

theorem Erase.kernel_balances : Erase.kernel.Balances := by
  intro victim root h hb
  obtain ⟨c, h', hb', hc⟩ := balanced_erase victim hb
  obtain rfl := hc rfl
  exact ⟨h', hb'⟩

section Loops

variable {link link' : Link} (root : RbTree RbData)

/-- The link that `insert` gets to goes through the nodes it has looked at. -/
theorem descend_visits {newKey : Int} (h : descend newKey link root = some link') :
    link'.map Frame.entry = (root.visits (insertTurn newKey)).reverse ++ link.map Frame.entry := by
  induction root generalizing link with
  | nil =>
    cases h
    rfl
  | node c l data r ihl ihr =>
    rw [descend] at h
    rw [RbTree.visits, insertTurn, List.reverse_cons, List.append_assoc]
    split at h
    · rename_i hgt
      rw [if_pos hgt]
      exact ihr h
    · rename_i hle
      rw [if_neg hle]
      split at h
      · rename_i hlt
        rw [if_pos hlt]
        exact ihl h
      · cases h

/-- Where it returns, it has come to a node with the new key. -/
theorem descend_none_visits {newKey : Int} :
    descend newKey link root = none ↔ ∃ data ∈ root.visits (insertTurn newKey), data.key = newKey := by
  induction root generalizing link with
  | nil => exact iff_of_false nofun (fun ⟨_, hdata, _⟩ => nomatch hdata)
  | node c l data r ihl ihr =>
    rw [descend, RbTree.visits, insertTurn]
    split
    · rw [ihr, List.exists_mem_cons_iff, or_iff_right (by omega)]
    · split
      · rw [ihl, List.exists_mem_cons_iff, or_iff_right (by omega)]
      · exact iff_of_true rfl ⟨data, List.mem_cons_self, by omega⟩

/-- What `search` returns is the first of the nodes it looks at that has the value. -/
theorem searchLoop_visits (target : Int) :
    searchLoop target root = (root.visits (searchTurn target)).find? (fun data => data.val = target) := by
  induction root with
  | nil => rfl
  | node c l data r ihl ihr =>
    rw [searchLoop, RbTree.visits, searchTurn]
    split
    · rw [List.find?_cons_of_neg (by simp; omega), ihr]
    · split
      · rw [List.find?_cons_of_neg (by simp; omega), ihl]
      · rw [List.find?_cons_of_pos (by simp; omega)]

end Loops

theorem balanced_replaceNode (victim new : RbData) {root : RbTree RbData} {c : Color} {h : Nat}
    (hb : Balanced root c h) : Balanced (replaceNode victim new root) c h := by
  induction hb with
  | nil => exact .nil
  | red _ _ ihl ihr => exact .red ihl ihr
  | black _ _ ihl ihr => exact .black ihl ihr

theorem balanced_step {root root' : RbTree RbData} {op : Op} (hop : op.Balances)
    (hb : ∃ h, Balanced root .black h) (hstep : step root op = some root') : ∃ h, Balanced root' .black h := by
  obtain ⟨h, hb⟩ := hb
  cases op with
  | insert color new =>
    cases hstep
    exact balanced_insert ⟨color, hop⟩ hb new
  | replace victim val =>
    obtain ⟨_, heq⟩ := Option.ite_none_right_eq_some.mp hstep
    cases heq
    exact ⟨h, balanced_replaceNode _ _ hb⟩
  | erase erase victim =>
    obtain ⟨_, heq⟩ := Option.ite_none_right_eq_some.mp hstep
    cases heq
    exact hop victim root h hb

theorem balanced_of_run {ops : List Op} (hops : ∀ op ∈ ops, op.Balances) {root root' : RbTree RbData}
    (hb : ∃ h, Balanced root .black h) (hrun : run step root ops = some root') : ∃ h, Balanced root' .black h := by
  induction ops generalizing root with
  | nil =>
    cases hrun
    exact hb
  | cons op ops ih =>
    obtain ⟨t, ht, hrest⟩ := run_cons_eq_some.mp hrun
    obtain ⟨hop, hops⟩ := List.forall_mem_cons.mp hops
    exact ih hops (balanced_step hop hb ht) hrest

/-- Both loops look at no more nodes than twice the logarithm of the number of entries; and these nodes
are all that they go by. -/
theorem loops_visit_log {ops : List Op} (hops : ∀ op ∈ ops, op.Balances) {root : RbTree RbData}
    (hrun : run step .nil ops = some root) (target : Int) :
    (root.visits (insertTurn target)).length ≤ 2 * Nat.log 2 (root.toList.length + 1) ∧
      (descend target [] root = none ↔ ∃ data ∈ root.visits (insertTurn target), data.key = target) ∧
      (∀ link, descend target [] root = some link →
        link.map Frame.entry = (root.visits (insertTurn target)).reverse) ∧
      (root.visits (searchTurn target)).length ≤ 2 * Nat.log 2 (root.toList.length + 1) ∧
      search (some root) target = (root.visits (searchTurn target)).find? (fun data => data.val = target) := by
  obtain ⟨h, hb⟩ := balanced_of_run hops ⟨0, .nil⟩ hrun
  have hlength : ∀ turn : RbData → Option Side,
      (root.visits turn).length ≤ 2 * Nat.log 2 (root.toList.length + 1) := by
    intro turn
    exact Nat.le_trans (root.length_visits_le turn) hb.height_le_log
  refine ⟨hlength _, descend_none_visits root, ?_, hlength _, searchLoop_visits root target⟩
  intro link hlink
  have hvisits := descend_visits root hlink
  rwa [List.map_nil, List.append_nil] at hvisits

/-- Three insertions and a deletion with the functions of the kernel. -/
theorem loops_visit_log_kernel :
    let root : RbTree RbData := .node .black .nil ⟨2, 2⟩ (.node .red .nil ⟨3, 3⟩ .nil)
    (root.visits (insertTurn 3)).length ≤ 2 * Nat.log 2 (root.toList.length + 1) ∧
      (descend 3 [] root = none ↔ ∃ data ∈ root.visits (insertTurn 3), data.key = 3) ∧
      (∀ link, descend 3 [] root = some link →
        link.map Frame.entry = (root.visits (insertTurn 3)).reverse) ∧
      (root.visits (searchTurn 3)).length ≤ 2 * Nat.log 2 (root.toList.length + 1) ∧
      search (some root) 3 = (root.visits (searchTurn 3)).find? (fun data => data.val = 3) := by
  intro root
  let ops : List Op :=
    [.insert .kernel ⟨1, 1⟩, .insert .kernel ⟨2, 2⟩, .insert .kernel ⟨3, 3⟩, .erase .kernel ⟨1, 1⟩]
  refine @loops_visit_log ops ?_ root (by decide) 3
  intro op hop
  simp only [ops, List.mem_cons, List.not_mem_nil, or_false] at hop
  rcases hop with rfl | rfl | rfl | rfl
  · exact InsertColor.kernel_balances
  · exact InsertColor.kernel_balances
  · exact InsertColor.kernel_balances
  · exact Erase.kernel_balances

end LinuxDrivers.Rbtree
