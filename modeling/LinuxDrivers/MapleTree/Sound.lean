import LinuxDrivers.MapleTree.Exact

/-! What the kernel documents about the maple tree, and that the tests accept every tree that keeps to it. -/
namespace LinuxDrivers.MapleTree
open CountedLoop

variable {τ : Type*}

/-- A pointer that is not one of the entries the tree reserves for itself. -/
def Storable (p : Ptr) : Prop := p ≠ 0 ∧ ¬ (p &&& 3 = 2 ∧ p ≤ 1030)

def overwrite (entries : Index → Ptr) (first last : Index) (p : Ptr) : Index → Ptr :=
  fun i => if first ≤ i ∧ i ≤ last then p else entries i

/-- What is documented of the functions, with `entries` for what a tree holds, as long as the memory they need
can be allocated. -/
structure Api.Documented (api : Api τ) (entries : τ → Index → Ptr) : Prop where
  empty : ∀ t, api.mtreeEmpty t ↔ ∀ i, entries t i = 0
  /-- A tree with an entry behind index 0 has nodes. -/
  height : ∀ t i, i ≠ 0 → entries t i ≠ 0 → api.mtHeight t ≠ 0
  load : ∀ t i, api.mtreeLoad t i = entries t i
  insertRange_free : ∀ t first last p, Storable p → first ≤ last →
    (∀ i, first ≤ i → i ≤ last → entries t i = 0) →
    (api.mtreeInsertRange t first last p).1 = 0 ∧
      entries (api.mtreeInsertRange t first last p).2 = overwrite (entries t) first last p
  insertRange_taken : ∀ t first last p i, Storable p → first ≤ i → i ≤ last → entries t i ≠ 0 →
    (api.mtreeInsertRange t first last p).1 = -eexist ∧
      entries (api.mtreeInsertRange t first last p).2 = entries t
  insert : ∀ t i p, api.mtreeInsert t i p = api.mtreeInsertRange t i i p
  storeRange : ∀ t first last p, Storable p → first ≤ last →
    (api.mtreeStoreRange t first last p).1 = 0 ∧
      entries (api.mtreeStoreRange t first last p).2 = overwrite (entries t) first last p
  destroy : ∀ t i, entries (api.mtreeDestroy t) i = 0
  /-- The mode of a tree says nothing about its entries. -/
  setInRcu : ∀ t, entries (api.mtSetInRcu t) = entries t
  clearInRcu : ∀ t, entries (api.mtClearInRcu t) = entries t

theorem xaMkValue_storable (v : BitVec 64) : Storable (xaMkValue v) := by
  have hodd : (xaMkValue v).getLsbD 0 = true := by simp [xaMkValue]
  refine ⟨fun hzero => ?_, fun ⟨hreserved, _⟩ => ?_⟩
  · rw [hzero] at hodd
    cases hodd
  · have hbit := congrArg (fun b => BitVec.getLsbD b 0) hreserved
    simp only [BitVec.getLsbD_and, hodd] at hbit
    cases hbit

theorem indexValue_storable (i : Index) : Storable (indexValue i) := xaMkValue_storable _

theorem overwrite_self (entries : Index → Ptr) (i j : Index) (p : Ptr) :
    overwrite entries i i p j = if j = i then p else entries j := by
  rw [overwrite]
  refine if_congr ⟨?_, ?_⟩ rfl rfl
  · rintro ⟨hlow, hhigh⟩
    exact BitVec.le_antisymm hhigh hlow
  · rintro rfl
    exact ⟨BitVec.le_refl j, BitVec.le_refl j⟩

namespace Api.Documented

variable {api : Api τ} {entries : τ → Index → Ptr} (h : api.Documented entries)
include h

theorem insert_free {t : τ} {i : Index} {p : Ptr} (hp : Storable p) (hfree : entries t i = 0) :
    (api.mtreeInsert t i p).1 = 0 ∧
      ∀ j, entries (api.mtreeInsert t i p).2 j = if j = i then p else entries t j := by
  have hrange := h.insertRange_free t i i p hp (BitVec.le_refl i)
    (fun j hlow hhigh => BitVec.le_antisymm hhigh hlow ▸ hfree)
  rw [h.insert, hrange.2]
  exact ⟨hrange.1, fun j => overwrite_self _ i j p⟩

theorem insertIndex_free {t : τ} {i : Index} (hfree : entries t i = 0) :
    (mtreeInsertIndex api t i).1 = 0 ∧
      ∀ j, entries (mtreeInsertIndex api t i).2 j = if j = i then indexValue j else entries t j := by
  obtain ⟨hret, hentries⟩ := h.insert_free (indexValue_storable i) hfree
  refine ⟨hret, fun j => (hentries j).trans ?_⟩
  split
  · rename_i hj
    rw [hj]
  · rfl

/-- `check_seq` goes on right from a tree that holds the indexes below the next one. -/
theorem seq_right {max : Index} (hmax : max ≠ BitVec.allOnes 64) (i : Index) {t : τ}
    (ht : ∀ j, entries t j = if j < i then indexValue j else 0) (hi : i.toNat ≤ max.toNat + 1) :
    RightAnswers api id (SeqRight api) t (upTo i max) ∧
      ∀ j, entries (inserted api id t (upTo i max)) j = if j ≤ max then indexValue j else 0 := by
  induction hn : max.toNat + 1 - i.toNat generalizing i t with
  | zero =>
    rw [upTo_of_lt (by rw [BitVec.lt_def]; omega)]
    refine ⟨trivial, fun j => (ht j).trans (if_congr ?_ rfl rfl)⟩
    rw [BitVec.lt_def, BitVec.le_def]
    omega
  | succ n ih =>
    have hle : i ≤ max := by rw [BitVec.le_def]; omega
    have hnext := toNat_succ hle hmax
    obtain ⟨hret, hentries⟩ := h.insertIndex_free ((ht i).trans (if_neg (BitVec.lt_irrefl i)))
    have hafter : ∀ j, entries (mtreeInsertIndex api t i).2 j = if j < i + 1 then indexValue j else 0 := by
      intro j
      rw [hentries, ht, ← ite_or]
      refine if_congr ?_ rfl rfl
      rw [BitVec.lt_def, BitVec.lt_def, hnext, ← BitVec.toNat_inj]
      omega
    have hrest := ih (i + 1) hafter (by rw [hnext]; omega) (by rw [hnext]; omega)
    rw [upTo_of_le hle hmax]
    refine ⟨⟨hret, ⟨fun j hj => ?_, fun hzero => ?_, ?_⟩, hrest.1⟩, hrest.2⟩
    · rw [h.load, hafter, if_pos]
      rw [BitVec.lt_def, hnext]
      exact Nat.lt_succ_of_le hj
    · refine h.height _ i hzero ?_
      rw [hafter, if_pos (by rw [BitVec.lt_def, hnext]; exact Nat.lt_succ_self _)]
      exact (indexValue_storable i).1
    · rw [h.load, hafter, if_neg (BitVec.lt_irrefl _)]

theorem entries_throughRcu (t : τ) : entries (throughRcu api t) = entries t :=
  (h.clearInRcu (api.mtSetInRcu t)).trans (h.setInRcu t)

/-- `check_rev_seq` goes on right from a tree that holds the indexes above the next one. -/
theorem rev_right {max : Index} (i : Index) {t : τ}
    (ht : ∀ j, entries t j = if i < j ∧ j ≤ max then indexValue j else 0) (hi : i ≤ max) :
    RightAnswers api (throughRcu api) (RevRight api max) t (downFrom i) ∧
      ∀ j, entries (inserted api (throughRcu api) t (downFrom i)) j = if j ≠ 0 ∧ j ≤ max then indexValue j else 0 := by
  induction hn : i.toNat generalizing i t with
  | zero =>
    rw [downFrom, hn]
    refine ⟨trivial, fun j => (ht j).trans (if_congr (and_congr_left' ?_) rfl rfl)⟩
    rw [BitVec.lt_def, hn, ne_zero_iff]
  | succ n ih =>
    have hzero : i ≠ 0 := by rw [ne_zero_iff]; omega
    have hpred := toNat_pred hzero
    obtain ⟨hret, hentries⟩ := h.insertIndex_free ((ht i).trans (if_neg fun hj => BitVec.lt_irrefl i hj.1))
    have hafter : ∀ j, entries (mtreeInsertIndex api t i).2 j =
        if i - 1 < j ∧ j ≤ max then indexValue j else 0 := by
      intro j
      rw [hentries, ht, ← ite_or]
      refine if_congr ?_ rfl rfl
      rw [BitVec.le_def] at hi ⊢
      rw [BitVec.lt_def, BitVec.lt_def, hpred, ← BitVec.toNat_inj]
      omega
    have hbelow : i - 1 ≤ max := by
      rw [BitVec.le_def, hpred]
      exact Nat.le_trans (Nat.sub_le _ _) hi
    have hthere : entries (mtreeInsertIndex api t i).2 i ≠ 0 := by
      have hlt : i - 1 < i := by
        rw [BitVec.lt_def, hpred]
        omega
      rw [hafter, if_pos ⟨hlt, hi⟩]
      exact (indexValue_storable i).1
    have hbehind : ∀ j, entries (throughRcu api (mtreeInsertIndex api t i).2) j =
        if i - 1 < j ∧ j ≤ max then indexValue j else 0 := by
      intro j
      rw [h.entries_throughRcu, hafter]
    have hrest := ih (i - 1) hbehind hbelow (by rw [hpred]; omega)
    rw [downFrom_of_ne hzero]
    refine ⟨⟨hret, ⟨fun j hlow hhigh => ?_, ?_, ?_, ?_⟩, hrest.1⟩, hrest.2⟩
    · have hlt : i - 1 < j := by
        rw [BitVec.le_def] at hlow
        rw [BitVec.lt_def, hpred]
        omega
      rw [h.load, hafter, if_pos ⟨hlt, hhigh⟩]
    · rw [h.load, hafter, if_neg fun hj => BitVec.lt_irrefl _ hj.1]
    · exact h.height _ i hzero (by rwa [h.setInRcu])
    · exact h.height _ i hzero (by rwa [h.entries_throughRcu])

end Api.Documented

/-- Both tests accept every tree that keeps to what is documented, for every bound below `ULONG_MAX`, and leave
it filled with the entries up to the bound, `check_rev_seq` without index 0. -/
theorem seq_tests_accept {api : Api τ} {entries : τ → Index → Ptr} (h : api.Documented entries) {t : τ}
    (hempty : ∀ i, entries t i = 0) {max : Index} (hmax : max ≠ BitVec.allOnes 64) {fuel : Nat}
    (hfuel : max.toNat + 1 < fuel) (bugs : Nat) :
    (∃ t', checkSeq api max fuel ⟨t, bugs⟩ = some ⟨t', bugs⟩ ∧
      ∀ j, entries t' j = if j ≤ max then indexValue j else 0) ∧
    (∃ t', checkRevSeq api max fuel ⟨t, bugs⟩ = some ⟨t', bugs⟩ ∧
      ∀ j, entries t' j = if j ≠ 0 ∧ j ≤ max then indexValue j else 0) := by
  obtain ⟨hseq, hseqEntries⟩ := h.seq_right hmax 0
    (fun j => (hempty j).trans (if_neg (Nat.not_lt_zero j.toNat)).symm) (Nat.zero_le _)
  obtain ⟨hrev, hrevEntries⟩ := h.rev_right max
    (fun j => (hempty j).trans (if_neg fun hj => BitVec.not_lt.mpr hj.2 hj.1).symm) (BitVec.le_refl max)
  obtain ⟨s₁, hrun₁, htells₁⟩ := checkSeq_tells api hmax hfuel ⟨t, bugs⟩
  obtain ⟨s₂, hrun₂, htells₂⟩ := checkRevSeq_tells api hmax hfuel ⟨t, bugs⟩
  have hbeyond : api.mtreeLoad (inserted api (throughRcu api) t (downFrom max)) (max + 1) = 0 := by
    rw [h.load, hrevEntries, if_neg]
    rintro ⟨-, hle⟩
    rw [BitVec.le_def, toNat_succ (BitVec.le_refl max) hmax] at hle
    exact Nat.not_succ_le_self _ hle
  have hbugs₁ : s₁.bugs = bugs := htells₁.quiet.mpr ⟨(h.empty t).mpr hempty, hseq⟩
  have hbugs₂ : s₂.bugs = bugs := htells₂.quiet.mpr ⟨(h.empty t).mpr hempty, hrev, hbeyond⟩
  refine ⟨⟨s₁.tree, ?_, ?_⟩, s₂.tree, ?_, ?_⟩
  · rw [hrun₁, ← hbugs₁]
  · rw [htells₁.tree]
    exact hseqEntries
  · rw [hrun₂, ← hbugs₂]
  · rw [htells₂.tree]
    exact hrevEntries

def plainInsert (t : Index → Ptr) (first last : Index) (p : Ptr) : Int × (Index → Ptr) :=
  if ∃ i, (first ≤ i ∧ i ≤ last) ∧ t i ≠ 0 then (-eexist, t) else (0, overwrite t first last p)

def plainTree : Api (Index → Ptr) where
  mtreeEmpty t := decide (∀ i, t i = 0)
  mtHeight t := if ∃ i, i ≠ 0 ∧ t i ≠ 0 then 1 else 0
  mtreeLoad t i := t i
  mtreeInsertRange := plainInsert
  mtreeInsert t i p := plainInsert t i i p
  mtreeStoreRange t first last p := (0, overwrite t first last p)
  mtreeDestroy _ := fun _ => 0
  mtSetInRcu t := t
  mtClearInRcu t := t

theorem plainTree_documented : plainTree.Documented fun t => t where
  empty t := by simp [plainTree]
  height t i hi ht := by
    simp only [plainTree]
    rw [if_pos ⟨i, hi, ht⟩]
    decide
  load _ _ := rfl
  insertRange_free t first last p _ _ hfree := by
    have hnone : ¬ ∃ i, (first ≤ i ∧ i ≤ last) ∧ t i ≠ 0 := fun ⟨i, hi, hne⟩ => hne (hfree i hi.1 hi.2)
    simp only [plainTree, plainInsert, if_neg hnone, and_self]
  insertRange_taken t first last p i _ hlow hhigh hne := by
    have hsome : ∃ i, (first ≤ i ∧ i ≤ last) ∧ t i ≠ 0 := ⟨i, ⟨hlow, hhigh⟩, hne⟩
    simp only [plainTree, plainInsert, if_pos hsome, and_self]
  insert _ _ _ := rfl
  storeRange _ _ _ _ _ _ := ⟨rfl, rfl⟩
  destroy _ _ := rfl
  setInRcu _ := rfl
  clearInRcu _ := rfl

theorem seq_tests_accept_three :
    (∃ t', checkSeq plainTree 3 5 ⟨fun _ => 0, 0⟩ = some ⟨t', 0⟩ ∧
      ∀ j, t' j = if j ≤ 3 then indexValue j else 0) ∧
    (∃ t', checkRevSeq plainTree 3 5 ⟨fun _ => 0, 0⟩ = some ⟨t', 0⟩ ∧
      ∀ j, t' j = if j ≠ 0 ∧ j ≤ 3 then indexValue j else 0) :=
  seq_tests_accept plainTree_documented (fun _ => rfl) (by decide) (by decide) 0

end LinuxDrivers.MapleTree
