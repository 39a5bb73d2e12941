import Mathlib.Algebra.Group.Nat.Defs
import LinuxDrivers.MapleTree.Sound

/-! mt_tree.c: walks over the entries of a tree, and the tests that copy a tree on such a walk. -/
namespace LinuxDrivers.MapleTree
open CountedLoop

variable {τ σ : Type*}

abbrev ulongMax : Index := BitVec.allOnes 64

/-- `struct ma_state`; a state that is set has not started to walk. -/
structure Mas where
  index : Index
  last : Index
  started : Bool
  deriving DecidableEq, Repr

def masSet (index : Index) : Mas := ⟨index, index, false⟩

structure MasApi (τ : Type*) extends Api τ where
  mtInitFlags : BitVec 32 → τ
  masFind : τ → Mas → Index → Ptr × Mas
  masExpectedEntries : τ → Index → Int
  /-- `mas_store` goes by the two indexes of its state. -/
  masStore : τ → Index → Index → Ptr → τ
  masStoreGfp : τ → Index → Index → Ptr → Int × τ
  /-- Of the state that stored into the tree. -/
  masDestroy : τ → τ
  mtreeErase : τ → Index → Ptr × τ
  /-- The number of reports `mt_validate` makes. -/
  mtValidate : τ → Nat

section Tests

variable (api : MasApi τ)

def masForEach (max : Index) (body : Mas → Ptr → σ → σ) (t : τ) : Nat → Mas → σ → Option σ
  | 0, _, _ => none
  | fuel+1, mas, s =>
      let (entry, mas) := api.masFind t mas max
      if entry = 0 then some s else masForEach max body t fuel mas (body mas entry s)

end Tests

def Mas.Ahead (mas : Mas) (j : Index) : Prop := if mas.started then mas.last < j else mas.index ≤ j

structure Found (entries : Index → Ptr) (j : Index) (found : Ptr × Mas) : Prop where
  entry : found.1 = entries j
  started : found.2.started = true
  index : found.2.index ≤ j
  last : j ≤ found.2.last
  range : ∀ i, found.2.index ≤ i → i ≤ found.2.last → entries i = entries j

/-- What is documented of these functions, as long as the memory they need can be allocated. -/
structure MasApi.Documented (api : MasApi τ) (entries : τ → Index → Ptr) : Prop extends
    api.toApi.Documented entries where
  find : ∀ t mas max j, mas.Ahead j → j ≤ max → entries t j ≠ 0 →
    (∀ i, mas.Ahead i → i < j → entries t i = 0) → Found (entries t) j (api.masFind t mas max)
  find_none : ∀ t mas max, (∀ j, mas.Ahead j → j ≤ max → entries t j = 0) → (api.masFind t mas max).1 = 0
  init : ∀ flags i, entries (api.mtInitFlags flags) i = 0
  expectedEntries : ∀ t n, api.masExpectedEntries t n = 0
  /-- What one tree holds another one can hold. -/
  store : ∀ t t' first last i, first ≤ last → entries t' i ≠ 0 →
    entries (api.masStore t first last (entries t' i)) = overwrite (entries t) first last (entries t' i)
  storeGfp : ∀ t t' first last i, first ≤ last → entries t' i ≠ 0 →
    (api.masStoreGfp t first last (entries t' i)).1 = 0 ∧
      entries (api.masStoreGfp t first last (entries t' i)).2 = overwrite (entries t) first last (entries t' i)
  /-- Nodes left over are freed, and those of the tree balanced. -/
  finish : ∀ t, entries (api.masDestroy t) = entries t
  /-- Only a tree out of order is reported, and no function leaves one behind. -/
  validate : ∀ t, api.mtValidate t = 0
  /-- The whole range of the entry is erased. -/
  erase : ∀ t i, (api.mtreeErase t i).1 = entries t i ∧
    ∃ first last, first ≤ i ∧ i ≤ last ∧ (∀ j, first ≤ j → j ≤ last → entries t j = entries t i) ∧
      entries (api.mtreeErase t i).2 = overwrite (entries t) first last 0

def Mas.left (mas : Mas) : Nat := 2^64 - if mas.started then mas.last.toNat + 1 else mas.index.toNat

theorem Mas.left_lt {mas mas' : Mas} {j : Index} (h : mas.Ahead j) (hstarted : mas'.started = true)
    (hlast : j ≤ mas'.last) : mas'.left < mas.left := by
  have hj := mas'.last.isLt
  rw [BitVec.le_def] at hlast
  rw [Ahead] at h
  rw [left, left, if_pos hstarted]
  split at h
  · rename_i hmas
    rw [BitVec.lt_def] at h
    rw [if_pos hmas]
    omega
  · rename_i hmas
    rw [BitVec.le_def] at h
    rw [if_neg hmas]
    omega

theorem Mas.ahead_of_started {mas : Mas} {j : Index} (h : mas.started = true) : mas.Ahead j ↔ mas.last < j := by
  rw [Ahead, if_pos h]

theorem exists_least {p : Index → Prop} (h : ∃ j, p j) : ∃ j, p j ∧ ∀ i, i < j → ¬p i := by
  obtain ⟨j, hj⟩ := h
  induction hn : j.toNat using Nat.strongRecOn generalizing j with
  | ind n ih =>
    by_cases hless : ∃ i, i < j ∧ p i
    · obtain ⟨i, hi, hpi⟩ := hless
      exact ih i.toNat (hn ▸ BitVec.lt_def.mp hi) i hpi rfl
    · exact ⟨j, hj, fun i hi hpi => hless ⟨i, hi, hpi⟩⟩

namespace MasApi.Documented

variable {api : MasApi τ} {entries : τ → Index → Ptr} (h : api.Documented entries)
include h

/-- The rule of a walk: what its body keeps from one entry to the next holds when none is ahead any more. -/
theorem masForEach_rule (t : τ) (body : Mas → Ptr → σ → σ) (inv : Mas → σ → Prop)
    (hbody : ∀ mas mas' j s, inv mas s → mas.Ahead j → (∀ i, mas.Ahead i → i < j → entries t i = 0) →
      entries t j ≠ 0 → Found (entries t) j (entries t j, mas') → inv mas' (body mas' (entries t j) s))
    {fuel : Nat} {mas : Mas} {s : σ} (hinv : inv mas s) (hfuel : mas.left < fuel) :
    ∃ mas' s', masForEach api ulongMax body t fuel mas s = some s' ∧ inv mas' s' ∧
      ∀ j, mas'.Ahead j → entries t j = 0 := by
  induction fuel generalizing mas s with
  | zero => exact absurd hfuel (Nat.not_lt_zero _)
  | succ fuel ih =>
    rw [masForEach]
    by_cases hex : ∃ j, mas.Ahead j ∧ entries t j ≠ 0
    · obtain ⟨j, ⟨hahead, hj⟩, hleast⟩ := exists_least hex
      have hgap : ∀ i, mas.Ahead i → i < j → entries t i = 0 := by
        intro i hi hlt
        by_contra hne
        exact hleast i hlt ⟨hi, hne⟩
      have hfound := h.find t mas ulongMax j hahead (BitVec.not_lt.mp BitVec.not_allOnes_lt) hj hgap
      generalize api.masFind t mas ulongMax = found at hfound
      obtain ⟨entry, mas'⟩ := found
      obtain rfl : entry = entries t j := hfound.entry
      dsimp only
      rw [if_neg hj]
      have hleft := Mas.left_lt hahead hfound.started hfound.last
      exact ih (hbody mas mas' j s hinv hahead hgap hj hfound) (Nat.lt_of_lt_of_le hleft (Nat.le_of_lt_succ hfuel))
    · have hnone : ∀ j, mas.Ahead j → entries t j = 0 := by
        intro j hj
        by_contra hne
        exact hex ⟨j, hj, hne⟩
      dsimp only
      rw [if_pos (h.find_none t mas ulongMax fun j hj _ => hnone j hj)]
      exact ⟨mas, s, rfl, hinv, hnone⟩

end MasApi.Documented

def runUp (f : Nat → Ptr) (k : Nat) : Nat → Nat
  | 0 => k
  | n+1 => if f (k + 1) = f k then runUp f (k + 1) n else k

def runDown (f : Nat → Ptr) : Nat → Nat
  | 0 => 0
  | k+1 => if f k = f (k + 1) then runDown f k else k + 1

theorem runUp_spec (f : Nat → Ptr) (k n : Nat) :
    k ≤ runUp f k n ∧ runUp f k n ≤ k + n ∧ ∀ i, k ≤ i → i ≤ runUp f k n → f i = f k := by
  induction n generalizing k with
  | zero => exact ⟨Nat.le_refl k, Nat.le_refl k, fun i hlow hhigh => by rw [Nat.le_antisymm hhigh hlow]; rfl⟩
  | succ n ih =>
    rw [runUp]
    split
    · rename_i hsame
      obtain ⟨hlow, hhigh, hrun⟩ := ih (k + 1)
      refine ⟨by omega, by omega, fun i hi hi' => ?_⟩
      rcases Nat.eq_or_lt_of_le hi with rfl | hlt
      · rfl
      · rw [hrun i hlt hi', hsame]
    · exact ⟨Nat.le_refl k, by omega, fun i hlow hhigh => by rw [Nat.le_antisymm hhigh hlow]⟩

theorem runDown_spec (f : Nat → Ptr) (k : Nat) : runDown f k ≤ k ∧ ∀ i, runDown f k ≤ i → i ≤ k → f i = f k := by
  induction k with
  | zero => exact ⟨Nat.le_refl 0, fun i _ hi => by rw [Nat.le_zero.mp hi]⟩
  | succ k ih =>
    rw [runDown]
    split
    · rename_i hsame
      refine ⟨by omega, fun i hi hi' => ?_⟩
      rcases Nat.eq_or_lt_of_le hi' with rfl | hlt
      · rfl
      · rw [ih.2 i hi (Nat.le_of_lt_succ hlt), hsame]
    · exact ⟨Nat.le_refl _, fun i hlow hhigh => by rw [Nat.le_antisymm hhigh hlow]⟩

def plainRange (t : Index → Ptr) (j : Index) : Index × Index :=
  let f := fun k => t (BitVec.ofNat 64 k)
  (BitVec.ofNat 64 (runDown f j.toNat), BitVec.ofNat 64 (runUp f j.toNat (2^64 - 1 - j.toNat)))

theorem plainRange_spec (t : Index → Ptr) (j : Index) : (plainRange t j).1 ≤ j ∧ j ≤ (plainRange t j).2 ∧
    ∀ i, (plainRange t j).1 ≤ i → i ≤ (plainRange t j).2 → t i = t j := by
  obtain ⟨hdown, hbelow⟩ := runDown_spec (fun k => t (BitVec.ofNat 64 k)) j.toNat
  obtain ⟨hup, hmax, habove⟩ := runUp_spec (fun k => t (BitVec.ofNat 64 k)) j.toNat (2^64 - 1 - j.toNat)
  have hj := j.isLt
  have hfirst : (plainRange t j).1.toNat = runDown (fun k => t (BitVec.ofNat 64 k)) j.toNat :=
    (BitVec.toNat_ofNat _ _).trans (Nat.mod_eq_of_lt (by omega))
  have hlast : (plainRange t j).2.toNat = runUp (fun k => t (BitVec.ofNat 64 k)) j.toNat (2^64 - 1 - j.toNat) :=
    (BitVec.toNat_ofNat _ _).trans (Nat.mod_eq_of_lt (by omega))
  refine ⟨by rw [BitVec.le_def]; omega, by rw [BitVec.le_def]; omega, fun i hlow hhigh => ?_⟩
  rw [BitVec.le_def] at hlow hhigh
  have hself : ∀ k : Index, t (BitVec.ofNat 64 k.toNat) = t k := fun k => by rw [BitVec.ofNat_toNat, BitVec.setWidth_eq]
  rcases Nat.le_total i.toNat j.toNat with hle | hle
  · exact (hself i).symm.trans ((hbelow i.toNat (by omega) hle).trans (hself j))
  · exact (hself i).symm.trans ((habove i.toNat hle (by omega)).trans (hself j))

def Mas.next (mas : Mas) : Nat := if mas.started then mas.last.toNat + 1 else mas.index.toNat

theorem Mas.ahead_iff {mas : Mas} {j : Index} : mas.Ahead j ↔ mas.next ≤ j.toNat := by
  rw [Ahead, Mas.next]
  split
  · exact BitVec.lt_def
  · exact BitVec.le_def

def plainFind (t : Index → Ptr) (mas : Mas) (max : Index) : Ptr × Mas :=
  match (List.range' mas.next (max.toNat + 1 - mas.next)).find? (fun k => t (BitVec.ofNat 64 k) ≠ 0) with
  | some k => (t (BitVec.ofNat 64 k), ⟨(plainRange t (BitVec.ofNat 64 k)).1, (plainRange t (BitVec.ofNat 64 k)).2, true⟩)
  | none => (0, mas)

def plainMas : MasApi (Index → Ptr) where
  toApi := plainTree
  mtInitFlags _ := fun _ => 0
  masFind := plainFind
  masExpectedEntries _ _ := 0
  masStore := overwrite
  masStoreGfp t first last p := (0, overwrite t first last p)
  masDestroy t := t
  mtreeErase t i := (t i, overwrite t (plainRange t i).1 (plainRange t i).2 0)
  mtValidate _ := 0

theorem plainFind_found {t : Index → Ptr} {mas : Mas} {max j : Index} (hahead : mas.Ahead j) (hmax : j ≤ max)
    (hj : t j ≠ 0) (hgap : ∀ i, mas.Ahead i → i < j → t i = 0) : Found t j (plainFind t mas max) := by
  rw [Mas.ahead_iff] at hahead
  rw [BitVec.le_def] at hmax
  have hself : BitVec.ofNat 64 j.toNat = j := by rw [BitVec.ofNat_toNat, BitVec.setWidth_eq]
  have hfind : (List.range' mas.next (max.toNat + 1 - mas.next)).find? (fun k => t (BitVec.ofNat 64 k) ≠ 0) =
      some j.toNat := by
    refine List.find?_range'_eq_some.mpr ⟨by simpa [hself] using hj, List.mem_range'_1.mpr (by omega), fun k hk hlt => ?_⟩
    have hnat : (BitVec.ofNat 64 k).toNat = k :=
      (BitVec.toNat_ofNat _ _).trans (Nat.mod_eq_of_lt (by have := j.isLt; omega))
    have hzero := hgap (BitVec.ofNat 64 k) (Mas.ahead_iff.mpr (by rw [hnat]; exact hk)) (by rw [BitVec.lt_def, hnat]; exact hlt)
    simpa using hzero
  obtain ⟨hfirst, hlast, hrange⟩ := plainRange_spec t j
  rw [plainFind, hfind]
  simp only [hself]
  exact ⟨rfl, rfl, hfirst, hlast, hrange⟩

theorem plainFind_none {t : Index → Ptr} {mas : Mas} {max : Index} (h : ∀ j, mas.Ahead j → j ≤ max → t j = 0) :
    (plainFind t mas max).1 = 0 := by
  have hfind : (List.range' mas.next (max.toNat + 1 - mas.next)).find? (fun k => t (BitVec.ofNat 64 k) ≠ 0) = none := by
    refine List.find?_eq_none.mpr fun k hk => ?_
    have hrange := List.mem_range'_1.mp hk
    have hnat : (BitVec.ofNat 64 k).toNat = k :=
      (BitVec.toNat_ofNat _ _).trans (Nat.mod_eq_of_lt (by have := max.isLt; omega))
    have hzero := h (BitVec.ofNat 64 k) (Mas.ahead_iff.mpr (by omega)) (by rw [BitVec.le_def]; omega)
    simpa using hzero
  rw [plainFind, hfind]

theorem plainMas_documented : plainMas.Documented fun t => t where
  toDocumented := plainTree_documented
  find _ _ _ _ hahead hmax hj hgap := plainFind_found hahead hmax hj hgap
  find_none _ _ _ h := plainFind_none h
  init _ _ := rfl
  expectedEntries _ _ := rfl
  store _ _ _ _ _ _ _ := rfl
  storeGfp _ _ _ _ _ _ _ := ⟨rfl, rfl⟩
  finish _ := rfl
  validate _ := rfl
  erase t i := by
    obtain ⟨hfirst, hlast, hrange⟩ := plainRange_spec t i
    exact ⟨rfl, _, _, hfirst, hlast, hrange, rfl⟩

end LinuxDrivers.MapleTree
