import LinuxDrivers.MapleTree.Walk

/-! mt_tree.c: `check_find_2`, which fills a tree index by index, empties it again, and walks it in between. -/
namespace LinuxDrivers.MapleTree
open CountedLoop

variable {τ : Type*}

abbrev xaZeroEntry : Ptr := 1030

section Tests

variable (api : MasApi τ)

def mtreeEraseIndex (s : Bench τ) (index : Index) : Bench τ :=
  let (ptr, t) := api.mtreeErase s.tree index
  let s := { s with tree := t }.bugOn (ptr ≠ indexValue index)
  s.bugOn (api.mtreeLoad s.tree index ≠ 0)

/-- The body of the walks; only behind an erasure reserved entries are passed over. -/
def countEntry (erased : Bool) (entry : Ptr) (found : Index × Bench τ) : Index × Bench τ :=
  if erased ∧ entry = xaZeroEntry then found
  else (found.1 + 1, found.2.bugOn (entry ≠ xaMkValue found.1))

def countEntries (erased : Bool) (j expected : Index) (fuel : Nat) (s : Bench τ) : Option (Bench τ) := do
  let (j, s) ← masForEach api ulongMax (fun _ entry found => countEntry erased entry found) s.tree fuel (masSet 0) (j, s)
  pure (s.bugOn (j ≠ expected))

/-- `check_find_2`, with `limit` for its 256. -/
def checkFind2 (limit : Index) (fuel : Nat) (s : Bench τ) : Option (Bench τ) := do
  let s ← masForEach api ulongMax (fun _ _ s => s.bugOn true) s.tree fuel (masSet 0) s
  let s ← loop (fun i => i < limit) (· + 1)
    (fun i s => countEntries api false 0 (i + 1) fuel { s with tree := (mtreeInsertIndex api.toApi s.tree i).2 })
    fuel 0 s
  loop (fun i => i < limit) (· + 1)
    (fun i s => countEntries api true (i + 1) limit fuel (mtreeEraseIndex api s i)) fuel 0 s

end Tests

def segment (first limit : Index) (j : Index) : Ptr := if first ≤ j ∧ j < limit then indexValue j else 0

theorem indexValue_of_lt {j : Index} (hj : j.toNat < 2^63) : indexValue j = xaMkValue j := by
  have hmask : j &&& longMax = j := by
    apply BitVec.eq_of_toNat_eq
    rw [BitVec.toNat_and, show longMax.toNat = 2^63 - 1 from rfl, Nat.and_two_pow_sub_one_eq_mod, Nat.mod_eq_of_lt hj]
  rw [indexValue, hmask]

theorem toNat_xaMkValue {v : BitVec 64} (hv : v.toNat < 2^63) : (xaMkValue v).toNat = v.toNat * 2 + 1 := by
  have hshift : v.toNat <<< 1 < 2^64 := by
    rw [Nat.shiftLeft_eq]
    omega
  rw [xaMkValue, BitVec.toNat_or, BitVec.toNat_shiftLeft, Nat.mod_eq_of_lt hshift]
  change v.toNat <<< 1 ||| 1 = _
  rw [← Nat.shiftLeft_add_eq_or_of_lt (by decide), Nat.shiftLeft_eq]

theorem xaMkValue_ne_zeroEntry {v : BitVec 64} (hv : v.toNat < 2^63) : xaMkValue v ≠ xaZeroEntry := by
  intro h
  have hnat := congrArg BitVec.toNat h
  rw [toNat_xaMkValue hv] at hnat
  change _ = 1030 at hnat
  omega

section Segment

variable {first limit : Index}

theorem segment_of_mem {j : Index} (h : first ≤ j ∧ j < limit) : segment first limit j = indexValue j := if_pos h

theorem segment_of_notMem {j : Index} (h : ¬(first ≤ j ∧ j < limit)) : segment first limit j = 0 := if_neg h

theorem segment_ne_zero {j : Index} : segment first limit j ≠ 0 ↔ first ≤ j ∧ j < limit := by
  constructor
  · intro h
    by_contra hj
    exact h (segment_of_notMem hj)
  · intro h
    rw [segment_of_mem h]
    exact (indexValue_storable j).1

/-- An entry of a segment stands at its own index alone. -/
theorem segment_eq {i j : Index} (hlimit : limit.toNat ≤ 2^63) (hj : first ≤ j ∧ j < limit)
    (h : segment first limit i = segment first limit j) : i = j := by
  have hi : first ≤ i ∧ i < limit := by
    rw [← segment_ne_zero, h, segment_ne_zero]
    exact hj
  have hibound : i.toNat < 2^63 := Nat.lt_of_lt_of_le hi.2 hlimit
  have hjbound : j.toNat < 2^63 := Nat.lt_of_lt_of_le hj.2 hlimit
  rw [segment_of_mem hi, segment_of_mem hj, indexValue_of_lt hibound, indexValue_of_lt hjbound] at h
  have hnat := congrArg BitVec.toNat h
  rw [toNat_xaMkValue hibound, toNat_xaMkValue hjbound] at hnat
  exact BitVec.eq_of_toNat_eq (by omega)

/-- So a range of one value around it is the entry itself. -/
theorem range_eq {lo hi j : Index} (hlimit : limit.toNat ≤ 2^63) (hj : first ≤ j ∧ j < limit) (hlo : lo ≤ j) (hhi : j ≤ hi)
    (h : ∀ i, lo ≤ i → i ≤ hi → segment first limit i = segment first limit j) : lo = j ∧ hi = j :=
  ⟨segment_eq hlimit hj (h lo (BitVec.le_refl lo) (BitVec.le_trans hlo hhi)),
    segment_eq hlimit hj (h hi (BitVec.le_trans hlo hhi) (BitVec.le_refl hi))⟩

theorem segment_succ {i : Index} (hi : first ≤ i) (hone : (i + 1).toNat = i.toNat + 1) (j : Index) :
    (if j = i then indexValue j else segment first i j) = segment first (i + 1) j := by
  rw [segment, segment]
  by_cases hj : j = i
  · subst hj
    rw [if_pos rfl, if_pos ⟨hi, by rw [BitVec.lt_def, hone]; omega⟩]
  · have hne : j.toNat ≠ i.toNat := fun h => hj (BitVec.eq_of_toNat_eq h)
    rw [if_neg hj]
    refine if_congr (and_congr_right fun _ => ?_) rfl rfl
    rw [BitVec.lt_def, BitVec.lt_def, hone]
    omega

theorem overwrite_segment_zero {i : Index} (hone : (i + 1).toNat = i.toNat + 1) :
    overwrite (segment i limit) i i 0 = segment (i + 1) limit := by
  funext j
  rw [overwrite_self, segment, segment]
  by_cases hj : j = i
  · subst hj
    rw [if_pos rfl, if_neg]
    rw [BitVec.le_def, hone]
    omega
  · have hne : j.toNat ≠ i.toNat := fun h => hj (BitVec.eq_of_toNat_eq h)
    rw [if_neg hj]
    refine if_congr (and_congr_left fun _ => ?_) rfl rfl
    rw [BitVec.le_def, BitVec.le_def, hone]
    omega

end Segment

structure Counted (first limit : Index) (s : Bench τ) (mas : Mas) (found : Index × Bench τ) : Prop where
  bench : found.2 = s
  low : first ≤ found.1
  high : found.1 ≤ limit
  ahead : ∀ i, first ≤ i → i < limit → (mas.Ahead i ↔ found.1 ≤ i)

theorem Counted.step {first limit : Index} (hlimit : limit.toNat ≤ 2^63) (erased : Bool) {s : Bench τ} {mas mas' : Mas}
    {k : Index} {found : Index × Bench τ} (h : Counted first limit s mas found) (hahead : mas.Ahead k)
    (hgap : ∀ i, mas.Ahead i → i < k → segment first limit i = 0) (hk : segment first limit k ≠ 0)
    (hfound : Found (segment first limit) k (segment first limit k, mas')) :
    Counted first limit s mas' (countEntry erased (segment first limit k) found) := by
  obtain ⟨j, s'⟩ := found
  obtain ⟨rfl, hlow, hhigh, hcounted⟩ := h
  have hin := segment_ne_zero.mp hk
  have hjk : j ≤ k := (hcounted k hin.1 hin.2).mp hahead
  obtain rfl : k = j := by
    refine BitVec.le_antisymm (BitVec.not_lt.mp fun hlt => ?_) hjk
    have hj : first ≤ j ∧ j < limit := ⟨hlow, Nat.lt_trans hlt hin.2⟩
    exact segment_ne_zero.mpr hj (hgap j ((hcounted j hj.1 hj.2).mpr (BitVec.le_refl j)) hlt)
  have hbound : k.toNat < 2^63 := Nat.lt_of_lt_of_le hin.2 hlimit
  have hone : (k + 1).toNat = k.toNat + 1 := BitVec.toNat_add_of_lt (by change k.toNat + 1 < _; omega)
  have hvalue : segment first limit k = xaMkValue k := by rw [segment_of_mem hin, indexValue_of_lt hbound]
  have hcount : countEntry erased (segment first limit k) (k, s') = (k + 1, s') := by
    rw [hvalue, countEntry, if_neg fun hzero => xaMkValue_ne_zeroEntry hbound hzero.2]
    simp [Bench.bugOn]
  obtain ⟨-, hlast⟩ := range_eq hlimit hin hfound.index hfound.last hfound.range
  rw [hcount]
  refine ⟨rfl, ?_, ?_, fun i _ _ => ?_⟩
  · rw [BitVec.le_def, hone]
    exact Nat.le_succ_of_le hin.1
  · rw [BitVec.le_def, hone]
    exact hin.2
  · rw [Mas.ahead_of_started hfound.started, BitVec.le_def, hone]
    change mas'.last < i ↔ k.toNat < i.toNat
    rw [show mas'.last = k from hlast]
    exact Iff.rfl

namespace MasApi.Documented

variable {api : MasApi τ} {entries : τ → Index → Ptr} (h : api.Documented entries)
include h

/-- A walk over a segment counts it, and has nothing to report. -/
theorem countEntries_segment {first limit : Index} (hlimit : limit.toNat ≤ 2^63) (hle : first ≤ limit) (erased : Bool)
    {fuel : Nat} (hfuel : 2^64 < fuel) {s : Bench τ} (hs : entries s.tree = segment first limit) :
    countEntries api erased first limit fuel s = some s := by
  have hleft : (masSet 0).left < fuel := Nat.lt_of_le_of_lt (Nat.sub_le _ _) hfuel
  have hstart : Counted first limit s (masSet 0) (first, s) :=
    ⟨rfl, BitVec.le_refl first, hle, fun i hi _ => iff_of_true (Nat.zero_le _) hi⟩
  obtain ⟨mas, ⟨j, s'⟩, hwalk, hcounted, hnone⟩ := h.masForEach_rule s.tree (fun _ entry => countEntry erased entry)
    (Counted first limit s)
    (by rw [hs]; exact fun _ _ _ _ hinv hahead hgap hk hfound => hinv.step hlimit erased hahead hgap hk hfound)
    hstart hleft
  obtain ⟨rfl, hlow, hhigh, hahead⟩ := hcounted
  obtain rfl : j = limit := by
    refine BitVec.le_antisymm hhigh (BitVec.not_lt.mp fun hlt => ?_)
    have hzero := hnone j ((hahead j hlow hlt).mpr (BitVec.le_refl j))
    rw [hs] at hzero
    exact segment_ne_zero.mpr ⟨hlow, hlt⟩ hzero
  rw [countEntries, hwalk]
  simp [Bench.bugOn]

theorem insert_segment {t : τ} {i : Index} (hone : (i + 1).toNat = i.toNat + 1) (ht : entries t = segment 0 i) :
    entries (mtreeInsertIndex api.toApi t i).2 = segment 0 (i + 1) := by
  have hfree : entries t i = 0 := by
    rw [ht]
    exact segment_of_notMem fun hi => BitVec.lt_irrefl i hi.2
  funext j
  rw [(h.insertIndex_free hfree).2 j, ht]
  exact segment_succ (Nat.zero_le _) hone j

theorem erase_segment {limit i : Index} (hlimit : limit.toNat ≤ 2^63) (hi : i < limit)
    (hone : (i + 1).toNat = i.toNat + 1) {s : Bench τ} (hs : entries s.tree = segment i limit) :
    (mtreeEraseIndex api s i).bugs = s.bugs ∧
      entries (mtreeEraseIndex api s i).tree = segment (i + 1) limit := by
  have hin : i ≤ i ∧ i < limit := ⟨BitVec.le_refl i, hi⟩
  obtain ⟨hptr, first, last, hfirst, hlast, hrange, herased⟩ := h.erase s.tree i
  rw [hs] at hptr hrange herased
  obtain ⟨hfirst, hlast⟩ := range_eq hlimit hin hfirst hlast hrange
  rw [hfirst, hlast] at herased
  rw [segment_of_mem hin] at hptr
  have hafter := herased.trans (overwrite_segment_zero hone)
  have hgone : api.mtreeLoad (api.mtreeErase s.tree i).2 i = 0 := by
    rw [h.load, hafter, segment_of_notMem]
    rintro ⟨hle, -⟩
    rw [BitVec.le_def, hone] at hle
    exact Nat.not_succ_le_self _ hle
  exact ⟨by simp [mtreeEraseIndex, Bench.bugOn, hptr, hgone], hafter⟩

end MasApi.Documented

/-- `check_find_2` accepts every tree that keeps to the documentation, whatever the number of indexes it inserts and
erases again, and leaves it empty. -/
theorem find_test_accepts {api : MasApi τ} {entries : τ → Index → Ptr} (h : api.Documented entries) {limit : Index}
    (hlimit : limit.toNat ≤ 2^63) {fuel : Nat} (hfuel : 2^64 < fuel) {s : Bench τ} (hs : ∀ i, entries s.tree i = 0) :
    ∃ s', checkFind2 api limit fuel s = some s' ∧ s'.bugs = s.bugs ∧ ∀ i, entries s'.tree i = 0 := by
  have hempty : ∀ i : Index, segment i i = fun _ => 0 := fun i => funext fun j =>
    segment_of_notMem fun hj => BitVec.lt_irrefl i (Nat.lt_of_le_of_lt hj.1 hj.2)
  have hsucc : ∀ i < limit, (i + 1).toNat = i.toNat + 1 := fun i hi =>
    BitVec.toNat_add_of_lt (by rw [BitVec.lt_def] at hi; change i.toNat + 1 < _; omega)
  have hstart : masForEach api ulongMax (fun _ _ s => s.bugOn true) s.tree fuel (masSet 0) s = some s := by
    obtain ⟨_, s', hwalk, rfl, _⟩ := h.masForEach_rule s.tree (fun _ _ s => s.bugOn true) (fun _ s' => s' = s)
      (fun _ _ j _ _ _ _ hj _ => absurd (hs j) hj) rfl (Nat.lt_of_le_of_lt (Nat.sub_le _ _) hfuel)
    exact hwalk
  obtain ⟨s₁, hfill, hbugs₁, htree₁⟩ := loop_below_rule limit
    (fun i (s' : Bench τ) => s'.bugs = s.bugs ∧ entries s'.tree = segment 0 i) (fun i s' hi hinv => by
      have hnext := h.insert_segment (hsucc i hi) hinv.2
      have hbound : (i + 1).toNat ≤ 2^63 := by
        have hlt : i.toNat < limit.toNat := hi
        have hone := hsucc i hi
        omega
      have hcount := h.countEntries_segment hbound (Nat.zero_le _) false hfuel
        (s := { s' with tree := (mtreeInsertIndex api.toApi s'.tree i).2 }) hnext
      exact ⟨_, hcount, hinv.1, hnext⟩)
    (i := 0) (s := s) ⟨rfl, (funext hs).trans (hempty 0).symm⟩ (Nat.zero_le _) (show limit.toNat - 0 < fuel by omega)
  obtain ⟨s₂, hdrain, hbugs₂, htree₂⟩ := loop_below_rule limit
    (fun i (s' : Bench τ) => s'.bugs = s.bugs ∧ entries s'.tree = segment i limit) (fun i s' hi hinv => by
      obtain ⟨hbugs, hnext⟩ := h.erase_segment hlimit hi (hsucc i hi) hinv.2
      have hle : i + 1 ≤ limit := by
        rw [BitVec.le_def, hsucc i hi]
        exact hi
      exact ⟨_, h.countEntries_segment hlimit hle true hfuel hnext, hbugs.trans hinv.1, hnext⟩)
    (i := 0) (s := s₁) ⟨hbugs₁, htree₁⟩ (Nat.zero_le _) (show limit.toNat - 0 < fuel by omega)
  refine ⟨s₂, ?_, hbugs₂, fun i => by rw [htree₂, hempty]⟩
  rw [checkFind2, hstart]
  change (loop _ _ _ fuel 0 s).bind _ = _
  rw [hfill]
  exact hdrain

theorem find_test_accepts_plain :
    ∃ s', checkFind2 plainMas 256 (2^64 + 1) ⟨fun _ => 0, 0⟩ = some s' ∧ s'.bugs = 0 ∧ ∀ i, s'.tree i = 0 :=
  find_test_accepts plainMas_documented (by decide) (Nat.lt_succ_self _) fun _ => rfl

end LinuxDrivers.MapleTree
