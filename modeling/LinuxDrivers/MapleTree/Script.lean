import LinuxDrivers.MapleTree.Sound

/-! Any sequence of the single checks, as `maple_tree_seed` and `check_ranges` make them, against the entries it
describes. -/
namespace LinuxDrivers.MapleTree
open CountedLoop

variable {τ : Type*}

inductive Check where
  | load (index : Index) (ptr : Ptr)
  | insert (index : Index) (ptr : Ptr)
  | dupInsert (index : Index) (ptr : Ptr)
  | storeRange (start last : Index) (ptr : Ptr) (expected : Int)
  | insertRange (start last : Index) (ptr : Ptr) (expected : Int)
  | destroy

def Check.run (api : Api τ) (fuel : Nat) (s : Bench τ) : Check → Option (Bench τ)
  | .load index ptr => some (checkLoad api s index ptr)
  | .insert index ptr => some (checkInsert api s index ptr)
  | .dupInsert index ptr => some (checkDupInsert api s index ptr)
  | .storeRange start last ptr expected => checkStoreRange api s start last ptr expected fuel
  | .insertRange start last ptr expected => checkInsertRange api s start last ptr expected fuel
  | .destroy => some { s with tree := api.mtreeDestroy s.tree }

/-- The entries a sequence of checks describes, and how many of its expectations they do not meet. -/
structure Expected where
  entries : Index → Ptr
  wrong : Nat

def Taken (entries : Index → Ptr) (start last : Index) : Prop := ∃ i, (start ≤ i ∧ i ≤ last) ∧ entries i ≠ 0

instance (entries : Index → Ptr) (start last : Index) : Decidable (Taken entries start last) :=
  inferInstanceAs (Decidable (∃ i, (start ≤ i ∧ i ≤ last) ∧ entries i ≠ 0))

def Expected.insert (e : Expected) (start last : Index) (ptr : Ptr) (expected : Int) : Expected :=
  if Taken e.entries start last then { e with wrong := e.wrong + (decide (expected ≠ -eexist)).toNat }
  else ⟨overwrite e.entries start last ptr, e.wrong + (decide (expected ≠ 0)).toNat⟩

def Expected.step (e : Expected) : Check → Expected
  | .load index ptr => { e with wrong := e.wrong + (decide (e.entries index ≠ ptr)).toNat }
  | .insert index ptr => e.insert index index ptr 0
  | .dupInsert index ptr => e.insert index index ptr (-eexist)
  | .storeRange start last ptr expected =>
      ⟨overwrite e.entries start last ptr, e.wrong + (decide (expected ≠ 0)).toNat⟩
  | .insertRange start last ptr expected => e.insert start last ptr expected
  | .destroy => { e with entries := fun _ => 0 }

/-- What a check may be called with: an entry that can be stored and a range the loop behind it comes to the end
of. -/
def Check.Valid (fuel : Nat) : Check → Prop
  | .load _ _ | .destroy => True
  | .insert _ ptr | .dupInsert _ ptr => Storable ptr
  | .storeRange start last ptr _ | .insertRange start last ptr _ =>
      Storable ptr ∧ start ≤ last ∧ last ≠ BitVec.allOnes 64 ∧ last.toNat + 1 < fuel

instance (fuel : Nat) : (c : Check) → Decidable (c.Valid fuel)
  | .load _ _ | .destroy => isTrue trivial
  | .insert _ _ | .dupInsert _ _ => inferInstanceAs (Decidable (_ ∧ _))
  | .storeRange _ _ _ _ | .insertRange _ _ _ _ => inferInstanceAs (Decidable ((_ ∧ _) ∧ _))

structure Bench.Meets (entries : τ → Index → Ptr) (s : Bench τ) (e : Expected) : Prop where
  entries : entries s.tree = e.entries
  bugs : s.bugs = e.wrong

section Documented

variable {api : Api τ} {entries : τ → Index → Ptr} (h : api.Documented entries) {s : Bench τ} {e : Expected}
include h

theorem Api.Documented.lookups_stored {t : τ} {old : Index → Ptr} {start last : Index} {ptr : Ptr}
    (ht : entries t = overwrite old start last ptr) (hlast : last ≠ BitVec.allOnes 64) {fuel : Nat}
    (hfuel : last.toNat + 1 < fuel) (bugs : Nat) :
    loop (fun i => i ≤ last) (· + 1) (fun i s => some (checkLoad api s i ptr)) fuel start ⟨t, bugs⟩ =
      some ⟨t, bugs⟩ := by
  have hlen : (upTo start last).length < fuel := by rw [length_upTo]; omega
  rw [loop_eq_foldlM (visited_upTo hlast start) hlen, foldlM_some (fun s i => checkLoad api s i ptr)]
  congr 1
  have hin : ∀ i ∈ upTo start last, entries t i = ptr := by
    intro i hi
    rw [ht, overwrite, if_pos (mem_upTo.mp hi)]
  generalize upTo start last = is at hin
  induction is with
  | nil => rfl
  | cons i is ih =>
    obtain ⟨hi, hrest⟩ := List.forall_mem_cons.mp hin
    have hquiet : checkLoad api ⟨t, bugs⟩ i ptr = ⟨t, bugs⟩ := by
      simp [checkLoad, Bench.bugOn, h.load, hi]
    rw [List.foldl_cons, hquiet]
    exact ih hrest

theorem Api.Documented.checkRange_stored {result : Int × τ} {old : Index → Ptr} {start last : Index} {ptr : Ptr}
    (hret : result.1 = 0) (hstored : entries result.2 = overwrite old start last ptr)
    (hlast : last ≠ BitVec.allOnes 64) {fuel : Nat} (hfuel : last.toNat + 1 < fuel) (bugs : Nat) (expected : Int) :
    checkRange api result bugs start last ptr expected fuel =
      some ⟨result.2, bugs + (decide (expected ≠ 0)).toNat⟩ := by
  rw [checkRange, if_neg (not_not_intro hret), hret]
  simp only [ne_comm]
  exact h.lookups_stored hstored hlast hfuel _

theorem Api.Documented.insertRange_eq {start last : Index} {ptr : Ptr} (hp : Storable ptr) (hle : start ≤ last)
    (t : τ) :
    (api.mtreeInsertRange t start last ptr).1 = (if Taken (entries t) start last then -eexist else 0) ∧
    entries (api.mtreeInsertRange t start last ptr).2 =
      if Taken (entries t) start last then entries t else overwrite (entries t) start last ptr := by
  split
  · rename_i htaken
    obtain ⟨i, ⟨hlow, hhigh⟩, hne⟩ := htaken
    exact h.insertRange_taken t start last ptr i hp hlow hhigh hne
  · rename_i hfree
    exact h.insertRange_free t start last ptr hp hle fun i hlow hhigh =>
      by_contra fun hne => hfree ⟨i, ⟨hlow, hhigh⟩, hne⟩

/-- `check_insert` and `check_dup_insert`, by the result they expect. -/
theorem Api.Documented.insert_meets (hs : s.Meets entries e) (i : Index) {ptr : Ptr} (hp : Storable ptr)
    (expected : Int) :
    Bench.Meets entries (({ s with tree := (api.mtreeInsert s.tree i ptr).2 } : Bench τ).bugOn
      ((api.mtreeInsert s.tree i ptr).1 ≠ expected)) (e.insert i i ptr expected) := by
  obtain ⟨hret, hentries⟩ := h.insertRange_eq hp (BitVec.le_refl i) s.tree
  rw [h.insert, hret]
  rw [hs.entries] at hentries ⊢
  rw [Expected.insert]
  split <;> rename_i htaken
  · rw [if_pos htaken] at hentries
    refine ⟨hentries, ?_⟩
    simp only [Bench.bugOn, hs.bugs, ne_comm]
  · rw [if_neg htaken] at hentries
    refine ⟨hentries, ?_⟩
    simp only [Bench.bugOn, hs.bugs, ne_comm]

theorem Check.run_meets (hs : s.Meets entries e) {fuel : Nat} {c : Check} (hc : c.Valid fuel) :
    ∃ s', c.run api fuel s = some s' ∧ s'.Meets entries (e.step c) := by
  cases c with
  | load index ptr =>
    refine ⟨_, rfl, hs.entries, ?_⟩
    simp only [checkLoad, Bench.bugOn, Expected.step, hs.bugs, h.load, hs.entries]
  | insert index ptr => exact ⟨_, rfl, h.insert_meets hs index hc 0⟩
  | dupInsert index ptr => exact ⟨_, rfl, h.insert_meets hs index hc (-eexist)⟩
  | storeRange start last ptr expected =>
    obtain ⟨hp, hle, hlast, hfuel⟩ := hc
    obtain ⟨hret, hstored⟩ := h.storeRange s.tree start last ptr hp hle
    refine ⟨_, h.checkRange_stored hret hstored hlast hfuel s.bugs expected, ?_, ?_⟩
    · rw [hstored, hs.entries]
      rfl
    · rw [hs.bugs]
      rfl
  | insertRange start last ptr expected =>
    obtain ⟨hp, hle, hlast, hfuel⟩ := hc
    obtain ⟨hret, hstored⟩ := h.insertRange_eq hp hle s.tree
    rw [hs.entries] at hret hstored
    rw [Expected.step, Expected.insert]
    split <;> rename_i htaken
    · rw [if_pos htaken] at hret hstored
      refine ⟨_, by rw [run, checkInsertRange, checkRange, if_pos (by rw [hret]; decide)], hstored, ?_⟩
      simp only [Bench.bugOn, hret, hs.bugs, ne_comm]
    · rw [if_neg htaken] at hret hstored
      refine ⟨_, h.checkRange_stored hret hstored hlast hfuel s.bugs expected, hstored, ?_⟩
      rw [hs.bugs]
  | destroy => exact ⟨_, rfl, funext fun i => h.destroy s.tree i, hs.bugs⟩

end Documented

theorem checks_meet {api : Api τ} {entries : τ → Index → Ptr} (h : api.Documented entries) {fuel : Nat}
    {checks : List Check} (hvalid : ∀ c ∈ checks, c.Valid fuel) {s : Bench τ} {e : Expected}
    (hs : s.Meets entries e) :
    ∃ s', checks.foldlM (Check.run api fuel) s = some s' ∧ s'.Meets entries (checks.foldl Expected.step e) := by
  induction checks generalizing s e with
  | nil => exact ⟨s, rfl, hs⟩
  | cons c checks ih =>
    obtain ⟨hc, hrest⟩ := List.forall_mem_cons.mp hvalid
    obtain ⟨s₁, hfirst, hs₁⟩ := Check.run_meets h hs hc
    obtain ⟨s₂, hlast, hs₂⟩ := ih hrest hs₁
    exact ⟨s₂, by rw [List.foldlM_cons, hfirst]; exact hlast, hs₂⟩

/-- Whatever the sequence of checks, on every tree that keeps to what is documented it comes to its end, with the
entries it describes in the tree, and `MT_BUG_ON` reports as many times as an expectation is not met. -/
theorem checks_report_exactly {api : Api τ} {entries : τ → Index → Ptr} (h : api.Documented entries) (t : τ)
    (bugs : Nat) {fuel : Nat} {checks : List Check} (hvalid : ∀ c ∈ checks, c.Valid fuel) :
    ∃ t', checks.foldlM (Check.run api fuel) ⟨t, bugs⟩ =
        some ⟨t', (checks.foldl Expected.step ⟨entries t, bugs⟩).wrong⟩ ∧
      entries t' = (checks.foldl Expected.step ⟨entries t, bugs⟩).entries := by
  obtain ⟨s', hrun, hmeets⟩ := checks_meet h hvalid (s := ⟨t, bugs⟩) (e := ⟨entries t, bugs⟩) ⟨rfl, rfl⟩
  exact ⟨s'.tree, by rw [hrun, ← hmeets.bugs], hmeets.entries⟩

/-- The range 10-15 goes in, 12-20 is refused as expected, and a lookup that expects it at 20 is reported. -/
theorem checks_report_exactly_refused :
    ∃ t', [Check.insertRange 10 15 21 0, .insertRange 12 20 25 (-eexist), .load 20 25].foldlM
      (Check.run plainTree 30) ⟨fun _ => 0, 0⟩ = some ⟨t', 1⟩ := by
  obtain ⟨t', hrun, _⟩ := @checks_report_exactly _ plainTree _ plainTree_documented (fun _ => 0) 0 30
    [.insertRange 10 15 21 0, .insertRange 12 20 25 (-eexist), .load 20 25] (by decide)
  have hfree : ¬ Taken (fun _ => 0) 10 15 := fun ⟨_, _, hne⟩ => hne rfl
  have htaken : Taken (overwrite (fun _ => 0) 10 15 21) 12 20 := ⟨12, by decide, by decide⟩
  refine ⟨t', hrun.trans ?_⟩
  simp only [List.foldl_cons, List.foldl_nil, Expected.step, Expected.insert, if_neg hfree, if_pos htaken]
  rfl

end LinuxDrivers.MapleTree
