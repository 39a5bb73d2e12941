import LinuxDrivers.MapleTree.Bench

/-! What `check_seq` and `check_rev_seq` find out about a tree they know nothing about. -/
namespace LinuxDrivers.MapleTree
open CountedLoop

variable {τ : Type*} (api : Api τ)

def throughRcu (t : τ) : τ := api.mtClearInRcu (api.mtSetInRcu t)

/-- What the insertions of one index after the other make of a tree, with what is done to it behind each. -/
def inserted (behind : τ → τ) (t : τ) (is : List Index) : τ :=
  is.foldl (fun t i => behind (mtreeInsertIndex api t i).2) t

def RightAnswers (behind : τ → τ) (right : τ → Index → Prop) : τ → List Index → Prop
  | _, [] => True
  | t, i :: is =>
      (mtreeInsertIndex api t i).1 = 0 ∧ right (mtreeInsertIndex api t i).2 i ∧
        RightAnswers behind right (behind (mtreeInsertIndex api t i).2) is

structure SeqRight (t : τ) (i : Index) : Prop where
  there : ∀ j ≤ i, api.mtreeLoad t j = indexValue j
  height : i ≠ 0 → api.mtHeight t ≠ 0
  beyond : api.mtreeLoad t (i + 1) = 0

structure RevRight (max : Index) (t : τ) (i : Index) : Prop where
  there : ∀ j, i ≤ j → j ≤ max → api.mtreeLoad t j = indexValue j
  below : api.mtreeLoad t (i - 1) = 0
  heightInRcu : api.mtHeight (api.mtSetInRcu t) ≠ 0
  height : api.mtHeight (throughRcu api t) ≠ 0

/-- A part of a test that leads on with this tree and reports nothing exactly if the answers are right. -/
structure Tells (s s' : Bench τ) (t : τ) (right : Prop) : Prop where
  tree : s'.tree = t
  more : s.bugs ≤ s'.bugs
  quiet : s'.bugs = s.bugs ↔ right

variable {s s' s'' : Bench τ} {t t' : τ} {p q : Prop}

theorem tells_nothing (s : Bench τ) : Tells s s s.tree True := ⟨rfl, Nat.le_refl _, iff_of_true rfl trivial⟩

theorem tells_bugOn (s : Bench τ) {wrong : Bool} (h : wrong = false ↔ p) : Tells s (s.bugOn wrong) s.tree p := by
  refine ⟨rfl, Nat.le_add_right _ _, ?_⟩
  rw [← h]
  cases wrong <;> simp [Bench.bugOn]

theorem Tells.trans (h : Tells s s' t p) (h' : Tells s' s'' t' q) : Tells s s'' t' (p ∧ q) := by
  refine ⟨h'.tree, Nat.le_trans h.more h'.more, ?_⟩
  rw [← h.quiet, ← h'.quiet]
  have hfirst := h.more
  have hsecond := h'.more
  omega

theorem Tells.congr (h : Tells s s' t p) (hpq : p ↔ q) : Tells s s' t q := ⟨h.tree, h.more, h.quiet.trans hpq⟩

theorem Tells.bugOn (h : Tells s s' t p) {wrong : Bool} (hq : wrong = false ↔ q) :
    Tells s (s'.bugOn wrong) t (p ∧ q) :=
  h.tree ▸ h.trans (tells_bugOn s' hq)

theorem Tells.checkLoad (h : Tells s s' t p) (index : Index) (ptr : Ptr) :
    Tells s (checkLoad api s' index ptr) t (p ∧ api.mtreeLoad t index = ptr) :=
  h.bugOn (by simp [h.tree])

theorem Tells.height (h : Tells s s' t p) :
    Tells s (s'.bugOn (api.mtHeight s'.tree = 0)) t (p ∧ api.mtHeight t ≠ 0) :=
  h.bugOn (by simp [h.tree])

theorem Tells.change (h : Tells s s' t p) (f : τ → τ) : Tells s { s' with tree := f s'.tree } (f t) p :=
  ⟨congrArg f h.tree, h.more, h.quiet⟩

theorem tells_empty (s : Bench τ) : Tells s (s.bugOn (!api.mtreeEmpty s.tree)) s.tree (api.mtreeEmpty s.tree) :=
  tells_bugOn s (by simp)

theorem tells_insertIndex (s : Bench τ) (i : Index) :
    Tells s (insertIndex api s i) (mtreeInsertIndex api s.tree i).2 ((mtreeInsertIndex api s.tree i).1 = 0) := by
  have hwrong : decide ((mtreeInsertIndex api s.tree i).1 ≠ 0) = false ↔ (mtreeInsertIndex api s.tree i).1 = 0 := by
    simp
  have h := tells_bugOn ({ s with tree := (mtreeInsertIndex api s.tree i).2 } : Bench τ) hwrong
  exact ⟨h.tree, h.more, h.quiet⟩

theorem Tells.foldl_checkIndexLoad (h : Tells s s' t p) (is : List Index) :
    Tells s (is.foldl (checkIndexLoad api) s') t (p ∧ ∀ j ∈ is, api.mtreeLoad t j = indexValue j) := by
  induction is generalizing s' p with
  | nil => exact h.congr (by simp)
  | cons i is ih =>
    refine (ih (h.checkLoad api i (indexValue i))).congr ?_
    rw [List.forall_mem_cons, and_assoc]

theorem Tells.lookups (h : Tells s s' t p) (start : Index) {last : Index} (hlast : last ≠ BitVec.allOnes 64)
    {fuel : Nat} (hfuel : last.toNat + 1 < fuel) :
    ∃ s'', loop (fun j => j ≤ last) (· + 1) (fun j s => some (checkIndexLoad api s j)) fuel start s' = some s'' ∧
      Tells s s'' t (p ∧ ∀ j, start ≤ j → j ≤ last → api.mtreeLoad t j = indexValue j) := by
  have hlen : (upTo start last).length < fuel := by rw [length_upTo]; omega
  refine ⟨_, ?_, (h.foldl_checkIndexLoad api (upTo start last)).congr ?_⟩
  · rw [loop_eq_foldlM (visited_upTo hlast start) hlen]
    exact foldlM_some _ _ s'
  · simp only [mem_upTo, and_imp]

/-- One insertion and the questions behind it, for each index of a list. -/
theorem foldlM_passes {body : Index → Bench τ → Option (Bench τ)} {behind : τ → τ} {right : τ → Index → Prop}
    (is : List Index)
    (hbody : ∀ i ∈ is, ∀ s, ∃ s', body i s = some s' ∧ Tells s s' (behind (mtreeInsertIndex api s.tree i).2)
      ((mtreeInsertIndex api s.tree i).1 = 0 ∧ right (mtreeInsertIndex api s.tree i).2 i)) (s : Bench τ) :
    ∃ s', is.foldlM (fun s i => body i s) s = some s' ∧
      Tells s s' (inserted api behind s.tree is) (RightAnswers api behind right s.tree is) := by
  induction is generalizing s with
  | nil => exact ⟨s, rfl, tells_nothing s⟩
  | cons i is ih =>
    obtain ⟨hi, hrest⟩ := List.forall_mem_cons.mp hbody
    obtain ⟨s₁, hs₁, htells⟩ := hi s
    obtain ⟨s₂, hs₂, hlast⟩ := ih hrest s₁
    refine ⟨s₂, by rw [List.foldlM_cons, hs₁]; exact hs₂, ?_⟩
    rw [htells.tree] at hlast
    exact (htells.trans hlast).congr and_assoc

theorem seqPass_tells {i : Index} (hi : i ≠ BitVec.allOnes 64) {fuel : Nat} (hfuel : i.toNat + 1 < fuel)
    (s : Bench τ) :
    ∃ s', seqPass api fuel i s = some s' ∧ Tells s s' (id (mtreeInsertIndex api s.tree i).2)
      ((mtreeInsertIndex api s.tree i).1 = 0 ∧ SeqRight api (mtreeInsertIndex api s.tree i).2 i) := by
  obtain ⟨s₁, hloop, hloads⟩ := (tells_insertIndex api s i).lookups api 0 hi hfuel
  refine ⟨_, by rw [seqPass, hloop]; rfl, ?_⟩
  by_cases hzero : i = 0
  · rw [if_neg (not_not_intro hzero)]
    refine (hloads.checkLoad api (i + 1) 0).congr ?_
    rw [and_assoc]
    refine and_congr_right fun _ => ⟨?_, ?_⟩
    · rintro ⟨hthere, hfar⟩
      exact ⟨fun j hj => hthere j (Nat.zero_le _) hj, fun h => absurd hzero h, hfar⟩
    · rintro ⟨hthere, _, hfar⟩
      exact ⟨fun j _ hj => hthere j hj, hfar⟩
  · rw [if_pos hzero]
    refine ((hloads.height api).checkLoad api (i + 1) 0).congr ?_
    rw [and_assoc, and_assoc]
    refine and_congr_right fun _ => ⟨?_, ?_⟩
    · rintro ⟨hthere, hhigh, hfar⟩
      exact ⟨fun j hj => hthere j (Nat.zero_le _) hj, fun _ => hhigh, hfar⟩
    · rintro ⟨hthere, hhigh, hfar⟩
      exact ⟨fun j _ hj => hthere j hj, hhigh hzero, hfar⟩

theorem revPass_tells {max : Index} (hmax : max ≠ BitVec.allOnes 64) {fuel : Nat} (hfuel : max.toNat + 1 < fuel)
    (i : Index) (s : Bench τ) :
    ∃ s', revPass api max fuel i s = some s' ∧ Tells s s' (throughRcu api (mtreeInsertIndex api s.tree i).2)
      ((mtreeInsertIndex api s.tree i).1 = 0 ∧ RevRight api max (mtreeInsertIndex api s.tree i).2 i) := by
  obtain ⟨s₁, hloop, hloads⟩ := (tells_insertIndex api s i).lookups api i hmax hfuel
  refine ⟨_, by rw [revPass, hloop]; rfl, ?_⟩
  have hbelow := hloads.checkLoad api (i - 1) 0
  have hinRcu := (hbelow.change api.mtSetInRcu).height api
  refine ((hinRcu.change api.mtClearInRcu).height api).congr ?_
  constructor
  · rintro ⟨⟨⟨⟨hret, hthere⟩, hbelow⟩, hinRcu⟩, hhigh⟩
    exact ⟨hret, hthere, hbelow, hinRcu, hhigh⟩
  · rintro ⟨hret, hthere, hbelow, hinRcu, hhigh⟩
    exact ⟨⟨⟨⟨hret, hthere⟩, hbelow⟩, hinRcu⟩, hhigh⟩

def SeqPasses (t : τ) (max : Index) : Prop := api.mtreeEmpty t ∧ RightAnswers api id (SeqRight api) t (upTo 0 max)

def RevPasses (t : τ) (max : Index) : Prop :=
  api.mtreeEmpty t ∧ RightAnswers api (throughRcu api) (RevRight api max) t (downFrom max) ∧
    api.mtreeLoad (inserted api (throughRcu api) t (downFrom max)) (max + 1) = 0

theorem checkSeq_tells {max : Index} (hmax : max ≠ BitVec.allOnes 64) {fuel : Nat} (hfuel : max.toNat + 1 < fuel)
    (s : Bench τ) :
    ∃ s', checkSeq api max fuel s = some s' ∧
      Tells s s' (inserted api id s.tree (upTo 0 max)) (SeqPasses api s.tree max) := by
  have hlen : (upTo 0 max).length < fuel := by rw [length_upTo]; omega
  obtain ⟨s', hfold, htells⟩ := foldlM_passes api (upTo 0 max)
    (fun i hi s => seqPass_tells api (ne_allOnes_of_le (mem_upTo.mp hi).2 hmax)
      (Nat.lt_of_le_of_lt (Nat.succ_le_succ (mem_upTo.mp hi).2) hfuel) s) (s.bugOn (!api.mtreeEmpty s.tree))
  refine ⟨s', ?_, (tells_empty api s).trans htells⟩
  rw [checkSeq, loop_eq_foldlM (visited_upTo hmax 0) hlen]
  exact hfold

theorem checkRevSeq_tells {max : Index} (hmax : max ≠ BitVec.allOnes 64) {fuel : Nat}
    (hfuel : max.toNat + 1 < fuel) (s : Bench τ) :
    ∃ s', checkRevSeq api max fuel s = some s' ∧
      Tells s s' (inserted api (throughRcu api) s.tree (downFrom max)) (RevPasses api s.tree max) := by
  have hlen : (downFrom max).length < fuel := by rw [length_downFrom]; omega
  obtain ⟨s', hfold, htells⟩ := foldlM_passes api (downFrom max)
    (fun i _ s => revPass_tells api hmax hfuel i s) (s.bugOn (!api.mtreeEmpty s.tree))
  refine ⟨checkLoad api s' (max + 1) 0, ?_, ?_⟩
  · rw [checkRevSeq, loop_eq_foldlM (visited_downFrom max) hlen]
    exact congrArg (fun r => r.bind fun s => some (checkLoad api s (max + 1) 0)) hfold
  · exact (((tells_empty api s).trans htells).checkLoad api (max + 1) 0).congr and_assoc

/-- Up to `ULONG_MAX` the lookups behind the first insertion do not end. -/
theorem revPass_allOnes (fuel : Nat) (i : Index) (s : Bench τ) :
    revPass api (BitVec.allOnes 64) fuel i s = none := by
  rw [revPass, loop_allOnes]
  rfl

theorem checkRevSeq_allOnes (fuel : Nat) (s : Bench τ) : checkRevSeq api (BitVec.allOnes 64) fuel s = none := by
  cases fuel with
  | zero => rfl
  | succ fuel =>
    rw [checkRevSeq, loop, if_pos (by decide), revPass_allOnes]
    rfl

/-- The two tests on any tree whatever. With `ULONG_MAX` they never end. With any other `max` they do, and they
report nothing exactly if the tree was empty, each insertion succeeded and each lookup behind it, of all indexes
inserted by then and of the one next to them, was answered as an empty tree filled with these entries has to, and so
was each question about the height, in `check_rev_seq` with the tree in RCU mode and out of it again. -/
theorem seq_tests_exact (max : Index) (s : Bench τ) :
    (max = BitVec.allOnes 64 → ∀ fuel, checkSeq api max fuel s = none ∧ checkRevSeq api max fuel s = none) ∧
    (max ≠ BitVec.allOnes 64 → ∀ fuel, max.toNat + 1 < fuel →
      (∃ s', checkSeq api max fuel s = some s' ∧ (s'.bugs = s.bugs ↔ SeqPasses api s.tree max)) ∧
      (∃ s', checkRevSeq api max fuel s = some s' ∧ (s'.bugs = s.bugs ↔ RevPasses api s.tree max))) := by
  constructor
  · rintro rfl fuel
    exact ⟨loop_allOnes fuel 0 _, checkRevSeq_allOnes api fuel s⟩
  · intro hmax fuel hfuel
    obtain ⟨s₁, hseq, hseqTells⟩ := checkSeq_tells api hmax hfuel s
    obtain ⟨s₂, hrev, hrevTells⟩ := checkRevSeq_tells api hmax hfuel s
    exact ⟨⟨s₁, hseq, hseqTells.quiet⟩, s₂, hrev, hrevTells.quiet⟩

end LinuxDrivers.MapleTree
