import Mathlib.Algebra.Group.Nat.Defs
import LinuxDrivers.MapleTree.Sound

/-! The tests that insert indexes far from each other, by halves or by doubling. -/
namespace LinuxDrivers.MapleTree
open CountedLoop

variable {τ : Type*}

section Halves

abbrev Halves : Index → List Index → Prop := Visited (fun i => decide (4096 < i)) (· / 2)

variable {i : Index} {is : List Index}

theorem toNat_half (i : Index) : (i / 2).toNat = i.toNat / 2 := BitVec.toNat_udiv

theorem exists_halves (i : Index) : ∃ is, Halves i is := by
  induction hn : i.toNat using Nat.strongRecOn generalizing i with
  | ind n ih =>
    by_cases hi : 4096 < i
    · have hlt : (i / 2).toNat < n := by
        rw [BitVec.lt_def] at hi
        rw [toNat_half, ← hn]
        exact Nat.div_lt_self (Nat.zero_lt_of_lt hi) (by decide)
      obtain ⟨is, his⟩ := ih _ hlt (i / 2) rfl
      exact ⟨i :: is, .pass (decide_eq_true hi) his⟩
    · exact ⟨[], .stop (decide_eq_false hi)⟩

theorem halves_range (h : Halves i is) : ∀ j ∈ is, 4096 < j.toNat ∧ j.toNat ≤ i.toNat := by
  induction h with
  | stop => simp
  | @pass i is hi _ ih =>
    have hlt : 4096 < i.toNat := of_decide_eq_true hi
    refine List.forall_mem_cons.mpr ⟨⟨hlt, Nat.le_refl _⟩, fun j hj => ⟨(ih j hj).1, ?_⟩⟩
    have hle := (ih j hj).2
    rw [toNat_half] at hle
    omega

/-- Each index is at most half of those before it. -/
theorem halves_apart (h : Halves i is) : is.Pairwise fun a b => 2 * b.toNat ≤ a.toNat := by
  induction h with
  | stop => exact .nil
  | @pass i is _ hrest ih =>
    refine .cons (fun j hj => ?_) ih
    have hle := (halves_range hrest j hj).2
    rw [toNat_half] at hle
    omega

theorem length_halves (h : Halves i is) : is.length < 64 := by
  have hpow : 2^is.length ≤ max i.toNat 1 := by
    induction h with
    | stop => exact Nat.le_max_right _ _
    | @pass i is hi _ ih =>
      have hlt : 4096 < i.toNat := of_decide_eq_true hi
      rw [toNat_half] at ih
      rw [List.length_cons, Nat.pow_succ]
      omega
  have hi := i.isLt
  exact (Nat.pow_lt_pow_iff_right (by decide)).mp (Nat.lt_of_le_of_lt hpow (by omega : max i.toNat 1 < 2^64))

/-- The lookups behind the insertion of an index start over and end with it. -/
theorem visited_to {done rest : List Index} {j : Index} (h : Halves i (done ++ j :: rest)) :
    Visited (fun k => decide (j ≤ k)) (· / 2) i (done ++ [j]) := by
  induction done generalizing i with
  | nil =>
    cases h with
    | pass hi _ =>
      have hlt : 4096 < j.toNat := of_decide_eq_true hi
      refine .pass (decide_eq_true (BitVec.le_refl j)) (.stop (decide_eq_false ?_))
      rw [BitVec.le_def, toNat_half]
      omega
  | cons k done ih =>
    have hj := (halves_range h j (List.mem_append_right _ List.mem_cons_self)).2
    cases h with
    | pass _ hrest => exact .pass (decide_eq_true hj) (ih hrest)

/-- No two of the indexes are next to each other. -/
theorem halves_not_next (h : Halves i is) {j k : Index} (hj : j ∈ is) (hk : k ∈ is) : k.toNat ≠ j.toNat + 1 := by
  have happart : is.Pairwise fun a b => b.toNat ≠ a.toNat + 1 ∧ a.toNat ≠ b.toNat + 1 := by
    refine (halves_apart h).imp_of_mem fun {a b} _ hb hab => ?_
    have hrange := (halves_range h b hb).1
    omega
  exact List.Pairwise.forall_of_forall_of_flip (R := fun a b : Index => b.toNat ≠ a.toNat + 1)
    (fun a _ => Nat.ne_of_lt (Nat.lt_succ_self _)) (happart.imp And.left) (happart.imp And.right) hj hk

end Halves

section Lower

structure AroundRight (api : Api τ) (t : τ) (j : Index) : Prop where
  below : api.mtreeLoad t (j - 1) = 0
  there : api.mtreeLoad t j = j
  above : api.mtreeLoad t (j + 1) = 0

variable (api : Api τ) {s s' : Bench τ} {t : τ} {p : Prop}

theorem tells_checkInsert (s : Bench τ) (i : Index) (ptr : Ptr) :
    Tells s (checkInsert api s i ptr) (api.mtreeInsert s.tree i ptr).2 ((api.mtreeInsert s.tree i ptr).1 = 0) := by
  have hwrong : decide ((api.mtreeInsert s.tree i ptr).1 ≠ 0) = false ↔ (api.mtreeInsert s.tree i ptr).1 = 0 := by
    simp
  have h := tells_bugOn ({ s with tree := (api.mtreeInsert s.tree i ptr).2 } : Bench τ) hwrong
  exact ⟨h.tree, h.more, h.quiet⟩

theorem Tells.foldl_checkAround (h : Tells s s' t p) (js : List Index) :
    Tells s (js.foldl (checkAround api) s') t (p ∧ ∀ j ∈ js, AroundRight api t j) := by
  induction js generalizing s' p with
  | nil => exact h.congr (by simp)
  | cons j js ih =>
    have hj := ((h.checkLoad api (j - 1) 0).checkLoad api j j).checkLoad api (j + 1) 0
    refine (ih hj).congr ?_
    rw [List.forall_mem_cons]
    constructor
    · rintro ⟨⟨⟨⟨hp, hbelow⟩, hthere⟩, habove⟩, hrest⟩
      exact ⟨hp, ⟨hbelow, hthere, habove⟩, hrest⟩
    · rintro ⟨hp, ⟨hbelow, hthere, habove⟩, hrest⟩
      exact ⟨⟨⟨⟨hp, hbelow⟩, hthere⟩, habove⟩, hrest⟩

def pointed (t : τ) (is : List Index) : τ := is.foldl (fun t i => (api.mtreeInsert t i i).2) t

def LowerRight : τ → List Index → List Index → Prop
  | _, _, [] => True
  | t, done, i :: is =>
      (api.mtreeInsert t i i).1 = 0 ∧
        (∀ j ∈ done ++ [i], AroundRight api (api.mtreeInsert t i i).2 j) ∧
        LowerRight (api.mtreeInsert t i i).2 (done ++ [i]) is

/-- One insertion of `check_lb_not_empty` and the lookups behind it. -/
theorem lowerPass_tells {huge i : Index} {done rest : List Index} (h : Halves huge (done ++ i :: rest)) {fuel : Nat}
    (hfuel : 64 ≤ fuel) (s : Bench τ) :
    ∃ s', lowerPass api huge fuel i s = some s' ∧ Tells s s' (api.mtreeInsert s.tree i i).2
      ((api.mtreeInsert s.tree i i).1 = 0 ∧
        ∀ j ∈ done ++ [i], AroundRight api (api.mtreeInsert s.tree i i).2 j) := by
  have hlen : (done ++ [i]).length < fuel := by
    have hall := length_halves h
    rw [List.length_append, List.length_cons] at hall
    rw [List.length_append, List.length_singleton]
    omega
  refine ⟨_, ?_, (tells_checkInsert api s i i).foldl_checkAround api (done ++ [i])⟩
  rw [lowerPass, loop_eq_foldlM (visited_to h) hlen]
  exact foldlM_some _ _ _

theorem foldlM_lowerPass {huge : Index} {fuel : Nat} (hfuel : 64 ≤ fuel) (done is : List Index)
    (h : Halves huge (done ++ is)) (s : Bench τ) :
    ∃ s', is.foldlM (fun s i => lowerPass api huge fuel i s) s = some s' ∧
      Tells s s' (pointed api s.tree is) (LowerRight api s.tree done is) := by
  induction is generalizing done s with
  | nil => exact ⟨s, rfl, tells_nothing s⟩
  | cons i is ih =>
    obtain ⟨s₁, hpass, hfirst⟩ := lowerPass_tells api h hfuel s
    obtain ⟨s₂, hrest, hlast⟩ := ih (done ++ [i]) (by rwa [List.append_assoc]) s₁
    refine ⟨s₂, by rw [List.foldlM_cons, hpass]; exact hrest, ?_⟩
    rw [hfirst.tree] at hlast
    exact (hfirst.trans hlast).congr and_assoc

/-- The loops of `check_lb_not_empty` on any tree. -/
theorem lowerLoop_tells {huge : Index} {is : List Index} (h : Halves huge is) {fuel : Nat} (hfuel : 64 ≤ fuel)
    (s : Bench τ) :
    ∃ s', lowerLoop api huge fuel s = some s' ∧ Tells s s' (pointed api s.tree is) (LowerRight api s.tree [] is) := by
  obtain ⟨s', hfold, htells⟩ := foldlM_lowerPass api hfuel [] is h s
  refine ⟨s', ?_, htells⟩
  rw [lowerLoop, loop_eq_foldlM h (Nat.lt_of_lt_of_le (length_halves h) hfuel)]
  exact hfold

theorem storable_of_large {i : Index} (h : 1030 < i.toNat) : Storable i := by
  refine ⟨ne_zero_iff.mpr (by omega), fun ⟨_, hle⟩ => ?_⟩
  have hsmall : i.toNat ≤ 1030 := hle
  omega

/-- What the tests ask for is how a tree answers that holds nothing around the indexes at first. -/
theorem Api.Documented.lower_right {entries : τ → Index → Ptr} (hdoc : api.Documented entries) {huge : Index}
    (hhuge : huge ≠ BitVec.allOnes 64) (done is : List Index) (h : Halves huge (done ++ is)) {t : τ}
    (ht : ∀ k : Index, 4096 ≤ k.toNat → k.toNat ≤ huge.toNat + 1 → entries t k = if k ∈ done then k else 0) :
    LowerRight api t done is := by
  induction is generalizing done t with
  | nil => trivial
  | cons i is ih =>
    have hi : i ∈ done ++ i :: is := List.mem_append_right _ List.mem_cons_self
    obtain ⟨hlow, hhigh⟩ := halves_range h i hi
    have hnew : i ∉ done := by
      intro hold
      have hhalf := (List.pairwise_append.mp (halves_apart h)).2.2 i hold i List.mem_cons_self
      omega
    have hfree : entries t i = 0 := (ht i (by omega) (by omega)).trans (if_neg hnew)
    have hstorable : Storable i := storable_of_large (by omega)
    obtain ⟨hret, hentries⟩ := hdoc.insert_free hstorable hfree
    have hafter : ∀ k : Index, 4096 ≤ k.toNat → k.toNat ≤ huge.toNat + 1 →
        entries (api.mtreeInsert t i i).2 k = if k ∈ done ++ [i] then k else 0 := by
      intro k hklow hkhigh
      rw [hentries, ht k hklow hkhigh]
      by_cases hk : k = i
      · rw [if_pos hk, if_pos (by simp [hk]), hk]
      · rw [if_neg hk]
        exact if_congr (by simp [hk]) rfl rfl
    refine ⟨hret, fun j hj => ?_, ih (done ++ [i]) (by rwa [List.append_assoc]) hafter⟩
    have hsub : ∀ k ∈ done ++ [i], k ∈ done ++ i :: is := by
      intro k hk
      rw [List.append_cons]
      exact List.mem_append_left _ hk
    obtain ⟨hjlow, hjhigh⟩ := halves_range h j (hsub j hj)
    have hpred : (j - 1).toNat = j.toNat - 1 := toNat_pred (ne_zero_iff.mpr (by omega))
    have hsucc : (j + 1).toNat = j.toNat + 1 := toNat_succ hjhigh hhuge
    refine ⟨?_, ?_, ?_⟩
    · rw [hdoc.load, hafter _ (by omega) (by omega), if_neg]
      exact fun hmem => halves_not_next h (hsub _ hmem) (hsub j hj) (by omega)
    · rw [hdoc.load, hafter j (by omega) (by omega), if_pos hj]
    · rw [hdoc.load, hafter _ (by omega) (by omega), if_neg]
      exact fun hmem => halves_not_next h (hsub j hj) (hsub _ hmem) hsucc

/-- `check_lb_not_empty` on a documented tree that holds nothing where it inserts. -/
theorem Api.Documented.lbNotEmpty_accepts {entries : τ → Index → Ptr} (hdoc : api.Documented entries) {fuel : Nat}
    (hfuel : 64 ≤ fuel) {t : τ} (bugs : Nat)
    (ht : ∀ k : Index, 4096 ≤ k.toNat → k.toNat ≤ 4000000001 → entries t k = 0) :
    ∃ t', checkLbNotEmpty api fuel ⟨t, bugs⟩ = some ⟨t', bugs⟩ ∧ ∀ i, entries t' i = 0 := by
  obtain ⟨is, his⟩ := exists_halves 4000000000
  obtain ⟨s', hloop, htells⟩ := lowerLoop_tells api his hfuel ⟨t, bugs⟩
  have hright : LowerRight api t [] is :=
    hdoc.lower_right api (by decide) [] is his fun k hlow hhigh => (ht k hlow hhigh).trans (if_neg (by simp)).symm
  have hbugs : s'.bugs = bugs := htells.quiet.mpr hright
  refine ⟨api.mtreeDestroy s'.tree, ?_, hdoc.destroy s'.tree⟩
  rw [checkLbNotEmpty, hloop, ← hbugs]
  rfl

end Lower

section Upper

abbrev Doubles (huge : Index) : Index → List Index → Prop := Visited (fun i => decide (i < huge)) (· * 2)

variable {huge i : Index} {is : List Index}

theorem toNat_double (hhuge : huge.toNat ≤ 2^63) (hi : i < huge) : (i * 2).toNat = i.toNat * 2 := by
  rw [BitVec.lt_def] at hi
  rw [BitVec.toNat_mul]
  exact Nat.mod_eq_of_lt (by change i.toNat * 2 < 2^64; omega)

theorem exists_doubles (hhuge : huge.toNat ≤ 2^63) (hi : 0 < i.toNat) :
    ∃ is, Doubles huge i is ∧ (is = [] ∨ i.toNat * 2^is.length < 2 * huge.toNat) := by
  induction hn : huge.toNat - i.toNat using Nat.strongRecOn generalizing i with
  | ind n ih =>
    by_cases hlt : i < huge
    · have hdouble := toNat_double hhuge hlt
      rw [BitVec.lt_def] at hlt
      obtain ⟨is, his, hlen⟩ := ih (huge.toNat - (i * 2).toNat) (by omega) (i := i * 2) (by omega) rfl
      refine ⟨i :: is, .pass (decide_eq_true hlt) his, .inr ?_⟩
      rcases hlen with rfl | hlen
      · rw [List.length_singleton]
        omega
      · rw [hdouble, Nat.mul_assoc, Nat.mul_comm 2, ← Nat.pow_succ] at hlen
        exact hlen
    · exact ⟨[], .stop (decide_eq_false hlt), .inl rfl⟩

theorem length_doubles (hhuge : huge.toNat ≤ 2^63) (hi : 0 < i.toNat)
    (h : is = [] ∨ i.toNat * 2^is.length < 2 * huge.toNat) : is.length < 64 := by
  rcases h with rfl | h
  · decide
  · have hpow : 2^is.length < 2^64 :=
      Nat.lt_of_le_of_lt (Nat.le_mul_of_pos_left _ hi) (Nat.lt_of_lt_of_le h (by omega))
    exact (Nat.pow_lt_pow_iff_right (by decide)).mp hpow

/-- Behind an insertion nothing is looked up: its index is below `huge`, where the lookups start. -/
theorem upperPass_eq (api : Api τ) (hi : i < huge) (fuel : Nat) (s : Bench τ) :
    upperPass api huge (fuel+1) i s = some (checkInsert api s i i) := by
  rw [upperPass, loop, if_neg]
  simpa using hi

variable {api : Api τ} {entries : τ → Index → Ptr}

theorem Api.Documented.checkInsert_free (hdoc : api.Documented entries) {t : τ} {p : Ptr} (hp : Storable p)
    (hfree : entries t i = 0) (bugs : Nat) :
    checkInsert api ⟨t, bugs⟩ i p = ⟨(api.mtreeInsert t i p).2, bugs⟩ := by
  simp [checkInsert, Bench.bugOn, (hdoc.insert_free hp hfree).1]

theorem Api.Documented.foldl_upper (hdoc : api.Documented entries) (hhuge : huge.toNat ≤ 2^63)
    (h : Doubles huge i is) (hi : 4096 ≤ i.toNat) {t : τ} (ht : ∀ k : Index, i.toNat ≤ k.toNat → entries t k = 0)
    (bugs : Nat) : ∃ t', is.foldl (fun s i => checkInsert api s i i) ⟨t, bugs⟩ = ⟨t', bugs⟩ := by
  induction h generalizing t with
  | stop => exact ⟨t, rfl⟩
  | @pass i is hlt _ ih =>
    have hstorable : Storable i := storable_of_large (by omega)
    have hfree := ht i (Nat.le_refl _)
    have hdouble := toNat_double hhuge (of_decide_eq_true hlt)
    have hafter : ∀ k : Index, (i * 2).toNat ≤ k.toNat → entries (api.mtreeInsert t i i).2 k = 0 := by
      intro k hk
      rw [(hdoc.insert_free hstorable hfree).2, if_neg]
      · exact ht k (by omega)
      · rintro rfl
        omega
    rw [List.foldl_cons, hdoc.checkInsert_free hstorable hfree]
    exact ih (by omega) hafter

/-- The loops of `check_upper_bound_split` only insert. -/
theorem upperLoop_eq (api : Api τ) (hhuge : huge.toNat ≤ 2^63) {fuel : Nat} (hfuel : 64 ≤ fuel) :
    ∃ is, Doubles huge 4096 is ∧
      ∀ s, upperLoop api huge fuel s = some (is.foldl (fun s i => checkInsert api s i i) s) := by
  obtain ⟨is, his, hlen⟩ := exists_doubles (i := 4096) hhuge (by decide)
  have hlt : is.length < fuel := Nat.lt_of_lt_of_le (length_doubles hhuge (by decide) hlen) hfuel
  obtain ⟨n, rfl⟩ := Nat.exists_eq_succ_of_ne_zero (Nat.ne_of_gt (Nat.zero_lt_of_lt hlt))
  refine ⟨is, his, fun s => ?_⟩
  rw [upperLoop, loop_congr (fun i s hi => upperPass_eq api (of_decide_eq_true hi) n s), loop_eq_foldlM his hlt]
  exact foldlM_some _ _ s

theorem upperLoop_load (api : Api τ) (load : τ → Index → Ptr) (fuel : Nat) (s : Bench τ) :
    upperLoop { api with mtreeLoad := load } huge fuel s = upperLoop api huge fuel s := by
  cases fuel with
  | zero => rfl
  | succ n =>
    refine loop_congr (fun i s hi => ?_) (n + 1) 4096 s
    rw [upperPass_eq _ (of_decide_eq_true hi), upperPass_eq api (of_decide_eq_true hi)]
    rfl

end Upper

/-- `check_lower_bound_split`, `check_upper_bound_split` and `check_mid_split` accept every empty tree that keeps
to what is documented, and leave it empty. -/
theorem split_tests_accept {api : Api τ} {entries : τ → Index → Ptr} (hdoc : api.Documented entries) {t : τ}
    (hempty : ∀ i, entries t i = 0) {fuel : Nat} (hfuel : 64 ≤ fuel) (bugs : Nat) :
    (∃ t', checkLowerBoundSplit api fuel ⟨t, bugs⟩ = some ⟨t', bugs⟩ ∧ ∀ i, entries t' i = 0) ∧
    (∃ t', checkUpperBoundSplit api fuel ⟨t, bugs⟩ = some ⟨t', bugs⟩ ∧ ∀ i, entries t' i = 0) ∧
    (∃ t', checkMidSplit api fuel ⟨t, bugs⟩ = some ⟨t', bugs⟩ ∧ ∀ i, entries t' i = 0) := by
  have hstart : (⟨t, bugs⟩ : Bench τ).bugOn (!api.mtreeEmpty t) = ⟨t, bugs⟩ := by
    simp [Bench.bugOn, (hdoc.empty t).mpr hempty]
  refine ⟨?_, ?_, ?_⟩
  · obtain ⟨t', hrun, hentries⟩ := hdoc.lbNotEmpty_accepts api hfuel bugs fun k _ _ => hempty k
    exact ⟨t', by rw [checkLowerBoundSplit, hstart]; exact hrun, hentries⟩
  · obtain ⟨is, his, hloop⟩ := @upperLoop_eq τ 4000000000 api (by decide) fuel hfuel
    obtain ⟨t', hfold⟩ := hdoc.foldl_upper (by decide) his (by decide) (fun k _ => hempty k) bugs
    refine ⟨api.mtreeDestroy t', ?_, hdoc.destroy t'⟩
    rw [checkUpperBoundSplit, hstart, hloop, hfold]
    rfl
  · have hfar : Storable 8000000000 := storable_of_large (by decide)
    have hzero : Storable (xaMkValue 0) := ⟨by decide, by decide⟩
    have hfirst := (hdoc.insert_free hfar (hempty 8000000000)).2
    have hfree : entries (api.mtreeInsert t 8000000000 8000000000).2 0 = 0 :=
      (hfirst 0).trans ((if_neg (by decide)).trans (hempty 0))
    have hsecond := (hdoc.insert_free hzero hfree).2
    rw [checkMidSplit, hdoc.checkInsert_free hfar (hempty _), hdoc.checkInsert_free hzero hfree]
    refine hdoc.lbNotEmpty_accepts api hfuel bugs fun k hlow hhigh => ?_
    rw [hsecond, if_neg, hfirst, if_neg]
    · exact hempty k
    · rintro rfl
      exact absurd hhigh (by decide)
    · rintro rfl
      exact absurd hlow (by decide)

theorem split_tests_accept_plain :
    (∃ t', checkLowerBoundSplit plainTree 64 ⟨fun _ => 0, 0⟩ = some ⟨t', 0⟩ ∧ ∀ i, t' i = 0) ∧
    (∃ t', checkUpperBoundSplit plainTree 64 ⟨fun _ => 0, 0⟩ = some ⟨t', 0⟩ ∧ ∀ i, t' i = 0) ∧
    (∃ t', checkMidSplit plainTree 64 ⟨fun _ => 0, 0⟩ = some ⟨t', 0⟩ ∧ ∀ i, t' i = 0) :=
  split_tests_accept plainTree_documented (fun _ => rfl) (by decide) 0

/-- What the two tests look up, on any tree. The answers to lookups make no difference to
`check_upper_bound_split`; `check_lower_bound_split` reports nothing exactly if all its insertions succeed and the
lookups around all indexes inserted by then are answered right behind each. -/
theorem bound_split_lookups (api : Api τ) (s : Bench τ) :
    (∀ load fuel, checkUpperBoundSplit { api with mtreeLoad := load } fuel s = checkUpperBoundSplit api fuel s) ∧
    ∃ is, Halves 4000000000 is ∧ ∀ fuel, 64 ≤ fuel → ∃ s', checkLowerBoundSplit api fuel s = some s' ∧
      (s'.bugs = s.bugs ↔ api.mtreeEmpty s.tree ∧ LowerRight api s.tree [] is) := by
  refine ⟨fun load fuel => ?_, ?_⟩
  · rw [checkUpperBoundSplit, upperLoop_load]
    rfl
  · obtain ⟨is, his⟩ := exists_halves 4000000000
    refine ⟨is, his, fun fuel hfuel => ?_⟩
    obtain ⟨s', hrun, htells⟩ := lowerLoop_tells api his hfuel (s.bugOn (!api.mtreeEmpty s.tree))
    refine ⟨{ s' with tree := api.mtreeDestroy s'.tree }, ?_, ((tells_empty api s).trans htells).quiet⟩
    rw [checkLowerBoundSplit, checkLbNotEmpty, hrun]
    rfl

end LinuxDrivers.MapleTree
