import Mathlib.Data.List.Nodup

/-! Loops of C over an index, run with fuel, and the indexes they visit. -/
namespace CountedLoop

variable {ι σ : Type*} {cond : ι → Bool} {next : ι → ι}

/-- `for (; cond(i); i = next(i)) body`; `none` where the fuel is used up before the loop ends. -/
def loop (cond : ι → Bool) (next : ι → ι) (body : ι → σ → Option σ) : Nat → ι → σ → Option σ
  | 0, _, _ => none
  | fuel+1, i, s => if cond i then (body i s).bind (loop cond next body fuel (next i)) else some s

inductive Visited (cond : ι → Bool) (next : ι → ι) : ι → List ι → Prop
  | stop {i : ι} (h : cond i = false) : Visited cond next i []
  | pass {i : ι} {is : List ι} (h : cond i = true) (hrest : Visited cond next (next i) is) :
      Visited cond next i (i :: is)

/-- With more fuel than it visits indexes, the loop is a fold over them. -/
theorem loop_eq_foldlM {body : ι → σ → Option σ} {i : ι} {is : List ι} (h : Visited cond next i is) {fuel : Nat}
    (hfuel : is.length < fuel) (s : σ) : loop cond next body fuel i s = is.foldlM (fun s i => body i s) s := by
  induction h generalizing fuel s with
  | stop h =>
    obtain ⟨fuel, rfl⟩ := Nat.exists_eq_add_of_lt hfuel
    rw [loop, if_neg (by simp [h])]
    rfl
  | pass h _ ih =>
    obtain ⟨fuel, rfl⟩ := Nat.exists_eq_succ_of_ne_zero (Nat.ne_of_gt (Nat.zero_lt_of_lt hfuel))
    rw [loop, if_pos h, List.foldlM_cons]
    exact congrArg _ (funext fun t => ih (Nat.lt_of_succ_lt_succ hfuel) t)

theorem foldlM_some (f : σ → ι → σ) (is : List ι) (s : σ) :
    is.foldlM (fun s i => some (f s i)) s = some (is.foldl f s) := by
  induction is generalizing s with
  | nil => rfl
  | cons i is ih => exact ih (f s i)

/-- Only what a body does while the condition holds matters. -/
theorem loop_congr {body body' : ι → σ → Option σ} (h : ∀ i s, cond i = true → body i s = body' i s) (fuel : Nat)
    (i : ι) (s : σ) : loop cond next body fuel i s = loop cond next body' fuel i s := by
  induction fuel generalizing i s with
  | zero => rfl
  | succ fuel ih =>
    rw [loop, loop]
    split
    · rename_i hi
      rw [h i s hi]
      exact congrArg _ (funext fun t => ih (next i) t)
    · rfl

theorem loop_eq_none {body : ι → σ → Option σ} (live : ι → Prop)
    (hlive : ∀ i, live i → cond i = true ∧ live (next i)) (fuel : Nat) {i : ι} (hi : live i) (s : σ) :
    loop cond next body fuel i s = none := by
  induction fuel generalizing i s with
  | zero => rfl
  | succ fuel ih =>
    rw [loop, if_pos (hlive i hi).1, Option.bind_eq_none_iff]
    exact fun t _ => ih (hlive i hi).2 t

/-- The rule of a loop: what its body keeps while it comes closer to the end holds behind it. -/
theorem loop_rule {body : ι → σ → Option σ} (inv : ι → σ → Prop) (left : ι → Nat)
    (hbody : ∀ i s, inv i s → cond i = true →
      ∃ s', body i s = some s' ∧ inv (next i) s' ∧ left (next i) < left i) {fuel : Nat} {i : ι} {s : σ} (h : inv i s)
    (hfuel : left i < fuel) :
    ∃ i' s', loop cond next body fuel i s = some s' ∧ inv i' s' ∧ cond i' = false := by
  induction fuel generalizing i s with
  | zero => exact absurd hfuel (Nat.not_lt_zero _)
  | succ fuel ih =>
    rw [loop]
    split
    · rename_i hi
      obtain ⟨s', hs', hinv, hleft⟩ := hbody i s h hi
      rw [hs']
      exact ih hinv (Nat.lt_of_lt_of_le hleft (Nat.le_of_lt_succ hfuel))
    · rename_i hi
      exact ⟨i, s, rfl, h, Bool.eq_false_iff.mpr hi⟩

section UpTo

variable {w : Nat} {i max : BitVec w}

def upTo (i max : BitVec w) : List (BitVec w) :=
  (List.range' i.toNat (max.toNat + 1 - i.toNat)).map (BitVec.ofNat w)

theorem mem_upTo {j : BitVec w} : j ∈ upTo i max ↔ i ≤ j ∧ j ≤ max := by
  simp only [upTo, List.mem_map, List.mem_range'_1, BitVec.le_def]
  constructor
  · rintro ⟨n, hn, rfl⟩
    have hlt : n < 2^w := by have := max.isLt; omega
    rw [BitVec.toNat_ofNat, Nat.mod_eq_of_lt hlt]
    omega
  · intro hj
    exact ⟨j.toNat, by omega, by rw [BitVec.ofNat_toNat, BitVec.setWidth_eq]⟩

theorem length_upTo : (upTo i max).length = max.toNat + 1 - i.toNat := by
  rw [upTo, List.length_map, List.length_range']

theorem upTo_of_lt (h : max < i) : upTo i max = [] := by
  rw [BitVec.lt_def] at h
  rw [upTo, Nat.sub_eq_zero_of_le h]
  rfl

theorem toNat_succ (h : i ≤ max) (hmax : max ≠ BitVec.allOnes w) : (i + 1).toNat = i.toNat + 1 := by
  have hlt : max.toNat < (BitVec.allOnes w).toNat := BitVec.lt_allOnes_iff.mpr hmax
  have hle : i.toNat ≤ max.toNat := h
  rw [BitVec.toNat_allOnes] at hlt
  have hone : (1 : BitVec w).toNat = 1 := (BitVec.toNat_ofNat 1 w).trans (Nat.mod_eq_of_lt (by omega))
  rw [BitVec.toNat_add_of_lt (by omega), hone]

theorem upTo_of_le (h : i ≤ max) (hmax : max ≠ BitVec.allOnes w) : upTo i max = i :: upTo (i + 1) max := by
  have hle : i.toNat ≤ max.toNat := h
  have hcount : max.toNat + 1 - i.toNat = (max.toNat + 1 - (i.toNat + 1)) + 1 := by omega
  rw [upTo, upTo, toNat_succ h hmax, hcount, List.range'_succ, List.map_cons, BitVec.ofNat_toNat,
    BitVec.setWidth_eq]

theorem ne_allOnes_of_le (h : i ≤ max) (hmax : max ≠ BitVec.allOnes w) : i ≠ BitVec.allOnes w := by
  rintro rfl
  exact BitVec.not_lt.mpr h (BitVec.lt_allOnes_iff.mpr hmax)

/-- A loop up to any bound but the largest index ends behind it. -/
theorem visited_upTo (hmax : max ≠ BitVec.allOnes w) (i : BitVec w) :
    Visited (fun j => decide (j ≤ max)) (· + 1) i (upTo i max) := by
  induction hn : max.toNat + 1 - i.toNat generalizing i with
  | zero =>
    have hlt : max < i := by rw [BitVec.lt_def]; omega
    rw [upTo_of_lt hlt]
    exact .stop (by simpa using hlt)
  | succ n ih =>
    have hle : i ≤ max := by rw [BitVec.le_def]; omega
    rw [upTo_of_le hle hmax]
    refine .pass (by simpa using hle) (ih (i + 1) ?_)
    rw [toNat_succ hle hmax]
    omega

/-- The rule of a loop below a limit. -/
theorem loop_below_rule {body : BitVec w → σ → Option σ} (limit : BitVec w) (inv : BitVec w → σ → Prop)
    (hbody : ∀ i s, i < limit → inv i s → ∃ s', body i s = some s' ∧ inv (i + 1) s') {fuel : Nat} {s : σ} (h : inv i s)
    (hi : i ≤ limit) (hfuel : limit.toNat - i.toNat < fuel) :
    ∃ s', loop (fun j => decide (j < limit)) (· + 1) body fuel i s = some s' ∧ inv limit s' := by
  have hstep : ∀ j s, (inv j s ∧ j ≤ limit) → decide (j < limit) = true → ∃ s', body j s = some s' ∧
      (inv (j + 1) s' ∧ j + 1 ≤ limit) ∧ limit.toNat - (j + 1).toNat < limit.toNat - j.toNat := by
    intro j s hj hlt
    have hlt : j < limit := of_decide_eq_true hlt
    have hlimit := limit.isLt
    obtain ⟨s', hs', hinv⟩ := hbody j s hlt hj.1
    rw [BitVec.lt_def] at hlt
    have hone : (1 : BitVec w).toNat = 1 := (BitVec.toNat_ofNat 1 w).trans (Nat.mod_eq_of_lt (by omega))
    have hsucc : (j + 1).toNat = j.toNat + 1 := by rw [BitVec.toNat_add_of_lt (by omega), hone]
    exact ⟨s', hs', ⟨hinv, by rw [BitVec.le_def]; omega⟩, by omega⟩
  obtain ⟨j, s', hloop, ⟨hinv, hle⟩, hend⟩ := loop_rule (fun j s => inv j s ∧ j ≤ limit)
    (fun j => limit.toNat - j.toNat) hstep ⟨h, hi⟩ hfuel
  obtain rfl : j = limit := BitVec.le_antisymm hle (BitVec.not_lt.mp (of_decide_eq_false hend))
  exact ⟨s', hloop, hinv⟩

/-- Up to the largest index it never does. -/
theorem loop_allOnes {body : BitVec w → σ → Option σ} (fuel : Nat) (i : BitVec w) (s : σ) :
    loop (fun j => decide (j ≤ BitVec.allOnes w)) (· + 1) body fuel i s = none := by
  refine loop_eq_none (fun _ => True) (fun j _ => ⟨?_, trivial⟩) fuel trivial s
  exact decide_eq_true (BitVec.not_lt.mp BitVec.not_allOnes_lt)

def downFrom (i : BitVec w) : List (BitVec w) := ((List.range' 1 i.toNat).map (BitVec.ofNat w)).reverse

theorem ne_zero_iff : i ≠ 0 ↔ 0 < i.toNat := by
  rw [Nat.pos_iff_ne_zero, ne_eq, ne_eq, ← BitVec.toNat_inj]
  exact Iff.rfl

theorem length_downFrom : (downFrom i).length = i.toNat := by
  rw [downFrom, List.length_reverse, List.length_map, List.length_range']

theorem toNat_pred (h : i ≠ 0) : (i - 1).toNat = i.toNat - 1 := by
  have hpos := ne_zero_iff.mp h
  have hone : (1 : BitVec w).toNat = 1 := (BitVec.toNat_ofNat 1 w).trans (Nat.mod_eq_of_lt (by omega))
  rw [BitVec.toNat_sub_of_le (by rw [BitVec.le_def, hone]; exact hpos), hone]

theorem downFrom_of_ne (h : i ≠ 0) : downFrom i = i :: downFrom (i - 1) := by
  have hpos := ne_zero_iff.mp h
  have hlast : BitVec.ofNat w (1 + (i.toNat - 1)) = i := by
    rw [Nat.add_sub_cancel' hpos, BitVec.ofNat_toNat, BitVec.setWidth_eq]
  have hrange : List.range' 1 i.toNat = List.range' 1 (i.toNat - 1) ++ [1 + (i.toNat - 1)] := by
    rw [← List.range'_1_concat, Nat.sub_add_cancel hpos]
  rw [downFrom, downFrom, toNat_pred h, hrange, List.map_append, List.reverse_append, List.map_singleton, hlast]
  rfl

theorem visited_downFrom (i : BitVec w) : Visited (fun j => decide (j ≠ 0)) (· - 1) i (downFrom i) := by
  induction hn : i.toNat generalizing i with
  | zero =>
    have hi : ¬ i ≠ 0 := by rw [ne_zero_iff]; omega
    rw [downFrom, hn]
    exact .stop (decide_eq_false hi)
  | succ n ih =>
    have hi : i ≠ 0 := by rw [ne_zero_iff]; omega
    rw [downFrom_of_ne hi]
    exact .pass (decide_eq_true hi) (ih (i - 1) (by rw [toNat_pred hi]; omega))

end UpTo

end CountedLoop
