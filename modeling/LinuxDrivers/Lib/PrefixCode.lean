import Mathlib.Data.List.Basic

/-! Codes whose words can be read off the front of a text, whatever comes behind them. -/
namespace PrefixCode

variable {α β : Type*} {code : α → List β}

/-- A text begins with one word at most. -/
def Readable (code : α → List β) : Prop :=
  ∀ ⦃a b : α⦄ ⦃s t : List β⦄, code a ++ s = code b ++ t → a = b ∧ s = t

theorem readable_of_length {n : Nat} (hlen : ∀ a, (code a).length = n) (hinj : Function.Injective code) :
    Readable code := by
  intro a b s t h
  obtain ⟨hword, hrest⟩ := List.append_inj h ((hlen a).trans (hlen b).symm)
  exact ⟨hinj hword, hrest⟩

theorem Readable.flatMap (h : Readable code) {as bs : List α} {s t : List β} (hlen : as.length = bs.length)
    (heq : as.flatMap code ++ s = bs.flatMap code ++ t) : as = bs ∧ s = t := by
  induction as generalizing bs with
  | nil =>
    obtain rfl := List.eq_nil_of_length_eq_zero hlen.symm
    exact ⟨rfl, heq⟩
  | cons a as ih =>
    cases bs with
    | nil => cases hlen
    | cons b bs =>
      rw [List.flatMap_cons, List.flatMap_cons, List.append_assoc, List.append_assoc] at heq
      obtain ⟨rfl, hrest⟩ := h heq
      obtain ⟨rfl, hend⟩ := ih (Nat.succ.inj hlen) hrest
      exact ⟨rfl, hend⟩

/-- Any number of words, closed by a mark that no word begins with. -/
theorem Readable.flatMap_closed (h : Readable code) {mark : β} (hmark : ∀ a, ∃ b s, code a = b :: s ∧ b ≠ mark)
    {as bs : List α} {s t : List β} (heq : as.flatMap code ++ mark :: s = bs.flatMap code ++ mark :: t) :
    as = bs ∧ s = t := by
  have hword : ∀ a (u v : List β), code a ++ u ≠ mark :: v := by
    intro a u v hv
    obtain ⟨b, w, hb, hne⟩ := hmark a
    rw [hb] at hv
    exact hne (List.cons.inj hv).1
  induction as generalizing bs with
  | nil =>
    cases bs with
    | nil => exact ⟨rfl, (List.cons.inj heq).2⟩
    | cons b bs =>
      rw [List.flatMap_cons, List.append_assoc] at heq
      exact absurd heq.symm (hword _ _ _)
  | cons a as ih =>
    cases bs with
    | nil =>
      rw [List.flatMap_cons, List.append_assoc] at heq
      exact absurd heq (hword _ _ _)
    | cons b bs =>
      rw [List.flatMap_cons, List.flatMap_cons, List.append_assoc, List.append_assoc] at heq
      obtain ⟨rfl, hrest⟩ := h heq
      obtain ⟨rfl, hend⟩ := ih hrest
      exact ⟨rfl, hend⟩

end PrefixCode
