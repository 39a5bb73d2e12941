import Mathlib.Logic.Function.Basic
import Mathlib.Data.List.Basic

/-! Streams of key events made of strokes, and filters that may tear them apart. A filter
decides about each event from the events before it. -/
namespace StrokeStream
open Function

inductive Phase where
  | press
  | hold
  | release
  deriving DecidableEq, Repr

variable {κ : Type*} [DecidableEq κ]

/-- The events of each key are strokes, `down` telling which keys are held at the start. A
stroke may still be open at the end. -/
def Strokes (down : κ → Bool) : List (κ × Phase) → Prop
  | [] => True
  | (k, .press) :: es => down k = false ∧ Strokes (update down k true) es
  | (k, .hold) :: es => down k = true ∧ Strokes down es
  | (k, .release) :: es => down k = true ∧ Strokes (update down k false) es

instance Strokes.decidable : (down : κ → Bool) → (es : List (κ × Phase)) → Decidable (Strokes down es)
  | _, [] => inferInstanceAs (Decidable True)
  | down, (k, .press) :: es =>
      have := Strokes.decidable (update down k true) es
      inferInstanceAs (Decidable (_ ∧ _))
  | down, (_, .hold) :: es =>
      have := Strokes.decidable down es
      inferInstanceAs (Decidable (_ ∧ _))
  | down, (k, .release) :: es =>
      have := Strokes.decidable (update down k false) es
      inferInstanceAs (Decidable (_ ∧ _))

section
omit [DecidableEq κ]

def kept (keep : List (κ × Phase) → κ × Phase → Bool) :
    List (κ × Phase) → List (κ × Phase) → List (κ × Phase)
  | _, [] => []
  | pre, e :: es => if keep pre e then e :: kept keep (pre ++ [e]) es else kept keep (pre ++ [e]) es

def Inside (k : κ) (mid : List (κ × Phase)) : Prop := ∀ e ∈ mid, e.1 = k → e.2 = .hold

def OpenSince (pre : List (κ × Phase)) (k : κ) (p : List (κ × Phase)) : Prop :=
  ∃ m, pre = p ++ (k, .press) :: m ∧ Inside k m

/-- A release is let through if and only if the press it ends was. -/
def Paired (keep : List (κ × Phase) → κ × Phase → Bool) (es : List (κ × Phase)) : Prop :=
  ∀ pre k post p, es = pre ++ (k, .release) :: post → OpenSince pre k p →
    keep pre (k, .release) = keep p (k, .press)

def Continued (keep : List (κ × Phase) → κ × Phase → Bool) (es : List (κ × Phase)) : Prop :=
  ∀ pre k post p, es = pre ++ (k, .hold) :: post → OpenSince pre k p →
    keep pre (k, .hold) = true → keep p (k, .press) = true

theorem OpenSince.snoc {pre p : List (κ × Phase)} {e : κ × Phase} {k : κ} :
    OpenSince (pre ++ [e]) k p ↔
      (pre = p ∧ e = (k, .press)) ∨ (OpenSince pre k p ∧ (e.1 = k → e.2 = .hold)) := by
  constructor
  · rintro ⟨m, heq, hin⟩
    rcases List.eq_nil_or_concat m with rfl | ⟨m, x, rfl⟩
    · obtain ⟨rfl, hx⟩ := List.append_inj' heq rfl
      exact .inl ⟨rfl, by simpa using hx⟩
    · rw [List.concat_eq_append, ← List.cons_append, ← List.append_assoc] at heq
      obtain ⟨hpre, hx⟩ := List.append_inj' heq rfl
      obtain rfl : e = x := by simpa using hx
      rw [List.concat_eq_append] at hin
      exact .inr ⟨⟨m, hpre, fun y hy => hin y (List.mem_append_left _ hy)⟩, hin e (by simp)⟩
  · rintro (⟨rfl, rfl⟩ | ⟨⟨m, rfl, hin⟩, he⟩)
    · exact ⟨[], rfl, by simp [Inside]⟩
    · refine ⟨m ++ [e], by simp, ?_⟩
      intro y hy
      rcases List.mem_append.mp hy with hy | hy
      · exact hin y hy
      · rw [List.mem_singleton.mp hy]
        exact he

structure Tracks (keep : List (κ × Phase) → κ × Phase → Bool) (pre : List (κ × Phase))
    (down shown : κ → Bool) : Prop where
  begun : ∀ k, down k = true → ∃ p, OpenSince pre k p
  shown_of : ∀ k p, OpenSince pre k p → shown k = keep p (k, .press)
  up : ∀ k, down k = false → shown k = false

theorem Tracks.nil (keep : List (κ × Phase) → κ × Phase → Bool) :
    Tracks keep [] (fun _ => false) (fun _ => false) where
  begun _ h := by cases h
  shown_of k p h := by
    obtain ⟨m, hm, _⟩ := h
    simp at hm
  up _ _ := rfl

theorem Tracks.hold {keep : List (κ × Phase) → κ × Phase → Bool} {pre : List (κ × Phase)}
    {down shown : κ → Bool} (h : Tracks keep pre down shown) (k : κ) :
    Tracks keep (pre ++ [(k, .hold)]) down shown where
  begun j hj := by
    obtain ⟨p, hp⟩ := h.begun j hj
    exact ⟨p, OpenSince.snoc.mpr (.inr ⟨hp, fun _ => rfl⟩)⟩
  shown_of j p hp := by
    rcases OpenSince.snoc.mp hp with ⟨_, he⟩ | ⟨hp, _⟩
    · cases he
    · exact h.shown_of j p hp
  up := h.up

end

theorem Tracks.press {keep : List (κ × Phase) → κ × Phase → Bool} {pre : List (κ × Phase)}
    {down shown : κ → Bool} (h : Tracks keep pre down shown) (k : κ) :
    Tracks keep (pre ++ [(k, .press)]) (update down k true) (update shown k (keep pre (k, .press))) where
  begun j hj := by
    by_cases hjk : j = k
    · subst hjk
      exact ⟨pre, OpenSince.snoc.mpr (.inl ⟨rfl, rfl⟩)⟩
    · rw [update_of_ne hjk] at hj
      obtain ⟨p, hp⟩ := h.begun j hj
      exact ⟨p, OpenSince.snoc.mpr (.inr ⟨hp, fun he => absurd he.symm hjk⟩)⟩
  shown_of j p hp := by
    rcases OpenSince.snoc.mp hp with ⟨rfl, he⟩ | ⟨hp, hk⟩
    · cases he
      rw [update_self]
    · have hjk : j ≠ k := by
        rintro rfl
        cases hk rfl
      rw [update_of_ne hjk]
      exact h.shown_of j p hp
  up j hj := by
    have hjk : j ≠ k := by
      rintro rfl
      rw [update_self] at hj
      cases hj
    rw [update_of_ne hjk] at hj ⊢
    exact h.up j hj

theorem Tracks.release {keep : List (κ × Phase) → κ × Phase → Bool} {pre : List (κ × Phase)}
    {down shown : κ → Bool} (h : Tracks keep pre down shown) (k : κ) :
    Tracks keep (pre ++ [(k, .release)]) (update down k false) (update shown k false) where
  begun j hj := by
    have hjk : j ≠ k := by
      rintro rfl
      rw [update_self] at hj
      cases hj
    rw [update_of_ne hjk] at hj
    obtain ⟨p, hp⟩ := h.begun j hj
    exact ⟨p, OpenSince.snoc.mpr (.inr ⟨hp, fun he => absurd he.symm hjk⟩)⟩
  shown_of j p hp := by
    rcases OpenSince.snoc.mp hp with ⟨_, he⟩ | ⟨hp, hk⟩
    · cases he
    · have hjk : j ≠ k := by
        rintro rfl
        cases hk rfl
      rw [update_of_ne hjk]
      exact h.shown_of j p hp
  up j hj := by
    by_cases hjk : j = k
    · subst hjk
      rw [update_self]
    · rw [update_of_ne hjk] at hj ⊢
      exact h.up j hj

/-- One event: the kept stream stays made of strokes from it on exactly when the event, if it
is a repetition let through, continues a press let through. -/
theorem Tracks.step {keep : List (κ × Phase) → κ × Phase → Bool} {pre : List (κ × Phase)}
    {down shown : κ → Bool} (h : Tracks keep pre down shown) {e : κ × Phase} {es : List (κ × Phase)}
    (hs : Strokes down (e :: es))
    (hp : ∀ k p, e = (k, .release) → OpenSince pre k p → keep pre e = keep p (k, .press)) :
    ∃ down' shown', Tracks keep (pre ++ [e]) down' shown' ∧ Strokes down' es ∧
      (Strokes shown (kept keep pre (e :: es)) ↔
        (∀ k p, e = (k, .hold) → OpenSince pre k p → keep pre e = true → keep p (k, .press) = true) ∧
          Strokes shown' (kept keep (pre ++ [e]) es)) := by
  obtain ⟨k, ph⟩ := e
  cases ph with
  | press =>
    obtain ⟨hk, hs⟩ := hs
    have hup := h.up k hk
    refine ⟨_, _, h.press k, hs, ?_⟩
    cases hkeep : keep pre (k, .press) with
    | true => simp [kept, hkeep, Strokes, hup]
    | false =>
      have hsame : update shown k false = shown := by rw [← hup, update_eq_self]
      simp [kept, hkeep, hsame]
  | hold =>
    obtain ⟨hk, hs⟩ := hs
    obtain ⟨p, hopen⟩ := h.begun k hk
    refine ⟨_, _, h.hold k, hs, ?_⟩
    cases hkeep : keep pre (k, .hold) with
    | true =>
      simp only [kept, hkeep, if_true, Strokes]
      apply and_congr_left
      intro _
      constructor
      · rintro hsh j q heq hq _
        cases heq
        rw [← h.shown_of k q hq, hsh]
      · intro hall
        rw [h.shown_of k p hopen]
        exact hall k p rfl hopen trivial
    | false => simp [kept, hkeep]
  | release =>
    obtain ⟨hk, hs⟩ := hs
    obtain ⟨p, hopen⟩ := h.begun k hk
    have hsh : shown k = keep pre (k, .release) := by
      rw [hp k p rfl hopen, h.shown_of k p hopen]
    refine ⟨_, _, h.release k, hs, ?_⟩
    cases hkeep : keep pre (k, .release) with
    | true => simp [kept, hkeep, Strokes, hsh]
    | false =>
      have hsame : update shown k false = shown := by rw [← hkeep, ← hsh, update_eq_self]
      simp [kept, hkeep, hsame]

theorem Tracks.run {keep : List (κ × Phase) → κ × Phase → Bool} {pre : List (κ × Phase)}
    {down shown : κ → Bool} (h : Tracks keep pre down shown) {es : List (κ × Phase)}
    (hs : Strokes down es)
    (hp : ∀ m k post p, es = m ++ (k, .release) :: post → OpenSince (pre ++ m) k p →
      keep (pre ++ m) (k, .release) = keep p (k, .press)) :
    Strokes shown (kept keep pre es) ↔
      ∀ m k post p, es = m ++ (k, .hold) :: post → OpenSince (pre ++ m) k p →
        keep (pre ++ m) (k, .hold) = true → keep p (k, .press) = true := by
  induction es generalizing pre down shown with
  | nil => simp [kept, Strokes]
  | cons e es ih =>
    obtain ⟨down', shown', ht, hs', hiff⟩ := h.step hs (by
      rintro k p rfl hopen
      simpa using hp [] k es p rfl (by simpa using hopen))
    rw [hiff, ih ht hs' (by
      intro m k post p heq hopen
      simpa using hp (e :: m) k post p (by rw [heq]; rfl) (by simpa using hopen))]
    constructor
    · rintro ⟨hhead, htail⟩ m k post p heq hopen hkeep
      cases m with
      | nil =>
        simp only [List.nil_append, List.cons.injEq, List.append_nil] at heq hopen hkeep
        exact hhead k p heq.1 hopen (by rw [heq.1]; exact hkeep)
      | cons x m =>
        simp only [List.cons_append, List.cons.injEq] at heq
        obtain ⟨rfl, heq⟩ := heq
        exact htail m k post p heq (by simpa using hopen) (by simpa using hkeep)
    · intro hall
      refine ⟨?_, fun m k post p heq hopen hkeep => ?_⟩
      · rintro k p rfl hopen hkeep
        exact hall [] k es p rfl (by simpa using hopen) (by simpa using hkeep)
      · exact hall (e :: m) k post p (by rw [heq]; rfl) (by simpa using hopen) (by simpa using hkeep)

/-- A filter that pairs presses and releases keeps a stream made of strokes exactly when it
lets repetitions through only after their press. -/
theorem kept_strokes_iff {keep : List (κ × Phase) → κ × Phase → Bool} {es : List (κ × Phase)}
    (hs : Strokes (fun _ => false) es) (hp : Paired keep es) :
    Strokes (fun _ => false) (kept keep [] es) ↔ Continued keep es :=
  (Tracks.nil keep).run hs hp

end StrokeStream
