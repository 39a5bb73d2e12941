import Mathlib.Data.List.Induction
import LinuxDrivers.Lib.StrokeStream
import LinuxDrivers.VmouseDriver.Filter

/-! Does `vkbd_filter` let whole key strokes through? Whether it swallows an event is a
function of the keys held and of the presses of caps lock so far. -/
namespace LinuxDrivers.VmouseDriver
open StrokeStream

def keyValue : Phase → Int
  | .press => 1
  | .hold => 2
  | .release => 0

def afterEvents (es : List (Nat × Phase)) : Vmouse :=
  es.foldl (fun vms e => (vkbdFilter vms evKey e.1 (keyValue e.2)).2) .initial

def letsThrough (pre : List (Nat × Phase)) (e : Nat × Phase) : Bool :=
  !(vkbdFilter (afterEvents pre) evKey e.1 (keyValue e.2)).1

def passed (vms : Vmouse) : List (Nat × Phase) → List (Nat × Phase)
  | [] => []
  | e :: es =>
      let (ret, vms) := vkbdFilter vms evKey e.1 (keyValue e.2)
      if ret then passed vms es else e :: passed vms es

/-- What the rest of the system sees is made of strokes again, and sees the release of exactly
the presses it saw. -/
structure NeverTears (es : List (Nat × Phase)) : Prop where
  strokes : Strokes (fun _ => false) (passed .initial es)
  paired : Paired letsThrough es

def heldAfter (pre : List (Nat × Phase)) (k : Nat) : Bool :=
  match pre.reverse.find? (fun e => e.1 = k) with
  | some e => decide (e.2 ≠ .release)
  | none => false

def capsOn (pre : List (Nat × Phase)) : Bool := decide (pre.count (keyCapslock, .press) % 2 = 1)

/-- What decides about the events of a key: the mouse keys are taken while Ctrl and Alt are
held, Ctrl and Alt themselves while caps lock is on. -/
def gated (k : Nat) (pre : List (Nat × Phase)) : Bool :=
  if mouseKey k then heldAfter pre keyLeftctrl && heldAfter pre keyLeftalt
  else if k = keyLeftctrl ∨ k = keyLeftalt then capsOn pre
  else false

/-- The gate of a key stands at each release as at the press, and does not open in between at
a repetition. -/
structure Steady (es : List (Nat × Phase)) : Prop where
  release : ∀ pre k post p, es = pre ++ (k, .release) :: post → OpenSince pre k p →
    gated k pre = gated k p
  hold : ∀ pre k post p, es = pre ++ (k, .hold) :: post → OpenSince pre k p →
    gated k p = true → gated k pre = true

/-- The verdict of the filter, read off its state. -/
theorem vkbdFilter_verdict (vms : Vmouse) (code : Nat) (value : Int) :
    (vkbdFilter vms evKey code value).1 =
      if mouseKey code then vms.modifiersDown
      else if code = keyLeftctrl ∨ code = keyLeftalt then vms.keepSpeed
      else false := by
  rw [vkbdFilter_ret]
  cases hm : mouseKey code with
  | true => simp [trackModifiers_mouseKey hm]
  | false => simp [trackModifiers_early]

theorem afterEvents_snoc (pre : List (Nat × Phase)) (e : Nat × Phase) :
    afterEvents (pre ++ [e]) = (vkbdFilter (afterEvents pre) evKey e.1 (keyValue e.2)).2 := by
  simp [afterEvents]

theorem heldAfter_snoc (pre : List (Nat × Phase)) (e : Nat × Phase) (k : Nat) :
    heldAfter (pre ++ [e]) k = if e.1 = k then decide (e.2 ≠ .release) else heldAfter pre k := by
  by_cases h : e.1 = k <;> simp [heldAfter, h]

theorem capsOn_snoc (pre : List (Nat × Phase)) (e : Nat × Phase) :
    capsOn (pre ++ [e]) = if e = (keyCapslock, .press) then !capsOn pre else capsOn pre := by
  unfold capsOn
  rw [List.count_append, List.count_singleton]
  by_cases h : e = (keyCapslock, .press)
  · simp only [h, beq_self_eq_true, if_true]
    rw [← decide_not, decide_eq_decide]
    omega
  · simp [h]

theorem keyValue_down (ph : Phase) : decide (keyValue ph ≠ 0) = decide (ph ≠ .release) := by
  cases ph <;> decide

theorem keyValue_press (ph : Phase) : keyValue ph = keyValDown ↔ ph = .press := by
  cases ph <;> decide

structure Agrees (vms : Vmouse) (pre : List (Nat × Phase)) : Prop where
  ctrl : decide (vms.keyStatus.ctrlKeyDown ≠ 0) = heldAfter pre keyLeftctrl
  alt : decide (vms.keyStatus.altKeyDown ≠ 0) = heldAfter pre keyLeftalt
  capslock : decide (vms.keyStatus.capslockKeyDown ≠ 0) = capsOn pre
  keepSpeed : vms.keepSpeed = capsOn pre

theorem Agrees.trackModifiers {vms : Vmouse} {pre : List (Nat × Phase)} (h : Agrees vms pre)
    (k : Nat) (ph : Phase) : Agrees (trackModifiers vms k (keyValue ph)).2 (pre ++ [(k, ph)]) := by
  obtain ⟨hctrl, halt, hcaps, hkeep⟩ := trackModifiers_status vms k (keyValue ph)
  have hlock : decide ((VmouseDriver.trackModifiers vms k (keyValue ph)).2.keyStatus.capslockKeyDown ≠ 0) =
      capsOn (pre ++ [(k, ph)]) := by
    rw [hcaps, capsOn_snoc, ← h.capslock]
    simp only [keyValue_press, Prod.mk.injEq]
    by_cases hp : k = keyCapslock ∧ ph = .press
    · by_cases hd : vms.keyStatus.capslockKeyDown = 0 <;> simp [hp, hd]
    · simp [hp]
  refine ⟨?_, ?_, hlock, ?_⟩
  · rw [hctrl, heldAfter_snoc, ← keyValue_down, ← h.ctrl]
    split <;> rfl
  · rw [halt, heldAfter_snoc, ← keyValue_down, ← h.alt]
    split <;> rfl
  · rw [hkeep, hlock]
    split
    · rfl
    · rename_i hk
      rw [h.keepSpeed, capsOn_snoc, if_neg (by simp [hk])]

theorem afterEvents_agrees (pre : List (Nat × Phase)) : Agrees (afterEvents pre) pre := by
  induction pre using List.reverseRecOn with
  | nil => exact ⟨rfl, rfl, rfl, rfl⟩
  | append_singleton pre e ih =>
    obtain ⟨hkeys, hkeep⟩ := vkbdFilter_status (afterEvents pre) e.1 (keyValue e.2)
    obtain ⟨hc, ha, hl, hs⟩ := ih.trackModifiers e.1 e.2
    rw [afterEvents_snoc]
    exact ⟨by rw [hkeys]; exact hc, by rw [hkeys]; exact ha, by rw [hkeys]; exact hl, hkeep.trans hs⟩

theorem letsThrough_eq (pre : List (Nat × Phase)) (e : Nat × Phase) :
    letsThrough pre e = !gated e.1 pre := by
  have h := afterEvents_agrees pre
  rw [letsThrough, vkbdFilter_verdict, gated, Vmouse.modifiersDown, h.ctrl, h.alt, h.keepSpeed]

theorem passed_eq_kept (pre es : List (Nat × Phase)) :
    passed (afterEvents pre) es = kept letsThrough pre es := by
  induction es generalizing pre with
  | nil => rfl
  | cons e es ih =>
    rw [passed, kept, ← ih (pre ++ [e]), afterEvents_snoc, letsThrough]
    rcases vkbdFilter (afterEvents pre) evKey e.1 (keyValue e.2) with ⟨_ | _, vms⟩ <;> rfl

/-- On a stream of strokes the filter tears none apart exactly when the gate of each key stands
at its releases as at the presses they end. -/
theorem neverTears_iff_steady (es : List (Nat × Phase)) (h : Strokes (fun _ => false) es) :
    NeverTears es ↔ Steady es := by
  have hkept : passed .initial es = kept letsThrough [] es := passed_eq_kept [] es
  have hpaired : Paired letsThrough es ↔ ∀ pre k post p, es = pre ++ (k, .release) :: post →
      OpenSince pre k p → gated k pre = gated k p := by
    simp only [Paired, letsThrough_eq, Bool.not_inj_iff]
  have hcont : Continued letsThrough es ↔ ∀ pre k post p, es = pre ++ (k, .hold) :: post →
      OpenSince pre k p → gated k p = true → gated k pre = true := by
    simp only [Continued, letsThrough_eq, Bool.not_eq_true', ← Bool.not_eq_true, not_imp_not]
  constructor
  · rintro ⟨hs, hp⟩
    rw [hkept] at hs
    exact ⟨hpaired.mp hp, hcont.mp ((kept_strokes_iff h hp).mp hs)⟩
  · rintro ⟨hr, hh⟩
    have hp := hpaired.mpr hr
    refine ⟨?_, hp⟩
    rw [hkept]
    exact (kept_strokes_iff h hp).mpr (hcont.mpr hh)

/-- A stroke of the space bar inside Ctrl+Alt is swallowed whole. -/
theorem space_inside_ctrl_alt_whole :
    NeverTears [(keyLeftctrl, .press), (keyLeftalt, .press), (keySpace, .press), (keySpace, .release)] := by
  apply (neverTears_iff_steady _ (by decide)).mpr
  constructor
  · rintro pre k post p heq ⟨m, rfl, hin⟩
    obtain rfl : k = keySpace := by
      have hk : (k, Phase.release) ∈ [(keyLeftctrl, Phase.press), (keyLeftalt, .press),
          (keySpace, .press), (keySpace, .release)] := by rw [heq]; simp
      simpa using hk
    have hlen := congrArg List.length heq
    simp only [List.length_append, List.length_cons, List.length_nil] at hlen
    -- the press of the space bar is the third event
    rcases p with _ | ⟨a, _ | ⟨b, p⟩⟩
    · simp [keyLeftctrl, keySpace] at heq
    · simp [keyLeftalt, keySpace] at heq
    · simp only [List.length_cons] at hlen
      obtain rfl : p = [] := List.length_eq_zero_iff.mp (by omega)
      obtain rfl : m = [] := List.length_eq_zero_iff.mp (by omega)
      simp only [List.cons_append, List.nil_append, List.cons.injEq] at heq
      obtain ⟨rfl, rfl, _⟩ := heq
      decide
  · rintro pre k post p heq _
    have hk : (k, Phase.hold) ∈ [(keyLeftctrl, Phase.press), (keyLeftalt, .press),
        (keySpace, .press), (keySpace, .release)] := by rw [heq]; simp
    simp at hk

/-- Ctrl is let go before the key P: the press of P was swallowed, its release is let through. -/
theorem release_without_press :
    ¬ ∀ es : List (Nat × Phase), Strokes (fun _ => false) es → NeverTears es := by
  intro h
  have hnt := h [(keyLeftctrl, .press), (keyLeftalt, .press), (keyP, .press), (keyLeftctrl, .release),
    (keyP, .release)] (by decide)
  have hpair := hnt.paired [(keyLeftctrl, .press), (keyLeftalt, .press), (keyP, .press),
    (keyLeftctrl, .release)] keyP [] [(keyLeftctrl, .press), (keyLeftalt, .press)] rfl
    ⟨[(keyLeftctrl, .release)], rfl, by simp [Inside, keyLeftctrl, keyP]⟩
  exact absurd hpair (by decide)

end LinuxDrivers.VmouseDriver
