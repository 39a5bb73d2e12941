import Mathlib.Data.Nat.Sqrt
import LinuxDrivers.VmouseDriver.Gearbox

/-! How fast the mouse gets while a direction key is held. The widths of the gears are 1, 3, 5 and
so on, so the gears reached are counted by the square root of the number of repeats. -/
namespace LinuxDrivers.VmouseDriver
open Runs

def directionKey : Nat → Bool
  | keyP | keyN | keyB | keyF => true
  | _ => false

def Handoff.gearCall (s : Handoff) : Act → Option (Int × Bool)
  | .event _ _ _ => none
  | .worker =>
      if s.vms.workPending && directionKey s.vms.eventCode then some (s.vms.value, s.vms.keepSpeed) else none

def Handoff.KeepsHolding (s : Handoff) (a : Act) : Prop :=
  ∀ call ∈ s.gearCall a, call.1 ≠ keyValDown ∧ call.1 ≠ keyValUp

instance (s : Handoff) (a : Act) : Decidable (s.KeepsHolding a) :=
  inferInstanceAs (Decidable (∀ call ∈ s.gearCall a, call.1 ≠ keyValDown ∧ call.1 ≠ keyValUp))

def Handoff.isPress (s : Handoff) (a : Act) : Bool := s.gearCall a = some (keyValPress, false)

def presses : Handoff → List Act → Nat
  | _, [] => 0
  | s, a :: acts => (s.isPress a).toNat + (s.step a).elim 0 fun t => presses t acts

/-- After `n` repeats: `a` gears up, the counter holds what is left of `n` after the widths of these
gears. In the top gear it runs on without effect. -/
def Accelerated (n : Nat) (speed : BitVec 32) (g : GearStatics) : Prop :=
  ∃ a : Nat, InGear (a+1) speed g ∧ (a < 5 ∧ (n : Int) = (a * a : Nat) + g.count ∨ a = 5 ∧ 5 * 5 ≤ n)

theorem Accelerated.start : Accelerated 0 2 ⟨0, 1⟩ := ⟨0, .first, .inl ⟨by decide, rfl⟩⟩

theorem InGear.lt_six_iff {k : Nat} {speed : BitVec 32} {g : GearStatics} (h : InGear k speed g) :
    speed < 64 ↔ k < 6 := by
  rw [BitVec.lt_def, h.speed_toNat]
  exact Nat.pow_lt_pow_iff_right (a := 2) (m := 6) (by decide)

theorem Accelerated.speed_eq {n : Nat} {speed : BitVec 32} {g : GearStatics} (h : Accelerated n speed g) :
    speed.toNat = 2^(1 + min 5 (Nat.sqrt n)) := by
  obtain ⟨a, hgear, hn⟩ := h
  have hsqrt : min 5 (Nat.sqrt n) = a := by
    rcases hn with ⟨ha, hn⟩ | ⟨rfl, hn⟩
    · obtain ⟨c, hc⟩ := Int.eq_ofNat_of_zero_le hgear.count_nonneg
      have hlt := hgear.count_lt
      have hstep := hgear.step_eq
      have hsum : n = a * a + c := by
        rw [hc] at hn
        exact_mod_cast hn
      rw [hsum, Nat.sqrt_add_eq a (by omega)]
      exact min_eq_right (by omega)
    · exact min_eq_left (Nat.le_sqrt.mpr hn)
  rw [hgear.speed_toNat, hsqrt, Nat.add_comm]

theorem gearbox_press (speed : BitVec 32) (g : GearStatics) : gearbox keyValPress speed false g =
    if g.count + 1 = g.step then
      if speed < 64 then (speed <<< 1, { count := 0, step := g.step + 2 }) else (speed, { g with count := 0 })
    else (speed, { g with count := g.count + 1 }) := rfl

theorem Accelerated.press {n : Nat} {speed : BitVec 32} {g : GearStatics} (h : Accelerated n speed g) :
    Accelerated (n+1) (gearbox keyValPress speed false g).1 (gearbox keyValPress speed false g).2 := by
  obtain ⟨a, hgear, hn⟩ := h
  have hstep := hgear.step_eq
  have hcount := hgear.count_nonneg
  have hlt := hgear.count_lt
  rw [gearbox_press]
  by_cases hfull : g.count + 1 = g.step
  · rw [if_pos hfull]
    by_cases htop : speed < 64
    · -- the width of the gear is used up: `n` is one short of the next square
      rw [if_pos htop]
      have ha := hgear.lt_six_iff.mp htop
      have hsquare : (a + 1) * (a + 1) = a * a + 2 * a + 1 := by
        rw [Nat.succ_mul, Nat.mul_succ]
        omega
      refine ⟨a + 1, hgear.shift htop, ?_⟩
      rcases hn with ⟨_, hn⟩ | ⟨rfl, _⟩
      · rcases Nat.lt_or_ge (a + 1) 5 with hlow | hhigh
        · refine .inl ⟨hlow, ?_⟩
          rw [hsquare]
          push_cast
          omega
        · obtain rfl : a = 4 := by omega
          exact .inr ⟨rfl, by omega⟩
      · omega
    · rw [if_neg htop]
      refine ⟨a, hgear.reset, ?_⟩
      have ha := mt hgear.lt_six_iff.mpr htop
      rcases hn with ⟨_, _⟩ | ⟨rfl, hn⟩
      · omega
      · exact .inr ⟨rfl, by omega⟩
  · rw [if_neg hfull]
    refine ⟨a, hgear.count_up hfull, ?_⟩
    rcases hn with ⟨ha, hn⟩ | ⟨rfl, hn⟩
    · refine .inl ⟨ha, ?_⟩
      dsimp only
      omega
    · exact .inr ⟨rfl, by omega⟩

/-- Without a press or release of the key only a repeat that does not keep the speed counts. -/
theorem gearbox_of_holding {keyValue : Int} {keepSpeed : Bool} (hdown : keyValue ≠ keyValDown)
    (hup : keyValue ≠ keyValUp) (hpress : ¬(keyValue = keyValPress ∧ keepSpeed = false)) (speed : BitVec 32)
    (g : GearStatics) : gearbox keyValue speed keepSpeed g = (speed, g) := by
  unfold gearbox
  split
  · contradiction
  · contradiction
  · cases keepSpeed with
    | false => exact absurd ⟨rfl, rfl⟩ hpress
    | true => rfl
  · rfl

theorem vmsFunc_gear (vms : Vmouse) : ((vmsFunc vms).1.moveSpeed, (vmsFunc vms).1.gear) =
    if directionKey vms.eventCode then gearbox vms.value vms.moveSpeed vms.keepSpeed vms.gear
    else (vms.moveSpeed, vms.gear) := by
  unfold vmsFunc directionKey
  split <;> simp_all [reportMove]

/-- Speed and gear change only through the call of `gearbox`. -/
theorem Handoff.step_gear {s t : Handoff} {a : Act} (h : s.step a = some t) :
    (t.vms.moveSpeed, t.vms.gear) = (s.gearCall a).elim (s.vms.moveSpeed, s.vms.gear)
      fun call => gearbox call.1 s.vms.moveSpeed call.2 s.vms.gear := by
  cases a with
  | event type code value =>
    simp only [Handoff.step, Option.some.injEq] at h
    subst h
    obtain ⟨hspeed, hgear⟩ := vkbdFilter_gear s.vms type code value
    exact Prod.ext hspeed hgear
  | worker =>
    rw [Handoff.step] at h
    split at h
    · rename_i hpending
      obtain rfl := Option.some.inj h
      have hgear := vmsFunc_gear { s.vms with workPending := false }
      rw [gearCall, hpending, Bool.true_and]
      dsimp only at hgear
      cases hkey : directionKey s.vms.eventCode with
      | true =>
        rw [hkey, if_pos rfl] at hgear
        exact hgear
      | false =>
        rw [hkey, if_neg Bool.false_ne_true] at hgear
        exact hgear
    · cases h

theorem Handoff.step_accelerated {s t : Handoff} {a : Act} {n : Nat}
    (hs : Accelerated n s.vms.moveSpeed s.vms.gear) (hkeep : s.KeepsHolding a) (h : s.step a = some t) :
    Accelerated (n + (s.isPress a).toNat) t.vms.moveSpeed t.vms.gear := by
  have hgear := Handoff.step_gear h
  unfold isPress
  unfold KeepsHolding at hkeep
  cases hcall : s.gearCall a with
  | none =>
    rw [hcall] at hgear
    obtain ⟨hspeed, hstatics⟩ := Prod.ext_iff.mp hgear
    rw [show t.vms.moveSpeed = s.vms.moveSpeed from hspeed, show t.vms.gear = s.vms.gear from hstatics]
    exact hs
  | some call =>
    obtain ⟨keyValue, keepSpeed⟩ := call
    obtain ⟨hdown, hup⟩ := hkeep _ hcall
    rw [hcall, Option.elim_some] at hgear
    obtain ⟨hspeed, hstatics⟩ := Prod.ext_iff.mp hgear
    dsimp only at hspeed hstatics
    rw [hspeed, hstatics]
    by_cases hpress : keyValue = keyValPress ∧ keepSpeed = false
    · obtain ⟨rfl, rfl⟩ := hpress
      simpa using hs.press
    · rw [gearbox_of_holding hdown hup hpress]
      simpa [hpress] using hs

theorem Handoff.run_accelerated {s u : Handoff} {acts : List Act} {n : Nat}
    (hs : Accelerated n s.vms.moveSpeed s.vms.gear) (hkeep : Along Handoff.step Handoff.KeepsHolding s acts)
    (hrun : run Handoff.step s acts = some u) :
    Accelerated (n + presses s acts) u.vms.moveSpeed u.vms.gear := by
  induction acts generalizing s n with
  | nil =>
    cases hrun
    exact hs
  | cons a acts ih =>
    obtain ⟨t, ht, hrest⟩ := run_cons_eq_some.mp hrun
    obtain ⟨hholds, hkeep⟩ := hkeep t ht
    have hu := ih (Handoff.step_accelerated hs hholds ht) hkeep hrest
    rw [presses, ht, Option.elim_some, ← Nat.add_assoc]
    exact hu

/-- From any state, once the press of a direction key is handled with the speed not kept, and until
a direction key is pressed again or released, the speed is told by the number of repeats handled
with the speed not kept. -/
theorem moveSpeed_eq_two_pow {s t u : Handoff} {acts : List Act}
    (hdown : s.gearCall .worker = some (keyValDown, false)) (ht : s.step .worker = some t)
    (hkeep : Along Handoff.step Handoff.KeepsHolding t acts) (hrun : run Handoff.step t acts = some u) :
    u.vms.moveSpeed.toNat = 2^(1 + min 5 (Nat.sqrt (presses t acts))) := by
  have hgear := Handoff.step_gear ht
  rw [hdown] at hgear
  obtain ⟨hspeed, hstatics⟩ := Prod.ext_iff.mp hgear
  have hstart : Accelerated 0 t.vms.moveSpeed t.vms.gear := by
    rw [show t.vms.moveSpeed = 2 from hspeed, show t.vms.gear = ⟨0, 1⟩ from hstatics]
    exact .start
  have hu := (Handoff.run_accelerated hstart hkeep hrun).speed_eq
  rwa [Nat.zero_add] at hu

/-- Two repeats of `KEY_P`, the first with caps lock on: one counts, and the speed is 4. -/
theorem moveSpeed_eq_two_pow_capslock :
    let pressed : Handoff := ⟨⟨true, 1, keyP, 2, 5, false, ⟨1, 1, 0⟩, ⟨0, 1⟩⟩, [(keyP, 1)], []⟩
    let held : List Act := [.event 1 58 1, .event 1 25 2, .worker, .event 1 58 1, .event 1 25 2, .worker]
    run Handoff.step .initial [.event 1 29 1, .event 1 56 1, .event 1 25 1] = some pressed ∧
      ∃ t u, pressed.step .worker = some t ∧ run Handoff.step t held = some u ∧ presses t held = 1 ∧
        u.vms.moveSpeed.toNat = 2^(1 + min 5 (Nat.sqrt (presses t held))) := by
  intro pressed held
  let handled : Handoff := ⟨⟨false, 1, keyP, 2, 5, false, ⟨1, 1, 0⟩, ⟨0, 1⟩⟩, [(keyP, 1)], [(keyP, 1)]⟩
  have ht : pressed.step .worker = some handled := by decide
  have hkeep : Along Handoff.step Handoff.KeepsHolding handled held := by decide
  obtain ⟨u, hrun⟩ : ∃ u, run Handoff.step handled held = some u := Option.isSome_iff_exists.mp (by decide)
  exact ⟨by decide, handled, u, ht, hrun, by decide, moveSpeed_eq_two_pow (by decide) ht hkeep hrun⟩

end LinuxDrivers.VmouseDriver
