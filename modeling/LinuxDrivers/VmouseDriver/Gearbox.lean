import Mathlib.Algebra.Group.Nat.Defs
import Mathlib.Tactic.IntervalCases
import LinuxDrivers.VmouseDriver.Handoff

/-! The gears of the virtual mouse: what links the speed to the hidden statics of `gearbox`. -/
namespace LinuxDrivers.VmouseDriver
open Runs

/-- In gear `k` the speed is `2^k`, and it is doubled at the `2*k-1`-th repeat from now on. -/
structure InGear (k : Nat) (speed : BitVec 32) (g : GearStatics) : Prop where
  low : 1 ≤ k
  high : k ≤ 6
  speed_eq : speed = BitVec.ofNat 32 (2^k)
  step_eq : g.step = 2 * k - 1
  count_nonneg : 0 ≤ g.count
  count_lt : g.count < g.step

theorem InGear.speed_toNat {k : Nat} {speed : BitVec 32} {g : GearStatics} (h : InGear k speed g) :
    speed.toNat = 2^k := by
  have hpow : 2^k ≤ 2^6 := Nat.pow_le_pow_right (by decide) h.high
  rw [h.speed_eq, BitVec.toNat_ofNat, Nat.mod_eq_of_lt (by omega)]

theorem InGear.reset {k : Nat} {speed : BitVec 32} {g : GearStatics} (h : InGear k speed g) :
    InGear k speed { g with count := 0 } :=
  ⟨h.low, h.high, h.speed_eq, h.step_eq, Int.le_refl _, Int.lt_of_le_of_lt h.count_nonneg h.count_lt⟩

/-- The counter stays below the step, so it cannot jump over it later. -/
theorem InGear.count_up {k : Nat} {speed : BitVec 32} {g : GearStatics} (h : InGear k speed g)
    (hne : g.count + 1 ≠ g.step) : InGear k speed { g with count := g.count + 1 } := by
  have hcount := h.count_nonneg
  have hlt := h.count_lt
  exact ⟨h.low, h.high, h.speed_eq, h.step_eq, by dsimp only; omega, by dsimp only; omega⟩

theorem InGear.first : InGear 1 2 ⟨0, 1⟩ := ⟨by decide, by decide, rfl, rfl, by decide, by decide⟩

theorem InGear.shift {k : Nat} {speed : BitVec 32} {g : GearStatics} (h : InGear k speed g) (hlt : speed < 64) :
    InGear (k+1) (speed <<< 1) { count := 0, step := g.step + 2 } := by
  have hspeed := h.speed_toNat
  have hpow : 2^k < 2^6 := by
    rw [← hspeed]
    exact BitVec.lt_def.mp hlt
  have hk : k < 6 := (Nat.pow_lt_pow_iff_right (by decide)).mp hpow
  refine ⟨by omega, hk, ?_, ?_, Int.le_refl _, ?_⟩
  · apply BitVec.eq_of_toNat_eq
    rw [BitVec.toNat_shiftLeft, hspeed, BitVec.toNat_ofNat, Nat.shiftLeft_eq, Nat.pow_one, Nat.pow_succ (m := k)]
  · have hstep := h.step_eq
    dsimp only
    omega
  · have := h.count_nonneg
    have := h.count_lt
    dsimp only
    omega

/-- A call of `gearbox` leaves the mouse in some gear. -/
theorem gearbox_inGear {k : Nat} {speed : BitVec 32} {g : GearStatics} (h : InGear k speed g) (keyValue : Int)
    (keepSpeed : Bool) :
    ∃ k', InGear k' (gearbox keyValue speed keepSpeed g).1 (gearbox keyValue speed keepSpeed g).2 := by
  unfold gearbox
  split
  · exact ⟨k, h.reset⟩
  · split
    · exact ⟨k, h.reset⟩
    · exact ⟨1, .first⟩
  · split
    · exact ⟨k, h⟩
    · dsimp only
      split
      · split
        · rename_i hspeed
          exact ⟨k+1, h.shift hspeed⟩
        · exact ⟨k, h.reset⟩
      · rename_i hne
        exact ⟨k, h.count_up hne⟩
  · exact ⟨k, h⟩

def Vmouse.InGear (vms : Vmouse) : Prop := ∃ k, VmouseDriver.InGear k vms.moveSpeed vms.gear

theorem trackModifiers_gear (vms : Vmouse) (code : Nat) (value : Int) :
    (trackModifiers vms code value).2.moveSpeed = vms.moveSpeed ∧
      (trackModifiers vms code value).2.gear = vms.gear := by
  unfold trackModifiers
  split <;> exact ⟨rfl, rfl⟩

theorem vkbdFilter_gear (vms : Vmouse) (type code : Nat) (value : Int) :
    (vkbdFilter vms type code value).2.moveSpeed = vms.moveSpeed ∧
      (vkbdFilter vms type code value).2.gear = vms.gear := by
  have hmod := trackModifiers_gear vms code value
  unfold vkbdFilter
  split
  · split
    · rename_i vms' heq
      rwa [heq] at hmod
    · rename_i vms' heq
      rw [heq] at hmod
      split <;> exact hmod
  · exact ⟨rfl, rfl⟩

theorem vmsFunc_inGear {vms : Vmouse} (h : vms.InGear) : (vmsFunc vms).1.InGear := by
  obtain ⟨k, h⟩ := h
  have hmove := gearbox_inGear h vms.value vms.keepSpeed
  unfold vmsFunc
  split <;> first | exact hmove | exact ⟨k, h⟩

theorem Handoff.step_inGear {s t : Handoff} {a : Act} (hs : s.vms.InGear) (h : s.step a = some t) :
    t.vms.InGear := by
  cases a with
  | event type code value =>
    simp only [Handoff.step, Option.some.injEq] at h
    subst h
    obtain ⟨k, hk⟩ := hs
    obtain ⟨hspeed, hgear⟩ := vkbdFilter_gear s.vms type code value
    exact ⟨k, by rwa [hspeed, hgear]⟩
  | worker =>
    rw [Handoff.step] at h
    split at h
    · obtain rfl := Option.some.inj h
      have hwork : Vmouse.InGear { s.vms with workPending := false } := hs
      exact vmsFunc_inGear hwork
    · cases h

theorem Handoff.run_inGear {s : Handoff} {acts : List Act} (h : run Handoff.step .initial acts = some s) :
    s.vms.InGear :=
  invariant_of_run (fun s => s.vms.InGear) (fun _ _ _ => Handoff.step_inGear) ⟨1, .first⟩ h

theorem InGear.toInt {k : Nat} {speed : BitVec 32} {g : GearStatics} (h : InGear k speed g) :
    speed.toInt = 2^k ∧ (-speed).toInt = -2^k := by
  have hlow := h.low
  have hhigh := h.high
  rw [h.speed_eq]
  interval_cases k <;> decide

/-- The value of a move along an axis at this speed: nothing, or the speed of its gear in one direction. -/
def IsMove (speed : BitVec 32) (value : Int) : Prop :=
  value = 0 ∨ ∃ k, 1 ≤ k ∧ k ≤ 6 ∧ speed.toNat = 2^k ∧ (value = 2^k ∨ value = -2^k)

theorem InGear.isMove {k : Nat} {speed d : BitVec 32} {g : GearStatics} (h : InGear k speed g)
    (hd : d = 0 ∨ d = speed ∨ d = -speed) : IsMove speed d.toInt := by
  obtain ⟨hpos, hneg⟩ := h.toInt
  rcases hd with rfl | rfl | rfl
  · exact .inl rfl
  · exact .inr ⟨k, h.low, h.high, h.speed_toNat, .inl hpos⟩
  · exact .inr ⟨k, h.low, h.high, h.speed_toNat, .inr hneg⟩

theorem reportMove_moves {vms : Vmouse} (h : vms.InGear) {dx dy : BitVec 32 → BitVec 32}
    (hdx : ∀ speed, dx speed = 0 ∨ dx speed = speed ∨ dx speed = -speed)
    (hdy : ∀ speed, dy speed = 0 ∨ dy speed = speed ∨ dy speed = -speed) {axis : Axis} {value : Int}
    (hm : Report.rel axis value ∈ (reportMove vms dx dy).2) :
    IsMove (reportMove vms dx dy).1.moveSpeed value := by
  obtain ⟨k, h⟩ := h
  obtain ⟨k', h'⟩ := gearbox_inGear h vms.value vms.keepSpeed
  simp only [reportMove, List.mem_cons, Report.rel.injEq, List.not_mem_nil, or_false, reduceCtorEq] at hm
  rcases hm with ⟨_, rfl⟩ | ⟨_, rfl⟩
  · exact h'.isMove (hdx _)
  · exact h'.isMove (hdy _)

theorem vmsFunc_moves {vms : Vmouse} (h : vms.InGear) {axis : Axis} {value : Int} (haxis : axis ≠ .wheel)
    (hm : Report.rel axis value ∈ (vmsFunc vms).2) : IsMove (vmsFunc vms).1.moveSpeed value := by
  unfold vmsFunc at hm ⊢
  split at hm
  · exact reportMove_moves h (fun _ => .inl rfl) (fun _ => .inr (.inr rfl)) hm
  · exact reportMove_moves h (fun _ => .inl rfl) (fun _ => .inr (.inl rfl)) hm
  · exact reportMove_moves h (fun _ => .inr (.inr rfl)) (fun _ => .inl rfl) hm
  · exact reportMove_moves h (fun _ => .inr (.inl rfl)) (fun _ => .inl rfl) hm
  all_goals simp_all

/-- Whatever events reach the driver and whenever the worker runs, the mouse is in one of six
gears, short of the next shift, and moves by the speed that `gearbox` leaves. -/
theorem gear_linked {acts : List Act} {s : Handoff} (h : run Handoff.step .initial acts = some s) :
    (0 ≤ s.vms.gear.count ∧ s.vms.gear.count < s.vms.gear.step) ∧
      (∃ k : Nat, 1 ≤ k ∧ k ≤ 6 ∧ s.vms.moveSpeed.toNat = 2^k ∧ s.vms.gear.step = 2 * k - 1) ∧
      s.vms.moveSpeed.toNat ≤ 64 ∧
      ∀ axis value, axis ≠ .wheel →
        Report.rel axis value ∈ (vmsFunc { s.vms with workPending := false }).2 →
          IsMove (vmsFunc { s.vms with workPending := false }).1.moveSpeed value := by
  have hgear := Handoff.run_inGear h
  obtain ⟨k, hk⟩ := hgear
  have hpow : 2^k ≤ 2^6 := Nat.pow_le_pow_right (by decide) hk.high
  refine ⟨⟨hk.count_nonneg, hk.count_lt⟩, ⟨k, hk.low, hk.high, hk.speed_toNat, hk.step_eq⟩, ?_, ?_⟩
  · rw [hk.speed_toNat]
    exact hpow
  · intro axis value haxis hm
    have hwork : Vmouse.InGear { s.vms with workPending := false } := ⟨k, hk⟩
    exact vmsFunc_moves hwork haxis hm

/-- Ctrl and Alt held, `KEY_P` pressed and repeated once: the speed is doubled. -/
theorem gear_linked_repeat :
    let acts : List Act := [.event 1 29 1, .event 1 56 1, .worker, .event 1 25 1, .worker, .event 1 25 2, .worker]
    ∃ s, run Handoff.step .initial acts = some s ∧ s.vms.moveSpeed = 4 ∧ s.vms.gear.step = 3 ∧
      s.vms.gear.count < s.vms.gear.step := by
  intro acts
  exact ⟨_, rfl, rfl, rfl, (gear_linked (show run Handoff.step .initial acts = some _ from rfl)).1.2⟩

end LinuxDrivers.VmouseDriver
