import Mathlib.Algebra.Group.Int.Defs
import LinuxDrivers.Lib.Scanf
import LinuxDrivers.VmouseDriver.Filter

/-! The attribute `wheel_speed` of the virtual mouse. -/
namespace LinuxDrivers.VmouseDriver
open CString Printf Scanf

abbrev wheelMaxSpeed : Int := 7
abbrev wheelMinSpeed : Int := 1

def checkVal (val : BitVec 32) (maxVal minVal : Int) : BitVec 32 :=
  if val.toInt < minVal then BitVec.ofInt 32 minVal
  else if maxVal < val.toInt then BitVec.ofInt 32 maxVal
  else val

/-- `sscanf(buffer, "%d", &var)`: what the variable holds afterwards. -/
def sscanfInt (buffer : List UInt8) (var : BitVec 32) : BitVec 32 :=
  match scanSigned buffer with
  | some n => BitVec.ofInt 32 n
  | none => var

/-- A write to the attribute; `uninit` is what the local variable of that call holds at first. -/
structure Store where
  buffer : List UInt8
  count : Nat
  uninit : BitVec 32

/-- `vmouse_wheel_speed_store(dev, attr, buffer, count)`: its result, and the mouse. The conversion is
not looked at. -/
def vmouseWheelSpeedStore (vms : Vmouse) (s : Store) : Nat × Vmouse :=
  let wheelSpeed := sscanfInt s.buffer s.uninit
  let wheelSpeed := checkVal wheelSpeed wheelMaxSpeed wheelMinSpeed
  (s.count, { vms with wheelSpeed := wheelSpeed })

def vmouseWheelSpeedShow (vms : Vmouse) : List UInt8 := decimal vms.wheelSpeed.toNat

def storeAll (vms : Vmouse) (stores : List Store) : Vmouse :=
  stores.foldl (fun vms s => (vmouseWheelSpeedStore vms s).2) vms

/-- What a write should do: a number sets the speed as near to it as allowed, anything else changes nothing. -/
structure StoreOk (buffer : List UInt8) (vms vms' : Vmouse) : Prop where
  clamped : ∀ n, scanSigned buffer = some n → -2^31 ≤ n → n < 2^31 →
    vms'.wheelSpeed.toInt = max wheelMinSpeed (min wheelMaxSpeed n)
  kept : scanSigned buffer = none → vms' = vms
  in_range : wheelMinSpeed ≤ vms'.wheelSpeed.toInt ∧ vms'.wheelSpeed.toInt ≤ wheelMaxSpeed

def StoresOk : Vmouse → List Store → Prop
  | _, [] => True
  | vms, s :: stores =>
      StoreOk s.buffer vms (vmouseWheelSpeedStore vms s).2 ∧ StoresOk (vmouseWheelSpeedStore vms s).2 stores

theorem checkVal_toInt (val : BitVec 32) :
    (checkVal val wheelMaxSpeed wheelMinSpeed).toInt = max wheelMinSpeed (min wheelMaxSpeed val.toInt) := by
  change _ = max 1 (min 7 val.toInt)
  unfold checkVal
  split
  · rename_i hlow
    have hmin : (BitVec.ofInt 32 wheelMinSpeed).toInt = 1 := rfl
    have hlow : val.toInt < 1 := hlow
    rw [hmin]
    omega
  · rename_i hlow
    have hlow : 1 ≤ val.toInt := Int.not_lt.mp hlow
    split
    · rename_i hhigh
      have hmax : (BitVec.ofInt 32 wheelMaxSpeed).toInt = 7 := rfl
      have hhigh : 7 < val.toInt := hhigh
      rw [hmax]
      omega
    · rename_i hhigh
      have hhigh : val.toInt ≤ 7 := Int.not_lt.mp hhigh
      omega

section Store

variable {vms : Vmouse} {s : Store}

theorem store_toInt :
    (vmouseWheelSpeedStore vms s).2.wheelSpeed.toInt =
      max wheelMinSpeed (min wheelMaxSpeed (sscanfInt s.buffer s.uninit).toInt) :=
  checkVal_toInt _

theorem sscanfInt_some {buffer : List UInt8} {n : Int} (h : scanSigned buffer = some n) (var : BitVec 32) :
    sscanfInt buffer var = BitVec.ofInt 32 n := by
  rw [sscanfInt, h]

theorem sscanfInt_none {buffer : List UInt8} (h : scanSigned buffer = none) (var : BitVec 32) :
    sscanfInt buffer var = var := by
  rw [sscanfInt, h]

/-- The local variable takes part only if nothing is converted. -/
theorem store_eq_of_converts (vms : Vmouse) (hs : (scanSigned s.buffer).isSome) (t : Store)
    (ht : t.buffer = s.buffer) :
    (vmouseWheelSpeedStore vms t).2 = (vmouseWheelSpeedStore vms s).2 := by
  obtain ⟨n, hn⟩ := Option.isSome_iff_exists.mp hs
  simp only [vmouseWheelSpeedStore, ht, sscanfInt_some hn]

theorem store_clamped {n : Int} (h : scanSigned s.buffer = some n) (hlow : -2^31 ≤ n) (hhigh : n < 2^31) :
    (vmouseWheelSpeedStore vms s).2.wheelSpeed.toInt = max wheelMinSpeed (min wheelMaxSpeed n) := by
  have hexact : (BitVec.ofInt 32 n).toInt = n := by
    rw [BitVec.toInt_ofInt]
    exact Int.bmod_eq_of_le (by omega) (by omega)
  rw [store_toInt, sscanfInt_some h, hexact]

theorem store_in_range :
    wheelMinSpeed ≤ (vmouseWheelSpeedStore vms s).2.wheelSpeed.toInt ∧
      (vmouseWheelSpeedStore vms s).2.wheelSpeed.toInt ≤ wheelMaxSpeed := by
  rw [store_toInt]
  generalize (sscanfInt s.buffer s.uninit).toInt = n
  change 1 ≤ max 1 (min 7 n) ∧ max 1 (min 7 n) ≤ 7
  omega

theorem storeOk_of_converts (hs : (scanSigned s.buffer).isSome) :
    StoreOk s.buffer vms (vmouseWheelSpeedStore vms s).2 where
  clamped _ hn hlow hhigh := store_clamped hn hlow hhigh
  kept hnone := by simp [hnone] at hs
  in_range := store_in_range

/-- With nothing converted, the speed would have to be what two different locals leave. -/
theorem converts_of_storeOk (vms : Vmouse) {buffer : List UInt8}
    (h : ∀ uninit, StoreOk buffer vms (vmouseWheelSpeedStore vms ⟨buffer, 0, uninit⟩).2) :
    (scanSigned buffer).isSome := by
  by_contra hnone
  have hnone : scanSigned buffer = none := Option.not_isSome_iff_eq_none.mp hnone
  have hspeed : ∀ uninit, vms.wheelSpeed = checkVal uninit wheelMaxSpeed wheelMinSpeed := by
    intro uninit
    have hkept := congrArg Vmouse.wheelSpeed ((h uninit).kept hnone)
    simp only [vmouseWheelSpeedStore, sscanfInt_none hnone] at hkept
    exact hkept.symm
  exact absurd ((hspeed 1).symm.trans (hspeed 7)) (by decide)

/-- The text of any number of an `int`, with anything but a digit behind it, sets the speed. -/
theorem store_signed (vms : Vmouse) {n : Int} {rest : List UInt8} (hbuffer : s.buffer = signed n ++ rest)
    (hrest : ∀ b ∈ rest.head?, isdigit b = false) (hlow : -2^31 ≤ n) (hhigh : n < 2^31) :
    (vmouseWheelSpeedStore vms s).2.wheelSpeed.toInt = max wheelMinSpeed (min wheelMaxSpeed n) := by
  apply store_clamped _ hlow hhigh
  rw [hbuffer]
  exact scanSigned_signed n hrest

/-- Writing back what was shown changes nothing. -/
theorem store_show (hrange : wheelMinSpeed ≤ vms.wheelSpeed.toInt ∧ vms.wheelSpeed.toInt ≤ wheelMaxSpeed)
    (hbuffer : s.buffer = vmouseWheelSpeedShow vms) : (vmouseWheelSpeedStore vms s).2 = vms := by
  have hlow : 1 ≤ vms.wheelSpeed.toInt := hrange.1
  have hhigh : vms.wheelSpeed.toInt ≤ 7 := hrange.2
  have hint : vms.wheelSpeed.toInt = vms.wheelSpeed.toNat := by
    have hcond := BitVec.toInt_eq_toNat_cond vms.wheelSpeed
    split at hcond <;> omega
  have hshown : s.buffer = signed vms.wheelSpeed.toInt ++ [] := by
    rw [hbuffer, vmouseWheelSpeedShow, signed, if_neg (by omega), List.append_nil, hint, Int.natAbs_natCast]
  have hspeed := store_signed vms hshown (by simp) (by omega) (by omega)
  have hsame : (vmouseWheelSpeedStore vms s).2.wheelSpeed = vms.wheelSpeed := by
    apply BitVec.eq_of_toInt_eq
    rw [hspeed]
    omega
  calc
    (vmouseWheelSpeedStore vms s).2 = { vms with wheelSpeed := (vmouseWheelSpeedStore vms s).2.wheelSpeed } := rfl
    _ = vms := by rw [hsame]

end Store

theorem storesOk_of_converts {vms : Vmouse} {stores : List Store}
    (h : ∀ s ∈ stores, (scanSigned s.buffer).isSome) : StoresOk vms stores := by
  induction stores generalizing vms with
  | nil => trivial
  | cons s stores ih =>
    obtain ⟨hs, hstores⟩ := List.forall_mem_cons.mp h
    exact ⟨storeOk_of_converts hs, ih hstores⟩

/-- Writes that all hold a number leave the same mouse, whatever the locals held. -/
theorem storeAll_eq_of_converts {vms : Vmouse} {stores others : List Store}
    (h : ∀ s ∈ stores, (scanSigned s.buffer).isSome) (hsame : others.map Store.buffer = stores.map Store.buffer) :
    storeAll vms others = storeAll vms stores := by
  induction stores generalizing vms others with
  | nil =>
    rw [List.map_nil, List.map_eq_nil_iff] at hsame
    rw [hsame]
  | cons s stores ih =>
    obtain ⟨t, others, rfl, ht, hrest⟩ := List.map_eq_cons_iff.mp hsame
    obtain ⟨hs, hstores⟩ := List.forall_mem_cons.mp h
    have hfirst := store_eq_of_converts vms hs t ht
    calc
      storeAll vms (t :: others) = storeAll (vmouseWheelSpeedStore vms t).2 others := rfl
      _ = storeAll (vmouseWheelSpeedStore vms s).2 others := by rw [hfirst]
      _ = storeAll (vmouseWheelSpeedStore vms s).2 stores := ih hstores hrest

/-- If the writes do what they should whatever the locals hold, each of them holds a number. -/
theorem converts_of_storesOk (vms : Vmouse) {buffers : List (List UInt8)}
    (h : ∀ stores : List Store, stores.map Store.buffer = buffers → StoresOk vms stores) :
    ∀ buffer ∈ buffers, (scanSigned buffer).isSome := by
  induction buffers generalizing vms with
  | nil => exact fun _ hmem => absurd hmem List.not_mem_nil
  | cons buffer buffers ih =>
    have hmap : (buffers.map fun b => (⟨b, 0, 0⟩ : Store)).map Store.buffer = buffers := by
      rw [List.map_map]
      exact List.map_id buffers
    have hfirst : (scanSigned buffer).isSome := by
      apply converts_of_storeOk vms
      intro uninit
      exact (h (⟨buffer, 0, uninit⟩ :: buffers.map fun b => ⟨b, 0, 0⟩) (congrArg (buffer :: ·) hmap)).1
    have hrest : ∀ b ∈ buffers, (scanSigned b).isSome := by
      apply ih (vmouseWheelSpeedStore vms ⟨buffer, 0, 0⟩).2
      intro stores hstores
      exact (h (⟨buffer, 0, 0⟩ :: stores) (congrArg (buffer :: ·) hstores)).2
    exact List.forall_mem_cons.mpr ⟨hfirst, hrest⟩

/-- For any sequence of writes: each does what it should and the speed is determined by the buffers,
whatever the local variable of each call holds, exactly if each buffer holds a number. -/
theorem writes_determine_iff (vms : Vmouse) (buffers : List (List UInt8)) :
    (∀ stores : List Store, stores.map Store.buffer = buffers →
      StoresOk vms stores ∧
        ∀ others : List Store, others.map Store.buffer = buffers → storeAll vms others = storeAll vms stores) ↔
      ∀ buffer ∈ buffers, (scanSigned buffer).isSome := by
  constructor
  · intro h
    exact converts_of_storesOk vms (fun stores hstores => (h stores hstores).1)
  · rintro h stores rfl
    have hstores : ∀ s ∈ stores, (scanSigned s.buffer).isSome := List.forall_mem_map.mp h
    exact ⟨storesOk_of_converts hstores, fun others hothers => storeAll_eq_of_converts hstores hothers⟩

/-- The letter x, written to a mouse just set up, changes its speed from 5 to 1 if the local holds 0. -/
theorem bad_write_changes_speed :
    ¬∀ stores : List Store, StoresOk .initial stores := by
  intro h
  have hkept := (h [⟨ascii ['x'], 1, 0⟩]).1.kept (by decide)
  exact absurd (congrArg Vmouse.wheelSpeed hkept) (by decide)

end LinuxDrivers.VmouseDriver
