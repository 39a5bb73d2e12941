import Mathlib.Algebra.Group.Nat.Defs
import Mathlib.Data.List.Basic

/-! The 64-bit position arithmetic of `do_request`: where a request starts, how each
segment is cut back at the end of the device, and which ranges are therefore copied. -/
namespace LinuxDrivers.Blockdev

abbrev Sector := BitVec 64

/-- `loff_t pos = blk_rq_pos(rq) << SECTOR_SHIFT`. The shift is done on the unsigned
`sector_t`; the bits are then read as a signed `loff_t`. -/
def startPos (sector : Sector) : BitVec 64 := sector <<< 9

def devSize (capacity : Sector) : BitVec 64 := capacity <<< 9

/-- `b_len` after the check `(pos + b_len) > dev_size`. As `b_len` is an `unsigned long`,
the sum and the comparison are unsigned. -/
def clampLen (pos size bLen : BitVec 64) : BitVec 64 :=
  if size < pos + bLen then size - pos else bLen

structure Copy where
  pos : BitVec 64
  bLen : BitVec 64
  deriving DecidableEq, Repr

def Copy.InBounds (size : BitVec 64) (c : Copy) : Prop :=
  0 ≤ c.pos.toInt ∧ c.pos.toInt + c.bLen.toNat ≤ size.toInt

instance (size : BitVec 64) (c : Copy) : Decidable (c.InBounds size) :=
  inferInstanceAs (Decidable (_ ∧ _))

def copiesFrom (size : BitVec 64) : BitVec 64 → List (BitVec 32) → List Copy
  | _, [] => []
  | pos, bvLen :: rest =>
      let bLen := clampLen pos size (bvLen.setWidth 64)
      ⟨pos, bLen⟩ :: copiesFrom size (pos + bLen) rest

def copies (sector capacity : Sector) (bvLens : List (BitVec 32)) : List Copy :=
  copiesFrom (devSize capacity) (startPos sector) bvLens

theorem startPos_toNat (sector : Sector) : (startPos sector).toNat = sector.toNat * 512 % 2^64 := by
  simp [startPos, BitVec.toNat_shiftLeft, Nat.shiftLeft_eq]

theorem devSize_toNat (capacity : Sector) : (devSize capacity).toNat = capacity.toNat * 512 % 2^64 :=
  startPos_toNat capacity

def Within (size pos : BitVec 64) : Prop := pos.toNat ≤ size.toNat ∧ size.toNat < 2^63

instance (size pos : BitVec 64) : Decidable (Within size pos) :=
  inferInstanceAs (Decidable (_ ∧ _))

theorem within_iff (size pos : BitVec 64) :
    Within size pos ↔ 0 ≤ pos.toInt ∧ pos.toInt ≤ size.toInt := by
  rw [BitVec.toInt_eq_toNat_cond, BitVec.toInt_eq_toNat_cond]
  have hp := pos.isLt
  have hs := size.isLt
  unfold Within
  split <;> split <;> omega

/-- From a position within the device the check cuts at the end of the device. -/
theorem clampLen_toNat {size pos : BitVec 64} (h : Within size pos) (bvLen : BitVec 32) :
    (clampLen pos size (bvLen.setWidth 64)).toNat = min bvLen.toNat (size.toNat - pos.toNat) := by
  obtain ⟨hle, hlt⟩ := h
  have hb := bvLen.isLt
  have hset : (bvLen.setWidth 64).toNat = bvLen.toNat := by
    rw [BitVec.toNat_setWidth, Nat.mod_eq_of_lt (by omega)]
  have hsum : (pos + bvLen.setWidth 64).toNat = pos.toNat + bvLen.toNat := by
    rw [BitVec.toNat_add, hset, Nat.mod_eq_of_lt (by omega)]
  unfold clampLen
  split
  · rename_i hgt
    rw [BitVec.lt_def, hsum] at hgt
    rw [BitVec.toNat_sub_of_le (BitVec.le_def.mpr hle)]
    omega
  · rename_i hgt
    rw [BitVec.lt_def, hsum] at hgt
    rw [hset]
    omega

/-- One copy keeps the position within the device and advances it by the clamped length. -/
theorem advance_toNat {size pos : BitVec 64} (h : Within size pos) (bvLen : BitVec 32) :
    (pos + clampLen pos size (bvLen.setWidth 64)).toNat =
      pos.toNat + min bvLen.toNat (size.toNat - pos.toNat) := by
  have hc := clampLen_toNat h bvLen
  obtain ⟨hle, hlt⟩ := h
  rw [BitVec.toNat_add, hc, Nat.mod_eq_of_lt (by omega)]

theorem advance_within {size pos : BitVec 64} (h : Within size pos) (bvLen : BitVec 32) :
    Within size (pos + clampLen pos size (bvLen.setWidth 64)) := by
  have ha := advance_toNat h bvLen
  obtain ⟨hle, hlt⟩ := h
  exact ⟨by omega, hlt⟩

theorem copy_inBounds {size pos : BitVec 64} (h : Within size pos) (bvLen : BitVec 32) :
    (⟨pos, clampLen pos size (bvLen.setWidth 64)⟩ : Copy).InBounds size := by
  have hc := clampLen_toNat h bvLen
  obtain ⟨hle, hlt⟩ := h
  have hp : pos.toInt = pos.toNat := BitVec.toInt_eq_toNat_of_lt (by omega)
  have hs : size.toInt = size.toNat := BitVec.toInt_eq_toNat_of_lt (by omega)
  simp only [Copy.InBounds, hp, hs, hc]
  omega

/-- A copy in bounds starts within the device, whatever its length. -/
theorem within_of_inBounds {size : BitVec 64} {c : Copy} (h : c.InBounds size) : Within size c.pos := by
  rw [within_iff]
  obtain ⟨h0, hle⟩ := h
  exact ⟨h0, by omega⟩

theorem copiesFrom_inBounds {size pos : BitVec 64} (h : Within size pos) (bvLens : List (BitVec 32)) :
    ∀ c ∈ copiesFrom size pos bvLens, c.InBounds size := by
  induction bvLens generalizing pos with
  | nil => simp [copiesFrom]
  | cons bvLen rest ih =>
    simp only [copiesFrom, List.mem_cons, forall_eq_or_imp]
    exact ⟨copy_inBounds h bvLen, ih (advance_within h bvLen)⟩

/-- The check keeps every copy inside the buffer exactly for the requests that start
within it: a start past the end makes `dev_size - pos` wrap, and a start whose shifted
position wraps passes the unsigned comparison. -/
theorem copies_inBounds_iff (sector capacity : Sector) (bvLens : List (BitVec 32)) :
    (∀ c ∈ copies sector capacity bvLens, c.InBounds (devSize capacity)) ↔
      bvLens = [] ∨ (sector.toNat * 512 % 2^64 ≤ capacity.toNat * 512 % 2^64 ∧
        capacity.toNat * 512 % 2^64 < 2^63) := by
  rw [← startPos_toNat, ← devSize_toNat]
  constructor
  · intro h
    cases bvLens with
    | nil => exact .inl rfl
    | cons bvLen rest => exact .inr (within_of_inBounds (h _ List.mem_cons_self))
  · rintro (rfl | h)
    · simp [copies, copiesFrom]
    · exact copiesFrom_inBounds h bvLens

/-- One sector past the end of the device the module creates, the check lets the copy
run backwards over the whole address space. -/
theorem start_past_end_overruns :
    ¬ ∀ sector capacity : Sector, ∀ bvLens : List (BitVec 32),
      ∀ c ∈ copies sector capacity bvLens, c.InBounds (devSize capacity) := by
  intro h
  exact absurd (h 897 896 [512] ⟨startPos 897, devSize 896 - startPos 897⟩ (by decide)) (by decide)

end LinuxDrivers.Blockdev
