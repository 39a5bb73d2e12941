import LinuxDrivers.Dram.Device

/-! The file position of the memory device, moved by seeks and reads. -/
namespace LinuxDrivers.Dram
open UserCopy

inductive Op where
  | seek (offset : BitVec 64) (whence : Int)
  | read (count : BitVec 64) (accepts : Nat)

def Op.apply (ram : Ram) (dramSize fPos : BitVec 64) : Op → BitVec 64
  | .seek offset whence => (devLseek dramSize fPos offset whence).2
  | .read count accepts => (devRead ram dramSize fPos count accepts).pos

def fPosAfter (ram : Ram) (dramSize : BitVec 64) (ops : List Op) : BitVec 64 :=
  ops.foldl (fun fPos op => op.apply ram dramSize fPos) 0

/-- Where a seek is to go, as exact integers; there is no target outside of the memory. -/
def seekTarget (size fPos offset whence : Int) : Option Int :=
  let target := match whence with
    | 0 => some offset
    | 1 => some (fPos + offset)
    | 2 => some (size + offset)
    | _ => none
  target.filter fun t => 0 ≤ t ∧ t ≤ size

def seekTo (fPos : BitVec 64) : Option Int → Int × BitVec 64
  | some t => (t, BitVec.ofInt 64 t)
  | none => (-einval, fPos)

theorem toInt_eq_toNat {x : BitVec 64} (h : x.toNat < 2^63) : x.toInt = x.toNat :=
  BitVec.toInt_eq_toNat_of_lt (by omega)

/-- The two comparisons accept a sum of 64 bits exactly when the exact sum lies in the memory:
a sum that wraps is negative. -/
theorem accepts_iff {size base : BitVec 64} (offset : BitVec 64) (hsize : size.toNat < 2^63)
    (hbase : base.toNat < 2^63) :
    ¬ ((base + offset).toInt < 0 ∨ size < base + offset) ↔
      0 ≤ (base.toNat : Int) + offset.toInt ∧ (base.toNat : Int) + offset.toInt ≤ size.toNat := by
  have hsum := BitVec.toInt_add base offset
  have hoffset := BitVec.toInt_eq_toNat_cond offset
  have hcond := BitVec.toInt_eq_toNat_cond (base + offset)
  have hnat := BitVec.toNat_add base offset
  have hlt := offset.isLt
  rw [BitVec.lt_def]
  split at hoffset <;> split at hcond <;> omega

theorem seek_eq {size base : BitVec 64} (fPos offset : BitVec 64) (hsize : size.toNat < 2^63)
    (hbase : base.toNat < 2^63) :
    (if (base + offset).toInt < 0 ∨ size < base + offset then (-einval, fPos)
      else ((base + offset).toInt, base + offset)) =
      seekTo fPos ((some ((base.toNat : Int) + offset.toInt)).filter fun t => 0 ≤ t ∧ t ≤ size.toNat) := by
  have haccepts := accepts_iff offset hsize hbase
  by_cases h : 0 ≤ (base.toNat : Int) + offset.toInt ∧ (base.toNat : Int) + offset.toInt ≤ size.toNat
  · have hexact : (base + offset).toInt = (base.toNat : Int) + offset.toInt := by
      rw [BitVec.toInt_add, toInt_eq_toNat hbase, Int.bmod_eq_of_le (by omega) (by omega)]
    have htarget : (some ((base.toNat : Int) + offset.toInt)).filter (fun t => 0 ≤ t ∧ t ≤ (size.toNat : Int)) =
        some ((base.toNat : Int) + offset.toInt) := Option.filter_some_pos (decide_eq_true h)
    rw [if_neg (haccepts.mpr h), htarget, seekTo, ← hexact, BitVec.ofInt_toInt]
  · have htarget : (some ((base.toNat : Int) + offset.toInt)).filter (fun t => 0 ≤ t ∧ t ≤ (size.toNat : Int)) =
        none := Option.filter_some_neg (decide_eq_false h)
    rw [if_pos (not_not.mp fun hn => h (haccepts.mp hn)), htarget, seekTo]

theorem seekTarget_other {size : Nat} {fPos offset whence : Int} (h0 : whence ≠ 0) (h1 : whence ≠ 1)
    (h2 : whence ≠ 2) : seekTarget size fPos offset whence = none := by
  unfold seekTarget
  split
  · contradiction
  · contradiction
  · contradiction
  · rfl

/-- A seek does what the exact integers ask for, for every offset of 64 bits. -/
theorem devLseek_eq {size fPos : BitVec 64} (hsize : size.toNat < 2^63) (hpos : fPos.toNat ≤ size.toNat)
    (offset : BitVec 64) (whence : Int) :
    devLseek size fPos offset whence = seekTo fPos (seekTarget size.toNat fPos.toInt offset.toInt whence) := by
  have hfPos : fPos.toInt = fPos.toNat := toInt_eq_toNat (by omega)
  obtain rfl | rfl | rfl | ⟨h0, h1, h2⟩ :
      whence = 0 ∨ whence = 1 ∨ whence = 2 ∨ whence ≠ 0 ∧ whence ≠ 1 ∧ whence ≠ 2 := by omega
  · have hbase : (0 : BitVec 64).toNat < 2^63 := by decide
    have h := seek_eq fPos offset hsize hbase
    have hzero : (0 : BitVec 64) + offset = offset := BitVec.zero_add offset
    have hexact : (((0 : BitVec 64).toNat : Nat) : Int) + offset.toInt = offset.toInt := Int.zero_add _
    rw [hzero, hexact] at h
    exact h
  · rw [hfPos]
    exact seek_eq fPos offset hsize (by omega)
  · exact seek_eq fPos offset hsize hsize
  · rw [seekTarget_other h0 h1 h2, devLseek]
    · exact if_pos (.inl (by decide))
    · exact h0
    · exact h1
    · exact h2

/-- A read leaves the position where it was or moves it within the page or to its end. -/
theorem devRead_pos_le (ram : Ram) {size pos : BitVec 64} (hsize : size.toNat < 2^63)
    (hpage : size.toNat % 4096 = 0) (hpos : pos.toNat ≤ size.toNat) (count : BitVec 64) (accepts : Nat) :
    (devRead ram size pos count accepts).pos.toNat ≤ size.toNat := by
  unfold devRead
  split
  · exact hpos
  · rename_i hlt
    rw [BitVec.le_def] at hlt
    dsimp only
    split
    · exact hpos
    · have hend := add_clampCount_le pos count (by omega)
      dsimp only
      omega

theorem Op.apply_le (ram : Ram) {size fPos : BitVec 64} (hsize : size.toNat < 2^63)
    (hpage : size.toNat % 4096 = 0) (hpos : fPos.toNat ≤ size.toNat) (op : Op) :
    (op.apply ram size fPos).toNat ≤ size.toNat := by
  cases op with
  | read count accepts => exact devRead_pos_le ram hsize hpage hpos count accepts
  | seek offset whence =>
    rw [Op.apply, devLseek_eq hsize hpos]
    cases ht : seekTarget size.toNat fPos.toInt offset.toInt whence with
    | none => exact hpos
    | some t =>
      have hin := (Option.filter_eq_some_iff.mp ht).2
      simp only [decide_eq_true_eq] at hin
      rw [seekTo, BitVec.toNat_ofInt]
      omega

theorem fPosAfter_le (ram : Ram) {size : BitVec 64} (hsize : size.toNat < 2^63) (hpage : size.toNat % 4096 = 0)
    (ops : List Op) : (fPosAfter ram size ops).toNat ≤ size.toNat := by
  have hrun : ∀ fPos : BitVec 64, fPos.toNat ≤ size.toNat →
      (ops.foldl (fun fPos op => op.apply ram size fPos) fPos).toNat ≤ size.toNat := by
    induction ops with
    | nil => exact fun _ h => h
    | cons op ops ih => exact fun fPos h => ih _ (op.apply_le ram hsize hpage h)
  exact hrun 0 (Nat.zero_le _)

/-- In every state of an open file the position lies in the memory, and a seek goes to its exact
target when that lies in the memory and changes nothing otherwise. -/
theorem fPos_in_range (ram : Ram) {size : BitVec 64} (hsize : size.toNat < 2^63) (hpage : size.toNat % 4096 = 0)
    (ops : List Op) :
    let fPos := fPosAfter ram size ops
    (0 ≤ fPos.toInt ∧ fPos.toInt ≤ size.toNat) ∧
      ∀ offset whence, devLseek size fPos offset whence =
        seekTo fPos (seekTarget size.toNat fPos.toInt offset.toInt whence) := by
  intro fPos
  have hle : fPos.toNat ≤ size.toNat := fPosAfter_le ram hsize hpage ops
  have hint : fPos.toInt = fPos.toNat := toInt_eq_toNat (by omega)
  exact ⟨by omega, devLseek_eq hsize hle⟩

/-- A seek to the end of 2 pages, a read there, and a seek that would wrap. -/
theorem fPos_in_range_wrap :
    let ops : List Op := [.seek 0 2, .read 100 100]
    (fPosAfter (fun _ => 0) 8192 ops).toInt = 8192 ∧
      devLseek 8192 (fPosAfter (fun _ => 0) 8192 ops) (BitVec.intMax 64) 1 = (-22, 8192) := by
  intro ops
  have h := fPos_in_range (fun _ => 0) (show (8192 : BitVec 64).toNat < 2^63 by decide) (by decide) ops
  exact ⟨by decide, by rw [h.2]; decide⟩

end LinuxDrivers.Dram
