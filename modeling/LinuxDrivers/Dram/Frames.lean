import LinuxDrivers.Dram.Device

/-! The frame that `dev_read` maps: the number of the page and the offset in it are kept in two `int`s. -/
namespace LinuxDrivers.Dram

/-- The number of the page is the balanced residue of the exact one. -/
theorem pageNumber_toInt (pos : BitVec 64) :
    (pageNumber pos).toInt = ((pos.toNat / 4096 : Nat) : Int).bmod (2^32) := by
  have hsize : pageSize.toNat = 4096 := rfl
  rw [pageNumber, BitVec.toInt_setWidth, BitVec.toNat_udiv, hsize]

theorem pageIndent_toInt (pos : BitVec 64) : (pageIndent pos).toInt = (pos.toNat % 4096 : Nat) := by
  have hindent := pageIndent_toNat pos
  rw [BitVec.toInt_eq_toNat_of_lt (by omega), hindent]

/-- The address mapped, for every position: it repeats every `2^44` bytes, and from `2^43` on it
lies below the memory. -/
theorem start_bmod (pos : BitVec 64) :
    (pageNumber pos).toInt * 4096 + (pageIndent pos).toInt = (pos.toNat : Int).bmod (2^44) := by
  rw [pageNumber_toInt, pageIndent_toInt]
  symm
  rw [Int.bmod_eq_iff (by decide)]
  have hlow : -(2^31 : Int) ≤ ((pos.toNat / 4096 : Nat) : Int).bmod (2^32) := Int.le_bmod (by decide)
  have hhigh : ((pos.toNat / 4096 : Nat) : Int).bmod (2^32) < 2^31 := Int.bmod_lt (by decide)
  obtain ⟨k, hk⟩ : (2^32 : Int) ∣ ((pos.toNat / 4096 : Nat) : Int) - ((pos.toNat / 4096 : Nat) : Int).bmod (2^32) :=
    Int.dvd_self_sub_bmod
  have hdvd : (2^44 : Int) ∣
      ((pos.toNat / 4096 : Nat) : Int).bmod (2^32) * 4096 + (pos.toNat % 4096 : Nat) - pos.toNat := ⟨-k, by omega⟩
  exact ⟨by omega, by omega, hdvd⟩

/-- Where `dev_read` copies from at a position in front of the end. -/
theorem devRead_source (ram : Ram) {size pos : BitVec 64} (h : pos < size) (count : BitVec 64) (accepts : Nat) :
    (devRead ram size pos count accepts).source =
      some ((pos.toNat : Int).bmod (2^44), (clampCount pos count).toNat) := by
  rw [BitVec.lt_def] at h
  have hlt : ¬size ≤ pos := by
    rw [BitVec.le_def]
    omega
  unfold devRead
  simp only [if_neg hlt, start_bmod]
  split <;> rfl

/-- The frame that holds a position is mapped, on a machine of so many frames: what is computed is the
number of the page and the offset in it, and the bytes copied start at the position. -/
structure MapsFrame (numPhyspages : Nat) (pos : BitVec 64) : Prop where
  number : 0 ≤ (pageNumber pos).toInt ∧ (pageNumber pos).toInt < numPhyspages
  indent : 0 ≤ (pageIndent pos).toInt ∧ (pageIndent pos).toInt < 4096
  pos_eq : (pageNumber pos).toInt * 4096 + (pageIndent pos).toInt = pos.toNat
  source : ∀ ram count accepts,
    (devRead ram (dramSize numPhyspages) pos count accepts).source =
      some ((pos.toNat : Int), (clampCount pos count).toNat)

/-- A residue is the position itself below `2^43`. -/
theorem bmod_eq_self_iff (pos : Nat) : (pos : Int).bmod (2^44) = pos ↔ pos < 2^43 := by
  constructor
  · intro h
    have hhigh : (pos : Int).bmod (2^44) < 2^43 := Int.bmod_lt (by decide)
    omega
  · intro h
    exact Int.bmod_eq_of_le (by omega) (by omega)

/-- Whatever the size of the memory, the right frame is mapped exactly at the positions below 8 TiB. -/
theorem maps_frame_iff {numPhyspages : Nat} {pos : BitVec 64} (hsize : numPhyspages * 4096 < 2^63)
    (hpos : pos.toNat < numPhyspages * 4096) : MapsFrame numPhyspages pos ↔ pos.toNat < 2^43 := by
  have hstart := start_bmod pos
  have hself := bmod_eq_self_iff pos.toNat
  constructor
  · intro h
    exact hself.mp (hstart.symm.trans h.pos_eq)
  · intro h
    have hinside : pos < dramSize numPhyspages := by
      rw [BitVec.lt_def, dramSize_exact (by omega)]
      exact hpos
    rw [hself.mpr h] at hstart
    have hindent := pageIndent_toInt pos
    refine ⟨by omega, by omega, hstart, fun ram count accepts => ?_⟩
    rw [devRead_source ram hinside, hself.mpr h]

/-- The last byte of two frames. -/
theorem maps_frame_two : MapsFrame 2 8191 := by
  have hpos : (8191 : BitVec 64).toNat < 2 * 4096 := by decide
  exact (maps_frame_iff (by decide) hpos).mpr (by decide)

/-- On a machine with one frame more than 8 TiB, the last frame is looked for below the memory. -/
theorem last_frame_not_mapped :
    ¬∀ (numPhyspages : Nat) (pos : BitVec 64), numPhyspages * 4096 < 2^63 → pos.toNat < numPhyspages * 4096 →
      0 ≤ (pageNumber pos).toInt ∧ (pageNumber pos).toInt < numPhyspages ∧
      0 ≤ (pageIndent pos).toInt ∧ (pageIndent pos).toInt < 4096 ∧
      (pageNumber pos).toInt * 4096 + (pageIndent pos).toInt = pos.toNat := by
  intro h
  have hnumber := (h (2^31 + 1) (BitVec.ofNat 64 (2^43)) (by decide) (by decide)).1
  exact absurd hnumber (by decide)

end LinuxDrivers.Dram
