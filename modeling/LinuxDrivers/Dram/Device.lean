import Mathlib.Algebra.Group.Nat.Defs
import LinuxDrivers.Lib.UserCopy

/-! The device of dram.c: `dev_read` and `dev_lseek` on the physical memory. `int` is 32 bits
wide; `loff_t`, `size_t` and `unsigned long` are 64. -/
namespace LinuxDrivers.Dram
open UserCopy

abbrev Ram := Int → UInt8

abbrev pageSize : BitVec 64 := 4096

abbrev einval : Int := 22

def dramSize (numPhyspages : Nat) : BitVec 64 := BitVec.ofNat 64 numPhyspages <<< 12

/-- What a call of `dev_read` does: its result, the position it leaves, the stretch of memory it
copies from and the bytes that reach the user. -/
structure Read where
  ret : Int
  pos : BitVec 64
  source : Option (Int × Nat)
  delivered : List UInt8

def pageNumber (pos : BitVec 64) : BitVec 32 := (pos / pageSize).setWidth 32

def pageIndent (pos : BitVec 64) : BitVec 32 := (pos % pageSize).setWidth 32

def bytesFrom (ram : Ram) (start : Int) (n : Nat) : List UInt8 :=
  (List.range n).map fun (i : Nat) => ram (start + i)

def clampCount (pos count : BitVec 64) : BitVec 64 :=
  if pageSize < (pageIndent pos).signExtend 64 + count then pageSize - (pageIndent pos).signExtend 64 else count

/-- `dev_read(file, buf, count, pos)`; the frame `&vmemmap[page_number]` starts at the address
`page_number * PAGE_SIZE`. -/
def devRead (ram : Ram) (dramSize pos count : BitVec 64) (accepts : Nat) : Read :=
  if dramSize ≤ pos then ⟨0, pos, none, []⟩
  else
    let start := (pageNumber pos).toInt * 4096 + (pageIndent pos).toInt
    let count := clampCount pos count
    let (uncopied, delivered) := copyToUser (bytesFrom ram start count.toNat) accepts
    let more := BitVec.ofNat 32 uncopied
    if more ≠ 0 then ⟨-efault, pos, some (start, count.toNat), delivered⟩
    else ⟨count.toInt, pos + count, some (start, count.toNat), delivered⟩

/-- `dev_lseek(file, offset, whence)`: its result and `file->f_pos`. The position is compared as
a signed number first, then as an unsigned one. -/
def devLseek (dramSize fPos offset : BitVec 64) (whence : Int) : Int × BitVec 64 :=
  let newpos := match whence with
    | 0 => offset
    | 1 => fPos + offset
    | 2 => dramSize + offset
    | _ => -1
  if newpos.toInt < 0 ∨ dramSize < newpos then (-einval, fPos) else (newpos.toInt, newpos)

/-- The size is exact for every memory whose bytes 64 bits can count. -/
theorem dramSize_exact {n : Nat} (h : n * 4096 < 2^64) : (dramSize n).toNat = n * 4096 := by
  rw [dramSize, BitVec.toNat_shiftLeft, BitVec.toNat_ofNat, Nat.shiftLeft_eq]
  omega

@[simp] theorem bytesFrom_length (ram : Ram) (start : Int) (n : Nat) : (bytesFrom ram start n).length = n := by
  simp [bytesFrom]

theorem bytesFrom_add (ram : Ram) (start : Int) (m n : Nat) :
    bytesFrom ram start (m + n) = bytesFrom ram start m ++ bytesFrom ram (start + m) n := by
  simp [bytesFrom, List.range_add, Int.add_assoc]

theorem pageIndent_toNat (pos : BitVec 64) : (pageIndent pos).toNat = pos.toNat % 4096 := by
  have hsize : pageSize.toNat = 4096 := rfl
  rw [pageIndent, BitVec.toNat_setWidth, BitVec.toNat_umod, hsize]
  omega

/-- The offset in the page keeps its value as an `unsigned long`. -/
theorem pageIndent_signExtend (pos : BitVec 64) : ((pageIndent pos).signExtend 64).toNat = pos.toNat % 4096 := by
  have hindent := pageIndent_toNat pos
  have hmsb : (pageIndent pos).msb = false := by
    rw [BitVec.msb_eq_false_iff_two_mul_lt]
    omega
  rw [BitVec.signExtend_eq_setWidth_of_msb_false hmsb, BitVec.toNat_setWidth_of_le (by decide), hindent]

/-- Up to `2^31` frames the number of the page fits an `int`. -/
theorem start_eq {pos : BitVec 64} (h : pos.toNat < 2^31 * 4096) :
    (pageNumber pos).toInt * 4096 + (pageIndent pos).toInt = pos.toNat := by
  have hsize : pageSize.toNat = 4096 := rfl
  have hindent := pageIndent_toNat pos
  have hnumber : (pageNumber pos).toNat = pos.toNat / 4096 := by
    rw [pageNumber, BitVec.toNat_setWidth, BitVec.toNat_udiv, hsize]
    omega
  rw [BitVec.toInt_eq_toNat_of_lt (by omega), BitVec.toInt_eq_toNat_of_lt (by omega), hnumber, hindent]
  omega

/-- The position after a whole copy never passes the end of the page, even when the sum with
`count` wraps. -/
theorem add_clampCount_le (pos count : BitVec 64) (h : pos.toNat / 4096 * 4096 + 4096 < 2^64) :
    (pos + clampCount pos count).toNat ≤ pos.toNat / 4096 * 4096 + 4096 := by
  have hindent := pageIndent_signExtend pos
  have hsize : pageSize.toNat = 4096 := rfl
  unfold clampCount
  split
  · rw [BitVec.toNat_add, BitVec.toNat_sub_of_le (by rw [BitVec.le_def]; omega), hindent, hsize]
    omega
  · rename_i hle
    rw [BitVec.lt_def, BitVec.toNat_add, hindent, hsize] at hle
    rw [BitVec.toNat_add]
    omega

/-- For a count of the size the VFS lets through, the cut is exact. -/
theorem clampCount_toNat (pos : BitVec 64) {count : BitVec 64} (h : count.toNat < 2^63) :
    (clampCount pos count).toNat = min count.toNat (4096 - pos.toNat % 4096) := by
  have hindent := pageIndent_signExtend pos
  have hsize : pageSize.toNat = 4096 := rfl
  have hsum : ((pageIndent pos).signExtend 64 + count).toNat = pos.toNat % 4096 + count.toNat := by
    rw [BitVec.toNat_add, hindent]
    exact Nat.mod_eq_of_lt (by omega)
  unfold clampCount
  split
  · rename_i hlt
    rw [BitVec.lt_def, hsum, hsize] at hlt
    rw [BitVec.toNat_sub_of_le (by rw [BitVec.le_def]; omega), hindent, hsize]
    omega
  · rename_i hle
    rw [BitVec.lt_def, hsum, hsize] at hle
    omega

end LinuxDrivers.Dram
