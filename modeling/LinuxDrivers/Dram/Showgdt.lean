import LinuxDrivers.Dram.Device
import LinuxDrivers.Lib.LittleEndian
import LinuxDrivers.Lib.Printf

/-! The program `showgdt`, which prints the descriptor table it reads from the memory device. -/
namespace LinuxDrivers.Dram
open CString Printf LittleEndian

abbrev startKernelMap : BitVec 64 := 0xffffffff80000000

def gdtPhysAddress (gdtVirtAddress : BitVec 64) : BitVec 64 := gdtVirtAddress - startKernelMap

/-- `gdtr[0]` is the limit. -/
def nElts (limit : BitVec 16) : Nat := (1 + limit.toNat) / 8

structure Row where
  index : Nat
  descriptor : Nat
  deriving DecidableEq, Repr

def overlay (old new : List UInt8) : List UInt8 := new ++ old.drop new.length

/-- The loop from iteration `i` on, with `k` iterations to go. The result of `read` is not looked
at; `descriptor` holds `uninit i` before it. -/
def readRows (ram : Ram) (dramSize : BitVec 64) (uninit : Nat → BitVec 64) : Nat → Nat → BitVec 64 → List Row
  | _, 0, _ => []
  | i, k+1, fPos =>
    let read := devRead ram dramSize fPos 8 8
    ⟨i, value (overlay (bytes 8 (uninit i).toNat) read.delivered)⟩ ::
      readRows ram dramSize uninit (i+1) k read.pos

/-- The descriptors printed; `fd` is the result of `open`. The result of `lseek` is not looked at. -/
def showgdt (ram : Ram) (dramSize : BitVec 64) (uninit : Nat → BitVec 64) (fd : Int)
    (gdtVirtAddress : BitVec 64) (limit : BitVec 16) : List Row :=
  if fd < 0 then []
  else readRows ram dramSize uninit 0 (nElts limit) (devLseek dramSize 0 (gdtPhysAddress gdtVirtAddress) 0).2

def Row.text (row : Row) : List UInt8 :=
  (if row.index % 4 = 0 then ascii ['\n', ' '] ++ pad '0' 4 (upperHex (row.index * 8)) ++ ascii [':', ' '] else []) ++
    pad '0' 16 (upperHex row.descriptor) ++ ascii [' ']

def showgdtMain (ram : Ram) (dramSize : BitVec 64) (uninit : Nat → BitVec 64) (fd : Int)
    (gdtVirtAddress : BitVec 64) (limit : BitVec 16) : Int × List UInt8 :=
  let head := ascii "\n               gdt_virt_address=".toList ++ pad '0' 8 (upperHex gdtVirtAddress.toNat) ++
    ascii " gdt_phys_address=".toList ++ pad '0' 8 (upperHex (gdtPhysAddress gdtVirtAddress).toNat) ++
    ascii [' ', '\n']
  if fd < 0 then (-1, head)
  else (0, head ++ (showgdt ram dramSize uninit fd gdtVirtAddress limit).flatMap Row.text ++ ascii ['\n', '\n'])

/-- The device accepts the address of the row, delivers the 8 bytes of memory found there, and they
are what is printed. -/
def Row.Served (ram : Ram) (dramSize gdtPhys : BitVec 64) (row : Row) : Prop :=
  let address := gdtPhys + BitVec.ofNat 64 (8 * row.index)
  let read := devRead ram dramSize address 8 8
  0 ≤ (devLseek dramSize 0 address 0).1 ∧ read.ret = 8 ∧
    read.delivered = bytesFrom ram (gdtPhys.toNat + 8 * row.index : Nat) 8 ∧ row.descriptor = value read.delivered

def PrintsMemory (dramSize : BitVec 64) (fd : Int) (gdtVirtAddress : BitVec 64) (limit : BitVec 16) : Prop :=
  ∀ ram uninit, ∀ row ∈ showgdt ram dramSize uninit fd gdtVirtAddress limit,
    row.Served ram dramSize (gdtPhysAddress gdtVirtAddress)

def mappedAddress (pos : BitVec 64) : Int := (pageNumber pos).toInt * 4096 + (pageIndent pos).toInt

theorem nElts_le (limit : BitVec 16) : nElts limit ≤ 8192 := by
  have hlimit := limit.isLt
  unfold nElts
  omega

theorem mappedAddress_lt (pos : BitVec 64) : mappedAddress pos < 2^43 := by
  have hnumber := BitVec.toInt_lt (x := pageNumber pos)
  have hindent := pageIndent_toNat pos
  have hint : (pageIndent pos).toInt = (pageIndent pos).toNat := BitVec.toInt_eq_toNat_of_lt (by omega)
  unfold mappedAddress
  omega

/-- A word read inside the memory comes from the frame mapped, and the position moves on by 8. -/
theorem devRead_word (ram : Ram) {size pos : BitVec 64} (hpos : pos.toNat % 8 = 0) (hlt : pos.toNat < size.toNat) :
    devRead ram size pos 8 8 = ⟨8, pos + 8, some (mappedAddress pos, 8), bytesFrom ram (mappedAddress pos) 8⟩ := by
  have hcount : clampCount pos 8 = 8 := by
    apply BitVec.eq_of_toNat_eq
    rw [clampCount_toNat pos (by decide)]
    have height : (8 : BitVec 64).toNat = 8 := rfl
    omega
  have hin : ¬size ≤ pos := by
    rw [BitVec.le_def]
    omega
  have hall : (bytesFrom ram (mappedAddress pos) 8).take 8 = bytesFrom ram (mappedAddress pos) 8 :=
    List.take_of_length_le (bytesFrom_length _ _ _).le
  rw [devRead, if_neg hin, hcount]
  exact congrArg (Read.mk 8 (pos + 8) (some (mappedAddress pos, 8))) hall

theorem devRead_at_end (ram : Ram) {size pos count : BitVec 64} (accepts : Nat) (h : size.toNat ≤ pos.toNat) :
    devRead ram size pos count accepts = ⟨0, pos, none, []⟩ := if_pos (BitVec.le_def.mpr h)

theorem devLseek_set (size address : BitVec 64) : devLseek size 0 address 0 =
    if address.toInt < 0 ∨ size < address then (-einval, 0) else (address.toInt, address) := rfl

theorem devLseek_accepts_iff {size address : BitVec 64} :
    0 ≤ (devLseek size 0 address 0).1 ↔ address.toNat < 2^63 ∧ address.toNat ≤ size.toNat := by
  have hcond := BitVec.toInt_eq_toNat_cond address
  have hlt := address.isLt
  rw [devLseek_set]
  split
  · rename_i hrefused
    rw [BitVec.lt_def] at hrefused
    refine iff_of_false (by decide) ?_
    split at hcond <;> omega
  · rename_i haccepted
    rw [BitVec.lt_def] at haccepted
    refine iff_of_true (by omega) ?_
    split at hcond <;> omega

theorem devLseek_set_pos {size address : BitVec 64} (h : 0 ≤ (devLseek size 0 address 0).1) :
    (devLseek size 0 address 0).2 = address := by
  rw [devLseek_set] at h ⊢
  split
  · rename_i hrefused
    rw [if_pos hrefused] at h
    exact absurd h (by decide)
  · rfl

section Rows

variable (ram : Ram) {size pos : BitVec 64} (uninit : Nat → BitVec 64)

/-- Inside the memory every row is the word of its own position. -/
theorem readRows_eq {k : Nat} (hpos : pos.toNat % 8 = 0) (hle : pos.toNat + 8 * k ≤ size.toNat) (i : Nat) :
    readRows ram size uninit i k pos = (List.range k).map fun j =>
      ⟨i + j, value (bytesFrom ram (mappedAddress (pos + BitVec.ofNat 64 (8 * j))) 8)⟩ := by
  induction k generalizing i pos with
  | zero => rfl
  | succ k ih =>
    have hnext : (pos + 8).toNat = pos.toNat + 8 := by
      have height : (8 : BitVec 64).toNat = 8 := rfl
      have hsize := size.isLt
      rw [BitVec.toNat_add]
      omega
    have hwhole : ∀ old, overlay (bytes 8 old) (bytesFrom ram (mappedAddress pos) 8) =
        bytesFrom ram (mappedAddress pos) 8 := by
      intro old
      rw [overlay, bytesFrom_length, List.drop_eq_nil_of_le (bytes_length 8 old).le, List.append_nil]
    have hrest := ih (show (pos + 8).toNat % 8 = 0 by omega) (by omega) (i + 1)
    rw [readRows, devRead_word ram hpos (by omega), hwhole, hrest, List.range_succ_eq_map, List.map_cons,
      List.map_map]
    refine List.cons_eq_cons.mpr ⟨?_, List.map_congr_left fun j _ => ?_⟩
    · simp
    · have hindex : i + 1 + j = i + (j + 1) := by omega
      have haddress : pos + 8 + BitVec.ofNat 64 (8 * j) = pos + BitVec.ofNat 64 (8 * (j + 1)) := by
        rw [BitVec.add_assoc, Nat.mul_succ, Nat.add_comm (8 * j), BitVec.ofNat_add]
        rfl
      rw [hindex, haddress]
      rfl

theorem exists_row {k j : Nat} (hj : j < k) (i : Nat) :
    ∃ row ∈ readRows ram size uninit i k pos, row.index = i + j := by
  induction k generalizing i j pos with
  | zero => exact absurd hj (Nat.not_lt_zero j)
  | succ k ih =>
    cases j with
    | zero => exact ⟨_, List.mem_cons_self, rfl⟩
    | succ j =>
      obtain ⟨row, hrow, hindex⟩ := ih (Nat.lt_of_succ_lt_succ hj) (i + 1)
      exact ⟨row, List.mem_cons_of_mem _ hrow, by omega⟩

end Rows

/-- A frame that gives the right bytes for every memory is the right one. -/
theorem eq_of_bytesFrom_eq {a b : Int} (h : ∀ ram : Ram, bytesFrom ram a 8 = bytesFrom ram b 8) : a = b := by
  have hfirst := congrArg List.head? (h fun x => if x = b then 1 else 0)
  by_contra hne
  simp [bytesFrom, List.range_succ_eq_map, hne] at hfirst

/-- The address of a row, while the table ends below `2^64`. -/
theorem rowAddress_toNat {phys : BitVec 64} {j : Nat} (h : phys.toNat + 8 * j < 2^64) :
    (phys + BitVec.ofNat 64 (8 * j)).toNat = phys.toNat + 8 * j := by
  rw [BitVec.toNat_add, BitVec.toNat_ofNat]
  omega

section Session

variable {size virt : BitVec 64} {fd : Int} {limit : BitVec 16}

theorem printsMemory_of_le (hphys : (gdtPhysAddress virt).toNat % 8 = 0)
    (hle : (gdtPhysAddress virt).toNat + 8 * nElts limit ≤ min size.toNat (2^43)) :
    PrintsMemory size fd virt limit := by
  intro ram uninit row hrow
  unfold showgdt at hrow
  split at hrow
  · exact absurd hrow List.not_mem_nil
  generalize gdtPhysAddress virt = phys at hphys hle hrow ⊢
  have haccepts : 0 ≤ (devLseek size 0 phys 0).1 := devLseek_accepts_iff.mpr (by omega)
  rw [devLseek_set_pos haccepts, readRows_eq ram uninit hphys (by omega)] at hrow
  obtain ⟨j, hj, rfl⟩ := List.mem_map.mp hrow
  have hj := List.mem_range.mp hj
  have haddress := rowAddress_toNat (show phys.toNat + 8 * j < 2^64 by omega)
  have hmapped : mappedAddress (phys + BitVec.ofNat 64 (8 * j)) = (phys.toNat + 8 * j : Nat) := by
    rw [mappedAddress, start_eq (by omega), haddress]
  simp only [Row.Served, Nat.zero_add]
  rw [devRead_word ram (by omega) (by omega), hmapped]
  exact ⟨devLseek_accepts_iff.mpr (by omega), rfl, rfl, rfl⟩

theorem le_of_printsMemory (hphys : (gdtPhysAddress virt).toNat % 8 = 0) (hsize : size.toNat % 4096 = 0)
    (hfd : ¬fd < 0) (hn : nElts limit ≠ 0) (h : PrintsMemory size fd virt limit) :
    (gdtPhysAddress virt).toNat + 8 * nElts limit ≤ min size.toNat (2^43) := by
  have hn' := nElts_le limit
  simp only [PrintsMemory, showgdt, if_neg hfd] at h
  generalize gdtPhysAddress virt = phys at hphys h ⊢
  have hserved : ∀ j < nElts limit, ∀ ram : Ram,
      0 ≤ (devLseek size 0 (phys + BitVec.ofNat 64 (8 * j)) 0).1 ∧
        (devRead ram size (phys + BitVec.ofNat 64 (8 * j)) 8 8).ret = 8 ∧
        (devRead ram size (phys + BitVec.ofNat 64 (8 * j)) 8 8).delivered =
          bytesFrom ram (phys.toNat + 8 * j : Nat) 8 := by
    intro j hj ram
    obtain ⟨row, hrow, hindex⟩ := exists_row ram (fun _ => 0) hj 0
    obtain ⟨haccepts, hret, hdelivered, _⟩ := h ram (fun _ => 0) row hrow
    rw [hindex, Nat.zero_add] at haccepts hret hdelivered
    exact ⟨haccepts, hret, hdelivered⟩
  have hfirst := devLseek_accepts_iff.mp (hserved 0 (by omega) fun _ => 0).1
  rw [Nat.mul_zero, BitVec.add_zero] at hfirst
  have hlast := hserved (nElts limit - 1) (by omega)
  have haddress := rowAddress_toNat (show phys.toNat + 8 * (nElts limit - 1) < 2^64 by omega)
  generalize hrow : phys + BitVec.ofNat 64 (8 * (nElts limit - 1)) = address at hlast haddress
  have hlt : address.toNat < size.toNat := by
    by_contra hend
    have hret := (hlast fun _ => 0).2.1
    rw [devRead_at_end _ _ (Nat.not_lt.mp hend)] at hret
    cases hret
  have hmapped : mappedAddress address = (phys.toNat + 8 * (nElts limit - 1) : Nat) := by
    apply eq_of_bytesFrom_eq
    intro ram
    have hdelivered := (hlast ram).2.2
    rwa [devRead_word ram (by omega) hlt] at hdelivered
  have hbelow := mappedAddress_lt address
  omega

/-- The program prints what is in memory exactly if it prints nothing or the whole table lies in
the memory, below the last page frame an `int` can number. -/
theorem printsMemory_iff (hphys : (gdtPhysAddress virt).toNat % 8 = 0) (hsize : size.toNat % 4096 = 0) :
    PrintsMemory size fd virt limit ↔ fd < 0 ∨ nElts limit = 0 ∨
      (gdtPhysAddress virt).toNat + 8 * nElts limit ≤ min size.toNat (2^43) := by
  constructor
  · intro h
    by_cases hfd : fd < 0
    · exact .inl hfd
    by_cases hn : nElts limit = 0
    · exact .inr (.inl hn)
    exact .inr (.inr (le_of_printsMemory hphys hsize hfd hn h))
  · rintro (hfd | hn | hle)
    · intro ram uninit row hrow
      rw [showgdt, if_pos hfd] at hrow
      exact absurd hrow List.not_mem_nil
    · intro ram uninit row hrow
      rw [showgdt, hn] at hrow
      split at hrow <;> exact absurd hrow List.not_mem_nil
    · exact printsMemory_of_le hphys hle

end Session

/-- A table of 16 descriptors at the start of the second of 4 pages. -/
theorem printsMemory_second_page : PrintsMemory 0x4000 3 0xffffffff80001000 0x7f :=
  (printsMemory_iff (by decide) (by decide)).mpr (.inr (.inr (by decide)))

/-- The seek to a table behind the memory is refused, and a descriptor is printed all the same. -/
theorem showgdt_prints_refused_address :
    ¬∀ (size virt : BitVec 64) (fd : Int) (limit : BitVec 16), (gdtPhysAddress virt).toNat % 8 = 0 →
      size.toNat % 4096 = 0 → PrintsMemory size fd virt limit := by
  intro h
  have hrow := h 0x1000 0xffffffff80002000 3 7 (by decide) (by decide) (fun _ => 0) (fun _ => 0) ⟨0, 0⟩ (by decide)
  exact absurd hrow.1 (by decide)

end LinuxDrivers.Dram
