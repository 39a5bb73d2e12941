import Mathlib.Data.Nat.Digits.Defs
import LinuxDrivers.Lib.ByteMemory

/-! Unsigned integers of a fixed width in a byte memory, least significant byte first. -/
namespace LittleEndian
open ByteMemory

def value (bytes : List UInt8) : Nat := Nat.ofDigits 256 (bytes.map UInt8.toNat)

def bytes : Nat → Nat → List UInt8
  | 0, _ => []
  | k+1, n => UInt8.ofNat n :: bytes k (n/256)

def load (m : Memory UInt8) (base k : Nat) : Nat := value (read m base k)

def store (m : Memory UInt8) (base k n : Nat) : Memory UInt8 := write m base (bytes k n)

@[simp] theorem bytes_length (k n : Nat) : (bytes k n).length = k := by
  induction k generalizing n with
  | zero => rfl
  | succ k ih => rw [bytes, List.length_cons, ih]

theorem value_lt (bs : List UInt8) : value bs < 256 ^ bs.length := by
  have h := Nat.ofDigits_lt_base_pow_length (by decide : 1 < 256) (l := bs.map UInt8.toNat) (by
    intro d hd
    obtain ⟨b, _, rfl⟩ := List.mem_map.mp hd
    exact b.toNat_lt)
  rwa [List.length_map] at h

theorem value_bytes (k n : Nat) : value (bytes k n) = n % 256 ^ k := by
  induction k generalizing n with
  | zero => rw [Nat.pow_zero, Nat.mod_one]; rfl
  | succ k ih =>
    have hr := ih (n/256)
    rw [value] at hr
    have hbyte : (UInt8.ofNat n).toNat = n % 256 := UInt8.toNat_ofNat'
    rw [bytes, value, List.map_cons, Nat.ofDigits_cons, hr, hbyte, Nat.pow_succ', Nat.mod_mul]

theorem load_lt (m : Memory UInt8) (base k : Nat) : load m base k < 256 ^ k := by
  have h := value_lt (read m base k)
  rwa [read_length] at h

/-- The low half of a load is the load of its first bytes. -/
theorem load_add_mod (m : Memory UInt8) (base j k : Nat) : load m base (j + k) % 256 ^ j = load m base j := by
  have hlt := load_lt m base j
  have hsplit : load m base (j + k) = load m base j + 256 ^ j * load m (base + j) k := by
    rw [load, load, value, read_add, List.map_append, Nat.ofDigits_append, List.length_map, read_length]
    rfl
  rw [hsplit, Nat.add_mul_mod_self_left, Nat.mod_eq_of_lt hlt]

theorem load_congr {m m' : Memory UInt8} {base k : Nat}
    (h : ∀ o, base ≤ o → o < base + k → m o = m' o) : load m base k = load m' base k := by
  rw [load, load, read_congr h]

theorem load_store (m : Memory UInt8) (base k n : Nat) : load (store m base k n) base k = n % 256 ^ k := by
  have hr := read_write_self m base (bytes k n)
  rw [bytes_length] at hr
  rw [load, store, hr, value_bytes]

theorem store_outside (m : Memory UInt8) {base k n o : Nat} (h : o < base ∨ base + k ≤ o) :
    store m base k n o = m o :=
  write_outside m (by simpa using h)

theorem load_write_disjoint (m : Memory UInt8) {base base' k : Nat} {a : List UInt8}
    (h : base + a.length ≤ base' ∨ base' + k ≤ base) : load (write m base a) base' k = load m base' k :=
  load_congr fun o _ _ => write_outside m (by omega)

theorem load_store_disjoint (m : Memory UInt8) {base base' k k' n : Nat}
    (h : base + k ≤ base' ∨ base' + k' ≤ base) : load (store m base k n) base' k' = load m base' k' :=
  load_write_disjoint m (by simpa using h)

end LittleEndian
