import Mathlib.Data.List.TakeWhile
import LinuxDrivers.Lib.ByteMemory

/-! Strings of C: bytes up to the first NUL, and the decimal numbers `printf` writes. -/
namespace CString
open ByteMemory

/-- The string at the front of some bytes. Without a NUL among them there is none. -/
def cString (bytes : List UInt8) : Option (List UInt8) :=
  if 0 ∈ bytes then some (bytes.takeWhile (· ≠ 0)) else none

/-- `strlen`, for a string that ends within `n` bytes. -/
def strlen (m : Memory UInt8) (base n : Nat) : Nat := ((read m base n).takeWhile (· ≠ 0)).length

/-- A string stored with its NUL at the start of an object of `size` bytes; there is no result
when it does not fit. -/
def storeString (size : Nat) (m : Memory UInt8) (s : List UInt8) : Option (Memory UInt8) :=
  if s.length + 1 ≤ size then some (write m 0 (s ++ [0])) else none

def ascii (text : List Char) : List UInt8 := text.map fun c => UInt8.ofNat c.toNat

def decimal (n : Nat) : List UInt8 := ascii (Nat.toDigits 10 n)

theorem zero_notMem_of_cString {bytes s : List UInt8} (h : cString bytes = some s) : 0 ∉ s := by
  rw [cString] at h
  split at h
  · obtain rfl := Option.some.inj h
    intro hm
    simpa using List.mem_takeWhile_imp hm
  · cases h

/-- A string ends at the first NUL, whatever comes behind it. -/
theorem cString_append {s : List UInt8} (h : 0 ∉ s) (rest : List UInt8) : cString (s ++ 0 :: rest) = some s := by
  have hpos : ∀ b ∈ s, decide (b ≠ 0) = true := by
    intro b hb
    exact decide_eq_true fun hz => h (hz ▸ hb)
  rw [cString, if_pos (by simp), List.takeWhile_append_of_pos hpos]
  simp

theorem zero_notMem_decimal (n : Nat) : 0 ∉ decimal n := by
  intro h
  obtain ⟨c, hc, hz⟩ := List.mem_map.mp h
  have hdigit := Nat.isDigit_of_mem_toDigits (by decide) (by decide) hc
  simp only [Char.isDigit, Bool.and_eq_true, decide_eq_true_eq] at hdigit
  have hlow : 48 ≤ c.toNat := hdigit.1
  have hhigh : c.toNat ≤ 57 := hdigit.2
  have hval : c.toNat % 256 = 0 := congrArg UInt8.toNat hz
  omega

theorem strlen_write (m : Memory UInt8) {s : List UInt8} {n : Nat} (h : 0 ∉ s) (hn : s.length + 1 ≤ n) :
    strlen (write m 0 (s ++ [0])) 0 n = s.length := by
  have hpos : ∀ b ∈ s, decide (b ≠ 0) = true := by
    intro b hb
    exact decide_eq_true (fun hz => h (hz ▸ hb))
  have hlen : (s ++ [0]).length = s.length + 1 := List.length_append
  obtain ⟨k, rfl⟩ := Nat.exists_eq_add_of_le hn
  have hread := read_write_self m 0 (s ++ [0])
  rw [hlen] at hread
  rw [strlen, read_add, hread, List.append_assoc, List.takeWhile_append_of_pos hpos]
  simp

theorem read_storeString {size : Nat} {m m' : Memory UInt8} {s : List UInt8}
    (h : storeString size m s = some m') : read m' 0 s.length = s := by
  rw [storeString] at h
  split at h
  · obtain rfl := Option.some.inj h
    have hread := read_write_self m 0 (s ++ [0])
    rw [List.length_append, read_add] at hread
    exact (List.append_inj hread (read_length _ _ _)).1
  · cases h

end CString
