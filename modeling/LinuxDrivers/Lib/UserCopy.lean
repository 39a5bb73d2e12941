import Mathlib.Data.List.Basic

/-! Copies between the kernel and a user buffer. -/
namespace UserCopy

abbrev efault : Int := 14

/-- `copy_to_user` to a buffer that takes `accepts` bytes before it faults: how many bytes were
not copied, and the ones that were. -/
def copyToUser {α : Type*} (bytes : List α) (accepts : Nat) : Nat × List α :=
  (bytes.length - accepts, bytes.take accepts)

/-- `copy_from_user` from a buffer that can be read for `readable` bytes before it faults: how many
bytes were not copied, and what is stored, with zeros in their place. -/
def copyFromUser (bytes : List UInt8) (readable : Nat) : Nat × List UInt8 :=
  (bytes.length - readable, bytes.take readable ++ List.replicate (bytes.length - readable) 0)

theorem efault_neg : ¬0 ≤ -efault := by decide

theorem efault_ne : -efault ≠ 0 := by decide

end UserCopy
