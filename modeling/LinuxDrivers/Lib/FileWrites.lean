import LinuxDrivers.Lib.ByteMemory
import Mathlib.Algebra.Group.Nat.Defs

/-! A caller that writes out a stretch of its memory and submits again what a short write left. -/
namespace FileWrites
open ByteMemory

variable {α : Type*}

structure Reply (α : Type*) where
  ret : Int
  taken : List α
  deriving DecidableEq, Repr

/-- A `write` is given the memory from the buffer on, the count, and how many bytes can be read. -/
abbrev Writer (α : Type*) := Memory α → BitVec 64 → Nat → Reply α

structure Call (α : Type*) where
  base : Nat
  left : BitVec 64
  readable : Nat
  reply : Reply α
  deriving DecidableEq, Repr

def Reply.advance (r : Reply α) : Nat := r.ret.toNat

def submit (write : Writer α) (user : Memory α) (base : Nat) (left : BitVec 64) : List Nat → List (Call α)
  | [] => []
  | readable :: outcomes =>
    if left = 0 then []
    else
      let reply := write (fun i => user (base + i)) left readable
      ⟨base, left, readable, reply⟩ ::
        submit write user (base + reply.advance) (left - BitVec.ofNat 64 reply.advance) outcomes

def received (calls : List (Call α)) : List α := calls.flatMap fun call => call.reply.taken

def rest (base : Nat) (left : BitVec 64) : List (Call α) → Nat × BitVec 64
  | [] => (base, left)
  | call :: calls => rest (base + call.reply.advance) (left - BitVec.ofNat 64 call.reply.advance) calls

/-- Every byte is received once and in order: what was received, followed by what is still to be
submitted, is what the caller set out to write. -/
def OnceInOrder (user : Memory α) (base : Nat) (left : BitVec 64) (calls : List (Call α)) : Prop :=
  received calls ++ read user (rest base left calls).1 (rest base left calls).2.toNat = read user base left.toNat

/-- The result is the number of bytes taken from the front of the buffer, or an error with nothing
taken. -/
def Call.Honest (user : Memory α) (call : Call α) : Prop :=
  call.reply.advance ≤ call.left.toNat ∧ call.reply.taken = read user call.base call.reply.advance

theorem read_shift (m : Memory α) (base n : Nat) : read (fun i => m (base + i)) 0 n = read m base n := by
  simp only [ByteMemory.read, Nat.zero_add]

theorem submit_zero (write : Writer α) (user : Memory α) (base : Nat) (outcomes : List Nat) :
    submit write user base 0 outcomes = [] := by
  cases outcomes <;> rfl

/-- Each call made is one of the writer's, on what was left for it. -/
theorem reply_of_mem {write : Writer α} {user : Memory α} {base : Nat} {left : BitVec 64}
    {outcomes : List Nat} {call : Call α} (h : call ∈ submit write user base left outcomes) :
    call.readable ∈ outcomes ∧ call.reply = write (fun i => user (call.base + i)) call.left call.readable := by
  induction outcomes generalizing base left with
  | nil => cases h
  | cons readable outcomes ih =>
    rw [submit] at h
    split at h
    · cases h
    · rcases List.mem_cons.mp h with rfl | h
      · exact ⟨List.mem_cons_self, rfl⟩
      · obtain ⟨hmem, hreply⟩ := ih h
        exact ⟨List.mem_cons_of_mem _ hmem, hreply⟩

theorem submit_of_advance_eq {write : Writer α} {user : Memory α} {base : Nat} {left : BitVec 64}
    {readable : Nat} (hleft : left ≠ 0)
    (h : (write (fun i => user (base + i)) left readable).advance = left.toNat) (outcomes : List Nat) :
    submit write user base left (readable :: outcomes) =
      [⟨base, left, readable, write (fun i => user (base + i)) left readable⟩] := by
  rw [submit, if_neg hleft]
  dsimp only
  rw [h, BitVec.ofNat_toNat, BitVec.setWidth_eq, BitVec.sub_self]
  exact congrArg (List.cons _) (submit_zero write user _ outcomes)

theorem sub_advance_toNat {left : BitVec 64} {n : Nat} (h : n ≤ left.toNat) :
    (left - BitVec.ofNat 64 n).toNat = left.toNat - n := by
  have hlt := left.isLt
  rw [BitVec.toNat_sub, BitVec.toNat_ofNat]
  omega

/-- Honest calls receive every byte once and in order. -/
theorem onceInOrder_of_honest {user : Memory α} {calls : List (Call α)} {base : Nat} {left : BitVec 64}
    {write : Writer α} {outcomes : List Nat} (hcalls : submit write user base left outcomes = calls)
    (h : ∀ call ∈ calls, call.Honest user) : OnceInOrder user base left calls := by
  induction outcomes generalizing base left calls with
  | nil =>
    subst hcalls
    rfl
  | cons readable outcomes ih =>
    rw [submit] at hcalls
    split at hcalls
    · subst hcalls
      rfl
    · subst hcalls
      obtain ⟨⟨hle, htaken⟩, hrest⟩ := List.forall_mem_cons.mp h
      have htail := ih rfl hrest
      rw [OnceInOrder, sub_advance_toNat hle] at htail
      rw [OnceInOrder, rest, received, List.flatMap_cons, List.append_assoc, htaken]
      calc
        _ = read user base _ ++ read user (base + _) _ := congrArg (read user base _ ++ ·) htail
        _ = read user base left.toNat := by rw [← read_add, Nat.add_sub_cancel' hle]

/-- Honest calls that each take a piece, or all that is left, get everything across in as many calls as there are
pieces. -/
theorem received_of_pieces {write : Writer α} {user : Memory α} {piece : Nat} {outcomes : List Nat} {base : Nat}
    {left : BitVec 64}
    (h : ∀ call ∈ submit write user base left outcomes,
      call.Honest user ∧ min piece call.left.toNat ≤ call.reply.advance)
    (hlen : left.toNat ≤ outcomes.length * piece) :
    received (submit write user base left outcomes) = read user base left.toNat := by
  induction outcomes generalizing base left with
  | nil =>
    have hzero : left.toNat = 0 := by simpa using hlen
    rw [hzero]
    rfl
  | cons readable outcomes ih =>
    by_cases hleft : left = 0
    · subst hleft
      rw [submit_zero]
      rfl
    · rw [submit, if_neg hleft] at h ⊢
      obtain ⟨⟨⟨hle, htaken⟩, hpiece⟩, hrest⟩ := List.forall_mem_cons.mp h
      dsimp only at hle htaken hpiece
      rw [List.length_cons, Nat.succ_mul] at hlen
      have htail := ih hrest (by rw [sub_advance_toNat hle]; omega)
      rw [sub_advance_toNat hle] at htail
      rw [received, List.flatMap_cons]
      calc
        _ = read user base _ ++ read user (base + _) _ := congr (congrArg (· ++ ·) htaken) htail
        _ = read user base left.toNat := by rw [← read_add, Nat.add_sub_cancel' hle]

end FileWrites
