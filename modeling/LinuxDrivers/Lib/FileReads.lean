import Mathlib.Algebra.Group.Nat.Defs
import LinuxDrivers.Lib.UserCopy

/-! The reads of one open file, which share its offset. -/
namespace FileReads
open UserCopy

structure Ask where
  count : BitVec 64
  accepts : Nat
  deriving DecidableEq, Repr

structure Reply (α : Type*) where
  ret : Int
  offset : Int
  delivered : List α
  deriving DecidableEq, Repr

structure Call (α : Type*) where
  ask : Ask
  reply : Reply α
  deriving DecidableEq, Repr

abbrev einval : Int := 22

variable {α : Type*}

def serve (read : Int → Ask → Reply α) (offset : Int) : List Ask → List (Call α)
  | [] => []
  | ask :: asks => ⟨ask, read offset ask⟩ :: serve read (read offset ask).offset asks

/-- `simple_read_from_buffer(to, count, ppos, from, available)` of the kernel. -/
def simpleReadFromBuffer (text : List α) (offset : Int) (ask : Ask) : Reply α :=
  if offset < 0 then ⟨-einval, offset, []⟩
  else if text.length ≤ offset ∨ ask.count = 0 then ⟨0, offset, []⟩
  else
    let count := min ask.count.toNat (text.length - offset.toNat)
    let (uncopied, delivered) := copyToUser ((text.drop offset.toNat).take count) ask.accepts
    if uncopied = count then ⟨-efault, offset, delivered⟩
    else ⟨(count - uncopied : Nat), offset + (count - uncopied : Nat), delivered⟩

/-- The user buffer takes what there is to copy of `size` bytes. -/
def Ask.Succeeds (size : Nat) (ask : Ask) : Prop := min ask.count.toNat size ≤ ask.accepts

instance (size : Nat) (ask : Ask) : Decidable (ask.Succeeds size) := Nat.decLe _ _

theorem Ask.count_pos (ask : Ask) (h : ask.count ≠ 0) : 0 < ask.count.toNat :=
  Nat.pos_of_ne_zero (fun hz => h (BitVec.eq_of_toNat_eq hz))

def asked : List (Call α) → Nat
  | [] => 0
  | call :: calls => call.ask.count.toNat + asked calls

def delivered (calls : List (Call α)) : List α := calls.flatMap fun call => call.reply.delivered

/-- The calls deliver the first bytes of the text, as many as were asked for, and one that asks for
a byte returns 0 only behind the last of them. -/
structure Delivers (text : List α) (calls : List (Call α)) : Prop where
  bytes : delivered calls = text.take (asked calls)
  ends : ∀ before call after, calls = before ++ call :: after →
    call.ask.count ≠ 0 → call.reply.ret = 0 → delivered before = text

@[simp] theorem asked_cons (call : Call α) (calls : List (Call α)) :
    asked (call :: calls) = call.ask.count.toNat + asked calls := rfl

theorem asked_eq_zero {calls : List (Call α)} (h : asked calls = 0) : ∀ call ∈ calls, call.ask.count = 0 := by
  induction calls with
  | nil => exact fun call hcall => absurd hcall List.not_mem_nil
  | cons first calls ih =>
    obtain ⟨hfirst, hcalls⟩ := Nat.add_eq_zero_iff.mp h
    exact List.forall_mem_cons.mpr ⟨BitVec.eq_of_toNat_eq hfirst, ih hcalls⟩

@[simp] theorem delivered_cons (call : Call α) (calls : List (Call α)) :
    delivered (call :: calls) = call.reply.delivered ++ delivered calls := rfl

/-- Where no call has anything to give, the offset stays. -/
theorem serve_still {read : Int → Ask → Reply α} {offset : Int} {asks : List Ask}
    (h : ∀ ask ∈ asks, read offset ask = ⟨0, offset, []⟩) :
    serve read offset asks = asks.map fun ask => ⟨ask, 0, offset, []⟩ := by
  induction asks with
  | nil => rfl
  | cons ask asks ih =>
    obtain ⟨hask, hasks⟩ := List.forall_mem_cons.mp h
    rw [serve, hask, ih hasks, List.map_cons]

/-- A call that delivers nothing and asks for nothing can be left out. -/
theorem Delivers.of_cons_empty {text : List α} {call : Call α} {calls : List (Call α)}
    (h : Delivers text (call :: calls)) (hcount : call.ask.count = 0) (hnone : call.reply.delivered = []) :
    Delivers text calls := by
  constructor
  · have hbytes := h.bytes
    rw [delivered_cons, asked_cons, hcount, hnone, List.nil_append] at hbytes
    rw [hbytes]
    exact congrArg text.take (Nat.zero_add _)
  · intro before c after hcalls hasks hret
    have hends := h.ends (call :: before) c after (congrArg (call :: ·) hcalls) hasks hret
    rwa [delivered_cons, hnone, List.nil_append] at hends

section Simple

variable {text : List α} {p : Nat}

/-- A successful call delivers what was asked for, or else all that is left. -/
theorem simpleReadFromBuffer_eq {ask : Ask} (h : ask.Succeeds text.length) :
    simpleReadFromBuffer text p ask =
      ⟨(min ask.count.toNat (text.length - p) : Nat), (p + min ask.count.toNat (text.length - p) : Nat),
        (text.drop p).take ask.count.toNat⟩ := by
  have hoff : ¬(p : Int) < 0 := by omega
  rw [simpleReadFromBuffer, if_neg hoff]
  by_cases hend : (text.length : Int) ≤ p ∨ ask.count = 0
  · have hnone : min ask.count.toNat (text.length - p) = 0 := by
      rcases hend with hend | hzero
      · omega
      · rw [hzero]
        exact Nat.zero_min _
    have hrest : (text.drop p).take ask.count.toNat = [] := by
      rw [← List.length_eq_zero_iff, List.length_take, List.length_drop, hnone]
    rw [if_pos hend, hnone, hrest]
    rfl
  · obtain ⟨hlt, hcount⟩ := not_or.mp hend
    have hpos : 0 < ask.count.toNat := ask.count_pos hcount
    have hchunk : (text.drop p).take (min ask.count.toNat (text.length - p)) = (text.drop p).take ask.count.toNat := by
      rw [← List.length_drop, ← List.take_eq_take_min]
    have hlen : ((text.drop p).take ask.count.toNat).length = min ask.count.toNat (text.length - p) := by
      rw [List.length_take, List.length_drop]
    have hall : min ask.count.toNat (text.length - p) ≤ ask.accepts := by
      rw [Ask.Succeeds] at h
      omega
    rw [if_neg hend]
    simp only [Int.toNat_natCast, copyToUser, hchunk, hlen, Nat.sub_eq_zero_of_le hall, Nat.sub_zero]
    rw [if_neg (by omega), List.take_of_length_le (hlen ▸ hall)]
    rfl

/-- From its offset on, `simple_read_from_buffer` delivers the rest of the text. -/
theorem simpleReadFromBuffer_delivers {asks : List Ask} (h : ∀ ask ∈ asks, ask.Succeeds text.length) :
    Delivers (text.drop p) (serve (simpleReadFromBuffer text) p asks) := by
  induction asks generalizing p with
  | nil =>
    refine ⟨(List.take_zero).symm, fun before call after hcalls => ?_⟩
    exact absurd hcalls (by simp [serve])
  | cons ask asks ih =>
    obtain ⟨hask, hasks⟩ := List.forall_mem_cons.mp h
    have hreply := simpleReadFromBuffer_eq (p := p) hask
    obtain ⟨hbytes, hends⟩ := ih (p := p + min ask.count.toNat (text.length - p)) hasks
    rw [serve, hreply]
    have hskip : text.drop (p + min ask.count.toNat (text.length - p)) = (text.drop p).drop ask.count.toNat := by
      rw [List.drop_drop, List.drop_eq_drop_iff]
      omega
    rw [hskip] at hbytes hends
    constructor
    · rw [delivered_cons, asked_cons, hbytes, List.take_add]
    · intro before call after hcalls hcount hret
      cases before with
      | nil =>
        obtain ⟨rfl, _⟩ := List.cons.inj hcalls
        have hpos : 0 < ask.count.toNat := ask.count_pos hcount
        refine (List.drop_eq_nil_of_le ?_).symm
        dsimp only at hret
        omega
      | cons first before =>
        obtain ⟨rfl, hrest⟩ := List.cons.inj hcalls
        rw [delivered_cons, hends before call after hrest hcount hret]
        exact List.take_append_drop _ _

end Simple

end FileReads
