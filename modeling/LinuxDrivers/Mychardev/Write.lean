import LinuxDrivers.Lib.FileWrites
import LinuxDrivers.Lib.UserCopy

/-! `mychardev_write`, and a caller that submits again what it was told is left. -/
namespace LinuxDrivers.Mychardev
open ByteMemory UserCopy FileWrites

structure Store where
  index : Nat
  byte : UInt8
  deriving DecidableEq, Repr

/-- What a call does: its result, its stores in turn, and the bytes it copied from the user. -/
structure Written where
  ret : Int
  stores : List Store
  taken : List UInt8
  deriving DecidableEq, Repr

def maxdatalen (count : BitVec 64) : Nat := if count.toNat < 30 then count.toNat else 30

def mychardevWrite (buf : Memory UInt8) (count : BitVec 64) (readable : Nat) : Written :=
  let (ncopied, copied) := copyFromUser (read buf 0 (maxdatalen count)) readable
  { ret := count.toInt
    stores := copied.zipIdx.map (fun stored => ⟨stored.2, stored.1⟩) ++ [⟨maxdatalen count, 0⟩]
    taken := copied.take (maxdatalen count - ncopied) }

/-- The stores stay in the 30 bytes of `databuf`, and the result is the number of bytes copied, or an
error when there is none. -/
structure Written.Ok (w : Written) : Prop where
  inside : ∀ store ∈ w.stores, store.index < 30
  reported : w.ret = w.taken.length ∨ w.taken = [] ∧ w.ret < 0

def writer : Writer UInt8 := fun buf count readable =>
  ⟨(mychardevWrite buf count readable).ret, (mychardevWrite buf count readable).taken⟩

/-- Every call is in order, and a caller that submits again what is left has each byte received once
and in order. -/
def TakesAll (user : Memory UInt8) (count : BitVec 64) (outcomes : List Nat) : Prop :=
  (∀ call ∈ submit writer user 0 count outcomes,
    (mychardevWrite (fun i => user (call.base + i)) call.left call.readable).Ok) ∧
  OnceInOrder user 0 count (submit writer user 0 count outcomes)

def Fits (count : BitVec 64) (readable : Nat) : Prop := count.toNat < 30 ∧ count.toNat ≤ readable

theorem maxdatalen_eq (count : BitVec 64) : maxdatalen count = min count.toNat 30 := by
  unfold maxdatalen
  split <;> omega

section Call

variable {buf : Memory UInt8} {count : BitVec 64} {readable : Nat}

theorem mychardevWrite_taken :
    (mychardevWrite buf count readable).taken = (read buf 0 (maxdatalen count)).take readable := by
  have hlen : ((read buf 0 (maxdatalen count)).take readable).length =
      maxdatalen count - (maxdatalen count - readable) := by
    rw [List.length_take, read_length]
    omega
  simp only [mychardevWrite, copyFromUser, read_length]
  rw [← hlen, List.take_left]

theorem index_le {store : Store} (h : store ∈ (mychardevWrite buf count readable).stores) :
    store.index ≤ maxdatalen count := by
  simp only [mychardevWrite, copyFromUser, read_length, List.mem_append, List.mem_map, List.mem_singleton] at h
  rcases h with ⟨stored, hstored, rfl⟩ | rfl
  · have hlt := List.snd_lt_of_mem_zipIdx hstored
    rw [List.length_append, List.length_take, read_length, List.length_replicate] at hlt
    dsimp only
    omega
  · exact Nat.le_refl _

theorem terminator_mem : ⟨maxdatalen count, 0⟩ ∈ (mychardevWrite buf count readable).stores :=
  List.mem_append_right _ List.mem_cons_self

theorem mychardevWrite_of_fits (buf : Memory UInt8) (h : Fits count readable) :
    (mychardevWrite buf count readable).ret = count.toNat ∧
      (mychardevWrite buf count readable).taken = read buf 0 count.toNat := by
  obtain ⟨hsmall, hreadable⟩ := h
  have hmax : maxdatalen count = count.toNat := if_pos hsmall
  constructor
  · exact BitVec.toInt_eq_toNat_of_lt (by omega)
  · rw [mychardevWrite_taken, hmax]
    exact List.take_of_length_le (by rwa [read_length])

/-- The terminating zero leaves the buffer from 30 bytes on, and below that the result is right only
if nothing was left uncopied. -/
theorem mychardevWrite_ok_iff : (mychardevWrite buf count readable).Ok ↔ Fits count readable := by
  constructor
  · intro hok
    have hindex : maxdatalen count < 30 := hok.inside _ terminator_mem
    have hsmall : count.toNat < 30 := by
      rw [maxdatalen_eq] at hindex
      omega
    have hmax : maxdatalen count = count.toNat := if_pos hsmall
    have hret : (mychardevWrite buf count readable).ret = count.toNat :=
      BitVec.toInt_eq_toNat_of_lt (by omega)
    have hlen : (mychardevWrite buf count readable).taken.length = min readable count.toNat := by
      rw [mychardevWrite_taken, List.length_take, read_length, hmax]
    have hreported := hok.reported
    rw [hret, hlen] at hreported
    exact ⟨hsmall, by omega⟩
  · intro hfits
    obtain ⟨hret, htaken⟩ := mychardevWrite_of_fits buf hfits
    constructor
    · intro store hstore
      have hle := index_le hstore
      have hsmall := hfits.1
      rw [maxdatalen_eq] at hle
      omega
    · left
      rw [hret, htaken, read_length]

end Call

/-- A caller gets all of a text across exactly if the first call fits, which then is the only one. -/
theorem takesAll_iff (user : Memory UInt8) (count : BitVec 64) (outcomes : List Nat) :
    TakesAll user count outcomes ↔ count = 0 ∨ ∀ readable ∈ outcomes.head?, Fits count readable := by
  by_cases hcount : count = 0
  · subst hcount
    refine iff_of_true ?_ (.inl rfl)
    rw [TakesAll, submit_zero]
    exact ⟨fun call hcall => absurd hcall List.not_mem_nil, rfl⟩
  rw [or_iff_right hcount]
  cases outcomes with
  | nil => exact iff_of_true ⟨fun call hcall => absurd hcall List.not_mem_nil, rfl⟩ (by simp)
  | cons readable outcomes =>
    have hhead : (∀ first ∈ (readable :: outcomes).head?, Fits count first) ↔ Fits count readable := by simp
    rw [hhead]
    constructor
    · rintro ⟨hok, -⟩
      rw [submit, if_neg hcount] at hok
      exact mychardevWrite_ok_iff.mp (hok _ List.mem_cons_self)
    · intro hfits
      obtain ⟨hret, htaken⟩ := mychardevWrite_of_fits (fun i => user (0 + i)) hfits
      have hadvance : (writer (fun i => user (0 + i)) count readable).advance = count.toNat :=
        (congrArg Int.toNat hret).trans (Int.toNat_natCast _)
      have hcalls := submit_of_advance_eq hcount hadvance outcomes
      refine ⟨?_, onceInOrder_of_honest rfl ?_⟩
      · rw [hcalls]
        exact List.forall_mem_singleton.mpr (mychardevWrite_ok_iff.mpr hfits)
      · rw [hcalls, List.forall_mem_singleton, Call.Honest, hadvance]
        exact ⟨Nat.le_refl _, htaken.trans (read_shift user 0 _)⟩

/-- A call stays in its buffer and reports what it took exactly if it fits, and a caller that submits
again what is left has all of its bytes received exactly if its first call fits. -/
theorem write_takes_all_iff (user : Memory UInt8) (count : BitVec 64) (readable : Nat) (outcomes : List Nat) :
    ((mychardevWrite user count readable).Ok ↔ Fits count readable) ∧
      (TakesAll user count outcomes ↔ count = 0 ∨ ∀ first ∈ outcomes.head?, Fits count first) :=
  ⟨mychardevWrite_ok_iff, takesAll_iff user count outcomes⟩

/-- Of 30 bytes all are copied, and the zero behind them is stored at `databuf[30]`. -/
theorem write_leaves_buffer :
    ¬∀ (buf : Memory UInt8) (count : BitVec 64) (readable : Nat), (mychardevWrite buf count readable).Ok := by
  intro h
  have hfits : Fits 30 30 := mychardevWrite_ok_iff.mp (h (fun _ => 65) 30 30)
  exact absurd hfits.1 (by decide)

end LinuxDrivers.Mychardev
