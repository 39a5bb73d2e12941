import LinuxDrivers.Lib.FileWrites
import LinuxDrivers.Lib.Scanf
import LinuxDrivers.Lib.UserCopy

/-! `my_proc_write` of `/proc/smpinfo`, and a caller that submits again what it was told is left. -/
namespace LinuxDrivers.Smpinfo
open ByteMemory Scanf UserCopy FileWrites

/-- What a call does: its result, the places of `strbuf` and of `str` it stores to, the text it prints if it gets
there, and the bytes it keeps of those copied from the user. -/
structure Written where
  ret : Int
  strbuf : List Nat
  str : List Nat
  printed : Option (List UInt8)
  taken : List UInt8
  deriving DecidableEq, Repr

def pieceOf (count : BitVec 64) : Nat := if count.toNat > 4 then 4 else count.toNat

def myProcWrite (buffer : Memory UInt8) (count : BitVec 64) (readable : Nat) : Written :=
  let count := pieceOf count
  let (left, strbuf) := copyFromUser (read buffer 0 count) readable
  if left ≠ 0 then ⟨-efault, List.range count, [], none, []⟩
  else
    -- `str` is empty before and stays so where nothing is converted
    let word := scanWord (strbuf ++ [0])
    { ret := count
      strbuf := List.range count ++ [count]
      str := word.elim [] fun text => List.range (text.length + 1)
      printed := some (word.getD [])
      taken := strbuf }

def procWriter : Writer UInt8 := fun buffer count readable =>
  ⟨(myProcWrite buffer count readable).ret, (myProcWrite buffer count readable).taken⟩

def Written.Inside (w : Written) : Prop := (∀ i ∈ w.strbuf, i < 5) ∧ ∀ i ∈ w.str, i < 5

theorem pieceOf_eq (count : BitVec 64) : pieceOf count = min 4 count.toNat := by
  unfold pieceOf
  split <;> omega

section Call

variable (buffer : Memory UInt8) {count : BitVec 64} {readable : Nat}

theorem myProcWrite_short (h : readable < pieceOf count) :
    myProcWrite buffer count readable = ⟨-efault, List.range (pieceOf count), [], none, []⟩ := by
  simp only [myProcWrite, copyFromUser, read_length]
  exact if_pos (by omega)

theorem myProcWrite_full (h : pieceOf count ≤ readable) :
    myProcWrite buffer count readable =
      let bytes := read buffer 0 (pieceOf count)
      { ret := pieceOf count
        strbuf := List.range (pieceOf count) ++ [pieceOf count]
        str := (scanWord (bytes ++ [0])).elim [] fun text => List.range (text.length + 1)
        printed := some ((scanWord (bytes ++ [0])).getD [])
        taken := bytes } := by
  have hzero : pieceOf count - readable = 0 := Nat.sub_eq_zero_of_le h
  have hall : (read buffer 0 (pieceOf count)).take readable = read buffer 0 (pieceOf count) :=
    List.take_of_length_le (by rwa [read_length])
  simp only [myProcWrite, copyFromUser, read_length, hzero, hall, List.replicate_zero, List.append_nil]
  exact if_neg (not_not.mpr rfl)

theorem myProcWrite_inside : (myProcWrite buffer count readable).Inside := by
  have hpiece : pieceOf count ≤ 4 := pieceOf_eq count ▸ Nat.min_le_left 4 _
  have hrange : ∀ n ≤ 5, ∀ i ∈ List.range n, i < 5 := fun n hn i hi => (List.mem_range.mp hi).trans_le hn
  by_cases h : readable < pieceOf count
  · rw [myProcWrite_short buffer h]
    exact ⟨hrange _ (by omega), fun i hi => absurd hi List.not_mem_nil⟩
  · rw [myProcWrite_full buffer (Nat.le_of_not_lt h)]
    dsimp only [Written.Inside]
    refine ⟨List.forall_mem_append.mpr ⟨hrange _ (by omega), List.forall_mem_singleton.mpr (by omega)⟩, ?_⟩
    cases hword : scanWord (read buffer 0 (pieceOf count) ++ [0]) with
    | none => exact fun i hi => absurd hi List.not_mem_nil
    | some text =>
      have hlen := length_scanWord hword
      rw [read_length] at hlen
      exact hrange (text.length + 1) (by omega)

/-- A call says what it took: nothing if it fails. -/
theorem procWriter_taken : (procWriter buffer count readable).advance ≤ pieceOf count ∧
    (procWriter buffer count readable).taken = read buffer 0 (procWriter buffer count readable).advance := by
  rw [procWriter, Reply.advance]
  by_cases h : readable < pieceOf count
  · rw [myProcWrite_short buffer h]
    exact ⟨Nat.zero_le _, rfl⟩
  · rw [myProcWrite_full buffer (Nat.le_of_not_lt h)]
    exact ⟨Nat.le_refl _, rfl⟩

theorem procWriter_advance (h : 4 ≤ readable) : (procWriter buffer count readable).advance = min 4 count.toNat := by
  have hpiece := pieceOf_eq count
  rw [procWriter, Reply.advance, myProcWrite_full buffer (by omega)]
  exact hpiece

end Call

section Calls

variable {user : Memory UInt8} {base : Nat} {left : BitVec 64} {outcomes : List Nat}

theorem procWriter_honest {call : Call UInt8} (h : call ∈ submit procWriter user base left outcomes) :
    call.Honest user := by
  obtain ⟨hle, htaken⟩ := @procWriter_taken (fun i => user (call.base + i)) call.left call.readable
  rw [← (reply_of_mem h).2] at hle htaken
  rw [pieceOf_eq] at hle
  exact ⟨hle.trans (Nat.min_le_right 4 _), htaken.trans (read_shift user call.base _)⟩

end Calls

/-- Whatever is written to `/proc/smpinfo`, and whichever calls fail: no call stores outside of its two arrays of
five bytes, each byte is taken once and in order, and if the buffer can be read, as many calls as there are pieces
of four bytes take all of it. -/
theorem procWrite_takes_all (user : Memory UInt8) (count : BitVec 64) (outcomes : List Nat) :
    (∀ call ∈ submit procWriter user 0 count outcomes,
      (myProcWrite (fun i => user (call.base + i)) call.left call.readable).Inside) ∧
    OnceInOrder user 0 count (submit procWriter user 0 count outcomes) ∧
    ((∀ readable ∈ outcomes, 4 ≤ readable) → count.toNat ≤ outcomes.length * 4 →
      received (submit procWriter user 0 count outcomes) = read user 0 count.toNat) := by
  refine ⟨fun call _ => myProcWrite_inside _, onceInOrder_of_honest rfl fun call => procWriter_honest, ?_⟩
  intro hreadable hlen
  refine received_of_pieces (fun call hcall => ⟨procWriter_honest hcall, ?_⟩) hlen
  obtain ⟨hmem, hreply⟩ := reply_of_mem hcall
  rw [hreply, procWriter_advance _ (hreadable _ hmem)]

end LinuxDrivers.Smpinfo
