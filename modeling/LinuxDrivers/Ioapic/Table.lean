import LinuxDrivers.Lib.IndexedPort
import LinuxDrivers.Lib.Printf

/-! `my_proc_show` of ioapic.c, which prints the registers of the I/O APIC: each is read through an index
port that all readers of the file share. -/
namespace LinuxDrivers.Ioapic
open IndexedPort Runs CString Printf StateTransition

inductive Pc where
  | ident
  | versn
  | valLo
  | valHi
  | done
  deriving DecidableEq, Repr

structure Reader where
  pc : Pc
  i : Nat
  maxirq : Nat
  ident : BitVec 32
  valLo : BitVec 32
  m : List UInt8
  deriving DecidableEq, Repr

def Reader.start : Reader := ⟨.ident, 0, 0, 0, 0, []⟩

def word (w : BitVec 32) : List UInt8 := pad '0' 8 (upperHex w.toNat)

def heading (ident versn : BitVec 32) (maxirq : Nat) : List UInt8 :=
  ascii "\n  I/O APIC       ".toList ++ ascii " Identification: ".toList ++ word ident ++ ascii "  ".toList ++
    ascii "     Version: ".toList ++ word versn ++ ascii "   \n".toList ++ ascii ['\n'] ++ pad ' ' 25 (ascii [' ']) ++
    decimal (1 + maxirq) ++ ascii " Redirection-Table entries \n".toList

def entry (i : Nat) (valHi valLo : BitVec 32) : List UInt8 :=
  (if i % 3 = 0 then ascii ['\n'] else []) ++ ascii "  0x".toList ++ pad '0' 2 (upperHex i) ++ ascii ": ".toList ++
    word valHi ++ word valLo ++ ascii "  ".toList

def maxirqOf (versn : BitVec 32) : Nat := ((versn.sshiftRight 16) &&& 0xff).toNat

/-- `iowrite32(n, to)`; the index register of the device is eight bits wide. -/
def ioregsel (n : Nat) : BitVec 8 := (BitVec.ofNat 32 n).setWidth 8

def Reader.loop (r : Reader) : Reader :=
  if r.i ≤ r.maxirq then { r with pc := .valLo } else { r with pc := .done, m := r.m ++ ascii "\n\n".toList }

def myProcShow : Client Reader (BitVec 8) (BitVec 32) where
  want r := match r.pc with
    | .ident => some (ioregsel 0)
    | .versn => some (ioregsel 1)
    | .valLo => some (ioregsel (0x10 + 2*r.i))
    | .valHi => some (ioregsel (0x10 + 2*r.i + 1))
    | .done => none
  take r val := match r.pc with
    | .ident => { r with pc := .versn, ident := val }
    | .versn => Reader.loop { r with
        maxirq := maxirqOf val
        m := r.m ++ heading r.ident val (maxirqOf val)
        i := 0 }
    | .valLo => { r with pc := .valHi, valLo := val }
    | .valHi => Reader.loop { r with m := r.m ++ entry r.i val r.valLo, i := r.i + 1 }
    | .done => r

def heldEntry (regs : BitVec 8 → BitVec 32) (i : Nat) : List UInt8 :=
  entry i (regs (ioregsel (0x10 + 2*i + 1))) (regs (ioregsel (0x10 + 2*i)))

def tableText (regs : BitVec 8 → BitVec 32) : List UInt8 :=
  let maxirq := maxirqOf (regs 1)
  heading (regs 0) (regs 1) maxirq ++ (List.range (maxirq+1)).flatMap (heldEntry regs) ++ ascii "\n\n".toList

variable {regs : BitVec 8 → BitVec 32}

def behind (regs : BitVec 8 → BitVec 32) (k : Nat) (valLo : BitVec 32) : Reader :=
  ⟨.valLo, k, maxirqOf (regs 1), regs 0, valLo,
    heading (regs 0) (regs 1) (maxirqOf (regs 1)) ++ (List.range k).flatMap (heldEntry regs)⟩

theorem loop_behind {k : Nat} (h : k ≤ maxirqOf (regs 1)) (valLo : BitVec 32) :
    (behind regs k valLo).loop = behind regs k valLo := if_pos h

theorem alone_start : Reaches (alone myProcShow regs) .start (behind regs 0 0).loop := by
  refine .tail (.single rfl) ?_
  rw [behind, List.range_zero, List.flatMap_nil, List.append_nil]
  rfl

theorem behind_succ (k : Nat) (valLo : BitVec 32) :
    behind regs (k+1) valLo =
      { behind regs k valLo with i := k + 1, m := (behind regs k valLo).m ++ heldEntry regs k } := by
  simp only [behind, List.range_succ, List.flatMap_append, List.flatMap_singleton, List.append_assoc]

theorem alone_pass (k : Nat) (valLo : BitVec 32) :
    Reaches (alone myProcShow regs) (behind regs k valLo)
      (behind regs (k+1) (regs (ioregsel (0x10 + 2*k)))).loop := by
  refine .tail (.single rfl) ?_
  rw [behind_succ]
  rfl

theorem alone_passes (k : Nat) (h : k ≤ maxirqOf (regs 1) + 1) :
    ∃ valLo, Reaches (alone myProcShow regs) .start (behind regs k valLo).loop := by
  induction k with
  | zero => exact ⟨0, alone_start⟩
  | succ k ih =>
    obtain ⟨valLo, hreaches⟩ := ih (Nat.le_of_succ_le h)
    rw [loop_behind (Nat.le_of_succ_le_succ h)] at hreaches
    exact ⟨_, hreaches.trans (alone_pass k valLo)⟩

/-- A reader that has the device to itself prints the registers. -/
theorem alone_shows : ∃ r : Reader, r ∈ eval (alone myProcShow regs) .start ∧ r.m = tableText regs := by
  obtain ⟨valLo, hreaches⟩ := @alone_passes regs _ (Nat.le_refl _)
  have hend : (behind regs (maxirqOf (regs 1) + 1) valLo).loop =
      ⟨.done, maxirqOf (regs 1) + 1, maxirqOf (regs 1), regs 0, valLo, tableText regs⟩ :=
    if_neg (Nat.not_succ_le_self _)
  rw [hend] at hreaches
  exact ⟨_, mem_eval.mpr ⟨hreaches, rfl⟩, rfl⟩

variable {ι : Type*} [DecidableEq ι]

/-- Any number of readers of the file at once, however their accesses mix: as long as nobody selects a register
between another reader's selection and its read, each one that is at its end has printed the registers as they
are. -/
theorem readers_show_registers {index : BitVec 8} {accesses : List ι} {s : Shared ι Reader (BitVec 8)}
    (hok : Along (step myProcShow regs) Undisturbed (.start index .start) accesses)
    (h : run (step myProcShow regs) (.start index .start) accesses = some s) (j : ι)
    (hend : step myProcShow regs s j = none) : (s.progress j).m = tableText regs := by
  have hwant : myProcShow.want (s.progress j) = none := by
    unfold step at hend
    split at hend
    · exact Option.map_eq_none_iff.mp hend
    · cases hend
  obtain ⟨r, hr, htext⟩ := @alone_shows regs
  rw [← htext, Part.mem_unique (mem_eval_of_undisturbed hok h hwant) hr]

def onePin : BitVec 8 → BitVec 32
  | 0 => 0x01000000
  | 1 => 0x00000011
  | _ => 0x00010000

/-- Two readers of it that take turns, register by register. -/
theorem readers_show_registers_turns :
    let turns := [true, false, true, false, false, true, false, true]
    ∃ s, run (step myProcShow onePin) (.start 0xff .start) (turns.flatMap fun reader => [reader, reader]) = some s ∧
      (s.progress true).m = tableText onePin ∧ (s.progress false).m = tableText onePin := by
  intro turns
  obtain ⟨s, hs⟩ : ∃ s, run (step myProcShow onePin) (.start 0xff .start)
      (turns.flatMap fun reader => [reader, reader]) = some s := ⟨_, rfl⟩
  have hok := @along_turns _ _ _ _ myProcShow onePin _ (.start 0xff .start) (fun _ => rfl) turns
  refine ⟨s, hs, readers_show_registers hok hs true ?_, readers_show_registers hok hs false ?_⟩
  · cases hs
    rfl
  · cases hs
    rfl

/-- A second reader that selects in between hands its own register to the first one. -/
example : ∃ s, run (step myProcShow onePin) (.start 0 .start) [true, false, false, false, true] = some s ∧
    (s.progress true).ident = onePin 1 := ⟨_, rfl, rfl⟩

end LinuxDrivers.Ioapic
