import LinuxDrivers.Netlink.Netmon

/-! The messages of a datagram, placed one after the other, and netmon's passes over them. -/
namespace LinuxDrivers.Netlink
open ByteMemory LittleEndian Halting StateTransition

/-- The bytes of a message, which begin with their own number in `nlmsg_len`. -/
structure NetlinkMessage where
  bytes : List UInt8
  header : sizeofNlmsghdr ≤ bytes.length
  nlmsgLen_eq : value (bytes.take 4) = bytes.length

/-- From `base` on the messages lie in the first `status` bytes, each at the next multiple of 4.
The last one is padded or not, and less than a header follows. -/
def PlacedFrom (m : Memory UInt8) (status : Nat) : Nat → List NetlinkMessage → Prop
  | base, [] => status < base + sizeofNlmsghdr
  | base, msg :: msgs =>
      base + msg.bytes.length ≤ status ∧ read m base msg.bytes.length = msg.bytes ∧
        PlacedFrom m status (base + roundUp msg.bytes.length) msgs

def offsets : Nat → List NetlinkMessage → List Nat
  | _, [] => []
  | base, msg :: msgs => base :: offsets (base + roundUp msg.bytes.length) msgs

/-- The lines about the messages at these offsets, one for each of a kind that is reported. The name and the address
that a message does not carry are those of the last one that did. -/
def linesAbout (m : Memory UInt8) : Option Nat → Option Nat → List Nat → List Line
  | _, _, [] => []
  | ifName, ifAddress, h :: hs =>
      if nlmsgType m h = rtmNewroute ∨ nlmsgType m h = rtmDelroute then
        .routingTableChanged :: linesAbout m ifName ifAddress hs
      else
        let ifName := ((linkAttrs m h).tb iflaIfname).map rtaData <|> ifName
        let ifAddress := ((addrAttrs m h).tb ifaLocal).map rtaData <|> ifAddress
        let ifUpp := if ifiFlags m (nlmsgData h) &&& iffUp ≠ 0 then "UP" else "DOWN"
        let ifRunn := if ifiFlags m (nlmsgData h) &&& iffRunning ≠ 0 then "RUNNING" else "NOT RUNNING"
        (Line.ofType (nlmsgType m h) ifName ifAddress ifUpp ifRunn).toList ++ linesAbout m ifName ifAddress hs

theorem length_offsets (base : Nat) (msgs : List NetlinkMessage) : (offsets base msgs).length = msgs.length := by
  induction msgs generalizing base with
  | nil => rfl
  | cons msg msgs ih => exact congrArg (· + 1) (ih _)

theorem nlmsgLen_of_read {m : Memory UInt8} {base : Nat} {msg : NetlinkMessage}
    (h : read m base msg.bytes.length = msg.bytes) : (nlmsgLen m base).toNat = msg.bytes.length := by
  have hheader : 16 ≤ msg.bytes.length := msg.header
  obtain ⟨k, hk⟩ := Nat.exists_eq_add_of_le (show 4 ≤ msg.bytes.length by omega)
  have hfirst : read m base 4 = msg.bytes.take 4 := by
    rw [← h, hk, read_add, List.take_append_of_le_length (by simp), List.take_of_length_le (by simp)]
  rw [nlmsgLen_toNat, load, hfirst, msg.nlmsgLen_eq]

/-- What is reported on a message comes in front of the lines about those behind it. -/
theorem report_linesAbout (m : Memory UInt8) (w : Walk) (hs : List Nat) :
    (w.report m).printed ++ linesAbout m (w.report m).ifName (w.report m).ifAddress hs =
      w.printed ++ linesAbout m w.ifName w.ifAddress (w.h :: hs) := by
  by_cases hroute : nlmsgType m w.h = rtmNewroute ∨ nlmsgType m w.h = rtmDelroute
  · rw [Walk.report, if_pos hroute, linesAbout, if_pos hroute, List.append_assoc]
    rfl
  · rw [Walk.report, if_neg hroute, linesAbout, if_neg hroute, Walk.goDeeper, List.append_assoc]

/-- The loop takes one pass for each message, which reports on it and goes to the next one, and leaves. -/
theorem passes_of_placed {m : Memory UInt8} {status : Nat} {msgs : List NetlinkMessage} {w : Walk}
    (hle : status ≤ 8192) (hw : w.status = (status : Int) - w.h) (hplaced : PlacedFrom m status w.h msgs) :
    ∃ passes last, Passes (Walk.step m) w passes last ∧ passes.map Walk.h = offsets w.h msgs ∧
      (∀ v ∈ passes, ¬InvalidLength (nlmsgLen m v.h) v.status ∧
        v.step m = some { v.report m with
          status := v.status - (roundUp (nlmsgLen m v.h).toNat : Nat)
          h := nextMsg m v.h }) ∧
      last.printed = w.printed ++ linesAbout m w.ifName w.ifAddress (offsets w.h msgs) := by
  induction msgs generalizing w with
  | nil =>
    have hshort : status < w.h + 16 := hplaced
    exact ⟨[], w, .stop (step_eq_none_iff.mpr (by omega)), rfl, fun v hv => absurd hv List.not_mem_nil,
      (List.append_nil _).symm⟩
  | cons msg msgs ih =>
    obtain ⟨hin, hread, hrest⟩ := hplaced
    have hheader : 16 ≤ msg.bytes.length := msg.header
    have hlen := nlmsgLen_of_read hread
    have hstep := step_message (m := m) (w := w) (by omega) (by omega) (by omega) (by omega)
    have hreported := hstep
    rw [nextMsg, hlen] at hstep
    obtain ⟨passes, last, hpasses, hoffsets, hhandled, hprinted⟩ := ih
      (w := { w.report m with
        status := w.status - (roundUp msg.bytes.length : Nat)
        h := w.h + roundUp msg.bytes.length })
      (by dsimp only; omega) hrest
    refine ⟨w :: passes, last, .pass hstep hpasses, congrArg (w.h :: ·) hoffsets, fun v hv => ?_, ?_⟩
    · rcases List.mem_cons.mp hv with rfl | hv
      · exact ⟨(valid_iff _ _).mpr (.inl ⟨by omega, by omega, by omega⟩), hreported⟩
      · exact hhandled v hv
    · rw [hprinted]
      exact report_linesAbout m w _

/-- For every list of messages received as one datagram the loop handles exactly these messages, in order and each at
its own offset, and then it is left: each pass reports on its message and goes to the next one, and what is printed
in all is the lines about them. -/
theorem loop_visits_messages {m : Memory UInt8} {status : Nat} {msgs : List NetlinkMessage}
    (hle : status ≤ 8192) (hplaced : PlacedFrom m status 0 msgs) (ifName ifAddress : Option Nat) :
    let start := Walk.start status ifName ifAddress
    ∃ passes last, Passes (Walk.step m) start passes last ∧
      (∀ others last', Passes (Walk.step m) start others last' → others = passes) ∧
      last ∈ eval (Walk.step m) start ∧ passes.map Walk.h = offsets 0 msgs ∧
      (∀ w ∈ passes, ¬InvalidLength (nlmsgLen m w.h) w.status ∧
        w.step m = some { w.report m with
          status := w.status - (roundUp (nlmsgLen m w.h).toNat : Nat)
          h := nextMsg m w.h }) ∧
      last.printed = linesAbout m ifName ifAddress (offsets 0 msgs) := by
  intro start
  obtain ⟨passes, last, hpasses, hoffsets, hhandled, hprinted⟩ :=
    passes_of_placed (w := start) hle (Int.sub_zero _).symm hplaced
  exact ⟨passes, last, hpasses, fun _ _ h => (h.unique hpasses).1, hpasses.mem_eval, hoffsets, hhandled, hprinted⟩

/-- A route that was added and one of 18 bytes that was deleted, with neither padding nor anything else behind it. -/
theorem loop_visits_messages_two :
    let msgs : List NetlinkMessage :=
      [⟨bytes 4 16 ++ bytes 12 24, by decide, by decide⟩, ⟨bytes 4 18 ++ bytes 14 25, by decide, by decide⟩]
    let m := write (write (fun _ => 7) 0 (bytes 4 16 ++ bytes 12 24)) 16 (bytes 4 18 ++ bytes 14 25)
    offsets 0 msgs = [0, 16] ∧
      ∃ passes last, Passes (Walk.step m) (.start 34 none none) passes last ∧ passes.map Walk.h = offsets 0 msgs ∧
        last.printed = [.routingTableChanged, .routingTableChanged] := by
  intro msgs m
  have hplaced : PlacedFrom m 34 0 msgs := ⟨by decide, by decide, by decide, by decide, show 34 < 36 + 16 by decide⟩
  obtain ⟨passes, last, hpasses, _, _, hoffsets, _, hprinted⟩ :=
    loop_visits_messages (show 34 ≤ 8192 by decide) hplaced none none
  have hadded : nlmsgType m 0 = rtmNewroute := by decide
  have hdeleted : nlmsgType m 16 = rtmDelroute := by decide
  refine ⟨rfl, passes, last, hpasses, hoffsets, hprinted.trans ?_⟩
  change linesAbout m none none [0, 16] = _
  rw [linesAbout, if_pos (.inl hadded), linesAbout, if_pos (.inr hdeleted), linesAbout]

end LinuxDrivers.Netlink
