import LinuxDrivers.Netlink.Attrs
import LinuxDrivers.Netlink.Netmon

/-! What netmon reads to report on a message, against the attributes the message carries. -/
namespace LinuxDrivers.Netlink
open ByteMemory StateTransition

/-- The size of the fixed header of the kinds of message that are reported by name:
`struct ifinfomsg` and `struct ifaddrmsg`. -/
def fixedHeader (type : Nat) : Option Nat :=
  match type with
  | rtmNewlink | rtmDellink => some 16
  | rtmNewaddr | rtmDeladdr => some 8
  | _ => none

def MessageAttrs (m : Memory UInt8) (h : Nat) (attrs : List Nat) : Prop :=
  ∃ hdr, fixedHeader (nlmsgType m h) = some hdr ∧ 16 + hdr ≤ (nlmsgLen m h).toNat ∧
    Attrs m (h + (nlmsgLen m h).toNat) (nlmsgData h + hdr) attrs

/-- Well-formed messages one after the other, found at the offsets listed. Less than a header
may follow the last one. -/
inductive Datagram (m : Memory UInt8) : Nat → Int → List Nat → Prop
  | done {h : Nat} {status : Int} (hs : status < 16) : Datagram m h status []
  | message {h : Nat} {status : Int} {hs : List Nat} (hlen : 16 ≤ (nlmsgLen m h).toNat)
      (hle : ((nlmsgLen m h).toNat : Int) ≤ status)
      (hattrs : (fixedHeader (nlmsgType m h)).isSome → ∃ attrs, MessageAttrs m h attrs)
      (hrest : Datagram m (nextMsg m h) (status - (roundUp (nlmsgLen m h).toNat : Nat)) hs) :
      Datagram m h status (h :: hs)

def Line.shownName : Line → Option (Option Nat)
  | .addressRemoved ifName | .interfaceRemoved ifName => some ifName
  | .newInterface ifName _ _ | .addressAssigned ifName _ => some ifName
  | .invalidLength _ | .routingTableChanged => none

def Line.shownAddress : Line → Option (Option Nat)
  | .addressAssigned _ ifAddress => some ifAddress
  | _ => none

def FromOwnAttr (m : Memory UInt8) (h type : Nat) (shown : Option Nat) : Prop :=
  ∃ attrs rta, MessageAttrs m h attrs ∧ rta ∈ attrs ∧ rtaType m rta = type ∧ shown = some (rtaData rta)

structure ReportsOwn (m : Memory UInt8) (w : Walk) : Prop where
  /-- Each attribute header looked at has its length field inside the message. -/
  headers : ∀ rta ∈ (linkAttrs m w.h).headers ++ (addrAttrs m w.h).headers,
    w.h ≤ rta ∧ rta + 2 ≤ w.h + (nlmsgLen m w.h).toNat
  name : ∀ line shown, (w.report m).printed = w.printed ++ [line] → line.shownName = some shown →
    FromOwnAttr m w.h iflaIfname shown
  address : ∀ line shown, (w.report m).printed = w.printed ++ [line] → line.shownAddress = some shown →
    FromOwnAttr m w.h ifaLocal shown

/-- A walk over the attributes with a length that reaches a header beyond them looks at a header
behind the last attribute. -/
theorem parseLoop_overrun {m : Memory UInt8} {stop pos : Nat} {attrs : List Nat} (h : Attrs m stop pos attrs)
    (max : Nat) (p : Parsed) (len : BitVec 32) (hpos : pos ≤ stop + 3)
    (hlen : (stop : Int) + 7 ≤ pos + len.toInt) :
    ∃ rta, rta ∈ (parseLoop m max p pos len).headers ∧ stop ≤ rta := by
  induction h generalizing p len with
  | @done pos hstop =>
    refine ⟨pos, headers_subset_parseLoop m max p pos len ?_, hstop⟩
    rw [Parsed.look_headers p pos (by omega)]
    simp
  | @attr pos rest h4 hin hrest ih =>
    have hok : RtaOk m pos len := rtaOk_iff.mpr ⟨by omega, h4, by omega⟩
    have hround := roundUp_le (rtaLen m pos)
    have hnext := rtaNext_toInt hok
    rw [parseLoop_ok hok]
    exact ih _ _ (by omega) (by omega)

/-- Both walks are given the length of the whole message, so the one that starts at the
attributes of its message goes on behind them. -/
theorem headers_overrun {m : Memory UInt8} {h : Nat} {attrs : List Nat} (ha : MessageAttrs m h attrs)
    (hd : (nlmsgLen m h).toNat < 2^31) :
    ∃ rta, rta ∈ (linkAttrs m h).headers ++ (addrAttrs m h).headers ∧ h + (nlmsgLen m h).toNat ≤ rta := by
  obtain ⟨hdr, hkind, hlen, hattrs⟩ := ha
  have hint : (nlmsgLen m h).toInt = (nlmsgLen m h).toNat := BitVec.toInt_eq_toNat_of_lt (by omega)
  have hdata : nlmsgData h = h + 16 := rfl
  have hcases : hdr = 16 ∨ hdr = 8 := by
    unfold fixedHeader at hkind
    split at hkind <;> simp_all
  rcases hcases with rfl | rfl
  · obtain ⟨rta, hmem, hle⟩ := parseLoop_overrun hattrs iflaMax .empty (nlmsgLen m h) (by omega) (by omega)
    exact ⟨rta, List.mem_append_left _ hmem, hle⟩
  · obtain ⟨rta, hmem, hle⟩ := parseLoop_overrun hattrs ifaMax .empty (nlmsgLen m h) (by omega) (by omega)
    exact ⟨rta, List.mem_append_right _ hmem, hle⟩

theorem Datagram.attrs_of_mem {m : Memory UInt8} {off h : Nat} {status : Int} {hs : List Nat}
    (hD : Datagram m off status hs) (hd : status ≤ 8192) (hm : h ∈ hs)
    (hkind : (fixedHeader (nlmsgType m h)).isSome) :
    (nlmsgLen m h).toNat < 2^31 ∧ ∃ attrs, MessageAttrs m h attrs := by
  induction hD with
  | done => cases hm
  | message hlen hle hattrs _ ih =>
    rcases List.mem_cons.mp hm with rfl | hm
    · exact ⟨by omega, hattrs hkind⟩
    · exact ih (by omega) hm

/-- The loop comes to every message of the datagram. -/
theorem datagram_visited {m : Memory UInt8} {w : Walk} {hs : List Nat} (hD : Datagram m w.h w.status hs)
    (hd : w.status ≤ 8192) {h : Nat} (hm : h ∈ hs) :
    ∃ w', Reaches (Walk.step m) w w' ∧ w'.h = h ∧ 16 ≤ w'.status := by
  generalize hoff : w.h = off at hD
  generalize hst : w.status = st at hD
  induction hD generalizing w with
  | done => cases hm
  | message hlen hle hattrs hrest ih =>
    subst hoff hst
    rcases List.mem_cons.mp hm with rfl | hm
    · exact ⟨w, .refl, rfl, by omega⟩
    · have hstep := step_message (m := m) (w := w) (by omega) hlen hle (by omega)
      obtain ⟨w', hreach, hw'⟩ := ih (w := { w.report m with
        status := w.status - (roundUp (nlmsgLen m w.h).toNat : Nat)
        h := nextMsg m w.h }) (by dsimp only; omega) hm rfl rfl
      exact ⟨w', .head hstep hreach, hw'⟩

/-- The loop comes to every message of a well-formed datagram, and for each one that is
reported by name, whatever the variables hold, the pass reads beyond the message. -/
theorem never_reportsOwn (m : Memory UInt8) (status : Int) (hs : List Nat) (ifName ifAddress : Option Nat)
    (hD : Datagram m 0 status hs) (hd : status ≤ 8192) (h : Nat) (hm : h ∈ hs)
    (hkind : (fixedHeader (nlmsgType m h)).isSome) :
    (∃ w, Reaches (Walk.step m) (.start status ifName ifAddress) w ∧ w.h = h ∧ 16 ≤ w.status) ∧
      ∀ w : Walk, w.h = h → ¬ ReportsOwn m w := by
  refine ⟨datagram_visited hD hd hm, ?_⟩
  rintro w rfl hown
  obtain ⟨hlen, attrs, hattrs⟩ := hD.attrs_of_mem hd hm hkind
  obtain ⟨rta, hmem, hle⟩ := headers_overrun hattrs hlen
  have := (hown.headers rta hmem).2
  omega

/-- RTM_NEWLINK for an interface `a`, followed by RTM_NEWADDR with an IFA_LOCAL and no IFA_LABEL. -/
def linkThenAddress : Memory UInt8 := fun o =>
  [40, 0, 0, 0, 16, 0, 0, 0, 0, 0, 0, 0, 0, 0, 0, 0,
    0, 0, 0, 0, 0, 0, 0, 0, 0, 0, 0, 0, 0, 0, 0, 0,
    6, 0, 3, 0, 97, 0, 0, 0,
    32, 0, 0, 0, 20, 0, 0, 0, 0, 0, 0, 0, 0, 0, 0, 0,
    2, 8, 0, 0, 1, 0, 0, 0,
    8, 0, 2, 0, 10, 0, 0, 1].getD o 0

theorem linkThenAddress_datagram : Datagram linkThenAddress 0 72 [0, 40] := by
  have hlen : (nlmsgLen linkThenAddress 0).toNat = 40 := by decide +kernel
  have hlen' : (nlmsgLen linkThenAddress 40).toNat = 32 := by decide +kernel
  have hnext : nextMsg linkThenAddress 0 = 40 := by decide +kernel
  refine .message (by omega) (by omega) (fun _ => ⟨[32], 16, by decide +kernel, by omega, ?_⟩) ?_
  · rw [hlen]
    refine .attr (by decide +kernel) (by decide +kernel) (.done (by decide +kernel))
  · rw [hnext, hlen]
    refine .message (by omega) (by simp [hlen', roundUp])
      (fun _ => ⟨[64], 8, by decide +kernel, by omega, ?_⟩) ?_
    · rw [hlen']
      refine .attr (by decide +kernel) (by decide +kernel) (.done (by decide +kernel))
    · rw [hlen']
      exact .done (by decide)

/-- The second message carries no name, and the line about it shows that of the first. -/
theorem address_shown_for_earlier_name :
    ¬ ∀ (m : Memory UInt8) (status : Int) (hs : List Nat) (ifName ifAddress : Option Nat),
      Datagram m 0 status hs → 0 ≤ status → status ≤ 8192 →
      ∀ w, Reaches (Walk.step m) (.start status ifName ifAddress) w → 16 ≤ w.status →
        (fixedHeader (nlmsgType m w.h)).isSome → ReportsOwn m w := by
  intro h
  obtain ⟨w, hstep, hname, hat, hst, hline⟩ : ∃ w, Walk.step linkThenAddress (.start 72 none none) = some w ∧
      w.ifName = some 36 ∧ w.h = 40 ∧ w.status = 32 ∧
      (w.report linkThenAddress).printed = w.printed ++ [.addressAssigned (some 36) (some 68)] := by
    refine ⟨_, rfl, ?_, ?_, ?_, ?_⟩ <;> decide +kernel
  have hown := h linkThenAddress 72 [0, 40] none none linkThenAddress_datagram (by decide) (by decide) w
    (.single hstep) (by omega) (by rw [hat]; decide +kernel)
  obtain ⟨attrs, rta, ⟨hdr, _, _, hattrs⟩, hmem, _, hshown⟩ := hown.name _ _ hline rfl
  have hle := hattrs.le_of_mem hmem
  simp only [rtaData, sizeofRtattr, Option.some.injEq] at hshown
  simp only [nlmsgData, sizeofNlmsghdr, hat] at hle
  omega

/-- Both messages of the datagram above. -/
theorem never_reportsOwn_linkThenAddress :
    (∃ w, Reaches (Walk.step linkThenAddress) (.start 72 none none) w ∧ w.h = 40 ∧ 16 ≤ w.status) ∧
      ∀ w : Walk, w.h = 40 → ¬ ReportsOwn linkThenAddress w :=
  never_reportsOwn linkThenAddress 72 [0, 40] none none linkThenAddress_datagram (by decide) 40
    (by decide) (by decide +kernel)

end LinuxDrivers.Netlink
