import LinuxDrivers.Netlink.Netmon

/-! When netmon's loop over the received messages ends. -/
namespace LinuxDrivers.Netlink
open ByteMemory StateTransition

/-- From `h` on, with `status` bytes left, each header of the chain announces a length the bytes
left cover; the chain may also stop at a length from `2^31` to `2^31 + 15`, which is let through
and takes `status` below zero. -/
inductive ValidLengths (m : Memory UInt8) : Nat → Int → Prop
  | done {h : Nat} {status : Int} (hs : status < 16) : ValidLengths m h status
  | message {h : Nat} {status : Int} (hs : 16 ≤ status) (hlen : 16 ≤ (nlmsgLen m h).toNat)
      (hint : (nlmsgLen m h).toNat < 2^31) (hle : ((nlmsgLen m h).toNat : Int) ≤ status)
      (hrest : ValidLengths m (nextMsg m h) (status - (roundUp (nlmsgLen m h).toNat : Nat))) :
      ValidLengths m h status
  | wrapped {h : Nat} {status : Int} (hs : 16 ≤ status) (hlen : 2^31 ≤ (nlmsgLen m h).toNat)
      (hwrap : (nlmsgLen m h).toNat < 2^31 + 16) : ValidLengths m h status

/-- A pass neither makes nor breaks the condition. -/
theorem step_validLengths {m : Memory UInt8} {w w' : Walk} (hd : w.status ≤ 8192) (h : w.step m = some w') :
    ValidLengths m w.h w.status ↔ ValidLengths m w'.h w'.status := by
  obtain ⟨hs, ⟨_, rfl⟩ | ⟨hv, rfl⟩⟩ := step_cases h
  · rfl
  · have hle := le_roundUp (nlmsgLen m w.h).toNat
    constructor
    · intro hc
      cases hc with
      | done h => omega
      | message _ _ _ _ hrest => exact hrest
      | wrapped _ hlen _ => exact .done (by dsimp only; omega)
    · intro hc
      rcases (valid_iff _ _).mp hv with ⟨hlen, hint, hle⟩ | ⟨hlen, hwrap, _⟩
      · exact .message hs hlen hint hle hc
      · exact .wrapped hs hlen hwrap

theorem ValidLengths.sixteen_le {m : Memory UInt8} {h : Nat} {status : Int} (hc : ValidLengths m h status)
    (hs : 16 ≤ status) (hd : status ≤ 8192) :
    16 ≤ (nlmsgLen m h).toNat ∧ ¬ InvalidLength (nlmsgLen m h) status := by
  rw [valid_iff]
  cases hc with
  | done h => omega
  | message _ hlen hint hle _ => exact ⟨hlen, .inl ⟨hlen, hint, hle⟩⟩
  | wrapped _ hlen hwrap => exact ⟨by omega, .inr ⟨hlen, hwrap, by omega⟩⟩

/-- Under the condition each pass takes at least the size of a header off `status`. -/
theorem step_status_lt {m : Memory UInt8} {w w' : Walk} (hc : ValidLengths m w.h w.status)
    (hd : w.status ≤ 8192) (h : w.step m = some w') : w'.status + 16 ≤ w.status := by
  obtain ⟨hs, ⟨hv, _⟩ | ⟨_, rfl⟩⟩ := step_cases h
  · exact absurd hv (hc.sixteen_le hs hd).2
  · have hlen := (hc.sixteen_le hs hd).1
    have hle := le_roundUp (nlmsgLen m w.h).toNat
    dsimp only
    omega

theorem step_status_le {m : Memory UInt8} {w w' : Walk} (h : w.step m = some w') : w'.status ≤ w.status := by
  obtain ⟨_, ⟨_, rfl⟩ | ⟨_, rfl⟩⟩ := step_cases h
  · exact Int.le_refl _
  · dsimp only
    omega

/-- For every content of the buffer and of what lies behind it, and every received length, the
loop ends exactly when no header it comes to announces an invalid length. -/
theorem loop_ends_iff (m : Memory UInt8) (status : Int) (ifName ifAddress : Option Nat) (hd : status ≤ 8192) :
    (eval (Walk.step m) (.start status ifName ifAddress)).Dom ↔ ValidLengths m 0 status := by
  refine Halting.dom_iff (fun w : Walk => w.status ≤ 8192) (fun w => ValidLengths m w.h w.status)
    (fun w => w.status.toNat) ?_ ?_ ?_ ?_ hd
  · intro w w' hd h
    exact Int.le_trans (step_status_le h) hd
  · intro w _ h
    exact .done (step_eq_none_iff.mp h)
  · intro w w' hd h
    exact step_validLengths hd h
  · intro w w' hd h hc
    have hs := (step_cases h).1
    have hlt := step_status_lt hc hd h
    omega

/-- The `continue` of the length check does not move on: after a header that announces the
length 0 the same header is looked at again. -/
theorem zero_length_loops :
    ¬ ∀ (m : Memory UInt8) (status : Int) (ifName ifAddress : Option Nat), 0 ≤ status → status ≤ 8192 →
      (eval (Walk.step m) (.start status ifName ifAddress)).Dom := by
  intro h
  refine Halting.not_dom_of_closed (fun w => w.h = 0 ∧ w.status = 16) ?_ ⟨rfl, rfl⟩
    (h (fun _ => 0) 16 none none (by decide) (by decide))
  rintro w ⟨hh, hs⟩
  have hlen : nlmsgLen (fun _ => 0) w.h = 0 := by rw [hh]; decide +kernel
  have hinv : InvalidLength 0 16 := by decide +kernel
  refine ⟨{ w with printed := w.printed ++ [.invalidLength 0] }, ?_, hh, hs⟩
  rw [Walk.step, if_pos (by rw [hs]; decide)]
  simp only [hlen, hs, if_pos hinv]
  rfl

/-- A header alone in the datagram, with its own size as length. -/
theorem loop_ends_after_header :
    (16 : Int) ≤ 8192 ∧
      (eval (Walk.step (fun o => if o = 0 then 16 else 0)) (.start 16 none none)).Dom := by
  refine ⟨by decide, (loop_ends_iff _ 16 none none (by decide)).mpr ?_⟩
  have hlen : (nlmsgLen (fun o => if o = 0 then 16 else 0) 0).toNat = 16 := by decide +kernel
  refine .message (by decide) (by omega) (by omega) (by omega) (.done ?_)
  rw [hlen]
  decide

end LinuxDrivers.Netlink
