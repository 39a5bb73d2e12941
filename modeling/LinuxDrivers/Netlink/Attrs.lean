import LinuxDrivers.Netlink.Wire

/-! The attributes found in a stretch of bytes: what an encoder is to produce and a decoder to
find. -/
namespace LinuxDrivers.Netlink
open ByteMemory LittleEndian

/-- The attributes that fill the bytes from `pos` to `stop`, each followed by its padding; the
padding of the last one may be missing. -/
inductive Attrs (m : Memory UInt8) (stop : Nat) : Nat → List Nat → Prop
  | done {pos : Nat} (h : stop ≤ pos) : Attrs m stop pos []
  | attr {pos : Nat} {rest : List Nat} (hlen : 4 ≤ rtaLen m pos) (hin : pos + rtaLen m pos ≤ stop)
      (hrest : Attrs m stop (pos + roundUp (rtaLen m pos)) rest) : Attrs m stop pos (pos :: rest)

def payload (m : Memory UInt8) (rta : Nat) : List UInt8 := read m (rtaData rta) (rtaLen m rta - 4)

def attrAt (m : Memory UInt8) (rta : Nat) : Nat × List UInt8 := (rtaType m rta, payload m rta)

theorem Attrs.le_of_mem {m : Memory UInt8} {stop pos rta : Nat} {attrs : List Nat} (h : Attrs m stop pos attrs)
    (hm : rta ∈ attrs) : pos ≤ rta := by
  induction h with
  | done => cases hm
  | attr _ _ _ ih =>
    rcases List.mem_cons.mp hm with rfl | hm
    · exact Nat.le_refl _
    · exact Nat.le_trans (Nat.le_add_right _ _) (ih hm)

theorem attrAt_congr {m m' : Memory UInt8} {rta : Nat} (h4 : 4 ≤ rtaLen m rta)
    (hsame : ∀ o, rta ≤ o → o < rta + rtaLen m rta → m' o = m o) :
    rtaLen m' rta = rtaLen m rta ∧ attrAt m' rta = attrAt m rta := by
  have hlen : rtaLen m' rta = rtaLen m rta := load_congr fun o _ _ => hsame o (by omega) (by omega)
  have htype : rtaType m' rta = rtaType m rta := load_congr fun o _ _ => hsame o (by omega) (by omega)
  refine ⟨hlen, ?_⟩
  rw [attrAt, attrAt, htype, payload, payload, hlen]
  congr 1
  apply read_congr
  intro o ho hlt
  have hdata : rtaData rta = rta + 4 := rfl
  exact hsame o (by omega) (by omega)

/-- The attributes depend only on the bytes they fill. -/
theorem Attrs.congr {m m' : Memory UInt8} {stop pos : Nat} {attrs : List Nat} (h : Attrs m stop pos attrs)
    (hsame : ∀ o, pos ≤ o → o < stop → m' o = m o) :
    Attrs m' stop pos attrs ∧ attrs.map (attrAt m') = attrs.map (attrAt m) := by
  induction h with
  | done h => exact ⟨.done h, rfl⟩
  | attr hlen hin _ ih =>
    obtain ⟨hlen', hat⟩ := attrAt_congr hlen (fun o ho hlt => hsame o ho (by omega))
    obtain ⟨hrest, hmap⟩ := ih (fun o ho hlt => hsame o (by omega) hlt)
    refine ⟨.attr (by omega) (by omega) (by rwa [hlen']), ?_⟩
    rw [List.map_cons, List.map_cons, hat, hmap]

/-- Attributes that end at a multiple of 4 are followed by further ones. -/
theorem Attrs.append {m : Memory UInt8} {stop stop' pos : Nat} {attrs attrs' : List Nat}
    (h : Attrs m stop pos attrs) (hpos : pos % 4 = 0) (hstop : stop % 4 = 0) (hle : pos ≤ stop)
    (hle' : stop ≤ stop') (h' : Attrs m stop' stop attrs') : Attrs m stop' pos (attrs ++ attrs') := by
  induction h with
  | @done pos h =>
    obtain rfl : pos = stop := by omega
    exact h'
  | @attr pos rest hlen hin _ ih =>
    have hround : roundUp (rtaLen m pos) % 4 = 0 := Nat.mul_mod_left _ _
    have hnext := roundUp_le (rtaLen m pos)
    exact .attr hlen (by omega) (ih (by omega) (by omega))

end LinuxDrivers.Netlink
