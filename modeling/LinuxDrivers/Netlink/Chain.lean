import LinuxDrivers.Netlink.Attrs
import LinuxDrivers.Netlink.ParseRtattr

/-! `parseRtattr` on arbitrary bytes: the chain of attributes it follows, told in exact integers, and
what it leaves in the table of its caller. -/
namespace LinuxDrivers.Netlink
open ByteMemory LittleEndian

/-- At `pos` there is an attribute that lies in front of `stop` with all of its bytes. -/
def Lies (m : Memory UInt8) (stop : Int) (pos : Nat) : Prop :=
  (pos : Int) + 4 ≤ stop ∧ 4 ≤ rtaLen m pos ∧ (pos : Int) + rtaLen m pos ≤ stop

instance (m : Memory UInt8) (stop : Int) (pos : Nat) : Decidable (Lies m stop pos) :=
  inferInstanceAs (Decidable (_ ∧ _))

/-- The attributes from `pos` on, up to the first header that is not one; each begins at the rounded
end of the one before. -/
def chain (m : Memory UInt8) (stop : Int) (pos : Nat) : List Nat :=
  if Lies m stop pos then pos :: chain m stop (pos + roundUp (rtaLen m pos)) else []
termination_by (stop - pos).toNat
decreasing_by
  rename_i h
  have hle := le_roundUp (rtaLen m pos)
  obtain ⟨_, _, _⟩ := h
  omega

def lastAt (m : Memory UInt8) (offs : List Nat) (type : Nat) : Option Nat :=
  (offs.filter (rtaType m · = type)).getLast?

/-- `memset(tb, 0, sizeof(struct rtattr *) * (max + 1))`, on the table of the caller. -/
def clearTb (tb : Nat → Option Nat) (max : Nat) : Nat → Option Nat := fun t => if t ≤ max then none else tb t

/-- `parseRtattr(tb, max, rta, len)` with the table of the caller, which may be longer. -/
def parseRtattrInto (m : Memory UInt8) (tb : Nat → Option Nat) (max rta : Nat) (len : BitVec 32) : Parsed :=
  parseLoop m max ⟨clearTb tb max, []⟩ rta len

structure Exact (m : Memory UInt8) (tb : Nat → Option Nat) (max rta : Nat) (stop : Int) (parsed : Parsed) : Prop where
  headers : ∀ o ∈ parsed.headers, rta ≤ o ∧ (o : Int) + 4 ≤ stop
  table : ∀ t ≤ max, parsed.tb t = lastAt m (chain m stop rta) t
  inside : ∀ t ≤ max, ∀ o, parsed.tb t = some o → rta ≤ o ∧ (o : Int) + rtaLen m o ≤ stop
  above : ∀ t, max < t → parsed.tb t = tb t

section Chain

variable {m : Memory UInt8} {max pos t : Nat} {stop : Int} {p : Parsed} {len : BitVec 32}

theorem chain_of_lies (h : Lies m stop pos) :
    chain m stop pos = pos :: chain m stop (pos + roundUp (rtaLen m pos)) := by
  rw [chain, if_pos h]

theorem chain_of_not_lies (h : ¬Lies m stop pos) : chain m stop pos = [] := by
  rw [chain, if_neg h]

theorem lies_of_mem_chain {o : Nat} (h : o ∈ chain m stop pos) : pos ≤ o ∧ Lies m stop o := by
  induction pos using chain.induct m stop with
  | case1 pos hlies ih =>
    rw [chain_of_lies hlies] at h
    rcases List.mem_cons.mp h with rfl | h
    · exact ⟨Nat.le_refl _, hlies⟩
    · obtain ⟨hle, ho⟩ := ih h
      exact ⟨Nat.le_trans (Nat.le_add_right _ _) hle, ho⟩
  | case2 pos hlies =>
    rw [chain_of_not_lies hlies] at h
    exact absurd h List.not_mem_nil

/-- A stretch that its attributes fill has just them as its chain, the padding of the last one being there
or not. -/
theorem Attrs.chain_eq {m : Memory UInt8} {stop pos : Nat} {offs : List Nat} (h : Attrs m stop pos offs) :
    chain m stop pos = offs := by
  induction h with
  | done h =>
    apply chain_of_not_lies
    unfold Lies
    omega
  | @attr pos rest hfour hin _ ih =>
    have hlies : Lies m stop pos := by
      unfold Lies
      omega
    rw [chain_of_lies hlies, ih]

theorem lastAt_cons (m : Memory UInt8) (pos t : Nat) (offs : List Nat) :
    lastAt m (pos :: offs) t = (lastAt m offs t).or (if rtaType m pos = t then some pos else none) := by
  unfold lastAt
  by_cases heq : rtaType m pos = t
  · rw [if_pos heq, List.filter_cons_of_pos (by simpa using heq), List.getLast?_cons]
    cases (offs.filter (rtaType m · = t)).getLast? <;> rfl
  · rw [if_neg heq, List.filter_cons_of_neg (by simpa using heq), Option.or_none]

theorem mem_of_lastAt {offs : List Nat} {o : Nat} (h : lastAt m offs t = some o) : o ∈ offs :=
  List.mem_of_mem_filter (List.mem_of_getLast? h)

/-- The macro tests what is left in 32 bits; as exact integers that is the distance to the end. -/
theorem rtaOk_iff_lies (hlen : len.toInt = stop - pos) : RtaOk m pos len ↔ Lies m stop pos := by
  rw [rtaOk_iff, Lies]
  omega

/-- The length left stays the distance to the end, below zero as well. -/
theorem left_toInt (hlen : len.toInt = stop - pos) (h : RtaOk m pos len) :
    (len - rtaStride m pos).toInt = stop - (pos + roundUp (rtaLen m pos) : Nat) := by
  rw [rtaNext_toInt h]
  omega

@[simp] theorem Parsed.look_tb (p : Parsed) (rta : Nat) (len : BitVec 32) : (p.look rta len).tb = p.tb := by
  unfold look
  split <;> rfl

theorem Parsed.store_tb (p : Parsed) (m : Memory UInt8) {max rta t : Nat} (ht : t ≤ max) :
    (p.store m max rta).tb t = if rtaType m rta = t then some rta else p.tb t := by
  unfold store
  by_cases heq : rtaType m rta = t
  · rw [if_pos (by omega), if_pos heq, ← heq]
    exact Function.update_self _ _ _
  · rw [if_neg heq]
    split
    · exact Function.update_of_ne (Ne.symm heq) _ _
    · rfl

/-- The check of the type keeps the table above `max` as it is. -/
theorem Parsed.store_tb_above (p : Parsed) (m : Memory UInt8) {max rta t : Nat} (ht : max < t) :
    (p.store m max rta).tb t = p.tb t := by
  unfold store
  split
  · exact Function.update_of_ne (by omega) _ _
  · rfl

/-- The loop leaves the last attribute of each type of the chain in the table. -/
theorem parseLoop_tb (hlen : len.toInt = stop - pos) (ht : t ≤ max) :
    (parseLoop m max p pos len).tb t = (lastAt m (chain m stop pos) t).or (p.tb t) := by
  induction p, pos, len using parseLoop.induct m max with
  | case1 p pos len h ih =>
    rw [rtaStride_toNat] at ih
    rw [parseLoop_ok h, ih (left_toInt hlen h), Parsed.store_tb _ _ ht, Parsed.look_tb,
      chain_of_lies ((rtaOk_iff_lies hlen).mp h), lastAt_cons, Option.or_assoc]
    split <;> rfl
  | case2 p pos len h =>
    rw [parseLoop_stop h, Parsed.look_tb, chain_of_not_lies fun hlies => h ((rtaOk_iff_lies hlen).mpr hlies)]
    rfl

theorem parseLoop_tb_above (ht : max < t) : (parseLoop m max p pos len).tb t = p.tb t := by
  induction p, pos, len using parseLoop.induct m max with
  | case1 p pos len h ih => rw [parseLoop, if_pos h, ih, Parsed.store_tb_above _ _ ht, Parsed.look_tb]
  | case2 p pos len h => rw [parseLoop_stop h, Parsed.look_tb]

/-- The macro looks at a header only where all four of its bytes are in front of the end. -/
theorem headers_parseLoop (hlen : len.toInt = stop - pos) :
    ∀ o ∈ (parseLoop m max p pos len).headers, o ∈ p.headers ∨ pos ≤ o ∧ (o : Int) + 4 ≤ stop := by
  have hlook : ∀ {p : Parsed} {pos : Nat} {len : BitVec 32}, len.toInt = stop - pos →
      ∀ o ∈ (p.look pos len).headers, o ∈ p.headers ∨ pos ≤ o ∧ (o : Int) + 4 ≤ stop := by
    intro p pos len hlen o ho
    by_cases hfour : 4 ≤ len.toInt
    · rw [Parsed.look_headers p pos hfour, List.mem_append, List.mem_singleton] at ho
      exact ho.imp_right fun heq => by omega
    · rw [Parsed.look, if_neg (show ¬(sizeofRtattr : Int) ≤ len.toInt from hfour)] at ho
      exact .inl ho
  induction p, pos, len using parseLoop.induct m max with
  | case1 p pos len h ih =>
    rw [rtaStride_toNat] at ih
    rw [parseLoop_ok h]
    intro o ho
    rcases ih (left_toInt hlen h) o ho with hmem | ⟨hle, hin⟩
    · rw [Parsed.store_headers] at hmem
      exact hlook hlen o hmem
    · exact .inr ⟨Nat.le_trans (Nat.le_add_right _ _) hle, hin⟩
  | case2 p pos len h =>
    rw [parseLoop_stop h]
    exact hlook hlen

/-- Over a table that is already clear it is the `parseRtattr` of netmon's messages. -/
theorem parseRtattr_eq (m : Memory UInt8) (max rta : Nat) (len : BitVec 32) :
    parseRtattr m max rta len = parseRtattrInto m (fun _ => none) max rta len := by
  have hclear : clearTb (fun _ => none) max = fun _ => none := by
    funext t
    exact ite_self none
  rw [parseRtattr, parseRtattrInto, hclear, Parsed.empty]

theorem parseRtattrInto_tb {rta : Nat} (tb : Nat → Option Nat) (hlen : len.toInt = stop - rta) (ht : t ≤ max) :
    (parseRtattrInto m tb max rta len).tb t = lastAt m (chain m stop rta) t := by
  have hclear : (⟨clearTb tb max, []⟩ : Parsed).tb t = none := if_pos ht
  rw [parseRtattrInto, parseLoop_tb hlen ht, hclear, Option.or_none]

end Chain

/-- On any bytes and any length, negative ones too, `parseRtattr` looks only at headers inside of the
region and leaves in its table just the last attribute of each type on the chain. -/
theorem parseRtattr_exact (m : Memory UInt8) (tb : Nat → Option Nat) (max rta : Nat) (len : BitVec 32) :
    Exact m tb max rta (rta + len.toInt) (parseRtattrInto m tb max rta len) := by
  have hlen : len.toInt = (rta + len.toInt : Int) - rta := by omega
  refine ⟨?_, fun t => parseRtattrInto_tb tb hlen, ?_, ?_⟩
  · intro o ho
    exact (headers_parseLoop hlen o ho).resolve_left List.not_mem_nil
  · intro t ht o ho
    rw [parseRtattrInto_tb tb hlen ht] at ho
    obtain ⟨hle, _, _, hin⟩ := lies_of_mem_chain (mem_of_lastAt ho)
    exact ⟨hle, hin⟩
  · intro t ht
    rw [parseRtattrInto, parseLoop_tb_above ht]
    exact if_neg (Nat.not_le_of_lt ht)

end LinuxDrivers.Netlink
