import LinuxDrivers.Netlink.Attrs

/-! `rtattr_add` of set_route: an attribute put behind the message at the start of a buffer. -/
namespace LinuxDrivers.Netlink
open ByteMemory LittleEndian

/-- A store of `k` bytes into an object of `size` bytes; there is no result outside of it. -/
def storeIn (size : Nat) (m : Memory UInt8) (off k n : Nat) : Option (Memory UInt8) :=
  if off + k ≤ size then some (store m off k n) else none

def memcpy (size : Nat) (m : Memory UInt8) (dest : Nat) (src : List UInt8) (n : BitVec 64) :
    Option (Memory UInt8) :=
  if dest + n.toNat ≤ size ∧ n.toNat ≤ src.length then some (write m dest (src.take n.toNat)) else none

/-- `RTA_LENGTH(alen)`, a sum of `size_t` width stored in an `int`. -/
def rtaLength (alen : BitVec 32) : BitVec 32 := (4 + alen.signExtend 64).setWidth 32

def copyData (size : Nat) (m : Memory UInt8) (rta : Nat) (data : List UInt8) (alen : BitVec 32) :
    Option (Memory UInt8) :=
  if alen ≠ 0 then memcpy size m (rtaData rta) data (alen.signExtend 64) else some m

/-- `rtattr_add(n, maxlen, type, data, alen)` for the message `n` at the start of an object of
`size` bytes. The bound is checked on `unsigned int`s, the copy is given `alen` as a `size_t`. -/
def rtattrAdd (size : Nat) (m : Memory UInt8) (maxlen type : BitVec 32) (data : List UInt8)
    (alen : BitVec 32) : Option (Int × Memory UInt8) :=
  let len := rtaLength alen
  if maxlen < align (nlmsgLen m 0) + align len then some (-1, m)
  else do
    let rta := (align (nlmsgLen m 0)).toNat
    let m ← storeIn size m (rta+2) 2 type.toNat
    let m ← storeIn size m rta 2 len.toNat
    let m ← copyData size m rta data alen
    some (0, store m 0 4 (align (nlmsgLen m 0) + align len).toNat)

structure Appended (m m' : Memory UInt8) (rta type : Nat) (bytes : List UInt8) : Prop where
  len : (nlmsgLen m' 0).toNat = rta + roundUp (4 + bytes.length)
  rtaLen : rtaLen m' rta = 4 + bytes.length
  attr : attrAt m' rta = (type, bytes)
  before : ∀ o, 4 ≤ o → o < rta → m' o = m o
  after : ∀ o, rta + 4 + bytes.length ≤ o → m' o = m o

theorem signExtend_toNat {x : BitVec 32} (h : x.toNat < 2^31) : (x.signExtend 64).toNat = x.toNat := by
  have hmsb : x.msb = false := by
    rw [BitVec.msb_eq_false_iff_two_mul_lt]
    omega
  rw [BitVec.signExtend_eq_setWidth_of_msb_false hmsb, BitVec.toNat_setWidth_of_le (by decide)]

theorem rtaLength_toNat {alen : BitVec 32} (h : alen.toNat < 2^31) :
    (rtaLength alen).toNat = 4 + alen.toNat := by
  have hfour : (4 : BitVec 64).toNat = 4 := rfl
  rw [rtaLength, BitVec.toNat_setWidth, BitVec.toNat_add, signExtend_toNat h, hfour]
  omega

def newEnd (m : Memory UInt8) (alen : BitVec 32) : Nat :=
  roundUp (nlmsgLen m 0).toNat + roundUp (4 + alen.toNat)

/-- The sum that is checked against the bound and becomes the new length. -/
theorem newLen_toNat (m : Memory UInt8) (alen : BitVec 32) (hint : alen.toNat < 2^31)
    (h : newEnd m alen < 2^32) :
    (align (nlmsgLen m 0) + align (rtaLength alen)).toNat = newEnd m alen := by
  unfold newEnd at h ⊢
  have hn := le_roundUp (4 + alen.toNat)
  have hlen : (rtaLength alen).toNat = 4 + alen.toNat := rtaLength_toNat hint
  have hroom : (nlmsgLen m 0).toNat + 3 < 2^32 := by
    have hle := le_roundUp (nlmsgLen m 0).toNat
    omega
  rw [BitVec.toNat_add, align_toNat hroom, align_toNat (by omega), hlen]
  exact Nat.mod_eq_of_lt h

/-- The answer is -1 just where the sum of 32 bits exceeds the bound. -/
theorem rtattrAdd_eq_refused_iff {size : Nat} {m : Memory UInt8} {maxlen type alen : BitVec 32}
    {data : List UInt8} : rtattrAdd size m maxlen type data alen = some (-1, m) ↔
      maxlen < align (nlmsgLen m 0) + align (rtaLength alen) := by
  constructor
  · intro h
    by_contra hcheck
    rw [rtattrAdd, if_neg hcheck] at h
    simp [Option.bind_eq_some_iff] at h
  · intro hcheck
    rw [rtattrAdd, if_pos hcheck]

/-- For a length that is not negative the sum does not wrap, so `rtattr_add` refuses just what does not
fit. -/
theorem rtattrAdd_refuses_iff (size : Nat) (m : Memory UInt8) (maxlen type : BitVec 32) (data : List UInt8)
    (alen : BitVec 32) (hL : (nlmsgLen m 0).toNat < 65536) (hint : alen.toNat < 2^31) :
    rtattrAdd size m maxlen type data alen = some (-1, m) ↔ maxlen.toNat < newEnd m alen := by
  have hle := roundUp_le (nlmsgLen m 0).toNat
  have hle' := roundUp_le (4 + alen.toNat)
  have hend : newEnd m alen = roundUp (nlmsgLen m 0).toNat + roundUp (4 + alen.toNat) := rfl
  rw [rtattrAdd_eq_refused_iff, BitVec.lt_def, newLen_toNat m alen hint (by omega)]

theorem copyData_eq {size rta : Nat} {data : List UInt8} {alen : BitVec 32} (m : Memory UInt8)
    (hdata : alen.toNat ≤ data.length) (hint : alen.toNat < 2^31) (hsize : rta + 4 + alen.toNat ≤ size) :
    copyData size m rta data alen = some (write m (rtaData rta) (data.take alen.toNat)) := by
  have hrta : rtaData rta = rta + 4 := rfl
  by_cases hz : alen = 0
  · simp [copyData, hz]
  · rw [copyData, if_pos hz, memcpy, signExtend_toNat hint, if_pos ⟨by omega, hdata⟩]

theorem storeIn_eq {size off k : Nat} (m : Memory UInt8) (n : Nat) (h : off + k ≤ size) :
    storeIn size m off k n = some (store m off k n) := if_pos h

theorem nlmsgLen_congr {m m' : Memory UInt8} (h : ∀ o, o < 4 → m' o = m o) : nlmsgLen m' 0 = nlmsgLen m 0 := by
  rw [nlmsgLen, nlmsgLen, load_congr fun o _ ho => h o (by omega)]

def putAttr (m : Memory UInt8) (rta type len : Nat) (bytes : List UInt8) (total : Nat) : Memory UInt8 :=
  store (write (store (store m (rta+2) 2 type) rta 2 len) (rtaData rta) bytes) 0 4 total

theorem putAttr_outside (m : Memory UInt8) {rta type len total o : Nat} {bytes : List UInt8}
    (h4 : 4 ≤ o) (ho : o < rta ∨ rta + 4 + bytes.length ≤ o) :
    putAttr m rta type len bytes total o = m o := by
  have hdata : rtaData rta = rta + 4 := rfl
  rw [putAttr, store_outside _ (by omega), write_outside _ (by omega), store_outside _ (by omega),
    store_outside _ (by omega)]

/-- Put behind the length field of the message, an attribute is appended to it. -/
theorem putAttr_appended (m : Memory UInt8) {rta len total : Nat} (type : Nat) {bytes : List UInt8}
    (hrta : 4 ≤ rta) (hlen : len = 4 + bytes.length) (hsmall : len < 65536)
    (htotal : total = rta + roundUp len) (hfits : total < 2^32) :
    Appended m (putAttr m rta type len bytes total) rta (type % 65536) bytes := by
  have hdata : rtaData rta = rta + 4 := rfl
  have hrtaLen : rtaLen (putAttr m rta type len bytes total) rta = len := by
    rw [rtaLen, putAttr, load_store_disjoint _ (by omega), load_write_disjoint _ (by omega), load_store]
    exact Nat.mod_eq_of_lt hsmall
  constructor
  · rw [nlmsgLen_toNat, putAttr, load_store, ← hlen, ← htotal]
    exact Nat.mod_eq_of_lt hfits
  · rw [hrtaLen, hlen]
  · rw [attrAt, payload, hrtaLen, hlen, Nat.add_sub_cancel_left]
    congr 1
    · rw [rtaType, putAttr, load_store_disjoint _ (by omega), load_write_disjoint _ (by omega),
        load_store_disjoint _ (by omega), load_store]
      rfl
    · have hlow : 0 + (LittleEndian.bytes 4 total).length ≤ rtaData rta := by
        rw [bytes_length]
        omega
      rw [putAttr, store.eq_1 _ 0 4, read_write_disjoint _ (.inl hlow), read_write_self]
  · intro o h4 ho
    exact putAttr_outside m h4 (.inl ho)
  · intro o ho
    exact putAttr_outside m (by omega) (.inr ho)

/-- With room for it `rtattr_add` does its stores, none of them behind the new end. -/
theorem rtattrAdd_eq_putAttr {size : Nat} {m : Memory UInt8} {maxlen alen : BitVec 32} {data : List UInt8}
    (type : BitVec 32) (hstart : 0 < (nlmsgLen m 0).toNat) (hdata : alen.toNat ≤ data.length)
    (hroom : newEnd m alen ≤ maxlen.toNat) (hsmall : maxlen.toNat < 65536) (hsize : newEnd m alen ≤ size) :
    rtattrAdd size m maxlen type data alen = some (0,
      putAttr m (roundUp (nlmsgLen m 0).toNat) type.toNat (4 + alen.toNat) (data.take alen.toNat)
        (newEnd m alen)) := by
  have hfour := four_le_roundUp hstart
  have hL := le_roundUp (nlmsgLen m 0).toNat
  have hn := le_roundUp (4 + alen.toNat)
  have hend : newEnd m alen = roundUp (nlmsgLen m 0).toNat + roundUp (4 + alen.toNat) := rfl
  have htotal := newLen_toNat m alen (by omega) (by omega)
  have hrta : (align (nlmsgLen m 0)).toNat = roundUp (nlmsgLen m 0).toNat := align_toNat (by omega)
  rw [hend] at htotal hroom hsize ⊢
  generalize roundUp (nlmsgLen m 0).toNat = rta at hroom hfour hL htotal hrta hsize ⊢
  have hdest : rtaData rta = rta + 4 := rfl
  have hcheck : ¬ maxlen < align (nlmsgLen m 0) + align (rtaLength alen) := by
    rw [BitVec.lt_def, htotal]
    omega
  rw [rtattrAdd, if_neg hcheck, hrta]
  simp only [Option.bind_eq_bind]
  rw [storeIn_eq _ _ (by omega), Option.bind_some, storeIn_eq _ _ (by omega), Option.bind_some,
    copyData_eq _ hdata (by omega) (by omega), Option.bind_some]
  -- the length field read for the last store is still the old one
  rw [nlmsgLen_congr (m := m), htotal, rtaLength_toNat (by omega), putAttr]
  intro o ho
  rw [write_outside _ (by omega), store_outside _ (by omega), store_outside _ (by omega)]

/-- With room for it `rtattr_add` appends the attribute, whatever lies behind the new end. -/
theorem rtattrAdd_appends (m : Memory UInt8) (maxlen type : BitVec 32) (data : List UInt8)
    (alen : BitVec 32) (hstart : 0 < (nlmsgLen m 0).toNat) (hdata : alen.toNat ≤ data.length)
    (hroom : newEnd m alen ≤ maxlen.toNat) (hsmall : maxlen.toNat < 65536) :
    ∃ m', (∀ size, newEnd m alen ≤ size → rtattrAdd size m maxlen type data alen = some (0, m')) ∧
      Appended m m' (roundUp (nlmsgLen m 0).toNat) (type.toNat % 65536) (data.take alen.toNat) := by
  have hfour := four_le_roundUp hstart
  have hn := le_roundUp (4 + alen.toNat)
  have htake : (data.take alen.toNat).length = alen.toNat := by rw [List.length_take]; omega
  have hend : newEnd m alen = roundUp (nlmsgLen m 0).toNat + roundUp (4 + alen.toNat) := rfl
  refine ⟨_, fun size => rtattrAdd_eq_putAttr type hstart hdata hroom hsmall, ?_⟩
  exact putAttr_appended m _ (by omega) (by rw [htake]) (by omega) hend (by omega)

/-- All of an attribute or nothing of it: the answer -1 with the message as it was just where the
attribute does not fit, and otherwise the attribute behind the message, with no store at or behind
the new end. -/
structure AppendsOrRefuses (m : Memory UInt8) (maxlen type alen : BitVec 32) (data : List UInt8)
    (stored : Nat) : Prop where
  refuses : ∀ size, rtattrAdd size m maxlen type data alen = some (-1, m) ↔ maxlen.toNat < newEnd m alen
  appends : newEnd m alen ≤ maxlen.toNat →
    ∃ m', (∀ size, newEnd m alen ≤ size → rtattrAdd size m maxlen type data alen = some (0, m')) ∧
      Appended m m' (roundUp (nlmsgLen m 0).toNat) stored (data.take alen.toNat)

/-- A message of at least one byte either gets all of the attribute, with the type it can hold, or
stays as it was. -/
theorem rtattrAdd_appends_or_refuses {m : Memory UInt8} {maxlen alen : BitVec 32} {data : List UInt8}
    (type : BitVec 32) (hstart : 0 < (nlmsgLen m 0).toNat) (hle : (nlmsgLen m 0).toNat ≤ maxlen.toNat)
    (hmax : maxlen.toNat ≤ 65535) (hint : alen.toNat < 2^31) (hdata : alen.toNat ≤ data.length) :
    AppendsOrRefuses m maxlen type alen data (type.toNat % 65536) := by
  constructor
  · intro size
    exact rtattrAdd_refuses_iff size m maxlen type data alen (by omega) hint
  · intro hroom
    exact rtattrAdd_appends m maxlen type data alen hstart hdata hroom (by omega)

/-- A header and three bytes of payload, in a buffer that has just room for them. -/
theorem rtattrAdd_appends_or_refuses_full :
    AppendsOrRefuses (store (fun _ => 0xaa) 0 4 16) 24 5 3 [1, 2, 3] 5 :=
  rtattrAdd_appends_or_refuses 5 (by decide) (by decide) (by decide) (by decide) (by decide)

/-- On a message of length 0 the attribute is put over the length itself, which is then read again; and
of a type beyond 16 bits only the low ones are stored. -/
theorem rtattrAdd_over_length :
    (¬ ∀ (m : Memory UInt8) (maxlen type alen : BitVec 32) (data : List UInt8),
      (nlmsgLen m 0).toNat ≤ maxlen.toNat → maxlen.toNat ≤ 65535 → alen.toNat < 2^31 →
      alen.toNat ≤ data.length → type.toNat < 65536 → AppendsOrRefuses m maxlen type alen data type.toNat) ∧
    ¬ ∀ (m : Memory UInt8) (maxlen type alen : BitVec 32) (data : List UInt8),
      (nlmsgLen m 0).toNat ≤ maxlen.toNat → maxlen.toNat ≤ 65535 → alen.toNat < 2^31 →
      alen.toNat ≤ data.length → 16 ≤ (nlmsgLen m 0).toNat →
      AppendsOrRefuses m maxlen type alen data type.toNat := by
  constructor
  · intro hall
    have hlen : (rtattrAdd 16 (fun _ => 0) 16 1 [] 0).map (fun r => (nlmsgLen r.2 0).toNat) = some 0x10008 := by
      decide +kernel
    obtain ⟨m', hadd, happ⟩ := (hall (fun _ => 0) 16 1 0 [] (by decide) (by decide) (by decide) (by decide)
      (by decide)).appends (by decide)
    rw [hadd 16 (by decide), Option.map_some, happ.len] at hlen
    exact absurd hlen (by decide)
  · intro hall
    have htype : (rtattrAdd 32 (store (fun _ => 0) 0 4 16) 32 0x10000 [] 0).map (fun r => attrAt r.2 16) =
        some (0, []) := by decide +kernel
    obtain ⟨m', hadd, happ⟩ := (hall (store (fun _ => 0) 0 4 16) 32 0x10000 0 [] (by decide) (by decide)
      (by decide) (by decide) (by decide)).appends (by decide)
    have hround : roundUp (nlmsgLen (store (fun _ => 0) 0 4 16) 0).toNat = 16 := by decide
    rw [hadd 32 (by decide), Option.map_some, ← hround, happ.attr] at htype
    exact absurd htype (by decide)

end LinuxDrivers.Netlink
