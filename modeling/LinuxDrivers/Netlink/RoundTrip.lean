import LinuxDrivers.Netlink.Chain
import LinuxDrivers.Netlink.RouteRequest

/-! What set_route's `rtattr_add` appends, netmon's `parseRtattr` finds again. -/
namespace LinuxDrivers.Netlink
open ByteMemory LittleEndian

/-- An attribute to be added; its length is passed as an `int`. -/
structure Attribute where
  type : Nat
  data : List UInt8
  int : data.length < 2^31

def addAll (m : Memory UInt8) : List Attribute → Option (Memory UInt8)
  | [] => some m
  | a :: attrs =>
    match rtattrAdd sizeofRequest m (BitVec.ofNat 32 sizeofRequest) (BitVec.ofNat 32 a.type) a.data
        (BitVec.ofNat 32 a.data.length) with
    | some (r, m') => if r = 0 then addAll m' attrs else none
    | none => none

def lastOf (attrs : List Attribute) (type : Nat) : Option Attribute :=
  (attrs.filter (·.type = type)).getLast?

def Attribute.encoded (a : Attribute) : Nat × Nat × List UInt8 := (4 + a.data.length, a.type, a.data)

def encodedAt (m : Memory UInt8) (rta : Nat) : Nat × Nat × List UInt8 := (rtaLen m rta, attrAt m rta)

theorem Building.added {m m' : Memory UInt8} {n : Nat} {attrs : List (Nat × List UInt8)} {a : Attribute}
    (h : Building m n attrs) (hn : n ≤ sizeofRequest) (htype : a.type < 65536)
    (hadd : Netlink.rtattrAdd sizeofRequest m (BitVec.ofNat 32 sizeofRequest) (BitVec.ofNat 32 a.type) a.data
      (BitVec.ofNat 32 a.data.length) = some (0, m')) :
    ∃ n', n' ≤ sizeofRequest ∧ Building m' n' (attrs ++ [(a.type, a.data)]) := by
  have hsize : sizeofRequest = 4124 := rfl
  have hint := a.int
  have halen : (BitVec.ofNat 32 a.data.length).toNat = a.data.length := by
    rw [BitVec.toNat_ofNat, Nat.mod_eq_of_lt (by omega)]
  have hround : roundUp (nlmsgLen m 0).toNat = n := by
    have haligned := h.aligned
    rw [h.len, roundUp]
    omega
  have hroom : n + roundUp (4 + a.data.length) ≤ sizeofRequest := by
    by_contra hover
    have href := (rtattrAdd_refuses_iff sizeofRequest m (BitVec.ofNat 32 sizeofRequest) (BitVec.ofNat 32 a.type)
      a.data (BitVec.ofNat 32 a.data.length) (by rw [h.len]; omega) (by omega)).mpr
      (by rw [newEnd, hround, halen, BitVec.toNat_ofNat]; omega)
    rw [href] at hadd
    exact absurd (Prod.mk.inj (Option.some.inj hadd)).1 (by decide)
  obtain ⟨m₁, hadd₁, hm₁, _⟩ := h.rtattrAdd a.type a.data (BitVec.ofNat 32 a.data.length) htype
    (Nat.le_of_eq halen) (by rw [halen]; exact hroom)
  rw [hadd₁] at hadd
  obtain rfl := congrArg Prod.snd (Option.some.inj hadd)
  rw [halen, List.take_length] at hm₁
  exact ⟨_, hroom, hm₁⟩

theorem addAll_building {max : Nat} (hmax : max < 65536) {attrs : List Attribute}
    (htypes : ∀ a ∈ attrs, a.type ≤ max) {m m' : Memory UInt8} {n : Nat} {done : List (Nat × List UInt8)}
    (h : Building m n done) (hn : n ≤ sizeofRequest) (hadd : addAll m attrs = some m') :
    ∃ n', n' ≤ sizeofRequest ∧ Building m' n' (done ++ attrs.map fun a => (a.type, a.data)) := by
  induction attrs generalizing m n done with
  | nil =>
    obtain rfl := Option.some.inj hadd
    exact ⟨n, hn, by rwa [List.map_nil, List.append_nil]⟩
  | cons a attrs ih =>
    rw [addAll] at hadd
    split at hadd
    · rename_i r m₁ hcall
      split at hadd
      · rename_i hr
        subst hr
        have htype := htypes a List.mem_cons_self
        obtain ⟨n₁, hn₁, hm₁⟩ := h.added hn (by omega) hcall
        have hrest := ih (fun b hb => htypes b (List.mem_cons_of_mem a hb)) hm₁ hn₁ hadd
        rwa [List.append_assoc] at hrest
      · cases hadd
    · cases hadd

theorem Attrs.four_le {m : Memory UInt8} {stop pos rta : Nat} {offs : List Nat} (h : Attrs m stop pos offs)
    (hm : rta ∈ offs) : 4 ≤ rtaLen m rta := by
  induction h with
  | done => cases hm
  | attr hlen _ _ ih =>
    rcases List.mem_cons.mp hm with rfl | hm
    · exact hlen
    · exact ih hm

/-- The last header of a type is the one of the last attribute of that type. -/
theorem lastAt_eq_lastOf {m : Memory UInt8} {stop pos : Nat} {offs : List Nat} {attrs : List Attribute}
    (h : Attrs m stop pos offs) (hmap : offs.map (attrAt m) = attrs.map fun a => (a.type, a.data)) (t : Nat) :
    (lastAt m offs t).map (encodedAt m) = (lastOf attrs t).map Attribute.encoded := by
  have henc : offs.map (encodedAt m) = attrs.map Attribute.encoded := by
    have hlen : offs.map (encodedAt m) = (offs.map (attrAt m)).map fun a => (4 + a.2.length, a) := by
      rw [List.map_map]
      apply List.map_congr_left
      intro rta hm
      have hfour := h.four_le hm
      have hsize : (payload m rta).length = rtaLen m rta - 4 := read_length _ _ _
      simp only [encodedAt, Function.comp_apply, attrAt, hsize, Nat.add_sub_cancel' hfour]
    rw [hlen, hmap, List.map_map]
    rfl
  have hfilter : (offs.filter (rtaType m · = t)).map (encodedAt m) =
      (attrs.filter (·.type = t)).map Attribute.encoded := by
    have hl : (offs.map (encodedAt m)).filter (fun e => decide (e.2.1 = t)) =
        (offs.filter (rtaType m · = t)).map (encodedAt m) := List.filter_map
    have hr : (attrs.map Attribute.encoded).filter (fun e => decide (e.2.1 = t)) =
        (attrs.filter (·.type = t)).map Attribute.encoded := List.filter_map
    rw [← hl, henc, hr]
  rw [lastAt, lastOf, ← List.getLast?_map, ← List.getLast?_map, hfilter]

/-- Whatever the buffer held before, netmon finds for each type the last attribute of that type
that set_route added, with its length and payload. -/
theorem parseRtattr_addAll {m m' : Memory UInt8} {max : Nat} {attrs : List Attribute}
    (hstart : nlmsgLen m 0 = 28) (hmax : max < 65536) (htypes : ∀ a ∈ attrs, a.type ≤ max)
    (hadd : addAll m attrs = some m') (t : Nat) (ht : t ≤ max) :
    ((parseRtattr m' max 28 (nlmsgLen m' 0 - 28)).tb t).map (encodedAt m') =
      (lastOf attrs t).map Attribute.encoded := by
  have hsize : sizeofRequest = 4124 := rfl
  have h0 : Building m 28 [] := ⟨by rw [hstart]; rfl, Nat.le_refl _, rfl, [], .done (Nat.le_refl _), rfl⟩
  obtain ⟨n, hn, hlen, hge, -, offs, hwalk, hmap⟩ := addAll_building hmax htypes h0 (by decide) hadd
  have hheader : requestHeader = 28 := rfl
  have hint : (nlmsgLen m' 0 - 28).toInt = n - 28 := by
    have hsub : (nlmsgLen m' 0 - 28).toNat = n - 28 := by
      rw [BitVec.toNat_sub_of_le (by rw [BitVec.le_def, hlen]; exact hge), hlen]
      rfl
    rw [BitVec.toInt_eq_toNat_of_lt (by omega), hsub]
    omega
  rw [parseRtattr_eq, parseRtattrInto_tb _ hint ht, hwalk.chain_eq]
  exact lastAt_eq_lastOf hwalk hmap t

/-- A buffer full of stale bytes, an empty attribute and two of one type. -/
theorem parseRtattr_addAll_repeated :
    let m : Memory UInt8 := store (fun _ => 0xaa) 0 4 28
    let attrs : List Attribute := [⟨5, [1, 2, 3], by decide⟩, ⟨1, [], by decide⟩, ⟨5, [4], by decide⟩]
    ∃ m', addAll m attrs = some m' ∧
      ((parseRtattr m' 65535 28 (nlmsgLen m' 0 - 28)).tb 5).map (encodedAt m') = some (5, 5, [4]) ∧
      ((parseRtattr m' 65535 28 (nlmsgLen m' 0 - 28)).tb 1).map (encodedAt m') = some (4, 1, []) := by
  intro m attrs
  have hsome : (addAll m attrs).isSome := by decide +kernel
  obtain ⟨m', hm'⟩ := Option.isSome_iff_exists.mp hsome
  have hstart : nlmsgLen m 0 = 28 := by decide +kernel
  have hfind := fun t (ht : t ≤ 65535) => parseRtattr_addAll hstart (by decide) (by simp [attrs]) hm' t ht
  exact ⟨m', hm', hfind 5 (by decide), hfind 1 (by decide)⟩

end LinuxDrivers.Netlink
