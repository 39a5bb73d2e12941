import LinuxDrivers.Netlink.SetRoute

/-! The attributes `do_route` puts into its request, against the route it was asked for. -/
namespace LinuxDrivers.Netlink
open ByteMemory LittleEndian

/-- What a command line argument leaves in an `_inet_addr`: nothing was given, or `read_addr`
accepted the text. -/
inductive Given (inet : InetPton) : InetAddr → Option (Family × List UInt8) → Prop
  | absent {a : InetAddr} (h : a.bitlen = 0) : Given inet a none
  | accepted (text : String) (old : InetAddr) {a : InetAddr} {bytes : List UInt8}
      (h : readAddr inet text old = (1, a)) (hp : inet.parse (addrFamily text) text = some bytes) :
      Given inet a (some (addrFamily text, bytes))

def IsInet6 (addr : Option (Family × List UInt8)) : Prop := addr.map Prod.fst = some .inet6

/-- The attributes of the route asked for. An absent destination has no bytes. -/
def routeAttrs (dst gw : Option (Family × List UInt8)) (defGw ifIdx : BitVec 32) : List (Nat × List UInt8) :=
  (gw.map (fun g => (rtaGateway, g.2))).toList ++
    if defGw = 0 then [(rtaDst, (dst.map Prod.snd).getD []), (rtaOif, bytes 4 ifIdx.toNat)] else []

structure Encodes (m : Memory UInt8) (attrs : List (Nat × List UInt8)) : Prop where
  fits : (nlmsgLen m 0).toNat ≤ sizeofRequest
  walk : ∃ offs, Attrs m (nlmsgLen m 0).toNat requestHeader offs ∧ offs.map (attrAt m) = attrs

structure Building (m : Memory UInt8) (n : Nat) (attrs : List (Nat × List UInt8)) : Prop where
  len : (nlmsgLen m 0).toNat = n
  start : requestHeader ≤ n
  aligned : n % 4 = 0
  walk : ∃ offs, Attrs m n requestHeader offs ∧ offs.map (attrAt m) = attrs

def SameFrom (n : Nat) (m m' : Memory UInt8) : Prop := ∀ o, n ≤ o → m' o = m o

theorem SameFrom.trans {n n' : Nat} {m m' m'' : Memory UInt8} (h : SameFrom n m m') (h' : SameFrom n' m' m'')
    (hle : n ≤ n') : SameFrom n' m m'' := by
  intro o ho
  rw [h' o ho, h o (Nat.le_trans hle ho)]

theorem SameFrom.store {n off k : Nat} {m m' : Memory UInt8} (h : SameFrom n m m') (v : Nat)
    (hoff : off + k ≤ n) : SameFrom n m (LittleEndian.store m' off k v) := by
  intro o ho
  rw [store_outside m' (by omega), h o ho]

theorem nlmsgLen_store (m : Memory UInt8) {off k n : Nat} (h : 4 ≤ off) :
    nlmsgLen (store m off k n) 0 = nlmsgLen m 0 := by
  apply nlmsgLen_congr
  intro o ho
  exact store_outside m (.inl (by omega))

/-- Stores to the fields of the header leave the attributes as they are. -/
theorem Building.store {m : Memory UInt8} {n : Nat} {attrs : List (Nat × List UInt8)} (h : Building m n attrs)
    (off k v : Nat) (hlow : 4 ≤ off) (hhigh : off + k ≤ requestHeader) :
    Building (store m off k v) n attrs := by
  obtain ⟨offs, hwalk, hmap⟩ := h.walk
  have hsame : ∀ o, requestHeader ≤ o → o < n → LittleEndian.store m off k v o = m o :=
    fun o ho _ => store_outside m (by omega)
  obtain ⟨hwalk', hmap'⟩ := hwalk.congr hsame
  exact ⟨by rw [nlmsgLen_store m hlow, h.len], h.start, h.aligned, offs, hwalk', hmap'.trans hmap⟩

theorem initRequest_building (nlRequest : Memory UInt8) (cmd flags : BitVec 32) (dst : InetAddr) :
    Building (initRequest nlRequest cmd flags dst) requestHeader [] := by
  have h0 : Building (LittleEndian.store nlRequest 0 4 requestHeader) requestHeader [] := by
    refine ⟨?_, Nat.le_refl _, rfl, [], .done (Nat.le_refl _), rfl⟩
    rw [nlmsgLen_toNat, load_store]
    rfl
  unfold initRequest
  dsimp only
  -- every later statement stores to a field behind `nlmsg_len`
  split <;> split <;> repeat' first
    | exact h0
    | refine Building.store ?_ _ _ _ (by decide) (by decide)

theorem initRequest_same (nlRequest : Memory UInt8) (cmd flags : BitVec 32) (dst : InetAddr) :
    SameFrom requestHeader nlRequest (initRequest nlRequest cmd flags dst) := by
  unfold initRequest
  dsimp only
  split <;> split <;> repeat' first
    | exact fun _ _ => rfl
    | refine SameFrom.store ?_ _ (by decide)

theorem Building.rtattrAdd {m : Memory UInt8} {n : Nat} {attrs : List (Nat × List UInt8)} (h : Building m n attrs)
    (type : Nat) (data : List UInt8) (alen : BitVec 32) (htype : type < 65536)
    (hdata : alen.toNat ≤ data.length) (hroom : n + roundUp (4 + alen.toNat) ≤ sizeofRequest) :
    ∃ m', rtattrAdd sizeofRequest m (BitVec.ofNat 32 sizeofRequest) (BitVec.ofNat 32 type) data alen = some (0, m') ∧
      Building m' (n + roundUp (4 + alen.toNat)) (attrs ++ [(type, data.take alen.toNat)]) ∧
      SameFrom (n + roundUp (4 + alen.toNat)) m m' := by
  obtain ⟨hlen, hstart, haligned, offs, hwalk, hmap⟩ := h
  have hheader : requestHeader = 28 := rfl
  have hround : roundUp (nlmsgLen m 0).toNat = n := by
    rw [hlen, roundUp]
    omega
  have hmod : roundUp (4 + alen.toNat) % 4 = 0 := Nat.mul_mod_left _ _
  have hge := le_roundUp (4 + alen.toNat)
  have htake : (data.take alen.toNat).length = alen.toNat := by rw [List.length_take]; omega
  have hend : newEnd m alen = n + roundUp (4 + alen.toNat) := by rw [newEnd, hround]
  obtain ⟨m', hadd, happ⟩ := rtattrAdd_appends m (BitVec.ofNat 32 sizeofRequest)
    (BitVec.ofNat 32 type) data alen (by omega) hdata (by rw [hend]; exact hroom) (by decide)
  have htypeNat : (BitVec.ofNat 32 type).toNat % 65536 = type := by
    rw [BitVec.toNat_ofNat]
    omega
  rw [hround, htypeNat] at happ
  refine ⟨m', hadd sizeofRequest (by rw [hend]; exact hroom), ?_, fun o ho => happ.after o (by omega)⟩
  obtain ⟨hwalk', hmap'⟩ := hwalk.congr (fun o ho hlt => happ.before o (by omega) hlt)
  have hlast : Attrs m' (n + roundUp (4 + alen.toNat)) n [n] := by
    have hrta := happ.rtaLen
    rw [htake] at hrta
    exact .attr (by omega) (by omega) (.done (by rw [hrta]))
  constructor
  · rw [happ.len, htake]
  · omega
  · omega
  · refine ⟨offs ++ [n], hwalk'.append (by decide) haligned hstart (by omega) hlast, ?_⟩
    rw [List.map_append, hmap', hmap, List.map_singleton, happ.attr]

theorem Building.add {m : Memory UInt8} {n : Nat} {attrs : List (Nat × List UInt8)} (h : Building m n attrs)
    (type : Nat) (data : List UInt8) (alen : BitVec 32) (htype : type < 65536)
    (hdata : alen.toNat ≤ data.length) (hroom : n + roundUp (4 + alen.toNat) ≤ sizeofRequest) :
    ∃ m', requestAdd m type data alen = some m' ∧
      Building m' (n + roundUp (4 + alen.toNat)) (attrs ++ [(type, data.take alen.toNat)]) ∧
      SameFrom (n + roundUp (4 + alen.toNat)) m m' := by
  obtain ⟨m', hadd, hm', hsame⟩ := h.rtattrAdd type data alen htype hdata hroom
  exact ⟨m', by rw [requestAdd, hadd]; rfl, hm', hsame⟩

/-- A length of -16 passes the bound check, since the sum wraps, and `memcpy` gets it as a
`size_t`. -/
theorem requestAdd_overrun {m : Memory UInt8} {n : Nat} (hlen : (nlmsgLen m 0).toNat = n)
    (hn : n = 28 ∨ n = 36) (type : Nat) (data : List UInt8) : requestAdd m type data (-16) = none := by
  have hcheck : ¬ BitVec.ofNat 32 sizeofRequest < align (nlmsgLen m 0) + align (rtaLength (-16)) := by
    rw [show nlmsgLen m 0 = BitVec.ofNat 32 n by rw [← hlen, BitVec.ofNat_toNat, BitVec.setWidth_eq]]
    rcases hn with rfl | rfl <;> decide
  have hcopy : ∀ (m₂ : Memory UInt8) (rta : Nat), copyData sizeofRequest m₂ rta data (-16) = none := by
    intro m₂ rta
    have hsize : ((-16 : BitVec 32).signExtend 64).toNat = 2^64 - 16 := by decide
    rw [copyData, if_pos (by decide), memcpy, hsize, if_neg]
    intro h
    have := h.1
    simp only [sizeofRequest] at this
    omega
  rw [requestAdd, rtattrAdd, if_neg hcheck]
  simp only [Option.bind_eq_bind, hcopy, Option.bind_none, Option.map_eq_none_iff]
  simp

/-- An address is absent, or IPv4 with its bytes in front, or IPv6. -/
theorem Given.cases {inet : InetPton} {a : InetAddr} {addr : Option (Family × List UInt8)}
    (h : Given inet a addr) :
    (addr = none ∧ a.bitlen = 0) ∨
    (∃ bytes, addr = some (.inet, bytes) ∧ a.bitlen = 32 ∧ a.data.take 4 = bytes) ∨
    (∃ bytes, addr = some (.inet6, bytes) ∧ a.bitlen = 128) := by
  cases h with
  | absent h => exact .inl ⟨rfl, h⟩
  | @accepted text old _ bytes h hp =>
    obtain ⟨bytes', hp', _, hbitlen, hdata⟩ := readAddr_accepted h
    obtain rfl : bytes = bytes' := Option.some.inj (hp.symm.trans hp')
    have hlen := inet.length_eq _ _ _ hp
    generalize addrFamily text = family at hbitlen hlen
    cases family with
    | inet =>
      have htake : a.data.take 4 = bytes := by
        rw [hdata, List.take_append_of_le_length (by rw [hlen]; rfl)]
        exact List.take_of_length_le (by rw [hlen]; rfl)
      exact .inr (.inl ⟨bytes, rfl, hbitlen, htake⟩)
    | inet6 => exact .inr (.inr ⟨bytes, rfl, hbitlen⟩)

theorem Given.bitlen_inet6 {inet : InetPton} {a : InetAddr} {addr : Option (Family × List UInt8)}
    (h : Given inet a addr) (h6 : IsInet6 addr) : a.bitlen = 128 := by
  rcases h.cases with ⟨rfl, _⟩ | ⟨bytes, rfl, _⟩ | ⟨bytes, _, hb⟩
  · cases h6
  · cases h6
  · exact hb

theorem alen_zero {a : InetAddr} (h : a.bitlen = 0) : a.alen = 0 := by
  rw [InetAddr.alen, h]
  decide

theorem alen_inet {a : InetAddr} (h : a.bitlen = 32) : a.alen = 4 := by
  rw [InetAddr.alen, h]
  decide

/-- As a signed `char` 128 is -128. -/
theorem alen_inet6 {a : InetAddr} (h : a.bitlen = 128) : a.alen = -16 := by
  rw [InetAddr.alen, h]
  decide

/-- Without an IPv6 gateway the first step gives a request of 28 or 36 bytes. -/
theorem addGateway_building {inet : InetPton} {m : Memory UInt8} {gw : InetAddr}
    {g : Option (Family × List UInt8)} (h : Building m 28 []) (hg : Given inet gw g) (h6 : ¬ IsInet6 g) :
    ∃ m' n, addGateway m gw = some m' ∧ (n = 28 ∨ n = 36) ∧
      Building m' n (g.map (fun g => (rtaGateway, g.2))).toList ∧ SameFrom 36 m m' := by
  rcases hg.cases with ⟨rfl, hb⟩ | ⟨bytes, rfl, hb, hbytes⟩ | ⟨bytes, rfl, _⟩
  · exact ⟨m, 28, by rw [addGateway, if_neg (not_not_intro hb)], .inl rfl, h, fun _ _ => rfl⟩
  · obtain ⟨m', hadd, hm', hsame⟩ := h.add rtaGateway gw.data 4 (by decide)
      (by rw [gw.size]; decide) (by decide)
    rw [show (4 : BitVec 32).toNat = 4 by rfl, hbytes] at hm'
    refine ⟨_, 36, ?_, .inr rfl,
      (hm'.store rtmScope 1 0 (by decide) (by decide)).store rtmFamily 1 gw.family.toNat
        (by decide) (by decide), (SameFrom.store hsame 0 (by decide)).store _ (by decide)⟩
    rw [addGateway, if_pos (by rw [hb]; decide), alen_inet hb, hadd]
    rfl
  · exact absurd rfl h6

theorem addGateway_inet6 {inet : InetPton} {m : Memory UInt8} {gw : InetAddr}
    {g : Option (Family × List UInt8)} (h : Building m 28 []) (hg : Given inet gw g) (h6 : IsInet6 g) :
    addGateway m gw = none := by
  have hb := hg.bitlen_inet6 h6
  rw [addGateway, if_pos (by rw [hb]; decide), alen_inet6 hb, requestAdd_overrun h.len (.inl rfl)]
  rfl

/-- Without an IPv6 destination the attributes of the route are added. -/
theorem addRoute_building {inet : InetPton} {m : Memory UInt8} {dst : InetAddr} {n : Nat}
    {d : Option (Family × List UInt8)} {attrs : List (Nat × List UInt8)} (h : Building m n attrs)
    (hn : n = 28 ∨ n = 36) (hd : Given inet dst d) (h6 : ¬ IsInet6 d) (ifIdx : BitVec 32) :
    ∃ m', addRoute m dst 0 ifIdx = some m' ∧
      Encodes m' (attrs ++ [(rtaDst, (d.map Prod.snd).getD []), (rtaOif, bytes 4 ifIdx.toNat)]) ∧
      SameFrom 52 m m' := by
  have hsize : sizeofRequest = 4124 := rfl
  obtain ⟨k, hk, halen, htake⟩ : ∃ k : BitVec 32, k.toNat ≤ 4 ∧ dst.alen = k ∧
      dst.data.take k.toNat = (d.map Prod.snd).getD [] := by
    rcases hd.cases with ⟨rfl, hb⟩ | ⟨bytes, rfl, hb, hbytes⟩ | ⟨bytes, rfl, _⟩
    · exact ⟨0, by decide, alen_zero hb, rfl⟩
    · exact ⟨4, by decide, alen_inet hb, hbytes⟩
    · exact absurd rfl h6
  have hround := roundUp_le (4 + k.toNat)
  obtain ⟨m₁, hadd₁, hm₁, hsame₁⟩ := h.add rtaDst dst.data k (by decide)
    (by rw [dst.size]; omega) (by omega)
  have hround₂ : roundUp (4 + (4 : BitVec 32).toNat) = 8 := rfl
  obtain ⟨m₂, hadd₂, hm₂, hsame₂⟩ := hm₁.add rtaOif (bytes 4 ifIdx.toNat) 4 (by decide)
    (by rw [bytes_length]; decide) (by omega)
  have hstep : roundUp (4 + k.toNat) ≤ 8 := by
    rw [roundUp]
    omega
  refine ⟨m₂, ?_, ⟨?_, ?_⟩, fun o ho => hsame₁.trans hsame₂ (by omega) o (by omega)⟩
  · rw [addRoute, if_pos rfl, halen, hadd₁]
    exact hadd₂
  · rw [hm₂.len]
    omega
  · obtain ⟨offs, hwalk, hmap⟩ := hm₂.walk
    refine ⟨offs, by rw [hm₂.len]; exact hwalk, ?_⟩
    rw [hmap, htake, List.append_assoc]
    rfl

theorem addRoute_inet6 {inet : InetPton} {m : Memory UInt8} {dst : InetAddr} {n : Nat}
    {d : Option (Family × List UInt8)} {attrs : List (Nat × List UInt8)} (h : Building m n attrs)
    (hn : n = 28 ∨ n = 36) (hd : Given inet dst d) (h6 : IsInet6 d) (ifIdx : BitVec 32) :
    addRoute m dst 0 ifIdx = none := by
  rw [addRoute, if_pos rfl, alen_inet6 (hd.bitlen_inet6 h6), requestAdd_overrun h.len hn]
  rfl

/-- `do_route` stays inside `nl_request` and encodes the route asked for exactly when it has no
IPv6 address to put into the request. -/
theorem doRoute_encodes_iff (inet : InetPton) (nlRequest : Memory UInt8) (cmd flags defGw ifIdx : BitVec 32)
    {dst gw : InetAddr} {d g : Option (Family × List UInt8)} (hd : Given inet dst d) (hg : Given inet gw g) :
    (∃ req, doRoute nlRequest cmd flags dst gw defGw ifIdx = some req ∧
      Encodes req (routeAttrs d g defGw ifIdx)) ↔ ¬ IsInet6 g ∧ (defGw = 0 → ¬ IsInet6 d) := by
  have hinit : Building (initRequest nlRequest cmd flags dst) 28 [] := initRequest_building _ _ _ _
  constructor
  · rintro ⟨req, hrun, _⟩
    obtain ⟨m, hm, hroute⟩ := doRoute_eq_some_iff.mp hrun
    have h6 : ¬ IsInet6 g := by
      intro h6
      rw [addGateway_inet6 hinit hg h6] at hm
      cases hm
    refine ⟨h6, ?_⟩
    rintro rfl hd6
    obtain ⟨m', n, hm', hn, hb, _⟩ := addGateway_building hinit hg h6
    obtain rfl : m = m' := Option.some.inj (hm.symm.trans hm')
    rw [addRoute_inet6 hb hn hd hd6] at hroute
    cases hroute
  · rintro ⟨h6, hd6⟩
    obtain ⟨m, n, hm, hn, hb, _⟩ := addGateway_building hinit hg h6
    by_cases hz : defGw = 0
    · subst hz
      obtain ⟨req, hroute, henc, _⟩ := addRoute_building hb hn hd (hd6 rfl) ifIdx
      refine ⟨req, doRoute_eq_some_iff.mpr ⟨m, hm, hroute⟩, ?_⟩
      rw [routeAttrs, if_pos rfl]
      exact henc
    · refine ⟨m, doRoute_eq_some_iff.mpr ⟨m, hm, by rw [addRoute, if_neg hz]⟩, ?_, ?_⟩
      · rw [hb.len]
        rcases hn with rfl | rfl <;> decide
      · rw [hb.len, routeAttrs, if_neg hz, List.append_nil]
        exact hb.walk

/-- `inet_pton` on the texts of the two examples below. -/
def twoAddresses : InetPton where
  parse
    | .inet, "10.0.0.1" => some [10, 0, 0, 1]
    | .inet6, "::1" => some [0, 0, 0, 0, 0, 0, 0, 0, 0, 0, 0, 0, 0, 0, 0, 1]
    | _, _ => none
  length_eq family text bytes h := by
    split at h
    · cases h; rfl
    · cases h; rfl
    · cases h

/-- `add to 10.0.0.1` on the interface with index 2. -/
theorem doRoute_encodes_inet :
    ∃ req, doRoute (fun _ => 0) 24 0x600 (readAddr twoAddresses "10.0.0.1" .zero).2 .zero 0 2 = some req ∧
      Encodes req [(1, [10, 0, 0, 1]), (4, [2, 0, 0, 0])] := by
  have hfam : addrFamily "10.0.0.1" = .inet := by decide
  have hd : Given twoAddresses (readAddr twoAddresses "10.0.0.1" .zero).2 (some (.inet, [10, 0, 0, 1])) :=
    hfam ▸ .accepted "10.0.0.1" .zero rfl (by rw [hfam]; rfl)
  exact (doRoute_encodes_iff twoAddresses (fun _ => 0) 24 0x600 0 2 hd (.absent rfl)).mpr
    ⟨nofun, fun _ => nofun⟩

/-- `add to ::1` on the interface with index 2: the copy of the destination leaves `nl_request`. -/
theorem doRoute_overruns_inet6 :
    ¬ ∀ (inet : InetPton) (nlRequest : Memory UInt8) (cmd flags defGw ifIdx : BitVec 32) (dst gw : InetAddr)
      (d g : Option (Family × List UInt8)), Given inet dst d → Given inet gw g →
      ∃ req, doRoute nlRequest cmd flags dst gw defGw ifIdx = some req ∧
        Encodes req (routeAttrs d g defGw ifIdx) := by
  intro h
  have hfam : addrFamily "::1" = .inet6 := by decide
  have hd : Given twoAddresses (readAddr twoAddresses "::1" .zero).2
      (some (.inet6, [0, 0, 0, 0, 0, 0, 0, 0, 0, 0, 0, 0, 0, 0, 0, 1])) :=
    hfam ▸ .accepted "::1" .zero rfl (by rw [hfam]; rfl)
  obtain ⟨req, hrun, _⟩ := h twoAddresses (fun _ => 0) 24 0x600 0 2 _ .zero _ none hd (.absent rfl)
  obtain ⟨m, hm, hroute⟩ := doRoute_eq_some_iff.mp hrun
  obtain rfl : _ = m := Option.some.inj hm
  rw [addRoute_inet6 (initRequest_building _ _ _ _) (.inl rfl) hd rfl] at hroute
  cases hroute

end LinuxDrivers.Netlink
