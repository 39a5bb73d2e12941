import LinuxDrivers.Netlink.AnyOrder
import LinuxDrivers.Netlink.Multicast
import LinuxDrivers.Netlink.RoundTrip

/-! From the command line of set_route to the receiver of its request: what `parseRtattr` reads from the
bytes sent, against the route configuration that the words on the command line stand for. -/
namespace LinuxDrivers.Netlink
open ByteMemory LittleEndian

variable {inet : InetPton}

def Address.bytes (addr : Address inet) : List UInt8 :=
  (inet.parse (addrFamily addr.text) addr.text).get addr.accepted

def Address.family (addr : Address inet) : Family := addrFamily addr.text

def RouteConfig.isDefault (cfg : RouteConfig inet) : Bool := cfg.gw.any (·.1)

def RouteConfig.Ipv4 (cfg : RouteConfig inet) : Prop :=
  (∀ gw, cfg.gw = some gw → gw.2.family = .inet) ∧
    (cfg.isDefault = false → ∀ addr, cfg.dst = some addr → addr.family = .inet)

def RouteConfig.attrs (env : Environment) (cfg : RouteConfig env.inet) : List (Nat × List UInt8) :=
  (cfg.gw.map fun gw => (rtaGateway, gw.2.bytes)).toList ++
    if cfg.isDefault then []
    else [(rtaDst, (cfg.dst.map Address.bytes).getD []), (rtaOif, bytes 4 (cfg.dev.elim 0 env.ifNametoindex).toNat)]

/-- What a receiver finds in a request at the start of its memory: the command, and of each type of
attribute the data. -/
structure Decodes (env : Environment) (cfg : RouteConfig env.inet) (m : Memory UInt8) : Prop where
  type : nlmsgType m 0 = if cfg.isAdd then rtmNewroute else rtmDelroute
  flags : nlmsgFlags m 0 = if cfg.isAdd then 0x601 else 0x1
  attrs : ∀ max t, t ≤ max →
    ((parseRtattr m max requestHeader (nlmsgLen m 0 - 28)).tb t).map (payload m) = (cfg.attrs env).lookup t

def SameHead (m m' : Memory UInt8) : Prop := ∀ o, 4 ≤ o → o < 16 → m' o = m o

theorem SameHead.trans {m m' m'' : Memory UInt8} (h : SameHead m m') (h' : SameHead m' m'') : SameHead m m'' := by
  intro o hlow hhigh
  rw [h' o hlow hhigh, h o hlow hhigh]

theorem SameHead.store {m m' : Memory UInt8} (h : SameHead m m') {off k : Nat} (v : Nat)
    (hoff : off + k ≤ 4 ∨ 16 ≤ off) : SameHead m (LittleEndian.store m' off k v) := by
  intro o hlow hhigh
  rw [store_outside m' (by omega), h o hlow hhigh]

theorem SameHead.rfl {m : Memory UInt8} : SameHead m m := fun _ _ _ => Eq.refl _

theorem SameHead.storeIn {size off k v : Nat} {m m' m'' : Memory UInt8} (h : SameHead m m') (hoff : 16 ≤ off)
    (hstore : Netlink.storeIn size m' off k v = some m'') : SameHead m m'' := by
  rw [Netlink.storeIn] at hstore
  split at hstore
  · cases hstore
    exact h.store v (.inr hoff)
  · cases hstore

theorem SameHead.copyData {size rta : Nat} {m m' m'' : Memory UInt8} {data : List UInt8} {alen : BitVec 32}
    (h : SameHead m m') (hrta : 16 ≤ rta) (hcopy : Netlink.copyData size m' rta data alen = some m'') :
    SameHead m m'' := by
  have hdata : rtaData rta = rta + 4 := Eq.refl _
  rw [Netlink.copyData] at hcopy
  split at hcopy
  · rw [memcpy] at hcopy
    split at hcopy
    · cases hcopy
      intro o hlow hhigh
      rw [write_outside m' (by omega), h o hlow hhigh]
    · cases hcopy
  · cases hcopy
    exact h

/-- Whatever becomes of the attribute, the fields of the header stay. -/
theorem requestAdd_sameHead {m m' : Memory UInt8} {n type : Nat} {attrs : List (Nat × List UInt8)}
    {data : List UInt8} {alen : BitVec 32} (hb : Building m n attrs) (hn : n ≤ sizeofRequest)
    (hadd : requestAdd m type data alen = some m') : SameHead m m' := by
  have hsize : sizeofRequest = 4124 := rfl
  have hheader : requestHeader = 28 := rfl
  have hrta : 16 ≤ (align (nlmsgLen m 0)).toNat := by
    have hstart := hb.start
    have hle := le_roundUp n
    rw [align_toNat (by rw [hb.len]; omega), hb.len]
    omega
  rw [requestAdd, Option.map_eq_some_iff] at hadd
  obtain ⟨⟨r, _⟩, hcall, rfl⟩ := hadd
  rw [rtattrAdd] at hcall
  split at hcall
  · cases hcall
    exact .rfl
  · simp only [Option.bind_eq_bind, Option.bind_eq_some_iff] at hcall
    obtain ⟨m₁, hm₁, m₂, hm₂, m₃, hm₃, hlast⟩ := hcall
    cases hlast
    have htype : SameHead m m₁ := SameHead.rfl.storeIn (by omega) hm₁
    have hlen : SameHead m m₂ := htype.storeIn hrta hm₂
    exact @SameHead.store m m₃ (hlen.copyData hrta hm₃) 0 4 _ (.inl (Nat.le_refl 4))

theorem initRequest_sameHead (nlRequest : Memory UInt8) (cmd flags : BitVec 32) (dst : InetAddr) :
    SameHead (store (store (store nlRequest 0 4 requestHeader) 6 2 (nlmFRequest ||| flags).toNat) 4 2 cmd.toNat)
      (initRequest nlRequest cmd flags dst) := by
  unfold initRequest
  dsimp only
  split <;> split <;> repeat' first
    | exact SameHead.rfl
    | refine SameHead.store ?_ _ (by decide)

theorem addGateway_sameHead {m m' : Memory UInt8} {gw : InetAddr} (hb : Building m 28 [])
    (h : addGateway m gw = some m') : SameHead m m' := by
  rw [addGateway] at h
  split at h
  · obtain ⟨m₁, hadd, hlast⟩ := Option.bind_eq_some_iff.mp h
    cases hlast
    have hhead := requestAdd_sameHead hb (by decide) hadd
    exact (hhead.store 0 (.inr (by decide))).store _ (.inr (by decide))
  · cases h
    exact .rfl

theorem Given.alen_le {a : InetAddr} {d : Option (Family × List UInt8)} (h : Given inet a d) (h6 : ¬ IsInet6 d) :
    a.alen.toNat ≤ 4 := by
  rcases h.cases with ⟨_, hb⟩ | ⟨_, _, hb, _⟩ | ⟨_, rfl, _⟩
  · rw [alen_zero hb]
    decide
  · rw [alen_inet hb]
    decide
  · exact absurd rfl h6

theorem addRoute_sameHead {m req : Memory UInt8} {n : Nat} {attrs : List (Nat × List UInt8)} {dst : InetAddr}
    {defGw ifIdx : BitVec 32} (hb : Building m n attrs) (hn : n = 28 ∨ n = 36) (halen : dst.alen.toNat ≤ 4)
    (h : addRoute m dst defGw ifIdx = some req) : SameHead m req := by
  have hsize : sizeofRequest = 4124 := rfl
  rw [addRoute] at h
  split at h
  · have hround := roundUp_le (4 + dst.alen.toNat)
    obtain ⟨m₁, hadd, hm₁, _⟩ := hb.add rtaDst dst.data dst.alen (by decide) (by rw [dst.size]; omega) (by omega)
    rw [hadd] at h
    exact (requestAdd_sameHead hb (by omega) hadd).trans (requestAdd_sameHead hm₁ (by omega) h)
  · cases h
    exact .rfl

/-- Where each type comes once, the last header of a type carries what is listed for it. -/
theorem lastAt_lookup {m : Memory UInt8} {offs : List Nat} (h : (offs.map (rtaType m)).Nodup) (t : Nat) :
    (lastAt m offs t).map (payload m) = (offs.map (attrAt m)).lookup t := by
  induction offs with
  | nil => rfl
  | cons pos offs ih =>
    rw [List.map_cons, List.nodup_cons] at h
    rw [lastAt_cons, List.map_cons, attrAt, List.lookup_cons, ← ih h.2]
    by_cases heq : rtaType m pos = t
    · have hnone : lastAt m offs t = none := by
        rw [lastAt, List.getLast?_eq_none_iff, List.filter_eq_nil_iff]
        intro o ho hot
        refine h.1 (List.mem_map.mpr ⟨o, ho, ?_⟩)
        rw [heq]
        exact of_decide_eq_true hot
      rw [hnone, if_pos heq, heq, beq_self_eq_true]
      rfl
    · rw [if_neg heq, Option.or_none, beq_eq_false_iff_ne.mpr (Ne.symm heq)]

/-- A receiver that has the bytes of a finished request finds its attributes. -/
theorem Encodes.parse {req m : Memory UInt8} {attrs : List (Nat × List UInt8)} (h : Encodes req attrs)
    (htypes : (attrs.map Prod.fst).Nodup) (hsame : ∀ o, o < sizeofRequest → m o = req o) {max t : Nat}
    (ht : t ≤ max) :
    ((parseRtattr m max requestHeader (nlmsgLen m 0 - 28)).tb t).map (payload m) = attrs.lookup t := by
  have hsize : sizeofRequest = 4124 := rfl
  have hheader : requestHeader = 28 := rfl
  have hfits := h.fits
  obtain ⟨offs, hwalk, rfl⟩ := h.walk
  have hlen : nlmsgLen m 0 = nlmsgLen req 0 := nlmsgLen_congr fun o ho => hsame o (by omega)
  obtain ⟨hwalk', hmap⟩ := hwalk.congr fun o _ hlt => hsame o (by omega)
  have hleft : (nlmsgLen m 0 - 28).toInt = ((nlmsgLen req 0).toNat : Int) - requestHeader := by
    have hint : (nlmsgLen req 0).toInt = (nlmsgLen req 0).toNat := BitVec.toInt_eq_toNat_of_lt (by omega)
    have htwentyEight : (28 : BitVec 32).toInt = 28 := rfl
    rw [hlen, BitVec.toInt_sub, hint, htwentyEight, Int.bmod_eq_of_le (by omega) (by omega), hheader]
    rfl
  rw [parseRtattr_eq, parseRtattrInto_tb _ hleft ht, hwalk'.chain_eq, ← hmap]
  apply lastAt_lookup
  rw [← hmap, List.map_map] at htypes
  exact htypes

section Sent

variable {env : Environment} (cfg : RouteConfig env.inet)

theorem Address.given (addr : Address env.inet) :
    Given env.inet (readAddr env.inet addr.text .zero).2 (some (addr.family, addr.bytes)) :=
  .accepted addr.text .zero (Prod.ext (addr.readAddr_eq .zero) rfl) (Option.some_get addr.accepted).symm

theorem RouteConfig.given_dst :
    Given env.inet (cfg.result env).toAddr (cfg.dst.map fun addr => (addr.family, addr.bytes)) := by
  rw [RouteConfig.result]
  cases cfg.dst with
  | none => exact .absent rfl
  | some addr => exact addr.given

theorem RouteConfig.given_gw :
    Given env.inet (cfg.result env).gwAddr (cfg.gw.map fun gw => (gw.2.family, gw.2.bytes)) := by
  rw [RouteConfig.result]
  cases cfg.gw with
  | none => exact .absent rfl
  | some gw => exact gw.2.given

theorem RouteConfig.defaultGw_eq : (cfg.result env).defaultGw = if cfg.isDefault then 1 else 0 := rfl

/-- The attributes are of different types. -/
theorem RouteConfig.nodup_attrs : ((cfg.attrs env).map Prod.fst).Nodup := by
  rw [RouteConfig.attrs]
  cases cfg.gw <;> cases cfg.isDefault <;> simp

/-- What the routes are given for is what the attributes say. -/
theorem RouteConfig.routeAttrs_eq :
    routeAttrs (cfg.dst.map fun addr => (addr.family, addr.bytes)) (cfg.gw.map fun gw => (gw.2.family, gw.2.bytes))
      (cfg.result env).defaultGw (cfg.result env).ifIdx = cfg.attrs env := by
  rw [routeAttrs, RouteConfig.attrs, cfg.defaultGw_eq, Option.map_map, Option.map_map]
  cases cfg.isDefault <;> rfl

theorem RouteConfig.not_inet6_gw (h : cfg.Ipv4) :
    ¬ IsInet6 (cfg.gw.map fun gw => (gw.2.family, gw.2.bytes)) := by
  intro h6
  rw [IsInet6, Option.map_map, Option.map_eq_some_iff] at h6
  obtain ⟨gw, hgw, hfamily⟩ := h6
  exact absurd ((h.1 gw hgw).symm.trans hfamily) (by decide)

theorem RouteConfig.not_inet6_dst (h : cfg.Ipv4) (hd : cfg.isDefault = false) :
    ¬ IsInet6 (cfg.dst.map fun addr => (addr.family, addr.bytes)) := by
  intro h6
  rw [IsInet6, Option.map_map, Option.map_eq_some_iff] at h6
  obtain ⟨addr, haddr, hfamily⟩ := h6
  exact absurd ((h.2 hd addr haddr).symm.trans hfamily) (by decide)

theorem RouteConfig.inet6_of_not_ipv4 (h : ¬ cfg.Ipv4)
    (hgw : ¬ IsInet6 (cfg.gw.map fun gw => (gw.2.family, gw.2.bytes))) :
    cfg.isDefault = false ∧ IsInet6 (cfg.dst.map fun addr => (addr.family, addr.bytes)) := by
  have hfamily : ∀ family : Family, family ≠ .inet → family = .inet6 := by
    intro family hne
    cases family with
    | inet => exact absurd rfl hne
    | inet6 => rfl
  have hgw4 : ∀ gw, cfg.gw = some gw → gw.2.family = .inet := by
    intro gw hsome
    by_contra hne
    rw [hsome, IsInet6, Option.map_some, Option.map_some, hfamily _ hne] at hgw
    exact hgw rfl
  obtain ⟨hd, hdst⟩ := Classical.not_imp.mp fun hdst => h ⟨hgw4, hdst⟩
  push Not at hdst
  obtain ⟨addr, haddr, hne⟩ := hdst
  refine ⟨hd, ?_⟩
  rw [haddr, IsInet6, Option.map_some, Option.map_some, hfamily _ hne]

/-- The request of a configuration with the header that `do_route` began with. -/
theorem RouteConfig.doRoute (h : cfg.Ipv4) (nlRequest : Memory UInt8) :
    let c := cfg.result env
    ∃ req, Netlink.doRoute nlRequest c.nlCmd c.nlFlags c.toAddr c.gwAddr c.defaultGw c.ifIdx = some req ∧
      Encodes req (cfg.attrs env) ∧ SameHead (initRequest nlRequest c.nlCmd c.nlFlags c.toAddr) req := by
  intro c
  have hinit := initRequest_building nlRequest c.nlCmd c.nlFlags c.toAddr
  obtain ⟨m, n, hm, hn, hb, _⟩ := addGateway_building hinit cfg.given_gw (cfg.not_inet6_gw h)
  have hgw := addGateway_sameHead hinit hm
  have hattrs : _ = cfg.attrs env := cfg.routeAttrs_eq
  cases hd : cfg.isDefault with
  | true =>
    have hc : c.defaultGw = 1 := by rw [cfg.defaultGw_eq, hd]; rfl
    rw [routeAttrs, show (cfg.result env).defaultGw = 1 from hc, if_neg (by decide), List.append_nil] at hattrs
    refine ⟨m, doRoute_eq_some_iff.mpr ⟨m, hm, by rw [addRoute, hc, if_neg (by decide)]⟩, ⟨?_, ?_⟩, hgw⟩
    · rw [hb.len]
      rcases hn with rfl | rfl <;> decide
    · rw [hb.len, ← hattrs]
      exact hb.walk
  | false =>
    have hc : c.defaultGw = 0 := by rw [cfg.defaultGw_eq, hd]; rfl
    have h6 := cfg.not_inet6_dst h hd
    rw [routeAttrs, show (cfg.result env).defaultGw = 0 from hc, if_pos rfl] at hattrs
    obtain ⟨req, hroute, henc, _⟩ := addRoute_building hb hn cfg.given_dst h6 c.ifIdx
    rw [← hc] at hroute
    rw [← hattrs]
    exact ⟨req, doRoute_eq_some_iff.mpr ⟨m, hm, hroute⟩, henc,
      hgw.trans (addRoute_sameHead hb hn (cfg.given_dst.alen_le h6) hroute)⟩

/-- An IPv6 address that is to go into the request makes `do_route` write outside of it. -/
theorem RouteConfig.doRoute_none (h : ¬ cfg.Ipv4) (nlRequest : Memory UInt8) :
    let c := cfg.result env
    Netlink.doRoute nlRequest c.nlCmd c.nlFlags c.toAddr c.gwAddr c.defaultGw c.ifIdx = none := by
  intro c
  have hinit := initRequest_building nlRequest c.nlCmd c.nlFlags c.toAddr
  rw [Netlink.doRoute, Option.bind_eq_bind]
  by_cases h6 : IsInet6 (cfg.gw.map fun gw => (gw.2.family, gw.2.bytes))
  · rw [addGateway_inet6 hinit cfg.given_gw h6, Option.bind_none]
  · obtain ⟨m, n, hm, hn, hb, _⟩ := addGateway_building hinit cfg.given_gw h6
    rw [hm, Option.bind_some]
    obtain ⟨hd, hd6⟩ := cfg.inet6_of_not_ipv4 h h6
    have hc : c.defaultGw = 0 := by rw [cfg.defaultGw_eq, hd]; rfl
    rw [hc]
    exact addRoute_inet6 hb hn cfg.given_dst hd6 c.ifIdx

theorem RouteConfig.main_eq {clauses : List (Clause env.inet)} (hperm : clauses.Perm cfg.clauses) {word : String}
    (hword : word ∉ ["add", "del", "to", "dev", "via"]) (hsock : 0 ≤ env.nlSock) (stack : Stack) :
    let c := cfg.result env
    main env (word :: clauses.flatMap Clause.words) stack =
      match Netlink.doRoute stack.nlRequest c.nlCmd c.nlFlags c.toAddr c.gwAddr c.defaultGw c.ifIdx with
      | some req => .sent (read req 0 sizeofRequest)
      | none => .overrun := by
  intro c
  rw [main, parseArgs_words hperm hword]
  exact if_neg (by omega)

end Sent

/-- `set_route` for a configuration whose clauses come in any order, over any stack: without an IPv6
address among those that go into the request a receiver decodes it to the configuration, and with one
`do_route` writes outside of the request. -/
theorem sent_route_decodes {env : Environment} (cfg : RouteConfig env.inet) {clauses : List (Clause env.inet)}
    (hperm : clauses.Perm cfg.clauses) {word : String} (hword : word ∉ ["add", "del", "to", "dev", "via"])
    (hsock : 0 ≤ env.nlSock) (stack : Stack) :
    (¬ cfg.Ipv4 → main env (word :: clauses.flatMap Clause.words) stack = .overrun) ∧
      (cfg.Ipv4 → ∃ sent, main env (word :: clauses.flatMap Clause.words) stack = .sent sent ∧
        ∀ m, read m 0 sizeofRequest = sent → Decodes env cfg m) := by
  have hmain := cfg.main_eq hperm hword hsock stack
  constructor
  · intro h
    rw [hmain, cfg.doRoute_none h]
  · intro h
    obtain ⟨req, hreq, henc, hhead⟩ := cfg.doRoute h stack.nlRequest
    rw [hmain, hreq]
    refine ⟨_, rfl, fun m hm => ?_⟩
    have hsame : ∀ o, o < sizeofRequest → m o = req o := fun o ho => read_inj hm (Nat.zero_le o) (by omega)
    have hsize : sizeofRequest = 4124 := rfl
    have hhead' : SameHead (initRequest stack.nlRequest (cfg.result env).nlCmd (cfg.result env).nlFlags
        (cfg.result env).toAddr) m := hhead.trans fun o _ ho => hsame o (by omega)
    have hstart := (initRequest_sameHead _ _ _ _).trans hhead'
    refine ⟨?_, ?_, fun max t ht => henc.parse cfg.nodup_attrs hsame ht⟩
    · have htype := load_congr (k := 2) fun o hlow hhigh => hstart o hlow (by omega)
      rw [load_store] at htype
      have hcmd : ∀ isAdd : Bool, (BitVec.ofNat 32 (if isAdd then rtmNewroute else rtmDelroute)).toNat % 256^2 =
          if isAdd then rtmNewroute else rtmDelroute := by decide
      exact htype.trans (hcmd cfg.isAdd)
    · have hflags := load_congr (k := 2) fun o (hlow : 6 ≤ o) (hhigh : o < 6 + 2) => hstart o (by omega) (by omega)
      rw [load_store_disjoint _ (by decide), load_store] at hflags
      have hsum : ∀ isAdd : Bool, (nlmFRequest ||| if isAdd then nlmFCreate ||| nlmFExcl else 0).toNat % 256^2 =
          if isAdd then 0x601 else 0x1 := by decide
      exact hflags.trans (hsum cfg.isAdd)

/-- `set_route via default 10.0.0.1 add dev to`, on a stack of ones. -/
theorem sent_route_decodes_default :
    ∃ sent, main interfaceTo ["set_route", "via", "default", "10.0.0.1", "add", "dev", "to"]
        ⟨0xffffffff, 0xffffffff, fun _ => 0xff⟩ = .sent sent ∧
      ∀ m, read m 0 sizeofRequest = sent → Decodes interfaceTo defaultRoute m := by
  let gateway : Clause interfaceTo.inet := .via true ⟨"10.0.0.1", by decide, by decide⟩
  have hperm : ([gateway] ++ [Clause.cmd true, .dev "to"]).Perm defaultRoute.clauses := List.perm_append_comm
  have hword : "set_route" ∉ ["add", "del", "to", "dev", "via"] := by decide
  refine (sent_route_decodes defaultRoute hperm hword (by decide) ⟨0xffffffff, 0xffffffff, fun _ => 0xff⟩).2
    ⟨?_, nofun⟩
  intro gw hgw
  cases hgw
  decide

end LinuxDrivers.Netlink
