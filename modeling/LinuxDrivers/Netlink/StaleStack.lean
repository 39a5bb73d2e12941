import LinuxDrivers.Netlink.CommandLine
import LinuxDrivers.Netlink.RouteRequest

/-! What set_route sends beside its message: the rest of `nl_request`, as the stack held it. -/
namespace LinuxDrivers.Netlink
open ByteMemory LittleEndian

structure Reaches (env : Environment) (argv : List String) (stack : Stack) (c : Config) : Prop where
  loop : parseArgs env (.start stack) argv = some c
  sock : 0 ≤ env.nlSock

def Config.Ipv4 (c : Config) : Prop :=
  c.toAddr.family ≠ Family.inet6.code ∧ c.gwAddr.family ≠ Family.inet6.code

def Determined (env : Environment) (argv : List String) : Prop :=
  ∀ stack stack' : Stack, main env argv stack = main env argv stack'

def Config.Named (inet : InetPton) (c : Config) : Prop :=
  (∃ d, Given inet c.toAddr d) ∧ ∃ g, Given inet c.gwAddr g

theorem given_readAddr {inet : InetPton} {text : String} {old a : InetAddr} {r : Int}
    (h : readAddr inet text old = (r, a)) (hr : ¬ r ≠ 1) : ∃ d, Given inet a d := by
  obtain rfl := not_ne_iff.mp hr
  obtain ⟨bytes, hp, _⟩ := readAddr_accepted h
  exact ⟨_, .accepted text old h hp⟩

/-- Each pass of the loop either leaves an address alone or has it from `read_addr`. -/
theorem parseArgs_named {env : Environment} {argv : List String} {c c' : Config} (hc : c.Named env.inet)
    (h : parseArgs env c argv = some c') : c'.Named env.inet := by
  fun_induction parseArgs env c argv with
  | case1 c => exact Option.some.inj h ▸ hc
  | case2 c argv ih | case3 c argv ih | case8 c name argv ih | case15 c arg argv _ _ _ _ _ _ _ _ _ _ ih => exact ih hc h
  | case6 c addr argv r a hread hr ih => exact ih ⟨given_readAddr hread hr, hc.2⟩ h
  | case12 c addr argv r a hread hr ih | case14 c addr argv _ _ r a hread hr ih =>
    exact ih ⟨hc.1, given_readAddr hread hr⟩ h
  | _ => cases h

theorem Config.start_named (inet : InetPton) (stack : Stack) : (Config.start stack).Named inet :=
  ⟨⟨none, .absent rfl⟩, none, .absent rfl⟩

theorem Given.not_inet6 {inet : InetPton} {a : InetAddr} {d : Option (Family × List UInt8)}
    (h : Given inet a d) (h4 : a.family ≠ Family.inet6.code) : ¬ IsInet6 d := by
  intro h6
  cases h with
  | absent => cases h6
  | accepted text old h hp =>
    obtain ⟨_, _, hfamily, _⟩ := readAddr_accepted h
    have hf : addrFamily text = .inet6 := Option.some.inj h6
    rw [hf] at hfamily
    exact h4 hfamily

/-- The request of an IPv4 route ends by byte 52; what follows in `nl_request` is not written. -/
theorem doRoute_same {inet : InetPton} (nlRequest : Memory UInt8) {c : Config} (hc : c.Named inet)
    (h4 : c.Ipv4) : ∃ req,
    doRoute nlRequest c.nlCmd c.nlFlags c.toAddr c.gwAddr c.defaultGw c.ifIdx = some req ∧
      SameFrom 52 nlRequest req := by
  obtain ⟨⟨d, hd⟩, g, hg⟩ := hc
  have hinit := initRequest_building nlRequest c.nlCmd c.nlFlags c.toAddr
  have hsame := initRequest_same nlRequest c.nlCmd c.nlFlags c.toAddr
  obtain ⟨m, n, hm, hn, hb, hsame'⟩ := addGateway_building hinit hg (hg.not_inet6 h4.2)
  have hgw : SameFrom 36 nlRequest m := hsame.trans hsame' (by decide)
  by_cases hz : c.defaultGw = 0
  · obtain ⟨req, hroute, _, hsame''⟩ := addRoute_building hb hn hd (hd.not_inet6 h4.1) c.ifIdx
    rw [← hz] at hroute
    exact ⟨req, doRoute_eq_some_iff.mpr ⟨m, hm, hroute⟩, hgw.trans hsame'' (by decide)⟩
  · exact ⟨m, doRoute_eq_some_iff.mpr ⟨m, hm, by rw [addRoute, if_neg hz]⟩, fun o ho => hgw o (by omega)⟩

/-- The last byte sent is the one the stack held. -/
theorem main_stale {env : Environment} {argv : List String} {stack : Stack} {c : Config}
    (h : Reaches env argv stack c) (h4 : c.Ipv4) : ∃ sent, main env argv stack = .sent sent ∧
      sent[4123]? = some (stack.nlRequest 4123) := by
  have hnamed := parseArgs_named (Config.start_named env.inet stack) h.loop
  obtain ⟨req, hroute, hsame⟩ := doRoute_same stack.nlRequest hnamed h4
  refine ⟨read req 0 sizeofRequest, ?_, ?_⟩
  · rw [main, h.loop]
    dsimp only
    rw [if_neg (by have hsock := h.sock; omega), hroute]
  · have hlt : 4123 < (read req 0 sizeofRequest).length := by
      rw [read_length]
      decide
    rw [List.getElem?_eq_getElem hlt, read_getElem, Nat.zero_add, hsame 4123 (by decide)]

/-- The loop looks at neither `nl_cmd`, `nl_flags` nor `nl_request`. -/
theorem Reaches.congr {env : Environment} {argv : List String} {stack : Stack} {c : Config}
    (h : Reaches env argv stack c) (nlRequest : Memory UInt8) :
    Reaches env argv { stack with nlRequest := nlRequest } c := ⟨h.loop, h.sock⟩

/-- Two runs from stacks that differ in `nl_request` send different bytes. -/
theorem main_ne {env : Environment} {argv : List String} {stack : Stack} {c : Config}
    (h : Reaches env argv stack c) (h4 : c.Ipv4) :
    main env argv { stack with nlRequest := fun _ => 0 } ≠ main env argv { stack with nlRequest := fun _ => 1 } := by
  intro heq
  obtain ⟨sent, hsent, hlast⟩ := main_stale (h.congr (fun _ => 0)) h4
  obtain ⟨sent', hsent', hlast'⟩ := main_stale (h.congr (fun _ => 1)) h4
  rw [hsent, hsent'] at heq
  obtain rfl := Outcome.sent.inj heq
  rw [hlast] at hlast'
  exact absurd (Option.some.inj hlast') (show (0 : UInt8) ≠ 1 by decide)

/-- Whenever `main` gets to `do_route` with IPv4 addresses only, stack content is sent. -/
theorem never_determined {env : Environment} {argv : List String} {stack : Stack} {c : Config}
    (h : Reaches env argv stack c) (h4 : c.Ipv4) : ¬ Determined env argv := by
  intro hdet
  exact main_ne h h4 (hdet _ _)

def oneInterface : Environment := ⟨twoAddresses, fun name => if name = "eth0" then 2 else 0, 3⟩

/-- The configuration of `set_route add to 10.0.0.1 dev eth0`, on a stack of zeros. -/
def hostRoute : Config where
  defaultGw := 0
  ifIdx := 2
  toAddr := (readAddr twoAddresses "10.0.0.1" .zero).2
  gwAddr := .zero
  nlCmd := 24
  nlFlags := 0x600

theorem reaches_hostRoute :
    Reaches oneInterface ["set_route", "add", "to", "10.0.0.1", "dev", "eth0"] ⟨0, 0, fun _ => 0⟩ hostRoute :=
  ⟨rfl, by decide⟩

theorem hostRoute_ipv4 : hostRoute.Ipv4 := ⟨by decide, by decide⟩

theorem never_determined_hostRoute :
    ¬ Determined oneInterface ["set_route", "add", "to", "10.0.0.1", "dev", "eth0"] :=
  never_determined reaches_hostRoute hostRoute_ipv4

/-- `set_route add to 10.0.0.1 dev eth0` sends what the stack held. -/
theorem hostRoute_sends_stack :
    ¬ ∀ (env : Environment) (argv : List String) (stack : Stack) (c : Config),
      Reaches env argv stack c → c.Ipv4 → Determined env argv := by
  intro h
  exact main_ne reaches_hostRoute hostRoute_ipv4 (h _ _ _ _ reaches_hostRoute hostRoute_ipv4 _ _)

end LinuxDrivers.Netlink
