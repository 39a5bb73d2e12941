import LinuxDrivers.Netlink.RtattrAdd

/-! The request set_route builds: `read_addr` for the addresses of the command line, `do_route`
for the message with its attributes. -/
namespace LinuxDrivers.Netlink
open ByteMemory LittleEndian

abbrev rtaDst : Nat := 1
abbrev rtaOif : Nat := 4
abbrev rtaGateway : Nat := 5

abbrev nlmFRequest : BitVec 32 := 0x1
abbrev rtTableMain : Nat := 254
abbrev rtScopeUniverse : Nat := 0
abbrev rtScopeLink : Nat := 253
abbrev rtScopeNowhere : Nat := 255
abbrev rtprotBoot : Nat := 3
abbrev rtnUnicast : Nat := 1

/-- The fields of `struct rtmsg`, as offsets into `nl_request`. -/
abbrev rtmFamily : Nat := 16
abbrev rtmDstLen : Nat := 17
abbrev rtmTable : Nat := 20
abbrev rtmProtocol : Nat := 21
abbrev rtmScope : Nat := 22
abbrev rtmType : Nat := 23

abbrev requestHeader : Nat := 28

abbrev sizeofRequest : Nat := 16 + 12 + 4096

inductive Family where
  | inet
  | inet6
  deriving DecidableEq, Repr

def Family.code : Family → BitVec 8
  | .inet => 2
  | .inet6 => 10

def Family.addrLen : Family → Nat
  | .inet => 4
  | .inet6 => 16

/-- `_inet_addr`; `bitlen` is a signed `char`. -/
structure InetAddr where
  family : BitVec 8
  bitlen : BitVec 8
  data : List UInt8
  size : data.length = 16

def InetAddr.zero : InetAddr := ⟨0, 0, List.replicate 16 0, rfl⟩

/-- `inet_pton`: it refuses a text, or stores the bytes of an address of the family asked for. -/
structure InetPton where
  parse : Family → String → Option (List UInt8)
  length_eq : ∀ family text bytes, parse family text = some bytes → bytes.length = family.addrLen

def addrFamily (text : String) : Family := if ':' ∈ text.toList then .inet6 else .inet

/-- `res->bitlen` for the family; 128 does not fit a signed `char`. -/
def Family.bitlen : Family → BitVec 8
  | .inet => 32
  | .inet6 => 128

def InetAddr.fill (a : InetAddr) (bytes : List UInt8) (h : bytes.length ≤ 16) : InetAddr where
  family := a.family
  bitlen := a.bitlen
  data := bytes ++ a.data.drop bytes.length
  size := by rw [List.length_append, List.length_drop, a.size]; omega

theorem InetPton.length_le (inet : InetPton) {family : Family} {text : String} {bytes : List UInt8}
    (h : inet.parse family text = some bytes) : bytes.length ≤ 16 := by
  rw [inet.length_eq _ _ _ h]
  cases family <;> decide

def readAddr (inet : InetPton) (addr : String) (res : InetAddr) : Int × InetAddr :=
  let family := addrFamily addr
  let res := { res with family := family.code, bitlen := family.bitlen }
  match h : inet.parse family addr with
  | some bytes => (1, res.fill bytes (inet.length_le h))
  | none => (0, res)

theorem readAddr_accepted {inet : InetPton} {text : String} {old a : InetAddr}
    (h : readAddr inet text old = (1, a)) :
    ∃ bytes, inet.parse (addrFamily text) text = some bytes ∧ a.family = (addrFamily text).code ∧
      a.bitlen = (addrFamily text).bitlen ∧ a.data = bytes ++ old.data.drop bytes.length := by
  rw [readAddr] at h
  split at h
  · rename_i bytes hp
    obtain rfl := (Prod.mk.inj h).2
    exact ⟨bytes, hp, rfl, rfl, rfl⟩
  · exact absurd (Prod.mk.inj h).1 (by decide)

/-- `bitlen / 8` as the `int` passed to `rtattr_add`. -/
def InetAddr.alen (a : InetAddr) : BitVec 32 := (a.bitlen.signExtend 32).sdiv 8

def initRequest (nlRequest : Memory UInt8) (cmd flags : BitVec 32) (dst : InetAddr) : Memory UInt8 :=
  let m := store nlRequest 0 4 requestHeader
  let m := store m 6 2 (nlmFRequest ||| flags).toNat
  let m := store m 4 2 cmd.toNat
  let m := store m rtmFamily 1 dst.family.toNat
  let m := store m rtmTable 1 rtTableMain
  let m := store m rtmScope 1 rtScopeNowhere
  let m := if cmd.toNat ≠ rtmDelroute then store (store m rtmProtocol 1 rtprotBoot) rtmType 1 rtnUnicast else m
  let m := store m rtmFamily 1 dst.family.toNat
  let m := store m rtmDstLen 1 dst.bitlen.toNat
  if load m rtmFamily 1 = Family.inet6.code.toNat then store m rtmScope 1 rtScopeUniverse
  else store m rtmScope 1 rtScopeLink

/-- `rtattr_add` on `nl_request`; its result is not looked at. -/
def requestAdd (m : Memory UInt8) (type : Nat) (data : List UInt8) (alen : BitVec 32) : Option (Memory UInt8) :=
  (rtattrAdd sizeofRequest m (BitVec.ofNat 32 sizeofRequest) (BitVec.ofNat 32 type) data alen).map Prod.snd

def addGateway (m : Memory UInt8) (gw : InetAddr) : Option (Memory UInt8) :=
  if gw.bitlen ≠ 0 then do
    let m ← requestAdd m rtaGateway gw.data gw.alen
    let m := store m rtmScope 1 0
    some (store m rtmFamily 1 gw.family.toNat)
  else some m

def addRoute (m : Memory UInt8) (dst : InetAddr) (defGw ifIdx : BitVec 32) : Option (Memory UInt8) :=
  if defGw = 0 then do
    let m ← requestAdd m rtaDst dst.data dst.alen
    requestAdd m rtaOif (bytes 4 ifIdx.toNat) 4
  else some m

/-- `do_route`, up to the `send` of the whole of `nl_request`. There is no result when a store
leaves `nl_request`. -/
def doRoute (nlRequest : Memory UInt8) (cmd flags : BitVec 32) (dst gw : InetAddr) (defGw ifIdx : BitVec 32) :
    Option (Memory UInt8) := do
  let m := initRequest nlRequest cmd flags dst
  let m ← addGateway m gw
  addRoute m dst defGw ifIdx

theorem doRoute_eq_some_iff {nlRequest req : Memory UInt8} {cmd flags defGw ifIdx : BitVec 32}
    {dst gw : InetAddr} :
    doRoute nlRequest cmd flags dst gw defGw ifIdx = some req ↔
      ∃ m, addGateway (initRequest nlRequest cmd flags dst) gw = some m ∧
        addRoute m dst defGw ifIdx = some req :=
  Option.bind_eq_some_iff

end LinuxDrivers.Netlink
