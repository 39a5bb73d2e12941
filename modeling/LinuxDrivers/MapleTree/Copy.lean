import LinuxDrivers.MapleTree.Walk

/-! mt_tree.c: the tests that copy a tree entry by entry. -/
namespace LinuxDrivers.MapleTree
open CountedLoop

variable {τ : Type*}

section Tests

variable (api : MasApi τ)

def Bench.validate (s : Bench τ) (newmt : τ) : Bench τ := { s with bugs := s.bugs + api.mtValidate newmt }

end Tests

def Stores (entries : τ → Index → Ptr) (t : τ) (store : τ → Index → Index → Ptr → τ) : Prop :=
  ∀ newmt first last i, first ≤ last → entries t i ≠ 0 →
    entries (store newmt first last (entries t i)) = overwrite (entries newmt) first last (entries t i)

namespace MasApi.Documented

variable {api : MasApi τ} {entries : τ → Index → Ptr} (h : api.Documented entries)
include h

end MasApi.Documented

namespace MasApi.Documented

variable {api : MasApi τ} {entries : τ → Index → Ptr} (h : api.Documented entries)
include h

end MasApi.Documented

end LinuxDrivers.MapleTree
