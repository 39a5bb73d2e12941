import LinuxDrivers.Lib.CountedLoop

/-! mt_tree.c: the tests that fill a maple tree and look its entries up again, over any implementation of the
tree. -/
namespace LinuxDrivers.MapleTree
open CountedLoop

abbrev Index := BitVec 64

/-- `void *`, with 0 for `NULL`. -/
abbrev Ptr := BitVec 64

abbrev eexist : Int := 17

def longMax : BitVec 64 := 0x7fffffffffffffff

def xaMkValue (v : BitVec 64) : Ptr := v <<< 1 ||| 1

structure Api (τ : Type*) where
  mtreeEmpty : τ → Bool
  mtHeight : τ → Nat
  mtreeLoad : τ → Index → Ptr
  mtreeInsertRange : τ → Index → Index → Ptr → Int × τ
  mtreeInsert : τ → Index → Ptr → Int × τ
  mtreeStoreRange : τ → Index → Index → Ptr → Int × τ
  mtreeDestroy : τ → τ
  mtSetInRcu : τ → τ
  mtClearInRcu : τ → τ

structure Bench (τ : Type*) where
  tree : τ
  bugs : Nat

variable {τ : Type*}

def Bench.bugOn (s : Bench τ) (wrong : Bool) : Bench τ := { s with bugs := s.bugs + wrong.toNat }

section Tests

variable (api : Api τ)

def indexValue (index : Index) : Ptr := xaMkValue (index &&& longMax)

def mtreeInsertIndex (t : τ) (index : Index) : Int × τ := api.mtreeInsert t index (indexValue index)

def checkLoad (s : Bench τ) (index : Index) (ptr : Ptr) : Bench τ :=
  s.bugOn (api.mtreeLoad s.tree index ≠ ptr)

def checkIndexLoad (s : Bench τ) (index : Index) : Bench τ := checkLoad api s index (indexValue index)

def checkRange (result : Int × τ) (bugs : Nat) (start last : Index) (ptr : Ptr) (expected : Int) (fuel : Nat) :
    Option (Bench τ) :=
  let s := (⟨result.2, bugs⟩ : Bench τ).bugOn (result.1 ≠ expected)
  if result.1 ≠ 0 then some s
  else loop (fun i => i ≤ last) (· + 1) (fun i s => some (checkLoad api s i ptr)) fuel start s

def checkStoreRange (s : Bench τ) (start last : Index) (ptr : Ptr) (expected : Int) (fuel : Nat) :
    Option (Bench τ) :=
  checkRange api (api.mtreeStoreRange s.tree start last ptr) s.bugs start last ptr expected fuel

def checkInsertRange (s : Bench τ) (start last : Index) (ptr : Ptr) (expected : Int) (fuel : Nat) :
    Option (Bench τ) :=
  checkRange api (api.mtreeInsertRange s.tree start last ptr) s.bugs start last ptr expected fuel

def checkInsert (s : Bench τ) (index : Index) (ptr : Ptr) : Bench τ :=
  let (ret, t) := api.mtreeInsert s.tree index ptr
  { s with tree := t }.bugOn (ret ≠ 0)

def checkDupInsert (s : Bench τ) (index : Index) (ptr : Ptr) : Bench τ :=
  let (ret, t) := api.mtreeInsert s.tree index ptr
  { s with tree := t }.bugOn (ret ≠ -eexist)

def insertIndex (s : Bench τ) (i : Index) : Bench τ :=
  let (ret, t) := mtreeInsertIndex api s.tree i
  { s with tree := t }.bugOn (ret ≠ 0)

def revPass (max : Index) (fuel : Nat) (i : Index) (s : Bench τ) : Option (Bench τ) := do
  let s := insertIndex api s i
  let s ← loop (fun j => j ≤ max) (· + 1) (fun j s => some (checkIndexLoad api s j)) fuel i s
  let s := checkLoad api s (i - 1) 0
  let s := { s with tree := api.mtSetInRcu s.tree }
  let s := s.bugOn (api.mtHeight s.tree = 0)
  let s := { s with tree := api.mtClearInRcu s.tree }
  pure (s.bugOn (api.mtHeight s.tree = 0))

def checkRevSeq (max : Index) (fuel : Nat) (s : Bench τ) : Option (Bench τ) := do
  let s := s.bugOn (!api.mtreeEmpty s.tree)
  let s ← loop (fun i => i ≠ 0) (· - 1) (revPass api max fuel) fuel max s
  pure (checkLoad api s (max + 1) 0)

def seqPass (fuel : Nat) (i : Index) (s : Bench τ) : Option (Bench τ) := do
  let s := insertIndex api s i
  let s ← loop (fun j => j ≤ i) (· + 1) (fun j s => some (checkIndexLoad api s j)) fuel 0 s
  let s := if i ≠ 0 then s.bugOn (api.mtHeight s.tree = 0) else s
  pure (checkLoad api s (i + 1) 0)

def checkSeq (max : Index) (fuel : Nat) (s : Bench τ) : Option (Bench τ) :=
  loop (fun i => i ≤ max) (· + 1) (seqPass api fuel) fuel 0 (s.bugOn (!api.mtreeEmpty s.tree))

def checkAround (s : Bench τ) (j : Index) : Bench τ :=
  checkLoad api (checkLoad api (checkLoad api s (j - 1) 0) j j) (j + 1) 0

def lowerPass (huge : Index) (fuel : Nat) (i : Index) (s : Bench τ) : Option (Bench τ) :=
  loop (fun j => i ≤ j) (· / 2) (fun j s => some (checkAround api s j)) fuel huge (checkInsert api s i i)

def lowerLoop (huge : Index) (fuel : Nat) (s : Bench τ) : Option (Bench τ) :=
  loop (fun i => 4096 < i) (· / 2) (lowerPass api huge fuel) fuel huge s

def checkLbNotEmpty (fuel : Nat) (s : Bench τ) : Option (Bench τ) := do
  let s ← lowerLoop api 4000000000 fuel s
  pure { s with tree := api.mtreeDestroy s.tree }

def checkLowerBoundSplit (fuel : Nat) (s : Bench τ) : Option (Bench τ) :=
  checkLbNotEmpty api fuel (s.bugOn (!api.mtreeEmpty s.tree))

def upperPass (huge : Index) (fuel : Nat) (i : Index) (s : Bench τ) : Option (Bench τ) :=
  loop (fun j => huge ≤ j) (· * 2) (fun j s => some (checkAround api s j)) fuel i (checkInsert api s i i)

/-- The loops of `check_upper_bound_split`, up to `huge` by doubling. -/
def upperLoop (huge : Index) (fuel : Nat) (s : Bench τ) : Option (Bench τ) :=
  loop (fun i => i < huge) (· * 2) (upperPass api huge fuel) fuel 4096 s

def checkUpperBoundSplit (fuel : Nat) (s : Bench τ) : Option (Bench τ) := do
  let s ← upperLoop api 4000000000 fuel (s.bugOn (!api.mtreeEmpty s.tree))
  pure { s with tree := api.mtreeDestroy s.tree }

def checkMidSplit (fuel : Nat) (s : Bench τ) : Option (Bench τ) :=
  let s := checkInsert api s 8000000000 8000000000
  let s := checkInsert api s 0 (xaMkValue 0)
  checkLbNotEmpty api fuel s

end Tests

end LinuxDrivers.MapleTree
