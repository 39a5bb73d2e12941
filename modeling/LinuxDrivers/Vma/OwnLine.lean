import LinuxDrivers.Vma.Show

/-! When the line of an area shows values of that area only. -/
namespace LinuxDrivers.Vma
open CString Printf

def Locals.shown (l : Locals) : BitVec 64 × BitVec 32 × BitVec 64 := (l.pgoff, l.dev, l.ino)

def VmArea.backing (a : VmArea) : Option (BitVec 64 × BitVec 32 × BitVec 64) :=
  a.file.map fun file => (a.pgoff <<< 12, file.dev, file.ino)

def VmArea.answer (a : VmArea) : Option (Option (List UInt8)) :=
  match a.file with
  | some _ => none
  | none => a.opName

/-- The areas before it leave nothing that its line would show: without a file the last area with
one has the values 0, and unless its own operation is asked for a name the last answer was null. -/
def OwnLine (before : List VmArea) (a : VmArea) : Prop :=
  (a.backing = none → ∀ v ∈ (before.filterMap VmArea.backing).getLast?, v = (0, 0, 0)) ∧
    (a.answer = none → ∀ name ∈ (before.filterMap VmArea.answer).getLast?, name = none)

theorem Locals.after_shown (l : Locals) (a : VmArea) : (l.after a).shown = a.backing.getD l.shown := by
  unfold after VmArea.backing
  cases a.file with
  | some file => rfl
  | none => cases a.opName <;> rfl

theorem Locals.after_name (l : Locals) (a : VmArea) : (l.after a).name = a.answer.getD l.name := by
  unfold after VmArea.answer
  cases a.file with
  | some file => rfl
  | none => cases a.opName <;> rfl

/-- A variable set in some iterations holds the last value set. -/
theorem foldl_eq_getLast {α β γ : Type*} {f : β → α → β} {get : β → γ} {set : α → Option γ}
    (h : ∀ b a, get (f b a) = (set a).getD (get b)) (as : List α) (b : β) :
    get (as.foldl f b) = (as.filterMap set).getLast?.getD (get b) := by
  induction as generalizing b with
  | nil => rfl
  | cons a as ih =>
    rw [List.foldl_cons, ih, h]
    cases hs : set a with
    | none => rw [List.filterMap_cons_none hs, Option.getD_none]
    | some c => rw [List.filterMap_cons_some hs, List.getLast?_cons, Option.getD_some, Option.getD_some]

theorem areaLines_getElem? (k : Nat) (l : Locals) (areas : List VmArea) (i : Nat) :
    (areaLines k l areas)[i]?.map Line.text =
      areas[i]?.map fun a => areaText (((areas.take i).foldl Locals.after l).after a) a := by
  induction areas generalizing k l i with
  | nil => rfl
  | cons a areas ih =>
    cases i with
    | zero => rfl
    | succ i => exact ih (k + 1) (l.after a) i

/-- Both halves of a device number are printed. -/
theorem major_minor_inj {d e : BitVec 32} : major d = major e ∧ minor d = minor e ↔ d = e := by
  constructor
  · rintro ⟨hmajor, hminor⟩
    unfold major at hmajor
    unfold minor at hminor
    apply BitVec.eq_of_toNat_eq
    omega
  · rintro rfl
    exact ⟨rfl, rfl⟩

/-- The columns can be read off the text, and so can what follows them. -/
theorem columns_append_inj {l m : Locals} {s t : List UInt8} :
    l.columns ++ s = m.columns ++ t ↔ l.shown = m.shown ∧ s = t := by
  have hassoc (l : Locals) (s : List UInt8) : l.columns ++ s =
      32 :: (pad '0' 8 (hex l.pgoff.toNat) ++ 32 :: 32 :: (pad '0' 2 (hex (major l.dev)) ++
        32 :: 58 :: (pad '0' 2 (hex (minor l.dev)) ++ 32 :: (signed l.ino.toInt ++ 32 :: 32 :: s)))) := by
    simp [Locals.columns, ascii]
  rw [hassoc, hassoc]
  simp only [List.cons.injEq, true_and, append_cons_inj (blank_notMem_pad_hex _ _) (blank_notMem_pad_hex _ _),
    append_cons_inj (blank_notMem_signed _) (blank_notMem_signed _), (pad_hex_injective _).eq_iff,
    signed_injective.eq_iff, BitVec.toInt_inj, BitVec.toNat_inj, Locals.shown, Prod.mk.injEq,
    ← major_minor_inj, and_assoc]

theorem nameText_append_inj {l m : Locals} {s : List UInt8} :
    l.nameText ++ s = m.nameText ++ s ↔ l.name = m.name := by
  rw [List.append_cancel_right_eq]
  unfold Locals.nameText
  cases l.name <;> cases m.name <;> simp [ascii]

theorem areaText_inj {l m : Locals} {a : VmArea} :
    areaText l a = areaText m a ↔ l.shown = m.shown ∧ l.name = m.name := by
  unfold areaText
  rw [List.append_cancel_left_eq, columns_append_inj, List.append_cancel_left_eq, nameText_append_inj]

/-- Filled in from the last value before, or from nothing before: the same exactly if there is an
own value, or the last one before is the initial one. -/
theorem getD_getLast_eq_iff {γ : Type*} (own last : Option γ) (c : γ) :
    own.getD (last.getD c) = own.getD c ↔ (own = none → ∀ v ∈ last, v = c) := by
  cases own <;> cases last <;> simp

theorem lineText_eq_iff_ownLine {areas : List VmArea} {i : Nat} {a : VmArea} (ha : areas[i]? = some a) :
    lineText areas i = lineText [a] 0 ↔ OwnLine (areas.take i) a := by
  have halone : lineText [a] 0 = some (areaText (Locals.initial.after a) a) := rfl
  rw [halone, lineText, areaLines_getElem?, ha, Option.map_some, Option.some.injEq, areaText_inj]
  simp only [Locals.after_shown, Locals.after_name, foldl_eq_getLast Locals.after_shown,
    foldl_eq_getLast Locals.after_name, getD_getLast_eq_iff]
  rfl

/-- The line of an area is the line the area has alone exactly if the areas before it leave nothing
that it would show. -/
theorem lineText_eq_alone_iff (areas : List VmArea) (i : Nat) :
    (lineText areas i = areas[i]?.bind fun a => lineText [a] 0) ↔
      ∀ a ∈ areas[i]?, OwnLine (areas.take i) a := by
  cases ha : areas[i]? with
  | none => simp [lineText, areaLines_getElem?, ha]
  | some a =>
    rw [Option.bind_some, lineText_eq_iff_ownLine ha]
    simp

/-- An area without a file shows the inode of the file mapped before it. -/
theorem lineText_shows_other_area :
    ¬∀ areas i, lineText areas i = areas[i]?.bind fun a => lineText [a] 0 := by
  intro h
  let backed : VmArea := ⟨0x400000, 0x401000, vmRead, 0, some ⟨0x800001, 7, ascii ['/', 'a']⟩, none⟩
  let anonymous : VmArea := ⟨0x500000, 0x501000, vmRead, 0, none, none⟩
  have hsecond : [backed, anonymous][1]? = some anonymous := rfl
  have hown : OwnLine [backed] anonymous := (lineText_eq_iff_ownLine hsecond).mp (h _ _)
  exact absurd (hown.1 rfl _ rfl) (by decide)

end LinuxDrivers.Vma
