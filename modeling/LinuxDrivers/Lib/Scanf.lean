import LinuxDrivers.Lib.Printf

/-! Decimal numbers as the `sscanf` of the kernel reads them. -/
namespace Scanf
open CString Printf

/-- `isspace`, with the no-break space of Latin-1. -/
def isspace (b : UInt8) : Bool := 9 ≤ b && b ≤ 13 || b == 32 || b == 160

def isdigit (b : UInt8) : Bool := 48 ≤ b && b ≤ 57

def scanDigits (text : List UInt8) : Option Nat :=
  let digits := text.takeWhile isdigit
  if digits = [] then none else some (readDigits 10 digits)

/-- `%d`, before the number is cut to the width of an `int`: white space is skipped, and a minus may
stand in front of the digits, but no plus. -/
def scanSigned (text : List UInt8) : Option Int :=
  match text.dropWhile isspace with
  | 45 :: rest => (scanDigits rest).map fun (n : Nat) => -(n : Int)
  | rest => (scanDigits rest).map fun (n : Nat) => (n : Int)

/-- `%s`: white space is skipped, and the word ends in front of the next white space or of the end of the text.
Of an empty text nothing is converted. -/
def scanWord (text : List UInt8) : Option (List UInt8) :=
  let text := text.takeWhile (· ≠ 0)
  if text = [] then none else some ((text.dropWhile isspace).takeWhile (!isspace ·))

theorem isdigit_of_mem_decimal {n : Nat} {b : UInt8} (h : b ∈ decimal n) : isdigit b = true := by
  obtain ⟨c, hc, rfl⟩ := List.mem_map.mp h
  have hdigit := Nat.isDigit_of_mem_toDigits (by decide) (by decide) hc
  simp only [Char.isDigit, Bool.and_eq_true, decide_eq_true_eq] at hdigit
  have hlow : 48 ≤ c.toNat := hdigit.1
  have hhigh : c.toNat ≤ 57 := hdigit.2
  have hval : (UInt8.ofNat c.toNat).toNat = c.toNat := Nat.mod_eq_of_lt (by omega)
  simp only [isdigit, Bool.and_eq_true, decide_eq_true_eq, UInt8.le_iff_toNat_le, hval]
  exact ⟨hlow, hhigh⟩

theorem decimal_ne_nil (n : Nat) : decimal n ≠ [] := by
  intro h
  exact Nat.toDigits_ne_nil (List.map_eq_nil_iff.mp h)

/-- The digits end in front of a byte that is none. -/
theorem takeWhile_decimal_append (n : Nat) {rest : List UInt8} (hrest : ∀ b ∈ rest.head?, isdigit b = false) :
    (decimal n ++ rest).takeWhile isdigit = decimal n := by
  have hnone : rest.takeWhile isdigit = [] := by
    cases rest with
    | nil => rfl
    | cons b rest => exact List.takeWhile_cons_of_neg (by simp [hrest b rfl])
  rw [List.takeWhile_append_of_pos (fun _ => isdigit_of_mem_decimal), hnone, List.append_nil]

theorem scanDigits_decimal (n : Nat) {rest : List UInt8} (hrest : ∀ b ∈ rest.head?, isdigit b = false) :
    scanDigits (decimal n ++ rest) = some n := by
  have hread : readDigits 10 (decimal n) = n := readDigits_toDigits (by decide) (by decide) n
  rw [scanDigits, takeWhile_decimal_append n hrest]
  simp only [if_neg (decimal_ne_nil n), hread]

theorem isspace_of_isdigit {b : UInt8} (h : isdigit b = true) : isspace b = false ∧ b ≠ 45 := by
  simp only [isdigit, Bool.and_eq_true, decide_eq_true_eq, UInt8.le_iff_toNat_le] at h
  have hlow : 48 ≤ b.toNat := h.1
  have hhigh : b.toNat ≤ 57 := h.2
  refine ⟨?_, fun hb => by rw [hb] at hlow; exact absurd hlow (by decide)⟩
  simp only [isspace, Bool.or_eq_false_iff, Bool.and_eq_false_iff, decide_eq_false_iff_not, beq_eq_false_iff_ne,
    UInt8.le_iff_toNat_le, ne_eq, ← UInt8.toNat_inj]
  change ((¬9 ≤ b.toNat ∨ ¬b.toNat ≤ 13) ∧ ¬b.toNat = 32) ∧ ¬b.toNat = 160
  omega

/-- A text that starts with a digit is read as it is. -/
theorem scanSigned_of_digit {b : UInt8} (h : isdigit b = true) (rest : List UInt8) :
    scanSigned (b :: rest) = (scanDigits (b :: rest)).map fun (n : Nat) => (n : Int) := by
  obtain ⟨hspace, hminus⟩ := isspace_of_isdigit h
  rw [scanSigned, List.dropWhile_cons_of_neg (by simp [hspace])]
  split
  · rename_i heq
    exact absurd (List.cons.inj heq).1 hminus
  · rfl

/-- What `%d` writes is read back. -/
theorem scanSigned_signed (z : Int) {rest : List UInt8} (hrest : ∀ b ∈ rest.head?, isdigit b = false) :
    scanSigned (signed z ++ rest) = some z := by
  have hdigits := scanDigits_decimal z.natAbs hrest
  unfold signed
  split
  · change (scanDigits (decimal z.natAbs ++ rest)).map (fun (n : Nat) => -(n : Int)) = some z
    rw [hdigits, Option.map_some]
    congr 1
    omega
  · obtain ⟨b, digits, hb⟩ := List.exists_cons_of_ne_nil (decimal_ne_nil z.natAbs)
    have hdigit : isdigit b = true := isdigit_of_mem_decimal (hb ▸ List.mem_cons_self)
    rw [hb, List.cons_append] at hdigits ⊢
    rw [scanSigned_of_digit hdigit, hdigits, Option.map_some]
    congr 1
    omega

theorem takeWhile_append_zero (text : List UInt8) :
    (text ++ [0]).takeWhile (· ≠ 0) = text.takeWhile (· ≠ 0) := by
  induction text with
  | nil => rfl
  | cons b text ih => rw [List.cons_append, List.takeWhile_cons, List.takeWhile_cons, ih]

/-- A word is no longer than the string it was found in. -/
theorem length_scanWord {text word : List UInt8} (h : scanWord (text ++ [0]) = some word) :
    word.length ≤ text.length := by
  simp only [scanWord, takeWhile_append_zero] at h
  split at h
  · cases h
  · obtain rfl := Option.some.inj h
    calc
      _ ≤ _ := (List.takeWhile_sublist _).length_le
      _ ≤ _ := (List.dropWhile_sublist _).length_le
      _ ≤ text.length := (List.takeWhile_sublist _).length_le

end Scanf
