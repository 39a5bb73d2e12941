import LinuxDrivers.Lib.CString

/-! Numbers as `printf` writes them, and what can be told from the text. -/
namespace Printf
open CString

def pad (fill : Char) (width : Nat) (text : List UInt8) : List UInt8 :=
  ascii (List.replicate (width - text.length) fill) ++ text

def hex (n : Nat) : List UInt8 := ascii (Nat.toDigits 16 n)

def upperHex (n : Nat) : List UInt8 := ascii ((Nat.toDigits 16 n).map Char.toUpper)

def signed (z : Int) : List UInt8 := if z < 0 then ascii ['-'] ++ decimal z.natAbs else decimal z.natAbs

def digitValue (b : UInt8) : Nat := if b.toNat < 58 then b.toNat - 48 else b.toNat - 87

def readDigits (base : Nat) (text : List UInt8) : Nat :=
  text.foldl (fun v b => base * v + digitValue b) 0

theorem ascii_append (s t : List Char) : ascii (s ++ t) = ascii s ++ ascii t := List.map_append

theorem digitValue_digitChar : ∀ d < 16, digitValue (UInt8.ofNat (Nat.digitChar d).toNat) = d := by decide

theorem le_digitChar : ∀ d < 16, 48 ≤ UInt8.ofNat (Nat.digitChar d).toNat := by decide

section Digits

variable {base : Nat}

/-- A number is read back from its digits. -/
theorem readDigits_toDigits (hb : 1 < base) (hb' : base ≤ 16) (n : Nat) :
    readDigits base (ascii (Nat.toDigits base n)) = n := by
  induction n using Nat.strongRecOn with
  | ind n ih =>
    rw [Nat.toDigits_eq_if hb]
    by_cases hn : n < base
    · rw [if_pos hn]
      have hd := digitValue_digitChar n (hn.trans_le hb')
      simpa [readDigits, ascii] using hd
    · rw [if_neg hn, ascii_append, readDigits, List.foldl_append]
      have hless : n / base < n := Nat.div_lt_self (by omega) hb
      have hd := digitValue_digitChar (n % base) ((Nat.mod_lt n (by omega)).trans_le hb')
      calc
        _ = base * readDigits base (ascii (Nat.toDigits base (n / base))) + n % base := by
          simp [readDigits, ascii, hd]
        _ = n := by rw [ih _ hless, Nat.div_add_mod]

theorem le_of_mem_toDigits (hb : 1 < base) (hb' : base ≤ 16) (n : Nat) :
    ∀ b ∈ ascii (Nat.toDigits base n), 48 ≤ b := by
  induction n using Nat.strongRecOn with
  | ind n ih =>
    rw [Nat.toDigits_eq_if hb]
    by_cases hn : n < base
    · rw [if_pos hn]
      simpa [ascii] using le_digitChar n (hn.trans_le hb')
    · rw [if_neg hn, ascii_append]
      intro b hm
      rcases List.mem_append.mp hm with hm | hm
      · exact ih _ (Nat.div_lt_self (by omega) hb) b hm
      · obtain rfl := List.mem_singleton.mp hm
        exact le_digitChar _ ((Nat.mod_lt n (by omega)).trans_le hb')

/-- Leading zeros do not change the number read. -/
theorem readDigits_pad (width : Nat) (text : List UInt8) :
    readDigits base (pad '0' width text) = readDigits base text := by
  rw [pad, readDigits, List.foldl_append]
  congr 1
  induction width - text.length with
  | zero => rfl
  | succ k ih =>
    rw [List.replicate_succ', ascii_append, List.foldl_append, ih]
    rfl

end Digits

theorem pad_hex_injective (width : Nat) : Function.Injective fun n => pad '0' width (hex n) := by
  intro m n h
  have hread := congrArg (readDigits 16) h
  simp only [readDigits_pad, hex] at hread
  rwa [readDigits_toDigits (by decide) (by decide), readDigits_toDigits (by decide) (by decide)] at hread

theorem decimal_injective : Function.Injective decimal := by
  intro m n h
  have hread := congrArg (readDigits 10) h
  rwa [decimal, decimal, readDigits_toDigits (by decide) (by decide),
    readDigits_toDigits (by decide) (by decide)] at hread

theorem le_of_mem_decimal {n : Nat} {b : UInt8} (h : b ∈ decimal n) : 48 ≤ b :=
  le_of_mem_toDigits (by decide) (by decide) n b h

/-- The sign is told from the first byte. -/
theorem minus_cons_ne_decimal (s : List UInt8) (n : Nat) : ascii ['-'] ++ s ≠ decimal n := by
  intro h
  have hm : (45 : UInt8) ∈ decimal n := h ▸ List.mem_cons_self
  exact absurd (le_of_mem_decimal hm) (by decide)

theorem signed_injective : Function.Injective signed := by
  intro x y h
  unfold signed at h
  by_cases hx : x < 0 <;> by_cases hy : y < 0 <;> simp only [hx, hy, if_true, if_false] at h
  · have := decimal_injective (List.append_cancel_left h)
    omega
  · exact absurd h (minus_cons_ne_decimal _ _)
  · exact absurd h.symm (minus_cons_ne_decimal _ _)
  · have := decimal_injective h
    omega

theorem blank_notMem_pad_hex (width n : Nat) : 32 ∉ pad '0' width (hex n) := by
  intro h
  rcases List.mem_append.mp h with h | h
  · obtain ⟨c, hc, hb⟩ := List.mem_map.mp h
    obtain rfl := List.eq_of_mem_replicate hc
    exact absurd hb (by decide)
  · exact absurd (le_of_mem_toDigits (by decide) (by decide) n 32 h) (by decide)

theorem blank_notMem_signed (z : Int) : 32 ∉ signed z := by
  have hd : 32 ∉ decimal z.natAbs := fun h => absurd (le_of_mem_decimal h) (by decide)
  unfold signed
  split
  · simpa [ascii] using hd
  · exact hd

/-- Two texts agree when their parts before the first separator and after it do. -/
theorem append_cons_inj {α : Type*} {a : α} {s t u v : List α} (hs : a ∉ s) (ht : a ∉ t) :
    s ++ a :: u = t ++ a :: v ↔ s = t ∧ u = v := by
  induction s generalizing t with
  | nil =>
    cases t with
    | nil => simp
    | cons c t =>
      have hc : a ≠ c := fun h => ht (h ▸ List.mem_cons_self)
      simp [hc]
  | cons b s ih =>
    cases t with
    | nil =>
      have hb : b ≠ a := fun h => hs (h ▸ List.mem_cons_self)
      simp [hb]
    | cons c t =>
      have hs' : a ∉ s := fun h => hs (List.mem_cons_of_mem b h)
      have ht' : a ∉ t := fun h => ht (List.mem_cons_of_mem c h)
      simp [ih hs' ht', and_assoc]

end Printf
