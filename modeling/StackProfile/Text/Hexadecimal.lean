import StackProfile.Text.Blank
import StackProfile.Text.DecimalDigit

/-! # Hexadecimal integers

`hex` writes an integer with lower-case digits and a leading minus sign if it is negative.
`readHex?` reads more than `hex` writes: a sign of either kind, a prefix `0x` or `0X`, digits of
either case, decimal digits of any script, and single underscores between two digits or after the
prefix.

Main lemma: a written integer is read back (`readHex?_hex`). -/

namespace StackProfile.Text

/-- An integer in base sixteen. -/
def hex : Int → List Char
  | .ofNat n => Nat.toDigits 16 n
  | .negSucc n => '-' :: Nat.toDigits 16 (n + 1)

/-- The value of a hexadecimal digit of either case. -/
def hexValue? (c : Char) : Option Nat :=
  if c.isDigit then some (c.toNat - 48)
  else if 'a' ≤ c && c ≤ 'f' then some (c.toNat - 87)
  else if 'A' ≤ c && c ≤ 'F' then some (c.toNat - 55)
  else none

/-- Continues a numeral of value `acc`: each further digit may have one underscore before it. -/
def readHexFrom (acc : Nat) : List Char → Option Nat
  | [] => some acc
  | '_' :: c :: s => (hexValue? c).bind fun d => readHexFrom (16 * acc + d) s
  | c :: s => (hexValue? c).bind fun d => readHexFrom (16 * acc + d) s

/-- A numeral without sign and prefix. -/
def readHexDigits? : List Char → Option Nat
  | [] => none
  | c :: s => (hexValue? c).bind fun d => readHexFrom d s

/-- What follows the base prefix and one underscore after it; the whole text if it has none. -/
def dropBase : List Char → List Char
  | '0' :: x :: '_' :: s => if x = 'x' ∨ x = 'X' then s else '0' :: x :: '_' :: s
  | '0' :: x :: s => if x = 'x' ∨ x = 'X' then s else '0' :: x :: s
  | s => s

/-- The integer that a text spells in base sixteen. -/
def readHex? (s : List Char) : Option Int :=
  match s.map toAsciiDigit with
  | '-' :: t => (readHexDigits? (dropBase t)).map fun n => -(n : Int)
  | '+' :: t => (readHexDigits? (dropBase t)).map fun n => (n : Int)
  | t => (readHexDigits? (dropBase t)).map fun n => (n : Int)

/-! ### Reading what was written -/

theorem hexValue?_digitChar {d : Nat} (h : d < 16) : hexValue? d.digitChar = some d := by
  have : ∀ d : Fin 16, hexValue? (Nat.digitChar d) = some d.val := by decide
  exact this ⟨d, h⟩

theorem digitChar_plain {d : Nat} (h : d < 16) :
    d.digitChar ≠ '_' ∧ d.digitChar ≠ '-' ∧ d.digitChar ≠ '+' ∧ d.digitChar ≠ 'x' ∧
      d.digitChar ≠ 'X' ∧ toAsciiDigit d.digitChar = d.digitChar := by
  have : ∀ d : Fin 16, Nat.digitChar d ≠ '_' ∧ Nat.digitChar d ≠ '-' ∧ Nat.digitChar d ≠ '+' ∧
      Nat.digitChar d ≠ 'x' ∧ Nat.digitChar d ≠ 'X' ∧
      toAsciiDigit (Nat.digitChar d) = Nat.digitChar d := by decide +kernel
  exact this ⟨d, h⟩

/-- Every character of a numeral is a digit. -/
theorem exists_digit_of_mem_toDigits {n : Nat} :
    ∀ c ∈ Nat.toDigits 16 n, ∃ d < 16, c = d.digitChar := by
  induction n using Nat.strongRecOn with
  | _ n ih =>
      intro c hc
      rw [Nat.toDigits_eq_if (by decide)] at hc
      by_cases h : n < 16
      · rw [if_pos h, List.mem_singleton] at hc
        exact ⟨n, h, hc⟩
      · rw [if_neg h, List.mem_append, List.mem_singleton] at hc
        rcases hc with hc | hc
        · exact ih _ (Nat.div_lt_self (by omega) (by decide)) c hc
        · exact ⟨n % 16, Nat.mod_lt _ (by decide), hc⟩

theorem readHexFrom_concat {s : List Char} (hs : '_' ∉ s) {d : Nat} (hd : d < 16) (acc : Nat) :
    readHexFrom acc (s ++ [d.digitChar]) = (readHexFrom acc s).map (16 * · + d) := by
  have hu : ∀ a, readHexFrom a [d.digitChar] = some (16 * a + d) := fun a => by
    rw [readHexFrom, hexValue?_digitChar hd]
    · rfl
    · simp [(digitChar_plain hd).1]
  induction s generalizing acc with
  | nil => simp [hu, readHexFrom]
  | cons c s ih =>
      have hc : c ≠ '_' := fun e => hs (by simp [e])
      have hs' : '_' ∉ s := fun e => hs (List.mem_cons_of_mem _ e)
      have e : ∀ t, readHexFrom acc (c :: t) =
          (hexValue? c).bind fun v => readHexFrom (16 * acc + v) t := fun t => by
        rw [readHexFrom]
        simp [hc]
      rw [List.cons_append, e, e]
      cases hexValue? c with
      | none => rfl
      | some v => exact ih hs' _

theorem underscore_not_mem_toDigits (n : Nat) : '_' ∉ Nat.toDigits 16 n := fun h => by
  obtain ⟨d, hd, e⟩ := exists_digit_of_mem_toDigits _ h
  exact (digitChar_plain hd).1 e.symm

theorem readHexDigits?_toDigits (n : Nat) : readHexDigits? (Nat.toDigits 16 n) = some n := by
  induction n using Nat.strongRecOn with
  | _ n ih =>
      rw [Nat.toDigits_eq_if (by decide)]
      by_cases h : n < 16
      · simp [h, readHexDigits?, hexValue?_digitChar h, readHexFrom]
      · have hm : n % 16 < 16 := Nat.mod_lt _ (by decide)
        have ih' := ih (n / 16) (Nat.div_lt_self (by omega) (by decide))
        have hu := underscore_not_mem_toDigits (n / 16)
        rw [if_neg h]
        cases hs : Nat.toDigits 16 (n / 16) with
        | nil => exact absurd hs Nat.toDigits_ne_nil
        | cons c s =>
            rw [hs] at ih' hu
            simp only [readHexDigits?, List.cons_append] at ih' ⊢
            cases hv : hexValue? c with
            | none => simp [hv] at ih'
            | some v =>
                rw [hv, Option.bind_some] at ih'
                rw [Option.bind_some,
                  readHexFrom_concat (fun e => hu (List.mem_cons_of_mem _ e)) hm, ih']
                simp
                omega

theorem dropBase_eq_self {s : List Char} (h : ∀ c ∈ s, c ≠ 'x' ∧ c ≠ 'X') : dropBase s = s := by
  fun_cases dropBase s <;> simp_all

theorem dropBase_toDigits (n : Nat) : dropBase (Nat.toDigits 16 n) = Nat.toDigits 16 n :=
  dropBase_eq_self fun c hc => by
    obtain ⟨d, hd, rfl⟩ := exists_digit_of_mem_toDigits c hc
    exact ⟨(digitChar_plain hd).2.2.2.1, (digitChar_plain hd).2.2.2.2.1⟩

theorem map_toAsciiDigit_toDigits (n : Nat) :
    (Nat.toDigits 16 n).map toAsciiDigit = Nat.toDigits 16 n := by
  refine (List.map_congr_left fun c hc => ?_).trans (List.map_id _)
  obtain ⟨d, hd, rfl⟩ := exists_digit_of_mem_toDigits c hc
  exact (digitChar_plain hd).2.2.2.2.2

/-- A written integer is read back. -/
theorem readHex?_hex (a : Int) : readHex? (hex a) = some a := by
  cases a with
  | ofNat n =>
      have h : ∀ c ∈ Nat.toDigits 16 n, c ≠ '-' ∧ c ≠ '+' := fun c hc => by
        obtain ⟨d, hd, rfl⟩ := exists_digit_of_mem_toDigits c hc
        exact ⟨(digitChar_plain hd).2.1, (digitChar_plain hd).2.2.1⟩
      simp only [readHex?, hex, map_toAsciiDigit_toDigits]
      split
      · rename_i t e; exact absurd rfl (h '-' (by simp [e])).1
      · rename_i t e; exact absurd rfl (h '+' (by simp [e])).2
      · simp [dropBase_toDigits, readHexDigits?_toDigits]
  | negSucc n =>
      have e : toAsciiDigit '-' = '-' := by decide +kernel
      simp [readHex?, hex, map_toAsciiDigit_toDigits, e, dropBase_toDigits,
        readHexDigits?_toDigits, Int.negSucc_eq]

theorem hex_ne_nil (a : Int) : hex a ≠ [] := by
  cases a with
  | ofNat n => exact Nat.toDigits_ne_nil
  | negSucc n => exact List.cons_ne_nil _ _

/-- A written integer is one word. -/
theorem not_isBlank_of_mem_hex (a : Int) : ∀ c ∈ hex a, isBlank c = false := by
  have hd : ∀ n : Nat, ∀ c ∈ Nat.toDigits 16 n, isBlank c = false := fun n c hc => by
    obtain ⟨d, h, rfl⟩ := exists_digit_of_mem_toDigits c hc
    have : ∀ d : Fin 16, isBlank (Nat.digitChar d) = false := by decide
    exact this ⟨d, h⟩
  cases a with
  | ofNat n => exact hd n
  | negSucc n =>
      intro c hc
      rcases List.mem_cons.1 hc with rfl | hc
      · decide
      · exact hd _ c hc

end StackProfile.Text
