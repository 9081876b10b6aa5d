import StackProfile.Text.Hexadecimal

/-! # Symbol tables

Symbols are named address ranges.  A table keeps them in increasing order of their starts, symbols
with equal starts in the order of their registration.  An address resolves to the name of the last
symbol that starts at or before it, if its range holds the address, and to its hexadecimal text
otherwise.

Main lemmas: registration adds just the new symbol (`perm_insert`), and what an address resolves to
afterwards (`last?_insert`). -/

namespace StackProfile

/-- A named range of addresses, `size` of them from `start` on. -/
structure Symbol where
  start : Int
  size : Int
  name : String
deriving DecidableEq, Repr

/-- Whether the range of a symbol holds an address. -/
def Symbol.holds (s : Symbol) (address : Int) : Bool :=
  s.start ≤ address && address < s.start + s.size

/-- How an address without a symbol is shown. -/
def addressText (address : Int) : String := String.ofList ('0' :: 'x' :: Text.hex address)

/-- Symbols in increasing order of their starts. -/
structure SymbolTable where
  symbols : List Symbol := []
  sorted : symbols.Pairwise (·.start ≤ ·.start) := by exact List.Pairwise.nil
deriving DecidableEq, Repr

namespace SymbolTable

/-- The table without symbols. -/
def empty : SymbolTable := {}

/-- The number of symbols. -/
def size (t : SymbolTable) : Nat := t.symbols.length

/-! ### Registration -/

/-- The symbols after one was put behind all that start at or before it. -/
def insertSymbol (s : Symbol) : List Symbol → List Symbol
  | [] => [s]
  | t :: ts => if t.start ≤ s.start then t :: insertSymbol s ts else s :: t :: ts

theorem perm_insertSymbol (s : Symbol) (ts : List Symbol) :
    (insertSymbol s ts).Perm (s :: ts) := by
  induction ts with
  | nil => exact List.Perm.refl _
  | cons u ts ih =>
      rw [insertSymbol]
      split
      · exact (ih.cons u).trans (List.Perm.swap s u ts)
      · exact List.Perm.refl _

theorem mem_insertSymbol {s u : Symbol} {ts : List Symbol} :
    u ∈ insertSymbol s ts ↔ u = s ∨ u ∈ ts := by
  rw [(perm_insertSymbol s ts).mem_iff, List.mem_cons]

theorem pairwise_insertSymbol (s : Symbol) {ts : List Symbol}
    (h : ts.Pairwise (·.start ≤ ·.start)) :
    (insertSymbol s ts).Pairwise (·.start ≤ ·.start) := by
  induction ts with
  | nil => exact List.pairwise_singleton _ _
  | cons u ts ih =>
      obtain ⟨hu, hts⟩ := List.pairwise_cons.1 h
      rw [insertSymbol]
      split
      · refine List.pairwise_cons.2 ⟨fun v hv => ?_, ih hts⟩
        rcases mem_insertSymbol.1 hv with rfl | hv
        · assumption
        · exact hu v hv
      · refine List.pairwise_cons.2 ⟨fun v hv => ?_, h⟩
        rcases List.mem_cons.1 hv with rfl | hv
        · omega
        · have := hu v hv
          omega

/-- Registers a symbol behind all that start at or before it. -/
def insert (t : SymbolTable) (s : Symbol) : SymbolTable :=
  ⟨insertSymbol s t.symbols, pairwise_insertSymbol s t.sorted⟩

/-- The table of symbols registered one after the other. -/
def ofList (ss : List Symbol) : SymbolTable := ss.foldl insert empty

theorem perm_insert (t : SymbolTable) (s : Symbol) :
    (t.insert s).symbols.Perm (s :: t.symbols) := perm_insertSymbol s t.symbols

@[simp] theorem size_insert (t : SymbolTable) (s : Symbol) : (t.insert s).size = t.size + 1 :=
  (t.perm_insert s).length_eq

/-! ### Resolution -/

/-- The last symbol that starts at or before an address; `s?` if there is none. -/
def lastFrom? (s? : Option Symbol) (address : Int) : List Symbol → Option Symbol
  | [] => s?
  | t :: ts => if t.start ≤ address then lastFrom? (some t) address ts else s?

/-- The last symbol that starts at or before an address. -/
def last? (t : SymbolTable) (address : Int) : Option Symbol := lastFrom? none address t.symbols

/-- The name of an address. -/
def resolve (t : SymbolTable) (address : Int) : String :=
  match t.last? address with
  | some s => if s.holds address then s.name else addressText address
  | none => addressText address

theorem lastFrom?_eq_or (s? : Option Symbol) (a : Int) (ts : List Symbol) :
    lastFrom? s? a ts = (lastFrom? none a ts).or s? := by
  induction ts generalizing s? with
  | nil => simp [lastFrom?]
  | cons u ts ih =>
      rw [lastFrom?, lastFrom?]
      split
      · rw [ih (some u)]
        cases lastFrom? none a ts <;> rfl
      · rfl

theorem mem_of_lastFrom? {s : Symbol} {a : Int} {ts : List Symbol}
    (h : lastFrom? none a ts = some s) : s ∈ ts ∧ s.start ≤ a := by
  induction ts with
  | nil => simp [lastFrom?] at h
  | cons u ts ih =>
      rw [lastFrom?] at h
      split at h
      · rw [lastFrom?_eq_or] at h
        cases hts : lastFrom? none a ts with
        | none =>
            rw [hts] at h
            obtain rfl : u = s := by simpa using h
            exact ⟨List.mem_cons_self, by assumption⟩
        | some v =>
            rw [hts] at h
            obtain rfl : v = s := by simpa using h
            exact ⟨List.mem_cons_of_mem _ (ih hts).1, (ih hts).2⟩
      · simp at h

theorem lastFrom?_insertSymbol (s : Symbol) {ts : List Symbol}
    (h : ts.Pairwise (·.start ≤ ·.start)) (a : Int) :
    lastFrom? none a (insertSymbol s ts) =
      if s.start ≤ a then
        match lastFrom? none a ts with
        | some u => if u.start ≤ s.start then some s else some u
        | none => some s
      else lastFrom? none a ts := by
  induction ts with
  | nil => simp [insertSymbol, lastFrom?]
  | cons u ts ih =>
      obtain ⟨hu, hts⟩ := List.pairwise_cons.1 h
      rw [insertSymbol]
      by_cases hus : u.start ≤ s.start
      · rw [if_pos hus, lastFrom?, lastFrom?]
        by_cases hua : u.start ≤ a
        · rw [if_pos hua, if_pos hua, lastFrom?_eq_or, ih hts, lastFrom?_eq_or (some u) a ts]
          by_cases hsa : s.start ≤ a
          · rw [if_pos hsa, if_pos hsa]
            cases lastFrom? none a ts with
            | none => simp [hus]
            | some v => by_cases hv : v.start ≤ s.start <;> simp [hv]
          · rw [if_neg hsa, if_neg hsa]
        · rw [if_neg hua, if_neg hua, if_neg (by omega)]
      · rw [if_neg hus, lastFrom?]
        by_cases hsa : s.start ≤ a
        · rw [if_pos hsa, if_pos hsa, lastFrom?_eq_or]
          cases hv : lastFrom? none a (u :: ts) with
          | none => rfl
          | some v =>
              have hle : u.start ≤ v.start := by
                rcases List.mem_cons.1 (mem_of_lastFrom? hv).1 with rfl | hm
                · exact Int.le_refl _
                · exact hu v hm
              have hvs : ¬v.start ≤ s.start := by omega
              simp [hvs]
        · have hua : ¬u.start ≤ a := by omega
          rw [if_neg hsa, if_neg hsa, lastFrom?, if_neg hua]

/-- A new symbol is found from its start on, up to the next symbol that starts behind it. -/
theorem last?_insert (t : SymbolTable) (s : Symbol) (a : Int) :
    (t.insert s).last? a =
      if s.start ≤ a then
        match t.last? a with
        | some u => if u.start ≤ s.start then some s else some u
        | none => some s
      else t.last? a :=
  lastFrom?_insertSymbol s t.sorted a

end SymbolTable

end StackProfile
