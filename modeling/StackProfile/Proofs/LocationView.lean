import StackProfile.Profile.Basic
import StackProfile.Proofs.Numbering

/-! # What locations show

A location refers to its function by an identifier, a sample to its locations; what a reader of the
profile sees is the view of a location: function, file, line and address.  Every location that a
builder creates for a frame is minted: its function is interned, and it goes to the end of the table
with a single line.  A location without lines shows nothing; it is what a look-up leaves that fails.

Main lemmas: minting keeps the tables dense and closed (`Dense.mint`), and so does a location
without lines (`Dense.pushLineless`); what an identifier shows stays as long as the tables only grow
(`Extends.view?`), and a minted location shows what it was minted for (`viewOf?_mint`). -/

namespace StackProfile

/-- What a reader sees of a location. -/
structure LocationView where
  functionName : String
  fileName : String
  line : Int
  address : Int
deriving DecidableEq, Repr

theorem entryAt?_succ {α : Type} (table : List α) (n : Nat) :
    entryAt? table ((n : Int) + 1) = table[n]? := by
  have h : ((n : Int) + 1 - 1).toNat = n := by omega
  rw [entryAt?, if_pos (by omega), h]

theorem entryAt?_of_prefix {α : Type} {table table' : List α} (h : table <+: table') {id : Int}
    {a : α} (ha : entryAt? table id = some a) : entryAt? table' id = some a := by
  rw [entryAt?] at ha ⊢
  split at ha
  · rename_i hid
    obtain ⟨t, rfl⟩ := h
    obtain ⟨hlt, _⟩ := List.getElem?_eq_some_iff.1 ha
    rw [if_pos hid, List.getElem?_append_left hlt, ha]
  · simp at ha

theorem getElem?_concat_eq_some {α : Type} {l : List α} {a b : α} {i : Nat}
    (h : (l ++ [a])[i]? = some b) : l[i]? = some b ∨ i = l.length ∧ b = a := by
  rcases Nat.lt_trichotomy i l.length with hi | rfl | hi
  · exact .inl (by rwa [List.getElem?_append_left hi] at h)
  · exact .inr ⟨rfl, by simpa using h.symm⟩
  · rw [List.getElem?_eq_none (by simp; omega)] at h
    simp at h

namespace Profile

/-- What a location shows, by its first line. -/
def viewOf? (p : Profile) (l : Location) : Option LocationView := do
  let line ← l.lines.head?
  let f ← p.function? line.functionId
  return ⟨f.key.name, f.key.fileName, line.line, l.address⟩

/-- What the location with an identifier shows. -/
def view? (p : Profile) (id : Int) : Option LocationView := (p.location? id).bind p.viewOf?

/-- The functions that the locations refer to, in the order of the table. -/
def functionRefs (p : Profile) : List Int :=
  p.locations.flatMap fun l => l.lines.map (·.functionId)

/-! ### Growth -/

/-- A later state of a profile: tables and stacks were added to at the end. -/
structure Extends (p q : Profile) : Prop where
  locations : p.locations <+: q.locations
  functions : p.functions <+: q.functions
  samples : p.samples.map (·.locationIds) <+: q.samples.map (·.locationIds)

namespace Extends

variable {p q r : Profile}

theorem refl (p : Profile) : p.Extends p :=
  ⟨List.prefix_refl _, List.prefix_refl _, List.prefix_refl _⟩

theorem trans (h : p.Extends q) (h' : q.Extends r) : p.Extends r :=
  ⟨h.locations.trans h'.locations, h.functions.trans h'.functions, h.samples.trans h'.samples⟩

theorem viewOf? (h : p.Extends q) {l : Location} {v : LocationView}
    (hv : p.viewOf? l = some v) : q.viewOf? l = some v := by
  rw [Profile.viewOf?] at hv ⊢
  cases hl : l.lines.head? with
  | none => simp [hl] at hv
  | some line =>
      rw [hl] at hv
      cases hf : p.function? line.functionId with
      | none => simp [hf] at hv
      | some f =>
          have hq : q.function? line.functionId = some f := entryAt?_of_prefix h.functions hf
          simpa [hf, hq] using hv

/-- What an identifier shows stays while the tables grow. -/
theorem view? (h : p.Extends q) {id : Int} {v : LocationView} (hv : p.view? id = some v) :
    q.view? id = some v := by
  rw [Profile.view?, Option.bind_eq_some_iff] at hv
  obtain ⟨l, hl, hv⟩ := hv
  have hq : q.location? id = some l := entryAt?_of_prefix h.locations hl
  rw [Profile.view?, hq, Option.bind_some, h.viewOf? hv]

theorem map_view? (h : p.Extends q) {ids : List Int} {vs : List LocationView}
    (hv : ids.map p.view? = vs.map some) : ids.map q.view? = vs.map some := by
  induction ids generalizing vs with
  | nil => simpa using hv
  | cons id ids ih =>
      cases vs with
      | nil => simp at hv
      | cons v vs =>
          simp only [List.map_cons, List.cons.injEq] at hv ⊢
          exact ⟨h.view? hv.1, ih hv.2⟩

end Extends

/-! ### Dense tables -/

/-- Both tables are dense, every location has a single line unless it has neither lines nor an
address, and the functions are numbered in the order in which the locations refer to them. -/
structure Dense (p : Profile) : Prop where
  locationId : ∀ (i : Nat) l, p.locations[i]? = some l → l.id = i + 1
  lines : ∀ l ∈ p.locations, (∃ line, l.lines = [line]) ∨ l.lines = [] ∧ l.address = 0
  functionId : ∀ (i : Nat) f, p.functions[i]? = some f → f.id = i + 1
  functionOrder : Numbered 0 p.functionRefs p.functions.length

namespace Dense

variable {p : Profile}

theorem location? (h : p.Dense) {l : Location} (hl : l ∈ p.locations) :
    p.location? l.id = some l := by
  obtain ⟨i, hi⟩ := List.getElem?_of_mem hl
  rw [Profile.location?, h.locationId i l hi, entryAt?_succ, hi]

theorem id_bounds (h : p.Dense) {l : Location} (hl : l ∈ p.locations) :
    1 ≤ l.id ∧ l.id ≤ p.locations.length := by
  obtain ⟨h₁, h₂, _⟩ := entryAt?_eq_some (h.location? hl)
  exact ⟨h₁, h₂⟩

theorem view?_id (h : p.Dense) {l : Location} (hl : l ∈ p.locations) :
    p.view? l.id = p.viewOf? l := by
  rw [Profile.view?, h.location? hl, Option.bind_some]

/-- The function of a line of a location is in the table. -/
theorem line_bounds (h : p.Dense) {l : Location} (hl : l ∈ p.locations) {line : Line}
    (hline : line ∈ l.lines) : 1 ≤ line.functionId ∧ line.functionId ≤ p.functions.length :=
  h.functionOrder.bounds _ (List.mem_flatMap.2 ⟨l, hl, List.mem_map_of_mem hline⟩)

/-- A location without lines refers to no function. -/
theorem pushLineless (h : p.Dense) : (p.pushLocation [] 0).2.Dense where
  locationId i l hl := by
    rw [locations_pushLocation] at hl
    rcases getElem?_concat_eq_some hl with hl | ⟨rfl, rfl⟩
    · exact h.locationId i l hl
    · rfl
  lines l hl := by
    rw [locations_pushLocation, List.mem_append, List.mem_singleton] at hl
    rcases hl with hl | rfl
    · exact h.lines l hl
    · exact .inr ⟨rfl, rfl⟩
  functionId := h.functionId
  functionOrder := by
    have hrefs : (p.pushLocation [] 0).2.functionRefs = p.functionRefs := by
      simp [functionRefs, pushLocation]
    rw [hrefs]
    exact h.functionOrder

end Dense

/-- Every location has a single line. -/
def Lined (p : Profile) : Prop := ∀ l ∈ p.locations, ∃ line, l.lines = [line]

/-- What has a view is in the table. -/
theorem bounds_of_isSome_view? {p : Profile} {id : Int} (h : (p.view? id).isSome = true) :
    1 ≤ id ∧ id ≤ p.locations.length := by
  obtain ⟨v, hv⟩ := Option.isSome_iff_exists.1 h
  rw [view?, Option.bind_eq_some_iff] at hv
  obtain ⟨l, hl, -⟩ := hv
  obtain ⟨h₁, h₂, -⟩ := entryAt?_eq_some hl
  exact ⟨h₁, h₂⟩

theorem extends_pushLocation (p : Profile) (lines : List Line) (address : Int) :
    p.Extends (p.pushLocation lines address).2 :=
  ⟨List.prefix_append _ _, List.prefix_refl _, List.prefix_refl _⟩

/-! ### Interning functions -/

theorem functions_prefix_internFunction (p : Profile) (k : FunctionKey) :
    p.functions <+: (p.internFunction k).2.functions := by
  rw [functions_internFunction]
  split
  · exact List.prefix_refl _
  · exact List.prefix_append _ _

/-- The identifier of an interned function is a known one or the next, and finds its entry. -/
theorem internFunction_spec {p : Profile} (h : p.Dense) (k : FunctionKey) :
    (p.internFunction k).2.function? (p.internFunction k).1 = some ⟨(p.internFunction k).1, k⟩ ∧
      Numbered p.functions.length [(p.internFunction k).1]
        (p.internFunction k).2.functions.length ∧
      ∀ (i : Nat) f, (p.internFunction k).2.functions[i]? = some f → f.id = i + 1 := by
  cases hf : p.functions.find? (·.key == k) with
  | some f =>
      have he : p.internFunction k = (f.id, p) := by rw [internFunction, hf]
      obtain ⟨i, hi⟩ := List.getElem?_of_mem (List.mem_of_find?_eq_some hf)
      have hid := h.functionId i f hi
      have hlt := (List.getElem?_eq_some_iff.1 hi).1
      have hk : f.key = k := by simpa using List.find?_some hf
      rw [he]
      refine ⟨?_, .single_known (by omega) (by omega), h.functionId⟩
      rw [function?, hid, entryAt?_succ, hi, ← hk, ← hid]
  | none =>
      have he : p.internFunction k = ((p.functions.length : Int) + 1,
          { p with functions := p.functions ++ [⟨p.functions.length + 1, k⟩] }) := by
        rw [internFunction, hf]
      rw [he]
      refine ⟨?_, ?_, ?_⟩
      · simp [function?, entryAt?_succ]
      · simpa using Numbered.single_fresh p.functions.length
      · intro i f hi
        rcases getElem?_concat_eq_some hi with hi | ⟨rfl, rfl⟩
        · exact h.functionId i f hi
        · rfl

/-! ### Minting locations -/

/-- A new location with a single line, in a function that is interned. -/
def mint (p : Profile) (k : FunctionKey) (line address : Int) : Location × Profile :=
  (p.internFunction k).2.pushLocation [⟨(p.internFunction k).1, line⟩] address

variable (p : Profile) (k : FunctionKey) (line address : Int)

@[simp] theorem id_mint : (p.mint k line address).1.id = (p.locations.length : Int) + 1 := by
  simp [mint, pushLocation]

@[simp] theorem lines_mint :
    (p.mint k line address).1.lines = [⟨(p.internFunction k).1, line⟩] := rfl

@[simp] theorem address_mint : (p.mint k line address).1.address = address := rfl

@[simp] theorem locations_mint :
    (p.mint k line address).2.locations = p.locations ++ [(p.mint k line address).1] := by
  rw [mint, locations_pushLocation, locations_internFunction]

@[simp] theorem functions_mint :
    (p.mint k line address).2.functions = (p.internFunction k).2.functions := rfl

@[simp] theorem samples_mint : (p.mint k line address).2.samples = p.samples := by
  rw [mint, samples_pushLocation, samples_internFunction]

theorem extends_mint : p.Extends (p.mint k line address).2 where
  locations := by
    rw [locations_mint]
    exact List.prefix_append _ _
  functions := functions_prefix_internFunction p k
  samples := (samples_mint p k line address) ▸ List.prefix_refl _

variable {p}

theorem Dense.mint (h : p.Dense) : (p.mint k line address).2.Dense := by
  obtain ⟨-, hnum, hid⟩ := internFunction_spec h k
  refine ⟨?_, ?_, ?_, ?_⟩
  · intro i l hl
    rw [locations_mint] at hl
    rcases getElem?_concat_eq_some hl with hl | ⟨rfl, rfl⟩
    · exact h.locationId i l hl
    · exact id_mint p k line address
  · intro l hl
    rw [locations_mint, List.mem_append, List.mem_singleton] at hl
    rcases hl with hl | rfl
    · exact h.lines l hl
    · exact .inl ⟨_, lines_mint p k line address⟩
  · exact hid
  · have hrefs : (p.mint k line address).2.functionRefs =
        p.functionRefs ++ [(p.internFunction k).1] := by
      simp [functionRefs]
    rw [hrefs]
    exact h.functionOrder.append hnum

theorem Lined.mint (h : p.Lined) : (p.mint k line address).2.Lined := by
  intro l hl
  rw [locations_mint, List.mem_append, List.mem_singleton] at hl
  rcases hl with hl | rfl
  · exact h l hl
  · exact ⟨_, lines_mint p k line address⟩

/-- A minted location shows what it was minted for. -/
theorem viewOf?_mint (h : p.Dense) :
    (p.mint k line address).2.viewOf? (p.mint k line address).1 =
      some ⟨k.name, k.fileName, line, address⟩ := by
  have hf : (p.mint k line address).2.function? (p.internFunction k).1 =
      some ⟨(p.internFunction k).1, k⟩ := (internFunction_spec h k).1
  simp [viewOf?, hf]

/-- A minted location has the next identifier. -/
theorem numbered_mint :
    Numbered p.locations.length [(p.mint k line address).1.id]
      (p.mint k line address).2.locations.length := by
  simpa using Numbered.single_fresh p.locations.length

theorem mem_mint : (p.mint k line address).1 ∈ (p.mint k line address).2.locations := by
  simp

end Profile

end StackProfile
