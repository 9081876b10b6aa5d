import StackProfile.Native.PerfMap
import StackProfile.Profile.Basic
import StackProfile.Registry
import StackProfile.Trace.Basic

/-! # Symbolizers

A symbolizer names native addresses by a symbol table.  It remembers the names it has given until
another symbol is registered.  Several builders may share a symbolizer; the locations it remembers
belong to one builder at a time, its owner, and are forgotten when another builder asks for a
location, also if it gets none.

Main lemmas: a remembered name is given again (`nameOf_of_known`), and an owner that asks again
finds the remembered locations (`ownedBy_of_owner`). -/

namespace StackProfile

/-- Symbols, remembered names by address, and remembered locations of the owner by address. -/
structure Symbolizer where
  symbols : SymbolTable := .empty
  names : Registry Int String := .empty
  locations : Registry Int Location := .empty
  owner : Option Nat := none
deriving DecidableEq, Repr

/-- What loading a perf map reports. -/
structure LoadReport where
  loaded : Nat
  warnings : List String
deriving DecidableEq, Repr

/-- Why a perf map cannot be loaded. -/
inductive LoadError where
  | noFile (path : String)
deriving DecidableEq, Repr

/-- The text of a load error. -/
def LoadError.message : LoadError → String
  | noFile path => s!"Perf map file not found: {path}"

/-- Why the native frames of a batch cannot be resolved. -/
inductive ResolveError where
  | noAddress
deriving DecidableEq, Repr

namespace Symbolizer

/-- Registers a symbol; the remembered names are forgotten. -/
def register (z : Symbolizer) (s : Symbol) : Symbolizer :=
  { z with symbols := z.symbols.insert s, names := .empty }

/-- Registers symbols one after the other. -/
def registerAll (z : Symbolizer) (ss : List Symbol) : Symbolizer := ss.foldl register z

/-- A symbolizer with some symbols. -/
def ofSymbols (ss : List Symbol) : Symbolizer := registerAll {} ss

/-- Registers the symbols of the perf map at `path`, if there is a file. -/
def load (z : Symbolizer) (path : String) :
    (content? : Option String) → Except LoadError LoadReport × Symbolizer
  | none => (.error (.noFile path), z)
  | some content =>
    let ls := PerfMap.mapLines content.toList
    let ss := PerfMap.symbols ls
    (.ok ⟨ss.length, PerfMap.warnings path 1 ls⟩, z.registerAll ss)

/-- The name of an address, which is remembered. -/
def nameOf (z : Symbolizer) (address : Int) : String × Symbolizer :=
  match z.names.get? address with
  | some name => (name, z)
  | none =>
    let name := z.symbols.resolve address
    (name, { z with names := z.names.insert address name })

/-- The names of addresses, one after the other. -/
def nameAll (z : Symbolizer) : List Int → List String × Symbolizer
  | [] => ([], z)
  | a :: as =>
    let (n, z) := z.nameOf a
    let (ns, z) := nameAll z as
    (n :: ns, z)

/-- Resolves the native frames of a trace in order.  A native frame without address is an error; the
names up to there are remembered. -/
def resolveTrace (z : Symbolizer) : Trace → Except ResolveError Unit × Symbolizer
  | [] => (.ok (), z)
  | f :: t =>
    if f.isNative then
      match f.address? with
      | some address => resolveTrace (z.nameOf address).2 t
      | none => (.error .noAddress, z)
    else resolveTrace z t

/-- Resolves the native frames of a batch, trace by trace. -/
def resolveBatch (z : Symbolizer) (batch : List Capture) : Except ResolveError Unit × Symbolizer :=
  resolveTrace z (batch.flatMap (·.trace))

/-- The symbolizer with `owner` as its owner; locations of another owner are forgotten. -/
def ownedBy (z : Symbolizer) (owner : Nat) : Symbolizer :=
  if z.owner = some owner then z else { z with owner := some owner, locations := .empty }

/-- The location of an address in the profile of a builder: the remembered one, or a new one. -/
def locate (z : Symbolizer) (owner : Nat) (p : Profile) (address : Int) :
    Location × Symbolizer × Profile :=
  let z := z.ownedBy owner
  match z.locations.get? address with
  | some location => (location, z, p)
  | none =>
    let (name, z) := z.nameOf address
    let (functionId, p) := p.internFunction { name }
    let (location, p) := p.pushLocation [⟨functionId, 0⟩] address
    (location, { z with locations := z.locations.insert address location }, p)

/-- The remembered names in increasing order of their addresses. -/
def namesByAddress (z : Symbolizer) : List (Int × String) :=
  z.names.entries.mergeSort fun a b => a.1 ≤ b.1

@[simp] theorem symbols_nameOf (z : Symbolizer) (a : Int) : (z.nameOf a).2.symbols = z.symbols := by
  rw [nameOf]
  split <;> rfl

@[simp] theorem owner_nameOf (z : Symbolizer) (a : Int) : (z.nameOf a).2.owner = z.owner := by
  rw [nameOf]
  split <;> rfl

@[simp] theorem locations_nameOf (z : Symbolizer) (a : Int) :
    (z.nameOf a).2.locations = z.locations := by
  rw [nameOf]
  split <;> rfl

@[simp] theorem symbols_ownedBy (z : Symbolizer) (o : Nat) :
    (z.ownedBy o).symbols = z.symbols := by
  rw [ownedBy]
  split <;> rfl

@[simp] theorem names_ownedBy (z : Symbolizer) (o : Nat) : (z.ownedBy o).names = z.names := by
  rw [ownedBy]
  split <;> rfl

@[simp] theorem owner_ownedBy (z : Symbolizer) (o : Nat) : (z.ownedBy o).owner = some o := by
  rw [ownedBy]
  split
  · assumption
  · rfl

theorem nameOf_of_known {z : Symbolizer} {a : Int} {n : String} (h : z.names.get? a = some n) :
    z.nameOf a = (n, z) := by
  rw [nameOf, h]

theorem ownedBy_of_owner {z : Symbolizer} {o : Nat} (h : z.owner = some o) : z.ownedBy o = z :=
  if_pos h

end Symbolizer

end StackProfile
