import Mathlib.Data.List.MinMax
import StackProfile.Proofs.Coherence

/-! # Names by a plain scan

A symbol table keeps its symbols sorted, and a symbolizer remembers the names that it gave.  Neither
can be told from the names: an address has the name that a plain scan over the registered symbols
gives it, in the order in which they were registered.

Main lemmas: the nearest of the registered symbols (`nearest?_concat`) is
the one that a table finds (`last?_ofList`), an operation registers its symbols and no others
(`symbolsAt_step`), and after every run names are those of the scan (`naming_after`). -/

namespace StackProfile

/-! ### The scan -/

namespace Symbol

/-- The symbols with the greatest start. -/
def highest (ss : List Symbol) : List Symbol := ss.filter fun s => ss.all (·.start ≤ s.start)

/-- Of the symbols with the greatest start that is not above an address, the one that was registered
last. -/
def nearest? (registered : List Symbol) (address : Int) : Option Symbol :=
  (highest (registered.filter (·.start ≤ address))).getLast?

/-- The name of an address by a scan over the registered symbols. -/
def scannedName (registered : List Symbol) (address : Int) : String :=
  match nearest? registered address with
  | some s => if address < s.start + s.size then s.name else addressText address
  | none => addressText address

variable {ss : List Symbol} {s : Symbol} {a : Int}

theorem mem_highest : s ∈ highest ss ↔ s ∈ ss ∧ ∀ u ∈ ss, u.start ≤ s.start := by
  simp [highest]

/-- Some symbol has the greatest start. -/
theorem highest_eq_nil_iff : highest ss = [] ↔ ss = [] := by
  constructor
  · intro h
    cases hmax : ss.argmax (·.start) with
    | none => exact List.argmax_eq_none.1 hmax
    | some m =>
        have hm : m ∈ highest ss :=
          mem_highest.2 ⟨List.argmax_mem hmax, fun u hu => List.le_of_mem_argmax hu hmax⟩
        rw [h] at hm
        cases hm
  · rintro rfl
    rfl

/-- One more symbol is the last one with the greatest start, unless it starts before those. -/
theorem getLast?_highest_concat (ss : List Symbol) (s : Symbol) :
    (highest (ss ++ [s])).getLast? =
      match (highest ss).getLast? with
      | some u => if u.start ≤ s.start then some s else some u
      | none => some s := by
  have hsplit : highest (ss ++ [s]) =
      (ss.filter fun u => (ss ++ [s]).all (·.start ≤ u.start)) ++
        if (ss ++ [s]).all (·.start ≤ s.start) then [s] else [] := by
    simp only [highest, List.filter_append, List.filter_singleton, cond_eq_ite]
  cases hlast : (highest ss).getLast? with
  | none =>
      obtain rfl := highest_eq_nil_iff.1 (List.getLast?_eq_none_iff.1 hlast)
      simp [highest]
  | some u =>
      obtain ⟨hu, hmax⟩ := mem_highest.1 (List.mem_of_getLast? hlast)
      by_cases hus : u.start ≤ s.start
      · have hall : (ss ++ [s]).all (·.start ≤ s.start) = true := by
          simp only [List.all_append, List.all_cons, List.all_nil, Bool.and_eq_true,
            List.all_eq_true, decide_eq_true_eq]
          exact ⟨fun v hv => Int.le_trans (hmax v hv) hus, Int.le_refl _, trivial⟩
        rw [hsplit, if_pos hall, List.getLast?_concat]
        exact (if_pos hus).symm
      · have hnot : ¬ (ss ++ [s]).all (·.start ≤ s.start) = true := by
          intro hall
          have := List.all_eq_true.1 hall u (List.mem_append_left _ hu)
          exact hus (by simpa using this)
        have hsame : (ss.filter fun v => (ss ++ [s]).all (·.start ≤ v.start)) = highest ss := by
          apply List.filter_congr
          intro v hv
          rw [List.all_append, Bool.and_eq_left_iff_imp]
          intro hall
          have hle : u.start ≤ v.start := by simpa using List.all_eq_true.1 hall u hu
          simp only [List.all_cons, List.all_nil, Bool.and_true, decide_eq_true_eq]
          omega
        rw [hsplit, if_neg hnot, List.append_nil, hsame, hlast]
        exact (if_neg hus).symm

theorem mem_of_nearest? (h : nearest? ss a = some s) : s ∈ ss ∧ s.start ≤ a := by
  have hmem := (mem_highest.1 (List.mem_of_getLast? h)).1
  exact ⟨List.mem_of_mem_filter hmem, by simpa using (List.mem_filter.1 hmem).2⟩

/-- One more symbol is the nearest from its start on, up to the symbols with a greater start. -/
theorem nearest?_concat (ss : List Symbol) (s : Symbol) (a : Int) :
    nearest? (ss ++ [s]) a =
      if s.start ≤ a then
        match nearest? ss a with
        | some u => if u.start ≤ s.start then some s else some u
        | none => some s
      else nearest? ss a := by
  unfold nearest?
  rw [List.filter_append]
  by_cases hs : s.start ≤ a
  · rw [if_pos hs, List.filter_cons_of_pos (by simpa using hs), List.filter_nil,
      getLast?_highest_concat]
  · rw [if_neg hs, List.filter_cons_of_neg (by simpa using hs), List.filter_nil, List.append_nil]

end Symbol

/-! ### Tables -/

namespace SymbolTable

theorem ofList_concat (ss : List Symbol) (s : Symbol) :
    ofList (ss ++ [s]) = (ofList ss).insert s := by
  unfold ofList
  rw [List.foldl_append]
  rfl

theorem ofList_append (ss ts : List Symbol) : ofList (ss ++ ts) = ts.foldl insert (ofList ss) :=
  List.foldl_append

/-- A table finds the nearest of the symbols that were registered. -/
theorem last?_ofList (ss : List Symbol) (a : Int) :
    (ofList ss).last? a = Symbol.nearest? ss a := by
  induction ss using List.reverseRecOn with
  | nil => rfl
  | append_singleton ss s ih =>
      rw [ofList_concat, last?_insert, Symbol.nearest?_concat]
      cases h : Symbol.nearest? ss a <;> simp only [ih, h]

theorem resolve_ofList (ss : List Symbol) : (ofList ss).resolve = Symbol.scannedName ss := by
  funext a
  unfold resolve Symbol.scannedName
  rw [last?_ofList]
  cases h : Symbol.nearest? ss a with
  | none => rfl
  | some s =>
      have hs := (Symbol.mem_of_nearest? h).2
      simp [Symbol.holds, hs]

end SymbolTable

/-! ### Symbolizers -/

namespace Symbolizer

theorem symbols_registerAll (z : Symbolizer) (ss : List Symbol) :
    (z.registerAll ss).symbols = ss.foldl SymbolTable.insert z.symbols := by
  induction ss generalizing z with
  | nil => rfl
  | cons s ss ih => exact ih (z.register s)

/-- What a truthful symbolizer remembers is what its table says. -/
theorem Truthful.of_known {z : Symbolizer} (h : z.Truthful) {a : Int} {n : String}
    (hn : z.names.get? a = some n) : n = z.symbols.resolve a := by
  rw [← h, naming_eq, hn, Option.getD_some]

end Symbolizer

theorem Builder.symbols_addBatch (b : Builder) (z : Symbolizer) (methods : MethodTable)
    (batch : List Capture) (counts? : Option (List Int)) :
    (b.addBatch z methods batch counts?).2.2.symbols = z.symbols := by
  rcases b.addBatch_cases z methods batch counts? with
    ⟨e, z', he, hren⟩ | ⟨z', hren, hknown, -, he⟩
  · rw [he]
    exact hren.symbols
  · obtain ⟨-, hsymbols⟩ := @names_addCaptures b z' (batch.zip (weights batch counts?))
      (fun c hc => hknown c.1 (List.of_mem_zip hc).1) methods
    rw [he]
    exact hsymbols.trans hren.symbols

theorem Builder.symbols_locateFrame (b : Builder) (z : Symbolizer) (f : Frame) :
    (b.locateFrame z f).2.2.symbols = z.symbols := by
  cases ha : f.address? with
  | some a =>
      rw [locateFrame_of_address ha]
      exact z.symbols_locate b.id b.profile a
  | none =>
      rw [locateFrame_of_no_address ha]
      exact z.symbols_ownedBy b.id

/-! ### Sessions -/

namespace Session

/-- The symbols that an answered operation registers at the symbolizer `k`, in their order; a
refused operation registers none. -/
def registrations (k : Nat) (s : Session) : Op × Except OpError Answer → List Symbol
  | (.openSymbolizer symbols, .ok _) => if s.symbolizers.length = k then symbols else []
  | (.register j symbol, .ok _) => if j = k then [symbol] else []
  | (.load j _ (some content), .ok _) =>
    if j = k then PerfMap.symbols (PerfMap.mapLines content.toList) else []
  | _ => []

/-- The symbols that were registered at the symbolizer `k` during a run, in their order. -/
def registered (exp : Float → Float) (k : Nat) (ops : List Op) : List Symbol :=
  logAfter exp (registrations k) ops

/-- The symbol table of the symbolizer `k`, which is empty before the symbolizer is opened. -/
def symbolsAt (s : Session) (k : Nat) : SymbolTable :=
  (s.symbolizers[k]?.map (·.symbols)).getD .empty

variable {s : Session} {j k : Nat} {z z' : Symbolizer}

theorem symbolsAt_of_getElem? (hz : s.symbolizers[k]? = some z) : s.symbolsAt k = z.symbols := by
  rw [symbolsAt, hz]
  rfl

theorem symbolsAt_setSymbolizer (hz : s.symbolizers[j]? = some z) (z' : Symbolizer) (k : Nat) :
    (s.setSymbolizer j z').symbolsAt k = if j = k then z'.symbols else s.symbolsAt k := by
  unfold symbolsAt
  rw [getElem?_setSymbolizer hz]
  split <;> rfl

/-- Work with a symbolizer that keeps its symbols. -/
theorem symbolsAt_setSymbolizer_of_eq (hz : s.symbolizers[j]? = some z)
    (h : z'.symbols = z.symbols) (k : Nat) :
    (s.setSymbolizer j z').symbolsAt k = s.symbolsAt k := by
  rw [symbolsAt_setSymbolizer hz]
  split
  · rename_i hjk
    rw [h, ← hjk, symbolsAt_of_getElem? hz]
  · rfl

theorem symbolsAt_onSymbolizer_of_eq {f : Symbolizer → Except OpError Answer × Symbolizer}
    (hf : ∀ z : Symbolizer, (f z).2.symbols = z.symbols) (s : Session) (j k : Nat) :
    (s.onSymbolizer j f).2.symbolsAt k = s.symbolsAt k := by
  unfold onSymbolizer
  cases hz : s.symbolizers[j]? with
  | none => rfl
  | some z => exact symbolsAt_setSymbolizer_of_eq hz (hf z) k

theorem symbolsAt_pushSymbolizer (s : Session) (z : Symbolizer) (k : Nat) :
    (s.pushSymbolizer z).symbolsAt k =
      if s.symbolizers.length = k then z.symbols else s.symbolsAt k := by
  unfold symbolsAt pushSymbolizer
  rcases Nat.lt_trichotomy k s.symbolizers.length with hk | rfl | hk
  · rw [if_neg (Nat.ne_of_gt hk), List.getElem?_append_left hk]
  · rw [if_pos rfl, List.getElem?_append_right (Nat.le_refl _), Nat.sub_self]
    rfl
  · have hlen : (s.symbolizers ++ [z]).length ≤ k := by
      rw [List.length_append, List.length_singleton]
      omega
    rw [if_neg (Nat.ne_of_lt hk), List.getElem?_eq_none hlen,
      List.getElem?_eq_none (Nat.le_of_lt hk)]

theorem symbolsAt_onBuilder (s : Session) (i : Nat)
    (f : Builder → Except OpError Answer × Builder) (k : Nat) :
    (s.onBuilder i f).2.symbolsAt k = s.symbolsAt k := by
  unfold onBuilder
  cases s.desks[i]? <;> rfl

theorem symbols_resolveBatch (batch : List Capture) (z : Symbolizer) :
    (resolveBatch batch z).2.symbols = z.symbols := by
  rw [snd_resolveBatch]
  exact (z.renamed_resolveBatch batch).symbols

theorem symbolsAt_locate (s : Session) (j i : Nat) (f : Frame) (k : Nat) :
    (s.locate j i f).2.symbolsAt k = s.symbolsAt k := by
  unfold locate
  cases hz : s.symbolizers[j]? with
  | none => rfl
  | some z =>
      cases s.desks[i]? with
      | none => rfl
      | some d => exact symbolsAt_setSymbolizer_of_eq hz (d.builder.symbols_locateFrame z f) k

theorem symbolsAt_addBatch (s : Session) (i : Nat) (batch : List Capture)
    (counts? : Option (List Int)) (k : Nat) :
    (s.addBatch i batch counts?).2.symbolsAt k = s.symbolsAt k := by
  rcases s.addBatch_absent_or i batch counts? with habsent | ⟨d, z, methods, hd, hz, ht⟩
  · rw [habsent]
  · rw [snd_addBatch hd hz ht]
    exact symbolsAt_setSymbolizer_of_eq hz
      (d.builder.symbols_addBatch z methods batch counts?) k

theorem symbolsAt_openSymbolizer (s : Session) (symbols : List Symbol) (k : Nat) :
    (s.pushSymbolizer (.ofSymbols symbols)).symbolsAt k =
      (if s.symbolizers.length = k then symbols else []).foldl SymbolTable.insert
        (s.symbolsAt k) := by
  rw [symbolsAt_pushSymbolizer]
  by_cases hk : s.symbolizers.length = k
  · have hnone : s.symbolsAt k = .empty := by
      rw [symbolsAt, List.getElem?_eq_none (Nat.le_of_eq hk)]
      rfl
    rw [if_pos hk, if_pos hk, hnone, Symbolizer.ofSymbols, Symbolizer.symbols_registerAll]
  · rw [if_neg hk, if_neg hk, List.foldl_nil]

/-- Work with a symbolizer that registers `ss`. -/
theorem symbolsAt_setSymbolizer_of_foldl {ss : List Symbol} (hz : s.symbolizers[j]? = some z)
    (h : z'.symbols = ss.foldl SymbolTable.insert z.symbols) (k : Nat) :
    (s.setSymbolizer j z').symbolsAt k =
      (if j = k then ss else []).foldl SymbolTable.insert (s.symbolsAt k) := by
  rw [symbolsAt_setSymbolizer hz]
  by_cases hjk : j = k
  · rw [if_pos hjk, if_pos hjk, h, ← hjk, symbolsAt_of_getElem? hz]
  · rw [if_neg hjk, if_neg hjk, List.foldl_nil]

theorem symbols_load (path content : String) (z : Symbolizer) :
    (load path (some content) z).2.symbols =
      (PerfMap.symbols (PerfMap.mapLines content.toList)).foldl SymbolTable.insert z.symbols := by
  rw [snd_load]
  exact z.symbols_registerAll _

/-- An operation registers its symbols, and no operation drops one. -/
theorem symbolsAt_step (exp : Float → Float) (s : Session) (op : Op) (k : Nat) :
    (s.step exp op).2.symbolsAt k =
      (s.registrations k (op, (s.step exp op).1)).foldl SymbolTable.insert (s.symbolsAt k) := by
  cases op with
  | openSymbolizer symbols => exact s.symbolsAt_openSymbolizer symbols k
  | register j symbol =>
      simp only [step, onSymbolizer]
      cases hz : s.symbolizers[j]? with
      | none => rfl
      | some z =>
          exact @symbolsAt_setSymbolizer_of_foldl s j z (z.register symbol) [symbol] hz rfl k
  | load j path content? =>
      simp only [step, onSymbolizer]
      cases hz : s.symbolizers[j]? with
      | none => cases content? <;> rfl
      | some z =>
          cases content? with
          | none => exact symbolsAt_setSymbolizer_of_eq hz rfl k
          | some content =>
              exact symbolsAt_setSymbolizer_of_foldl hz (symbols_load path content z) k
  | nameAll j addresses =>
      exact symbolsAt_onSymbolizer_of_eq (fun z => (z.renamed_nameAll addresses).symbols) s j k
  | resolveBatch j batch => exact symbolsAt_onSymbolizer_of_eq (symbols_resolveBatch batch) s j k
  | knownNames j => exact symbolsAt_onSymbolizer_of_eq (fun _ => rfl) s j k
  | locate j i f => exact s.symbolsAt_locate j i f k
  | addMethod m id method =>
      simp only [step]
      cases s.methodTables[m]? <;> rfl
  | resolve m frame =>
      simp only [step]
      cases s.methodTables[m]? <;> rfl
  | openConfigured kind rate skip? unsample? j m =>
      simp only [step]
      cases Settings.make kind rate skip? unsample? <;> rfl
  | addBatch i batch counts? => exact s.symbolsAt_addBatch i batch counts? k
  | addArtificial i name count rate => exact s.symbolsAt_onBuilder i _ k
  | intern i label => exact s.symbolsAt_onBuilder i _ k
  | look i => exact s.symbolsAt_onBuilder i _ k
  | stackNames i => exact s.symbolsAt_onBuilder i _ k
  | finish i how => exact s.symbolsAt_onBuilder i _ k
  | openMethods methods => rfl
  | openPlanned plan j m => rfl

/-- The table of a symbolizer is that of the symbols that were registered. -/
theorem symbolsAt_after (exp : Float → Float) (k : Nat) (ops : List Op) :
    (after exp ops).symbolsAt k = .ofList (registered exp k ops) := by
  refine after_induction (M := fun ops s => s.symbolsAt k = .ofList (registered exp k ops)) ?_ ?_
    ops
  · rfl
  · intro ops op ih
    rw [symbolsAt_step, ih, registered, registered, logAfter_concat, SymbolTable.ofList_append]

theorem resolve_after (exp : Float → Float) {ops : List Op}
    (hz : (after exp ops).symbolizers[k]? = some z) :
    z.symbols.resolve = Symbol.scannedName (registered exp k ops) := by
  rw [← symbolsAt_of_getElem? hz, symbolsAt_after, SymbolTable.resolve_ofList]

/-- After every run a symbolizer gives the names of a plain scan over the symbols that were
registered, and so are the names that it remembers. -/
theorem naming_after (exp : Float → Float) {ops : List Op}
    (hz : (after exp ops).symbolizers[k]? = some z) :
    (∀ a, (z.nameOf a).1 = Symbol.scannedName (registered exp k ops) a) ∧
      ∀ a n, z.names.get? a = some n → n = Symbol.scannedName (registered exp k ops) a := by
  have htruthful : z.Truthful := (coherent_after_any exp ops).truthful k z hz
  have hresolve := resolve_after exp hz
  constructor
  · intro a
    rw [← hresolve]
    exact congrFun htruthful a
  · intro a n hn
    rw [← hresolve]
    exact htruthful.of_known hn

/-- Two symbols with one start, one of negative size, one from a perf map that begins with a bad
line, and a batch that is refused half-way. -/
theorem naming_after_mixed :
    let ops : List Op := [.openSymbolizer [⟨16, 8, "f"⟩, ⟨16, 4, "g"⟩], .nameAll 0 [17, 21, 30],
      .register 0 ⟨24, -2, "h"⟩, .load 0 "m" (some "zz 1 x\n1c 4 k\n"),
      .resolveBatch 0 [⟨[.native 30, ⟨Frame.nativeLine, .unknown⟩, .native 17], 1⟩]]
    ∃ z : Symbolizer, (after id ops).symbolizers[0]? = some z ∧
      z.names.entries = [(30, "k")] ∧ (z.nameOf 17).1 = "g" ∧ (z.nameOf 21).1 = "0x15" ∧
      (z.nameOf 25).1 = "0x19" ∧ (z.nameOf (-30)).1 = "0x-1e" := by
  intro ops
  have hregistered : registered id 0 ops =
      [⟨16, 8, "f"⟩, ⟨16, 4, "g"⟩, ⟨24, -2, "h"⟩, ⟨28, 4, "k"⟩] := by decide +kernel
  obtain ⟨hnames, -⟩ := @naming_after 0 _ id ops rfl
  rw [hregistered] at hnames
  refine ⟨_, rfl, ?_, ?_, ?_, ?_, ?_⟩
  · decide +kernel
  all_goals rw [hnames]; decide +kernel

end Session

end StackProfile
