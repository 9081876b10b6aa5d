import StackProfile.Proofs.WholeBatches

/-! # Batches in two parts

Before a batch is folded in, the symbolizer names all its native frames.  If the batch comes in two
parts, the frames of the second part are named only after the first part was folded in.  This makes
no difference: folding a capture in asks for the names of its own frames alone, which are known, and
it leaves the names as they are.

Main lemmas: names depend on the names given before and on the symbols (`resolveTrace_of_eq`), what
folding does with more names (`addCaptures_withNames`), and a batch in two parts, for a builder
(`addBatch_append`) and in a session (`step_addBatch_append`). -/

namespace StackProfile

namespace Symbolizer

/-- The symbolizer with other names that it remembers. -/
def withNames (z : Symbolizer) (names : Registry Int String) : Symbolizer := { z with names }

variable {y z z' : Symbolizer} {ns : Registry Int String}

/-! ### Resolving -/

theorem Renamed.eq_withNames (h : z.Renamed z') : z' = z.withNames z'.names := by
  obtain ⟨symbols, names, locations, owner⟩ := z'
  obtain ⟨rfl, rfl, rfl, -, -⟩ := h
  rfl

theorem nameOf_of_eq (hn : y.names = z.names) (hs : y.symbols = z.symbols) (a : Int) :
    y.nameOf a = ((z.nameOf a).1, y.withNames (z.nameOf a).2.names) := by
  obtain ⟨symbols, names, locations, owner⟩ := y
  obtain rfl : names = z.names := hn
  obtain rfl : symbols = z.symbols := hs
  unfold nameOf
  cases z.names.get? a <;> rfl

/-- What resolving makes of the names depends on the names and on the symbols. -/
theorem resolveTrace_of_eq (hn : y.names = z.names) (hs : y.symbols = z.symbols) (t : Trace) :
    y.resolveTrace t = ((z.resolveTrace t).1, y.withNames (z.resolveTrace t).2.names) := by
  induction t generalizing y z with
  | nil =>
      rw [resolveTrace, resolveTrace, ← hn]
      rfl
  | cons f t ih =>
      rw [resolveTrace, resolveTrace]
      cases hf : f.isNative with
      | false => exact ih hn hs
      | true =>
          cases ha : f.address? with
          | none => simp [← hn, withNames]
          | some a =>
              have hnames : (y.nameOf a).2.names = (z.nameOf a).2.names := by
                rw [nameOf_of_eq hn hs]
                rfl
              have hsymbols : (y.nameOf a).2.symbols = (z.nameOf a).2.symbols := by
                rw [symbols_nameOf, symbols_nameOf, hs]
              simp only [if_true]
              rw [ih hnames hsymbols, nameOf_of_eq hn hs]
              rfl

/-- Frames are resolved one after the other. -/
theorem resolveTrace_append {t : Trace} (h : (z.resolveTrace t).1 = .ok ()) (u : Trace) :
    z.resolveTrace (t ++ u) = (z.resolveTrace t).2.resolveTrace u := by
  fun_induction resolveTrace z t with
  | case1 z => rfl
  | case2 z f t hf a ha ih =>
      rw [List.cons_append, resolveTrace, if_pos hf]
      simp only [ha]
      exact ih h
  | case3 z f t hf ha => simp at h
  | case4 z f t hf ih =>
      rw [List.cons_append, resolveTrace, if_neg hf]
      exact ih h

/-- A batch that can be resolved can be resolved in two parts. -/
theorem resolveBatch_append {batch₁ batch₂ : List Capture}
    (h : (z.resolveBatch (batch₁ ++ batch₂)).1 = .ok ()) :
    (z.resolveBatch batch₁).1 = .ok () ∧
      z.resolveBatch (batch₁ ++ batch₂) = (z.resolveBatch batch₁).2.resolveBatch batch₂ := by
  have h₁ : (z.resolveBatch batch₁).1 = .ok () := by
    rw [resolveBatch_eq_ok_iff] at h ⊢
    exact fun c hc => h c (List.mem_append_left _ hc)
  refine ⟨h₁, ?_⟩
  unfold resolveBatch at h₁ ⊢
  rw [List.flatMap_append, resolveTrace_append h₁]

/-! ### Locating -/

theorem ownedBy_withNames (z : Symbolizer) (ns : Registry Int String) (owner : Nat) :
    (z.withNames ns).ownedBy owner = (z.ownedBy owner).withNames ns := by
  unfold ownedBy
  show (if z.owner = some owner then _ else _) = _
  split <;> rfl

/-- More names than are needed carry over. -/
theorem Renamed.carry (h : z.Renamed (z.withNames ns)) (hn : y.names = z.names)
    (hs : y.symbols = z.symbols) : y.Renamed (y.withNames ns) where
  symbols := rfl
  locations := rfl
  owner := rfl
  naming := by
    have hy : y.naming = z.naming := naming_congr hn hs
    rw [hy, ← h.naming]
    exact naming_congr rfl hs
  known a ha := h.known a (hn ▸ ha)

/-- Locating an address with a name does the same with more names. -/
theorem locate_withNames {a : Int} (h : z.Renamed (z.withNames ns))
    (ha : (z.names.get? a).isSome = true) (owner : Nat) (p : Profile) :
    (z.withNames ns).locate owner p a =
      ((z.locate owner p a).1, (z.locate owner p a).2.1.withNames ns,
        (z.locate owner p a).2.2) := by
  have hown := ownedBy_withNames z ns owner
  cases hl : (z.ownedBy owner).locations.get? a with
  | some l =>
      have hl' : ((z.withNames ns).ownedBy owner).locations.get? a = some l := by
        rw [hown]
        exact hl
      rw [locate_of_cached hl, locate_of_cached hl', hown]
  | none =>
      have hl' : ((z.withNames ns).ownedBy owner).locations.get? a = none := by
        rw [hown]
        exact hl
      obtain ⟨n, hn⟩ := Option.isSome_iff_exists.1 ha
      obtain ⟨n', hn'⟩ := Option.isSome_iff_exists.1 (h.known a ha)
      have hname : (z.ownedBy owner).nameOf a = (n, z.ownedBy owner) :=
        nameOf_of_known (by rw [names_ownedBy, hn])
      have hname' : ((z.ownedBy owner).withNames ns).nameOf a =
          (n', (z.ownedBy owner).withNames ns) := nameOf_of_known hn'
      rw [locate_of_fresh hl, locate_of_fresh hl', h.naming, hown, hname, hname']
      rfl

end Symbolizer

/-! ### Folding in -/

namespace Request

variable {z : Symbolizer} {ns : Registry Int String} {owner : Nat}

theorem serve_withNames {q : Request} (h : z.Renamed (z.withNames ns)) (hq : q.Known z)
    (t : LocationTable) :
    q.serve owner t (z.withNames ns) =
      ((q.serve owner t z).1, (q.serve owner t z).2.1, (q.serve owner t z).2.2.withNames ns) := by
  cases q with
  | managed k => rfl
  | native a => rw [serve, serve, Symbolizer.locate_withNames h hq]

theorem serveAll_withNames {qs : List Request} (h : z.Renamed (z.withNames ns))
    (hqs : ∀ q ∈ qs, q.Known z) (t : LocationTable) :
    serveAll owner t (z.withNames ns) qs =
      ((serveAll owner t z qs).1, (serveAll owner t z qs).2.1,
        (serveAll owner t z qs).2.2.withNames ns) := by
  induction qs generalizing t z with
  | nil => rfl
  | cons q qs ih =>
      have hq := hqs q List.mem_cons_self
      have hnames := names_serve_of_known hq owner t
      have hsymbols := symbols_serve owner t z q
      have hrest : ∀ r ∈ qs, r.Known (q.serve owner t z).2.2 :=
        fun r hr => Known.of_names_eq (hqs r (List.mem_cons_of_mem q hr)) hnames
      have hnext := ih (h.carry hnames hsymbols) hrest (q.serve owner t z).2.1
      simp only [serveAll, serve_withNames h hq, hnext]

end Request

namespace Builder

variable {b : Builder} {z : Symbolizer} {ns : Registry Int String}

/-- Folding a capture in does the same with more names than it needs. -/
theorem addCapture_withNames {c : Capture × Int} (h : z.Renamed (z.withNames ns))
    (hc : ∀ f ∈ c.1.trace, f.KnownTo z) (b : Builder) (methods : MethodTable) :
    addCapture methods (b, z.withNames ns) c =
      ((addCapture methods (b, z) c).1, (addCapture methods (b, z) c).2.withNames ns) := by
  obtain ⟨c, count⟩ := c
  cases hi : b.index.sample? c.trace with
  | some j => rw [addCapture_of_known hi, addCapture_of_known hi]
  | none =>
      have hc' : ∀ f ∈ c.trace, f.KnownTo (z.withNames ns) := fun f hf => h.knownTo (hc f hf)
      have hqs := Trace.known_requests hc z.naming b.plan.skip methods
      rw [addCapture_of_fresh hi hc, addCapture_of_fresh hi hc', h.naming]
      simp only [Request.serveAll_withNames h hqs]

theorem addCaptures_withNames {cs : List (Capture × Int)} (h : z.Renamed (z.withNames ns))
    (hcs : ∀ c ∈ cs, ∀ f ∈ c.1.trace, f.KnownTo z) (b : Builder) (methods : MethodTable) :
    addCaptures methods (b, z.withNames ns) cs =
      ((addCaptures methods (b, z) cs).1, (addCaptures methods (b, z) cs).2.withNames ns) := by
  induction cs generalizing b z with
  | nil => rfl
  | cons c cs ih =>
      have hc := hcs c List.mem_cons_self
      obtain ⟨hnames, -⟩ := @names_addCapture b z c.1 hc methods c.2
      have hsymbols := @symbols_addCapture b z c hc methods
      show addCaptures methods (addCapture methods (b, z.withNames ns) c) cs = _
      rw [addCapture_withNames h hc,
        ih (h.carry hnames hsymbols) (knownTo_addCapture hcs b methods)]
      rfl

/-- So it does after more names were given. -/
theorem addCaptures_of_renamed {z' : Symbolizer} {cs : List (Capture × Int)} (h : z.Renamed z')
    (hcs : ∀ c ∈ cs, ∀ f ∈ c.1.trace, f.KnownTo z) (b : Builder) (methods : MethodTable) :
    addCaptures methods (b, z') cs =
      ((addCaptures methods (b, z) cs).1,
        (addCaptures methods (b, z) cs).2.withNames z'.names) := by
  obtain ⟨ns, rfl⟩ : ∃ ns, z' = z.withNames ns := ⟨_, h.eq_withNames⟩
  exact addCaptures_withNames h hcs b methods

/-! ### Two parts -/

/-- An accepted batch may be added in two parts, each with its own counts: the second part finds the
builder and the symbolizer such that nothing is different in the end. -/
theorem addBatch_append {batch₁ batch₂ : List Capture}
    {counts₁? counts₂? counts? : Option (List Int)}
    (hcounts : weights (batch₁ ++ batch₂) counts? =
      weights batch₁ counts₁? ++ weights batch₂ counts₂?)
    (hlen₁ : (weights batch₁ counts₁?).length = batch₁.length) {methods : MethodTable}
    (hok : (b.addBatch z methods (batch₁ ++ batch₂) counts?).1 = .ok ()) :
    let r := b.addBatch z methods batch₁ counts₁?
    r.1 = .ok () ∧
      r.2.1.addBatch r.2.2 methods batch₂ counts₂? =
        b.addBatch z methods (batch₁ ++ batch₂) counts? := by
  intro r
  obtain ⟨hlen, hres⟩ := (addBatch_eq_ok_iff _ _ _ _ _).1 hok
  have hlen₂ : (weights batch₂ counts₂?).length = batch₂.length := by
    rw [hcounts, List.length_append, List.length_append] at hlen
    omega
  obtain ⟨hres₁, happend⟩ := Symbolizer.resolveBatch_append hres
  let z₁ := (z.resolveBatch batch₁).2
  let z₂ := (z₁.resolveBatch batch₂).2
  let s := addCaptures methods (b, z₁) (batch₁.zip (weights batch₁ counts₁?))
  have hknown : ∀ c ∈ batch₁.zip (weights batch₁ counts₁?), ∀ f ∈ c.1.trace, f.KnownTo z₁ :=
    fun c hc => Symbolizer.knownTo_resolveBatch hres₁ c.1 (List.of_mem_zip hc).1
  have hren : z₁.Renamed z₂ := z₁.renamed_resolveBatch batch₂
  have hmore : addCaptures methods (b, z₂) (batch₁.zip (weights batch₁ counts₁?)) =
      (s.1, s.2.withNames z₂.names) := addCaptures_of_renamed hren hknown b methods
  obtain ⟨hnames, hsymbols⟩ := @names_addCaptures b z₁ _ hknown methods
  have hresolved : s.2.resolveBatch batch₂ = ((z₁.resolveBatch batch₂).1, s.2.withNames z₂.names) :=
    Symbolizer.resolveTrace_of_eq hnames hsymbols _
  have hres₂ : (s.2.resolveBatch batch₂).1 = .ok () := by
    rw [hresolved, ← hres, happend]
  have hr : r = (.ok (), s) := addBatch_of_ok hlen₁ hres₁ b methods
  rw [hr]
  refine ⟨rfl, ?_⟩
  calc
    s.1.addBatch s.2 methods batch₂ counts₂?
      = (.ok (), addCaptures methods (s.1, s.2.withNames z₂.names)
          (batch₂.zip (weights batch₂ counts₂?))) := by
        rw [addBatch_of_ok hlen₂ hres₂, hresolved]
    _ = (.ok (), addCaptures methods (b, z₂)
          ((batch₁ ++ batch₂).zip (weights (batch₁ ++ batch₂) counts?))) := by
        rw [hcounts, List.zip_append hlen₁.symm, addCaptures_append, hmore]
    _ = b.addBatch z methods (batch₁ ++ batch₂) counts? := by
        rw [addBatch_of_ok hlen hres, happend]

end Builder

/-! ### Sessions -/

namespace Session

variable {exp : Float → Float} {s : Session} {i : Nat} {d : Desk} {z : Symbolizer}

/-- A batch that is accepted has found what it needs. -/
theorem exists_of_addBatch_ok {batch : List Capture} {counts? : Option (List Int)}
    {answer : Answer} (h : (s.addBatch i batch counts?).1 = .ok answer) :
    ∃ d z methods, s.desks[i]? = some d ∧ s.symbolizers[d.symbolizer]? = some z ∧
      s.methodTables[d.methods]? = some methods ∧
      (d.builder.addBatch z methods batch counts?).1 = .ok () := by
  rcases s.addBatch_absent_or i batch counts? with habsent | ⟨d, z, methods, hd, hz, ht⟩
  · rw [habsent] at h
    cases h
  · refine ⟨d, z, methods, hd, hz, ht, ?_⟩
    rcases d.builder.addBatch_cases z methods batch counts? with
      ⟨e, z', he, -⟩ | ⟨z', -, -, -, he⟩
    · rw [addBatch_of_error hd hz ht he] at h
      cases h
    · rw [he]

/-- The later work of a builder and its symbolizer replaces the earlier one. -/
theorem set_set (s : Session) (k : Nat) (z z' : Symbolizer) (i : Nat) (b b' : Builder) :
    (((s.setSymbolizer k z).setBuilder i b).setSymbolizer k z').setBuilder i b' =
      (s.setSymbolizer k z').setBuilder i b' := by
  simp only [setSymbolizer, setBuilder, List.set_set, List.modify_modify_eq]
  rfl

/-- If a batch is accepted, its first part is accepted alone with its own counts, and then its
second part leads to the same answer and to the same session. -/
theorem step_addBatch_append (exp : Float → Float) (s : Session) (i : Nat)
    {batch₁ batch₂ : List Capture} {counts₁? counts₂? counts? : Option (List Int)}
    (hcounts : Builder.weights (batch₁ ++ batch₂) counts? =
      Builder.weights batch₁ counts₁? ++ Builder.weights batch₂ counts₂?)
    (h₁ : ¬ Miscounted batch₁ counts₁?) {answer : Answer}
    (hok : (s.step exp (.addBatch i (batch₁ ++ batch₂) counts?)).1 = .ok answer) :
    ∃ answer₁ s₁, s.step exp (.addBatch i batch₁ counts₁?) = (.ok answer₁, s₁) ∧
      s₁.step exp (.addBatch i batch₂ counts₂?) =
        s.step exp (.addBatch i (batch₁ ++ batch₂) counts?) := by
  obtain ⟨d, z, methods, hd, hz, ht, haccepted⟩ := exists_of_addBatch_ok hok
  obtain ⟨hfirst, happend⟩ := Builder.addBatch_append hcounts
    (Builder.not_miscounted_iff.1 h₁) haccepted
  let r := d.builder.addBatch z methods batch₁ counts₁?
  let s₁ := (s.setSymbolizer d.symbolizer r.2.2).setBuilder i r.2.1
  have hd₁ : s₁.desks[i]? = some { d with builder := r.2.1 } :=
    getElem?_setBuilder_self (s := s.setSymbolizer d.symbolizer r.2.2) hd r.2.1
  have hz₁ : s₁.symbolizers[d.symbolizer]? = some r.2.2 := getElem?_setSymbolizer_self hz r.2.2
  have hwhole := addBatch_of_ok hd hz ht (Prod.ext haccepted rfl)
  have hsecond := addBatch_of_ok hd₁ hz₁ ht (happend.trans (Prod.ext haccepted rfl))
  refine ⟨_, s₁, addBatch_of_ok hd hz ht (Prod.ext hfirst rfl), ?_⟩
  rw [set_set] at hsecond
  exact hsecond.trans hwhole.symm

/-- A known trace in both parts, a new native frame in the second one, and counts for the first part
alone. -/
theorem step_addBatch_append_merged :
    let lines : LineTable := ⟨[⟨0, 40⟩, ⟨5, 41⟩], by decide⟩
    let run : Method := ⟨"Job.java", "p/q/Job", "run", some "(I)V", lines⟩
    let ops : List Op := [.openSymbolizer [⟨16, 8, "f"⟩], .openMethods [(.number 1, run)],
      .openPlanned ⟨1, {}, {}, 0, false⟩ 0 0, .addBatch 0 [⟨[.native 16], 3⟩] none]
    let batch₁ : List Capture := [⟨[.native 16], 5⟩, ⟨[.native 20, ⟨7, .number 1⟩], 1⟩]
    let batch₂ : List Capture := [⟨[.native 24], 2⟩, ⟨[.native 20, ⟨7, .number 1⟩], 4⟩]
    let s := after id ops
    ∃ answer₁ s₁, s.step id (.addBatch 0 batch₁ (some [2, -1])) = (.ok answer₁, s₁) ∧
      s₁.step id (.addBatch 0 batch₂ none) =
        s.step id (.addBatch 0 (batch₁ ++ batch₂) (some [2, -1, 1, 1])) := by
  intro lines run ops batch₁ batch₂ s
  have h₁ : ¬ Miscounted batch₁ (some [2, -1]) := by simp [Miscounted, batch₁]
  have hok : ∃ answer, (s.step id (.addBatch 0 (batch₁ ++ batch₂) (some [2, -1, 1, 1]))).1 =
      .ok answer := ⟨_, rfl⟩
  obtain ⟨answer, hok⟩ := hok
  exact step_addBatch_append id s 0 rfl h₁ hok

end Session

end StackProfile
