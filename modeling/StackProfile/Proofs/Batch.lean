import StackProfile.Proofs.KeptFrames

/-! # Batches

Before a batch is folded in, the symbolizer names all its native frames; one without address refuses
the batch.  Naming leaves everything but the names as it was, and a name once given stays.

Main lemmas: the outcome of resolving (`resolveTrace_eq_ok_iff`, `renamed_resolveTrace`), when a
batch is accepted (`addBatch_eq_ok_iff`) and its two outcomes (`addBatch_cases`), what a capture
does that was not seen before (`addCapture_of_fresh`), and that names stay meanwhile
(`names_addCapture`, `names_addCaptures`). -/

namespace StackProfile

namespace Symbolizer

/-- A symbolizer that has given some more names. -/
structure Renamed (z z' : Symbolizer) : Prop where
  symbols : z'.symbols = z.symbols
  locations : z'.locations = z.locations
  owner : z'.owner = z.owner
  naming : z'.naming = z.naming
  known : ∀ a, (z.names.get? a).isSome = true → (z'.names.get? a).isSome = true

namespace Renamed

variable {z z' z'' : Symbolizer}

theorem refl (z : Symbolizer) : z.Renamed z := ⟨rfl, rfl, rfl, rfl, fun _ h => h⟩

theorem trans (h : z.Renamed z') (h' : z'.Renamed z'') : z.Renamed z'' where
  symbols := h'.symbols.trans h.symbols
  locations := h'.locations.trans h.locations
  owner := h'.owner.trans h.owner
  naming := h'.naming.trans h.naming
  known a ha := h'.known a (h.known a ha)

theorem remembers (h : z.Renamed z') {owner : Nat} {p : Profile} {P : Int → String → Prop}
    (hz : z.Remembers owner p P) : z'.Remembers owner p P :=
  hz.of_eq h.owner h.locations

end Renamed

theorem Renamed.knownTo {z z' : Symbolizer} (h : z.Renamed z') {f : Frame} (hf : f.KnownTo z) :
    f.KnownTo z' := by
  intro hn
  obtain ⟨a, ha, hname⟩ := hf hn
  exact ⟨a, ha, h.known a hname⟩

theorem renamed_nameOf (z : Symbolizer) (a : Int) : z.Renamed (z.nameOf a).2 where
  symbols := symbols_nameOf z a
  locations := locations_nameOf z a
  owner := owner_nameOf z a
  naming := naming_nameOf z a
  known b hb := by
    rw [get?_names_nameOf]
    split
    · rfl
    · exact hb

theorem renamed_nameAll (z : Symbolizer) (as : List Int) : z.Renamed (z.nameAll as).2 := by
  induction as generalizing z with
  | nil => exact .refl z
  | cons a as ih => exact (renamed_nameOf z a).trans (ih _)

theorem renamed_resolveTrace (z : Symbolizer) (t : Trace) : z.Renamed (z.resolveTrace t).2 := by
  fun_induction resolveTrace z t with
  | case1 z => exact .refl z
  | case2 z f t hf a ha ih => exact (renamed_nameOf z a).trans ih
  | case3 z f t hf ha => exact .refl z
  | case4 z f t hf ih => exact ih

/-- Resolving succeeds exactly if every native frame has an address. -/
theorem resolveTrace_eq_ok_iff (z : Symbolizer) (t : Trace) :
    (z.resolveTrace t).1 = .ok () ↔ ∀ f ∈ t, f.Addressed := by
  fun_induction resolveTrace z t with
  | case1 z => simp
  | case2 z f t hf a ha ih => simp [ih, Frame.Addressed, ha]
  | case3 z f t hf ha => simp [Frame.Addressed, hf, ha]
  | case4 z f t hf ih => simp [ih, Frame.Addressed, hf]

/-- Resolving names every native frame. -/
theorem knownTo_resolveTrace {z : Symbolizer} {t : Trace} (h : (z.resolveTrace t).1 = .ok ()) :
    ∀ f ∈ t, f.KnownTo (z.resolveTrace t).2 := by
  fun_induction resolveTrace z t with
  | case1 z => simp
  | case2 z f t hf a ha ih =>
      intro g hg
      rcases List.mem_cons.1 hg with rfl | hg
      · intro _
        refine ⟨a, ha, (renamed_resolveTrace _ t).known a ?_⟩
        simp
      · exact ih h g hg
  | case3 z f t hf ha => simp at h
  | case4 z f t hf ih =>
      intro g hg
      rcases List.mem_cons.1 hg with rfl | hg
      · exact fun hn => absurd hn hf
      · exact ih h g hg

theorem renamed_resolveBatch (z : Symbolizer) (batch : List Capture) :
    z.Renamed (z.resolveBatch batch).2 := z.renamed_resolveTrace _

theorem resolveBatch_eq_ok_iff (z : Symbolizer) (batch : List Capture) :
    (z.resolveBatch batch).1 = .ok () ↔ ∀ c ∈ batch, ∀ f ∈ c.trace, f.Addressed := by
  unfold resolveBatch
  rw [resolveTrace_eq_ok_iff]
  simp only [List.mem_flatMap, forall_exists_index, and_imp]
  exact ⟨fun h c hc f hf => h f c hc hf, fun h f c hc hf => h c hc f hf⟩

theorem knownTo_resolveBatch {z : Symbolizer} {batch : List Capture}
    (h : (z.resolveBatch batch).1 = .ok ()) :
    ∀ c ∈ batch, ∀ f ∈ c.trace, f.KnownTo (z.resolveBatch batch).2 :=
  fun c hc f hf => knownTo_resolveTrace h f (List.mem_flatMap.2 ⟨c, hc, hf⟩)

end Symbolizer

/-- The kept native frames of a trace ask for addresses that are named. -/
theorem Trace.known_requests {z : Symbolizer} {t : Trace} (h : ∀ f ∈ t, f.KnownTo z)
    (name : Int → String) (skip : Int) (methods : MethodTable) :
    ∀ q ∈ t.requests name skip methods, q.Known z := by
  intro q hq
  obtain ⟨f, hf, rfl⟩ := List.mem_map.1 hq
  exact (h f ((kept_sublist name skip t).subset hf)).request methods

/-! ### Folding captures in -/

namespace Builder

/-- The weights of the captures of a batch; without counts each weighs one. -/
def weights (batch : List Capture) (counts? : Option (List Int)) : List Int :=
  counts?.getD (batch.map fun _ => 1)

theorem addBatch_eq (b : Builder) (z : Symbolizer) (methods : MethodTable) (batch : List Capture)
    (counts? : Option (List Int)) :
    b.addBatch z methods batch counts? =
      if (weights batch counts?).length ≠ batch.length then
        (.error (.countMismatch batch.length (weights batch counts?).length), b, z)
      else
        match z.resolveBatch batch with
        | (.error e, z') => (.error (.unresolved e), b, z')
        | (.ok (), z') =>
          (.ok (), addCaptures methods (b, z') (batch.zip (weights batch counts?))) := rfl

/-- A batch that cannot be resolved is refused, after the frames before the first one without
address were named. -/
theorem addBatch_of_error {batch : List Capture} {counts? : Option (List Int)}
    (hlen : (weights batch counts?).length = batch.length) {z : Symbolizer} {e : ResolveError}
    (h : (z.resolveBatch batch).1 = .error e) (b : Builder) (methods : MethodTable) :
    b.addBatch z methods batch counts? = (.error (.unresolved e), b, (z.resolveBatch batch).2) := by
  rw [addBatch_eq, if_neg (not_not_intro hlen)]
  cases hres : z.resolveBatch batch with
  | mk outcome z' =>
      rw [hres] at h
      subst h
      rfl

/-- Every other batch is accepted. -/
theorem addBatch_of_ok {batch : List Capture} {counts? : Option (List Int)}
    (hlen : (weights batch counts?).length = batch.length) {z : Symbolizer}
    (h : (z.resolveBatch batch).1 = .ok ()) (b : Builder) (methods : MethodTable) :
    b.addBatch z methods batch counts? =
      (.ok (), addCaptures methods (b, (z.resolveBatch batch).2)
        (batch.zip (weights batch counts?))) := by
  rw [addBatch_eq, if_neg (not_not_intro hlen)]
  cases hres : z.resolveBatch batch with
  | mk outcome z' =>
      rw [hres] at h
      subst h
      rfl

theorem addBatch_eq_ok_iff (b : Builder) (z : Symbolizer) (methods : MethodTable)
    (batch : List Capture) (counts? : Option (List Int)) :
    (b.addBatch z methods batch counts?).1 = .ok () ↔
      (weights batch counts?).length = batch.length ∧ (z.resolveBatch batch).1 = .ok () := by
  by_cases hlen : (weights batch counts?).length = batch.length
  · cases h : (z.resolveBatch batch).1 with
    | error e => simp [addBatch_of_error hlen h]
    | ok _ => simp [addBatch_of_ok hlen h, hlen]
  · rw [addBatch_eq, if_pos hlen]
    simp [hlen]

/-- A batch is refused and leaves the builder as it was, or all its native frames are named and then
all its captures are folded in. -/
theorem addBatch_cases (b : Builder) (z : Symbolizer) (methods : MethodTable)
    (batch : List Capture) (counts? : Option (List Int)) :
    (∃ e z', b.addBatch z methods batch counts? = (.error e, b, z') ∧ z.Renamed z') ∨
      ∃ z', z.Renamed z' ∧ (∀ c ∈ batch, ∀ f ∈ c.trace, f.KnownTo z') ∧
        (weights batch counts?).length = batch.length ∧
        b.addBatch z methods batch counts? =
          (.ok (), addCaptures methods (b, z') (batch.zip (weights batch counts?))) := by
  have hren := z.renamed_resolveBatch batch
  by_cases hlen : (weights batch counts?).length = batch.length
  · cases h : (z.resolveBatch batch).1 with
    | error e => exact .inl ⟨_, _, addBatch_of_error hlen h b methods, hren⟩
    | ok _ =>
        exact .inr ⟨_, hren, Symbolizer.knownTo_resolveBatch h, hlen,
          addBatch_of_ok hlen h b methods⟩
  · rw [addBatch_eq, if_pos hlen]
    exact .inl ⟨_, z, rfl, .refl z⟩

/-- A capture that was not seen before opens a sample with the locations of its kept frames. -/
theorem addCapture_of_fresh {b : Builder} {z : Symbolizer} {c : Capture}
    (h : b.index.sample? c.trace = none) (hc : ∀ f ∈ c.trace, f.KnownTo z)
    (methods : MethodTable) (count : Int) :
    let qs := c.trace.requests z.naming b.plan.skip methods
    let s := Request.serveAll b.id b.table z qs
    addCapture methods (b, z) (c, count) =
      ({ b with
          table := { s.2.1 with profile := s.2.1.profile.pushSample ⟨s.1, [count, c.metric]⟩ }
          index := b.index.put c.trace b.samples.length },
        s.2.2) := by
  have ht : ∀ f ∈ c.trace.trim b.plan.skip.toNat, f.KnownTo z :=
    fun f hf => hc f ((Trace.trim_suffix _ _).subset hf)
  obtain ⟨hids, htable, hz⟩ := @Rendering.renderFrames_eq
    { table := b.table, symbolizer := z } b.id methods _ none rfl (by simp) ht
  simp only [addCapture, h, hids, htable, hz]
  simp only [Trace.requests, Trace.kept, Trace.trim_eq_drop, List.nil_append]

@[simp] theorem id_addCapture (methods : MethodTable) (s : Builder × Symbolizer)
    (c : Capture × Int) : (addCapture methods s c).1.id = s.1.id := by
  unfold addCapture
  dsimp only
  split <;> rfl

@[simp] theorem plan_addCapture (methods : MethodTable) (s : Builder × Symbolizer)
    (c : Capture × Int) : (addCapture methods s c).1.plan = s.1.plan := by
  unfold addCapture
  dsimp only
  split <;> rfl

/-- A capture whose native frames are named leaves the names as they are. -/
theorem names_addCapture {b : Builder} {z : Symbolizer} {c : Capture}
    (hc : ∀ f ∈ c.trace, f.KnownTo z) (methods : MethodTable) (count : Int) :
    (addCapture methods (b, z) (c, count)).2.names = z.names ∧
      (addCapture methods (b, z) (c, count)).2.naming = z.naming := by
  cases h : b.index.sample? c.trace with
  | some i =>
      rw [addCapture_of_known h]
      exact ⟨rfl, rfl⟩
  | none =>
      have hknown := Trace.known_requests hc z.naming b.plan.skip methods
      rw [addCapture_of_fresh h hc]
      exact ⟨Request.names_serveAll_of_known hknown _ _, Request.naming_serveAll _ _ _ _⟩

/-- So the native frames of the captures that follow stay named. -/
theorem knownTo_addCapture {c : Capture × Int} {cs : List (Capture × Int)} {z : Symbolizer}
    (h : ∀ d ∈ c :: cs, ∀ f ∈ d.1.trace, f.KnownTo z) (b : Builder) (methods : MethodTable) :
    ∀ d ∈ cs, ∀ f ∈ d.1.trace, f.KnownTo (addCapture methods (b, z) c).2 := by
  intro d hd f hf
  obtain ⟨hnames, -⟩ := @names_addCapture b z c.1 (h c List.mem_cons_self) methods c.2
  exact (h d (List.mem_cons_of_mem c hd) f hf).of_names_eq hnames

theorem symbols_addCapture {b : Builder} {z : Symbolizer} {c : Capture × Int}
    (hc : ∀ f ∈ c.1.trace, f.KnownTo z) (methods : MethodTable) :
    (addCapture methods (b, z) c).2.symbols = z.symbols := by
  obtain ⟨c, count⟩ := c
  cases h : b.index.sample? c.trace with
  | some i => rw [addCapture_of_known h]
  | none =>
      rw [addCapture_of_fresh h hc]
      exact Request.symbols_serveAll _ _ _ _

theorem lined_addCapture {b : Builder} {z : Symbolizer} {c : Capture × Int}
    (hb : b.profile.Lined) (hc : ∀ f ∈ c.1.trace, f.KnownTo z) (methods : MethodTable) :
    (addCapture methods (b, z) c).1.profile.Lined := by
  obtain ⟨c, count⟩ := c
  cases h : b.index.sample? c.trace with
  | some i =>
      rw [addCapture_of_known h]
      exact hb
  | none =>
      rw [addCapture_of_fresh h hc]
      exact Request.lined_serveAll hb b.id z _

/-- All locations that captures add have a line. -/
theorem lined_addCaptures {b : Builder} {z : Symbolizer} {cs : List (Capture × Int)}
    (hb : b.profile.Lined) (hcs : ∀ c ∈ cs, ∀ f ∈ c.1.trace, f.KnownTo z) (methods : MethodTable) :
    (addCaptures methods (b, z) cs).1.profile.Lined := by
  induction cs generalizing b z with
  | nil => exact hb
  | cons c cs ih =>
      exact ih (lined_addCapture hb (hcs c List.mem_cons_self) methods)
        (knownTo_addCapture hcs b methods)

/-- Folding captures in leaves the names and the symbols as they are. -/
theorem names_addCaptures {b : Builder} {z : Symbolizer} {cs : List (Capture × Int)}
    (hcs : ∀ c ∈ cs, ∀ f ∈ c.1.trace, f.KnownTo z) (methods : MethodTable) :
    (addCaptures methods (b, z) cs).2.names = z.names ∧
      (addCaptures methods (b, z) cs).2.symbols = z.symbols := by
  induction cs generalizing b z with
  | nil => exact ⟨rfl, rfl⟩
  | cons c cs ih =>
      have hc := hcs c List.mem_cons_self
      obtain ⟨hnames, -⟩ := @names_addCapture b z c.1 hc methods c.2
      have hsymbols := @symbols_addCapture b z c hc methods
      obtain ⟨hnames', hsymbols'⟩ := @ih (addCapture methods (b, z) c).1 _
        (knownTo_addCapture hcs b methods)
      exact ⟨hnames'.trans hnames, hsymbols'.trans hsymbols⟩

end Builder

end StackProfile
