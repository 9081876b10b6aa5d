import StackProfile.Proofs.Growth

/-! # What a builder shows

A reader of a profile does not see identifiers: the view of a sample has what its locations show in
place of them.  How the view of a builder changes depends on its view alone, given the names of
addresses and the methods.  So neither the tables of the builder nor what its symbolizer remembers
can be seen in the samples.

Main lemmas: the samples that a builder has keep their views while it grows (`Extends.viewSample`),
and the view of what an operation makes of a builder is what the operation makes of its view
(`view_addCaptures`, `view_addBatch`, `view_addArtificial`). -/

namespace StackProfile

/-- What a reader sees of a sample: what its locations show, the innermost first, and its values. -/
structure SampleView where
  stack : List (Option LocationView)
  values : List Int
deriving DecidableEq, Repr

/-- Adds to the first two values. -/
def SampleView.accumulate (v : SampleView) (count metric : Int) : SampleView :=
  { v with values := (Sample.accumulate ⟨[], v.values⟩ count metric).values }

namespace Profile

/-- What a sample shows. -/
def viewSample (p : Profile) (s : Sample) : SampleView := ⟨s.locationIds.map p.view?, s.values⟩

theorem viewSample_accumulate (p : Profile) (s : Sample) (count metric : Int) :
    p.viewSample (s.accumulate count metric) = (p.viewSample s).accumulate count metric := rfl

/-- What a sample shows stays while the tables grow. -/
theorem Extends.viewSample {p q : Profile} (h : p.Extends q) {s : Sample}
    (hs : ∀ id ∈ s.locationIds, (p.view? id).isSome = true) :
    q.viewSample s = p.viewSample s := by
  have hstack : s.locationIds.map q.view? = s.locationIds.map p.view? := by
    apply List.map_congr_left
    intro id hid
    obtain ⟨v, hv⟩ := Option.isSome_iff_exists.1 (hs id hid)
    rw [hv, h.view? hv]
  rw [Profile.viewSample, Profile.viewSample, hstack]

end Profile

/-! ### Views of builders -/

/-- What a reader sees of a builder, and how it finds the samples of traces. -/
structure BuilderView where
  plan : Plan
  index : SampleIndex := .empty
  samples : List SampleView := []
deriving DecidableEq, Repr

namespace BuilderView

/-- The view with one more sample. -/
def openSample (v : BuilderView) (index : SampleIndex) (s : SampleView) : BuilderView :=
  { v with index, samples := v.samples ++ [s] }

/-- Folds one capture of some weight in. -/
def addCapture (name : Int → String) (methods : MethodTable) (v : BuilderView)
    (c : Capture × Int) : BuilderView :=
  match v.index.sample? c.1.trace with
  | some i => { v with samples := v.samples.modify i fun s => s.accumulate c.2 c.1.metric }
  | none =>
    let stack := (c.1.trace.kept name v.plan.skip).map (Frame.view name methods)
    v.openSample (v.index.put c.1.trace v.samples.length) ⟨stack.map some, [c.2, c.1.metric]⟩

/-- Folds captures in one after the other. -/
def addCaptures (name : Int → String) (methods : MethodTable) (v : BuilderView)
    (cs : List (Capture × Int)) : BuilderView :=
  cs.foldl (addCapture name methods) v

/-- Adds a batch.  Whether its native frames can be resolved does not depend on a symbolizer. -/
def addBatch (name : Int → String) (methods : MethodTable) (v : BuilderView)
    (batch : List Capture) (counts? : Option (List Int)) : Except BatchError Unit × BuilderView :=
  let weights := Builder.weights batch counts?
  if weights.length ≠ batch.length then
    (.error (.countMismatch batch.length weights.length), v)
  else
    match (Symbolizer.resolveBatch {} batch).1 with
    | .error e => (.error (.unresolved e), v)
    | .ok () => (.ok (), v.addCaptures name methods (batch.zip weights))

/-- Adds a sample of events that were not captured. -/
def addArtificial (v : BuilderView) (name : String) (count rate : Int) : BuilderView :=
  v.openSample v.index ⟨[some ⟨name, "", -1, 0⟩], [count, count * rate]⟩

end BuilderView

theorem Symbolizer.outcome_resolveTrace (z z' : Symbolizer) (t : Trace) :
    (z.resolveTrace t).1 = (z'.resolveTrace t).1 := by
  induction t generalizing z z' with
  | nil => rfl
  | cons f t ih =>
      unfold resolveTrace
      split
      · split
        · exact ih _ _
        · rfl
      · exact ih _ _

namespace Builder

/-- What a reader sees of a builder. -/
def view (b : Builder) : BuilderView := ⟨b.plan, b.index, b.samples.map b.profile.viewSample⟩

/-- The symbolizer gives the names of `name`, and it remembers no others for the builder. -/
structure ServedBy (b : Builder) (z : Symbolizer) (name : Int → String) : Prop where
  sound : b.Sound
  remembers : z.Remembers b.id b.profile fun a n => n = name a
  naming : z.naming = name

variable {b b' : Builder} {z : Symbolizer} {name : Int → String}

/-- Every location of a stack shows something. -/
theorem Sound.isSome_of_mem_stack (h : b.Sound) {v : SampleView} (hv : v ∈ b.view.samples) :
    ∀ x ∈ v.stack, x.isSome = true := by
  obtain ⟨s, hs, rfl⟩ := List.mem_map.1 hv
  intro x hx
  obtain ⟨id, hid, rfl⟩ := List.mem_map.1 hx
  exact h.shown s hs id hid

theorem Sound.map_viewSample (h : b.Sound) {q : Profile} (hg : b.profile.Extends q) :
    b.samples.map q.viewSample = b.view.samples :=
  List.map_congr_left fun s hs => hg.viewSample (h.shown s hs)

theorem ServedBy.advances {s' : Builder × Symbolizer} (h : b.ServedBy z name)
    (hadv : Advances (fun a n => n = name a) (b, z) s') : s'.1.ServedBy s'.2 name :=
  ⟨hadv.sound, hadv.remembers, hadv.naming.trans h.naming⟩

/-! ### One operation -/

/-- Adding to a sample adds to its view. -/
theorem view_accumulate (b : Builder) (i : Nat) (count metric : Int) :
    (b.withProfile (b.profile.modifySample i fun s => s.accumulate count metric)).view =
      { b.view with samples := b.view.samples.modify i fun s => s.accumulate count metric } := by
  have hsamples : (b.samples.modify i fun s => s.accumulate count metric).map
      b.profile.viewSample =
        (b.samples.map b.profile.viewSample).modify i fun s => s.accumulate count metric := by
    apply List.ext_getElem?
    intro j
    rw [List.getElem?_map, List.getElem?_modify, List.getElem?_modify, List.getElem?_map]
    cases b.samples[j]? with
    | none => rfl
    | some s => by_cases h : i = j <;> simp [h, Profile.viewSample_accumulate]
  exact congrArg (BuilderView.mk b.plan b.index) hsamples

/-- A sample whose locations were served shows what they were served for. -/
theorem view_openSample {qs : List Request} {ids values : List Int} {t : LocationTable}
    (hb : b.Sound) (hs : Request.ServedAll b.id (fun a n => n = name a) b.table qs ids t z)
    (index : SampleIndex) :
    (b.openSample t index ⟨ids, values⟩).view =
      b.view.openSample index ⟨(qs.map (Request.view name)).map some, values⟩ := by
  have hold : t.profile.samples.map t.profile.viewSample = b.view.samples := by
    rw [hs.samples]
    exact hb.map_viewSample hs.grows
  have hnew : t.profile.viewSample ⟨ids, values⟩ =
      ⟨(qs.map (Request.view name)).map some, values⟩ := by
    rw [Profile.viewSample, hs.views name fun _ _ h => h]
  have hsamples : (t.profile.samples ++ [Sample.mk ids values]).map t.profile.viewSample =
      b.view.samples ++ [SampleView.mk ((qs.map (Request.view name)).map some) values] := by
    rw [List.map_append, hold, List.map_singleton, hnew]
  exact congrArg (BuilderView.mk b.plan index) hsamples

theorem view_addCapture (h : b.ServedBy z name) (methods : MethodTable) {c : Capture × Int}
    (hc : ∀ f ∈ c.1.trace, f.KnownTo z) :
    (addCapture methods (b, z) c).1.view = b.view.addCapture name methods c := by
  obtain ⟨c, count⟩ := c
  cases hi : b.index.sample? c.trace with
  | some i =>
      have hview : b.view.index.sample? c.trace = some i := hi
      rw [addCapture_of_known hi, view_accumulate, BuilderView.addCapture, hview]
  | none =>
      have hview : b.view.index.sample? c.trace = none := hi
      have hlength : b.view.samples.length = b.samples.length := List.length_map _
      have hs := Request.serveAll_spec h.sound.table h.remembers
        (fun a => congrFun h.naming a) (c.trace.requests z.naming b.plan.skip methods)
      have hopen := @view_openSample b _ name _ _ [count, c.metric] _ h.sound hs
        (b.index.put c.trace b.samples.length)
      rw [h.naming, Trace.view_requests name b.plan.skip methods
        fun f hf => (hc f hf).addressed] at hopen
      rw [addCapture_of_fresh hi hc, h.naming, BuilderView.addCapture, hview, hlength]
      exact hopen

theorem view_addCaptures (h : b.ServedBy z name) (methods : MethodTable)
    {cs : List (Capture × Int)} (hcs : ∀ c ∈ cs, ∀ f ∈ c.1.trace, f.KnownTo z) :
    (addCaptures methods (b, z) cs).1.view = b.view.addCaptures name methods cs := by
  induction cs generalizing b z with
  | nil => rfl
  | cons c cs ih =>
      have hc := hcs c List.mem_cons_self
      obtain ⟨hadv, -⟩ := addCapture_spec h.sound h.remembers (fun a => congrFun h.naming a)
        methods hc c.2
      have hstep := ih (h.advances hadv) (knownTo_addCapture hcs b methods)
      rw [view_addCapture h methods hc] at hstep
      exact hstep

/-- A batch advances a builder and its symbolizer, also a batch that is refused. -/
theorem advances_addBatch {P : Int → String → Prop} (hb : b.Sound)
    (hz : z.Remembers b.id b.profile P) (hn : ∀ a, P a (z.naming a)) (methods : MethodTable)
    (batch : List Capture) (counts? : Option (List Int)) :
    Advances P (b, z) (b.addBatch z methods batch counts?).2 := by
  rcases b.addBatch_cases z methods batch counts? with
    ⟨e, z', he, hren⟩ | ⟨z', hren, hknown, -, he⟩
  · rw [he]
    exact ⟨hb, .refl b, hren.remembers hz, fun _ _ _ _ h => hren.remembers h, .inl hren.owner,
      hren.naming, hren.symbols⟩
  · rw [he]
    exact (addCaptures_renamed_spec hb hz hn hren methods
      fun c hc => hknown c.1 (List.of_mem_zip hc).1).1

theorem view_addBatch (h : b.ServedBy z name) (methods : MethodTable) (batch : List Capture)
    (counts? : Option (List Int)) :
    let r := b.addBatch z methods batch counts?
    (r.1, r.2.1.view) = b.view.addBatch name methods batch counts? := by
  have houtcome : (Symbolizer.resolveBatch {} batch).1 = (z.resolveBatch batch).1 :=
    Symbolizer.outcome_resolveTrace {} z _
  have hren := z.renamed_resolveBatch batch
  rw [BuilderView.addBatch, houtcome]
  by_cases hlen : (weights batch counts?).length = batch.length
  · cases h' : (z.resolveBatch batch).1 with
    | error e => simp [addBatch_of_error hlen h', hlen]
    | ok _ =>
        have hserved : b.ServedBy (z.resolveBatch batch).2 name :=
          ⟨h.sound, hren.remembers h.remembers, hren.naming.trans h.naming⟩
        have hcs : ∀ c ∈ batch.zip (weights batch counts?), ∀ f ∈ c.1.trace,
            f.KnownTo (z.resolveBatch batch).2 :=
          fun c hc => Symbolizer.knownTo_resolveBatch h' c.1 (List.of_mem_zip hc).1
        simp [addBatch_of_ok hlen h', hlen, view_addCaptures hserved methods hcs]
  · simp [addBatch_eq, hlen]

theorem view_addArtificial (h : b.Sound) (label : String) (count rate : Int) :
    (b.addArtificial label count rate).view = b.view.addArtificial label count rate := by
  let k : FrameLabel := ⟨label, label, "", -1⟩
  -- The location of a label is served without asking a symbolizer.
  have hz : Symbolizer.Remembers {} b.id b.profile fun a n => n = Symbolizer.naming {} a :=
    Symbolizer.remembers_of_owner_ne (by simp)
  have hs : Request.ServedAll b.id (fun a n => n = Symbolizer.naming {} a) b.table [.managed k]
      [(b.table.intern k).1.id] (b.table.intern k).2 {} :=
    Request.serveAll_spec h.table hz (fun _ => rfl) [.managed k]
  exact view_openSample h hs b.index

end Builder

end StackProfile
