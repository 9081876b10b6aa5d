import StackProfile.Proofs.Coherence
import StackProfile.Proofs.Ledger

/-! # Batches as a whole

A batch is refused before its first capture is folded in, or all its captures are folded in.  Three
things could stop the folding on its way: a sample of the index that is not there, a sample without
values, and a native frame without address.  The checked operations of this module stop there, and
after an accepted batch none of them does.

Main lemmas: a checked operation answers what the operation does (`renderFrames?_eq`,
`addCapture?_eq`, `addCaptures?_eq`), which batches cannot be resolved (`unaddressed_iff`), and what
a session makes of a batch (`addBatch_whole`). -/

namespace StackProfile

/-! ### Checked operations -/

/-- Adds to the first two values, if they are there. -/
def Sample.accumulate? (s : Sample) (count metric : Int) : Option Sample := do
  let s ← s.withValue? 0 ((← s.value? 0) + count)
  s.withValue? 1 ((← s.value? 1) + metric)

namespace Rendering

/-- Renders one frame; a native frame needs an address. -/
def renderFrame? (owner : Nat) (methods : MethodTable) (r : Rendering) (f : Frame) :
    Except ResolveError Rendering :=
  if f.isNative then
    match f.address? with
    | some address => .ok (r.native owner address)
    | none => .error .noAddress
  else .ok (r.managed (frameLabel methods f))

/-- Renders frames one after the other, up to the first one that cannot be rendered. -/
def renderFrames? (owner : Nat) (methods : MethodTable) (r : Rendering) (t : Trace) :
    Except ResolveError Rendering :=
  t.foldlM (renderFrame? owner methods) r

end Rendering

/-- Why a capture cannot be folded in. -/
inductive FoldError where
  | noSample
  | noValue
  | unresolved (cause : ResolveError)
deriving DecidableEq, Repr

namespace Builder

/-- Folds one capture of some weight in.  A known trace needs its sample with two values, a new one
needs frames that can be rendered. -/
def addCapture? (methods : MethodTable) (s : Builder × Symbolizer) (c : Capture × Int) :
    Except FoldError (Builder × Symbolizer) :=
  let (b, symbolizer) := s
  let (capture, count) := c
  match b.index.sample? capture.trace with
  | some i =>
    match b.samples[i]? with
    | none => .error .noSample
    | some s =>
      match s.accumulate? count capture.metric with
      | none => .error .noValue
      | some s =>
        .ok (b.withProfile { b.profile with samples := b.samples.set i s }, symbolizer)
  | none =>
    match Rendering.renderFrames? b.id methods { table := b.table, symbolizer }
      (capture.trace.trim b.plan.skip.toNat) with
    | .error e => .error (.unresolved e)
    | .ok r =>
      let sample : Sample := ⟨r.locationIds, [count, capture.metric]⟩
      .ok ({ b with
          table := { r.table with profile := r.table.profile.pushSample sample }
          index := b.index.put capture.trace b.samples.length },
        r.symbolizer)

/-- Folds captures in one after the other, up to the first one that cannot be folded in. -/
def addCaptures? (methods : MethodTable) (s : Builder × Symbolizer) (cs : List (Capture × Int)) :
    Except FoldError (Builder × Symbolizer) :=
  cs.foldlM (addCapture? methods) s

end Builder

/-! ### What the checked operations answer -/

theorem Sample.accumulate?_eq {s : Sample} (h : s.values.length = 2) (count metric : Int) :
    s.accumulate? count metric = some (s.accumulate count metric) := by
  obtain ⟨ids, values⟩ := s
  obtain ⟨c, m, rfl⟩ := List.length_eq_two.1 h
  rfl

namespace Rendering

variable {owner : Nat} {methods : MethodTable} {t : Trace}

theorem renderFrame?_eq {f : Frame} (hf : f.Addressed) (r : Rendering) :
    renderFrame? owner methods r f = .ok (renderFrame owner methods r f) := by
  unfold renderFrame? renderFrame
  cases hn : f.isNative with
  | false => rfl
  | true =>
      obtain ⟨a, ha, -⟩ := Frame.exists_address hf hn
      simp [ha]

theorem renderFrames?_eq (ht : ∀ f ∈ t, f.Addressed) (r : Rendering) :
    renderFrames? owner methods r t = .ok (renderFrames owner methods r t) := by
  induction t generalizing r with
  | nil => rfl
  | cons f t ih =>
      have hf := @renderFrame?_eq owner methods f (ht f List.mem_cons_self) r
      rw [renderFrames?, List.foldlM_cons, hf]
      exact ih (fun g hg => ht g (List.mem_cons_of_mem f hg)) _

end Rendering

namespace Builder

variable {u : Prop} {h : Ledger} {b : Builder} {z : Symbolizer}

/-- A capture is folded in if its native frames have addresses. -/
theorem addCapture?_eq (hb : b.Sound) (hbooked : Booked u h b) {c : Capture}
    (hc : ∀ f ∈ c.trace, f.Addressed) (methods : MethodTable) (z : Symbolizer) (count : Int) :
    addCapture? methods (b, z) (c, count) = .ok (addCapture methods (b, z) (c, count)) := by
  cases hi : b.index.sample? c.trace with
  | some i =>
      obtain ⟨w, m, ho⟩ := (hbooked.index c.trace.key i).1 hi
      have hlt : i < b.samples.length := by
        rw [hbooked.length]
        exact (List.getElem?_eq_some_iff.1 ho).1
      have hs := List.getElem?_eq_getElem hlt
      have hvalues := hb.values _ (List.getElem_mem hlt)
      have hset : b.samples.set i (b.samples[i].accumulate count c.metric) =
          b.samples.modify i fun s => s.accumulate count c.metric := by
        rw [List.modify_eq_set_getElem?, hs]
        rfl
      rw [addCapture_of_known hi]
      simp only [addCapture?, hi, hs, Sample.accumulate?_eq hvalues, hset]
      rfl
  | none =>
      have ht : ∀ f ∈ c.trace.trim b.plan.skip.toNat, f.Addressed :=
        fun f hf => hc f ((Trace.trim_suffix _ _).subset hf)
      simp only [addCapture?, addCapture, hi, Rendering.renderFrames?_eq ht]

/-- Captures whose native frames are named are folded in. -/
theorem addCaptures?_eq (hb : b.Sound) (hz : z.Remembers b.id b.profile fun _ _ => True)
    (hbooked : Booked u h b) (methods : MethodTable) {cs : List (Capture × Int)}
    (hcs : ∀ c ∈ cs, ∀ f ∈ c.1.trace, f.KnownTo z) :
    addCaptures? methods (b, z) cs = .ok (addCaptures methods (b, z) cs) := by
  induction cs generalizing h b z with
  | nil => rfl
  | cons c cs ih =>
      have hc := hcs c List.mem_cons_self
      have hstep := addCapture?_eq hb hbooked (fun f hf => (hc f hf).addressed) methods z c.2
      obtain ⟨hadv, -⟩ := addCapture_spec hb hz (fun _ => trivial) methods hc c.2
      rw [addCaptures?, List.foldlM_cons, hstep]
      exact ih hadv.sound hadv.remembers (hbooked.addCapture methods z c)
        (knownTo_addCapture hcs b methods)

end Builder

/-! ### Refused batches -/

/-- Counts are given, but not one for each capture. -/
def Miscounted (batch : List Capture) (counts? : Option (List Int)) : Prop :=
  ∃ counts, counts? = some counts ∧ counts.length ≠ batch.length

/-- Some native frame of the batch has no identity. -/
def Unaddressed (batch : List Capture) : Prop :=
  ∃ c ∈ batch, ∃ f ∈ c.trace, f.isNative = true ∧ f.method = .unknown

theorem Frame.not_addressed_iff {f : Frame} (hid : f.isNative = true → ∀ n, f.method ≠ .name n) :
    ¬ f.Addressed ↔ f.isNative = true ∧ f.method = .unknown := by
  unfold Addressed address?
  cases hn : f.isNative with
  | false => simp
  | true =>
      cases hm : f.method with
      | number a => simp
      | name n => exact absurd hm (hid hn n)
      | unknown => simp

/-- Resolving a batch fails exactly at a native frame without identity. -/
theorem unaddressed_iff {batch : List Capture}
    (hid : ∀ c ∈ batch, ∀ f ∈ c.trace, f.isNative = true → ∀ n, f.method ≠ .name n)
    (z : Symbolizer) : Unaddressed batch ↔ (z.resolveBatch batch).1 = .error .noAddress := by
  have hok := z.resolveBatch_eq_ok_iff batch
  have herror : (z.resolveBatch batch).1 = .error .noAddress ↔
      ¬ ∀ c ∈ batch, ∀ f ∈ c.trace, f.Addressed := by
    rw [← hok]
    cases (z.resolveBatch batch).1 with
    | ok _ => simp
    | error e =>
        cases e
        simp
  rw [herror]
  constructor
  · rintro ⟨c, hc, f, hf, hbad⟩ hall
    exact (Frame.not_addressed_iff (hid c hc f hf)).2 hbad (hall c hc f hf)
  · intro hnot
    simp only [not_forall] at hnot
    obtain ⟨c, hc, f, hf, hbad⟩ := hnot
    exact ⟨c, hc, f, hf, (Frame.not_addressed_iff (hid c hc f hf)).1 hbad⟩

namespace Builder

variable {batch : List Capture} {counts? : Option (List Int)}

theorem not_miscounted_iff :
    ¬ Miscounted batch counts? ↔ (weights batch counts?).length = batch.length := by
  unfold Miscounted weights
  cases counts? <;> simp

end Builder

/-! ### Sessions -/

namespace Session

variable {exp : Float → Float} {s : Session} {i : Nat} {d : Desk} {z : Symbolizer}
  {methods : MethodTable}

theorem setSymbolizer_of_getElem? {k : Nat} (hz : s.symbolizers[k]? = some z) :
    s.setSymbolizer k z = s := by
  obtain ⟨hlt, rfl⟩ := List.getElem?_eq_some_iff.1 hz
  unfold setSymbolizer
  rw [List.set_getElem_self]

/-- After every run, a batch with a wrong number of counts is refused and changes nothing; any other
batch with a native frame without identity is refused and changes nothing but the names of the
symbolizer; and of all other batches every capture is folded in, without stopping on the way. -/
theorem addBatch_whole (exp : Float → Float) {ops : List Op}
    (hd : (after exp ops).desks[i]? = some d)
    (hz : (after exp ops).symbolizers[d.symbolizer]? = some z)
    (ht : (after exp ops).methodTables[d.methods]? = some methods) {batch : List Capture}
    (hid : ∀ c ∈ batch, ∀ f ∈ c.trace, f.isNative = true → ∀ n, f.method ≠ .name n)
    (counts? : Option (List Int)) :
    let s := after exp ops
    let r := s.step exp (.addBatch i batch counts?)
    let weights := Builder.weights batch counts?
    let named := (z.resolveBatch batch).2
    (Miscounted batch counts? →
      r = (.error (.batch (.countMismatch batch.length weights.length)), s)) ∧
    (¬ Miscounted batch counts? → Unaddressed batch →
      r = (.error (.batch (.unresolved .noAddress)), s.setSymbolizer d.symbolizer named) ∧
        z.Renamed named) ∧
    (¬ Miscounted batch counts? → ¬ Unaddressed batch →
      weights.length = batch.length ∧
      ∃ b z', Builder.addCaptures? methods (d.builder, named) (batch.zip weights) = .ok (b, z') ∧
        r = (.ok (.builder b), (s.setSymbolizer d.symbolizer z').setBuilder i b)) := by
  intro s r weights named
  have hren : z.Renamed named := z.renamed_resolveBatch batch
  refine ⟨?_, ?_, ?_⟩
  · rintro ⟨counts, rfl, hne⟩
    have hrefused := addBatch_of_error hd hz ht
      (Builder.addBatch_of_length_ne hne d.builder z methods)
    rwa [setSymbolizer_of_getElem? hz] at hrefused
  · intro hcounted hbad
    have hlen := Builder.not_miscounted_iff.1 hcounted
    have herror := (unaddressed_iff hid z).1 hbad
    exact ⟨addBatch_of_error hd hz ht
      (Builder.addBatch_of_error hlen herror d.builder methods), hren⟩
  · intro hcounted hgood
    have hlen := Builder.not_miscounted_iff.1 hcounted
    have hok : (z.resolveBatch batch).1 = .ok () := by
      cases h : (z.resolveBatch batch).1 with
      | ok _ => rfl
      | error e =>
          cases e
          exact absurd ((unaddressed_iff hid z).2 h) hgood
    have hknown : ∀ c ∈ batch.zip weights, ∀ f ∈ c.1.trace, f.KnownTo named :=
      fun c hm => Symbolizer.knownTo_resolveBatch hok c.1 (List.of_mem_zip hm).1
    have hc := coherent_after_any exp ops
    have hfold := Builder.addCaptures?_eq (hc.sound i d hd)
      (hren.remembers (hc.remembersFor hz hd)) ((booked_after exp i ops).2 d hd) methods hknown
    exact ⟨hlen, _, _, hfold, addBatch_of_ok hd hz ht
      (Builder.addBatch_of_ok hlen hok d.builder methods)⟩

/-- A native frame without identity in a position that is trimmed, with one count too few and
without counts, and a batch that is accepted. -/
theorem addBatch_whole_trimmed :
    let lines : LineTable := ⟨[⟨0, 40⟩, ⟨5, 41⟩], by decide⟩
    let run : Method := ⟨"Job.java", "p/q/Job", "run", some "(I)V", lines⟩
    let bad : List Capture :=
      [⟨[.native 24], 2⟩, ⟨[⟨Frame.nativeLine, .unknown⟩, ⟨7, .unknown⟩], 1⟩]
    let good : List Capture :=
      [⟨[.native 24, ⟨7, .number 1⟩], 2⟩, ⟨[.native 16, ⟨7, .unknown⟩], 1⟩]
    let ops : List Op := [.openSymbolizer [⟨16, 16, "f"⟩], .openMethods [(.number 1, run)],
      .openPlanned ⟨1, {}, {}, 1, false⟩ 0 0, .addBatch 0 [⟨[.native 16, ⟨7, .unknown⟩], 3⟩] none]
    let s := after id ops
    s.step id (.addBatch 0 bad (some [1])) = (.error (.batch (.countMismatch 2 1)), s) ∧
      (s.step id (.addBatch 0 bad none)).1 = .error (.batch (.unresolved .noAddress)) ∧
      (s.step id (.addBatch 0 bad none)).2.desks = s.desks ∧
      ∃ b, (s.step id (.addBatch 0 good none)).1 = .ok (.builder b) := by
  intro lines run bad good ops s
  have hbad : ∀ c ∈ bad, ∀ f ∈ c.trace, f.isNative = true → ∀ n, f.method ≠ .name n := by
    simp [bad, Frame.native]
  have hgood : ∀ c ∈ good, ∀ f ∈ c.trace, f.isNative = true → ∀ n, f.method ≠ .name n := by
    simp [good, Frame.native]
  have hcounted : ∀ batch, ¬ Miscounted batch none := by simp [Miscounted]
  obtain ⟨hcount, -, -⟩ := @addBatch_whole 0 _ _ _ id ops rfl rfl rfl bad hbad (some [1])
  obtain ⟨-, hidentity, -⟩ := @addBatch_whole 0 _ _ _ id ops rfl rfl rfl bad hbad none
  obtain ⟨-, -, haccepted⟩ := @addBatch_whole 0 _ _ _ id ops rfl rfl rfl good hgood none
  obtain ⟨hrefused, -⟩ := hidentity (hcounted bad) (by simp [Unaddressed, bad, Frame.isNative])
  obtain ⟨-, b, _, -, hanswer⟩ := haccepted (hcounted good)
    (by simp [Unaddressed, good, Frame.native, Frame.isNative, Frame.nativeLine])
  refine ⟨hcount ⟨[1], rfl, by decide⟩, ?_, ?_, b, ?_⟩
  · rw [hrefused]
  · rw [hrefused]
    rfl
  · rw [hanswer]

end Session

end StackProfile
