import Mathlib.Algebra.BigOperators.Group.List.Basic
import Mathlib.Algebra.Ring.Int.Defs
import StackProfile.Proofs.Coherence
import StackProfile.Proofs.Minting

/-! # The order of the captures in a batch

Identifiers, the order of the samples and the order of the tables depend on which capture comes
first.  Nothing else does: if a fresh builder accepts a batch, a fresh builder accepts it in every
other order, and the two profiles are the same up to numbers and order.

Main lemmas: the samples that a batch shows can be read off its captures (`Summed.addCaptures`), so
can the locations and the functions (`ofBatch_spec`), and both depend on the captures up to their
order alone (`isomorphic_of_perm`). -/

namespace StackProfile

section eraseDups

variable {α : Type} [BEq α] [LawfulBEq α]

theorem nodup_eraseDups (l : List α) : l.eraseDups.Nodup := by
  induction hn : l.length using Nat.strongRecOn generalizing l with
  | ind n ih =>
  subst hn
  cases l with
  | nil => simp
  | cons a l =>
      have hle := List.length_filter_le (fun b => !b == a) l
      rw [List.eraseDups_cons, List.nodup_cons, List.mem_eraseDups, List.mem_filter]
      exact ⟨by simp, ih _ (by rw [List.length_cons]; omega) _ rfl⟩

theorem perm_eraseDups {l l' : List α} (h : l.Perm l') :
    l.eraseDups.Perm l'.eraseDups := by
  rw [List.perm_ext_iff_of_nodup (nodup_eraseDups l) (nodup_eraseDups l')]
  intro a
  rw [List.mem_eraseDups, List.mem_eraseDups, h.mem_iff]

end eraseDups

/-! ### The samples of a batch -/

/-- The distinct traces of captures, in the order of their first captures. -/
def distinctTraces (cs : List (Capture × Int)) : List Trace := (cs.map (·.1.trace)).eraseDups

/-- What the sample of a trace shows: its kept frames, and the totals over its captures. -/
def sampleOf (name : Int → String) (methods : MethodTable) (plan : Plan)
    (cs : List (Capture × Int)) (t : Trace) : SampleView :=
  let own := cs.filter fun c => c.1.trace = t
  ⟨((t.kept name plan.skip).map (Frame.view name methods)).map some,
    [(own.map (·.2)).sum, (own.map (·.1.metric)).sum]⟩

namespace BuilderView

/-- A view with one sample for every distinct trace of some captures. -/
structure Summed (name : Int → String) (methods : MethodTable) (plan : Plan)
    (cs : List (Capture × Int)) (v : BuilderView) : Prop where
  planned : v.plan = plan
  samples : v.samples = (distinctTraces cs).map (sampleOf name methods plan cs)
  index : ∀ t i, v.index.sample? t = some i ↔ (distinctTraces cs)[i]? = some t

variable {name : Int → String} {methods : MethodTable} {plan : Plan} {cs : List (Capture × Int)}
  {v : BuilderView}

theorem mem_distinctTraces {t : Trace} :
    t ∈ distinctTraces cs ↔ ∃ c ∈ cs, c.1.trace = t := by
  rw [distinctTraces, List.mem_eraseDups, List.mem_map]

theorem distinctTraces_concat_of_mem {c : Capture × Int} (h : c.1.trace ∈ distinctTraces cs) :
    distinctTraces (cs ++ [c]) = distinctTraces cs := by
  unfold distinctTraces at h ⊢
  rw [List.map_append, List.map_singleton, eraseDups_concat_of_mem (List.mem_eraseDups.1 h)]

theorem distinctTraces_concat_of_notMem {c : Capture × Int} (h : c.1.trace ∉ distinctTraces cs) :
    distinctTraces (cs ++ [c]) = distinctTraces cs ++ [c.1.trace] := by
  unfold distinctTraces at h ⊢
  rw [List.map_append, List.map_singleton,
    eraseDups_concat_of_notMem (mt List.mem_eraseDups.2 h)]

/-- One more capture adds to the sample of its trace. -/
theorem sampleOf_concat (cs : List (Capture × Int)) (c : Capture × Int) (t : Trace) :
    sampleOf name methods plan (cs ++ [c]) t =
      if c.1.trace = t then (sampleOf name methods plan cs t).accumulate c.2 c.1.metric
      else sampleOf name methods plan cs t := by
  by_cases h : c.1.trace = t
  · simp [sampleOf, SampleView.accumulate, Sample.values_accumulate, h]
  · simp [sampleOf, h]

theorem sampleOf_of_notMem {t : Trace} (h : t ∉ distinctTraces cs) :
    sampleOf name methods plan cs t =
      ⟨((t.kept name plan.skip).map (Frame.view name methods)).map some, [0, 0]⟩ := by
  have hown : cs.filter (fun c => c.1.trace = t) = [] := by
    rw [List.filter_eq_nil_iff]
    intro c hc heq
    have hct : c.1.trace = t := by simpa using heq
    exact h (mem_distinctTraces.2 ⟨c, hc, hct⟩)
  rw [sampleOf, hown]
  rfl

/-- A known trace has one sample, to which its capture adds. -/
theorem Summed.known (h : Summed name methods plan cs v) {c : Capture × Int} {i : Nat}
    (hi : v.index.sample? c.1.trace = some i) :
    (v.samples.modify i fun s => s.accumulate c.2 c.1.metric) =
      (distinctTraces cs).map (sampleOf name methods plan (cs ++ [c])) := by
  apply List.ext_getElem?
  intro j
  rw [List.getElem?_modify, h.samples, List.getElem?_map, List.getElem?_map]
  cases ht : (distinctTraces cs)[j]? with
  | none => rfl
  | some t =>
      have hij : i = j ↔ c.1.trace = t := by
        constructor
        · rintro rfl
          exact Option.some.inj (((h.index _ i).1 hi).symm.trans ht)
        · rintro rfl
          exact Option.some.inj (hi.symm.trans ((h.index _ j).2 ht))
      simp only [Option.map_some, Option.map_eq_map, sampleOf_concat, hij]

/-- A new trace goes to the end of the samples. -/
theorem Summed.index_put (h : Summed name methods plan cs v) {c : Capture × Int}
    (hmem : c.1.trace ∉ distinctTraces cs) (t : Trace) (i : Nat) :
    (v.index.put c.1.trace v.samples.length).sample? t = some i ↔
      (distinctTraces (cs ++ [c]))[i]? = some t := by
  have hlength : v.samples.length = (distinctTraces cs).length := by
    rw [h.samples, List.length_map]
  have hput : (v.index.put c.1.trace v.samples.length).sample? t =
      if t.key = c.1.trace.key then some v.samples.length else v.index.sample? t :=
    Registry.get?_insert _ _ _ _
  rw [distinctTraces_concat_of_notMem hmem, hput]
  by_cases ht : t = c.1.trace
  · rw [ht, if_pos rfl, Option.some.injEq, hlength]
    constructor
    · rintro rfl
      simp
    · intro hget
      rcases getElem?_concat_eq_some hget with hget | ⟨rfl, -⟩
      · exact absurd (List.mem_of_getElem? hget) hmem
      · rfl
  · rw [if_neg fun hkey => ht (Trace.key_injective hkey), h.index]
    constructor
    · intro hget
      rw [List.getElem?_append_left (List.getElem?_eq_some_iff.1 hget).1, hget]
    · intro hget
      rcases getElem?_concat_eq_some hget with hget | ⟨-, he⟩
      · exact hget
      · exact absurd he ht

theorem Summed.addCapture (h : Summed name methods plan cs v) (c : Capture × Int) :
    Summed name methods plan (cs ++ [c]) (v.addCapture name methods c) := by
  unfold BuilderView.addCapture
  cases hi : v.index.sample? c.1.trace with
  | some i =>
      have hmem : c.1.trace ∈ distinctTraces cs :=
        List.mem_of_getElem? ((h.index _ i).1 hi)
      refine ⟨h.planned, ?_, ?_⟩
      · rw [distinctTraces_concat_of_mem hmem]
        exact h.known hi
      · rw [distinctTraces_concat_of_mem hmem]
        exact h.index
  | none =>
      have hmem : c.1.trace ∉ distinctTraces cs := by
        intro hmem
        obtain ⟨i, hi'⟩ := List.getElem?_of_mem hmem
        rw [(h.index _ i).2 hi'] at hi
        cases hi
      refine ⟨h.planned, ?_, ?_⟩
      · have hold : (distinctTraces cs).map (sampleOf name methods plan (cs ++ [c])) =
            (distinctTraces cs).map (sampleOf name methods plan cs) := by
          apply List.map_congr_left
          intro t ht
          rw [sampleOf_concat, if_neg]
          rintro rfl
          exact hmem ht
        rw [distinctTraces_concat_of_notMem hmem, List.map_append, hold, List.map_singleton,
          sampleOf_concat, if_pos rfl, sampleOf_of_notMem hmem, ← h.samples]
        simp [openSample, SampleView.accumulate, Sample.values_accumulate, h.planned]
      · exact h.index_put hmem

theorem Summed.addCaptures (h : Summed name methods plan cs v) (cs' : List (Capture × Int)) :
    Summed name methods plan (cs ++ cs') (v.addCaptures name methods cs') := by
  induction cs' generalizing cs v with
  | nil =>
      rw [List.append_nil]
      exact h
  | cons c cs' ih =>
      have hstep := ih (h.addCapture c)
      rw [List.append_assoc] at hstep
      exact hstep

/-- Samples do not depend on the order of the captures that they sum up. -/
theorem sampleOf_of_perm {cs' : List (Capture × Int)} (h : cs.Perm cs') (t : Trace) :
    sampleOf name methods plan cs t = sampleOf name methods plan cs' t := by
  have hown := h.filter fun c => c.1.trace = t
  rw [sampleOf, sampleOf, (hown.map (·.2)).sum_eq, (hown.map (·.1.metric)).sum_eq]

theorem summed_nil (name : Int → String) (methods : MethodTable) (plan : Plan) :
    Summed name methods plan [] ⟨plan, .empty, []⟩ := by
  refine ⟨rfl, rfl, ?_⟩
  simp [SampleIndex.sample?, distinctTraces]

end BuilderView

/-! ### Accepted batches -/

namespace Builder

variable {b : Builder} {z : Symbolizer} {cs cs' : List (Capture × Int)}

/-- A batch with a count for every capture is accepted exactly if all native frames have addresses,
whatever the builder and the symbolizer. -/
theorem addBatch_weighted_ok_iff (b : Builder) (z : Symbolizer) (methods : MethodTable)
    (cs : List (Capture × Int)) :
    (b.addBatch z methods (cs.map (·.1)) (some (cs.map (·.2)))).1 = .ok () ↔
      ∀ c ∈ cs, ∀ f ∈ c.1.trace, f.Addressed := by
  rw [addBatch_eq_ok_iff, Symbolizer.resolveBatch_eq_ok_iff]
  simp [weights]

/-- An accepted batch folds its captures in after their native frames were named. -/
theorem addBatch_weighted {methods : MethodTable}
    (hok : (b.addBatch z methods (cs.map (·.1)) (some (cs.map (·.2)))).1 = .ok ()) :
    ∃ z', z.Renamed z' ∧ (∀ c ∈ cs, ∀ f ∈ c.1.trace, f.KnownTo z') ∧
      b.addBatch z methods (cs.map (·.1)) (some (cs.map (·.2))) =
        (.ok (), addCaptures methods (b, z') cs) := by
  rcases b.addBatch_cases z methods (cs.map (·.1)) (some (cs.map (·.2))) with
    ⟨e, z', he, -⟩ | ⟨z', hren, hknown, -, he⟩
  · rw [he] at hok
    cases hok
  · have hzip : (cs.map (·.1)).zip (weights (cs.map (·.1)) (some (cs.map (·.2)))) = cs :=
      List.zip_map'.trans (List.map_id cs)
    rw [hzip] at he
    exact ⟨z', hren, fun c hc => hknown c.1 (List.mem_map_of_mem hc), he⟩

end Builder

/-! ### Profiles up to numbers and order -/

/-- The profiles are the same up to the numbers of their entries and the order of their tables. -/
structure Profile.Isomorphic (p q : Profile) : Prop where
  samples : (p.samples.map p.viewSample).Perm (q.samples.map q.viewSample)
  locations : (p.locations.map p.viewOf?).Perm (q.locations.map q.viewOf?)
  functions : ∀ k, k ∈ p.functions.map (·.key) ↔ k ∈ q.functions.map (·.key)

namespace Builder

/-- A batch of weighted captures on a fresh builder with a fresh symbolizer. -/
def ofBatch (id : Nat) (plan : Plan) (symbols : List Symbol) (methods : MethodTable)
    (cs : List (Capture × Int)) : Except BatchError Unit × Builder × Symbolizer :=
  (ofPlan id plan).addBatch (.ofSymbols symbols) methods (cs.map (·.1)) (some (cs.map (·.2)))

variable {plan : Plan} {symbols : List Symbol} {methods : MethodTable}
  {cs cs' : List (Capture × Int)}

/-- The profile of an accepted batch, read off its captures. -/
theorem ofBatch_spec (id : Nat) (hok : (ofBatch id plan symbols methods cs).1 = .ok ()) :
    let name := (Symbolizer.ofSymbols symbols).naming
    let qs := cs.flatMap fun c => c.1.trace.requests name plan.skip methods
    let b := (ofBatch id plan symbols methods cs).2.1
    b.Sound ∧
      b.view.samples = (distinctTraces cs).map (sampleOf name methods plan cs) ∧
      b.profile.locations.map b.profile.viewOf? =
        (qs.eraseDups.map (Request.view name)).map some ∧
      ∀ k, k ∈ b.profile.functions.map (·.key) ↔ ∃ q ∈ qs, q.functionKey name = k := by
  intro name qs b
  have hfresh := (Symbolizer.learns_ofSymbols symbols).owner
  have hno : (Symbolizer.ofSymbols symbols).owner ≠ some id := by simp [hfresh]
  obtain ⟨z', hren, hknown, he⟩ := addBatch_weighted hok
  have hb : b = (addCaptures methods (ofPlan id plan, z') cs).1 :=
    congrArg (fun r : Except BatchError Unit × Builder × Symbolizer => r.2.1) he
  have hserved : (ofPlan id plan).ServedBy z' name :=
    ⟨sound_ofPlan id plan, hren.remembers (Symbolizer.remembers_of_owner_ne hno), hren.naming⟩
  obtain ⟨hadv, -⟩ := addCaptures_spec hserved.sound hserved.remembers
    (fun a => congrFun hserved.naming a) methods hknown
  have hsummed := (BuilderView.summed_nil name methods plan).addCaptures cs
  have hview : b.view = BuilderView.addCaptures name methods ⟨plan, .empty, []⟩ cs := by
    rw [hb]
    exact view_addCaptures hserved methods hknown
  have hfolded := ((folded_ofPlan name methods id plan hfresh).renamed hren).addCaptures hserved
    hknown
  refine ⟨?_, ?_, ?_, ?_⟩
  · rw [hb]
    exact hadv.sound
  · rw [hview]
    exact hsummed.samples
  · rw [hb]
    exact hfolded.minted.views
  · rw [hb]
    exact hfolded.minted.functions

/-- Fresh builders that are given the captures of a batch in different orders accept both or none,
and their profiles are the same up to numbers and order.  Every location shows something. -/
theorem isomorphic_of_perm (id id' : Nat) (hperm : cs.Perm cs')
    (hok : (ofBatch id plan symbols methods cs).1 = .ok ()) :
    let p := (ofBatch id plan symbols methods cs).2.1.profile
    let p' := (ofBatch id' plan symbols methods cs').2.1.profile
    (ofBatch id' plan symbols methods cs').1 = .ok () ∧ p.Isomorphic p' ∧
      (∀ s ∈ p.samples, ∀ x ∈ (p.viewSample s).stack, x.isSome = true) ∧
      ∀ l ∈ p.locations, (p.viewOf? l).isSome = true := by
  intro p p'
  have haddressed := (addBatch_weighted_ok_iff _ _ methods cs).1 hok
  have hok' : (ofBatch id' plan symbols methods cs').1 = .ok () :=
    (addBatch_weighted_ok_iff _ _ methods cs').2 fun c hc => haddressed c (hperm.mem_iff.2 hc)
  obtain ⟨hsound, hsamples, hlocations, hfunctions⟩ := ofBatch_spec id hok
  obtain ⟨-, hsamples', hlocations', hfunctions'⟩ := ofBatch_spec id' hok'
  have hrequests := hperm.flatMap_right fun c =>
    c.1.trace.requests (Symbolizer.ofSymbols symbols).naming plan.skip methods
  refine ⟨hok', ⟨?_, ?_, ?_⟩, ?_, ?_⟩
  · -- The totals of a trace do not depend on the order, so the samples are those of the traces.
    have htotals : sampleOf (Symbolizer.ofSymbols symbols).naming methods plan cs =
        sampleOf (Symbolizer.ofSymbols symbols).naming methods plan cs' :=
      funext (BuilderView.sampleOf_of_perm hperm)
    have htraces : (distinctTraces cs).Perm (distinctTraces cs') :=
      perm_eraseDups (hperm.map _)
    show (Builder.view _).samples.Perm (Builder.view _).samples
    rw [hsamples, hsamples', htotals]
    exact htraces.map _
  · rw [hlocations, hlocations']
    exact ((perm_eraseDups hrequests).map _).map some
  · intro k
    rw [hfunctions, hfunctions']
    simp only [hrequests.mem_iff]
  · intro s hs
    exact hsound.isSome_of_mem_stack (List.mem_map_of_mem hs)
  · exact fun l hl => Option.isSome_iff_exists.2 (Profile.exists_viewOf? hlocations hl)

/-- Two traces share a native location; whichever comes first, the identifiers differ. -/
theorem isomorphic_of_perm_rotated :
    let plan : Plan := ⟨1, {}, {}, 0, false⟩
    let symbols : List Symbol := [⟨16, 8, "f"⟩, ⟨32, 8, "g"⟩]
    let lines : LineTable := ⟨[⟨0, 40⟩, ⟨5, 41⟩], by decide⟩
    let run : Method := ⟨"Job.java", "p/q/Job", "run", some "(I)V", lines⟩
    let methods : MethodTable := .ofList [(.number 1, run)]
    let t : Capture := ⟨[.native 16, ⟨7, .number 1⟩], 3⟩
    let u : Capture := ⟨[.native 34, .native 16], 5⟩
    let p := (ofBatch 0 plan symbols methods [(t, 2), (u, 1), (t, -4)]).2.1.profile
    let p' := (ofBatch 1 plan symbols methods [(u, 1), (t, -4), (t, 2)]).2.1.profile
    p.Isomorphic p' ∧ p.samples = [⟨[1, 2], [-2, 6]⟩, ⟨[3, 1], [1, 5]⟩] ∧
      p'.samples = [⟨[1, 2], [1, 5]⟩, ⟨[2, 3], [-2, 6]⟩] := by
  intro plan symbols lines run methods t u p p'
  have hperm : [(t, (2 : Int)), (u, 1), (t, -4)].Perm [(u, 1), (t, -4), (t, 2)] := by decide
  have hok : (ofBatch 0 plan symbols methods [(t, 2), (u, 1), (t, -4)]).1 = .ok () := rfl
  obtain ⟨-, hiso, -⟩ := isomorphic_of_perm 0 1 hperm hok
  exact ⟨hiso, by decide +kernel, by decide +kernel⟩

end Builder

end StackProfile
