import Mathlib.Algebra.BigOperators.Group.List.Basic
import StackProfile.Proofs.Coherence
import StackProfile.Proofs.Ledger

/-! # Batches of known traces

A capture whose trace was seen before adds to the sample of the trace and does nothing else.  So a
batch of such captures leaves all tables of its builder as they are, whatever the symbols, the
methods and the owner of the symbolizer have become since the traces were rendered; of the samples
it changes the values alone, by the sums of the weights and of the metrics that go there.

Main lemmas: sums may be added at once (`accumulate_accumulate`), a batch of known captures is one
pass over the samples (`addCaptures_of_known`), and what a session makes of it
(`addBatch_of_seen`). -/

namespace StackProfile

namespace Sample

theorem accumulate_zero (s : Sample) : s.accumulate 0 0 = s := by
  rw [accumulate, Int.add_zero, Int.add_zero, setMetric_setCount_self]

theorem accumulate_accumulate (s : Sample) (w m w' m' : Int) :
    (s.accumulate w m).accumulate w' m' = s.accumulate (w + w') (m + m') := by
  obtain ⟨ids, values⟩ := s
  match values with
  | [] => rfl
  | [c] => simp [accumulate, setCount, setMetric, count, metric, Int.add_assoc]
  | c :: m :: vs => simp [accumulate, setCount, setMetric, count, metric, Int.add_assoc]

end Sample

namespace Builder

variable {b b' : Builder} {cs : List (Capture × Int)}

/-! ### Shares of a sample -/

/-- The captures that go to the sample at a position. -/
def sharesOf (b : Builder) (cs : List (Capture × Int)) (j : Nat) : List (Capture × Int) :=
  cs.filter fun c => b.index.sample? c.1.trace = some j

/-- The weight that captures add to the sample at a position. -/
def addedWeight (b : Builder) (cs : List (Capture × Int)) (j : Nat) : Int :=
  ((b.sharesOf cs j).map (·.2)).sum

/-- The metric that captures add to the sample at a position. -/
def addedMetric (b : Builder) (cs : List (Capture × Int)) (j : Nat) : Int :=
  ((b.sharesOf cs j).map (·.1.metric)).sum

/-- The samples with the shares of captures. -/
def merged (b : Builder) (cs : List (Capture × Int)) : List Sample :=
  b.samples.mapIdx fun j s => s.accumulate (b.addedWeight cs j) (b.addedMetric cs j)

theorem sharesOf_cons (b : Builder) (c : Capture × Int) (cs : List (Capture × Int)) (j : Nat) :
    b.sharesOf (c :: cs) j =
      if b.index.sample? c.1.trace = some j then c :: b.sharesOf cs j else b.sharesOf cs j := by
  unfold sharesOf
  rw [List.filter_cons]
  simp only [decide_eq_true_eq]

theorem sharesOf_of_ne {j : Nat} (h : ∀ c ∈ cs, b.index.sample? c.1.trace ≠ some j) :
    b.sharesOf cs j = [] :=
  List.filter_eq_nil_iff.2 fun c hc => by simpa using h c hc

theorem merged_nil (b : Builder) : b.merged [] = b.samples := by
  apply List.ext_getElem?
  intro j
  unfold merged
  rw [List.getElem?_mapIdx]
  cases b.samples[j]? with
  | none => rfl
  | some s => exact congrArg some s.accumulate_zero

/-- The share of the first capture is added first. -/
theorem merged_cons {c : Capture × Int} {i : Nat} (h : b.index.sample? c.1.trace = some i)
    (cs : List (Capture × Int)) :
    b.merged (c :: cs) = (b.withProfile
      (b.profile.modifySample i fun s => s.accumulate c.2 c.1.metric)).merged cs := by
  apply List.ext_getElem?
  intro j
  have hsamples : (b.withProfile
      (b.profile.modifySample i fun s => s.accumulate c.2 c.1.metric)).samples[j]? =
      (b.samples.modify i fun s => s.accumulate c.2 c.1.metric)[j]? := rfl
  unfold merged
  rw [List.getElem?_mapIdx, List.getElem?_mapIdx, hsamples, List.getElem?_modify]
  cases b.samples[j]? with
  | none => rfl
  | some s =>
      have hshares := b.sharesOf_cons c cs j
      by_cases hij : i = j
      · rw [if_pos (h.trans (congrArg some hij))] at hshares
        simp only [addedWeight, addedMetric, hshares, if_pos hij, Option.map_eq_map,
          Option.map_some, List.map_cons, List.sum_cons, Sample.accumulate_accumulate]
        rfl
      · rw [if_neg fun hj => hij (Option.some.inj (h.symm.trans hj))] at hshares
        simp only [addedWeight, addedMetric, hshares, if_neg hij, Option.map_eq_map,
          Option.map_some]
        rfl

/-- Captures with known traces are one pass over the samples, and the symbolizer is not asked. -/
theorem addCaptures_of_known (h : ∀ c ∈ cs, (b.index.sample? c.1.trace).isSome = true)
    (methods : MethodTable) (z : Symbolizer) :
    addCaptures methods (b, z) cs =
      (b.withProfile { b.profile with samples := b.merged cs }, z) := by
  induction cs generalizing b with
  | nil =>
      rw [merged_nil]
      rfl
  | cons c cs ih =>
      obtain ⟨i, hi⟩ := Option.isSome_iff_exists.1 (h c List.mem_cons_self)
      let b₁ := b.withProfile (b.profile.modifySample i fun s => s.accumulate c.2 c.1.metric)
      have hrest : ∀ d ∈ cs, (b₁.index.sample? d.1.trace).isSome = true :=
        fun d hd => h d (List.mem_cons_of_mem c hd)
      show addCaptures methods (addCapture methods (b, z) c) cs = _
      rw [addCapture_of_known hi, merged_cons hi]
      exact ih hrest

/-! ### Merged batches -/

/-- A builder after captures that all found their samples: its tables and its stacks are as they
were, every sample has got its shares, and the others are as they were. -/
structure Merges (cs : List (Capture × Int)) (b b' : Builder) : Prop where
  locations : b'.profile.locations = b.profile.locations
  functions : b'.profile.functions = b.profile.functions
  interned : b'.table.interned = b.table.interned
  index : b'.index = b.index
  sampleIds : b'.samples.map (·.locationIds) = b.samples.map (·.locationIds)
  found : ∀ c ∈ cs, ∃ j s, b.index.sample? c.1.trace = some j ∧ b.samples[j]? = some s
  values : ∀ (j : Nat) (s : Sample), b.samples[j]? = some s → s.values = [s.count, s.metric] ∧
    ∃ s', b'.samples[j]? = some s' ∧
      s'.values = [s.count + b.addedWeight cs j, s.metric + b.addedMetric cs j]
  others : ∀ j : Nat, (∀ c ∈ cs, b.index.sample? c.1.trace ≠ some j) →
    b'.samples[j]? = b.samples[j]?

theorem getElem?_merged (b : Builder) (cs : List (Capture × Int)) (j : Nat) :
    (b.merged cs)[j]? =
      b.samples[j]?.map fun s => s.accumulate (b.addedWeight cs j) (b.addedMetric cs j) :=
  List.getElem?_mapIdx

theorem merges_merged (hb : b.Sound)
    (hfound : ∀ c ∈ cs, ∃ j s, b.index.sample? c.1.trace = some j ∧ b.samples[j]? = some s) :
    b.Merges cs (b.withProfile { b.profile with samples := b.merged cs }) where
  locations := rfl
  functions := rfl
  interned := rfl
  index := rfl
  sampleIds := by
    apply List.ext_getElem?
    intro j
    show ((b.merged cs).map (·.locationIds))[j]? = _
    rw [List.getElem?_map, List.getElem?_map, getElem?_merged, Option.map_map]
    rfl
  found := hfound
  values j s hs := by
    have hlength := hb.values s (List.mem_of_getElem? hs)
    obtain ⟨ids, values⟩ := s
    obtain ⟨c, m, rfl⟩ := List.length_eq_two.1 hlength
    have hmerged : (b.merged cs)[j]? =
        some ⟨ids, [c + b.addedWeight cs j, m + b.addedMetric cs j]⟩ := by
      rw [getElem?_merged, hs, Option.map_some, Sample.values_accumulate]
    exact ⟨rfl, _, hmerged, rfl⟩
  others j hj := by
    have hshares := sharesOf_of_ne hj
    show (b.merged cs)[j]? = _
    rw [getElem?_merged]
    simp only [addedWeight, addedMetric, hshares, List.map_nil, List.sum_nil,
      Sample.accumulate_zero, Option.map_id']

/-- Captures of traces that were booked find their samples. -/
theorem exists_sample_of_booked {u : Prop} {h : Ledger} (hb : Booked u h b) {t : Trace}
    (ht : t.key ∈ h.keys) : ∃ j s, b.index.sample? t = some j ∧ b.samples[j]? = some s := by
  obtain ⟨j, hj⟩ := Option.isSome_iff_exists.1 ((hb.mem_keys_iff t.key).1 ht)
  obtain ⟨w, m, ho⟩ := (hb.index t.key j).1 hj
  have hlt : j < b.samples.length := by
    rw [hb.length]
    exact (List.getElem?_eq_some_iff.1 ho).1
  exact ⟨j, _, hj, List.getElem?_eq_getElem hlt⟩

end Builder

/-! ### Sessions -/

namespace Session

variable {exp : Float → Float} {i : Nat} {d : Desk}

/-- Whatever a session has done since, a batch of traces that its builder has seen, if it is
accepted, adds to the values of their samples and changes nothing else of the builder; of the
session it changes at most the names that the symbolizer remembers. -/
theorem addBatch_of_seen (exp : Float → Float) {ops : List Op}
    (hd : (after exp ops).desks[i]? = some d) {batch : List Capture} {counts? : Option (List Int)}
    (hseen : ∀ c ∈ batch, c.trace.key ∈ (ledger exp i ops).keys) {answer : Answer}
    (hok : ((after exp ops).step exp (.addBatch i batch counts?)).1 = .ok answer) :
    let s := after exp ops
    ∃ z z' b, s.symbolizers[d.symbolizer]? = some z ∧ z.Renamed z' ∧
      d.builder.Merges (batch.zip (Builder.weights batch counts?)) b ∧
      s.step exp (.addBatch i batch counts?) =
        (.ok (.builder b), (s.setSymbolizer d.symbolizer z').setBuilder i b) := by
  intro s
  have hbooked := (booked_after exp i ops).2 d hd
  have hfound : ∀ c ∈ batch.zip (Builder.weights batch counts?), ∃ j s,
      d.builder.index.sample? c.1.trace = some j ∧ d.builder.samples[j]? = some s :=
    fun c hc => Builder.exists_sample_of_booked hbooked (hseen c.1 (List.of_mem_zip hc).1)
  have hknown : ∀ c ∈ batch.zip (Builder.weights batch counts?),
      (d.builder.index.sample? c.1.trace).isSome = true := by
    intro c hc
    obtain ⟨j, -, hj, -⟩ := hfound c hc
    rw [hj]
    rfl
  have hmerges := Builder.merges_merged ((coherent_after_any exp ops).sound i d hd) hfound
  have hstep : s.step exp (.addBatch i batch counts?) = s.addBatch i batch counts? := rfl
  rw [hstep] at hok ⊢
  rcases s.addBatch_absent_or i batch counts? with habsent | ⟨e, z, methods, he, hz, ht⟩
  · rw [habsent] at hok
    cases hok
  · obtain rfl := Option.some.inj (hd.symm.trans he)
    rcases d.builder.addBatch_cases z methods batch counts? with
      ⟨e, z', hrefused, -⟩ | ⟨z', hren, -, -, haccepted⟩
    · rw [addBatch_of_error hd hz ht hrefused] at hok
      cases hok
    · rw [Builder.addCaptures_of_known hknown] at haccepted
      exact ⟨z, z', _, hz, hren, hmerges, addBatch_of_ok hd hz ht haccepted⟩

/-- Since its first batch the address of the trace has got another name, its method another class
and the symbolizer another owner; the trace comes twice, once with a negative weight. -/
theorem addBatch_of_seen_renamed :
    let plan : Plan := ⟨1, {}, {}, 0, false⟩
    let lines : LineTable := ⟨[⟨0, 40⟩, ⟨5, 41⟩], by decide⟩
    let run : Method := ⟨"Job.java", "p/q/Job", "run", some "(I)V", lines⟩
    let trace : Trace := [.native 16, ⟨7, .number 1⟩]
    let ops : List Op := [.openSymbolizer [⟨16, 8, "f"⟩], .openMethods [(.number 1, run)],
      .openPlanned plan 0 0, .openPlanned plan 0 0,
      .addBatch 0 [⟨[.native 20], 5⟩, ⟨trace, 3⟩] none, .register 0 ⟨16, 2, "g"⟩,
      .addMethod 0 (.number 1) ⟨"Task.java", "p/Task", "run", none, {}⟩,
      .addBatch 1 [⟨trace, 1⟩] none]
    ∃ d b, (after id ops).desks[0]? = some d ∧
      ((after id ops).step id (.addBatch 0 [⟨trace, 4⟩, ⟨trace, 10⟩] (some [2, -5]))).1 =
        .ok (.builder b) ∧
      b.profile.locations = d.builder.profile.locations ∧
      (b.samples[1]?).map (·.values) = some [-2, 17] ∧ b.samples[0]? = d.builder.samples[0]? := by
  intro plan lines run trace ops
  let batch : List Capture := [⟨trace, 4⟩, ⟨trace, 10⟩]
  have hseen : ∀ c ∈ batch, c.trace.key ∈ (ledger id 0 ops).keys := by decide +kernel
  have hdesk : (after id ops).desks[0]?.map (fun d => (d.builder.samples[1]?.map (·.values),
      d.builder.index.sample? trace)) = some (some [1, 3], some 1) := by decide +kernel
  obtain ⟨d, hd, hbefore⟩ := Option.map_eq_some_iff.1 hdesk
  obtain ⟨hsample, hindex⟩ := Prod.mk.inj hbefore
  obtain ⟨s, hs, hold⟩ := Option.map_eq_some_iff.1 hsample
  obtain ⟨answer, hok⟩ : ∃ answer,
      ((after id ops).step id (.addBatch 0 batch (some [2, -5]))).1 = .ok answer := ⟨_, rfl⟩
  obtain ⟨z, z', b, -, -, hmerges, hstep⟩ := addBatch_of_seen id hd hseen hok
  obtain ⟨-, s', hs', hvalues⟩ := hmerges.values 1 s hs
  refine ⟨d, b, hd, ?_, hmerges.locations, ?_, hmerges.others 0 ?_⟩
  · rw [hstep]
  · rw [hs', Option.map_some, hvalues]
    simp [Sample.count, Sample.metric, hold, Builder.addedWeight, Builder.addedMetric,
      Builder.sharesOf, hindex, batch, Builder.weights]
  · simp [batch, Builder.weights, hindex]

end Session

end StackProfile
