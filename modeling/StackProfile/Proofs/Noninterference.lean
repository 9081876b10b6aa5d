import StackProfile.Proofs.BuilderView
import StackProfile.Proofs.Coherence

/-! # Builders that share a symbolizer

Builders that share a symbolizer and a method table leave traces in each other's symbolizer: the
names that were given stay remembered, and the locations change owners.  None of this can be seen in
a profile.  If the symbols and the methods stay as they are, what a builder shows, and which of its
calls fail, is the same as if the calls of the other builders had not been made.

Main lemmas: a call works on its own builder only, in a way that depends on what this builder has
shown alone (`Sharing.step_cases`), so sessions that look alike to a builder go on to do so
(`Alike.run`), and the calls of other builders can be left out (`noninterference`). -/

namespace StackProfile

/-- The operation opens a builder that shares the first symbolizer and the first method table, or
it adds a batch or an artificial trace. -/
def Op.Shares : Op → Prop
  | .openConfigured _ _ _ _ symbolizer methods => symbolizer = 0 ∧ methods = 0
  | .openPlanned _ symbolizer methods => symbolizer = 0 ∧ methods = 0
  | .addBatch _ _ _ => True
  | .addArtificial _ _ _ _ => True
  | _ => False

/-- The work of a builder on what it shows; only batches and artificial traces change it. -/
def BuilderView.work (name : Int → String) (methods : MethodTable) (v : BuilderView) :
    Op → Except OpError Unit × BuilderView
  | .addBatch _ batch counts? =>
    let r := v.addBatch name methods batch counts?
    (r.1.mapError .batch, r.2)
  | .addArtificial _ label count rate => (.ok (), v.addArtificial label count rate)
  | _ => (.ok (), v)

namespace Session

/-- What the builder at desk `i` shows. -/
def viewAt (s : Session) (i : Nat) : Option BuilderView := s.desks[i]?.map (·.builder.view)

/-- A session with a single symbolizer and a single method table, which all builders use. -/
structure Sharing (symbols : SymbolTable) (methods : MethodTable) (s : Session) : Prop where
  coherent : Coherent (fun _ _ a n => n = symbols.resolve a) s
  symbolizer : ∃ z : Symbolizer, s.symbolizers = [z] ∧ z.symbols = symbols
  methods : s.methodTables = [methods]
  desks : ∀ d ∈ s.desks, d.symbolizer = 0 ∧ d.methods = 0

/-- The operations without those that work on another builder than that at desk `i`. -/
def purge (i : Nat) (ops : List Op) : List Op :=
  ops.filter fun op => op.builder? = none ∨ op.builder? = some i

/-- Which of the operations on the builder at desk `i` succeed, and why the others fail. -/
def outcomes (exp : Float → Float) (i : Nat) (s : Session) (ops : List Op) :
    List (Except OpError Unit) :=
  ((ops.zip (s.run exp ops).1).filter fun r => r.1.builder? = some i).map fun r =>
    r.2.map fun _ => ()

variable {exp : Float → Float} {symbols : SymbolTable} {methods : MethodTable} {s s' : Session}
  {i j : Nat} {op : Op}

theorem Sharing.allowed (h : Sharing symbols methods s) :
    Allowed (fun _ _ a n => n = symbols.resolve a) s := by
  obtain ⟨z, hz, hsymbols⟩ := h.symbolizer
  intro k y hy _ _ _ a
  rw [hz, List.getElem?_singleton] at hy
  split at hy
  · obtain rfl := Option.some.inj hy
    rw [hsymbols]
  · cases hy

/-- The symbolizer serves all builders. -/
theorem Sharing.servedBy (h : Sharing symbols methods s) {z : Symbolizer}
    (hz : s.symbolizers = [z]) {d : Desk} (hd : s.desks[i]? = some d) :
    d.builder.ServedBy z symbols.resolve := by
  have hz' : s.symbolizers[0]? = some z := by rw [hz]; rfl
  refine ⟨h.coherent.sound i d hd, h.coherent.remembersFor hz' hd, ?_⟩
  funext a
  exact h.coherent.allowed_naming h.allowed hz' hd a

/-! ### The work of a builder -/

theorem setSymbolizer_self {z : Symbolizer} (hz : s.symbolizers = [z]) :
    s.setSymbolizer 0 z = s := by
  unfold setSymbolizer
  rw [hz, List.set_cons_zero, ← hz]

/-- A batch is the work of its builder and of the shared symbolizer. -/
theorem Sharing.addBatch_eq (h : Sharing symbols methods s) {z : Symbolizer}
    (hz : s.symbolizers = [z]) {d : Desk} (hd : s.desks[i]? = some d) (batch : List Capture)
    (counts? : Option (List Int)) :
    let r := d.builder.addBatch z methods batch counts?
    ((s.addBatch i batch counts?).1.map fun _ => ()) = r.1.mapError .batch ∧
      (s.addBatch i batch counts?).2 = (s.setSymbolizer 0 r.2.2).setBuilder i r.2.1 := by
  obtain ⟨hk, hm⟩ := h.desks d (List.mem_of_getElem? hd)
  unfold addBatch
  simp only [hd, hk, hm, hz, h.methods, List.getElem?_cons_zero]
  constructor
  · cases (d.builder.addBatch z methods batch counts?).1 <;> rfl
  · trivial

/-- What an operation on a builder does: nothing if there is no such builder, and otherwise it works
on this builder and on what the shared symbolizer remembers.  The outcome and what the builder then
shows depend on what it has shown alone. -/
theorem Sharing.step_cases (h : Sharing symbols methods s) (exp : Float → Float)
    (hop : op.Shares) (hi : op.builder? = some i) :
    (s.desks[i]? = none ∧ s.step exp op = (.error .absent, s)) ∨
      ∃ d z b, s.desks[i]? = some d ∧ z.symbols = symbols ∧
        (s.step exp op).2 = (s.setSymbolizer 0 z).setBuilder i b ∧
        ((s.step exp op).1.map fun _ => (), b.view) =
          d.builder.view.work symbols.resolve methods op := by
  obtain ⟨z, hz, hsymbols⟩ := h.symbolizer
  cases op with
  | addBatch j batch counts? =>
      obtain rfl := Option.some.inj hi
      cases hd : s.desks[j]? with
      | none =>
          refine .inl ⟨rfl, ?_⟩
          simp only [Session.step, Session.addBatch, hd]
      | some d =>
          have hserved := h.servedBy hz hd
          have hadv := Builder.advances_addBatch hserved.sound hserved.remembers
            (fun a => congrFun hserved.naming a) methods batch counts?
          have hwork := Builder.view_addBatch hserved methods batch counts?
          obtain ⟨houtcome, hs⟩ := h.addBatch_eq hz hd batch counts?
          refine .inr ⟨d, _, _, rfl, hadv.symbols.trans hsymbols, hs, ?_⟩
          simp only [Session.step, houtcome, BuilderView.work, ← hwork]
  | addArtificial j label count rate =>
      obtain rfl := Option.some.inj hi
      simp only [Session.step, onBuilder]
      cases hd : s.desks[j]? with
      | none => exact .inl ⟨rfl, rfl⟩
      | some d =>
          have hwork := Builder.view_addArtificial (h.coherent.sound j d hd) label count rate
          refine .inr ⟨d, z, d.builder.addArtificial label count rate, rfl, hsymbols, ?_, ?_⟩
          · rw [setSymbolizer_self hz]
          · rw [hwork]
            rfl
  | openPlanned => cases hi
  | openConfigured => cases hi
  | _ => exact hop.elim

/-! ### Sharing is kept -/

theorem Sharing.desks_pushBuilder (h : Sharing symbols methods s) (plan : Plan) :
    ∀ d ∈ (s.pushBuilder plan 0 0).desks, d.symbolizer = 0 ∧ d.methods = 0 := by
  intro d hd
  rcases List.mem_append.1 hd with hd | hd
  · exact h.desks d hd
  · rw [List.mem_singleton.1 hd]
    exact ⟨rfl, rfl⟩

theorem Sharing.desks_setBuilder (h : Sharing symbols methods s) (i : Nat) (b : Builder) :
    ∀ d ∈ (s.setBuilder i b).desks, d.symbolizer = 0 ∧ d.methods = 0 := by
  intro d hd
  obtain ⟨j, hj⟩ := List.getElem?_of_mem hd
  rw [getElem?_setBuilder] at hj
  split at hj
  · obtain ⟨e, he, rfl⟩ := Option.map_eq_some_iff.1 hj
    exact h.desks e (List.mem_of_getElem? he)
  · exact h.desks d (List.mem_of_getElem? hj)

theorem Sharing.step (h : Sharing symbols methods s) (exp : Float → Float) (hop : op.Shares) :
    Sharing symbols methods (s.step exp op).2 := by
  have hcoherent := h.coherent.move h.allowed (move_step exp s op)
  cases hi : op.builder? with
  | some i =>
      rcases h.step_cases exp hop hi with ⟨-, hs⟩ | ⟨d, z, b, -, hsymbols, hs, -⟩
      · rw [hs]
        exact h
      · rw [hs] at hcoherent ⊢
        obtain ⟨y, hy, -⟩ := h.symbolizer
        refine ⟨hcoherent, ⟨z, ?_, hsymbols⟩, h.methods, h.desks_setBuilder i b⟩
        show s.symbolizers.set 0 z = [z]
        rw [hy, List.set_cons_zero]
  | none =>
      cases op with
      | openPlanned plan k m =>
          obtain ⟨rfl, rfl⟩ := hop
          exact ⟨hcoherent, h.symbolizer, h.methods, h.desks_pushBuilder plan⟩
      | openConfigured kind rate skip? unsample? k m =>
          obtain ⟨rfl, rfl⟩ := hop
          simp only [Session.step] at hcoherent ⊢
          cases hsettings : Settings.make kind rate skip? unsample? with
          | error e => exact h
          | ok settings =>
              rw [hsettings] at hcoherent
              exact ⟨hcoherent, h.symbolizer, h.methods, h.desks_pushBuilder settings.plan⟩
      | addBatch => cases hi
      | addArtificial => cases hi
      | _ => exact hop.elim

/-! ### What one operation changes -/

theorem viewAt_setBuilder (s : Session) (i : Nat) (b : Builder) (j : Nat) :
    (s.setBuilder i b).viewAt j =
      if i = j then (s.viewAt j).map fun _ => b.view else s.viewAt j := by
  unfold viewAt
  rw [getElem?_setBuilder]
  split
  · rw [Option.map_map, Option.map_map]
    rfl
  · rfl

theorem viewAt_of_desk {d : Desk} (hd : s.desks[i]? = some d) :
    s.viewAt i = some d.builder.view := by
  rw [viewAt, hd]
  rfl

/-- The work of a builder changes what it shows, and this depends on what it has shown alone. -/
theorem Sharing.viewAt_step (h : Sharing symbols methods s) (exp : Float → Float)
    (hop : op.Shares) (hi : op.builder? = some i) :
    ((s.step exp op).1.map fun _ => (), (s.step exp op).2.viewAt i) =
      match s.viewAt i with
      | none => (.error .absent, none)
      | some v =>
        let r := v.work symbols.resolve methods op
        (r.1, some r.2) := by
  rcases h.step_cases exp hop hi with ⟨hd, hs⟩ | ⟨d, z, b, hd, -, hs, hwork⟩
  · have hview : s.viewAt i = none := by
      rw [viewAt, hd]
      rfl
    rw [hs, hview]
    rfl
  · have hview : ((s.setSymbolizer 0 z).setBuilder i b).viewAt i = some b.view := by
      rw [viewAt_setBuilder, if_pos rfl, viewAt_of_desk (s := s.setSymbolizer 0 z) hd]
      rfl
    simp only [viewAt_of_desk hd, hs, hview, ← hwork]

/-- The work of a builder opens no other one. -/
theorem Sharing.length_desks_step (h : Sharing symbols methods s) (exp : Float → Float)
    (hop : op.Shares) (hj : op.builder? = some j) :
    (s.step exp op).2.desks.length = s.desks.length := by
  rcases h.step_cases exp hop hj with ⟨-, hs⟩ | ⟨d, z, b, -, -, hs, -⟩
  · rw [hs]
  · rw [hs, length_desks_setBuilder, length_desks_setSymbolizer]

/-- The work of a builder does not change what another one shows. -/
theorem Sharing.viewAt_step_of_ne (h : Sharing symbols methods s) (exp : Float → Float)
    (hop : op.Shares) (hj : op.builder? = some j) (hne : j ≠ i) :
    (s.step exp op).2.viewAt i = s.viewAt i := by
  rcases h.step_cases exp hop hj with ⟨-, hs⟩ | ⟨d, z, b, -, -, hs, -⟩
  · rw [hs]
  · rw [hs, viewAt_setBuilder, if_neg hne]
    rfl

/-! ### Sessions that look alike -/

/-- Two sessions have as many builders and look alike to the one at desk `i`. -/
structure Alike (i : Nat) (s s' : Session) : Prop where
  length : s'.desks.length = s.desks.length
  view : s'.viewAt i = s.viewAt i

theorem viewAt_pushBuilder (s : Session) (plan : Plan) (k m i : Nat) :
    (s.pushBuilder plan k m).viewAt i =
      if i = s.desks.length then some ⟨plan, .empty, []⟩ else s.viewAt i := by
  unfold viewAt pushBuilder
  rcases Nat.lt_trichotomy i s.desks.length with hi | rfl | hi
  · rw [if_neg (Nat.ne_of_lt hi), List.getElem?_append_left hi]
  · rw [if_pos rfl, List.getElem?_append_right (Nat.le_refl _), Nat.sub_self]
    rfl
  · have hlen : (s.desks ++ [Desk.mk (.ofPlan s.desks.length plan) k m]).length ≤ i := by
      rw [List.length_append, List.length_singleton]
      omega
    rw [if_neg (Nat.ne_of_gt hi), List.getElem?_eq_none (Nat.le_of_lt hi),
      List.getElem?_eq_none hlen]

theorem Alike.openBuilder (h : Alike i s s') (plan : Plan) (k m : Nat) :
    Alike i (s.pushBuilder plan k m) (s'.pushBuilder plan k m) where
  length := by simp [pushBuilder, h.length]
  view := by rw [viewAt_pushBuilder, viewAt_pushBuilder, h.length, h.view]

/-- An operation that opens a builder keeps sessions alike. -/
theorem Alike.step_open (h : Alike i s s') (exp : Float → Float) (hop : op.Shares)
    (hi : op.builder? = none) : Alike i (s.step exp op).2 (s'.step exp op).2 := by
  cases op with
  | openPlanned plan k m => exact h.openBuilder plan k m
  | openConfigured kind rate skip? unsample? k m =>
      simp only [Session.step]
      cases Settings.make kind rate skip? unsample? with
      | error e => exact h
      | ok settings => exact h.openBuilder settings.plan k m
  | addBatch => cases hi
  | addArtificial => cases hi
  | _ => exact hop.elim

/-- The work of a builder has the same outcome in sessions that look alike to it, and they go on to
do so. -/
theorem Alike.step_work (h : Alike i s s') (hs : Sharing symbols methods s)
    (hs' : Sharing symbols methods s') (exp : Float → Float) (hop : op.Shares)
    (hi : op.builder? = some i) :
    Alike i (s.step exp op).2 (s'.step exp op).2 ∧
      ((s'.step exp op).1.map fun _ => ()) = (s.step exp op).1.map fun _ => () := by
  have hlength : (s'.step exp op).2.desks.length = (s.step exp op).2.desks.length := by
    rw [hs'.length_desks_step exp hop hi, hs.length_desks_step exp hop hi, h.length]
  have hstep := hs'.viewAt_step exp hop hi
  rw [h.view, ← hs.viewAt_step exp hop hi] at hstep
  obtain ⟨houtcome, hview⟩ := Prod.mk.inj hstep
  exact ⟨⟨hlength, hview⟩, houtcome⟩

/-! ### Runs -/

theorem outcomes_cons (exp : Float → Float) (i : Nat) (s : Session) (op : Op) (ops : List Op) :
    outcomes exp i s (op :: ops) =
      (if op.builder? = some i then [(s.step exp op).1.map fun _ => ()] else []) ++
        outcomes exp i (s.step exp op).2 ops := by
  unfold outcomes
  by_cases h : op.builder? = some i <;> simp [run, h]

theorem purge_cons (i : Nat) (op : Op) (ops : List Op) :
    purge i (op :: ops) =
      if op.builder? = none ∨ op.builder? = some i then op :: purge i ops else purge i ops := by
  unfold purge
  rw [List.filter_cons]
  simp only [decide_eq_true_eq]

/-- Sessions that look alike to a builder go on to do so if the work of the others is left out in
one of them, and the work of this builder has the same outcomes. -/
theorem Alike.run (h : Alike i s s') (hs : Sharing symbols methods s)
    (hs' : Sharing symbols methods s') (exp : Float → Float) {ops : List Op}
    (hops : ∀ op ∈ ops, op.Shares) :
    Alike i (s.run exp ops).2 (s'.run exp (purge i ops)).2 ∧
      Sharing symbols methods (s.run exp ops).2 ∧
      outcomes exp i s' (purge i ops) = outcomes exp i s ops := by
  induction ops generalizing s s' with
  | nil => exact ⟨h, hs, rfl⟩
  | cons op ops ih =>
      have hop := hops op List.mem_cons_self
      have hrest : ∀ op ∈ ops, op.Shares := fun op h => hops op (List.mem_cons_of_mem _ h)
      have hstep := hs.step exp hop
      have hstep' := hs'.step exp hop
      rw [purge_cons, outcomes_cons exp i s]
      cases hb : op.builder? with
      | none =>
          rw [if_pos (.inl rfl), outcomes_cons, hb]
          exact ih (h.step_open exp hop hb) hstep hstep' hrest
      | some j =>
          by_cases hj : j = i
          · subst hj
            obtain ⟨halike, houtcome⟩ := h.step_work hs hs' exp hop hb
            obtain ⟨hview, hshare, hrests⟩ := ih halike hstep hstep' hrest
            rw [if_pos (.inr rfl), outcomes_cons, hb, houtcome, hrests]
            exact ⟨hview, hshare, rfl⟩
          · have halike : Alike i (s.step exp op).2 s' :=
              ⟨h.length.trans (hs.length_desks_step exp hop hb).symm,
                h.view.trans (hs.viewAt_step_of_ne exp hop hb hj).symm⟩
            have hne : ¬ (some j = none ∨ some j = some i) := by simp [hj]
            rw [if_neg hne, if_neg fun he => hj (Option.some.inj he)]
            exact ih halike hstep hs' hrest

/-- The first symbolizer and the first method table. -/
def opening (symbols : List Symbol) (methods : List (MethodId × Method)) : List Op :=
  [.openSymbolizer symbols, .openMethods methods]

theorem sharing_opening (exp : Float → Float) (symbols : List Symbol)
    (methods : List (MethodId × Method)) :
    Sharing (Symbolizer.ofSymbols symbols).symbols (Registry.ofList methods)
      (after exp (opening symbols methods)) where
  coherent := (coherent_nil.openSymbolizer symbols).aside (.methods [Registry.ofList methods])
  symbolizer := ⟨_, rfl, rfl⟩
  methods := rfl
  desks := by
    intro d hd
    cases hd

theorem after_opening (exp : Float → Float) (symbols : List Symbol)
    (methods : List (MethodId × Method)) (ops : List Op) :
    after exp (opening symbols methods ++ ops) =
      ((after exp (opening symbols methods)).run exp ops).2 := by
  unfold after
  rw [run_append]

theorem outcomes_opening (exp : Float → Float) (i : Nat) (symbols : List Symbol)
    (methods : List (MethodId × Method)) (ops : List Op) :
    outcomes exp i {} (opening symbols methods ++ ops) =
      outcomes exp i (after exp (opening symbols methods)) ops := rfl

/-- Builders that share a symbolizer and a method table do not interfere: with the same symbols and
the same methods, a builder shows the same, and its calls succeed and fail alike, if no call of
another builder is made.  Every location of its stacks shows something. -/
theorem noninterference (exp : Float → Float) (symbols : List Symbol)
    (methods : List (MethodId × Method)) {ops : List Op} (h : ∀ op ∈ ops, op.Shares) (i : Nat) :
    let s := after exp (opening symbols methods ++ ops)
    let alone := after exp (opening symbols methods ++ purge i ops)
    alone.viewAt i = s.viewAt i ∧
      (∀ v ∈ s.viewAt i, ∀ sample ∈ v.samples, ∀ x ∈ sample.stack, x.isSome = true) ∧
      outcomes exp i {} (opening symbols methods ++ purge i ops) =
        outcomes exp i {} (opening symbols methods ++ ops) := by
  intro s alone
  have hopen := sharing_opening exp symbols methods
  have hsame : Alike i (after exp (opening symbols methods))
      (after exp (opening symbols methods)) := ⟨rfl, rfl⟩
  obtain ⟨halike, hshare, houtcomes⟩ := hsame.run hopen hopen exp h
  rw [← after_opening] at hshare
  rw [← after_opening, ← after_opening] at halike
  refine ⟨halike.view, ?_, ?_⟩
  · intro v hv sample hsample
    obtain ⟨d, hd, rfl⟩ := Option.map_eq_some_iff.1 hv
    exact (hshare.coherent.sound i d hd).isSome_of_mem_stack hsample
  · rw [outcomes_opening, outcomes_opening]
    exact houtcomes

/-- Two builders take turns; one batch has a native frame without an address, and another one has a
wrong number of counts. -/
theorem noninterference_turns :
    let plan : Plan := ⟨1, {}, {}, 0, false⟩
    let lines : LineTable := ⟨[⟨0, 40⟩, ⟨5, 41⟩], by decide⟩
    let run : Method := ⟨"Job.java", "p/q/Job", "run", some "(I)V", lines⟩
    let t : Trace := [.native 16, ⟨7, .number 1⟩, .native 18]
    let start := opening [⟨16, 8, "f"⟩] [(.number 1, run)]
    let ops : List Op := [.openPlanned plan 0 0, .openPlanned plan 0 0,
      .addBatch 0 [⟨t, 3⟩] none, .addBatch 1 [⟨t, 4⟩] none,
      .addBatch 0 [⟨[.native 20, ⟨Frame.nativeLine, .unknown⟩], 1⟩] none,
      .addBatch 1 [⟨t, 5⟩] (some []), .addArtificial 1 "idle" 2 3,
      .addBatch 0 [⟨.native 16 :: t, 2⟩, ⟨t, 1⟩] (some [4, 5])]
    let alone := after id (start ++ purge 0 ops)
    (∀ op ∈ ops, op.Shares) ∧ alone.viewAt 0 = (after id (start ++ ops)).viewAt 0 ∧
      (alone.viewAt 0).map (·.samples) =
        some [⟨[some ⟨"f", "", 0, 16⟩, some ⟨"p.q.Job.run(int)", "Job.java", 41, 0⟩,
            some ⟨"f", "", 0, 18⟩], [6, 4]⟩,
          ⟨[some ⟨"f", "", 0, 16⟩, some ⟨"p.q.Job.run(int)", "Job.java", 41, 0⟩,
            some ⟨"f", "", 0, 18⟩], [4, 2]⟩] ∧
      outcomes id 0 {} (start ++ purge 0 ops) =
        [.ok (), .error (.batch (.unresolved .noAddress)), .ok ()] := by
  intro plan lines run t start ops alone
  have h : ∀ op ∈ ops, op.Shares := by simp [ops, Op.Shares]
  obtain ⟨hview, -, houtcomes⟩ := noninterference id [⟨16, 8, "f"⟩] [(.number 1, run)] h 0
  refine ⟨h, hview, ?_, houtcomes.trans rfl⟩
  rw [hview]
  decide +kernel

end Session

end StackProfile
