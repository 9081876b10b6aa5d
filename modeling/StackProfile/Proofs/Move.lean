import StackProfile.Proofs.Growth
import StackProfile.Session

/-! # Moves of a session

One operation of a session leaves all builders alone, or works on a single one, also if it fails on
the way.  `Move` says so once for all operations, with the outcome of the work; invariants of
sessions are proved by cases on it.

Main lemmas: what a session makes of a batch (`addBatch_absent_or`, `addBatch_of_error`,
`addBatch_of_ok`), every step is a move (`move_step`), what holds in the beginning and is kept by
every step holds after every run (`after_induction`), and the log of a run grows by what its last
operation writes (`logAfter_concat`). -/

namespace StackProfile

namespace Symbolizer

/-- A symbolizer that gives the names of its table. -/
def Truthful (z : Symbolizer) : Prop := z.naming = z.symbols.resolve

/-- A symbolizer with more symbols or more names, but with the same locations. -/
structure Learns (z z' : Symbolizer) : Prop where
  locations : z'.locations = z.locations
  owner : z'.owner = z.owner
  truthful : z.Truthful → z'.Truthful

variable {z z' z'' : Symbolizer}

theorem Learns.refl (z : Symbolizer) : z.Learns z := ⟨rfl, rfl, fun h => h⟩

theorem Learns.trans (h : z.Learns z') (h' : z'.Learns z'') : z.Learns z'' :=
  ⟨h'.locations.trans h.locations, h'.owner.trans h.owner, fun hz => h'.truthful (h.truthful hz)⟩

theorem Learns.remembers {owner : Nat} {p : Profile} {P : Int → String → Prop} (h : z.Learns z')
    (hz : z.Remembers owner p P) : z'.Remembers owner p P :=
  hz.of_eq h.owner h.locations

theorem Renamed.learns (h : z.Renamed z') : z.Learns z' where
  locations := h.locations
  owner := h.owner
  truthful hz := by
    unfold Truthful at hz ⊢
    rw [h.naming, h.symbols, hz]

theorem learns_register (z : Symbolizer) (s : Symbol) : z.Learns (z.register s) where
  locations := rfl
  owner := rfl
  truthful _ := by
    funext a
    rw [naming_eq]
    rfl

theorem learns_registerAll (z : Symbolizer) (ss : List Symbol) : z.Learns (z.registerAll ss) := by
  induction ss generalizing z with
  | nil => exact .refl z
  | cons s ss ih => exact (learns_register z s).trans (ih _)

theorem learns_load (z : Symbolizer) (path : String) (content? : Option String) :
    z.Learns (z.load path content?).2 := by
  cases content? with
  | none => exact .refl z
  | some content => exact learns_registerAll z _

/-- A new symbolizer remembers nothing. -/
theorem learns_ofSymbols (ss : List Symbol) : Learns {} (ofSymbols ss) := learns_registerAll _ ss

theorem truthful_ofSymbols (ss : List Symbol) : (ofSymbols ss).Truthful := by
  apply (learns_ofSymbols ss).truthful
  funext a
  rw [naming_eq]
  rfl

end Symbolizer

/-- The builder that an operation works on. -/
def Op.builder? : Op → Option Nat
  | .locate _ i _ | .addBatch i _ _ | .addArtificial i _ _ _ | .intern i _ | .finish i _ => some i
  | _ => none

/-- The answered operation is for no builder, or it was refused before the builder did anything. -/
def Op.Spares (op : Op) (answer : Except OpError Answer) : Prop :=
  op.builder? = none ∨ answer = .error .absent ∨ ∃ e, answer = .error (.batch e)

theorem Op.spares_absent (op : Op) : op.Spares (.error .absent) := .inr (.inl rfl)

namespace Session

variable {exp : Float → Float} {s s' : Session} {i j k : Nat} {d : Desk}

/-! ### Opened and replaced objects -/

theorem getElem?_setBuilder (s : Session) (i : Nat) (b : Builder) (j : Nat) :
    (s.setBuilder i b).desks[j]? =
      if i = j then s.desks[j]?.map fun d => { d with builder := b } else s.desks[j]? := by
  unfold setBuilder
  rw [List.getElem?_modify]
  split <;> cases s.desks[j]? <;> rfl

theorem getElem?_setBuilder_self (hd : s.desks[i]? = some d) (b : Builder) :
    (s.setBuilder i b).desks[i]? = some { d with builder := b } := by
  rw [getElem?_setBuilder, if_pos rfl, hd, Option.map_some]

theorem setBuilder_self (hd : s.desks[i]? = some d) : s.setBuilder i d.builder = s := by
  have hdesks : (s.setBuilder i d.builder).desks = s.desks := by
    apply List.ext_getElem?
    intro j
    rw [getElem?_setBuilder]
    by_cases h : i = j
    · rw [if_pos h, ← h, hd, Option.map_some]
    · rw [if_neg h]
  cases s
  simpa [setBuilder] using hdesks

theorem getElem?_setBuilder_eq_some {b : Builder} {j : Nat} {e : Desk}
    (hd : s.desks[i]? = some d) (he : (s.setBuilder i b).desks[j]? = some e) :
    i = j ∧ e = { d with builder := b } ∨ i ≠ j ∧ s.desks[j]? = some e := by
  rw [getElem?_setBuilder] at he
  by_cases h : i = j
  · rw [if_pos h, ← h, hd] at he
    exact .inl ⟨h, (Option.some.inj he).symm⟩
  · rw [if_neg h] at he
    exact .inr ⟨h, he⟩

theorem getElem?_pushBuilder {plan : Plan} {k m j : Nat}
    (hd : (s.pushBuilder plan k m).desks[j]? = some d) :
    s.desks[j]? = some d ∨ j = s.desks.length ∧ d = ⟨.ofPlan j plan, k, m⟩ := by
  rcases getElem?_concat_eq_some hd with hd | ⟨rfl, rfl⟩
  · exact .inl hd
  · exact .inr ⟨rfl, rfl⟩

theorem getElem?_setSymbolizer {z : Symbolizer} (hz : s.symbolizers[i]? = some z)
    (z' : Symbolizer) (j : Nat) :
    (s.setSymbolizer i z').symbolizers[j]? = if i = j then some z' else s.symbolizers[j]? := by
  have hlt := (List.getElem?_eq_some_iff.1 hz).1
  unfold setSymbolizer
  rw [List.getElem?_set, if_pos hlt]

theorem getElem?_setSymbolizer_self {z : Symbolizer} (hz : s.symbolizers[i]? = some z)
    (z' : Symbolizer) : (s.setSymbolizer i z').symbolizers[i]? = some z' := by
  rw [getElem?_setSymbolizer hz, if_pos rfl]

theorem getElem?_setSymbolizer_of_ne (hij : i ≠ j) (s : Session) (z : Symbolizer) :
    (s.setSymbolizer i z).symbolizers[j]? = s.symbolizers[j]? :=
  List.getElem?_set_ne hij

theorem getElem?_setSymbolizer_eq_some {z z' y : Symbolizer} {j : Nat}
    (hz : s.symbolizers[i]? = some z) (hy : (s.setSymbolizer i z').symbolizers[j]? = some y) :
    i = j ∧ y = z' ∨ i ≠ j ∧ s.symbolizers[j]? = some y := by
  rw [getElem?_setSymbolizer hz] at hy
  by_cases h : i = j
  · rw [if_pos h] at hy
    exact .inl ⟨h, (Option.some.inj hy).symm⟩
  · rw [if_neg h] at hy
    exact .inr ⟨h, hy⟩

/-! ### Moves -/

/-- A change that leaves all builders alone. -/
inductive Aside (s : Session) : Session → Prop
  | refl : Aside s s
  | openSymbolizer (symbols : List Symbol) : Aside s (s.pushSymbolizer (.ofSymbols symbols))
  | openBuilder (plan : Plan) (k m : Nat) : Aside s (s.pushBuilder plan k m)
  | methods (ts : List MethodTable) : Aside s { s with methodTables := ts }
  | learn {k : Nat} {z z' : Symbolizer} (hz : s.symbolizers[k]? = some z) (h : z.Learns z') :
      Aside s (s.setSymbolizer k z')

/-- What an operation does: builders are left alone, also by operations that are refused, or the
builder of a single desk works. -/
inductive Move (exp : Float → Float) (s : Session) : Op → Except OpError Answer → Session → Prop
  | aside {op : Op} {answer : Except OpError Answer} {s' : Session}
      (hop : op.Spares answer) (h : s.Aside s') :
      Move exp s op answer s'
  | artificial {i : Nat} {d : Desk} (hd : s.desks[i]? = some d) (name : String)
      (count rate : Int) :
      Move exp s (.addArtificial i name count rate)
        (.ok (.builder (d.builder.addArtificial name count rate)))
        (s.setBuilder i (d.builder.addArtificial name count rate))
  | intern {i : Nat} {d : Desk} (hd : s.desks[i]? = some d) (label : FrameLabel) :
      Move exp s (.intern i label) (.ok (.location (d.builder.intern label).1))
        (s.setBuilder i (d.builder.intern label).2)
  | finish {i : Nat} {d : Desk} (hd : s.desks[i]? = some d) (how : Finish) :
      Move exp s (.finish i how) (finish exp how d.builder).1
        (s.setBuilder i (finish exp how d.builder).2)
  | locate {k i : Nat} {z : Symbolizer} {d : Desk} (hz : s.symbolizers[k]? = some z)
      (hd : s.desks[i]? = some d) {f : Frame} {a : Int} (ha : f.address? = some a) :
      Move exp s (.locate k i f) (.ok (.location (d.builder.locate z a).1))
        ((s.setSymbolizer k (d.builder.locate z a).2.2).setBuilder i (d.builder.locate z a).2.1)
  | mislocate {k i : Nat} {z : Symbolizer} {d : Desk} (hz : s.symbolizers[k]? = some z)
      (hd : s.desks[i]? = some d) {f : Frame} (ha : f.address? = none) :
      Move exp s (.locate k i f) (.error (.resolve .noAddress))
        ((s.setSymbolizer k (z.ownedBy d.builder.id)).setBuilder i d.builder.pushLineless)
  | batch {i : Nat} {d : Desk} {z z' : Symbolizer} {methods : MethodTable}
      (hd : s.desks[i]? = some d) (hz : s.symbolizers[d.symbolizer]? = some z)
      (ht : s.methodTables[d.methods]? = some methods) (hren : z.Renamed z')
      {batch : List Capture} {counts? : Option (List Int)}
      (hlen : (Builder.weights batch counts?).length = batch.length)
      (hknown : ∀ c ∈ batch, ∀ f ∈ c.trace, f.KnownTo z') {r : Builder × Symbolizer}
      (hr : r = Builder.addCaptures methods (d.builder, z')
        (batch.zip (Builder.weights batch counts?))) :
      Move exp s (.addBatch i batch counts?) (.ok (.builder r.1))
        ((s.setSymbolizer d.symbolizer r.2).setBuilder i r.1)

theorem aside_onSymbolizer (s : Session) (k : Nat)
    {f : Symbolizer → Except OpError Answer × Symbolizer}
    (hf : ∀ z : Symbolizer, z.Learns (f z).2) : s.Aside (s.onSymbolizer k f).2 := by
  unfold onSymbolizer
  cases hz : s.symbolizers[k]? with
  | none => exact .refl
  | some z => exact .learn hz (hf z)

theorem aside_look (s : Session) (i : Nat) (f : Builder → Except OpError Answer) :
    s.Aside (s.onBuilder i fun b => (f b, b)).2 := by
  unfold onBuilder
  cases hd : s.desks[i]? with
  | none => exact .refl
  | some d =>
      simp only [setBuilder_self hd]
      exact .refl

theorem snd_load (path : String) (content? : Option String) (z : Symbolizer) :
    (load path content? z).2 = (z.load path content?).2 := by
  unfold load
  cases z.load path content? with
  | mk outcome z' => cases outcome <;> rfl

theorem snd_resolveBatch (batch : List Capture) (z : Symbolizer) :
    (resolveBatch batch z).2 = (z.resolveBatch batch).2 := by
  unfold resolveBatch
  cases z.resolveBatch batch with
  | mk outcome z' => cases outcome <;> rfl

theorem learns_load (path : String) (content? : Option String) (z : Symbolizer) :
    z.Learns (load path content? z).2 := by
  rw [snd_load]
  exact z.learns_load path content?

theorem learns_resolveBatch (batch : List Capture) (z : Symbolizer) :
    z.Learns (resolveBatch batch z).2 := by
  rw [snd_resolveBatch]
  exact (z.renamed_resolveBatch batch).learns

/-- Finishing a profile is finishing it with or without unsampling. -/
theorem finish_eq (exp : Float → Float) (how : Finish) (b : Builder) :
    ∃ unsampled, (finish exp how b).2 = (b.finish exp unsampled).2 := by
  cases how with
  | sampled => exact ⟨false, rfl⟩
  | unsampled =>
      refine ⟨true, ?_⟩
      simp only [finish]
      split <;> simp_all
  | planned =>
      refine ⟨b.plan.unsample, ?_⟩
      simp only [finish, Builder.finishDefault]
      split <;> simp_all

/-- A batch finds its builder, the symbolizer and the methods, or nothing happens. -/
theorem addBatch_absent_or (s : Session) (i : Nat) (batch : List Capture)
    (counts? : Option (List Int)) :
    s.addBatch i batch counts? = (.error .absent, s) ∨
      ∃ d z methods, s.desks[i]? = some d ∧ s.symbolizers[d.symbolizer]? = some z ∧
        s.methodTables[d.methods]? = some methods := by
  cases hd : s.desks[i]? with
  | none => exact .inl (by simp only [addBatch, hd])
  | some d =>
      cases hz : s.symbolizers[d.symbolizer]? with
      | none => exact .inl (by simp only [addBatch, hd, hz])
      | some z =>
          cases ht : s.methodTables[d.methods]? with
          | none => exact .inl (by simp only [addBatch, hd, hz, ht])
          | some methods => exact .inr ⟨d, z, methods, rfl, hz, ht⟩

section batch

variable {z : Symbolizer} {methods : MethodTable} {batch : List Capture}
  {counts? : Option (List Int)}

/-- A batch is the work of its builder and its symbolizer. -/
theorem snd_addBatch (hd : s.desks[i]? = some d) (hz : s.symbolizers[d.symbolizer]? = some z)
    (ht : s.methodTables[d.methods]? = some methods) (batch : List Capture)
    (counts? : Option (List Int)) :
    let r := d.builder.addBatch z methods batch counts?
    (s.addBatch i batch counts?).2 = (s.setSymbolizer d.symbolizer r.2.2).setBuilder i r.2.1 := by
  simp only [addBatch, hd, hz, ht]

/-- A refused batch changes the symbolizer at most. -/
theorem addBatch_of_error (hd : s.desks[i]? = some d)
    (hz : s.symbolizers[d.symbolizer]? = some z) (ht : s.methodTables[d.methods]? = some methods)
    {e : BatchError} {z' : Symbolizer}
    (h : d.builder.addBatch z methods batch counts? = (.error e, d.builder, z')) :
    s.addBatch i batch counts? = (.error (.batch e), s.setSymbolizer d.symbolizer z') := by
  have hd' : (s.setSymbolizer d.symbolizer z').desks[i]? = some d := hd
  simp only [addBatch, hd, hz, ht, h, setBuilder_self hd']

theorem addBatch_of_ok (hd : s.desks[i]? = some d) (hz : s.symbolizers[d.symbolizer]? = some z)
    (ht : s.methodTables[d.methods]? = some methods) {r : Builder × Symbolizer}
    (h : d.builder.addBatch z methods batch counts? = (.ok (), r)) :
    s.addBatch i batch counts? =
      (.ok (.builder r.1), (s.setSymbolizer d.symbolizer r.2).setBuilder i r.1) := by
  simp only [addBatch, hd, hz, ht, h]

end batch

theorem move_addBatch (exp : Float → Float) (s : Session) (i : Nat) (batch : List Capture)
    (counts? : Option (List Int)) :
    s.Move exp (.addBatch i batch counts?) (s.addBatch i batch counts?).1
      (s.addBatch i batch counts?).2 := by
  rcases s.addBatch_absent_or i batch counts? with habsent | ⟨d, z, methods, hd, hz, ht⟩
  · rw [habsent]
    exact .aside (Op.spares_absent _) .refl
  · rcases d.builder.addBatch_cases z methods batch counts? with
      ⟨e, z', he, hren⟩ | ⟨z', hren, hknown, hlen, he⟩
    · rw [addBatch_of_error hd hz ht he]
      exact .aside (.inr (.inr ⟨e, rfl⟩)) (.learn hz hren.learns)
    · rw [addBatch_of_ok hd hz ht he]
      exact .batch hd hz ht hren hlen hknown rfl

theorem move_locate (exp : Float → Float) (s : Session) (k i : Nat) (f : Frame) :
    s.Move exp (.locate k i f) (s.locate k i f).1 (s.locate k i f).2 := by
  unfold locate
  cases hz : s.symbolizers[k]? with
  | none => exact .aside (Op.spares_absent _) .refl
  | some z =>
      cases hd : s.desks[i]? with
      | none => exact .aside (Op.spares_absent _) .refl
      | some d =>
          cases ha : f.address? with
          | some a =>
              simp only [Builder.locateFrame_of_address ha]
              exact .locate hz hd ha
          | none =>
              simp only [Builder.locateFrame_of_no_address ha]
              exact .mislocate hz hd ha

/-- Every step is a move. -/
theorem move_step (exp : Float → Float) (s : Session) (op : Op) :
    s.Move exp op (s.step exp op).1 (s.step exp op).2 := by
  cases op with
  | openSymbolizer symbols => exact .aside (.inl rfl) (.openSymbolizer symbols)
  | register k symbol =>
      exact .aside (.inl rfl) (s.aside_onSymbolizer k fun z => z.learns_register symbol)
  | load k path content? =>
      exact .aside (.inl rfl) (s.aside_onSymbolizer k (learns_load path content?))
  | nameAll k addresses =>
      exact .aside (.inl rfl)
        (s.aside_onSymbolizer k fun z => (z.renamed_nameAll addresses).learns)
  | resolveBatch k batch =>
      exact .aside (.inl rfl) (s.aside_onSymbolizer k (learns_resolveBatch batch))
  | knownNames k => exact .aside (.inl rfl) (s.aside_onSymbolizer k .refl)
  | locate k i f => exact move_locate exp s k i f
  | openMethods methods => exact .aside (.inl rfl) (.methods _)
  | addMethod m id method =>
      refine .aside (.inl rfl) ?_
      simp only [step]
      cases s.methodTables[m]? with
      | none => exact .refl
      | some t => exact .methods _
  | resolve m frame =>
      refine .aside (.inl rfl) ?_
      simp only [step]
      cases s.methodTables[m]? <;> exact .refl
  | openConfigured kind rate skip? unsample? k m =>
      refine .aside (.inl rfl) ?_
      simp only [step]
      cases Settings.make kind rate skip? unsample? with
      | error e => exact .refl
      | ok settings => exact .openBuilder settings.plan k m
  | openPlanned plan k m => exact .aside (.inl rfl) (.openBuilder plan k m)
  | addBatch i batch counts? => exact move_addBatch exp s i batch counts?
  | addArtificial i name count rate =>
      simp only [step, onBuilder]
      cases hd : s.desks[i]? with
      | none => exact .aside (Op.spares_absent _) .refl
      | some d => exact .artificial hd name count rate
  | intern i label =>
      simp only [step, onBuilder]
      cases hd : s.desks[i]? with
      | none => exact .aside (Op.spares_absent _) .refl
      | some d => exact .intern hd label
  | look i => exact .aside (.inl rfl) (s.aside_look i _)
  | stackNames i => exact .aside (.inl rfl) (s.aside_look i _)
  | finish i how =>
      simp only [step, onBuilder]
      cases hd : s.desks[i]? with
      | none => exact .aside (Op.spares_absent _) .refl
      | some d => exact .finish hd how

/-! ### Desks -/

theorem desk_aside (ha : s.Aside s') (hd : s.desks[i]? = some d) : s'.desks[i]? = some d := by
  cases ha with
  | openBuilder plan k m =>
      have hlt := (List.getElem?_eq_some_iff.1 hd).1
      simp only [pushBuilder]
      rw [List.getElem?_append_left hlt, hd]
  | _ => exact hd

/-- A desk that was not there is new. -/
theorem opened_move {op : Op} {answer : Except OpError Answer} (hm : s.Move exp op answer s')
    {j : Nat} {e : Desk} (hj : s.desks[j]? = none) (he : s'.desks[j]? = some e) :
    ∃ plan k m, e = ⟨.ofPlan j plan, k, m⟩ := by
  have hset : ∀ (t : Session) i b, t.desks[j]? = none → (t.setBuilder i b).desks[j]? = none := by
    intro t i b ht
    rw [getElem?_setBuilder, ht]
    split <;> rfl
  cases hm with
  | aside _ ha =>
      cases ha with
      | openBuilder plan k m =>
          rcases getElem?_pushBuilder he with he | ⟨-, he⟩
          · simp [hj] at he
          · exact ⟨plan, k, m, he⟩
      | _ => exact absurd (hj.symm.trans he) (by simp)
  | locate | mislocate =>
      exact absurd ((hset (s.setSymbolizer _ _) _ _ hj).symm.trans he) (by simp)
  | batch => exact absurd ((hset (s.setSymbolizer _ _) _ _ hj).symm.trans he) (by simp)
  | _ => exact absurd ((hset s _ _ hj).symm.trans he) (by simp)

/-! ### Runs -/

/-- The session after a run from the beginning. -/
def after (exp : Float → Float) (ops : List Op) : Session := (run exp {} ops).2

theorem after_concat (exp : Float → Float) (ops : List Op) (op : Op) :
    after exp (ops ++ [op]) = ((after exp ops).step exp op).2 := by
  unfold after
  rw [run_append]
  rfl

/-- What holds in the beginning and is kept by every step holds after every run. -/
theorem after_induction {M : List Op → Session → Prop} (nil : M [] {})
    (concat : ∀ ops op, M ops (after exp ops) →
      M (ops ++ [op]) ((after exp ops).step exp op).2) (ops : List Op) :
    M ops (after exp ops) := by
  rw [← ops.reverse_reverse]
  induction ops.reverse with
  | nil => exact nil
  | cons op ops ih =>
      rw [List.reverse_cons, after_concat]
      exact concat _ op ih

/-! ### Logs -/

/-- What operations write into a log, if `f` tells it of one answered operation. -/
def logFrom {α : Type} (exp : Float → Float)
    (f : Session → Op × Except OpError Answer → List α) (s : Session) : List Op → List α
  | [] => []
  | op :: ops => f s (op, (s.step exp op).1) ++ logFrom exp f (s.step exp op).2 ops

/-- The log of a run from the beginning. -/
def logAfter {α : Type} (exp : Float → Float) (f : Session → Op × Except OpError Answer → List α)
    (ops : List Op) : List α :=
  logFrom exp f {} ops

theorem logAfter_concat {α : Type} (exp : Float → Float)
    (f : Session → Op × Except OpError Answer → List α) (ops : List Op) (op : Op) :
    logAfter exp f (ops ++ [op]) =
      logAfter exp f ops ++ f (after exp ops) (op, ((after exp ops).step exp op).1) := by
  have hfrom : ∀ s : Session, logFrom exp f s (ops ++ [op]) =
      logFrom exp f s ops ++ f (s.run exp ops).2 (op, ((s.run exp ops).2.step exp op).1) := by
    induction ops with
    | nil =>
        intro s
        exact List.append_nil _
    | cons op' ops ih =>
        intro s
        rw [List.cons_append, logFrom, logFrom, ih, List.append_assoc]
        rfl
  exact hfrom {}

end Session

end StackProfile
