import Mathlib.Data.List.Induction
import StackProfile.Proofs.Services
import StackProfile.Proofs.Stacks

/-! # Interned locations

A builder interns labels for managed frames, for artificial traces, and for whoever asks it to; its
symbolizers locate addresses in the same table, and several builders may share them.  Over all that
a session does, two labels of a builder get the same location exactly if they are equal, and no
address gets a location of a label.

Main lemmas: a move serves its builder and nobody else (`Recorded.move`), and what the log of a
builder says about its profile (`interned_after`). -/

namespace StackProfile

theorem Builder.records_ofPlan (id : Nat) (plan : Plan) : (ofPlan id plan).table.Records [] := by
  refine ⟨⟨rfl, rfl, List.nodup_nil⟩, ?_, ?_, ?_, ?_, ?_⟩ <;> simp [ofPlan]

namespace Session

/-- What an answered operation was served for the builder it works on.  The answer of an operation
that adds samples is the builder with them. -/
def servicesOf (s : Session) : Op × Except OpError Answer → List Service
  | (.intern _ k, .ok (.location l)) => [(.managed k, l.id)]
  | (.locate _ _ f, .ok (.location l)) => (f.address?.map fun a => (.native a, l.id)).toList
  | (.addArtificial i name _ _, .ok (.builder b)) =>
    match s.desks[i]? with
    | none => []
    | some d => d.builder.served b [[.managed ⟨name, name, "", -1⟩]]
  | (.addBatch i batch _, .ok (.builder b)) =>
    match s.desks[i]? with
    | none => []
    | some d =>
      match s.symbolizers[d.symbolizer]?, s.methodTables[d.methods]? with
      | some z, some methods =>
        d.builder.served b (d.builder.requests z.symbols.resolve methods batch)
      | _, _ => []
  | _ => []

/-- What an answered operation was served for the builder `i`. -/
def services (s : Session) (i : Nat) (x : Op × Except OpError Answer) : List Service :=
  if x.1.builder? = some i then s.servicesOf x else []

/-- What the builder `i` was served during a run. -/
def serviceLog (exp : Float → Float) (i : Nat) (ops : List Op) : List Service :=
  logAfter exp (fun s => s.services i) ops

/-- The tables of the builder `i` and what symbolizers hold for it agree with the log. -/
structure Recorded (i : Nat) (r : List Service) (s : Session) : Prop where
  unopened : s.desks[i]? = none → r = []
  records : ∀ d : Desk, s.desks[i]? = some d → d.builder.table.Records r
  holds : ∀ (k : Nat) (z : Symbolizer), s.symbolizers[k]? = some z → z.Holds i r

variable {exp : Float → Float} {s s' : Session} {i j k : Nat} {d : Desk} {z z' : Symbolizer}
  {r new : List Service} {op : Op} {answer : Except OpError Answer}

theorem recorded_nil (i : Nat) : Recorded i [] {} := by
  constructor <;> simp

theorem services_of_error (s : Session) (i : Nat) (op : Op) (e : OpError) :
    s.services i (op, .error e) = [] := by
  rw [services]
  split
  · cases op <;> rfl
  · rfl

theorem services_of_spares (h : op.Spares answer) (s : Session) (i : Nat) :
    s.services i (op, answer) = [] := by
  obtain h | rfl | ⟨e, rfl⟩ := h
  · exact if_neg (by simp [h])
  · exact s.services_of_error i op _
  · exact s.services_of_error i op _

theorem services_of_eq (h : op.builder? = some i) (s : Session)
    (answer : Except OpError Answer) : s.services i (op, answer) = s.servicesOf (op, answer) :=
  if_pos h

theorem services_of_ne (h : op.builder? = some j) (hne : j ≠ i) (s : Session)
    (answer : Except OpError Answer) : s.services i (op, answer) = [] := by
  rw [services, if_neg]
  rw [h]
  exact fun he => hne (Option.some.inj he)

/-! ### Moves -/

theorem Recorded.openSymbolizer (h : Recorded i r s) (symbols : List Symbol) :
    Recorded i r (s.pushSymbolizer (.ofSymbols symbols)) := by
  refine ⟨h.unopened, h.records, ?_⟩
  intro k z hz
  rcases getElem?_concat_eq_some hz with hz | ⟨-, rfl⟩
  · exact h.holds k z hz
  · exact (Symbolizer.holds_of_owner_ne (by simp)).learns (Symbolizer.learns_ofSymbols symbols)

theorem Recorded.openBuilder (h : Recorded i r s) (plan : Plan) (k m : Nat) :
    Recorded i r (s.pushBuilder plan k m) := by
  refine ⟨?_, ?_, h.holds⟩
  · intro hnone
    apply h.unopened
    simp only [pushBuilder, List.getElem?_eq_none_iff, List.length_append,
      List.length_singleton] at hnone ⊢
    omega
  · intro d hd
    rcases getElem?_pushBuilder hd with hd | ⟨rfl, rfl⟩
    · exact h.records d hd
    · rw [h.unopened (List.getElem?_eq_none (Nat.le_refl _))]
      exact Builder.records_ofPlan _ plan

theorem Recorded.holds_setSymbolizer (h : Recorded i r s) (hz : s.symbolizers[k]? = some z)
    (hz' : z'.Holds i (r ++ new)) (y : Symbolizer)
    (hy : (s.setSymbolizer k z').symbolizers[j]? = some y) : y.Holds i (r ++ new) := by
  rcases getElem?_setSymbolizer_eq_some hz hy with ⟨rfl, rfl⟩ | ⟨-, hy⟩
  · exact hz'
  · exact (h.holds j y hy).append new

theorem Recorded.aside (h : Recorded i r s) (ha : s.Aside s') : Recorded i r s' := by
  cases ha with
  | refl => exact h
  | methods ts => exact ⟨h.unopened, h.records, h.holds⟩
  | openSymbolizer symbols => exact h.openSymbolizer symbols
  | openBuilder plan k m => exact h.openBuilder plan k m
  | learn hz hl =>
      refine ⟨h.unopened, h.records, ?_⟩
      intro j y hy
      have hy' := h.holds_setSymbolizer hz (((h.holds _ _ hz).learns hl).append []) y hy
      rwa [List.append_nil] at hy'

/-- The builder `j` has worked and was served `new`, if it is the builder `i`. -/
theorem Recorded.work (h : Recorded i r s) (hd : s.desks[j]? = some d) {b : Builder}
    (hdesks : s'.desks = (s.setBuilder j b).desks)
    (hself : j = i → d.builder.table.Records r → b.table.Records (r ++ new))
    (hother : j ≠ i → new = [])
    (hholds : ∀ (k : Nat) (z : Symbolizer), s'.symbolizers[k]? = some z → z.Holds i (r ++ new)) :
    Recorded i (r ++ new) s' := by
  refine ⟨?_, ?_, hholds⟩
  · intro hnone
    rw [hdesks, getElem?_setBuilder] at hnone
    by_cases hj : j = i
    · subst hj
      simp [hd] at hnone
    · rw [if_neg hj] at hnone
      rw [h.unopened hnone, hother hj]
      rfl
  · intro e he
    rw [hdesks] at he
    rcases getElem?_setBuilder_eq_some hd he with ⟨hj, rfl⟩ | ⟨hj, he⟩
    · subst hj
      exact hself rfl (h.records d hd)
    · rw [hother hj, List.append_nil]
      exact h.records e he

/-- The builder `i` asks a symbolizer for the location of an address. -/
theorem Recorded.locate (h : Recorded i r s) (hid : d.builder.id = i)
    (hz : s.symbolizers[k]? = some z) (hd : s.desks[i]? = some d) (a : Int) :
    let x := d.builder.locate z a
    Recorded i (r ++ [(.native a, x.1.id)]) ((s.setSymbolizer k x.2.2).setBuilder i x.2.1) := by
  subst hid
  obtain ⟨hrecords, hholds⟩ := Request.records_serve (h.records d hd) (h.holds k z hz) (.native a)
  exact h.work hd rfl (fun _ _ => hrecords) (fun hne => absurd rfl hne)
    fun j y hy => h.holds_setSymbolizer hz hholds y hy

/-- A builder asks a symbolizer for the location of a frame without address. -/
theorem Recorded.mislocate (h : Recorded i r s) (hz : s.symbolizers[k]? = some z)
    (hd : s.desks[j]? = some d) :
    Recorded i r
      ((s.setSymbolizer k (z.ownedBy d.builder.id)).setBuilder j d.builder.pushLineless) := by
  have hwork : Recorded i (r ++ []) ((s.setSymbolizer k (z.ownedBy d.builder.id)).setBuilder j
      d.builder.pushLineless) := by
    refine h.work hd rfl (fun _ hr => ?_) (fun _ => rfl) fun l y hy => ?_
    · rw [List.append_nil]
      exact hr.pushLineless
    · exact h.holds_setSymbolizer hz (((h.holds k z hz).ofOwner _).append []) y hy
  rwa [List.append_nil] at hwork

/-- The builder `i` adds a batch whose native frames were named. -/
theorem Recorded.batch (h : Recorded i r s) (hid : d.builder.id = i)
    (hd : s.desks[i]? = some d) (hz : s.symbolizers[k]? = some z) (hren : z.Renamed z')
    (methods : MethodTable) {cs : List (Capture × Int)}
    (hcs : ∀ c ∈ cs, ∀ f ∈ c.1.trace, f.KnownTo z') :
    let x := Builder.addCaptures methods (d.builder, z') cs
    Recorded i (r ++ d.builder.served x.1 (d.builder.requests z'.naming methods (cs.map (·.1))))
      ((s.setSymbolizer k x.2).setBuilder i x.1) := by
  subst hid
  obtain ⟨idss, hstacked⟩ := Builder.stacked_addCaptures (h.records d hd)
    ((h.holds k z hz).learns hren.learns) methods hcs
  intro x
  rw [Builder.served_of_stackIds hstacked.ids]
  exact h.work hd rfl (fun _ _ => hstacked.records) (fun hne => absurd rfl hne)
    fun j y hy => h.holds_setSymbolizer hz hstacked.holds y hy

/-- Another builder works with a symbolizer that then holds nothing more for the builder `i`. -/
theorem Recorded.workOther (h : Recorded i r s) (hd : s.desks[j]? = some d) (hne : j ≠ i)
    (hz : s.symbolizers[k]? = some z) {x : Builder × Symbolizer} (hx : x.2.Holds i r) :
    Recorded i r ((s.setSymbolizer k x.2).setBuilder j x.1) := by
  have hwork : Recorded i (r ++ []) ((s.setSymbolizer k x.2).setBuilder j x.1) :=
    h.work hd rfl (fun he => absurd he hne) (fun _ => rfl)
      fun l y hy => h.holds_setSymbolizer hz (hx.append []) y hy
  rwa [List.append_nil] at hwork

/-- A move serves the builder that it works with. -/
theorem Recorded.move {P : Nat → Nat → Int → String → Prop} (h : Recorded i r s)
    (hc : Coherent P s) (hm : s.Move exp op answer s') :
    Recorded i (r ++ s.services i (op, answer)) s' := by
  cases hm with
  | aside hop ha =>
      rw [services_of_spares hop, List.append_nil]
      exact h.aside ha
  | @artificial j d hd name count rate =>
      refine h.work hd rfl ?_ (fun hj => services_of_ne rfl hj s _)
        fun k z hz => (h.holds k z hz).append _
      rintro rfl hr
      rw [services_of_eq rfl, servicesOf, hd]
      exact Builder.records_addArtificial hr name count rate
  | @intern j d hd label =>
      refine h.work hd rfl ?_ (fun hj => services_of_ne rfl hj s _)
        fun k z hz => (h.holds k z hz).append _
      rintro rfl hr
      rw [services_of_eq rfl]
      exact hr.intern label
  | @finish j d hd how =>
      have hnone : s.services i (.finish j how, (finish exp how d.builder).1) = [] := by
        rw [services]
        split <;> rfl
      rw [hnone]
      refine h.work hd rfl (fun _ hr => ?_) (fun _ => rfl) fun k z hz => (h.holds k z hz).append _
      obtain ⟨unsampled, he⟩ := finish_eq exp how d.builder
      obtain ⟨ss, hss, -, -⟩ := d.builder.finish_eq_setSamples exp unsampled
      rw [he, hss, List.append_nil]
      exact hr.withProfile rfl rfl
  | @locate k j z d hz hd f a ha =>
      by_cases hj : j = i
      · subst hj
        rw [services_of_eq rfl, servicesOf, ha]
        exact h.locate (hc.builderId j d hd) hz hd a
      · rw [services_of_ne rfl hj, List.append_nil]
        refine h.workOther hd hj hz ?_
        have howner : (d.builder.locate z a).2.2.owner = some j := by
          rw [← hc.builderId j d hd]
          exact z.owner_locate d.builder.id d.builder.profile a
        apply Symbolizer.holds_of_owner_ne
        rw [howner]
        exact fun ho => hj (Option.some.inj ho)
  | mislocate hz hd =>
      rw [services_of_error, List.append_nil]
      exact h.mislocate hz hd
  | @batch j d z z' methods hd hz ht hren batch counts? hlen hknown x hx =>
      subst hx
      have hcs : ∀ c ∈ batch.zip (Builder.weights batch counts?), ∀ f ∈ c.1.trace, f.KnownTo z' :=
        fun c hc => hknown c.1 (List.of_mem_zip hc).1
      by_cases hj : j = i
      · subst hj
        have hstep := h.batch (hc.builderId j d hd) hd hz hren methods hcs
        rw [hren.naming.trans (hc.truthful d.symbolizer z hz),
          List.map_fst_zip (Nat.le_of_eq hlen.symm)] at hstep
        rw [services_of_eq rfl, servicesOf, hd]
        simp only [hz, ht]
        exact hstep
      · rw [services_of_ne rfl hj, List.append_nil]
        refine h.workOther hd hj hz ?_
        refine Builder.holds_addCaptures_of_ne ((h.holds _ z hz).learns hren.learns) ?_ methods hcs
        rw [hc.builderId j d hd]
        exact Ne.symm hj

/-- After every run the tables of a builder agree with its log. -/
theorem recorded_after (exp : Float → Float) (i : Nat) (ops : List Op) :
    Recorded i (serviceLog exp i ops) (after exp ops) := by
  refine after_induction (M := fun ops s => Recorded i (serviceLog exp i ops) s) ?_ ?_ ops
  · exact recorded_nil i
  · intro ops op h
    rw [serviceLog, logAfter_concat]
    exact h.move (coherent_after_any exp ops) (move_step exp _ op)

/-! ### Runs -/

/-- What an operation was served stays in the log. -/
theorem mem_serviceLog {x : Service} (exp : Float → Float) {pre : List Op} (op : Op)
    (hx : x ∈ (after exp pre).services i (op, ((after exp pre).step exp op).1)) (post : List Op) :
    x ∈ serviceLog exp i (pre ++ op :: post) := by
  rw [List.append_cons]
  induction post using List.reverseRecOn with
  | nil =>
      rw [List.append_nil, serviceLog, logAfter_concat]
      exact List.mem_append_right _ hx
  | append_singleton post op' ih =>
      rw [← List.append_assoc, serviceLog, logAfter_concat]
      exact List.mem_append_left _ ih

/-- Interning a label answers the location that the profile has from then on. -/
theorem intern_after (exp : Float → Float) {pre post : List Op} {k : FrameLabel} {e : Desk}
    (he : (after exp pre).desks[i]? = some e)
    (hd : (after exp (pre ++ .intern i k :: post)).desks[i]? = some d) :
    let l := (e.builder.intern k).1
    ((after exp pre).step exp (.intern i k)).1 = .ok (.location l) ∧
      (.managed k, l.id) ∈ serviceLog exp i (pre ++ .intern i k :: post) ∧
      d.builder.profile.location? l.id = some l := by
  intro l
  have hstep : (after exp pre).step exp (.intern i k) =
      (.ok (.location l), (after exp pre).setBuilder i (e.builder.intern k).2) := by
    simp only [step, onBuilder, he]
    rfl
  refine ⟨by rw [hstep], mem_serviceLog exp _ ?_ post, ?_⟩
  · rw [hstep, services_of_eq rfl]
    exact List.mem_singleton_self _
  · -- The table has the location right after the call, and only grows.
    have he' : (after exp (pre ++ [.intern i k])).desks[i]? =
        some { e with builder := (e.builder.intern k).2 } := by
      rw [after_concat, hstep]
      exact getElem?_setBuilder_self he _
    have hsound := ((coherent_after_any exp _).sound i _ he').table
    have hmem := (hsound.interned k l (e.builder.table.get?_intern k)).1
    obtain ⟨d', hd', hgrows⟩ := grows_after exp _ post he'
    rw [← List.append_cons] at hd'
    obtain rfl := Option.some.inj (hd'.symm.trans hd)
    exact entryAt?_of_prefix hgrows.builder.profile.locations (hsound.dense.location? hmem)

/-- Whatever a session does, a builder has one location for each label that it was asked for, at
address zero and with the line of the label in its function; functions are shared by the labels that
agree in function and file; and no address has the location of a label.  The log of what the builder
was served has all locations of its profile but those that failing look-ups left, which are not the
locations of labels either, and all labels and addresses that it was asked for, with the locations
that were answered. -/
theorem interned_after (exp : Float → Float) {ops : List Op}
    (hd : (after exp ops).desks[i]? = some d) :
    let r := serviceLog exp i ops
    let p := d.builder.profile
    (∀ k id, (.managed k, id) ∈ r → ∀ k' id', (.managed k', id') ∈ r →
      ∃ f f', p.MadeFor k id f ∧ p.MadeFor k' id' f' ∧ (id = id' ↔ k = k') ∧
        (f.id = f'.id ↔ k.functionName = k'.functionName ∧ k.fileName = k'.fileName)) ∧
    (∀ k id a id', (.managed k, id) ∈ r → (.native a, id') ∈ r → id ≠ id') ∧
    (∀ l ∈ p.locations, (∃ q, (q, l.id) ∈ r) ∨
      l.lines = [] ∧ l.address = 0 ∧ ∀ k, (.managed k, l.id) ∉ r) ∧
    (∀ pre post k, ops = pre ++ .intern i k :: post →
      ((after exp pre).desks[i]?).isSome = true →
      ∃ l, ((after exp pre).step exp (.intern i k)).1 = .ok (.location l) ∧
        (.managed k, l.id) ∈ r ∧ p.location? l.id = some l) ∧
    ∀ pre post j f a l, ops = pre ++ .locate j i f :: post → f.address? = some a →
      ((after exp pre).step exp (.locate j i f)).1 = .ok (.location l) → (.native a, l.id) ∈ r := by
  intro r p
  have h := (recorded_after exp i ops).records d hd
  refine ⟨?_, ?_, ?_, ?_, ?_⟩
  · intro k id hk k' id' hk'
    obtain ⟨l, hl, rfl⟩ := h.managed k id hk
    obtain ⟨l', hl', rfl⟩ := h.managed k' id' hk'
    obtain ⟨f, hf⟩ := h.made k l hl
    obtain ⟨f', hf'⟩ := h.made k' l' hl'
    refine ⟨f, f', hf, hf', ⟨h.distinct k l hl k' l' hl', ?_⟩, hf.functionId_eq_iff hf' h.tabled⟩
    rintro rfl
    rw [Option.some.inj (hl.symm.trans hl')]
  · intro k id a id' hk ha
    obtain ⟨l, hl, rfl⟩ := h.managed k id hk
    exact (h.native a id' ha).2 k l hl
  · intro l hl
    have hdense := ((coherent_after_any exp ops).sound i d hd).table.dense
    rcases hdense.lines l hl with ⟨line, hline⟩ | ⟨hnone, haddress⟩
    · exact .inl (h.complete l hl (by simp [hline]))
    · refine .inr ⟨hnone, haddress, ?_⟩
      intro k hk
      obtain ⟨m, hm, hid⟩ := h.managed k l.id hk
      obtain ⟨f, hf⟩ := h.made k m hm
      have hmade := hf.location
      rw [hid, hdense.location? hl] at hmade
      have hlines := congrArg Location.lines (Option.some.inj hmade)
      rw [hnone] at hlines
      nomatch hlines
  · rintro pre post k rfl hsome
    obtain ⟨e, he⟩ := Option.isSome_iff_exists.1 hsome
    exact ⟨_, intern_after exp he hd⟩
  · rintro pre post j f a l rfl ha hanswer
    apply mem_serviceLog
    rw [hanswer, services_of_eq rfl, servicesOf, ha]
    exact List.mem_singleton_self _

/-- A label, a second one in the same function, a managed frame and an artificial trace, among
locations of the address zero, which has two since another builder used the symbolizer, and one that
a failing look-up left. -/
theorem interned_after_turns :
    let plan : Plan := ⟨1, {}, {}, 0, false⟩
    let method : Method := ⟨"", "p/C", "f", none, ⟨[⟨0, 40⟩, ⟨5, 41⟩], by decide⟩⟩
    let batch : List Capture := [⟨[.native 0, ⟨7, .number 1⟩], 3⟩]
    let k : FrameLabel := ⟨"C", "f", "", 1⟩
    let k' : FrameLabel := ⟨"D", "f", "", 1⟩
    let ops : List Op := [.openSymbolizer [⟨16, 8, "f"⟩], .openMethods [(.number 1, method)],
      .openPlanned plan 0 0, .openPlanned plan 0 0, .addBatch 0 batch none, .intern 0 k,
      .addBatch 1 batch none, .locate 0 0 ⟨Frame.nativeLine, .unknown⟩, .locate 0 0 (.native 0),
      .intern 0 k', .addArtificial 0 "f" 2 5, .intern 0 k]
    ∃ d : Desk, (after id ops).desks[0]? = some d ∧
      (serviceLog id 0 ops).map Prod.snd = [1, 2, 3, 5, 6, 7, 3] ∧
      ∃ f f', d.builder.profile.MadeFor k 3 f ∧ d.builder.profile.MadeFor k' 6 f' ∧
        f.id = f'.id := by
  intro plan method batch k k' ops
  have hids : (serviceLog id 0 ops).map Prod.snd = [1, 2, 3, 5, 6, 7, 3] := by decide +kernel
  have hk : (.managed k, 3) ∈ serviceLog id 0 ops := by decide +kernel
  have hk' : (.managed k', 6) ∈ serviceLog id 0 ops := by decide +kernel
  have hsome : ((after id ops).desks[0]?).isSome = true := by decide +kernel
  obtain ⟨d, hd⟩ := Option.isSome_iff_exists.1 hsome
  obtain ⟨hlabels, -⟩ := interned_after id hd
  obtain ⟨f, f', hf, hf', -, hfunction⟩ := hlabels k 3 hk k' 6 hk'
  exact ⟨d, hd, hids, f, f', hf, hf', hfunction.2 ⟨rfl, rfl⟩⟩

end Session

end StackProfile
