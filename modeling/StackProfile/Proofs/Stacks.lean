import StackProfile.Proofs.Coherence
import StackProfile.Proofs.Ledger

/-! # The stacks of samples

The sample of a trace shows its kept frames, as the symbol table named them and the method table
described them when the trace was seen first.  It goes on to show them, whatever the session does.

Main lemmas: a stack that is shown stays (`ShowsStack.grow`), a batch shows the stacks of its new
traces (`showsStack_addCaptures`, `Coherent.showsStack_step`), and so does every later session
(`stack_after`). -/

namespace StackProfile

namespace Builder

/-- The sample of a key has a stack whose locations show the views, the innermost one first. -/
def ShowsStack (b : Builder) (k : TraceKey) (vs : List LocationView) : Prop :=
  ∃ j ids, b.index.get? k = some j ∧ (b.samples.map (·.locationIds))[j]? = some ids ∧
    ids.map b.profile.view? = vs.map some

variable {b b' : Builder} {z : Symbolizer} {P : Int → String → Prop} {name : Int → String}

theorem ShowsStack.grow {k : TraceKey} {vs : List LocationView} (h : b.ShowsStack k vs)
    (hg : b.Grows b') : b'.ShowsStack k vs := by
  obtain ⟨j, ids, hj, hids, hvs⟩ := h
  refine ⟨j, ids, hg.index k j hj, ?_, hg.profile.map_view? hvs⟩
  obtain ⟨rest, hrest⟩ := hg.profile.samples
  have hlt := (List.getElem?_eq_some_iff.1 hids).1
  show (b'.profile.samples.map (·.locationIds))[j]? = some ids
  rw [← hrest]
  exact (List.getElem?_append_left hlt).trans hids

/-- A capture that was not seen before shows its kept frames. -/
theorem showsStack_addCapture (hb : b.Sound) (hz : z.Remembers b.id b.profile P)
    (hn : ∀ a, P a (z.naming a)) (hP : ∀ a n, P a n → n = name a) (methods : MethodTable)
    {c : Capture} (h : b.index.sample? c.trace = none) (hc : ∀ f ∈ c.trace, f.KnownTo z)
    (count : Int) :
    (addCapture methods (b, z) (c, count)).1.ShowsStack c.trace.key
      ((c.trace.kept name b.plan.skip).map (Frame.view name methods)) := by
  have hname : z.naming = name := by
    funext a
    exact hP a _ (hn a)
  have hs := Request.serveAll_spec hb.table hz hn (c.trace.requests z.naming b.plan.skip methods)
  have hviews := hs.views name hP
  rw [hname, Trace.view_requests name b.plan.skip methods fun f hf => (hc f hf).addressed] at hviews
  have hsamples : (Request.serveAll b.id b.table z
      (c.trace.requests name b.plan.skip methods)).2.1.profile.samples = b.samples :=
    hname ▸ hs.samples
  rw [addCapture_of_fresh h hc, hname]
  refine ⟨b.samples.length, _, Registry.get?_insert_self _ _ _, ?_, hviews⟩
  show ((_ ++ [_] : List Sample).map (·.locationIds))[b.samples.length]? = some _
  rw [hsamples, List.map_append, List.map_singleton, List.getElem?_append_right (by simp)]
  simp

/-- A capture does not make other traces known. -/
theorem sample?_addCapture_of_ne {t : Trace} {c : Capture × Int} (ht : c.1.trace ≠ t)
    (h : b.index.sample? t = none) (methods : MethodTable) :
    (addCapture methods (b, z) c).1.index.sample? t = none := by
  obtain ⟨c, count⟩ := c
  cases hc : b.index.sample? c.trace with
  | some i =>
      rw [addCapture_of_known hc]
      exact h
  | none =>
      have hne : t.key ≠ c.trace.key := fun he => ht (Trace.key_injective he.symm)
      simp only [addCapture, hc]
      exact (Registry.get?_insert_of_ne _ hne _).trans h

/-- So do the captures of a batch that were not seen before it. -/
theorem showsStack_addCaptures (hb : b.Sound) (hz : z.Remembers b.id b.profile P)
    (hn : ∀ a, P a (z.naming a)) (hP : ∀ a n, P a n → n = name a) (methods : MethodTable)
    {cs : List (Capture × Int)} (hcs : ∀ c ∈ cs, ∀ f ∈ c.1.trace, f.KnownTo z)
    {t : Trace} (ht : t ∈ cs.map (·.1.trace)) (h : b.index.sample? t = none) :
    (addCaptures methods (b, z) cs).1.ShowsStack t.key
      ((t.kept name b.plan.skip).map (Frame.view name methods)) := by
  induction cs generalizing b z with
  | nil => simp at ht
  | cons c cs ih =>
      have hcs' := knownTo_addCapture hcs b methods
      obtain ⟨c, count⟩ := c
      have hc := hcs _ List.mem_cons_self
      obtain ⟨hadv, -⟩ := addCapture_spec hb hz hn methods hc count
      have hn' : ∀ a, P a ((addCapture methods (b, z) (c, count)).2.naming a) := by
        rw [hadv.naming]
        exact hn
      by_cases hct : c.trace = t
      · subst hct
        have hshow := showsStack_addCapture hb hz hn hP methods h hc count
        obtain ⟨hrest, -⟩ := addCaptures_spec hadv.sound hadv.remembers hn' methods hcs'
        exact hshow.grow hrest.grows
      · have hshow := ih hadv.sound hadv.remembers hn' hcs'
          ((List.mem_cons.1 ht).resolve_left fun he => hct he.symm)
          (sample?_addCapture_of_ne hct h methods)
        rwa [hadv.grows.plan] at hshow

end Builder

/-! ### Sessions -/

namespace Session

/-- Desks stay where they are and grow during a run. -/
theorem grows_after (exp : Float → Float) (pre post : List Op) {i : Nat} {d : Desk}
    (hd : (after exp pre).desks[i]? = some d) :
    ∃ d', (after exp (pre ++ post)).desks[i]? = some d' ∧ d.Grows d' := by
  induction post generalizing pre d with
  | nil => exact ⟨d, by rw [List.append_nil, hd], .refl d⟩
  | cons op post ih =>
      obtain ⟨d', hd', hf⟩ := (coherent_after_any exp pre).desk_move (by simp [Allowed])
        (move_step exp _ op) hd
      obtain ⟨d'', hd'', hg⟩ := ih (pre ++ [op]) (by rw [after_concat, hd'])
      rw [List.append_assoc] at hd''
      exact ⟨d'', hd'', hf.grows.trans hg⟩

/-- Since desk `i` was opened, the symbol table of the symbolizer `k` has been `symbols`. -/
def SymbolsFixed (exp : Float → Float) (i k : Nat) (symbols : SymbolTable) (ops : List Op) : Prop :=
  ∀ pre, pre <+: ops → ∀ d : Desk, (after exp pre).desks[i]? = some d →
    ∀ z : Symbolizer, (after exp pre).symbolizers[k]? = some z → z.symbols = symbols

theorem symbolsFixed_iff {exp : Float → Float} {i k : Nat} {symbols : SymbolTable}
    {ops : List Op} :
    SymbolsFixed exp i k symbols ops ↔
      ∀ n < ops.length + 1, ∀ d ∈ (after exp (ops.take n)).desks[i]?,
        ∀ z ∈ (after exp (ops.take n)).symbolizers[k]?, z.symbols = symbols := by
  constructor
  · intro h n _ d hd z hz
    exact h _ (List.take_prefix n ops) d hd z hz
  · intro h pre hpre d hd z hz
    have hle := hpre.length_le
    rw [List.prefix_iff_eq_take.1 hpre] at hd hz
    exact h pre.length (by omega) d hd z hz

instance (exp : Float → Float) (i k : Nat) (symbols : SymbolTable) (ops : List Op) :
    Decidable (SymbolsFixed exp i k symbols ops) :=
  decidable_of_iff' _ symbolsFixed_iff

/-- The stacks of a batch whose frames were named, if only the names of `name` are remembered. -/
theorem Coherent.showsStack {P : Nat → Nat → Int → String → Prop} {s : Session} {i k : Nat}
    {d : Desk} {z z' : Symbolizer} {name : Int → String} (h : Coherent P s) (hP : Allowed P s)
    (hd : s.desks[i]? = some d) (hz : s.symbolizers[k]? = some z)
    (hname : ∀ a n, P k i a n → n = name a) (hren : z.Renamed z') (methods : MethodTable)
    {batch : List Capture} {weights : List Int} (hlen : weights.length = batch.length)
    (hknown : ∀ c ∈ batch, ∀ f ∈ c.trace, f.KnownTo z') {t : Trace} (ht : t ∈ batch.map (·.trace))
    (hnew : d.builder.index.sample? t = none) :
    (Builder.addCaptures methods (d.builder, z') (batch.zip weights)).1.ShowsStack t.key
      ((t.kept name d.builder.plan.skip).map (Frame.view name methods)) := by
  have hrem : z'.Remembers d.builder.id d.builder.profile (P k i) :=
    hren.remembers (h.remembersFor hz hd)
  have hn : ∀ a, P k i a (z'.naming a) := by
    rw [hren.naming]
    exact h.allowed_naming hP hz hd
  have hmem : t ∈ (batch.zip weights).map (·.1.trace) := by
    rw [← List.map_fst_zip (Nat.le_of_eq hlen.symm), List.map_map] at ht
    exact ht
  exact Builder.showsStack_addCaptures (h.sound i d hd) hrem hn hname methods
    (fun c hc => hknown c.1 (List.of_mem_zip hc).1) hmem hnew

/-- The step that accepts a batch shows the stacks of the traces that were not seen before. -/
theorem Coherent.showsStack_step {P : Nat → Nat → Int → String → Prop} {exp : Float → Float}
    {s : Session} {i : Nat} {batch : List Capture} {counts? : Option (List Int)} {d : Desk}
    {z : Symbolizer} {methods : MethodTable} {name : Int → String} {t : Trace} (h : Coherent P s)
    (hP : Allowed P s) (hd : s.desks[i]? = some d) (hz : s.symbolizers[d.symbolizer]? = some z)
    (hm : s.methodTables[d.methods]? = some methods)
    (hname : ∀ a n, P d.symbolizer i a n → n = name a)
    (hok : ∃ a, (s.step exp (.addBatch i batch counts?)).1 = .ok a)
    (ht : t ∈ batch.map (·.trace)) (hnew : d.builder.index.sample? t = none) :
    ∃ d', (s.step exp (.addBatch i batch counts?)).2.desks[i]? = some d' ∧
      d'.builder.ShowsStack t.key
        ((t.kept name d.builder.plan.skip).map (Frame.view name methods)) := by
  obtain ⟨a, ha⟩ := hok
  have hmove := move_step exp s (.addBatch i batch counts?)
  rw [ha] at hmove
  generalize (s.step exp (.addBatch i batch counts?)).2 = s' at hmove ⊢
  cases hmove with
  | aside hop _ => simp [Op.Spares, Op.builder?] at hop
  | batch hd' hz' hm' hren hlen hknown hr =>
      obtain rfl := Option.some.inj (hd.symm.trans hd')
      obtain rfl := Option.some.inj (hz.symm.trans hz')
      obtain rfl := Option.some.inj (hm.symm.trans hm')
      subst hr
      exact ⟨_, getElem?_setBuilder_self (s := s.setSymbolizer _ _) hd _,
        h.showsStack hP hd hz hname hren methods hlen hknown ht hnew⟩

/-- An accepted batch shows the stacks of the traces that were not seen before, and the profile goes
on to show them. -/
theorem stack_after (exp : Float → Float) {pre post : List Op} {i : Nat} {batch : List Capture}
    {counts? : Option (List Int)} {d : Desk} {z : Symbolizer} {methods : MethodTable} {t : Trace}
    (hd : (after exp pre).desks[i]? = some d)
    (hz : (after exp pre).symbolizers[d.symbolizer]? = some z)
    (hm : (after exp pre).methodTables[d.methods]? = some methods)
    (hfixed : SymbolsFixed exp i d.symbolizer z.symbols pre)
    (hok : ∃ a, ((after exp pre).step exp (.addBatch i batch counts?)).1 = .ok a)
    (ht : t ∈ batch.map (·.trace)) (hnew : t.key ∉ (ledger exp i pre).keys) :
    ∃ d', (after exp (pre ++ .addBatch i batch counts? :: post)).desks[i]? = some d' ∧
      d'.builder.ShowsStack t.key
        ((t.kept z.symbols.resolve d.builder.plan.skip).map
          (Frame.view z.symbols.resolve methods)) := by
  -- The names that may be remembered for this builder are those of the fixed table.
  let P : Nat → Nat → Int → String → Prop := fun k j a n =>
    k = d.symbolizer → j = i → n = z.symbols.resolve a
  have hP : ∀ pre', pre' <+: pre → Allowed P (after exp pre') := by
    rintro pre' hpre _ z' hz' _ d' hd' a rfl rfl
    rw [hfixed pre' hpre d' hd' z' hz']
  have hcoh : Coherent P (after exp pre) := coherent_after exp pre hP
  have hnone : d.builder.index.sample? t = none := by
    rw [((booked_after exp i pre).2 d hd).mem_keys_iff] at hnew
    simpa [SampleIndex.sample?] using hnew
  obtain ⟨d₁, hd₁, hshow⟩ := hcoh.showsStack_step (hP pre (List.prefix_refl pre)) hd hz hm
    (fun a n h => h rfl rfl) hok ht hnone
  rw [← after_concat] at hd₁
  obtain ⟨d₂, hd₂, hg⟩ := grows_after exp _ post hd₁
  rw [List.append_assoc] at hd₂
  exact ⟨d₂, hd₂, hshow.grow hg.builder⟩

theorem exists_ok_of_toBool {ε α : Type} {x : Except ε α} (h : x.toBool = true) :
    ∃ a, x = .ok a := by
  cases x with
  | ok a => exact ⟨a, rfl⟩
  | error e => nomatch h

/-- One leading native frame goes, and one that repeats the name before it.  Of the methods of the
managed frames, one has a line table, one neither a signature nor a line table, one is not known and
one has no identity.  Another builder was served first; names and methods change afterwards. -/
theorem stack_after_turns :
    let plan : Plan := ⟨1, {}, {}, 1, false⟩
    let lines : LineTable := ⟨[⟨0, 40⟩, ⟨5, 41⟩], by decide⟩
    let run : Method := ⟨"Job.java", "p/q/Job$$Lambda$14.77", "run", some "(I[Lp/T;)V", lines⟩
    let stop : Method := ⟨"", "p/Job", "stop", none, {}⟩
    let t : Trace := [.native 16, .native 18, ⟨7, .number 1⟩, .native 20, .native 22,
      ⟨3, .number 2⟩, ⟨4, .number 9⟩, ⟨7, .unknown⟩]
    let stack : List LocationView := [⟨"f", "", 0, 18⟩,
      ⟨"p.q.Job$$Lambda$.run(int, p.T[])", "Job.java", 41, 0⟩, ⟨"f", "", 0, 20⟩,
      ⟨"p.Job.stop", "", 3, 0⟩, ⟨".", "", 0, 0⟩, ⟨"Unknown method", "", 0, 0⟩]
    let pre : List Op := [.openSymbolizer [⟨16, 8, "f"⟩], .openMethods [(.number 1, run)],
      .addMethod 0 (.number 2) stop, .openPlanned plan 0 0, .openPlanned plan 0 0,
      .addBatch 1 [⟨t, 3⟩] none]
    let post : List Op := [.addBatch 1 [⟨t, 3⟩] none, .register 0 ⟨16, 8, "g"⟩,
      .addMethod 0 (.number 1) stop]
    ∃ d : Desk, (after id (pre ++ .addBatch 0 [⟨t, 3⟩] none :: post)).desks[0]? = some d ∧
      d.builder.ShowsStack t.key stack := by
  intro plan lines run stop t stack pre post
  let symbols : SymbolTable := .ofList [⟨16, 8, "f"⟩]
  let methods : MethodTable := .ofList [(.number 1, run), (.number 2, stop)]
  have hd : (after id pre).desks[0]? = some ⟨.ofPlan 0 plan, 0, 0⟩ := by decide +kernel
  have hsymbols : (after id pre).symbolizers[0]?.map (·.symbols) = some symbols := by decide +kernel
  have hm : (after id pre).methodTables[0]? = some methods := by decide +kernel
  have hfixed : SymbolsFixed id 0 0 symbols pre := by decide +kernel
  have hok : ((after id pre).step id (.addBatch 0 [⟨t, 3⟩] none)).1.toBool = true := by
    decide +kernel
  have hnew : t.key ∉ (ledger id 0 pre).keys := by decide +kernel
  have hviews : (t.kept symbols.resolve 1).map (Frame.view symbols.resolve methods) = stack := by
    decide +kernel
  obtain ⟨z, hz, hzs⟩ := Option.map_eq_some_iff.1 hsymbols
  rw [← hzs] at hfixed hviews
  obtain ⟨d, hd', hshow⟩ := @stack_after id pre post 0 [⟨t, 3⟩] none _ z methods t hd hz hm hfixed
    (exists_ok_of_toBool hok) (List.mem_singleton_self t) hnew
  exact ⟨d, hd', hviews ▸ hshow⟩

end Session

end StackProfile
