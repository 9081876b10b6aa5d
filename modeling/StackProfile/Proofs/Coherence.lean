import StackProfile.Proofs.Move

/-! # Coherent sessions

In every session that operations lead to, builders are sound, and symbolizers remember locations
only of the builder they belong to.  So the profiles are closed: whatever they refer to is in their
tables, which are dense, and every location has a line unless a look-up of a frame without address
left it.  If locations come from batches and artificial traces alone, both tables are in canonical
order, and nothing in them is unreferenced.

Main lemmas: a move keeps sessions coherent (`Coherent.move`), desks only grow
(`Coherent.desk_move`), what desks keep while they grow they have after every run
(`desk_induction`), and the profiles of runs are closed (`closed_after`). -/

namespace StackProfile

/-- References of a profile meet their entries: both tables are dense, every location has a single
line in a known function, stacks have known locations, and every sample has a count and a metric. -/
structure Profile.Closed (p : Profile) : Prop where
  locations : ∀ (i : Nat) l, p.locations[i]? = some l → l.id = i + 1 ∧
    ∃ line, l.lines = [line] ∧ 1 ≤ line.functionId ∧ line.functionId ≤ p.functions.length
  functions : ∀ (i : Nat) f, p.functions[i]? = some f → f.id = i + 1
  references : ∀ s ∈ p.samples, ∀ id ∈ s.locationIds, 1 ≤ id ∧ id ≤ p.locations.length
  values : ∀ s ∈ p.samples, s.values.length = 2

/-- Both tables are in the order of their first use, and all their entries are used. -/
structure Profile.Canonical (p : Profile) : Prop where
  locations : p.stackRefs.eraseDups = idsUpTo p.locations.length
  functions : p.functionRefs.eraseDups = idsUpTo p.functions.length

theorem Builder.Sound.closed {b : Builder} (h : b.Sound) (hl : b.profile.Lined) :
    b.profile.Closed where
  locations i l hi := by
    have hmem := List.mem_of_getElem? hi
    obtain ⟨line, hline⟩ := hl l hmem
    exact ⟨h.table.dense.locationId i l hi, line, hline,
      h.table.dense.line_bounds hmem (hline ▸ List.mem_singleton_self line)⟩
  functions := h.table.dense.functionId
  references s hs id hid := Profile.bounds_of_isSome_view? (h.shown s hs id hid)
  values := h.values

theorem Builder.Sound.canonical {b : Builder} (h : b.Sound) (hcan : b.Canonical) :
    b.profile.Canonical where
  locations := hcan.eraseDups_eq
  functions := h.table.dense.functionOrder.eraseDups_eq

/-- A later state of a desk. -/
structure Desk.Grows (d d' : Desk) : Prop where
  symbolizer : d'.symbolizer = d.symbolizer
  methods : d'.methods = d.methods
  builder : d.builder.Grows d'.builder

theorem Desk.Grows.refl (d : Desk) : d.Grows d := ⟨rfl, rfl, .refl _⟩

theorem Desk.Grows.trans {d d' d'' : Desk} (h : d.Grows d') (h' : d'.Grows d'') : d.Grows d'' :=
  ⟨h'.symbolizer.trans h.symbolizer, h'.methods.trans h.methods, h.builder.trans h'.builder⟩

/-- The operation asks a builder for a location without adding a sample. -/
def Op.Asks (i : Nat) : Op → Prop
  | .locate _ j _ | .intern j _ => j = i
  | _ => False

/-- The operation asks a builder for the location of a frame without address. -/
def Op.Mislocates (i : Nat) : Op → Prop
  | .locate _ j f => j = i ∧ f.address? = none
  | _ => False

/-- What an operation makes of the desk at position `i`. -/
structure Desk.Follows (op : Op) (i : Nat) (d d' : Desk) : Prop where
  grows : d.Grows d'
  lined : ¬ op.Mislocates i → d.builder.profile.Lined → d'.builder.profile.Lined
  canonical : ¬ op.Asks i → d.builder.Canonical → d'.builder.Canonical
  samples : op.Asks i → d'.builder.samples = d.builder.samples

theorem Desk.Follows.refl (op : Op) (i : Nat) (d : Desk) : d.Follows op i d :=
  ⟨.refl d, fun _ h => h, fun _ h => h, fun _ => rfl⟩

namespace Session

/-- What holds of all objects of a session together, if `P k i` tells the names under which the
symbolizer `k` may remember an address for the builder `i`. -/
structure Coherent (P : Nat → Nat → Int → String → Prop) (s : Session) : Prop where
  builderId : ∀ (i : Nat) (d : Desk), s.desks[i]? = some d → d.builder.id = i
  sound : ∀ (i : Nat) (d : Desk), s.desks[i]? = some d → d.builder.Sound
  truthful : ∀ (k : Nat) (z : Symbolizer), s.symbolizers[k]? = some z → z.Truthful
  owner : ∀ (k : Nat) (z : Symbolizer), s.symbolizers[k]? = some z →
    ∀ o, z.owner = some o → o < s.desks.length
  remembers : ∀ (k : Nat) (z : Symbolizer), s.symbolizers[k]? = some z →
    ∀ (i : Nat) (d : Desk), s.desks[i]? = some d → z.Remembers i d.builder.profile (P k i)

/-- The names that the symbolizers give are allowed. -/
def Allowed (P : Nat → Nat → Int → String → Prop) (s : Session) : Prop :=
  ∀ (k : Nat) (z : Symbolizer), s.symbolizers[k]? = some z →
    ∀ (i : Nat) (d : Desk), s.desks[i]? = some d → ∀ a, P k i a (z.symbols.resolve a)

variable {P : Nat → Nat → Int → String → Prop} {exp : Float → Float} {s s' : Session} {i k : Nat}
  {d : Desk} {z z' : Symbolizer}

theorem coherent_nil : Coherent P {} := by
  constructor <;> simp

/-- What a symbolizer remembers for a builder that works with it. -/
theorem Coherent.remembersFor (h : Coherent P s) (hz : s.symbolizers[k]? = some z)
    (hd : s.desks[i]? = some d) : z.Remembers d.builder.id d.builder.profile (P k i) := by
  rw [h.builderId i d hd]
  exact h.remembers k z hz i d hd

theorem Coherent.allowed_naming (h : Coherent P s) (hP : Allowed P s)
    (hz : s.symbolizers[k]? = some z) (hd : s.desks[i]? = some d) :
    ∀ a, P k i a (z.naming a) := by
  rw [h.truthful k z hz]
  exact hP k z hz i d hd

/-! ### Opened objects -/

theorem Coherent.openSymbolizer (h : Coherent P s) (symbols : List Symbol) :
    Coherent P (s.pushSymbolizer (.ofSymbols symbols)) := by
  have hnew := Symbolizer.learns_ofSymbols symbols
  refine ⟨h.builderId, h.sound, ?_, ?_, ?_⟩
  · intro k z hz
    rcases getElem?_concat_eq_some hz with hz | ⟨-, rfl⟩
    · exact h.truthful k z hz
    · exact Symbolizer.truthful_ofSymbols symbols
  · intro k z hz
    rcases getElem?_concat_eq_some hz with hz | ⟨-, rfl⟩
    · exact h.owner k z hz
    · rw [hnew.owner]
      simp
  · intro k z hz i d hd
    rcases getElem?_concat_eq_some hz with hz | ⟨-, rfl⟩
    · exact h.remembers k z hz i d hd
    · exact hnew.remembers (Symbolizer.remembers_of_owner_ne (by simp))

theorem Coherent.openBuilder (h : Coherent P s) (plan : Plan) (k m : Nat) :
    Coherent P (s.pushBuilder plan k m) := by
  refine ⟨?_, ?_, h.truthful, ?_, ?_⟩
  · intro i d hd
    rcases getElem?_pushBuilder hd with hd | ⟨-, rfl⟩
    · exact h.builderId i d hd
    · rfl
  · intro i d hd
    rcases getElem?_pushBuilder hd with hd | ⟨-, rfl⟩
    · exact h.sound i d hd
    · exact Builder.sound_ofPlan i plan
  · intro k z hz o ho
    have := h.owner k z hz o ho
    simp only [pushBuilder, List.length_append, List.length_singleton]
    omega
  · intro k z hz i d hd
    rcases getElem?_pushBuilder hd with hd | ⟨rfl, -⟩
    · exact h.remembers k z hz i d hd
    · -- The new builder owns no symbolizer yet.
      apply Symbolizer.remembers_of_owner_ne
      intro ho
      exact Nat.lt_irrefl _ (h.owner k z hz _ ho)

/-! ### Work of a builder -/

theorem Coherent.learn (h : Coherent P s) (hz : s.symbolizers[k]? = some z) (hl : z.Learns z') :
    Coherent P (s.setSymbolizer k z') := by
  refine ⟨h.builderId, h.sound, ?_, ?_, ?_⟩
  · intro j y hy
    rcases getElem?_setSymbolizer_eq_some hz hy with ⟨rfl, rfl⟩ | ⟨-, hy⟩
    · exact hl.truthful (h.truthful k z hz)
    · exact h.truthful j y hy
  · intro j y hy
    rcases getElem?_setSymbolizer_eq_some hz hy with ⟨rfl, rfl⟩ | ⟨-, hy⟩
    · rw [hl.owner]
      exact h.owner k z hz
    · exact h.owner j y hy
  · intro j y hy i d hd
    rcases getElem?_setSymbolizer_eq_some hz hy with ⟨rfl, rfl⟩ | ⟨-, hy⟩
    · exact hl.remembers (h.remembers k z hz i d hd)
    · exact h.remembers j y hy i d hd

/-- A builder that grows without a symbolizer. -/
theorem Coherent.work (h : Coherent P s) (hd : s.desks[i]? = some d) {b : Builder} (hb : b.Sound)
    (hg : d.builder.Grows b) : Coherent P (s.setBuilder i b) := by
  refine ⟨?_, ?_, h.truthful, ?_, ?_⟩
  · intro j e he
    rcases getElem?_setBuilder_eq_some hd he with ⟨rfl, rfl⟩ | ⟨-, he⟩
    · exact hg.id.trans (h.builderId i d hd)
    · exact h.builderId j e he
  · intro j e he
    rcases getElem?_setBuilder_eq_some hd he with ⟨rfl, rfl⟩ | ⟨-, he⟩
    · exact hb
    · exact h.sound j e he
  · rw [length_desks_setBuilder]
    exact h.owner
  · intro k z hz j e he
    rcases getElem?_setBuilder_eq_some hd he with ⟨rfl, rfl⟩ | ⟨-, he⟩
    · exact (h.remembers k z hz i d hd).grow hg.profile
    · exact h.remembers k z hz j e he

/-- A builder that advances with a symbolizer. -/
theorem Coherent.advance (h : Coherent P s) (hd : s.desks[i]? = some d)
    (hz : s.symbolizers[k]? = some z) {r : Builder × Symbolizer}
    (hadv : Builder.Advances (P k i) (d.builder, z) r) :
    Coherent P ((s.setSymbolizer k r.2).setBuilder i r.1) := by
  have hid := h.builderId i d hd
  have hlt := (List.getElem?_eq_some_iff.1 hd).1
  have hwork := h.work hd hadv.sound hadv.grows
  refine ⟨hwork.builderId, hwork.sound, ?_, ?_, ?_⟩
  · intro j y hy
    rcases getElem?_setSymbolizer_eq_some hz hy with ⟨rfl, rfl⟩ | ⟨-, hy⟩
    · unfold Symbolizer.Truthful
      rw [hadv.naming, hadv.symbols]
      exact h.truthful k z hz
    · exact h.truthful j y hy
  · intro j y hy o ho
    rw [length_desks_setBuilder]
    rcases getElem?_setSymbolizer_eq_some hz hy with ⟨rfl, rfl⟩ | ⟨-, hy⟩
    · rcases hadv.owner with hown | hown
      · exact h.owner k z hz o (hown ▸ ho)
      · rw [hown, hid] at ho
        obtain rfl := Option.some.inj ho
        exact hlt
    · exact h.owner j y hy o ho
  · intro j y hy i' e he
    rcases getElem?_setSymbolizer_eq_some hz hy with ⟨rfl, rfl⟩ | ⟨-, hy⟩
    · rcases getElem?_setBuilder_eq_some hd he with ⟨rfl, rfl⟩ | ⟨hne, he⟩
      · have hrem := hadv.remembers
        rw [hadv.grows.id, hid] at hrem
        exact hrem
      · refine hadv.others i' e.builder.profile _ ?_ (h.remembers k z hz i' e he)
        rw [hid]
        exact Ne.symm hne
    · exact hwork.remembers j y hy i' e he

/-! ### Moves -/

theorem Coherent.aside (h : Coherent P s) (ha : s.Aside s') : Coherent P s' := by
  cases ha with
  | refl => exact h
  | openSymbolizer symbols => exact h.openSymbolizer symbols
  | openBuilder plan k m => exact h.openBuilder plan k m
  | methods ts => exact ⟨h.builderId, h.sound, h.truthful, h.owner, h.remembers⟩
  | learn hz hl => exact h.learn hz hl

theorem Coherent.located (h : Coherent P s) (hP : Allowed P s) (hz : s.symbolizers[k]? = some z)
    (hd : s.desks[i]? = some d) (a : Int) :
    Builder.Advances (P k i) (d.builder, z) (d.builder.locate z a).2 :=
  Builder.locate_spec (h.sound i d hd) (h.remembersFor hz hd) (h.allowed_naming hP hz hd) a

theorem Coherent.mislocated (h : Coherent P s) (hz : s.symbolizers[k]? = some z)
    (hd : s.desks[i]? = some d) :
    Builder.Advances (P k i) (d.builder, z) (d.builder.pushLineless, z.ownedBy d.builder.id) :=
  Builder.mislocate_spec (h.sound i d hd) (h.remembersFor hz hd)

theorem Coherent.folded (h : Coherent P s) (hP : Allowed P s) (hd : s.desks[i]? = some d)
    (hz : s.symbolizers[k]? = some z) (hren : z.Renamed z') (methods : MethodTable)
    {batch : List Capture} (hknown : ∀ c ∈ batch, ∀ f ∈ c.trace, f.KnownTo z')
    (weights : List Int) :
    let r := Builder.addCaptures methods (d.builder, z') (batch.zip weights)
    Builder.Advances (P k i) (d.builder, z) r ∧ (d.builder.Canonical → r.1.Canonical) :=
  Builder.addCaptures_renamed_spec (h.sound i d hd) (h.remembersFor hz hd)
    (h.allowed_naming hP hz hd) hren methods fun c hc => hknown c.1 (List.of_mem_zip hc).1

theorem sound_finish {b : Builder} (hb : b.Sound) (exp : Float → Float) (how : Finish) :
    let b' := (finish exp how b).2
    b'.Sound ∧ b.Grows b' ∧ (b.Canonical → b'.Canonical) := by
  obtain ⟨unsampled, he⟩ := finish_eq exp how b
  rw [he]
  exact Builder.finish_spec hb exp unsampled

theorem lined_finish {b : Builder} (hb : b.profile.Lined) (exp : Float → Float) (how : Finish) :
    (finish exp how b).2.profile.Lined := by
  obtain ⟨unsampled, he⟩ := finish_eq exp how b
  obtain ⟨ss, hss, -, -⟩ := b.finish_eq_setSamples exp unsampled
  rw [he, hss]
  exact hb

/-- A move keeps sessions coherent. -/
theorem Coherent.move {op : Op} {answer : Except OpError Answer} (h : Coherent P s)
    (hP : Allowed P s) (hm : s.Move exp op answer s') : Coherent P s' := by
  cases hm with
  | aside _ ha => exact h.aside ha
  | artificial hd name count rate =>
      obtain ⟨hb, hg, -⟩ := Builder.addArtificial_spec (h.sound _ _ hd) name count rate
      exact h.work hd hb hg
  | intern hd label =>
      obtain ⟨hb, hg⟩ := Builder.intern_spec (h.sound _ _ hd) label
      exact h.work hd hb hg
  | finish hd how =>
      obtain ⟨hb, hg, -⟩ := sound_finish (h.sound _ _ hd) exp how
      exact h.work hd hb hg
  | locate hz hd => exact h.advance hd hz (h.located hP hz hd _)
  | mislocate hz hd => exact h.advance hd hz (h.mislocated hz hd)
  | batch hd hz _ hren _ hknown hr =>
      subst hr
      exact h.advance hd hz (h.folded hP hd hz hren _ hknown _).1

theorem follows_setBuilder {op : Op} {b : Builder} {j : Nat} {e : Desk}
    (hd : s.desks[i]? = some d) (hf : d.Follows op i { d with builder := b })
    (he : s.desks[j]? = some e) :
    ∃ e', (s.setBuilder i b).desks[j]? = some e' ∧ e.Follows op j e' := by
  rw [getElem?_setBuilder]
  by_cases hij : i = j
  · subst hij
    obtain rfl := Option.some.inj (hd.symm.trans he)
    rw [if_pos rfl, hd]
    exact ⟨_, rfl, hf⟩
  · rw [if_neg hij]
    exact ⟨e, he, .refl op j e⟩

/-- Desks stay where they are and grow. -/
theorem Coherent.desk_move {op : Op} {answer : Except OpError Answer} (h : Coherent P s)
    (hP : Allowed P s) (hm : s.Move exp op answer s') {j : Nat} {e : Desk}
    (he : s.desks[j]? = some e) :
    ∃ e', s'.desks[j]? = some e' ∧ e.Follows op j e' := by
  cases hm with
  | aside _ ha => exact ⟨e, desk_aside ha he, .refl op j e⟩
  | artificial hd name count rate =>
      obtain ⟨-, hg, hcan⟩ := Builder.addArtificial_spec (h.sound _ _ hd) name count rate
      exact follows_setBuilder hd ⟨⟨rfl, rfl, hg⟩, fun _ hl => LocationTable.lined_intern hl _,
        fun _ => hcan, False.elim⟩ he
  | intern hd label =>
      obtain ⟨-, hg⟩ := Builder.intern_spec (h.sound _ _ hd) label
      exact follows_setBuilder hd ⟨⟨rfl, rfl, hg⟩, fun _ hl => LocationTable.lined_intern hl label,
        fun ha => absurd rfl ha, fun _ => Builder.samples_intern _ label⟩ he
  | finish hd how =>
      obtain ⟨-, hg, hcan⟩ := sound_finish (h.sound _ _ hd) exp how
      exact follows_setBuilder hd ⟨⟨rfl, rfl, hg⟩, fun _ hl => lined_finish hl exp how,
        fun _ => hcan, False.elim⟩ he
  | @locate k i z d hz hd f a =>
      have hadv := h.located hP hz hd a
      have hd' : (s.setSymbolizer k (d.builder.locate z a).2.2).desks[i]? = some d := hd
      exact follows_setBuilder hd' ⟨⟨rfl, rfl, hadv.grows⟩,
        fun _ hl => Symbolizer.lined_locate hl z d.builder.id a, fun ha => absurd rfl ha,
        fun _ => Builder.samples_locate _ z a⟩ he
  | @mislocate k i z d hz hd f ha =>
      have hadv := h.mislocated hz hd
      have hd' : (s.setSymbolizer k (z.ownedBy d.builder.id)).desks[i]? = some d := hd
      exact follows_setBuilder hd' ⟨⟨rfl, rfl, hadv.grows⟩, fun hm => absurd ⟨rfl, ha⟩ hm,
        fun ha => absurd rfl ha, fun _ => rfl⟩ he
  | @batch i d z z' methods hd hz _ hren batch counts? _ hknown r hr =>
      subst hr
      obtain ⟨hadv, hcan⟩ := h.folded hP hd hz hren methods hknown (Builder.weights batch counts?)
      have hlined : d.builder.profile.Lined → (Builder.addCaptures methods (d.builder, z')
          (batch.zip (Builder.weights batch counts?))).1.profile.Lined := fun hl =>
        Builder.lined_addCaptures hl (fun c hc => hknown c.1 (List.of_mem_zip hc).1) methods
      exact @follows_setBuilder (s.setSymbolizer _ _) _ d _ _ _ _ hd
        ⟨⟨rfl, rfl, hadv.grows⟩, fun _ => hlined, fun _ => hcan, False.elim⟩ he

/-! ### Runs -/

/-- Sessions are coherent after every run, if the names that symbolizers gave on the way are
allowed. -/
theorem coherent_after (exp : Float → Float) (ops : List Op) :
    (∀ pre, pre <+: ops → Allowed P (after exp pre)) → Coherent P (after exp ops) := by
  refine after_induction
    (M := fun ops s => (∀ pre, pre <+: ops → Allowed P (after exp pre)) → Coherent P s) ?_ ?_ ops
  · exact fun _ => coherent_nil
  · intro ops op ih hP
    have hpre : ∀ pre, pre <+: ops → Allowed P (after exp pre) :=
      fun pre h => hP pre (h.trans (List.prefix_append _ _))
    exact (ih hpre).move (hpre ops (List.prefix_refl ops)) (move_step exp _ op)

theorem coherent_after_any (exp : Float → Float) (ops : List Op) :
    Coherent (fun _ _ _ _ => True) (after exp ops) :=
  coherent_after exp ops fun _ _ _ _ _ _ _ _ _ => trivial

/-- What an opened desk has and every operation keeps it has after every run. -/
theorem desk_induction (exp : Float → Float) {i : Nat} {M : List Op → Desk → Prop}
    (opened : ∀ ops plan k m, M ops ⟨.ofPlan i plan, k, m⟩)
    (follows : ∀ ops op d d', (after exp ops).desks[i]? = some d →
      (after exp (ops ++ [op])).desks[i]? = some d' → d.Follows op i d' → M ops d →
      M (ops ++ [op]) d') (ops : List Op) :
    ∀ d : Desk, (after exp ops).desks[i]? = some d → M ops d := by
  refine after_induction (M := fun ops s => ∀ d : Desk, s.desks[i]? = some d → M ops d) ?_ ?_ ops
  · simp
  · intro ops op ih d' hd'
    have hm := move_step exp (after exp ops) op
    cases hd : (after exp ops).desks[i]? with
    | none =>
        obtain ⟨plan, k, m, rfl⟩ := opened_move hm hd hd'
        exact opened _ plan k m
    | some d =>
        obtain ⟨e, he, hf⟩ := (coherent_after_any exp ops).desk_move (by simp [Allowed]) hm hd
        obtain rfl := Option.some.inj (he.symm.trans hd')
        exact follows ops op d e hd (by rw [after_concat, he]) hf (ih d hd)

/-- Without a look-up that fails, all locations have a line. -/
theorem lined_after (exp : Float → Float) (i : Nat) (ops : List Op) :
    ∀ d : Desk, (after exp ops).desks[i]? = some d → (∀ op ∈ ops, ¬ op.Mislocates i) →
      d.builder.profile.Lined := by
  refine desk_induction exp
    (M := fun ops d => (∀ op ∈ ops, ¬ op.Mislocates i) → d.builder.profile.Lined) ?_ ?_ ops
  · intro ops plan k m _ l hl
    cases hl
  · intro ops op d d' _ _ hf ih hl
    exact hf.lined (hl op (by simp)) (ih fun op' h => hl op' (List.mem_append_left _ h))

/-- No operation that only asks a builder for locations adds one to its profile. -/
def Traced (exp : Float → Float) (i : Nat) (ops : List Op) : Prop :=
  ∀ pre op, pre ++ [op] <+: ops → op.Asks i → ∀ d d' : Desk,
    (after exp pre).desks[i]? = some d → (after exp (pre ++ [op])).desks[i]? = some d' →
      d'.builder.profile.locations = d.builder.profile.locations

theorem traced_of_not_asks (exp : Float → Float) {i : Nat} {ops : List Op}
    (h : ∀ op ∈ ops, ¬ op.Asks i) : Traced exp i ops := by
  intro pre op hpre hop
  exact absurd hop (h op (hpre.subset (by simp)))

/-- Locations that come from samples alone are in canonical order. -/
theorem canonical_after (exp : Float → Float) (i : Nat) (ops : List Op) :
    ∀ d : Desk, (after exp ops).desks[i]? = some d → Traced exp i ops → d.builder.Canonical := by
  refine desk_induction exp (M := fun ops d => Traced exp i ops → d.builder.Canonical) ?_ ?_ ops
  · exact fun _ plan _ _ _ => Builder.canonical_ofPlan i plan
  · intro ops op d d' hd hd' hf ih ht
    have hcan := ih fun pre op h => ht pre op (h.trans (List.prefix_append _ _))
    by_cases hop : op.Asks i
    · -- The samples are as before, and by assumption so are the locations.
      have hl := ht ops op (List.prefix_refl _) hop d d' hd hd'
      have hs := hf.samples hop
      unfold Builder.samples at hs
      unfold Builder.Canonical Profile.stackRefs at hcan ⊢
      rwa [hl, hs]
    · exact hf.canonical hop hcan

/-- After a run whose look-ups all have addresses the profile is closed, and canonical if locations
come from samples alone. -/
theorem closed_after (exp : Float → Float) (ops : List Op) {i : Nat} {d : Desk}
    (hd : (after exp ops).desks[i]? = some d) (hl : ∀ op ∈ ops, ¬ op.Mislocates i) :
    d.builder.profile.Closed ∧ (Traced exp i ops → d.builder.profile.Canonical) := by
  have hb := (coherent_after_any exp ops).sound i d hd
  exact ⟨hb.closed (lined_after exp i ops d hd hl),
    fun ht => hb.canonical (canonical_after exp i ops d hd ht)⟩

/-- Two builders take turns at one symbolizer and one method table; the first one adds an artificial
trace, and a look-up for the second one fails. -/
theorem closed_after_turns :
    let plan : Plan := ⟨1, {}, {}, 0, false⟩
    let method : Method := ⟨"Queue.java", "p/Queue", "pop", some "()V", .ofEntries [⟨0, 40⟩]⟩
    let batch : List Capture := [⟨[.native 16, ⟨7, .number 1⟩], 3⟩]
    let ops : List Op := [.openSymbolizer [⟨16, 8, "f"⟩], .openMethods [(.number 1, method)],
      .openPlanned plan 0 0, .openPlanned plan 0 0, .addBatch 0 batch none, .addBatch 1 batch none,
      .locate 0 1 ⟨Frame.nativeLine, .unknown⟩, .addArtificial 0 "g" 2 5]
    ∃ d : Desk, (after id ops).desks[0]? = some d ∧ (∀ op ∈ ops, ¬ op.Mislocates 0) ∧
      Traced id 0 ops ∧ d.builder.profile.Closed ∧ d.builder.profile.Canonical := by
  intro plan method batch ops
  have hl : ∀ op ∈ ops, ¬ op.Mislocates 0 := by simp [ops, Op.Mislocates]
  have ht : Traced id 0 ops := traced_of_not_asks id (by simp [ops, Op.Asks])
  obtain ⟨hclosed, hcan⟩ := @closed_after id ops 0 _ rfl hl
  exact ⟨_, rfl, hl, ht, hclosed, hcan ht⟩

end Session

end StackProfile
