import StackProfile.Proofs.Coherence

/-! # Profiles are only added to

The locations of a profile are reachable from two tables and from symbolizers that serve several
builders.  Nevertheless an operation, of whichever object, adds entries at the end of the tables and
stacks at the end of the samples; so does one that fails.  The values of a sample change only when
its own builder takes a batch or finishes the profile.

Main lemmas: what a move keeps (`Coherent.keeps_move`), and what one operation (`keeps_step`) and a
whole run (`keeps_run`) keep of every builder of a session. -/

namespace StackProfile

/-- The operation may change values of samples that the builder `i` has. -/
def Op.Revalues (i : Nat) : Op → Prop
  | .addBatch j _ _ | .finish j _ => j = i
  | _ => False

/-- A later state of a builder: entries and stacks stay where they are and as they are, and unless
there was a reason to change values, so do whole samples. -/
structure Builder.Keeps (revalued : Prop) (b b' : Builder) : Prop where
  locations : b.profile.locations <+: b'.profile.locations
  functions : b.profile.functions <+: b'.profile.functions
  sampleIds : b.samples.map (·.locationIds) <+: b'.samples.map (·.locationIds)
  samples : ¬ revalued → b.samples <+: b'.samples

namespace Builder

theorem Keeps.refl (u : Prop) (b : Builder) : b.Keeps u b :=
  ⟨List.prefix_refl _, List.prefix_refl _, List.prefix_refl _, fun _ => List.prefix_refl _⟩

theorem Keeps.trans {u v : Prop} {b b' b'' : Builder} (h : b.Keeps u b') (h' : b'.Keeps v b'') :
    b.Keeps (u ∨ v) b'' where
  locations := h.locations.trans h'.locations
  functions := h.functions.trans h'.functions
  sampleIds := h.sampleIds.trans h'.sampleIds
  samples hn := (h.samples fun hu => hn (.inl hu)).trans (h'.samples fun hv => hn (.inr hv))

theorem Grows.keeps {u : Prop} {b b' : Builder} (h : b.Grows b')
    (hs : ¬ u → b.samples <+: b'.samples) : b.Keeps u b' :=
  ⟨h.profile.locations, h.profile.functions, h.profile.samples, hs⟩

theorem samples_addArtificial (b : Builder) (name : String) (count rate : Int) :
    b.samples <+: (b.addArtificial name count rate).samples := by
  have hs := LocationTable.samples_intern b.table ⟨name, name, "", -1⟩
  refine ⟨[⟨[(b.table.intern ⟨name, name, "", -1⟩).1.id], [count, count * rate]⟩], ?_⟩
  simp only [addArtificial, samples, profile, Profile.pushSample, hs]

end Builder

namespace Session

variable {exp : Float → Float} {s s' : Session} {op : Op} {answer : Except OpError Answer}
  {i j : Nat} {d e : Desk}

/-- A builder that replaces another one keeps what that had; the other desks are untouched. -/
theorem samples_setBuilder {b : Builder} (hd : s.desks[i]? = some d)
    (hb : i = j → d.builder.samples <+: b.samples) (he : s.desks[j]? = some e) {e' : Desk}
    (he' : (s.setBuilder i b).desks[j]? = some e') : e.builder.samples <+: e'.builder.samples := by
  rcases getElem?_setBuilder_eq_some hd he' with ⟨hij, rfl⟩ | ⟨-, he'⟩
  · subst hij
    obtain rfl := Option.some.inj (hd.symm.trans he)
    exact hb rfl
  · obtain rfl := Option.some.inj (he.symm.trans he')
    exact List.prefix_refl _

/-- A move keeps the samples of a builder with their values, unless it is a batch of the builder or
finishes its profile. -/
theorem samples_move (hm : s.Move exp op answer s') (hop : ¬ op.Revalues j)
    (he : s.desks[j]? = some e) {e' : Desk} (he' : s'.desks[j]? = some e') :
    e.builder.samples <+: e'.builder.samples := by
  cases hm with
  | aside _ ha =>
      obtain rfl := Option.some.inj ((desk_aside ha he).symm.trans he')
      exact List.prefix_refl _
  | artificial hd name count rate =>
      exact samples_setBuilder hd (fun _ => Builder.samples_addArtificial _ name count rate) he he'
  | intern hd label =>
      refine samples_setBuilder hd (fun _ => ?_) he he'
      simp only [Builder.samples_intern, List.prefix_refl]
  | locate _ hd =>
      refine samples_setBuilder (s := s.setSymbolizer _ _) hd (fun _ => ?_) he he'
      simp only [Builder.samples_locate, List.prefix_refl]
  | mislocate _ hd =>
      refine samples_setBuilder (s := s.setSymbolizer _ _) hd (fun _ => ?_) he he'
      exact List.prefix_refl _
  | finish hd => exact samples_setBuilder hd (fun hij => absurd hij hop) he he'
  | batch hd =>
      exact samples_setBuilder (s := s.setSymbolizer _ _) hd (fun hij => absurd hij hop) he he'

/-- A move of a coherent session only adds to builders. -/
theorem Coherent.keeps_move {P : Nat → Nat → Int → String → Prop} (h : Coherent P s)
    (hP : Allowed P s) (hm : s.Move exp op answer s') (hd : s.desks[i]? = some d) :
    ∃ d', s'.desks[i]? = some d' ∧ d.builder.Keeps (op.Revalues i) d'.builder := by
  obtain ⟨d', hd', hf⟩ := h.desk_move hP hm hd
  exact ⟨d', hd', hf.grows.builder.keeps fun hop => samples_move hm hop hd hd'⟩

/-- Whatever a session has done, one more operation only adds to every builder. -/
theorem keeps_step (exp : Float → Float) (ops : List Op) (op : Op) {i : Nat} {d : Desk}
    (hd : (after exp ops).desks[i]? = some d) :
    ∃ d', ((after exp ops).step exp op).2.desks[i]? = some d' ∧
      d.builder.Keeps (op.Revalues i) d'.builder :=
  (coherent_after_any exp ops).keeps_move (by simp [Allowed]) (move_step exp _ op) hd

/-- A look-up of a frame without address fails for a builder after another one has used the
symbolizer.  The builder keeps what it has and gets a location without lines; since the symbolizer
forgets, an address that the builder has gets one more location afterwards. -/
theorem keeps_step_turns :
    let plan : Plan := ⟨1, {}, {}, 0, false⟩
    let method : Method := ⟨"Queue.java", "p/Queue", "pop", some "()V", .ofEntries [⟨0, 40⟩]⟩
    let batch : List Capture := [⟨[.native 16, ⟨7, .number 1⟩], 3⟩]
    let ops : List Op := [.openSymbolizer [⟨16, 8, "f"⟩], .openMethods [(.number 1, method)],
      .openPlanned plan 0 0, .openPlanned plan 0 0, .addBatch 0 batch none,
      .locate 0 1 (.native 16)]
    let failing : Op := .locate 0 0 ⟨Frame.nativeLine, .unknown⟩
    ∃ d d' d'' : Desk, (after id ops).desks[0]? = some d ∧
      ((after id ops).step id failing).2.desks[0]? = some d' ∧
      ((after id (ops ++ [failing])).step id (.locate 0 0 (.native 16))).2.desks[0]? = some d'' ∧
      ((after id ops).step id failing).1 = .error (.resolve .noAddress) ∧
      d.builder.Keeps False d'.builder ∧ d'.builder.Keeps False d''.builder ∧
      d.builder.profile.locations = [⟨1, [⟨1, 0⟩], 16⟩, ⟨2, [⟨2, 40⟩], 0⟩] ∧
      d'.builder.profile.locations = d.builder.profile.locations ++ [⟨3, [], 0⟩] ∧
      d''.builder.profile.locations = d'.builder.profile.locations ++ [⟨4, [⟨1, 0⟩], 16⟩] := by
  intro plan method batch ops failing
  have hanswer : ((after id ops).step id failing).1 = .error (.resolve .noAddress) := rfl
  have hbefore : (after id ops).desks[0]?.map (·.builder.profile.locations) =
      some [⟨1, [⟨1, 0⟩], 16⟩, ⟨2, [⟨2, 40⟩], 0⟩] := by decide +kernel
  have hfailed : ((after id ops).step id failing).2.desks[0]?.map (·.builder.profile.locations) =
      some [⟨1, [⟨1, 0⟩], 16⟩, ⟨2, [⟨2, 40⟩], 0⟩, ⟨3, [], 0⟩] := by decide +kernel
  have hafter : ((after id (ops ++ [failing])).step id (.locate 0 0 (.native 16))).2.desks[0]?.map
      (·.builder.profile.locations) =
        some [⟨1, [⟨1, 0⟩], 16⟩, ⟨2, [⟨2, 40⟩], 0⟩, ⟨3, [], 0⟩, ⟨4, [⟨1, 0⟩], 16⟩] := by
    decide +kernel
  obtain ⟨d, hd, hl⟩ := Option.map_eq_some_iff.1 hbefore
  obtain ⟨d', hd', hk⟩ := keeps_step id ops failing hd
  have hd₁ : (after id (ops ++ [failing])).desks[0]? = some d' := by rw [after_concat, hd']
  obtain ⟨d'', hd'', hk'⟩ := keeps_step id (ops ++ [failing]) (.locate 0 0 (.native 16)) hd₁
  rw [hd'] at hfailed
  rw [hd''] at hafter
  have hl' : d'.builder.profile.locations = _ := Option.some.inj hfailed
  have hl'' : d''.builder.profile.locations = _ := Option.some.inj hafter
  exact ⟨d, d', d'', hd, hd', hd'', hanswer, hk, hk', hl, by rw [hl', hl]; rfl,
    by rw [hl'', hl']; rfl⟩

/-- So does a run, and it keeps the values of a builder that it neither gives a batch nor
finishes. -/
theorem keeps_run (exp : Float → Float) (pre post : List Op) {i : Nat} {d : Desk}
    (hd : (after exp pre).desks[i]? = some d) :
    ∃ d', (after exp (pre ++ post)).desks[i]? = some d' ∧
      d.builder.Keeps (∃ op ∈ post, op.Revalues i) d'.builder := by
  induction post generalizing pre d with
  | nil => exact ⟨d, by rw [List.append_nil, hd], .refl _ _⟩
  | cons op post ih =>
      obtain ⟨d', hd', hk⟩ := (coherent_after_any exp pre).keeps_move (by simp [Allowed])
        (move_step exp _ op) hd
      obtain ⟨d'', hd'', hk'⟩ := ih (pre ++ [op]) (by rw [after_concat, hd'])
      rw [List.append_assoc] at hd''
      refine ⟨d'', hd'', ?_⟩
      simp only [List.mem_cons, exists_eq_or_imp]
      exact hk.trans hk'

end Session

end StackProfile
