import StackProfile.Builder.Unsample
import StackProfile.Proofs.Batch

/-! # Growth of a builder

Every operation of a builder leaves sound tables behind and only adds to them: identifiers that were
given out keep what they show, and traces that were seen keep their samples.  Locations that come
from captures and artificial traces alone are numbered in the order in which the stacks use them.

Main lemmas: `addCaptures_renamed_spec`, `locate_spec`, `mislocate_spec`, `addArtificial_spec`,
`intern_spec` and `finish_spec`, one for each operation. -/

namespace StackProfile

/-- Soundness is about the tables and not about the samples. -/
theorem LocationTable.Sound.setSamples {t : LocationTable} (h : t.Sound) (ss : List Sample) :
    LocationTable.Sound { t with profile := { t.profile with samples := ss } } :=
  ⟨⟨h.dense.locationId, h.dense.lines, h.dense.functionId, h.dense.functionOrder⟩, h.interned⟩

/-- A location that nothing refers to keeps the tables sound. -/
theorem LocationTable.Sound.pushLineless {t : LocationTable} (h : t.Sound) :
    LocationTable.Sound { t with profile := (t.profile.pushLocation [] 0).2 } := by
  refine ⟨h.dense.pushLineless, fun k l hl => ?_⟩
  obtain ⟨hmem, hv⟩ := h.interned k l hl
  have hg := t.profile.extends_pushLocation [] 0
  exact ⟨hg.locations.subset hmem, hg.viewOf? hv⟩

theorem Profile.extends_setSamples (p : Profile) {ss : List Sample}
    (h : p.samples.map (·.locationIds) <+: ss.map (·.locationIds)) :
    p.Extends { p with samples := ss } :=
  ⟨List.prefix_refl _, List.prefix_refl _, h⟩

/-- The location identifiers of all stacks in order. -/
def Profile.stackRefs (p : Profile) : List Int := (p.samples.map (·.locationIds)).flatten

namespace Builder

/-- The tables are sound, the stacks refer to locations of the table that show something, and every
sample has a count and a metric. -/
structure Sound (b : Builder) : Prop where
  table : b.table.Sound
  shown : ∀ s ∈ b.samples, ∀ id ∈ s.locationIds, (b.profile.view? id).isSome = true
  values : ∀ s ∈ b.samples, s.values.length = 2

/-- The locations are numbered in the order in which the stacks use them. -/
def Canonical (b : Builder) : Prop :=
  Numbered 0 b.profile.stackRefs b.profile.locations.length

/-- A later state of a builder. -/
structure Grows (b b' : Builder) : Prop where
  id : b'.id = b.id
  plan : b'.plan = b.plan
  profile : b.profile.Extends b'.profile
  index : ∀ k j, b.index.get? k = some j → b'.index.get? k = some j

namespace Grows

variable {b b' b'' : Builder}

theorem refl (b : Builder) : b.Grows b := ⟨rfl, rfl, .refl _, fun _ _ h => h⟩

theorem trans (h : b.Grows b') (h' : b'.Grows b'') : b.Grows b'' where
  id := h'.id.trans h.id
  plan := h'.plan.trans h.plan
  profile := h.profile.trans h'.profile
  index k j hk := h'.index k j (h.index k j hk)

end Grows

theorem sound_ofPlan (id : Nat) (plan : Plan) : (ofPlan id plan).Sound where
  table := by
    refine ⟨⟨?_, ?_, ?_, .nil 0⟩, ?_⟩ <;> simp [ofPlan]
  shown := by simp [ofPlan, samples, profile]
  values := by simp [ofPlan, samples, profile]

theorem canonical_ofPlan (id : Nat) (plan : Plan) : (ofPlan id plan).Canonical := .nil 0

/-! ### Changing values -/

section values

variable {b : Builder} {ss : List Sample}

theorem grows_setSamples (hids : ss.map (·.locationIds) = b.samples.map (·.locationIds)) :
    b.Grows (b.withProfile { b.profile with samples := ss }) :=
  ⟨rfl, rfl, b.profile.extends_setSamples (hids ▸ List.prefix_refl _), fun _ _ h => h⟩

theorem Sound.setSamples (h : b.Sound)
    (hids : ss.map (·.locationIds) = b.samples.map (·.locationIds))
    (hvalues : ss.map (·.values.length) = b.samples.map (·.values.length)) :
    (b.withProfile { b.profile with samples := ss }).Sound := by
  refine ⟨h.table.setSamples ss, ?_, ?_⟩
  · intro s hs
    have hmem : s.locationIds ∈ b.samples.map (·.locationIds) :=
      hids ▸ List.mem_map_of_mem hs
    obtain ⟨s', hs', he⟩ := List.mem_map.1 hmem
    rw [← he]
    exact h.shown s' hs'
  · intro s hs
    have hmem : s.values.length ∈ b.samples.map (·.values.length) :=
      hvalues ▸ List.mem_map_of_mem hs
    obtain ⟨s', hs', he⟩ := List.mem_map.1 hmem
    rw [← he]
    exact h.values s' hs'

theorem Canonical.setSamples (h : b.Canonical)
    (hids : ss.map (·.locationIds) = b.samples.map (·.locationIds)) :
    (b.withProfile { b.profile with samples := ss }).Canonical := by
  unfold Canonical Profile.stackRefs at h ⊢
  exact (congrArg (Numbered 0 ·.flatten b.profile.locations.length) hids).mpr h

end values

/-- Adding to the values of one sample. -/
theorem map_modify_accumulate {α : Type} (f : Sample → α)
    (hf : ∀ (s : Sample) c m, f (s.accumulate c m) = f s) (ss : List Sample) (i : Nat) (c m : Int) :
    (ss.modify i fun s => s.accumulate c m).map f = ss.map f := by
  apply List.ext_getElem?
  intro j
  rw [List.getElem?_map, List.getElem?_modify, List.getElem?_map]
  by_cases h : i = j
  · cases ss[j]? <;> simp [h, hf]
  · cases ss[j]? <;> simp [h]

theorem length_values_accumulate (s : Sample) (c m : Int) :
    (s.accumulate c m).values.length = s.values.length := by
  simp [Sample.accumulate, Sample.setCount, Sample.setMetric]

/-! ### Opening samples -/

section opening

variable {b : Builder} {P : Int → String → Prop} {qs : List Request} {ids values : List Int}
  {t : LocationTable} {z : Symbolizer}

/-- Tables that have grown under the same samples. -/
theorem Sound.withTable (h : b.Sound) (ht : t.Sound) (hg : b.profile.Extends t.profile)
    (hs : t.profile.samples = b.samples) : Sound { b with table := t } where
  table := ht
  shown s hmem id hid := by
    obtain ⟨v, hv⟩ := Option.isSome_iff_exists.1 (h.shown s (hs ▸ hmem) id hid)
    exact Option.isSome_of_eq_some (hg.view? hv)
  values s hmem := h.values s (hs ▸ hmem)

/-- The builder with new tables and one more sample. -/
def openSample (b : Builder) (t : LocationTable) (index : SampleIndex) (s : Sample) : Builder :=
  { b with table := { t with profile := t.profile.pushSample s }, index }

/-- A sample whose locations were served. -/
theorem Sound.openSample (h : b.Sound) (hs : Request.ServedAll b.id P b.table qs ids t z)
    (index : SampleIndex) (hv : values.length = 2) :
    (b.openSample t index ⟨ids, values⟩).Sound := by
  have hold := h.withTable hs.sound hs.grows hs.samples
  refine ⟨hs.sound.setSamples _, ?_, ?_⟩
  · intro s hmem
    rcases List.mem_append.1 hmem with hmem | hmem
    · exact hold.shown s hmem
    · rw [List.mem_singleton.1 hmem]
      exact hs.shown
  · intro s hmem
    rcases List.mem_append.1 hmem with hmem | hmem
    · exact hold.values s hmem
    · rw [List.mem_singleton.1 hmem]
      exact hv

theorem grows_openSample (hs : Request.ServedAll b.id P b.table qs ids t z) {index : SampleIndex}
    (hi : ∀ k j, b.index.get? k = some j → index.get? k = some j) (s : Sample) :
    b.Grows (b.openSample t index s) where
  id := rfl
  plan := rfl
  profile := hs.grows.trans (t.profile.extends_setSamples (by simp))
  index := hi

theorem Canonical.openSample (h : b.Canonical)
    (hs : Request.ServedAll b.id P b.table qs ids t z) (index : SampleIndex) :
    (b.openSample t index ⟨ids, values⟩).Canonical := by
  have hrefs : (b.openSample t index ⟨ids, values⟩).profile.stackRefs =
      b.profile.stackRefs ++ ids := by
    simp [Builder.openSample, profile, Profile.stackRefs, Profile.pushSample, hs.samples]
  unfold Canonical at h ⊢
  rw [hrefs]
  exact h.append hs.numbered

end opening

theorem samples_locate (b : Builder) (z : Symbolizer) (a : Int) :
    (b.locate z a).2.1.samples = b.samples :=
  Symbolizer.samples_locate z b.id b.profile a

theorem samples_intern (b : Builder) (k : FrameLabel) : (b.intern k).2.samples = b.samples :=
  LocationTable.samples_intern b.table k

/-! ### Captures -/

/-- What an operation of a builder makes of the builder and its symbolizer. -/
structure Advances (P : Int → String → Prop) (s s' : Builder × Symbolizer) : Prop where
  sound : s'.1.Sound
  grows : s.1.Grows s'.1
  remembers : s'.2.Remembers s'.1.id s'.1.profile P
  others : ∀ o p Q, o ≠ s.1.id → s.2.Remembers o p Q → s'.2.Remembers o p Q
  owner : s'.2.owner = s.2.owner ∨ s'.2.owner = some s.1.id
  naming : s'.2.naming = s.2.naming
  symbols : s'.2.symbols = s.2.symbols

namespace Advances

variable {P : Int → String → Prop} {s s' s'' : Builder × Symbolizer}

theorem refl (h : s.1.Sound) (hz : s.2.Remembers s.1.id s.1.profile P) : Advances P s s :=
  ⟨h, .refl _, hz, fun _ _ _ _ h => h, .inl rfl, rfl, rfl⟩

theorem trans (h : Advances P s s') (h' : Advances P s' s'') : Advances P s s'' where
  sound := h'.sound
  grows := h.grows.trans h'.grows
  remembers := h'.remembers
  others o p Q ho hz := h'.others o p Q (by rwa [h.grows.id]) (h.others o p Q ho hz)
  owner := by
    rcases h'.owner with h' | h'
    · rw [h']
      exact h.owner
    · rw [h', h.grows.id]
      exact .inr rfl
  naming := h'.naming.trans h.naming
  symbols := h'.symbols.trans h.symbols

end Advances

section captures

variable {P : Int → String → Prop} {b : Builder} {z : Symbolizer}

/-- A capture whose native frames are named is folded in soundly, in canonical order. -/
theorem addCapture_spec (hb : b.Sound) (hz : z.Remembers b.id b.profile P)
    (hn : ∀ a, P a (z.naming a)) (methods : MethodTable) {c : Capture}
    (hc : ∀ f ∈ c.trace, f.KnownTo z) (count : Int) :
    let s' := addCapture methods (b, z) (c, count)
    Advances P (b, z) s' ∧ (b.Canonical → s'.1.Canonical) := by
  cases h : b.index.sample? c.trace with
  | some i =>
      have hids := map_modify_accumulate (·.locationIds) (fun _ _ _ => rfl) b.samples i count
        c.metric
      have hvalues := map_modify_accumulate (·.values.length) length_values_accumulate b.samples i
        count c.metric
      have hg := grows_setSamples hids
      rw [addCapture_of_known h]
      exact ⟨⟨hb.setSamples hids hvalues, hg, hz.grow hg.profile, fun _ _ _ _ h => h, .inl rfl,
        rfl, rfl⟩, fun hcan => hcan.setSamples hids⟩
  | none =>
      have hs := Request.serveAll_spec hb.table hz hn
        (c.trace.requests z.naming b.plan.skip methods)
      have hi : ∀ k j, b.index.get? k = some j →
          (b.index.put c.trace b.samples.length).get? k = some j := by
        intro k j hk
        unfold SampleIndex.put
        rw [Registry.get?_insert_of_ne _ _ _]
        · exact hk
        · rintro rfl
          rw [SampleIndex.sample?, hk] at h
          simp at h
      rw [addCapture_of_fresh h hc]
      refine ⟨⟨hb.openSample hs _ rfl, grows_openSample hs hi _, ?_, ?_, ?_, ?_, ?_⟩,
        fun hcan => hcan.openSample hs _⟩
      · exact hs.remembers.grow (Profile.extends_setSamples _ (by simp))
      · exact fun o p Q ho hz => Request.remembers_serveAll_of_ne hz ho _ _
      · exact Request.owner_serveAll _ _ _ _
      · exact Request.naming_serveAll _ _ _ _
      · exact Request.symbols_serveAll _ _ _ _

/-- So are captures one after the other. -/
theorem addCaptures_spec (hb : b.Sound) (hz : z.Remembers b.id b.profile P)
    (hn : ∀ a, P a (z.naming a)) (methods : MethodTable) {cs : List (Capture × Int)}
    (hcs : ∀ c ∈ cs, ∀ f ∈ c.1.trace, f.KnownTo z) :
    let s' := addCaptures methods (b, z) cs
    Advances P (b, z) s' ∧ (b.Canonical → s'.1.Canonical) := by
  induction cs generalizing b z with
  | nil => exact ⟨.refl hb hz, fun h => h⟩
  | cons c cs ih =>
      obtain ⟨hadv, hcan⟩ := addCapture_spec hb hz hn methods (hcs c List.mem_cons_self) c.2
      obtain ⟨hadv', hcan'⟩ := ih hadv.sound hadv.remembers
        (fun a => by rw [hadv.naming]; exact hn a) (knownTo_addCapture hcs b methods)
      exact ⟨hadv.trans hadv', hcan' ∘ hcan⟩

/-- An accepted batch folds its captures in after their native frames were named. -/
theorem addCaptures_renamed_spec {z' : Symbolizer} (hb : b.Sound)
    (hz : z.Remembers b.id b.profile P) (hn : ∀ a, P a (z.naming a)) (hren : z.Renamed z')
    (methods : MethodTable) {cs : List (Capture × Int)}
    (hcs : ∀ c ∈ cs, ∀ f ∈ c.1.trace, f.KnownTo z') :
    let s' := addCaptures methods (b, z') cs
    Advances P (b, z) s' ∧ (b.Canonical → s'.1.Canonical) := by
  obtain ⟨hadv, hcan⟩ := addCaptures_spec hb (hren.remembers hz)
    (fun a => by rw [hren.naming]; exact hn a) methods hcs
  refine ⟨⟨hadv.sound, hadv.grows, hadv.remembers, ?_, ?_, hadv.naming.trans hren.naming,
    hadv.symbols.trans hren.symbols⟩, hcan⟩
  · exact fun o p Q ho h => hadv.others o p Q ho (hren.remembers h)
  · rw [← hren.owner]
    exact hadv.owner

/-- The location of an address is found soundly, but the canonical order may be lost. -/
theorem locate_spec (hb : b.Sound) (hz : z.Remembers b.id b.profile P)
    (hn : ∀ a, P a (z.naming a)) (a : Int) : Advances P (b, z) (b.locate z a).2 := by
  have hs := Request.serve_native_spec hb.table hz hn a
  refine ⟨hb.withTable hs.sound hs.grows hs.samples, ⟨rfl, rfl, hs.grows, fun _ _ h => h⟩,
    hs.remembers, ?_, ?_, ?_, ?_⟩
  · exact fun o p Q ho h => Request.remembers_serve_of_ne h ho b.table (.native a)
  · exact .inr (Symbolizer.owner_locate z b.id b.table.profile a)
  · exact Symbolizer.naming_locate z b.id b.table.profile a
  · exact Symbolizer.symbols_locate z b.id b.table.profile a

/-- A look-up that fails makes the builder the owner of the symbolizer and adds a location that
nothing refers to. -/
theorem mislocate_spec (hb : b.Sound) (hz : z.Remembers b.id b.profile P) :
    Advances P (b, z) (b.pushLineless, z.ownedBy b.id) := by
  have hg : b.profile.Extends b.pushLineless.profile := b.profile.extends_pushLocation [] 0
  refine ⟨hb.withTable hb.table.pushLineless hg rfl, ⟨rfl, rfl, hg, fun _ _ h => h⟩,
    hz.remembers_ownedBy.grow hg, ?_, ?_, ?_, ?_⟩
  · intro o p Q ho _
    apply Symbolizer.remembers_of_owner_ne
    rw [Symbolizer.owner_ownedBy]
    exact fun h => ho (Option.some.inj h).symm
  · exact .inr (z.owner_ownedBy b.id)
  · exact z.naming_ownedBy b.id
  · exact z.symbols_ownedBy b.id

end captures

/-! ### Operations without a symbolizer -/

section alone

variable {b : Builder}

/-- The location of a label, served without a symbolizer. -/
theorem servedAll_intern (hb : b.Sound) (k : FrameLabel) :
    Request.ServedAll b.id (fun _ _ => True) b.table [.managed k] [(b.table.intern k).1.id]
      (b.table.intern k).2 {} :=
  Request.serveAll_spec hb.table (Symbolizer.remembers_of_owner_ne (by simp))
    (fun _ => trivial) [.managed k]

theorem addArtificial_spec (hb : b.Sound) (name : String) (count rate : Int) :
    let b' := b.addArtificial name count rate
    b'.Sound ∧ b.Grows b' ∧ (b.Canonical → b'.Canonical) := by
  have hs := servedAll_intern hb ⟨name, name, "", -1⟩
  exact ⟨hb.openSample hs b.index rfl, grows_openSample hs (fun _ _ h => h) _,
    fun hcan => hcan.openSample hs b.index⟩

theorem intern_spec (hb : b.Sound) (k : FrameLabel) :
    (b.intern k).2.Sound ∧ b.Grows (b.intern k).2 := by
  have hs := servedAll_intern hb k
  exact ⟨hb.withTable hs.sound hs.grows hs.samples, rfl, rfl, hs.grows, fun _ _ h => h⟩

theorem length_values_rescale (rs : List Float) (ss : List Sample) :
    (rescale rs ss).2.map (·.values.length) = ss.map (·.values.length) := by
  fun_induction rescale rs ss <;> simp_all [Sample.setCount, Sample.setMetric]

/-- Finishing changes values at most. -/
theorem finish_eq_setSamples (exp : Float → Float) (b : Builder) (unsampled : Bool) :
    ∃ ss : List Sample,
      (b.finish exp unsampled).2 = b.withProfile { b.profile with samples := ss } ∧
      ss.map (·.locationIds) = b.samples.map (·.locationIds) ∧
      ss.map (·.values.length) = b.samples.map (·.values.length) := by
  cases unsampled with
  | false => exact ⟨b.samples, rfl, rfl, rfl⟩
  | true =>
      simp only [finish, unsample, if_true]
      split
      · exact ⟨b.samples, rfl, rfl, rfl⟩
      · rename_i rs _
        exact ⟨_, rfl, locationIds_rescale rs b.samples, length_values_rescale rs b.samples⟩

theorem finish_spec (hb : b.Sound) (exp : Float → Float) (unsampled : Bool) :
    let b' := (b.finish exp unsampled).2
    b'.Sound ∧ b.Grows b' ∧ (b.Canonical → b'.Canonical) := by
  obtain ⟨ss, he, hids, hvalues⟩ := finish_eq_setSamples exp b unsampled
  rw [he]
  exact ⟨hb.setSamples hids hvalues, grows_setSamples hids, fun hcan => hcan.setSamples hids⟩

end alone

end Builder

end StackProfile
