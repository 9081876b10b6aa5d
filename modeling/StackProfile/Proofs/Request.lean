import StackProfile.Builder.Rendering
import StackProfile.Proofs.LocationView

/-! # Requests for locations

All that a walk asks of the tables are locations: of a label for managed frames, of an address for
native ones.  A request is served from what is interned or remembered, or by minting a location.

Main lemmas: served requests leave sound tables behind, and the location of a request shows what was
asked for (`serve_spec`, `serveAll_spec`).  What a symbolizer remembers for another builder is
forgotten and never handed out (`remembers_serve_of_ne`).  All locations that requests add have a
line (`lined_serveAll`). -/

namespace StackProfile

namespace FrameLabel

/-- The function that a label names. -/
def functionKey (k : FrameLabel) : FunctionKey := { name := k.functionName, fileName := k.fileName }

/-- What the location of a label shows. -/
def view (k : FrameLabel) : LocationView := ⟨k.functionName, k.fileName, k.line, 0⟩

end FrameLabel

/-! ### Sound tables -/

/-- Interned locations are in the profile and show their labels. -/
structure LocationTable.Sound (t : LocationTable) : Prop where
  dense : t.profile.Dense
  interned : ∀ k l, t.interned.get? k = some l →
    l ∈ t.profile.locations ∧ t.profile.viewOf? l = some k.view

namespace LocationTable

theorem intern_of_fresh {t : LocationTable} {k : FrameLabel} (h : t.interned.get? k = none) :
    t.intern k =
      ((t.profile.mint k.functionKey k.line 0).1,
        { profile := (t.profile.mint k.functionKey k.line 0).2
          interned := t.interned.insert k (t.profile.mint k.functionKey k.line 0).1 }) := by
  simp only [intern, h]
  rfl

@[simp] theorem samples_intern (t : LocationTable) (k : FrameLabel) :
    (t.intern k).2.profile.samples = t.profile.samples := by
  cases h : t.interned.get? k with
  | some l => rw [intern_of_known h]
  | none => rw [intern_of_fresh h, Profile.samples_mint]

theorem lined_intern {t : LocationTable} (ht : t.profile.Lined) (k : FrameLabel) :
    (t.intern k).2.profile.Lined := by
  cases h : t.interned.get? k with
  | some l => rwa [intern_of_known h]
  | none =>
      rw [intern_of_fresh h]
      exact ht.mint _ _ _

end LocationTable

namespace Symbolizer

variable {z : Symbolizer} {owner : Nat} {p q : Profile} {P : Int → String → Prop}

/-- If the symbolizer belongs to the builder `owner`, what it remembers are locations of the profile
of that builder, under names that `P` allows. -/
def Remembers (z : Symbolizer) (owner : Nat) (p : Profile) (P : Int → String → Prop) : Prop :=
  z.owner = some owner → ∀ a l, z.locations.get? a = some l →
    l ∈ p.locations ∧ ∃ n, P a n ∧ p.viewOf? l = some ⟨n, "", 0, a⟩

/-- The name that a symbolizer gives to an address. -/
def naming (z : Symbolizer) (a : Int) : String := (z.nameOf a).1

theorem Remembers.grow (h : z.Remembers owner p P) (hg : p.Extends q) :
    z.Remembers owner q P := by
  intro ho a l hl
  obtain ⟨hmem, n, hn, hv⟩ := h ho a l hl
  exact ⟨hg.locations.subset hmem, n, hn, hg.viewOf? hv⟩

theorem Remembers.of_eq {z' : Symbolizer} (h : z.Remembers owner p P)
    (ho : z'.owner = z.owner) (hl : z'.locations = z.locations) : z'.Remembers owner p P := by
  unfold Remembers at h ⊢
  rwa [ho, hl]

theorem remembers_of_owner_ne (h : z.owner ≠ some owner) : z.Remembers owner p P :=
  fun ho => absurd ho h

theorem Remembers.ownedBy (h : z.Remembers owner p P) {a : Int} {l : Location}
    (hl : (z.ownedBy owner).locations.get? a = some l) :
    l ∈ p.locations ∧ ∃ n, P a n ∧ p.viewOf? l = some ⟨n, "", 0, a⟩ := by
  unfold Symbolizer.ownedBy at hl
  split at hl
  · exact h (by assumption) a l hl
  · simp at hl

/-- A new owner finds nothing remembered, the old one what was remembered for it. -/
theorem Remembers.remembers_ownedBy (h : z.Remembers owner p P) :
    (z.ownedBy owner).Remembers owner p P :=
  fun _ _ _ hl => h.ownedBy hl

/-! ### Names -/

@[simp] theorem get?_names_nameOf (z : Symbolizer) (a b : Int) :
    (z.nameOf a).2.names.get? b = if b = a then some (z.naming a) else z.names.get? b := by
  unfold naming nameOf
  cases hz : z.names.get? a with
  | some n =>
      by_cases hb : b = a
      · simp [hb, hz]
      · simp [hb]
  | none => simp [Registry.get?_insert]

theorem naming_eq (z : Symbolizer) (a : Int) :
    z.naming a = (z.names.get? a).getD (z.symbols.resolve a) := by
  unfold naming nameOf
  cases z.names.get? a <;> rfl

theorem naming_congr {z' : Symbolizer} (hn : z'.names = z.names) (hs : z'.symbols = z.symbols) :
    z'.naming = z.naming := by
  funext a
  rw [naming_eq, naming_eq, hn, hs]

/-- A name that was given is the name that will be given. -/
theorem naming_nameOf (z : Symbolizer) (a : Int) : (z.nameOf a).2.naming = z.naming := by
  funext b
  rw [naming_eq, get?_names_nameOf, symbols_nameOf]
  by_cases hb : b = a
  · rw [if_pos hb, hb, Option.getD_some]
  · rw [if_neg hb, naming_eq]

theorem naming_ownedBy (z : Symbolizer) (owner : Nat) : (z.ownedBy owner).naming = z.naming :=
  naming_congr (names_ownedBy z owner) (symbols_ownedBy z owner)

/-! ### Locating an address -/

theorem locate_of_cached {a : Int} {l : Location}
    (h : (z.ownedBy owner).locations.get? a = some l) (p : Profile) :
    z.locate owner p a = (l, z.ownedBy owner, p) := by
  simp only [locate, h]

theorem locate_of_fresh {a : Int} (h : (z.ownedBy owner).locations.get? a = none) (p : Profile) :
    z.locate owner p a =
      ((p.mint { name := z.naming a } 0 a).1,
        { ((z.ownedBy owner).nameOf a).2 with
          locations := (z.ownedBy owner).locations.insert a (p.mint { name := z.naming a } 0 a).1 },
        (p.mint { name := z.naming a } 0 a).2) := by
  simp only [locate, h, ← naming_ownedBy z owner, locations_nameOf]
  rfl

theorem owner_locate (z : Symbolizer) (owner : Nat) (p : Profile) (a : Int) :
    (z.locate owner p a).2.1.owner = some owner := by
  cases h : (z.ownedBy owner).locations.get? a with
  | some l => rw [locate_of_cached h, owner_ownedBy]
  | none => simp [locate_of_fresh h]

@[simp] theorem symbols_locate (z : Symbolizer) (owner : Nat) (p : Profile) (a : Int) :
    (z.locate owner p a).2.1.symbols = z.symbols := by
  cases h : (z.ownedBy owner).locations.get? a with
  | some l => rw [locate_of_cached h, symbols_ownedBy]
  | none => simp [locate_of_fresh h]

theorem naming_locate (z : Symbolizer) (owner : Nat) (p : Profile) (a : Int) :
    (z.locate owner p a).2.1.naming = z.naming := by
  cases h : (z.ownedBy owner).locations.get? a with
  | some l => rw [locate_of_cached h, naming_ownedBy]
  | none =>
      have hn : (z.locate owner p a).2.1.names = ((z.ownedBy owner).nameOf a).2.names := by
        rw [locate_of_fresh h]
      have hs : (z.locate owner p a).2.1.symbols = ((z.ownedBy owner).nameOf a).2.symbols := by
        rw [locate_of_fresh h]
      rw [naming_congr hn hs, naming_nameOf, naming_ownedBy]

@[simp] theorem samples_locate (z : Symbolizer) (owner : Nat) (p : Profile) (a : Int) :
    (z.locate owner p a).2.2.samples = p.samples := by
  cases h : (z.ownedBy owner).locations.get? a with
  | some l => rw [locate_of_cached h]
  | none => rw [locate_of_fresh h, Profile.samples_mint]

theorem lined_locate (hp : p.Lined) (z : Symbolizer) (owner : Nat) (a : Int) :
    (z.locate owner p a).2.2.Lined := by
  cases h : (z.ownedBy owner).locations.get? a with
  | some l => rwa [locate_of_cached h]
  | none =>
      rw [locate_of_fresh h]
      exact hp.mint _ _ _

/-- Names that are known are not asked for again. -/
theorem names_locate_of_known {a : Int} {n : String} (hn : z.names.get? a = some n) (owner : Nat)
    (p : Profile) : (z.locate owner p a).2.1.names = z.names := by
  cases h : (z.ownedBy owner).locations.get? a with
  | some l => rw [locate_of_cached h, names_ownedBy]
  | none =>
      have hname : (z.ownedBy owner).nameOf a = (n, z.ownedBy owner) :=
        nameOf_of_known (by rw [names_ownedBy, hn])
      rw [locate_of_fresh h, hname]
      exact names_ownedBy z owner

end Symbolizer

/-! ### Requests -/

/-- A location that is asked for. -/
inductive Request where
  | managed (label : FrameLabel)
  | native (address : Int)
deriving DecidableEq, Repr

namespace Request

/-- Serves a request of the builder `owner`. -/
def serve (owner : Nat) (t : LocationTable) (z : Symbolizer) :
    Request → Location × LocationTable × Symbolizer
  | managed k => ((t.intern k).1, (t.intern k).2, z)
  | native a =>
    ((z.locate owner t.profile a).1, { t with profile := (z.locate owner t.profile a).2.2 },
      (z.locate owner t.profile a).2.1)

/-- Serves requests one after the other and keeps the identifiers of the locations. -/
def serveAll (owner : Nat) (t : LocationTable) (z : Symbolizer) :
    List Request → List Int × LocationTable × Symbolizer
  | [] => ([], t, z)
  | q :: qs =>
    let (l, t, z) := q.serve owner t z
    let (ids, t, z) := serveAll owner t z qs
    (l.id :: ids, t, z)

/-- What the location of a request may show, if `P` tells the names that addresses may have. -/
def Shows (P : Int → String → Prop) : Request → LocationView → Prop
  | managed k, v => v = k.view
  | native a, v => ∃ n, P a n ∧ v = ⟨n, "", 0, a⟩

/-- The outcome of a request is sound: so are the tables, which only grow, and the location is in
the table, shows what was asked for, and has a known identifier or the next one. -/
structure Served (owner : Nat) (P : Int → String → Prop) (t : LocationTable) (q : Request)
    (l : Location) (t' : LocationTable) (z' : Symbolizer) : Prop where
  sound : t'.Sound
  remembers : z'.Remembers owner t'.profile P
  grows : t.profile.Extends t'.profile
  samples : t'.profile.samples = t.profile.samples
  mem : l ∈ t'.profile.locations
  view : ∃ v, q.Shows P v ∧ t'.profile.viewOf? l = some v
  numbered : Numbered t.profile.locations.length [l.id] t'.profile.locations.length

variable {owner : Nat} {t : LocationTable} {z : Symbolizer} {P : Int → String → Prop}

/-- A location of the table is a sound outcome, if the tables stay as they are. -/
theorem served_of_mem {q : Request} {l : Location} {z' : Symbolizer} {v : LocationView}
    (ht : t.Sound) (hz : z'.Remembers owner t.profile P) (hl : l ∈ t.profile.locations)
    (hq : q.Shows P v) (hv : t.profile.viewOf? l = some v) : Served owner P t q l t z' where
  sound := ht
  remembers := hz
  grows := .refl _
  samples := rfl
  mem := hl
  view := ⟨v, hq, hv⟩
  numbered := .single_known (ht.dense.id_bounds hl).1 (ht.dense.id_bounds hl).2

theorem serve_managed_spec (ht : t.Sound) (hz : z.Remembers owner t.profile P) (k : FrameLabel) :
    Served owner P t (.managed k) (t.intern k).1 (t.intern k).2 z := by
  cases h : t.interned.get? k with
  | some l =>
      obtain ⟨hmem, hv⟩ := ht.interned k l h
      rw [LocationTable.intern_of_known h]
      exact served_of_mem ht hz hmem rfl hv
  | none =>
      rw [LocationTable.intern_of_fresh h]
      have hg := t.profile.extends_mint k.functionKey k.line 0
      have hview := Profile.viewOf?_mint k.functionKey k.line 0 ht.dense
      refine ⟨⟨ht.dense.mint _ _ _, ?_⟩, hz.grow hg, hg, Profile.samples_mint _ _ _ _,
        Profile.mem_mint _ _ _, ⟨_, rfl, hview⟩, Profile.numbered_mint _ _ _⟩
      intro j l hl
      rw [Registry.get?_insert] at hl
      split at hl
      · rename_i hj
        obtain rfl := Option.some.inj hl
        exact ⟨Profile.mem_mint _ _ _, hj ▸ hview⟩
      · obtain ⟨hmem, hv⟩ := ht.interned j l hl
        exact ⟨hg.locations.subset hmem, hg.viewOf? hv⟩

theorem serve_native_spec (ht : t.Sound) (hz : z.Remembers owner t.profile P)
    (hn : ∀ a, P a (z.naming a)) (a : Int) :
    Served owner P t (.native a) (z.locate owner t.profile a).1
      { t with profile := (z.locate owner t.profile a).2.2 }
      (z.locate owner t.profile a).2.1 := by
  cases h : (z.ownedBy owner).locations.get? a with
  | some l =>
      obtain ⟨hmem, n, hP, hv⟩ := hz.ownedBy h
      rw [Symbolizer.locate_of_cached h]
      exact served_of_mem ht (fun _ b m hm => hz.ownedBy hm) hmem ⟨n, hP, rfl⟩ hv
  | none =>
      rw [Symbolizer.locate_of_fresh h]
      have hg := t.profile.extends_mint { name := z.naming a } 0 a
      have hview := Profile.viewOf?_mint { name := z.naming a } 0 a ht.dense
      refine ⟨⟨ht.dense.mint _ _ _, ?_⟩, ?_, hg, Profile.samples_mint _ _ _ _,
        Profile.mem_mint _ _ _, ⟨_, ⟨_, hn a, rfl⟩, hview⟩, Profile.numbered_mint _ _ _⟩
      · intro k l hl
        obtain ⟨hmem, hv⟩ := ht.interned k l hl
        exact ⟨hg.locations.subset hmem, hg.viewOf? hv⟩
      · intro _ b l hl
        rw [Registry.get?_insert] at hl
        split at hl
        · rename_i hb
          obtain rfl := Option.some.inj hl
          exact ⟨Profile.mem_mint _ _ _, _, hb ▸ hn a, hb ▸ hview⟩
        · obtain ⟨hmem, n, hP, hv⟩ := hz.ownedBy hl
          exact ⟨hg.locations.subset hmem, n, hP, hg.viewOf? hv⟩

/-- Serving a request from sound tables has a sound outcome. -/
theorem serve_spec (ht : t.Sound) (hz : z.Remembers owner t.profile P) (hn : ∀ a, P a (z.naming a))
    (q : Request) :
    Served owner P t q (q.serve owner t z).1 (q.serve owner t z).2.1 (q.serve owner t z).2.2 := by
  cases q with
  | managed k => exact serve_managed_spec ht hz k
  | native a => exact serve_native_spec ht hz hn a

theorem naming_serve (owner : Nat) (t : LocationTable) (z : Symbolizer) (q : Request) :
    (q.serve owner t z).2.2.naming = z.naming := by
  cases q with
  | managed k => rfl
  | native b => exact Symbolizer.naming_locate z owner t.profile b

@[simp] theorem symbols_serve (owner : Nat) (t : LocationTable) (z : Symbolizer) (q : Request) :
    (q.serve owner t z).2.2.symbols = z.symbols := by
  cases q with
  | managed k => rfl
  | native b => exact Symbolizer.symbols_locate z owner t.profile b

theorem lined_serve (ht : t.profile.Lined) (owner : Nat) (z : Symbolizer) (q : Request) :
    (q.serve owner t z).2.1.profile.Lined := by
  cases q with
  | managed k => exact LocationTable.lined_intern ht k
  | native a => exact Symbolizer.lined_locate ht z owner a

/-- The symbolizer has a name for the address of a native request. -/
def Known (z : Symbolizer) : Request → Prop
  | managed _ => True
  | native a => (z.names.get? a).isSome

theorem Known.of_names_eq {z' : Symbolizer} {q : Request} (h : q.Known z)
    (hn : z'.names = z.names) : q.Known z' := by
  cases q with
  | managed k => trivial
  | native a => rwa [Known, hn]

theorem names_serve_of_known {q : Request} (h : q.Known z) (owner : Nat) (t : LocationTable) :
    (q.serve owner t z).2.2.names = z.names := by
  cases q with
  | managed k => rfl
  | native a =>
      obtain ⟨n, hn⟩ := Option.isSome_iff_exists.1 h
      exact Symbolizer.names_locate_of_known hn owner t.profile

/-- Serving a builder may make it the owner of the symbolizer. -/
theorem owner_serve (owner : Nat) (t : LocationTable) (z : Symbolizer) (q : Request) :
    (q.serve owner t z).2.2.owner = z.owner ∨ (q.serve owner t z).2.2.owner = some owner := by
  cases q with
  | managed k => exact .inl rfl
  | native a => exact .inr (Symbolizer.owner_locate z owner t.profile a)

/-- Serving one builder hands out nothing that is remembered for another one. -/
theorem remembers_serve_of_ne {other : Nat} {p : Profile}
    (h : z.Remembers other p P) (hne : other ≠ owner) (t : LocationTable) (q : Request) :
    (q.serve owner t z).2.2.Remembers other p P := by
  cases q with
  | managed k => exact h
  | native a =>
      apply Symbolizer.remembers_of_owner_ne
      intro ho
      rw [serve, Symbolizer.owner_locate] at ho
      exact hne (Option.some.inj ho).symm

/-! ### Several requests -/

/-- What the location of a request shows, if addresses are named by `name`. -/
def view (name : Int → String) : Request → LocationView
  | managed k => k.view
  | native a => ⟨name a, "", 0, a⟩

theorem Shows.eq_view {q : Request} {v : LocationView} {name : Int → String} (h : q.Shows P v)
    (hP : ∀ a n, P a n → n = name a) : v = q.view name := by
  cases q with
  | managed k => exact h
  | native a =>
      obtain ⟨n, hn, rfl⟩ := h
      rw [hP a n hn, view]

/-- The outcome of several requests is sound, like that of one (`Served`). -/
structure ServedAll (owner : Nat) (P : Int → String → Prop) (t : LocationTable) (qs : List Request)
    (ids : List Int) (t' : LocationTable) (z' : Symbolizer) : Prop where
  sound : t'.Sound
  remembers : z'.Remembers owner t'.profile P
  grows : t.profile.Extends t'.profile
  samples : t'.profile.samples = t.profile.samples
  shown : ∀ id ∈ ids, (t'.profile.view? id).isSome = true
  views : ∀ name : Int → String, (∀ a n, P a n → n = name a) →
    ids.map t'.profile.view? = (qs.map (view name)).map some
  numbered : Numbered t.profile.locations.length ids t'.profile.locations.length

theorem serveAll_spec (ht : t.Sound) (hz : z.Remembers owner t.profile P)
    (hn : ∀ a, P a (z.naming a)) (qs : List Request) :
    ServedAll owner P t qs (serveAll owner t z qs).1 (serveAll owner t z qs).2.1
      (serveAll owner t z qs).2.2 := by
  induction qs generalizing t z with
  | nil => exact ⟨ht, hz, .refl _, rfl, by simp [serveAll], fun _ _ => rfl, .nil _⟩
  | cons q qs ih =>
      have h := serve_spec ht hz hn q
      have hs := ih h.sound h.remembers (by rwa [naming_serve])
      obtain ⟨v, hv, hview⟩ := h.view
      have hhead := hs.grows.view? ((h.sound.dense.view?_id h.mem).trans hview)
      refine ⟨hs.sound, hs.remembers, h.grows.trans hs.grows, hs.samples.trans h.samples, ?_, ?_,
        h.numbered.append hs.numbered⟩
      · intro id hid
        rcases List.mem_cons.1 hid with rfl | hid
        · exact Option.isSome_of_eq_some hhead
        · exact hs.shown id hid
      · intro name hP
        rw [hv.eq_view hP] at hhead
        simp only [serveAll, List.map_cons, hhead, hs.views name hP]

theorem naming_serveAll (owner : Nat) (t : LocationTable) (z : Symbolizer) (qs : List Request) :
    (serveAll owner t z qs).2.2.naming = z.naming := by
  induction qs generalizing t z with
  | nil => rfl
  | cons q qs ih => rw [serveAll, ih, naming_serve]

@[simp] theorem symbols_serveAll (owner : Nat) (t : LocationTable) (z : Symbolizer)
    (qs : List Request) : (serveAll owner t z qs).2.2.symbols = z.symbols := by
  induction qs generalizing t z with
  | nil => rfl
  | cons q qs ih => rw [serveAll, ih, symbols_serve]

theorem lined_serveAll (ht : t.profile.Lined) (owner : Nat) (z : Symbolizer) (qs : List Request) :
    (serveAll owner t z qs).2.1.profile.Lined := by
  induction qs generalizing t z with
  | nil => exact ht
  | cons q qs ih => exact ih (lined_serve ht owner z q) _

theorem names_serveAll_of_known {qs : List Request} (h : ∀ q ∈ qs, q.Known z) (owner : Nat)
    (t : LocationTable) : (serveAll owner t z qs).2.2.names = z.names := by
  induction qs generalizing t z with
  | nil => rfl
  | cons q qs ih =>
      have hq := names_serve_of_known (h q List.mem_cons_self) owner t
      have hqs : ∀ r ∈ qs, r.Known (q.serve owner t z).2.2 :=
        fun r hr => Known.of_names_eq (h r (List.mem_cons_of_mem q hr)) hq
      exact (ih hqs _).trans hq

theorem owner_serveAll (owner : Nat) (t : LocationTable) (z : Symbolizer) (qs : List Request) :
    (serveAll owner t z qs).2.2.owner = z.owner ∨
      (serveAll owner t z qs).2.2.owner = some owner := by
  induction qs generalizing t z with
  | nil => exact .inl rfl
  | cons q qs ih =>
      rw [serveAll]
      rcases ih (q.serve owner t z).2.1 (q.serve owner t z).2.2 with h | h
      · rw [h]
        exact owner_serve owner t z q
      · exact .inr h

theorem remembers_serveAll_of_ne {other : Nat} {p : Profile}
    (h : z.Remembers other p P) (hne : other ≠ owner) (t : LocationTable) (qs : List Request) :
    (serveAll owner t z qs).2.2.Remembers other p P := by
  induction qs generalizing t z with
  | nil => exact h
  | cons q qs ih => exact ih (remembers_serve_of_ne h hne t q) _

end Request

end StackProfile
