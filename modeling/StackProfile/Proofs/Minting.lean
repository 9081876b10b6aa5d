import StackProfile.Proofs.BuilderView

/-! # The locations that requests mint

As long as a symbolizer serves a single builder, it forgets none of its locations.  Then every
request mints its location the first time, and is served with the same one from then on: the
locations of the profile are those of the distinct requests, in the order in which these were made
first.

Main lemmas: one request (`Minted.serve`), a capture, whose requests may be counted also if its
trace was known (`Folded.addCapture`), and the captures of a batch (`Folded.addCaptures`). -/

namespace StackProfile

section eraseDups

variable {α : Type} [BEq α] [LawfulBEq α] {l : List α} {a : α}

theorem eraseDups_concat_of_mem (h : a ∈ l) : (l ++ [a]).eraseDups = l.eraseDups := by
  simp [List.eraseDups_append, List.removeAll, h]

theorem eraseDups_concat_of_notMem (h : a ∉ l) : (l ++ [a]).eraseDups = l.eraseDups ++ [a] := by
  simp [List.eraseDups_append, List.removeAll, List.eraseDups_cons, h]

end eraseDups

namespace Profile

variable {p : Profile}

/-- Locations that all show something. -/
theorem exists_viewOf? {vs : List LocationView} (h : p.locations.map p.viewOf? = vs.map some)
    {l : Location} (hl : l ∈ p.locations) : ∃ v, p.viewOf? l = some v := by
  have hmem : p.viewOf? l ∈ vs.map some := h ▸ List.mem_map_of_mem hl
  obtain ⟨v, -, hv⟩ := List.mem_map.1 hmem
  exact ⟨v, hv.symm⟩

theorem map_viewOf?_mint (h : p.Dense) {vs : List LocationView}
    (hvs : p.locations.map p.viewOf? = vs.map some) (k : FunctionKey) (line address : Int) :
    (p.mint k line address).2.locations.map (p.mint k line address).2.viewOf? =
      vs.map some ++ [some ⟨k.name, k.fileName, line, address⟩] := by
  have hold : p.locations.map (p.mint k line address).2.viewOf? = p.locations.map p.viewOf? := by
    apply List.map_congr_left
    intro l hl
    obtain ⟨v, hv⟩ := exists_viewOf? hvs hl
    rw [hv, (p.extends_mint k line address).viewOf? hv]
  rw [locations_mint, List.map_append, hold, hvs, List.map_singleton, viewOf?_mint k line address h]

theorem mem_functionKeys_mint (p : Profile) (k : FunctionKey) (line address : Int)
    (k' : FunctionKey) :
    k' ∈ (p.mint k line address).2.functions.map (·.key) ↔
      k' ∈ p.functions.map (·.key) ∨ k' = k := by
  rw [functions_mint, functions_internFunction]
  split
  · rename_i hany
    obtain ⟨f, hf, hk⟩ := List.any_eq_true.1 hany
    have hmem : k ∈ p.functions.map (·.key) := List.mem_map.2 ⟨f, hf, by simpa using hk⟩
    constructor
    · exact .inl
    · rintro (h | rfl)
      · exact h
      · exact hmem
  · simp

end Profile

namespace Request

/-- The function of the location of a request, if addresses are named by `name`. -/
def functionKey (name : Int → String) : Request → FunctionKey
  | managed k => k.functionKey
  | native a => { name := name a }

/-- The tables of the builder `owner` and what the symbolizer remembers for it are those of the
distinct requests. -/
structure Minted (owner : Nat) (name : Int → String) (t : LocationTable) (z : Symbolizer)
    (qs : List Request) : Prop where
  views : t.profile.locations.map t.profile.viewOf? = (qs.eraseDups.map (view name)).map some
  functions : ∀ k, k ∈ t.profile.functions.map (·.key) ↔ ∃ q ∈ qs, q.functionKey name = k
  interned : ∀ k, (t.interned.get? k).isSome = true ↔ .managed k ∈ qs
  located : ∀ a, ((z.ownedBy owner).locations.get? a).isSome = true ↔ .native a ∈ qs

namespace Minted

variable {owner : Nat} {name : Int → String} {t t' : LocationTable} {z z' : Symbolizer}
  {qs rs : List Request} {q : Request}

/-- A request that was made before changes nothing. -/
theorem known (h : Minted owner name t z qs) (hq : q ∈ qs) :
    Minted owner name t z (qs ++ [q]) := by
  have hmem : ∀ r, r ∈ qs ++ [q] ↔ r ∈ qs := by
    intro r
    rw [List.mem_append, List.mem_singleton]
    constructor
    · rintro (h | rfl)
      · exact h
      · exact hq
    · exact .inl
  refine ⟨?_, ?_, ?_, ?_⟩
  · rw [eraseDups_concat_of_mem hq]
    exact h.views
  · intro k
    simp only [hmem]
    exact h.functions k
  · intro k
    rw [hmem]
    exact h.interned k
  · intro a
    rw [hmem]
    exact h.located a

/-- A request that was not made before mints its location. -/
theorem fresh (h : Minted owner name t z qs) (hd : t.profile.Dense) (hq : q ∉ qs)
    {line address : Int}
    (hview : q.view name =
      ⟨(q.functionKey name).name, (q.functionKey name).fileName, line, address⟩)
    (hprofile : t'.profile = (t.profile.mint (q.functionKey name) line address).2)
    (hinterned : ∀ k, (t'.interned.get? k).isSome = true ↔
      (t.interned.get? k).isSome = true ∨ .managed k = q)
    (hlocated : ∀ a, ((z'.ownedBy owner).locations.get? a).isSome = true ↔
      ((z.ownedBy owner).locations.get? a).isSome = true ∨ .native a = q) :
    Minted owner name t' z' (qs ++ [q]) := by
  refine ⟨?_, ?_, ?_, ?_⟩
  · rw [hprofile, Profile.map_viewOf?_mint hd h.views, ← hview, eraseDups_concat_of_notMem hq]
    simp
  · intro k
    rw [hprofile, Profile.mem_functionKeys_mint, h.functions]
    simp [or_and_right, exists_or, eq_comm]
  · intro k
    rw [hinterned, h.interned, List.mem_append, List.mem_singleton]
  · intro a
    rw [hlocated, h.located, List.mem_append, List.mem_singleton]

theorem serve (h : Minted owner name t z qs) (hd : t.profile.Dense) (hn : z.naming = name)
    (q : Request) :
    Minted owner name (q.serve owner t z).2.1 (q.serve owner t z).2.2 (qs ++ [q]) := by
  cases q with
  | managed k =>
      rw [Request.serve]
      cases hk : t.interned.get? k with
      | some l =>
          rw [LocationTable.intern_of_known hk]
          exact h.known ((h.interned k).1 (by rw [hk]; rfl))
      | none =>
          have hq : .managed k ∉ qs := by
            rw [← h.interned, hk]
            exact Bool.false_ne_true
          rw [LocationTable.intern_of_fresh hk]
          refine h.fresh hd hq rfl rfl ?_ ?_
          · intro j
            rw [Registry.get?_insert]
            by_cases hj : j = k <;> simp [hj]
          · simp
  | native a =>
      rw [Request.serve]
      cases ha : (z.ownedBy owner).locations.get? a with
      | some l =>
          have hq : .native a ∈ qs := (h.located a).1 (by rw [ha]; rfl)
          have hknown := h.known hq
          rw [Symbolizer.locate_of_cached ha]
          refine ⟨hknown.views, hknown.functions, hknown.interned, ?_⟩
          rw [Symbolizer.ownedBy_of_owner (Symbolizer.owner_ownedBy z owner)]
          exact hknown.located
      | none =>
          have hq : .native a ∉ qs := by
            rw [← h.located, ha]
            exact Bool.false_ne_true
          rw [Symbolizer.locate_of_fresh ha]
          subst hn
          refine h.fresh hd hq rfl rfl (by simp) ?_
          intro b
          rw [Symbolizer.ownedBy_of_owner (by simp), Registry.get?_insert]
          by_cases hb : b = a <;> simp [hb]

theorem serveAll (h : Minted owner name t z qs) (ht : t.Sound)
    (hz : z.Remembers owner t.profile fun a n => n = name a) (hn : z.naming = name)
    (rs : List Request) :
    let s := Request.serveAll owner t z rs
    Minted owner name s.2.1 s.2.2 (qs ++ rs) := by
  induction rs generalizing t z qs with
  | nil =>
      rw [List.append_nil]
      exact h
  | cons r rs ih =>
      have hs := serve_spec ht hz (fun a => congrFun hn a) r
      have hstep := ih (h.serve ht.dense hn r) hs.sound hs.remembers
        (by rw [naming_serve, hn])
      rw [List.append_assoc] at hstep
      exact hstep

theorem renamed (h : Minted owner name t z qs) (hren : z.Renamed z') :
    Minted owner name t z' qs := by
  refine ⟨h.views, h.functions, h.interned, ?_⟩
  intro a
  rw [← h.located a]
  unfold Symbolizer.ownedBy
  rw [hren.owner]
  split
  · rw [hren.locations]
  · rfl

/-- Requests that were made before change nothing. -/
theorem known_all (h : Minted owner name t z qs) (hrs : ∀ r ∈ rs, r ∈ qs) :
    Minted owner name t z (qs ++ rs) := by
  induction rs generalizing qs with
  | nil =>
      rw [List.append_nil]
      exact h
  | cons r rs ih =>
      have hstep := ih (h.known (hrs r List.mem_cons_self)) fun r' hr' =>
        List.mem_append_left _ (hrs r' (List.mem_cons_of_mem r hr'))
      rw [List.append_assoc] at hstep
      exact hstep

end Minted

end Request

namespace Builder

/-- The builder was the only one that the symbolizer has served, and the requests `qs` were made for
it, among them those of all traces that it knows. -/
structure Folded (name : Int → String) (methods : MethodTable) (b : Builder) (z : Symbolizer)
    (qs : List Request) : Prop where
  minted : Request.Minted b.id name b.table z qs
  known : ∀ t, (b.index.sample? t).isSome = true → ∀ q ∈ t.requests name b.plan.skip methods, q ∈ qs

variable {name : Int → String} {methods : MethodTable} {b : Builder} {z z' : Symbolizer}
  {qs : List Request}

theorem Folded.renamed (h : Folded name methods b z qs) (hren : z.Renamed z') :
    Folded name methods b z' qs :=
  ⟨h.minted.renamed hren, h.known⟩

theorem folded_ofPlan (name : Int → String) (methods : MethodTable) (id : Nat) (plan : Plan)
    (hz : z.owner = none) : Folded name methods (.ofPlan id plan) z [] := by
  have hforgets : (z.ownedBy id).locations = .empty := by
    rw [Symbolizer.ownedBy, hz]
    rfl
  refine ⟨⟨rfl, ?_, ?_, ?_⟩, ?_⟩
  · simp [ofPlan]
  · simp [ofPlan]
  · simp [ofPlan, hforgets]
  · simp [ofPlan, SampleIndex.sample?]

/-- A capture makes the requests of its trace; if the trace was known, they were made before. -/
theorem Folded.addCapture (h : Folded name methods b z qs) (hb : b.ServedBy z name)
    {c : Capture × Int} (hc : ∀ f ∈ c.1.trace, f.KnownTo z) :
    let s := Builder.addCapture methods (b, z) c
    Folded name methods s.1 s.2 (qs ++ c.1.trace.requests name b.plan.skip methods) := by
  obtain ⟨c, count⟩ := c
  cases hi : b.index.sample? c.trace with
  | some j =>
      have hminted := h.minted.known_all (h.known c.trace (by rw [hi]; rfl))
      rw [addCapture_of_known hi]
      refine ⟨⟨hminted.views, hminted.functions, hminted.interned, hminted.located⟩, ?_⟩
      exact fun t ht q hq => List.mem_append_left _ (h.known t ht q hq)
  | none =>
      have hminted := h.minted.serveAll hb.sound.table hb.remembers hb.naming
        (c.trace.requests name b.plan.skip methods)
      rw [addCapture_of_fresh hi hc, hb.naming]
      refine ⟨⟨hminted.views, hminted.functions, hminted.interned, hminted.located⟩, ?_⟩
      intro t ht q hq
      by_cases hkey : t.key = c.trace.key
      · rw [Trace.key_injective hkey] at hq
        exact List.mem_append_right _ hq
      · have hold : (b.index.put c.trace b.samples.length).sample? t = b.index.sample? t :=
          Registry.get?_insert_of_ne _ hkey _
        exact List.mem_append_left _ (h.known t (hold ▸ ht) q hq)

theorem Folded.addCaptures (h : Folded name methods b z qs) (hb : b.ServedBy z name)
    {cs : List (Capture × Int)} (hcs : ∀ c ∈ cs, ∀ f ∈ c.1.trace, f.KnownTo z) :
    let s := Builder.addCaptures methods (b, z) cs
    Folded name methods s.1 s.2
      (qs ++ cs.flatMap fun c => c.1.trace.requests name b.plan.skip methods) := by
  induction cs generalizing b z qs with
  | nil =>
      rw [List.flatMap_nil, List.append_nil]
      exact h
  | cons c cs ih =>
      have hc := hcs c List.mem_cons_self
      obtain ⟨hadv, -⟩ := addCapture_spec hb.sound hb.remembers (fun a => congrFun hb.naming a)
        methods hc c.2
      have hstep := ih (h.addCapture hb hc) (hb.advances hadv) (knownTo_addCapture hcs b methods)
      rw [plan_addCapture, List.append_assoc] at hstep
      exact hstep

end Builder

end StackProfile
