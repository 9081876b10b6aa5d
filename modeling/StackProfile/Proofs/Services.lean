import StackProfile.Proofs.Addresses
import StackProfile.Proofs.ProfileTables

/-! # What a builder was served

The locations of a profile come from two sides: labels are interned by the builder, and addresses
are located by symbolizers, which remember the location for as long as they belong to the builder.
Neither side knows of the other; both append to the same table.  A log of the requests that were
served, each with the identifier of the location it was answered with, tells the two sides apart.

Main lemmas: one request (`Request.records_serve`) and several (`Request.records_serveAll`) keep
tables and log in agreement, and so do the captures of a batch (`Builder.stacked_addCaptures`),
whose services are read off the new samples. -/

namespace StackProfile

/-- A request that was served, and the identifier of its location. -/
abbrev Service := Request × Int

/-- The location `id` was made for the label `k`, in the function `f`. -/
structure Profile.MadeFor (p : Profile) (k : FrameLabel) (id : Int) (f : FunctionEntry) : Prop where
  location : p.location? id = some ⟨id, [⟨f.id, k.line⟩], 0⟩
  function : p.function? f.id = some f
  key : f.key = ⟨k.functionName, "", k.fileName, 0⟩

namespace Profile

variable {p q : Profile} {k k' : FrameLabel} {id id' : Int} {f f' : FunctionEntry}

theorem MadeFor.grow (h : p.MadeFor k id f) (hl : p.locations <+: q.locations)
    (hf : p.functions <+: q.functions) : q.MadeFor k id f where
  location := entryAt?_of_prefix hl h.location
  function := entryAt?_of_prefix hf h.function
  key := h.key

theorem MadeFor.id_le (h : p.MadeFor k id f) : id ≤ p.locations.length :=
  (entryAt?_eq_some h.location).2.1

/-- Functions are shared by the labels that agree in function and file. -/
theorem MadeFor.functionId_eq_iff (h : p.MadeFor k id f) (h' : p.MadeFor k' id' f')
    (hp : p.Tabled) :
    f.id = f'.id ↔ k.functionName = k'.functionName ∧ k.fileName = k'.fileName := by
  constructor
  · intro he
    have hf : some f = some f' := by rw [← h.function, he, h'.function]
    have hkey := h.key
    rw [Option.some.inj hf, h'.key] at hkey
    simp only [FunctionKey.mk.injEq] at hkey
    exact ⟨hkey.1.symm, hkey.2.2.1.symm⟩
  · rintro ⟨hname, hfile⟩
    have hkey : f.key = f'.key := by rw [h.key, h'.key, hname, hfile]
    have hf := ((entryAt?_eq_some_iff hp.functionIds).1 h.function).1
    have hf' := ((entryAt?_eq_some_iff hp.functionIds).1 h'.function).1
    rw [List.inj_on_of_nodup_map hp.functionKeys hf hf' hkey]

theorem Tabled.mint (h : p.Tabled) (key : FunctionKey) (line address : Int) :
    (p.mint key line address).2.Tabled :=
  (h.internFunction key).pushLocation _ _

theorem location?_mint (p : Profile) (key : FunctionKey) (line address : Int) :
    (p.mint key line address).2.location? (p.mint key line address).1.id =
      some (p.mint key line address).1 := by
  rw [location?, locations_mint, id_mint, entryAt?_succ, List.getElem?_concat_length]

/-- A location that is minted for a label. -/
theorem Tabled.madeFor_mint (h : p.Tabled) (k : FrameLabel) :
    ∃ f, (p.mint k.functionKey k.line 0).2.MadeFor k (p.mint k.functionKey k.line 0).1.id f :=
  ⟨⟨_, k.functionKey⟩, p.location?_mint k.functionKey k.line 0,
    h.function?_internFunction k.functionKey, rfl⟩

end Profile

namespace Symbolizer

/-- The locations that the symbolizer holds for the builder `i` are in the log. -/
def Holds (z : Symbolizer) (i : Nat) (r : List Service) : Prop :=
  z.owner = some i → ∀ a l, z.locations.get? a = some l → (.native a, l.id) ∈ r

variable {z z' : Symbolizer} {i : Nat} {r : List Service}

theorem holds_of_owner_ne (h : z.owner ≠ some i) : z.Holds i r := fun ho => absurd ho h

theorem Holds.append (h : z.Holds i r) (new : List Service) : z.Holds i (r ++ new) :=
  fun ho a l hl => List.mem_append_left new (h ho a l hl)

theorem Holds.learns (h : z.Holds i r) (hl : z.Learns z') : z'.Holds i r := by
  unfold Holds
  rw [hl.owner, hl.locations]
  exact h

theorem Holds.ownedBy (h : z.Holds i r) {a : Int} {l : Location}
    (hl : (z.ownedBy i).locations.get? a = some l) : (.native a, l.id) ∈ r := by
  unfold Symbolizer.ownedBy at hl
  split at hl
  · exact h (by assumption) a l hl
  · simp at hl

/-- Another owner makes a symbolizer hold less. -/
theorem Holds.ofOwner (h : z.Holds i r) (j : Nat) : (z.ownedBy j).Holds i r := by
  intro ho a l hl
  rw [owner_ownedBy] at ho
  obtain rfl := Option.some.inj ho
  exact h.ownedBy hl

end Symbolizer

namespace LocationTable

/-- The tables agree with the log: labels have locations of their own, which were made for them and
never for an address, and no location with a line is there that was not asked for. -/
structure Records (t : LocationTable) (r : List Service) : Prop where
  tabled : t.profile.Tabled
  made : ∀ k l, t.interned.get? k = some l → ∃ f, t.profile.MadeFor k l.id f
  distinct : ∀ k l, t.interned.get? k = some l → ∀ k' l', t.interned.get? k' = some l' →
    l.id = l'.id → k = k'
  managed : ∀ k id, (.managed k, id) ∈ r → ∃ l, t.interned.get? k = some l ∧ l.id = id
  native : ∀ a id, (.native a, id) ∈ r → id ≤ t.profile.locations.length ∧
    ∀ k l, t.interned.get? k = some l → l.id ≠ id
  complete : ∀ l ∈ t.profile.locations, l.lines ≠ [] → ∃ q, (q, l.id) ∈ r

variable {t : LocationTable} {r : List Service}

/-- Samples do not matter. -/
theorem Records.withProfile (h : t.Records r) {p : Profile}
    (hl : p.locations = t.profile.locations) (hf : p.functions = t.profile.functions) :
    Records { t with profile := p } r where
  tabled := h.tabled.of_eq (congrArg (List.map (·.id)) hl) hf
  made k l hk := by
    obtain ⟨f, hf'⟩ := h.made k l hk
    exact ⟨f, hf'.grow (hl ▸ List.prefix_refl _) (hf ▸ List.prefix_refl _)⟩
  distinct := h.distinct
  managed := h.managed
  native := by
    rw [hl]
    exact h.native
  complete := by
    rw [hl]
    exact h.complete

/-- An identifier of an interned location is not the next one. -/
theorem Records.id_ne_next (h : t.Records r) {k : FrameLabel} {l : Location}
    (hk : t.interned.get? k = some l) : l.id ≠ (t.profile.locations.length : Int) + 1 := by
  obtain ⟨f, hf⟩ := h.made k l hk
  have := hf.id_le
  omega

/-- A location that is interned answers its label. -/
theorem Records.known (h : t.Records r) {k : FrameLabel} {l : Location}
    (hk : t.interned.get? k = some l) : t.Records (r ++ [(.managed k, l.id)]) where
  tabled := h.tabled
  made := h.made
  distinct := h.distinct
  managed j id hj := by
    rcases List.mem_append.1 hj with hj | hj
    · exact h.managed j id hj
    · obtain ⟨rfl, rfl⟩ : j = k ∧ id = l.id := by simpa using hj
      exact ⟨l, hk, rfl⟩
  native a id ha := h.native a id (by simpa using ha)
  complete m hm hne := by
    obtain ⟨q, hq⟩ := h.complete m hm hne
    exact ⟨q, List.mem_append_left _ hq⟩

/-- A service that is in the log already. -/
theorem Records.again (h : t.Records r) {x : Service} (hx : x ∈ r) : t.Records (r ++ [x]) := by
  have hmem : ∀ y, y ∈ r ++ [x] ↔ y ∈ r := by
    intro y
    rw [List.mem_append, List.mem_singleton]
    constructor
    · rintro (hy | rfl)
      · exact hy
      · exact hx
    · exact .inl
  refine ⟨h.tabled, h.made, h.distinct, ?_, ?_, ?_⟩
  · exact fun k id hk => h.managed k id ((hmem _).1 hk)
  · exact fun a id ha => h.native a id ((hmem _).1 ha)
  · intro l hl hne
    obtain ⟨q, hq⟩ := h.complete l hl hne
    exact ⟨q, (hmem _).2 hq⟩

/-- The table is complete after a location was minted for a request. -/
theorem Records.complete_mint (h : t.Records r) (q : Request) (key : FunctionKey)
    (line address : Int) :
    let s := t.profile.mint key line address
    ∀ l ∈ s.2.locations, l.lines ≠ [] → ∃ q', (q', l.id) ∈ r ++ [(q, s.1.id)] := by
  intro s l hl hne
  rw [Profile.locations_mint, List.mem_append, List.mem_singleton] at hl
  rcases hl with hl | rfl
  · obtain ⟨q', hq⟩ := h.complete l hl hne
    exact ⟨q', List.mem_append_left _ hq⟩
  · exact ⟨q, List.mem_append_right _ (List.mem_singleton_self _)⟩

/-- A location that is minted for a label. -/
theorem Records.mint_managed (h : t.Records r) {k : FrameLabel} (hk : t.interned.get? k = none) :
    let s := t.profile.mint k.functionKey k.line 0
    Records ⟨s.2, t.interned.insert k s.1⟩ (r ++ [(.managed k, s.1.id)]) := by
  intro s
  have hg : t.profile.Extends s.2 := t.profile.extends_mint _ _ _
  have hnew : s.1.id = (t.profile.locations.length : Int) + 1 := Profile.id_mint _ _ _ _
  refine ⟨h.tabled.mint _ _ _, ?_, ?_, ?_, ?_, h.complete_mint _ _ _ _⟩
  · intro j l hj
    rw [Registry.get?_insert] at hj
    split at hj
    · rename_i hjk
      obtain rfl := Option.some.inj hj
      rw [hjk]
      exact h.tabled.madeFor_mint k
    · obtain ⟨f, hf⟩ := h.made j l hj
      exact ⟨f, hf.grow hg.locations hg.functions⟩
  · intro j l hj j' l' hj' hid
    rw [Registry.get?_insert] at hj hj'
    split at hj <;> split at hj'
    · rename_i hjk hjk'
      rw [hjk, hjk']
    · obtain rfl := Option.some.inj hj
      exact absurd (hid.symm.trans hnew) (h.id_ne_next hj')
    · obtain rfl := Option.some.inj hj'
      exact absurd (hid.trans hnew) (h.id_ne_next hj)
    · exact h.distinct j l hj j' l' hj' hid
  · intro j id hj
    rcases List.mem_append.1 hj with hj | hj
    · obtain ⟨l, hl, hid⟩ := h.managed j id hj
      have hne : j ≠ k := by
        rintro rfl
        simp [hk] at hl
      exact ⟨l, (Registry.get?_insert_of_ne _ hne _).trans hl, hid⟩
    · obtain ⟨rfl, rfl⟩ : j = k ∧ id = s.1.id := by simpa using hj
      exact ⟨s.1, Registry.get?_insert_self _ _ _, rfl⟩
  · intro a id ha
    obtain ⟨hle, hne⟩ := h.native a id (by simpa using ha)
    refine ⟨Int.le_trans hle (by exact_mod_cast hg.locations.length_le), ?_⟩
    intro j l hj
    rw [Registry.get?_insert] at hj
    split at hj
    · obtain rfl := Option.some.inj hj
      omega
    · exact hne j l hj

/-- A location that is minted for an address. -/
theorem Records.mint_native (h : t.Records r) (a : Int) (key : FunctionKey) (line address : Int) :
    let s := t.profile.mint key line address
    Records { t with profile := s.2 } (r ++ [(.native a, s.1.id)]) := by
  intro s
  have hg : t.profile.Extends s.2 := t.profile.extends_mint _ _ _
  have hnew : s.1.id = (t.profile.locations.length : Int) + 1 := Profile.id_mint _ _ _ _
  have hlen : s.2.locations.length = t.profile.locations.length + 1 := by
    rw [Profile.locations_mint, List.length_append, List.length_singleton]
  refine ⟨h.tabled.mint _ _ _, ?_, h.distinct, ?_, ?_, h.complete_mint _ _ _ _⟩
  · intro k l hk
    obtain ⟨f, hf⟩ := h.made k l hk
    exact ⟨f, hf.grow hg.locations hg.functions⟩
  · intro k id hk
    exact h.managed k id (by simpa using hk)
  · intro b id hb
    rw [hlen]
    rcases List.mem_append.1 hb with hb | hb
    · obtain ⟨hle, hne⟩ := h.native b id hb
      exact ⟨by omega, hne⟩
    · obtain ⟨-, rfl⟩ := Prod.mk.inj (List.mem_singleton.1 hb)
      exact ⟨by omega, fun k l hk he => h.id_ne_next hk (he.trans hnew)⟩

/-- A location without lines answers nothing. -/
theorem Records.pushLineless (h : t.Records r) :
    Records { t with profile := (t.profile.pushLocation [] 0).2 } r where
  tabled := h.tabled.pushLocation _ _
  made k l hk := by
    obtain ⟨f, hf⟩ := h.made k l hk
    exact ⟨f, hf.grow (List.prefix_append _ _) (List.prefix_refl _)⟩
  distinct := h.distinct
  managed := h.managed
  native a id ha := by
    obtain ⟨hle, hne⟩ := h.native a id ha
    refine ⟨?_, hne⟩
    rw [Profile.locations_pushLocation, List.length_append, List.length_singleton]
    omega
  complete l hl hne := by
    rw [Profile.locations_pushLocation, List.mem_append, List.mem_singleton] at hl
    rcases hl with hl | rfl
    · exact h.complete l hl hne
    · exact absurd rfl hne

/-- Interning a label serves it. -/
theorem Records.intern (h : t.Records r) (k : FrameLabel) :
    (t.intern k).2.Records (r ++ [(.managed k, (t.intern k).1.id)]) := by
  cases hk : t.interned.get? k with
  | some l =>
      rw [intern_of_known hk]
      exact h.known hk
  | none =>
      rw [intern_of_fresh hk]
      exact h.mint_managed hk

end LocationTable

namespace Request

variable {t : LocationTable} {z : Symbolizer} {r : List Service} {i : Nat}

/-- Serving a request keeps tables, symbolizer and log in agreement. -/
theorem records_serve (h : t.Records r) (hz : z.Holds i r) (q : Request) :
    let s := q.serve i t z
    s.2.1.Records (r ++ [(q, s.1.id)]) ∧ s.2.2.Holds i (r ++ [(q, s.1.id)]) := by
  cases q with
  | managed k => exact ⟨h.intern k, hz.append _⟩
  | native a =>
      rw [serve]
      cases ha : (z.ownedBy i).locations.get? a with
      | some l =>
          rw [Symbolizer.locate_of_cached ha]
          refine ⟨h.again (hz.ownedBy ha), ?_⟩
          intro _ b m hm
          exact List.mem_append_left _ (hz.ownedBy hm)
      | none =>
          rw [Symbolizer.locate_of_fresh ha]
          refine ⟨h.mint_native a _ _ _, ?_⟩
          intro _ b m hm
          rw [Registry.get?_insert] at hm
          split at hm
          · rename_i hb
            obtain rfl := Option.some.inj hm
            rw [hb]
            exact List.mem_append_right _ (List.mem_singleton_self _)
          · exact List.mem_append_left _ (hz.ownedBy hm)

/-- So does serving requests one after the other. -/
theorem records_serveAll (h : t.Records r) (hz : z.Holds i r) (qs : List Request) :
    let s := serveAll i t z qs
    s.2.1.Records (r ++ qs.zip s.1) ∧ s.2.2.Holds i (r ++ qs.zip s.1) := by
  induction qs generalizing t z r with
  | nil =>
      refine ⟨?_, hz.append _⟩
      rw [List.zip_nil_left, List.append_nil]
      exact h
  | cons q qs ih =>
      obtain ⟨hserve, hholds⟩ := records_serve h hz q
      have hrest := ih hserve hholds
      simp only [List.append_assoc, List.singleton_append] at hrest
      exact hrest

/-- Serving one builder adds nothing to what is held for another one. -/
theorem holds_serveAll_of_ne {j : Nat} (h : z.Holds j r) (hne : j ≠ i) (t : LocationTable)
    (qs : List Request) : (serveAll i t z qs).2.2.Holds j r := by
  induction qs generalizing t z with
  | nil => exact h
  | cons q qs ih =>
      refine ih ?_ _
      cases q with
      | managed k => exact h
      | native a =>
          apply Symbolizer.holds_of_owner_ne
          have howner := z.owner_locate i t.profile a
          exact fun ho => hne (Option.some.inj (howner.symm.trans ho)).symm

theorem samples_serveAll (i : Nat) (t : LocationTable) (z : Symbolizer) (qs : List Request) :
    (serveAll i t z qs).2.1.profile.samples = t.profile.samples := by
  induction qs generalizing t z with
  | nil => rfl
  | cons q qs ih =>
      refine (ih _ _).trans ?_
      cases q with
      | managed k => exact t.samples_intern k
      | native a => exact z.samples_locate i t.profile a

end Request

namespace Builder

/-! ### New stacks -/

/-- The stacks of the samples. -/
def stackIds (b : Builder) : List (List Int) := b.samples.map (·.locationIds)

/-- The requests for stacks, each with the identifier that its stack has in its place. -/
def stackServices (qss : List (List Request)) (idss : List (List Int)) : List Service :=
  (qss.zip idss).flatMap fun x => x.1.zip x.2

/-- The requests for the new stacks that `b'` has over `b`, with the identifiers of their
locations. -/
def served (b b' : Builder) (qss : List (List Request)) : List Service :=
  stackServices qss (b'.stackIds.drop b.stackIds.length)

/-- The requests that a batch makes for each of its new traces. -/
def requests (b : Builder) (name : Int → String) (methods : MethodTable) (batch : List Capture) :
    List (List Request) :=
  (newTraces b.index.keys batch).map fun t => t.requests name b.plan.skip methods

variable {b : Builder} {z : Symbolizer} {r : List Service}

@[simp] theorem stackServices_nil (idss : List (List Int)) : stackServices [] idss = [] := rfl

@[simp] theorem stackServices_singleton (qs : List Request) (ids : List Int) :
    stackServices [qs] [ids] = qs.zip ids :=
  List.append_nil _

theorem stackServices_append {qss qss' : List (List Request)} {idss idss' : List (List Int)}
    (h : qss.length = idss.length) :
    stackServices (qss ++ qss') (idss ++ idss') =
      stackServices qss idss ++ stackServices qss' idss' := by
  rw [stackServices, List.zip_append h, List.flatMap_append]
  rfl

theorem served_of_stackIds {b' : Builder} {idss : List (List Int)}
    (h : b'.stackIds = b.stackIds ++ idss) (qss : List (List Request)) :
    b.served b' qss = stackServices qss idss := by
  rw [served, h, List.drop_left]

theorem requests_singleton (b : Builder) (name : Int → String) (methods : MethodTable)
    (c : Capture) :
    b.requests name methods [c] =
      if (b.index.sample? c.trace).isSome then []
      else [c.trace.requests name b.plan.skip methods] := by
  rw [requests, newTraces, contains_keys_index]
  split <;> rfl

/-- The requests for the first capture come first. -/
theorem requests_cons (b : Builder) (name : Int → String) (methods : MethodTable) (z : Symbolizer)
    (c : Capture × Int) (cs : List Capture) :
    b.requests name methods (c.1 :: cs) =
      b.requests name methods [c.1] ++
        (addCapture methods (b, z) c).1.requests name methods cs := by
  rw [requests_singleton, requests, requests, newTraces_cons b methods z, List.map_append,
    plan_addCapture]
  split <;> rfl

/-- The builder `b` was served the requests `qss` on top of what the log says, and has the stacks
`idss` of their locations on top of its own. -/
structure Stacked (b : Builder) (r : List Service) (qss : List (List Request))
    (idss : List (List Int)) (s : Builder × Symbolizer) : Prop where
  ids : s.1.stackIds = b.stackIds ++ idss
  length : qss.length = idss.length
  records : s.1.table.Records (r ++ stackServices qss idss)
  holds : s.2.Holds b.id (r ++ stackServices qss idss)

theorem stacked_nil (h : b.table.Records r) (hz : z.Holds b.id r) : b.Stacked r [] [] (b, z) where
  ids := (List.append_nil _).symm
  length := rfl
  records := by
    rw [stackServices_nil, List.append_nil]
    exact h
  holds := hz.append _

theorem Stacked.append {qss qss' : List (List Request)} {idss idss' : List (List Int)}
    {s s' : Builder × Symbolizer} (h : b.Stacked r qss idss s) (hid : s.1.id = b.id)
    (h' : s.1.Stacked (r ++ stackServices qss idss) qss' idss' s') :
    b.Stacked r (qss ++ qss') (idss ++ idss') s' := by
  have hservices : r ++ stackServices (qss ++ qss') (idss ++ idss') =
      r ++ stackServices qss idss ++ stackServices qss' idss' := by
    rw [stackServices_append h.length, List.append_assoc]
  refine ⟨?_, ?_, ?_, ?_⟩
  · rw [h'.ids, h.ids, List.append_assoc]
  · rw [List.length_append, List.length_append, h.length, h'.length]
  · rw [hservices]
    exact h'.records
  · rw [hservices, ← hid]
    exact h'.holds

/-- A capture adds the stack that was served, or none. -/
theorem stacked_addCapture (h : b.table.Records r) (hz : z.Holds b.id r) (methods : MethodTable)
    {c : Capture} (hc : ∀ f ∈ c.trace, f.KnownTo z) (count : Int) :
    ∃ idss, b.Stacked r (b.requests z.naming methods [c]) idss
      (addCapture methods (b, z) (c, count)) := by
  cases hk : b.index.sample? c.trace with
  | some i =>
      have hqss : b.requests z.naming methods [c] = [] := by
        rw [requests_singleton, hk]
        rfl
      rw [addCapture_of_known hk, hqss]
      have hnil := stacked_nil h hz
      refine ⟨[], ?_, rfl, hnil.records.withProfile rfl rfl, hnil.holds⟩
      rw [List.append_nil]
      exact map_modify_accumulate _ (fun _ _ _ => rfl) _ _ _ _
  | none =>
      have hqss : b.requests z.naming methods [c] =
          [c.trace.requests z.naming b.plan.skip methods] := by
        rw [requests_singleton, hk]
        rfl
      rw [addCapture_of_fresh hk hc, hqss]
      generalize c.trace.requests z.naming b.plan.skip methods = qs
      obtain ⟨hrecords, hholds⟩ := Request.records_serveAll h hz qs
      refine ⟨[(Request.serveAll b.id b.table z qs).1], ?_, rfl, ?_, ?_⟩
      · simp only [stackIds, samples, profile, Profile.pushSample, Request.samples_serveAll,
          List.map_append, List.map_singleton]
      · rw [stackServices_singleton]
        exact hrecords.withProfile rfl rfl
      · rw [stackServices_singleton]
        exact hholds

/-- Captures add the stacks that were served. -/
theorem stacked_addCaptures (h : b.table.Records r) (hz : z.Holds b.id r) (methods : MethodTable)
    {cs : List (Capture × Int)} (hcs : ∀ c ∈ cs, ∀ f ∈ c.1.trace, f.KnownTo z) :
    ∃ idss, b.Stacked r (b.requests z.naming methods (cs.map (·.1))) idss
      (addCaptures methods (b, z) cs) := by
  induction cs generalizing b z r with
  | nil => exact ⟨[], stacked_nil h hz⟩
  | cons c cs ih =>
      have hc := hcs c List.mem_cons_self
      obtain ⟨idss, hfirst⟩ := stacked_addCapture h hz methods hc c.2
      have hholds := hfirst.holds
      rw [← id_addCapture methods (b, z) c] at hholds
      obtain ⟨idss', hrest⟩ := ih hfirst.records hholds (knownTo_addCapture hcs b methods)
      rw [(names_addCapture hc methods c.2).2] at hrest
      rw [List.map_cons, requests_cons b z.naming methods z c]
      exact ⟨idss ++ idss', hfirst.append (id_addCapture methods (b, z) c) hrest⟩

/-- An artificial trace adds a stack with the location of its label. -/
theorem records_addArtificial (h : b.table.Records r) (name : String) (count rate : Int) :
    let b' := b.addArtificial name count rate
    b'.table.Records (r ++ b.served b' [[.managed ⟨name, name, "", -1⟩]]) := by
  intro b'
  have hids : b'.stackIds = b.stackIds ++ [[(b.table.intern ⟨name, name, "", -1⟩).1.id]] := by
    simp only [b', stackIds, addArtificial, samples, profile, Profile.pushSample,
      LocationTable.samples_intern, List.map_append, List.map_singleton]
  rw [served_of_stackIds hids]
  exact (h.intern ⟨name, name, "", -1⟩).withProfile rfl rfl

/-- Captures of one builder add nothing to what is held for another one. -/
theorem holds_addCaptures_of_ne {j : Nat} (h : z.Holds j r) (hne : j ≠ b.id)
    (methods : MethodTable) {cs : List (Capture × Int)}
    (hcs : ∀ c ∈ cs, ∀ f ∈ c.1.trace, f.KnownTo z) :
    (addCaptures methods (b, z) cs).2.Holds j r := by
  induction cs generalizing b z with
  | nil => exact h
  | cons c cs ih =>
      have hstep : (addCapture methods (b, z) c).2.Holds j r := by
        obtain ⟨c, count⟩ := c
        cases hk : b.index.sample? c.trace with
        | some i =>
            rw [addCapture_of_known hk]
            exact h
        | none =>
            rw [addCapture_of_fresh hk (hcs _ List.mem_cons_self)]
            exact Request.holds_serveAll_of_ne h hne _ _
      exact @ih (addCapture methods (b, z) c).1 _ hstep (by rwa [id_addCapture])
        (knownTo_addCapture hcs b methods)

end Builder

end StackProfile
