import StackProfile.Proofs.Addresses
import StackProfile.Proofs.PlainScan

/-! # The name that a located address shows

A symbolizer forgets the names that it gave when a symbol is registered, but not the locations.  So
the location of an address goes on to show the name that the address had when the location was
minted: at the first look-up for the builder since another builder used the symbolizer.  This is
told by a log of the look-ups with the names of their time.

Main lemmas: what a look-up does to the names that are held (`Remembers.locate`), the look-ups of a
batch (`Builder.heldAs_addCaptures`) and of a session (`NamesHeld.move`), the name that a location
shows (`locationName_after`), and when it is the name that the symbolizer gives
(`locationName_eq_nameOf_iff`). -/

namespace StackProfile

/-- A look-up and the name that its address had at the time, which is empty if there was none. -/
abbrev NamedLookup := Lookup × String

namespace Lookup

/-- The name that the address `a` had at the first look-up for the builder `i` since another builder
came. -/
def heldName? (i : Nat) (a : Int) : List NamedLookup → Option String
  | [] => none
  | x :: r =>
    if x.1.1 = i then (heldName? i a r).or (if x.1.2 = some a then some x.2 else none) else none

/-- The address `a` is held for the builder `i` under the name `n`. -/
def HeldAs (i : Nat) (r : List NamedLookup) (a : Int) (n : String) : Prop :=
  heldName? i a r = some n

/-- Look-ups with the names of their addresses. -/
def named (name : Int → String) (r : List Lookup) : List NamedLookup :=
  r.map fun x => (x, x.2.elim "" name)

variable {i : Nat} {a : Int} {n : String} {r : List NamedLookup}

theorem isSome_heldName?_iff : (heldName? i a r).isSome = true ↔ Held i a (r.map Prod.fst) := by
  induction r with
  | nil => simp [heldName?, Held]
  | cons x r ih =>
      rw [List.map_cons, Held, ← ih, heldName?]
      by_cases hi : x.1.1 = i
      · rw [if_pos hi, Option.isSome_or, Bool.or_eq_true]
        by_cases ha : x.1.2 = some a <;> simp [hi, ha]
      · simp [hi]

theorem heldName?_eq_none (h : ¬ Held i a (r.map Prod.fst)) : heldName? i a r = none := by
  rw [← isSome_heldName?_iff] at h
  exact Option.not_isSome_iff_eq_none.1 h

/-- What is held keeps its name at further look-ups for the builder. -/
theorem HeldAs.cons (h : HeldAs i r a n) (b : Option Int) (m : String) :
    HeldAs i (((i, b), m) :: r) a n := by
  unfold HeldAs at h ⊢
  rw [heldName?, if_pos rfl, h, Option.some_or]

/-- The first look-up of an address gives the name under which it is held. -/
theorem heldAs_cons_self (h : ¬ Held i a (r.map Prod.fst)) (n : String) :
    HeldAs i (((i, some a), n) :: r) a n := by
  unfold HeldAs
  rw [heldName?, if_pos rfl, heldName?_eq_none h, Option.none_or, if_pos rfl]

theorem map_fst_named (name : Int → String) (r : List Lookup) :
    (named name r).map Prod.fst = r := by
  simp [named, Function.comp_def]

theorem named_append (name : Int → String) (r r' : List Lookup) :
    named name (r ++ r') = named name r ++ named name r' := List.map_append

/-- The look-ups of a log that has grown. -/
theorem map_fst_append_named (name : Int → String) (new : List Lookup) (r : List NamedLookup) :
    ((named name new).reverse ++ r).map Prod.fst = new.reverse ++ r.map Prod.fst := by
  rw [List.map_append, List.map_reverse, map_fst_named]

end Lookup

open Lookup

namespace Profile

/-- The function name of a location is part of what the location shows. -/
theorem locationName?_eq (p : Profile) (id : Int) :
    p.locationName? id = (p.view? id).map (·.functionName) := by
  unfold locationName? view? viewOf?
  cases p.location? id with
  | none => rfl
  | some l =>
      cases hl : l.lines.head? with
      | none => simp [hl]
      | some line => cases hf : p.function? line.functionId <;> simp [hl, hf]

theorem Dense.locationName?_id {p : Profile} (h : p.Dense) {l : Location} (hl : l ∈ p.locations)
    {v : LocationView} (hv : p.viewOf? l = some v) :
    p.locationName? l.id = some v.functionName := by
  rw [locationName?_eq, h.view?_id hl, hv, Option.map_some]

end Profile

/-! ### One look-up -/

namespace Symbolizer

variable {z : Symbolizer} {i : Nat} {p : Profile} {r : List NamedLookup}

theorem Remembers.mono {P Q : Int → String → Prop} (h : z.Remembers i p P)
    (hPQ : ∀ a n, P a n → Q a n) : z.Remembers i p Q := by
  intro ho a l hl
  obtain ⟨hmem, n, hn, hv⟩ := h ho a l hl
  exact ⟨hmem, n, hPQ a n hn, hv⟩

/-- A look-up keeps the names that are held, and an address that was not held is held under the name
that the symbolizer gives now. -/
theorem Remembers.locate (h : z.Remembers i p (HeldAs i r)) (hlog : z.Logged (r.map Prod.fst))
    (hp : p.Dense) (a : Int) :
    (z.locate i p a).2.1.Remembers i (z.locate i p a).2.2
      (HeldAs i (((i, some a), z.naming a) :: r)) := by
  have hheld := hlog.isSome_ownedBy i a
  cases ha : (z.ownedBy i).locations.get? a with
  | some l =>
      rw [locate_of_cached ha]
      intro _ b m hm
      obtain ⟨hmem, n, hn, hv⟩ := h.ownedBy hm
      exact ⟨hmem, n, hn.cons (some a) _, hv⟩
  | none =>
      rw [ha] at hheld
      have hnot : ¬ Held i a (r.map Prod.fst) := fun hr => by simpa using hheld.2 hr
      have hg := p.extends_mint { name := z.naming a } 0 a
      rw [locate_of_fresh ha]
      intro _ b m hm
      rw [Registry.get?_insert] at hm
      by_cases hb : b = a
      · rw [if_pos hb] at hm
        obtain rfl := Option.some.inj hm
        refine ⟨Profile.mem_mint _ _ _, z.naming a, hb ▸ heldAs_cons_self hnot _, ?_⟩
        rw [hb]
        exact Profile.viewOf?_mint _ _ _ hp
      · rw [if_neg hb] at hm
        obtain ⟨hmem, n, hn, hv⟩ := h.ownedBy hm
        exact ⟨hg.locations.subset hmem, n, hn.cons (some a) _, hg.viewOf? hv⟩

/-- A look-up that fails keeps the names that are held. -/
theorem Remembers.mislocate (h : z.Remembers i p (HeldAs i r)) (m : String) :
    (z.ownedBy i).Remembers i (p.pushLocation [] 0).2 (HeldAs i (((i, none), m) :: r)) := by
  have hgrown := h.remembers_ownedBy.grow (p.extends_pushLocation [] 0)
  exact hgrown.mono fun a n hn => hn.cons none m

end Symbolizer

namespace Builder

variable {b : Builder} {z : Symbolizer} {r : List NamedLookup}

/-- The location of an address shows the name under which the address is held, or else the name that
the symbolizer gives. -/
theorem locationName?_locate (hb : b.Sound) (hz : z.Remembers b.id b.profile (HeldAs b.id r))
    (hlog : z.Logged (r.map Prod.fst)) (a : Int) :
    let s := b.locate z a
    s.2.1.profile.locationName? s.1.id = some ((heldName? b.id a r).getD (z.naming a)) := by
  have hheld := hlog.isSome_ownedBy b.id a
  unfold locate
  cases ha : (z.ownedBy b.id).locations.get? a with
  | some l =>
      obtain ⟨hmem, n, hn, hv⟩ := hz.ownedBy ha
      unfold HeldAs at hn
      rw [Symbolizer.locate_of_cached ha, hn, Option.getD_some]
      exact hb.table.dense.locationName?_id hmem hv
  | none =>
      rw [ha] at hheld
      have hnot : ¬ Held b.id a (r.map Prod.fst) := fun hr => by simpa using hheld.2 hr
      rw [Symbolizer.locate_of_fresh ha, heldName?_eq_none hnot, Option.getD_none]
      exact (hb.table.dense.mint _ _ _).locationName?_id (Profile.mem_mint _ _ _)
        (Profile.viewOf?_mint { name := z.naming a } 0 a hb.table.dense)

end Builder

/-! ### The look-ups of a batch -/

/-- Serving requests looks their addresses up in order. -/
theorem Request.heldAs_serveAll {i : Nat} {t : LocationTable} {z : Symbolizer}
    {r : List NamedLookup} (ht : t.Sound) (hz : z.Remembers i t.profile (HeldAs i r))
    (hlog : z.Logged (r.map Prod.fst)) (qs : List Request) :
    (serveAll i t z qs).2.2.Remembers i (serveAll i t z qs).2.1.profile
      (HeldAs i
        ((named z.naming ((qs.filterMap address?).map fun a => (i, some a))).reverse ++ r)) := by
  induction qs generalizing t z r with
  | nil => exact hz
  | cons q qs ih =>
      have hserved := serve_spec ht (hz.mono fun _ _ _ => trivial) (fun _ => trivial) q
      cases q with
      | managed k => exact ih hserved.sound (hz.grow hserved.grows) hlog
      | native a =>
          have hnext := ih hserved.sound (hz.locate hlog ht.dense a) (hlog.locate i t.profile a)
          have hnew :
              named z.naming (((native a :: qs).filterMap address?).map fun a => (i, some a)) =
                ((i, some a), z.naming a) ::
                  named z.naming ((qs.filterMap address?).map fun a => (i, some a)) := rfl
          rw [Symbolizer.naming_locate] at hnext
          rw [hnew, List.reverse_cons, List.append_assoc]
          exact hnext

namespace Builder

variable {b : Builder} {z : Symbolizer} {r : List NamedLookup}

theorem heldAs_addCapture (hb : b.Sound) (hz : z.Remembers b.id b.profile (HeldAs b.id r))
    (hlog : z.Logged (r.map Prod.fst)) (methods : MethodTable) {c : Capture}
    (hc : ∀ f ∈ c.trace, f.KnownTo z) (count : Int) :
    let s := addCapture methods (b, z) (c, count)
    let new := if (b.index.sample? c.trace).isSome then []
      else (c.trace.addresses z.naming b.plan.skip).map fun a => (b.id, some a)
    s.2.Remembers b.id s.1.profile (HeldAs b.id ((named z.naming new).reverse ++ r)) := by
  cases h : b.index.sample? c.trace with
  | some j =>
      rw [addCapture_of_known h]
      exact hz.grow (b.profile.extends_setSamples
        (map_modify_accumulate (·.locationIds) (fun _ _ _ => rfl) b.samples j count c.metric ▸
          List.prefix_refl _))
  | none =>
      have hs := Request.heldAs_serveAll hb.table hz hlog
        (c.trace.requests z.naming b.plan.skip methods)
      rw [Trace.filterMap_requests _ _ _ fun f hf => (hc f hf).addressed] at hs
      rw [addCapture_of_fresh h hc]
      exact hs.grow (Profile.extends_setSamples _ (by simp))

/-- Folding in captures whose native frames are named. -/
theorem heldAs_addCaptures (hb : b.Sound) (hz : z.Remembers b.id b.profile (HeldAs b.id r))
    (hlog : z.Logged (r.map Prod.fst)) (methods : MethodTable) {cs : List (Capture × Int)}
    (hcs : ∀ c ∈ cs, ∀ f ∈ c.1.trace, f.KnownTo z) :
    let s := addCaptures methods (b, z) cs
    let new := b.lookups b.id z.naming (cs.map (·.1))
    s.2.Remembers b.id s.1.profile (HeldAs b.id ((named z.naming new).reverse ++ r)) := by
  induction cs generalizing b z r with
  | nil => exact hz
  | cons c cs ih =>
      have hc := hcs c List.mem_cons_self
      obtain ⟨hadv, -⟩ := addCapture_spec hb (hz.mono fun _ _ _ => trivial) (fun _ => trivial)
        methods hc c.2
      obtain ⟨hlog', -⟩ := counted_addCapture hlog b methods hc c.2
      have hheld := heldAs_addCapture hb hz hlog methods hc c.2
      have hnaming := (@names_addCapture b z c.1 hc methods c.2).2
      rw [← map_fst_append_named z.naming] at hlog'
      have hnext := ih hadv.sound (hadv.grows.id.symm ▸ hheld) hlog'
        (knownTo_addCapture hcs b methods)
      rw [hnaming, id_addCapture] at hnext
      rw [List.map_cons, lookups_cons b b.id z.naming methods z c]
      simp only [named_append, List.reverse_append, List.append_assoc]
      exact hnext

end Builder

/-! ### Sessions -/

namespace Session

/-- The look-ups that an answered operation makes at the symbolizer `k`, with the names of the
time. -/
def namedLookups (k : Nat) (s : Session) (x : Op × Except OpError Answer) : List NamedLookup :=
  named (s.symbolsAt k).resolve (s.lookups k x)

/-- The look-ups at the symbolizer `k` during a run, each with the name of its time. -/
def namedLog (exp : Float → Float) (k : Nat) (ops : List Op) : List NamedLookup :=
  logAfter exp (namedLookups k) ops

/-- The symbolizer `k` remembers addresses under the names under which they are held. -/
def NamesHeld (k : Nat) (log : List NamedLookup) (s : Session) : Prop :=
  ∀ z : Symbolizer, s.symbolizers[k]? = some z → ∀ (i : Nat) (d : Desk), s.desks[i]? = some d →
    z.Remembers i d.builder.profile (HeldAs i log.reverse)

variable {exp : Float → Float} {s s' : Session} {i k : Nat} {d : Desk} {z z' : Symbolizer}
  {log : List NamedLookup}

theorem map_fst_namedLog (exp : Float → Float) (k : Nat) (ops : List Op) :
    (namedLog exp k ops).map Prod.fst = lookupLog exp k ops := by
  induction ops using List.reverseRecOn with
  | nil => rfl
  | append_singleton ops op ih =>
      rw [namedLog, logAfter_concat, List.map_append, lookupLog_concat, ← ih, namedLookups,
        map_fst_named]
      rfl

theorem NamesHeld.aside {P : Nat → Nat → Int → String → Prop} (h : NamesHeld k log s)
    (hc : Coherent P s) (ha : s.Aside s') :
    NamesHeld k log s' := by
  cases ha with
  | refl => exact h
  | methods ts => exact h
  | openSymbolizer symbols =>
      intro z hz i d hd
      rcases getElem?_concat_eq_some hz with hz | ⟨-, rfl⟩
      · exact h z hz i d hd
      · exact (Symbolizer.learns_ofSymbols symbols).remembers
          (Symbolizer.remembers_of_owner_ne (by simp))
  | openBuilder plan j m =>
      intro z hz i d hd
      rcases getElem?_pushBuilder hd with hd | ⟨rfl, -⟩
      · exact h z hz i d hd
      · -- The new builder owns no symbolizer yet.
        apply Symbolizer.remembers_of_owner_ne
        intro ho
        exact Nat.lt_irrefl _ (hc.owner k z hz _ ho)
  | learn hz hl =>
      intro y hy i d hd
      rcases getElem?_setSymbolizer_eq_some hz hy with ⟨rfl, rfl⟩ | ⟨-, hy⟩
      · exact hl.remembers (h _ hz i d hd)
      · exact h y hy i d hd

/-- A builder has worked without the symbolizer `k`. -/
theorem NamesHeld.workAlone (h : NamesHeld k log s) (hd : s.desks[i]? = some d) {b : Builder}
    (hdesks : s'.desks = (s.setBuilder i b).desks)
    (hsame : s'.symbolizers[k]? = s.symbolizers[k]?)
    (hg : d.builder.profile.Extends b.profile) : NamesHeld k log s' := by
  intro z hz j e he
  rw [hsame] at hz
  rw [hdesks] at he
  rcases getElem?_setBuilder_eq_some hd he with ⟨rfl, rfl⟩ | ⟨-, he⟩
  · exact (h z hz i d hd).grow hg
  · exact h z hz j e he

/-- A builder has made the look-ups `new` at the symbolizer `k`. -/
theorem NamesHeld.advance {P : Int → String → Prop} (h : NamesHeld k log s)
    (hd : s.desks[i]? = some d) (hid : d.builder.id = i) (hz : s.symbolizers[k]? = some z)
    {r : Builder × Symbolizer} (hadv : Builder.Advances P (d.builder, z) r) {new : List Lookup}
    (hnew : ∀ x ∈ new, x.1 = i) (hlog : r.2.Logged (log.map Prod.fst ++ new).reverse)
    {name : Int → String}
    (hself : r.2.Remembers i r.1.profile (HeldAs i ((named name new).reverse ++ log.reverse))) :
    NamesHeld k (log ++ named name new) ((s.setSymbolizer k r.2).setBuilder i r.1) := by
  intro y hy j e he
  obtain rfl := Option.some.inj ((getElem?_setSymbolizer_self hz r.2).symm.trans hy)
  rw [List.reverse_append]
  rcases getElem?_setBuilder_eq_some hd he with ⟨rfl, rfl⟩ | ⟨hne, he⟩
  · exact hself
  · -- Another builder owns the symbolizer only if there were no look-ups.
    intro ho
    have hnil : new = [] := by
      cases new.eq_nil_or_concat with
      | inl hnil => exact hnil
      | inr hconcat =>
          obtain ⟨new, x, rfl⟩ := hconcat
          rw [hlog.owner] at ho
          simp at ho
          exact absurd ((hnew x (by simp)).symm.trans ho) hne
    subst hnil
    exact hadv.others j _ _ (hid ▸ Ne.symm hne) (h z hz j e he) ho

theorem Coherent.naming_eq {P : Nat → Nat → Int → String → Prop} (h : Coherent P s)
    (hz : s.symbolizers[k]? = some z) : z.naming = (s.symbolsAt k).resolve := by
  rw [h.truthful k z hz, symbolsAt_of_getElem? hz]

/-- A builder asks the symbolizer `k` for the location of an address. -/
theorem NamesHeld.locate {F : Nat → Prop} (h : NamesHeld k log s)
    (hc : Coherent (fun _ _ _ _ => True) s) (ht : Tallied k F (log.map Prod.fst) s)
    (hz : s.symbolizers[k]? = some z) (hd : s.desks[i]? = some d) (a : Int) :
    NamesHeld k (log ++ named (s.symbolsAt k).resolve [(i, some a)])
      ((s.setSymbolizer k (d.builder.locate z a).2.2).setBuilder i
        (d.builder.locate z a).2.1) := by
  have hid := hc.builderId i d hd
  have hlog := ht.logged z hz
  have hlog' := (ht.locate hc hz hd a).logged _ (getElem?_setSymbolizer_self hz _)
  refine h.advance hd hid hz (hc.located (fun _ _ _ _ _ _ _ => trivial) hz hd a) (by simp) hlog' ?_
  rw [← List.map_reverse] at hlog
  have hself := (h z hz i d hd).locate hlog (hc.sound i d hd).table.dense a
  rw [hc.naming_eq hz] at hself
  show (z.locate d.builder.id d.builder.profile a).2.1.Remembers i
    (z.locate d.builder.id d.builder.profile a).2.2 _
  rw [hid]
  exact hself

/-- A builder asks the symbolizer `k` for the location of a frame without address. -/
theorem NamesHeld.mislocate {F : Nat → Prop} (h : NamesHeld k log s)
    (hc : Coherent (fun _ _ _ _ => True) s) (ht : Tallied k F (log.map Prod.fst) s)
    (hz : s.symbolizers[k]? = some z) (hd : s.desks[i]? = some d) :
    NamesHeld k (log ++ named (s.symbolsAt k).resolve [(i, none)])
      ((s.setSymbolizer k (z.ownedBy d.builder.id)).setBuilder i d.builder.pushLineless) := by
  have hid := hc.builderId i d hd
  have hlog := (ht.mislocate hc hz hd).logged _ (getElem?_setSymbolizer_self hz _)
  refine h.advance hd hid hz (hc.mislocated hz hd) (by simp) hlog ?_
  show (z.ownedBy d.builder.id).Remembers i (d.builder.profile.pushLocation [] 0).2 _
  rw [hid]
  exact (h z hz i d hd).mislocate _

/-- A builder adds a batch whose native frames were named. -/
theorem NamesHeld.batch {F : Nat → Prop} (h : NamesHeld d.symbolizer log s)
    (hc : Coherent (fun _ _ _ _ => True) s) (ht : Tallied d.symbolizer F (log.map Prod.fst) s)
    (hd : s.desks[i]? = some d) (hz : s.symbolizers[d.symbolizer]? = some z) (hren : z.Renamed z')
    (methods : MethodTable) {batch : List Capture} {weights : List Int}
    (hlen : weights.length = batch.length) (hknown : ∀ c ∈ batch, ∀ f ∈ c.trace, f.KnownTo z') :
    let r := Builder.addCaptures methods (d.builder, z') (batch.zip weights)
    NamesHeld d.symbolizer
      (log ++ named (s.symbolsAt d.symbolizer).resolve
        (d.builder.lookups i z.symbols.resolve batch))
      ((s.setSymbolizer d.symbolizer r.2).setBuilder i r.1) := by
  intro r
  have hid := hc.builderId i d hd
  have hlog := (ht.logged z hz).learns hren.learns
  have hlog' := (ht.batch hc hd hz hren methods hlen hknown).logged _
    (getElem?_setSymbolizer_self hz _)
  have hadv := (hc.folded (fun _ _ _ _ _ _ _ => trivial) hd hz hren methods hknown weights).1
  refine h.advance hd hid hz hadv (fun x => Builder.fst_of_mem_lookups) hlog' ?_
  have hname : z'.naming = z.symbols.resolve := hren.naming.trans (hc.truthful _ z hz)
  have hfst : (batch.zip weights).map (·.1) = batch := List.map_fst_zip (Nat.le_of_eq hlen.symm)
  have hcs : ∀ c ∈ batch.zip weights, ∀ f ∈ c.1.trace, f.KnownTo z' :=
    fun c hm => hknown c.1 (List.of_mem_zip hm).1
  have hrem := hren.remembers (h z hz i d hd)
  rw [← List.map_reverse] at hlog
  rw [← hid] at hrem
  have hself := Builder.heldAs_addCaptures (hc.sound i d hd) hrem hlog methods hcs
  rw [hname, hfst, hid] at hself
  rw [symbolsAt_of_getElem? hz]
  exact hself

/-- A move makes its look-ups under the names of the time. -/
theorem NamesHeld.move {F : Nat → Prop} {op : Op} {answer : Except OpError Answer}
    (h : NamesHeld k log s) (hc : Coherent (fun _ _ _ _ => True) s)
    (ht : Tallied k F (log.map Prod.fst) s) (hm : s.Move exp op answer s') :
    NamesHeld k (log ++ s.namedLookups k (op, answer)) s' := by
  have hany : Allowed (fun _ _ _ _ => True) s := fun _ _ _ _ _ _ _ => trivial
  unfold namedLookups
  cases hm with
  | aside hop ha =>
      rw [lookups_of_spares hop]
      show NamesHeld k (log ++ []) s'
      rw [List.append_nil]
      exact h.aside hc ha
  | artificial hd name count rate =>
      show NamesHeld k (log ++ []) _
      rw [List.append_nil]
      exact h.workAlone hd rfl rfl
        (Builder.addArtificial_spec (hc.sound _ _ hd) name count rate).2.1.profile
  | intern hd label =>
      show NamesHeld k (log ++ []) _
      rw [List.append_nil]
      exact h.workAlone hd rfl rfl (Builder.intern_spec (hc.sound _ _ hd) label).2.profile
  | finish hd how =>
      show NamesHeld k (log ++ []) _
      rw [List.append_nil]
      exact h.workAlone hd rfl rfl (sound_finish (hc.sound _ _ hd) exp how).2.1.profile
  | @locate j i z d hz hd f a ha =>
      rw [lookups_locate_ok, ha]
      by_cases hj : j = k
      · subst hj
        rw [if_pos rfl]
        exact h.locate hc ht hz hd a
      · rw [if_neg hj]
        show NamesHeld k (log ++ []) _
        rw [List.append_nil]
        exact h.workAlone hd rfl (getElem?_setSymbolizer_of_ne hj s _)
          (hc.located hany hz hd a).grows.profile
  | @mislocate j i z d hz hd f ha =>
      rw [lookups_mislocate, ha]
      by_cases hj : j = k
      · subst hj
        rw [if_pos rfl]
        exact h.mislocate hc ht hz hd
      · rw [if_neg hj]
        show NamesHeld k (log ++ []) _
        rw [List.append_nil]
        exact h.workAlone hd rfl (getElem?_setSymbolizer_of_ne hj s _)
          (hc.mislocated hz hd).grows.profile
  | @batch i d z z' methods hd hz _ hren batch counts? hlen hknown r hr =>
      subst hr
      by_cases hk : d.symbolizer = k
      · subst hk
        rw [lookups, hd, hz]
        simp only [if_true]
        exact h.batch hc ht hd hz hren methods hlen hknown
      · have hadv := (hc.folded hany hd hz hren methods hknown (Builder.weights batch counts?)).1
        rw [lookups_addBatch_of_ne hd hk]
        show NamesHeld k (log ++ []) _
        rw [List.append_nil]
        exact h.workAlone hd rfl (getElem?_setSymbolizer_of_ne hk s _)
          hadv.grows.profile

/-- After every run symbolizers remember addresses under the names under which they are held. -/
theorem namesHeld_after (exp : Float → Float) (k : Nat) (ops : List Op) :
    NamesHeld k (namedLog exp k ops) (after exp ops) := by
  refine after_induction (M := fun ops s => NamesHeld k (namedLog exp k ops) s) ?_ ?_ ops
  · intro z hz
    cases hz
  · intro ops op h
    have ht := tallied_after exp k ops
    rw [← map_fst_namedLog] at ht
    rw [namedLog, logAfter_concat]
    exact h.move (coherent_after_any exp ops) ht (move_step exp _ op)

/-- The location of an address shows the name under which the address is held, and the name of a
plain scan if it is not held. -/
theorem locationName_after (exp : Float → Float) {ops : List Op}
    (hz : (after exp ops).symbolizers[k]? = some z) (hd : (after exp ops).desks[i]? = some d)
    (a : Int) :
    let r := d.builder.locate z a
    r.2.1.profile.locationName? r.1.id =
      some ((heldName? i a (namedLog exp k ops).reverse).getD
        (Symbol.scannedName (registered exp k ops) a)) := by
  have hc := coherent_after_any exp ops
  have hid := hc.builderId i d hd
  have hrem := namesHeld_after exp k ops z hz i d hd
  have hlog := (tallied_after exp k ops).logged z hz
  rw [← map_fst_namedLog, ← List.map_reverse] at hlog
  rw [← hid] at hrem
  have hname := Builder.locationName?_locate (hc.sound i d hd) hrem hlog a
  rw [hid, hc.truthful k z hz, resolve_after exp hz] at hname
  exact hname

/-- The location of an address shows the name that the symbolizer gives, exactly if the address is
not held under the name of an earlier time that was another one. -/
theorem locationName_eq_nameOf_iff (exp : Float → Float) {ops : List Op}
    (hz : (after exp ops).symbolizers[k]? = some z) (hd : (after exp ops).desks[i]? = some d)
    (a : Int) :
    let r := d.builder.locate z a
    r.2.1.profile.locationName? r.1.id = some (z.nameOf a).1 ↔
      ∀ n, heldName? i a (namedLog exp k ops).reverse = some n →
        n = Symbol.scannedName (registered exp k ops) a := by
  have hshown := locationName_after exp hz hd a
  have hgiven : (z.nameOf a).1 = Symbol.scannedName (registered exp k ops) a := by
    rw [← resolve_after exp hz]
    exact congrFun ((coherent_after_any exp ops).truthful k z hz) a
  intro r
  rw [hshown, hgiven, Option.some.injEq]
  cases heldName? i a (namedLog exp k ops).reverse with
  | none => simp
  | some n => simp

/-- A symbol is registered between the look-ups of two builders, and another one afterwards: the
second builder is shown the name that holds all the time. -/
theorem locationName_eq_nameOf_turns :
    let plan : Plan := ⟨1, {}, {}, 0, false⟩
    let ops : List Op := [.openSymbolizer [], .openMethods [], .openPlanned plan 0 0,
      .openPlanned plan 0 0, .addBatch 0 [⟨[.native 4096], 1⟩] none,
      .register 0 ⟨4096, 256, "memcpy"⟩, .addBatch 1 [⟨[.native 4096], 1⟩] none,
      .register 0 ⟨16, 8, "f"⟩]
    ∃ (z : Symbolizer) (d : Desk), (after id ops).symbolizers[0]? = some z ∧
      (after id ops).desks[1]? = some d ∧
      let r := d.builder.locate z 4096
      r.2.1.profile.locationName? r.1.id = some (z.nameOf 4096).1 := by
  intro plan ops
  refine ⟨_, _, rfl, rfl, (@locationName_eq_nameOf_iff 1 0 _ _ id ops rfl rfl 4096).2 ?_⟩
  have hheld : heldName? 1 4096 (namedLog id 0 ops).reverse = some "memcpy" := by decide +kernel
  have hscan : Symbol.scannedName (registered id 0 ops) 4096 = "memcpy" := by decide +kernel
  intro n hn
  rw [hscan]
  exact Option.some.inj (hn.symm.trans hheld)

/-- A symbol is registered after the look-up of a builder, whose location goes on to show the old
name. -/
theorem locationName_stale :
    let plan : Plan := ⟨1, {}, {}, 0, false⟩
    let ops : List Op := [.openSymbolizer [], .openMethods [], .openPlanned plan 0 0,
      .addBatch 0 [⟨[.native 4096], 1⟩] none, .register 0 ⟨4096, 256, "memcpy"⟩]
    ∃ (z : Symbolizer) (d : Desk), (after id ops).symbolizers[0]? = some z ∧
      (after id ops).desks[0]? = some d ∧ (z.nameOf 4096).1 = "memcpy" ∧
      let r := d.builder.locate z 4096
      r.2.1.profile.locationName? r.1.id = some "0x1000" ∧
        r.2.1.profile.locationName? r.1.id ≠ some (z.nameOf 4096).1 := by
  intro plan ops
  refine ⟨_, _, rfl, rfl, ?_, ?_, ?_⟩
  all_goals decide +kernel

end Session

end StackProfile
