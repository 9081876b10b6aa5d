import Mathlib.Data.List.Basic
import StackProfile.Proofs.Coherence
import StackProfile.Proofs.Lookups

/-! # The locations of an address

A look-up of an address mints a location if the symbolizer does not remember one, and it forgets all
locations when it is asked for another builder.  So a profile has as many locations of an address as
there were look-ups that found nothing: more than one, exactly if another builder used the
symbolizer between two look-ups of the address.

Main lemmas: one look-up (`Logged.locate`, `Logged.counted_locate`), also one that fails
(`Logged.mislocate`, `Counted.mislocate`), the look-ups of a batch (`Builder.counted_addCaptures`)
and of a session (`Tallied.move`), and when the locations of a profile have addresses of their own
(`pairwise_address_iff`). -/

namespace StackProfile

/-- How many locations of a profile have an address. -/
def Profile.located (p : Profile) (a : Int) : Nat := (p.locations.map (·.address)).count a

/-- The profile of the builder `i` has a location for every look-up that found nothing. -/
def Profile.Counted (p : Profile) (i : Nat) (r : List Lookup) : Prop :=
  ∀ a, a ≠ 0 → p.located a = Lookup.misses i a r

/-- Numbers other than zero are different exactly if each occurs once at most. -/
theorem pairwise_iff_count {as : List Int} :
    as.Pairwise (fun a b => a = b → a = 0) ↔ ∀ a, a ≠ 0 → as.count a ≤ 1 := by
  induction as with
  | nil => simp
  | cons b as ih =>
      rw [List.pairwise_cons, ih]
      constructor
      · rintro ⟨hb, has⟩ a ha
        by_cases hba : b = a
        · subst hba
          have hmem : b ∉ as := fun hm => ha (hb b hm rfl)
          have hzero := List.count_eq_zero.2 hmem
          rw [List.count_cons_self]
          omega
        · rw [List.count_cons_of_ne hba]
          exact has a ha
      · intro h
        refine ⟨?_, fun a ha => Nat.le_trans (List.count_le_count_cons) (h a ha)⟩
        rintro a ha rfl
        apply Decidable.byContradiction
        intro hb
        have hle := h b hb
        have hpos := List.count_pos_iff.2 ha
        rw [List.count_cons_self] at hle
        omega

/-- The locations of a profile have addresses of their own if every address has at most one. -/
theorem Profile.pairwise_address_iff_located (p : Profile) :
    p.locations.Pairwise (fun l m => l.address = m.address → l.address = 0) ↔
      ∀ a, a ≠ 0 → p.located a ≤ 1 := by
  have h := @pairwise_iff_count (p.locations.map (·.address))
  rwa [List.pairwise_map] at h

theorem Profile.located_mint (p : Profile) (k : FunctionKey) (line address a : Int) :
    (p.mint k line address).2.located a = p.located a + if address = a then 1 else 0 := by
  simp [located, List.count_append, List.count_singleton]

theorem LocationTable.located_intern (t : LocationTable) (k : FrameLabel) {a : Int} (ha : a ≠ 0) :
    (t.intern k).2.profile.located a = t.profile.located a := by
  cases h : t.interned.get? k with
  | some l => rw [intern_of_known h]
  | none => rw [intern_of_fresh h, Profile.located_mint, if_neg (Ne.symm ha), Nat.add_zero]

theorem Profile.Counted.intern {t : LocationTable} {i : Nat} {r : List Lookup}
    (h : t.profile.Counted i r) (k : FrameLabel) : (t.intern k).2.profile.Counted i r := by
  intro a ha
  rw [t.located_intern k ha, h a ha]

/-- A look-up that fails adds a location without an address. -/
theorem Profile.Counted.mislocate {p : Profile} {i : Nat} {r : List Lookup} (h : p.Counted i r) :
    (p.pushLocation [] 0).2.Counted i ((i, none) :: r) := by
  intro a ha
  have hlocated : (p.pushLocation [] 0).2.located a = p.located a := by
    have hne : a ≠ (p.pushLocation [] 0).1.address := ha
    simp [located, List.count_append, Ne.symm hne]
  rw [hlocated, h a ha, Lookup.misses_of_ne (by simp)]

namespace Symbolizer

/-- The owner of a symbolizer and what it remembers, read off the log of its look-ups. -/
structure Logged (z : Symbolizer) (r : List Lookup) : Prop where
  owner : z.owner = r.head?.map Prod.fst
  held : ∀ i, z.owner = some i → ∀ a, (z.locations.get? a).isSome = true ↔ Lookup.Held i a r

variable {z z' : Symbolizer} {r : List Lookup}

theorem Logged.learns (h : z.Logged r) (hl : z.Learns z') : z'.Logged r := by
  refine ⟨hl.owner.trans h.owner, ?_⟩
  rw [hl.owner, hl.locations]
  exact h.held

theorem Logged.isSome_ownedBy (h : z.Logged r) (i : Nat) (a : Int) :
    ((z.ownedBy i).locations.get? a).isSome = true ↔ Lookup.Held i a r := by
  unfold ownedBy
  split
  · rename_i ho
    exact h.held i ho a
  · rename_i ho
    simp only [Registry.get?_empty, Option.isSome_none, Bool.false_eq_true, false_iff]
    intro hh
    exact ho (h.owner.trans hh.head)

/-- A look-up is the latest one afterwards. -/
theorem Logged.locate (h : z.Logged r) (i : Nat) (p : Profile) (a : Int) :
    (z.locate i p a).2.1.Logged ((i, some a) :: r) := by
  refine ⟨owner_locate z i p a, ?_⟩
  intro j hj b
  rw [owner_locate] at hj
  obtain rfl := Option.some.inj hj
  have hb := h.isSome_ownedBy i b
  cases ha : (z.ownedBy i).locations.get? a with
  | some l =>
      have hheld := (h.isSome_ownedBy i a).1 (by rw [ha]; rfl)
      rw [locate_of_cached ha, hb]
      constructor
      · exact fun hr => ⟨rfl, .inr hr⟩
      · rintro ⟨-, he | hr⟩
        · obtain rfl := Option.some.inj he
          exact hheld
        · exact hr
  | none =>
      rw [locate_of_fresh ha]
      simp only [Registry.get?_insert]
      by_cases hab : b = a
      · simp [hab, Lookup.Held]
      · rw [if_neg hab, hb]
        simp [Lookup.Held, Ne.symm hab]

/-- So is one that fails; what is held stays so. -/
theorem Logged.mislocate (h : z.Logged r) (i : Nat) : (z.ownedBy i).Logged ((i, none) :: r) := by
  refine ⟨owner_ownedBy z i, ?_⟩
  intro j hj b
  rw [owner_ownedBy] at hj
  obtain rfl := Option.some.inj hj
  rw [h.isSome_ownedBy]
  simp [Lookup.Held]

/-- A look-up that finds nothing mints a location. -/
theorem Logged.located_locate (h : z.Logged r) (i : Nat) (p : Profile) (a b : Int) :
    (z.locate i p a).2.2.located b =
      p.located b + if (i, some a) = (i, some b) ∧ ¬ Lookup.Held i b r then 1 else 0 := by
  have hheld := h.isSome_ownedBy i a
  cases ha : (z.ownedBy i).locations.get? a with
  | some l =>
      rw [ha] at hheld
      have hr := hheld.1 rfl
      rw [locate_of_cached ha, if_neg, Nat.add_zero]
      rintro ⟨he, hb⟩
      obtain rfl := Option.some.inj (Prod.mk.inj he).2
      exact hb hr
  | none =>
      rw [ha] at hheld
      have hr : ¬ Lookup.Held i a r := fun hr => by simpa using hheld.2 hr
      rw [locate_of_fresh ha, Profile.located_mint]
      by_cases hab : a = b
      · subst hab
        simp [hr]
      · simp [hab]

theorem Logged.counted_locate (h : z.Logged r) {i : Nat} {p : Profile} (hp : p.Counted i r)
    (a : Int) : (z.locate i p a).2.2.Counted i ((i, some a) :: r) := by
  intro b hb
  rw [h.located_locate, hp b hb]
  rfl

end Symbolizer

/-! ### Requests -/

namespace Request

/-- The address that a request looks up. -/
def address? : Request → Option Int
  | managed _ => none
  | native a => some a

/-- Requests make their look-ups in order. -/
theorem counted_serveAll {z : Symbolizer} {r : List Lookup} (hz : z.Logged r) (i : Nat)
    (t : LocationTable) (qs : List Request) :
    let s := serveAll i t z qs
    let r' := ((qs.filterMap address?).map fun a => (i, some a)).reverse ++ r
    s.2.2.Logged r' ∧ (t.profile.Counted i r → s.2.1.profile.Counted i r') := by
  induction qs generalizing t z r with
  | nil => exact ⟨hz, fun hp => hp⟩
  | cons q qs ih =>
      cases q with
      | managed k =>
          obtain ⟨hlog, hcount⟩ := ih hz (t.intern k).2
          exact ⟨hlog, fun hp => hcount (hp.intern k)⟩
      | native a =>
          obtain ⟨hlog, hcount⟩ := ih (hz.locate i t.profile a)
            { t with profile := (z.locate i t.profile a).2.2 }
          simp only [List.filterMap_cons, address?, List.map_cons, List.reverse_cons,
            List.append_assoc, List.singleton_append]
          exact ⟨hlog, fun hp => hcount (hz.counted_locate hp a)⟩

end Request

/-- The addresses that the kept native frames of a trace look up. -/
def Trace.addresses (name : Int → String) (skip : Int) (t : Trace) : List Int :=
  (t.kept name skip).filterMap fun f => if f.isNative then f.address? else none

theorem Trace.filterMap_requests (name : Int → String) (skip : Int) (methods : MethodTable)
    {t : Trace} (h : ∀ f ∈ t, f.Addressed) :
    (t.requests name skip methods).filterMap Request.address? = t.addresses name skip := by
  unfold requests addresses
  rw [List.filterMap_map]
  apply List.filterMap_congr
  intro f hf
  cases hn : f.isNative with
  | false => simp [Frame.request_of_managed hn, Request.address?]
  | true =>
      obtain ⟨a, ha, -⟩ := Frame.exists_address (h f ((kept_sublist name skip t).subset hf)) hn
      simp [Frame.request_of_native hn ha, Request.address?, ha]

/-! ### Batches -/

/-- The traces of a batch that are not known, if those with the keys `seen` are. -/
def newTraces (seen : List TraceKey) : List Capture → List Trace
  | [] => []
  | c :: cs =>
    if seen.contains c.trace.key then newTraces seen cs
    else c.trace :: newTraces (seen ++ [c.trace.key]) cs

namespace Builder

/-- The look-ups that a batch makes for the builder `i`: those of its new traces. -/
def lookups (b : Builder) (i : Nat) (name : Int → String) (batch : List Capture) : List Lookup :=
  (newTraces b.index.keys batch).flatMap fun t =>
    (t.addresses name b.plan.skip).map fun a => (i, some a)

variable {b : Builder} {z : Symbolizer} {r : List Lookup}

theorem contains_keys_index (b : Builder) (t : Trace) :
    b.index.keys.contains t.key = (b.index.sample? t).isSome := by
  have h := Registry.get?_eq_none_iff (r := b.index) (k := t.key)
  rw [Bool.eq_iff_iff, List.contains_iff_mem, ← not_iff_not, ← h]
  exact Option.not_isSome_iff_eq_none.symm

/-- A batch makes its look-ups for its builder. -/
theorem fst_of_mem_lookups {i : Nat} {name : Int → String} {batch : List Capture} {x : Lookup}
    (hx : x ∈ b.lookups i name batch) : x.1 = i := by
  obtain ⟨t, -, hx⟩ := List.mem_flatMap.1 hx
  obtain ⟨a, -, rfl⟩ := List.mem_map.1 hx
  rfl

/-- The first capture of a batch has the first new trace, unless its trace is known. -/
theorem newTraces_cons (b : Builder) (methods : MethodTable) (z : Symbolizer) (c : Capture × Int)
    (cs : List Capture) :
    newTraces b.index.keys (c.1 :: cs) =
      (if (b.index.sample? c.1.trace).isSome then [] else [c.1.trace]) ++
        newTraces (addCapture methods (b, z) c).1.index.keys cs := by
  obtain ⟨c, count⟩ := c
  have hseen := b.contains_keys_index c.trace
  rw [newTraces, hseen]
  cases h : b.index.sample? c.trace with
  | some j =>
      rw [addCapture_of_known h]
      rfl
  | none =>
      have hkey : c.trace.key ∉ b.index.keys := by
        rw [← List.contains_iff_mem, hseen, h]
        exact Bool.false_ne_true
      have hkeys : (addCapture methods (b, z) (c, count)).1.index.keys =
          b.index.keys ++ [c.trace.key] := by
        simp only [addCapture, h]
        exact (Registry.keys_insert _ _ _).trans (if_neg hkey)
      rw [hkeys]
      rfl

/-- The look-ups of the first capture come first. -/
theorem lookups_cons (b : Builder) (i : Nat) (name : Int → String) (methods : MethodTable)
    (z : Symbolizer) (c : Capture × Int) (cs : List Capture) :
    b.lookups i name (c.1 :: cs) =
      (if (b.index.sample? c.1.trace).isSome then []
        else (c.1.trace.addresses name b.plan.skip).map fun a => (i, some a)) ++
      (addCapture methods (b, z) c).1.lookups i name cs := by
  rw [lookups, lookups, newTraces_cons b methods z, plan_addCapture, List.flatMap_append]
  split
  · rfl
  · rw [List.flatMap_singleton]

/-- Folding in one capture whose native frames are named. -/
theorem counted_addCapture (hz : z.Logged r) (b : Builder) (methods : MethodTable) {c : Capture}
    (hc : ∀ f ∈ c.trace, f.KnownTo z) (count : Int) :
    let s := addCapture methods (b, z) (c, count)
    let new := if (b.index.sample? c.trace).isSome then []
      else (c.trace.addresses z.naming b.plan.skip).map fun a => (b.id, some a)
    s.2.Logged (new.reverse ++ r) ∧
      (b.profile.Counted b.id r → s.1.profile.Counted b.id (new.reverse ++ r)) := by
  cases h : b.index.sample? c.trace with
  | some j =>
      rw [addCapture_of_known h]
      exact ⟨hz, fun hp => hp⟩
  | none =>
      have hs := Request.counted_serveAll hz b.id b.table
        (c.trace.requests z.naming b.plan.skip methods)
      rw [Trace.filterMap_requests _ _ _ fun f hf => (hc f hf).addressed] at hs
      rw [addCapture_of_fresh h hc]
      exact hs

/-- Folding in captures whose native frames are named. -/
theorem counted_addCaptures (hz : z.Logged r) (b : Builder) (methods : MethodTable)
    {cs : List (Capture × Int)} (hcs : ∀ c ∈ cs, ∀ f ∈ c.1.trace, f.KnownTo z) :
    let s := addCaptures methods (b, z) cs
    let new := b.lookups b.id z.naming (cs.map (·.1))
    s.2.Logged (new.reverse ++ r) ∧
      (b.profile.Counted b.id r → s.1.profile.Counted b.id (new.reverse ++ r)) := by
  induction cs generalizing b z r with
  | nil => exact ⟨hz, fun hp => hp⟩
  | cons c cs ih =>
      have hc := hcs c List.mem_cons_self
      obtain ⟨-, hnaming⟩ := @names_addCapture b z c.1 hc methods c.2
      obtain ⟨hlog, hcount⟩ := counted_addCapture hz b methods hc c.2
      obtain ⟨hlog', hcount'⟩ := ih hlog (addCapture methods (b, z) c).1
        (knownTo_addCapture hcs b methods)
      rw [hnaming, id_addCapture] at hlog' hcount'
      rw [List.map_cons, lookups_cons b b.id z.naming methods z c]
      simp only [List.reverse_append, List.append_assoc]
      exact ⟨hlog', fun hp => hcount' (hcount hp)⟩

end Builder

/-! ### Sessions -/

namespace Lookup

/-- Look-ups for other builders do not count. -/
theorem misses_append_of_ne {i : Nat} {a : Int} {new : List Lookup}
    (h : ∀ x ∈ new, x ≠ (i, some a)) (r : List Lookup) : misses i a (new ++ r) = misses i a r := by
  induction new with
  | nil => rfl
  | cons x new ih =>
      rw [List.cons_append, misses_of_ne (h x List.mem_cons_self),
        ih fun y hy => h y (List.mem_cons_of_mem x hy)]

end Lookup

namespace Session

/-- The look-ups that an answered operation makes at the symbolizer `k`; a refused operation makes
none. -/
def lookups (s : Session) (k : Nat) : Op × Except OpError Answer → List Lookup
  | (.locate j i f, .ok _) | (.locate j i f, .error (.resolve _)) =>
    if j = k then [(i, f.address?)] else []
  | (.addBatch i batch _, .ok _) =>
    match s.desks[i]?, s.symbolizers[k]? with
    | some d, some z =>
      if d.symbolizer = k then d.builder.lookups i z.symbols.resolve batch else []
    | _, _ => []
  | _ => []

/-- The look-ups that operations make at the symbolizer `k`, one operation after the other. -/
def lookupsFrom (exp : Float → Float) (k : Nat) (s : Session) : List Op → List Lookup
  | [] => []
  | op :: ops => s.lookups k (op, (s.step exp op).1) ++ lookupsFrom exp k (s.step exp op).2 ops

/-- The look-ups at the symbolizer `k` during a run. -/
def lookupLog (exp : Float → Float) (k : Nat) (ops : List Op) : List Lookup :=
  lookupsFrom exp k {} ops

variable {exp : Float → Float} {s s' : Session} {i k : Nat} {d : Desk} {log : List Lookup}

theorem lookupLog_eq (exp : Float → Float) (k : Nat) (ops : List Op) :
    lookupLog exp k ops = logAfter exp (fun s => s.lookups k) ops := by
  have hfrom : ∀ s : Session,
      lookupsFrom exp k s ops = logFrom exp (fun s => s.lookups k) s ops := by
    induction ops with
    | nil => exact fun _ => rfl
    | cons op ops ih => exact fun s => congrArg (s.lookups k (op, (s.step exp op).1) ++ ·) (ih _)
  exact hfrom {}

theorem lookupLog_concat (exp : Float → Float) (k : Nat) (ops : List Op) (op : Op) :
    lookupLog exp k (ops ++ [op]) =
      lookupLog exp k ops ++ (after exp ops).lookups k (op, ((after exp ops).step exp op).1) := by
  rw [lookupLog_eq, lookupLog_eq, logAfter_concat]

/-- The log of the symbolizer `k` tells what it remembers, and how many locations the addresses have
in the profiles of its builders, as far as they satisfy `F`. -/
structure Tallied (k : Nat) (F : Nat → Prop) (log : List Lookup) (s : Session) : Prop where
  absent : s.symbolizers[k]? = none → log = []
  logged : ∀ z : Symbolizer, s.symbolizers[k]? = some z → z.Logged log.reverse
  bounded : ∀ x ∈ log, x.1 < s.desks.length
  counted : ∀ i, F i → ∀ d : Desk, s.desks[i]? = some d → d.symbolizer = k →
    d.builder.profile.Counted i log.reverse

variable {F G : Nat → Prop}

theorem Tallied.mono (h : Tallied k F log s) (hGF : ∀ i, G i → F i) : Tallied k G log s :=
  ⟨h.absent, h.logged, h.bounded, fun i hi => h.counted i (hGF i hi)⟩

theorem logged_nil : Symbolizer.Logged {} [] := ⟨rfl, by simp⟩

theorem tallied_nil (k : Nat) (F : Nat → Prop) : Tallied k F [] {} := by
  constructor <;> simp

theorem Tallied.openSymbolizer (h : Tallied k F log s) (symbols : List Symbol) :
    Tallied k F log (s.pushSymbolizer (.ofSymbols symbols)) := by
  refine ⟨?_, ?_, h.bounded, h.counted⟩
  · intro hnone
    apply h.absent
    simp only [pushSymbolizer, List.getElem?_eq_none_iff, List.length_append,
      List.length_singleton] at hnone ⊢
    omega
  · intro z hz
    rcases getElem?_concat_eq_some hz with hz | ⟨rfl, rfl⟩
    · exact h.logged z hz
    · rw [h.absent (List.getElem?_eq_none (Nat.le_refl _))]
      exact logged_nil.learns (Symbolizer.learns_ofSymbols symbols)

theorem Tallied.openBuilder (h : Tallied k F log s) (plan : Plan) (k' m : Nat) :
    Tallied k F log (s.pushBuilder plan k' m) := by
  refine ⟨h.absent, h.logged, ?_, ?_⟩
  · intro x hx
    have := h.bounded x hx
    simp only [pushBuilder, List.length_append, List.length_singleton]
    omega
  · intro i hi d hd hk
    rcases getElem?_pushBuilder hd with hd | ⟨rfl, rfl⟩
    · exact h.counted i hi d hd hk
    · -- Nothing was looked up for a builder that was not there.
      intro a _
      have hmem : (s.desks.length, some a) ∉ log.reverse := by
        intro hx
        exact Nat.lt_irrefl _ (h.bounded _ (List.mem_reverse.1 hx))
      rw [← Lookup.misses_pos_iff, Nat.not_lt, Nat.le_zero] at hmem
      rw [hmem]
      rfl

theorem Tallied.aside (h : Tallied k F log s) (ha : s.Aside s') : Tallied k F log s' := by
  cases ha with
  | refl => exact h
  | methods ts => exact ⟨h.absent, h.logged, h.bounded, h.counted⟩
  | openSymbolizer symbols => exact h.openSymbolizer symbols
  | openBuilder plan k' m => exact h.openBuilder plan k' m
  | learn hz hl =>
      refine ⟨?_, ?_, h.bounded, h.counted⟩
      · intro hnone
        rw [getElem?_setSymbolizer hz] at hnone
        split at hnone
        · cases hnone
        · exact h.absent hnone
      · intro y hy
        rcases getElem?_setSymbolizer_eq_some hz hy with ⟨rfl, rfl⟩ | ⟨-, hy⟩
        · exact (h.logged _ hz).learns hl
        · exact h.logged y hy

/-- The builder of desk `i` has worked, and the symbolizer `k` has looked up `new` for it. -/
theorem Tallied.work (h : Tallied k F log s) (hd : s.desks[i]? = some d) {b : Builder}
    {new : List Lookup} (hdesks : s'.desks = (s.setBuilder i b).desks)
    (habsent : s'.symbolizers[k]? = none → log ++ new = [])
    (hlogged : ∀ z : Symbolizer, s'.symbolizers[k]? = some z →
      z.Logged (new.reverse ++ log.reverse))
    (hnew : ∀ x ∈ new, x.1 = i)
    (hcounted : F i → d.symbolizer = k → b.profile.Counted i (new.reverse ++ log.reverse)) :
    Tallied k F (log ++ new) s' := by
  have hlt := (List.getElem?_eq_some_iff.1 hd).1
  rw [← List.reverse_append] at hlogged hcounted
  refine ⟨habsent, hlogged, ?_, ?_⟩
  · intro x hx
    rw [hdesks, length_desks_setBuilder]
    rcases List.mem_append.1 hx with hx | hx
    · exact h.bounded x hx
    · rw [hnew x hx]
      exact hlt
  · intro j hj e he hk
    rw [hdesks] at he
    rcases getElem?_setBuilder_eq_some hd he with ⟨rfl, rfl⟩ | ⟨hne, he⟩
    · exact hcounted hj hk
    · intro a ha
      rw [List.reverse_append, Lookup.misses_append_of_ne]
      · exact h.counted j hj e he hk a ha
      · rintro x hx rfl
        exact hne (hnew _ (List.mem_reverse.1 hx)).symm

/-- A builder has worked without the symbolizer `k`. -/
theorem Tallied.workAlone (h : Tallied k F log s) (hd : s.desks[i]? = some d) {b : Builder}
    (hdesks : s'.desks = (s.setBuilder i b).desks)
    (hsame : s'.symbolizers[k]? = s.symbolizers[k]?)
    (hcounted : ∀ r, F i → d.symbolizer = k → d.builder.profile.Counted i r →
      b.profile.Counted i r) : Tallied k F log s' := by
  have hwork : Tallied k F (log ++ []) s' := by
    refine h.work hd hdesks ?_ (fun z hz => h.logged z (hsame ▸ hz)) (by simp)
      fun hi hk => hcounted _ hi hk (h.counted i hi d hd hk)
    intro hnone
    rw [List.append_nil]
    exact h.absent (hsame ▸ hnone)
  rwa [List.append_nil] at hwork

/-- A builder has worked with the symbolizer `k`, which has looked up `new` for it. -/
theorem Tallied.workWith {z z' : Symbolizer} (h : Tallied k F log s)
    (hz : s.symbolizers[k]? = some z) (hd : s.desks[i]? = some d) {b : Builder} {new : List Lookup}
    (hlogged : z'.Logged (new.reverse ++ log.reverse)) (hnew : ∀ x ∈ new, x.1 = i)
    (hcounted : F i → d.symbolizer = k → b.profile.Counted i (new.reverse ++ log.reverse)) :
    Tallied k F (log ++ new) ((s.setSymbolizer k z').setBuilder i b) := by
  have hset := getElem?_setSymbolizer_self hz z'
  refine h.work hd rfl ?_ ?_ hnew hcounted
  · intro hnone
    cases hset.symm.trans hnone
  · intro y hy
    obtain rfl := Option.some.inj (hset.symm.trans hy)
    exact hlogged

/-- A builder asks the symbolizer `k` for the location of an address. -/
theorem Tallied.locate {P : Nat → Nat → Int → String → Prop} {z : Symbolizer}
    (h : Tallied k F log s) (hc : Coherent P s) (hz : s.symbolizers[k]? = some z)
    (hd : s.desks[i]? = some d) (a : Int) :
    Tallied k F (log ++ [(i, some a)])
      ((s.setSymbolizer k (d.builder.locate z a).2.2).setBuilder i
        (d.builder.locate z a).2.1) := by
  have hlog := h.logged z hz
  refine h.workWith hz hd ?_ (by simp) ?_
  · show (z.locate d.builder.id d.builder.profile a).2.1.Logged ((i, some a) :: log.reverse)
    rw [hc.builderId i d hd]
    exact hlog.locate i d.builder.profile a
  · intro hi hk
    show (z.locate d.builder.id d.builder.profile a).2.2.Counted i ((i, some a) :: log.reverse)
    rw [hc.builderId i d hd]
    exact hlog.counted_locate (h.counted i hi d hd hk) a

/-- A builder asks the symbolizer `k` for the location of a frame without address. -/
theorem Tallied.mislocate {P : Nat → Nat → Int → String → Prop} {z : Symbolizer}
    (h : Tallied k F log s) (hc : Coherent P s) (hz : s.symbolizers[k]? = some z)
    (hd : s.desks[i]? = some d) :
    Tallied k F (log ++ [(i, none)])
      ((s.setSymbolizer k (z.ownedBy d.builder.id)).setBuilder i d.builder.pushLineless) := by
  refine h.workWith hz hd ?_ (by simp) fun hi hk => (h.counted i hi d hd hk).mislocate
  rw [hc.builderId i d hd]
  exact (h.logged z hz).mislocate i

/-- A builder adds a batch whose native frames were named. -/
theorem Tallied.batch {P : Nat → Nat → Int → String → Prop} {z z' : Symbolizer}
    (h : Tallied d.symbolizer F log s) (hc : Coherent P s) (hd : s.desks[i]? = some d)
    (hz : s.symbolizers[d.symbolizer]? = some z) (hren : z.Renamed z') (methods : MethodTable)
    {batch : List Capture} {weights : List Int} (hlen : weights.length = batch.length)
    (hknown : ∀ c ∈ batch, ∀ f ∈ c.trace, f.KnownTo z') :
    let r := Builder.addCaptures methods (d.builder, z') (batch.zip weights)
    Tallied d.symbolizer F (log ++ d.builder.lookups i z.symbols.resolve batch)
      ((s.setSymbolizer d.symbolizer r.2).setBuilder i r.1) := by
  intro r
  have hname : z'.naming = z.symbols.resolve :=
    hren.naming.trans (hc.truthful d.symbolizer z hz)
  have hfst : (batch.zip weights).map (·.1) = batch := List.map_fst_zip (Nat.le_of_eq hlen.symm)
  have hcs : ∀ c ∈ batch.zip weights, ∀ f ∈ c.1.trace, f.KnownTo z' :=
    fun c hm => hknown c.1 (List.of_mem_zip hm).1
  obtain ⟨hlog, hcount⟩ := Builder.counted_addCaptures ((h.logged z hz).learns hren.learns)
    d.builder methods hcs
  rw [hname, hfst, hc.builderId i d hd] at hlog hcount
  exact h.workWith hz hd hlog (fun x => Builder.fst_of_mem_lookups)
    fun hi hk => hcount (h.counted i hi d hd hk)

theorem lookups_of_spares {op : Op} {answer : Except OpError Answer} (h : op.Spares answer)
    (s : Session) (k : Nat) : s.lookups k (op, answer) = [] := by
  obtain h | rfl | ⟨e, rfl⟩ := h
  · cases op with
    | locate => simp [Op.builder?] at h
    | addBatch => simp [Op.builder?] at h
    | _ => rfl
  · cases op <;> rfl
  · cases op <;> rfl

theorem lookups_locate_ok (s : Session) (k j i : Nat) (f : Frame) (answer : Answer) :
    s.lookups k (.locate j i f, .ok answer) = if j = k then [(i, f.address?)] else [] := rfl

theorem lookups_mislocate (s : Session) (k j i : Nat) (f : Frame) (e : ResolveError) :
    s.lookups k (.locate j i f, .error (.resolve e)) =
      if j = k then [(i, f.address?)] else [] := rfl

theorem lookups_addBatch_of_ne (hd : s.desks[i]? = some d) (hk : d.symbolizer ≠ k)
    (batch : List Capture) (counts? : Option (List Int)) (answer : Answer) :
    s.lookups k (.addBatch i batch counts?, .ok answer) = [] := by
  rw [lookups, hd]
  cases s.symbolizers[k]? with
  | none => rfl
  | some z => exact if_neg hk

/-- A move makes its look-ups. -/
theorem Tallied.move {P : Nat → Nat → Int → String → Prop} {op : Op}
    {answer : Except OpError Answer} (h : Tallied k F log s) (hc : Coherent P s)
    (hm : s.Move exp op answer s') :
    Tallied k (fun i => F i ∧ ∀ j f, op = .locate j i f → j = k)
      (log ++ s.lookups k (op, answer)) s' := by
  have hF := h.mono (G := fun i => F i ∧ ∀ j f, op = .locate j i f → j = k) fun _ hi => hi.1
  cases hm with
  | aside hop ha =>
      rw [lookups_of_spares hop, List.append_nil]
      exact hF.aside ha
  | artificial hd name count rate =>
      show Tallied k _ (log ++ []) _
      rw [List.append_nil]
      exact hF.workAlone hd rfl rfl fun r _ _ hp => hp.intern _
  | intern hd label =>
      show Tallied k _ (log ++ []) _
      rw [List.append_nil]
      exact hF.workAlone hd rfl rfl fun r _ _ hp => hp.intern label
  | @finish i d hd how =>
      show Tallied k _ (log ++ []) _
      rw [List.append_nil]
      refine hF.workAlone hd rfl rfl fun r _ _ hp => ?_
      obtain ⟨unsampled, he⟩ := finish_eq exp how d.builder
      obtain ⟨ss, hss, -, -⟩ := d.builder.finish_eq_setSamples exp unsampled
      rw [he, hss]
      exact hp
  | @locate j i z d hz hd f a ha =>
      by_cases hj : j = k
      · subst hj
        rw [lookups_locate_ok, if_pos rfl, ha]
        exact hF.locate hc hz hd a
      · rw [lookups_locate_ok, if_neg hj, List.append_nil]
        exact hF.workAlone hd rfl (getElem?_setSymbolizer_of_ne hj s _)
          fun r hi _ _ => absurd (hi.2 j f rfl) hj
  | @mislocate j i z d hz hd f ha =>
      by_cases hj : j = k
      · subst hj
        rw [lookups_mislocate, if_pos rfl, ha]
        exact hF.mislocate hc hz hd
      · rw [lookups_mislocate, if_neg hj, List.append_nil]
        exact hF.workAlone hd rfl (getElem?_setSymbolizer_of_ne hj s _)
          fun r hi _ _ => absurd (hi.2 j f rfl) hj
  | @batch i d z z' methods hd hz _ hren batch counts? hlen hknown r hr =>
      subst hr
      by_cases hk : d.symbolizer = k
      · subst hk
        rw [lookups, hd, hz]
        simp only [if_true]
        exact hF.batch hc hd hz hren methods hlen hknown
      · rw [lookups_addBatch_of_ne hd hk, List.append_nil]
        exact hF.workAlone hd rfl (getElem?_setSymbolizer_of_ne hk s _)
          fun r _ hk' _ => absurd hk' hk

/-- The log of a run accounts for the locations of all addresses. -/
theorem tallied_after (exp : Float → Float) (k : Nat) (ops : List Op) :
    Tallied k (fun i => ∀ j f, .locate j i f ∈ ops → j = k) (lookupLog exp k ops)
      (after exp ops) := by
  refine after_induction (M := fun ops s =>
    Tallied k (fun i => ∀ j f, .locate j i f ∈ ops → j = k) (lookupLog exp k ops) s) ?_ ?_ ops
  · exact tallied_nil k _
  · intro ops op h
    rw [lookupLog_concat]
    refine (h.move (coherent_after_any exp ops) (move_step exp _ op)).mono ?_
    intro i hi
    exact ⟨fun j f hmem => hi j f (List.mem_append_left _ hmem),
      fun j f hop => hi j f (by simp [hop])⟩

/-- The locations of a profile have addresses of their own, exactly if no other builder used the
symbolizer between two look-ups of an address. -/
theorem pairwise_address_iff (exp : Float → Float) {ops : List Op} {i : Nat} {d : Desk}
    (hd : (after exp ops).desks[i]? = some d) (hl : ∀ k f, .locate k i f ∈ ops → k = d.symbolizer) :
    d.builder.profile.locations.Pairwise (fun l m => l.address = m.address → l.address = 0) ↔
      ¬ ∃ a b j, a ≠ 0 ∧ j ≠ i ∧
        [(i, some a), (j, b), (i, some a)].Sublist (lookupLog exp d.symbolizer ops) := by
  have hcount := (tallied_after exp d.symbolizer ops).counted i hl d hd rfl
  rw [Profile.pairwise_address_iff_located]
  constructor
  · rintro h ⟨a, b, j, ha, hj, hs⟩
    have hone := h a ha
    have htwo := Lookup.two_le_misses_reverse_iff.2 ⟨j, b, hj, hs⟩
    rw [hcount a ha] at hone
    omega
  · intro h a ha
    rw [hcount a ha]
    apply Decidable.byContradiction
    intro hgt
    obtain ⟨j, b, hj, hs⟩ := Lookup.two_le_misses_reverse_iff.1 (Nat.lt_of_not_le hgt)
    exact h ⟨a, b, j, ha, hj, hs⟩

/-- Two builders that look an address up once each. -/
theorem pairwise_address_turns :
    let plan : Plan := ⟨1, {}, {}, 0, false⟩
    let ops : List Op := [.openSymbolizer [], .openMethods [], .openPlanned plan 0 0,
      .openPlanned plan 0 0, .addBatch 0 [⟨[.native 16, .native 24], 1⟩] none,
      .addBatch 1 [⟨[.native 16], 1⟩] none]
    ∃ d : Desk, (after id ops).desks[0]? = some d ∧
      d.builder.profile.locations.Pairwise fun l m => l.address = m.address → l.address = 0 := by
  intro plan ops
  have hl : ∀ k f, Op.locate k 0 f ∈ ops → k = 0 := by simp [ops]
  have hlog : lookupLog id 0 ops = [(0, some 16), (0, some 24), (1, some 16)] := by decide +kernel
  refine ⟨_, rfl, (@pairwise_address_iff id ops 0 _ rfl hl).2 ?_⟩
  rintro ⟨a, b, j, ha, hj, hs⟩
  have hs' : [(0, some a), (j, b), (0, some a)].Sublist
      [(0, some 16), (0, some 24), (1, some 16)] := hlog ▸ hs
  -- A sublist of the same length would have the last look-up made for the first builder.
  have he := hs'.eq_of_length rfl
  simp at he

/-- A builder that looks an address up again after another builder has two locations of it. -/
theorem duplicate_address_turns :
    let plan : Plan := ⟨1, {}, {}, 0, false⟩
    let ops : List Op := [.openSymbolizer [⟨4096, 256, "memcpy"⟩], .openMethods [],
      .openPlanned plan 0 0, .openPlanned plan 0 0, .addBatch 0 [⟨[.native 4096], 1⟩] none,
      .addBatch 1 [⟨[.native 4096], 1⟩] none,
      .addBatch 0 [⟨[.native 4096, ⟨7, .unknown⟩], 1⟩] none]
    ∃ d : Desk, (after id ops).desks[0]? = some d ∧
      d.builder.profile.locations.map (·.address) = [4096, 4096, 0] ∧
      ¬ d.builder.profile.locations.Pairwise
        fun l m => l.address = m.address → l.address = 0 := by
  intro plan ops
  have haddresses : ((after id ops).desks[0]?.map fun d =>
      d.builder.profile.locations.map (·.address)) = some [4096, 4096, 0] := by decide +kernel
  obtain ⟨d, hd, he⟩ := Option.map_eq_some_iff.1 haddresses
  refine ⟨d, hd, he, ?_⟩
  intro h
  have hp : (d.builder.profile.locations.map (·.address)).Pairwise fun a b => a = b → a = 0 :=
    List.pairwise_map.2 h
  rw [he] at hp
  exact absurd hp (by decide)

end Session

end StackProfile
