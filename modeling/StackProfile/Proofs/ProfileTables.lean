import Mathlib.Data.List.Nodup
import StackProfile.Profile.Edit
import StackProfile.Proofs.LocationView
import StackProfile.Registry

/-! # The tables of an edited profile

Edits may write any identifiers and numbers into locations and samples, and may fail.  None of that
reaches the identifiers and the functions themselves: an edit that touches them adds a location or
interns a function.  So both tables stay dense, and no function is there twice.

Functions are searched in the table here.  `IndexedProfile` keeps an index of their keys instead and
never looks into the table; the two answer the same, because index and table stay inverse to each
other.

Main lemmas: what an edit does to the tables (`Edit.tables_apply`), what it keeps of them
(`Tabled.apply`), what interning answers from then on (`Tabled.internFunction_edited`), and that the
index answers like the table (`IndexedProfile.Agrees.apply`). -/

namespace StackProfile

/-! ### Dense tables -/

section Ids

variable {α : Type} {table : List α} {idOf : α → Int}

/-- The entries of a dense table are found by their identifiers. -/
theorem entryAt?_eq_some_iff (h : table.map idOf = idsUpTo table.length) {id : Int} {a : α} :
    entryAt? table id = some a ↔ a ∈ table ∧ idOf a = id := by
  have hget : ∀ (i : Nat) (x : α), table[i]? = some x → idOf x = (i : Int) + 1 := by
    intro i x hx
    have hi : (table.map idOf)[i]? = some (idOf x) := by rw [List.getElem?_map, hx, Option.map_some]
    have hlt := (List.getElem?_eq_some_iff.1 hx).1
    rw [h, idsUpTo, List.getElem?_map, List.getElem?_range hlt, Option.map_some] at hi
    exact (Option.some.inj hi).symm
  constructor
  · intro ha
    rw [entryAt?] at ha
    split at ha
    · have hid := hget _ a ha
      exact ⟨List.mem_of_getElem? ha, by omega⟩
    · simp at ha
  · rintro ⟨ha, rfl⟩
    obtain ⟨i, hi⟩ := List.getElem?_of_mem ha
    rw [hget i a hi, entryAt?_succ, hi]

theorem map_concat_eq_idsUpTo (h : table.map idOf = idsUpTo table.length) {a : α}
    (ha : idOf a = (table.length : Int) + 1) :
    (table ++ [a]).map idOf = idsUpTo (table ++ [a]).length := by
  rw [List.map_append, h, List.map_singleton, ha, List.length_append, List.length_singleton,
    idsUpTo_succ]

/-- Changing an entry in a way that does not show. -/
theorem map_modify_of_eq {β : Type} {f : α → β} {g : α → α} (h : ∀ a, f (g a) = f a)
    (l : List α) (i : Nat) : (l.modify i g).map f = l.map f := by
  apply List.ext_getElem?
  intro j
  rw [List.getElem?_map, List.getElem?_modify, List.getElem?_map]
  by_cases hj : i = j
  · cases l[j]? <;> simp [hj, h]
  · cases l[j]? <;> simp [hj]

end Ids

namespace Profile

variable {p : Profile} {k : FunctionKey} {id : Int}

/-! ### Interning -/

theorem internFunction_of_fresh (h : k ∉ p.functions.map (·.key)) :
    p.internFunction k =
      ((p.functions.length : Int) + 1,
        { p with functions := p.functions ++ [⟨p.functions.length + 1, k⟩] }) := by
  have hnone : p.functions.find? (·.key == k) = none := by
    apply List.find?_eq_none.2
    intro f hf he
    exact h (List.mem_map.2 ⟨f, hf, by simpa using he⟩)
  rw [internFunction, hnone]

/-- Interning adds no key that is there. -/
theorem nodup_keys_internFunction (h : (p.functions.map (·.key)).Nodup) (k : FunctionKey) :
    ((p.internFunction k).2.functions.map (·.key)).Nodup := by
  rw [functions_internFunction]
  split
  · exact h
  · rename_i hany
    have hk : k ∉ p.functions.map (·.key) := by
      intro hmem
      obtain ⟨f, hf, hfk⟩ := List.mem_map.1 hmem
      exact hany (List.any_eq_true.2 ⟨f, hf, by simpa using hfk⟩)
    rw [List.map_append, List.map_singleton]
    exact List.nodup_append.2 ⟨h, List.nodup_singleton k, fun a ha b hb =>
      List.mem_singleton.1 hb ▸ ne_of_mem_of_not_mem ha hk⟩

/-- Both tables are dense, and no two functions have the same properties. -/
structure Tabled (p : Profile) : Prop where
  locationIds : p.locations.map (·.id) = idsUpTo p.locations.length
  functionIds : p.functions.map (·.id) = idsUpTo p.functions.length
  functionKeys : (p.functions.map (·.key)).Nodup

namespace Tabled

theorem empty : ({} : Profile).Tabled := ⟨rfl, rfl, List.nodup_nil⟩

theorem exists_entry (h : p.Tabled) (hk : k ∈ p.functions.map (·.key)) :
    ∃ id, p.function? id = some ⟨id, k⟩ := by
  obtain ⟨⟨id, _⟩, hf, rfl⟩ := List.mem_map.1 hk
  exact ⟨id, (entryAt?_eq_some_iff h.functionIds).2 ⟨hf, rfl⟩⟩

/-- A function that is in the table is interned by finding it. -/
theorem internFunction_of_entry (h : p.Tabled) (hf : p.function? id = some ⟨id, k⟩) :
    p.internFunction k = (id, p) := by
  have hmem := ((entryAt?_eq_some_iff h.functionIds).1 hf).1
  have hsome : (p.functions.find? (·.key == k)).isSome :=
    List.find?_isSome.2 ⟨_, hmem, by simp⟩
  obtain ⟨g, hg⟩ := Option.isSome_iff_exists.1 hsome
  have hkey : g.key = k := by simpa using List.find?_some hg
  obtain rfl : g = ⟨id, k⟩ :=
    List.inj_on_of_nodup_map h.functionKeys (List.mem_of_find?_eq_some hg) hmem hkey
  rw [internFunction, hg]

/-- Interning a function answers the identifier of its entry. -/
theorem function?_internFunction (h : p.Tabled) (k : FunctionKey) :
    (p.internFunction k).2.function? (p.internFunction k).1 =
      some ⟨(p.internFunction k).1, k⟩ := by
  by_cases hk : k ∈ p.functions.map (·.key)
  · obtain ⟨id, hf⟩ := h.exists_entry hk
    rw [h.internFunction_of_entry hf]
    exact hf
  · rw [internFunction_of_fresh hk, function?, entryAt?_succ]
    simp

theorem internFunction (h : p.Tabled) (k : FunctionKey) : (p.internFunction k).2.Tabled where
  locationIds := by
    rw [locations_internFunction]
    exact h.locationIds
  functionIds := by
    by_cases hk : k ∈ p.functions.map (·.key)
    · obtain ⟨id, hf⟩ := h.exists_entry hk
      rw [h.internFunction_of_entry hf]
      exact h.functionIds
    · rw [internFunction_of_fresh hk]
      exact map_concat_eq_idsUpTo h.functionIds rfl
  functionKeys := nodup_keys_internFunction h.functionKeys k

theorem pushLocation (h : p.Tabled) (ls : List Line) (a : Int) :
    (p.pushLocation ls a).2.Tabled where
  locationIds := by
    rw [locations_pushLocation]
    exact map_concat_eq_idsUpTo h.locationIds rfl
  functionIds := h.functionIds
  functionKeys := h.functionKeys

/-- Lines, addresses and samples do not matter. -/
theorem of_eq (h : p.Tabled) {q : Profile}
    (hl : q.locations.map (·.id) = p.locations.map (·.id)) (hf : q.functions = p.functions) :
    q.Tabled where
  locationIds := by
    have hlen : q.locations.length = p.locations.length := by
      simpa using congrArg List.length hl
    rw [hl, hlen]
    exact h.locationIds
  functionIds := hf ▸ h.functionIds
  functionKeys := hf ▸ h.functionKeys

end Tabled

end Profile

/-! ### Edits -/

namespace Edit

theorem tables_onSample (p : Profile) (i : Int) (f : Sample → Option Sample) :
    (onSample p i f).2.locations = p.locations ∧ (onSample p i f).2.functions = p.functions := by
  rw [onSample]
  split
  · exact ⟨rfl, rfl⟩
  · split <;> exact ⟨rfl, rfl⟩

theorem tables_onLocation (p : Profile) (id : Int) {f : Location → Location}
    (hf : ∀ l, (f l).id = l.id) :
    (onLocation p id f).2.locations.map (·.id) = p.locations.map (·.id) ∧
      (onLocation p id f).2.functions = p.functions := by
  rw [onLocation]
  split
  · exact ⟨rfl, rfl⟩
  · rw [Profile.modifyLocation]
    split
    · exact ⟨map_modify_of_eq hf _ _, rfl⟩
    · exact ⟨rfl, rfl⟩

/-- An edit keeps the identifiers and the functions, or adds a location, or interns a function. -/
theorem tables_apply (p : Profile) (e : Edit) :
    ((apply p e).2.locations.map (·.id) = p.locations.map (·.id) ∧
      (apply p e).2.functions = p.functions) ∨
    (apply p e).2 = (p.pushLocation [] 0).2 ∨
    ∃ key, e = .internFunction key ∧ (apply p e).2 = (p.internFunction key).2 := by
  cases e with
  | pushSampleLocation | pushValue | setValue =>
      obtain ⟨hl, hf⟩ := tables_onSample p _ _
      exact .inl ⟨congrArg (List.map (·.id)) hl, hf⟩
  | pushLine | setAddress => exact .inl (tables_onLocation p _ fun _ => rfl)
  | getValue i j =>
      left
      rw [apply]
      split
      · exact ⟨rfl, rfl⟩
      · split <;> exact ⟨rfl, rfl⟩
  | pushLocation => exact .inr (.inl rfl)
  | internFunction key => exact .inr (.inr ⟨key, rfl, rfl⟩)
  | _ => exact .inl ⟨rfl, rfl⟩

/-- Only interning touches the functions. -/
theorem functions_apply {e : Edit} (h : ∀ key, e ≠ .internFunction key) (p : Profile) :
    (apply p e).2.functions = p.functions := by
  rcases tables_apply p e with ⟨-, hf⟩ | hp | ⟨key, he, -⟩
  · exact hf
  · rw [hp, Profile.functions_pushLocation]
  · exact absurd he (h key)

theorem functions_prefix_apply (p : Profile) (e : Edit) :
    p.functions <+: (apply p e).2.functions := by
  cases e with
  | internFunction key => exact Profile.functions_prefix_internFunction p key
  | _ => simp [functions_apply]

end Edit

namespace Profile

variable {p : Profile}

/-- The profile after edits, whether they failed or not. -/
def edited (p : Profile) (es : List Edit) : Profile := es.foldl (fun p e => (Edit.apply p e).2) p

/-- Functions that are in the table stay where they are and as they are. -/
theorem functions_prefix_edited (p : Profile) (es : List Edit) :
    p.functions <+: (p.edited es).functions := by
  induction es generalizing p with
  | nil => exact List.prefix_refl _
  | cons e es ih => exact (Edit.functions_prefix_apply p e).trans (ih _)

namespace Tabled

theorem apply (h : p.Tabled) (e : Edit) : (Edit.apply p e).2.Tabled := by
  rcases Edit.tables_apply p e with ⟨hl, hf⟩ | hp | ⟨key, -, hp⟩
  · exact h.of_eq hl hf
  · rw [hp]
    exact h.pushLocation [] 0
  · rw [hp]
    exact h.internFunction key

theorem edited (h : p.Tabled) (es : List Edit) : (p.edited es).Tabled := by
  induction es generalizing p with
  | nil => exact h
  | cons e es ih => exact ih (h.apply e)

/-- Whatever is done to a profile after a function was interned, its entry is there and interning
it again finds it. -/
theorem internFunction_edited (h : p.Tabled) (k : FunctionKey) (es : List Edit) :
    let q := (p.internFunction k).2.edited es
    q.function? (p.internFunction k).1 = some ⟨(p.internFunction k).1, k⟩ ∧
      q.internFunction k = ((p.internFunction k).1, q) := by
  intro q
  have hentry : q.function? (p.internFunction k).1 = some ⟨(p.internFunction k).1, k⟩ :=
    entryAt?_of_prefix (functions_prefix_edited _ es) (h.function?_internFunction k)
  exact ⟨hentry, ((h.internFunction k).edited es).internFunction_of_entry hentry⟩

end Tabled

end Profile

/-! ### Interning by an index -/

/-- A profile with the identifiers of its functions by their keys. -/
structure IndexedProfile where
  profile : Profile := {}
  functionIds : Registry FunctionKey Int := .empty

namespace IndexedProfile

/-- The identifier of a function, which is added unless the index has it. -/
def internFunction (q : IndexedProfile) (key : FunctionKey) : Int × IndexedProfile :=
  match q.functionIds.get? key with
  | some id => (id, q)
  | none =>
    let id : Int := q.profile.functions.length + 1
    (id,
      { profile := { q.profile with functions := q.profile.functions ++ [⟨id, key⟩] }
        functionIds := q.functionIds.insert key id })

/-- Carries out an edit; only interning needs the index. -/
def apply (q : IndexedProfile) : Edit → Except EditError EditAnswer × IndexedProfile
  | .internFunction key =>
    let (id, q) := q.internFunction key
    (.ok (.number id), q)
  | e =>
    let (answer, profile) := Edit.apply q.profile e
    (answer, { q with profile })

theorem apply_of_ne {e : Edit} (h : ∀ key, e ≠ .internFunction key) (q : IndexedProfile) :
    q.apply e =
      ((Edit.apply q.profile e).1, { q with profile := (Edit.apply q.profile e).2 }) := by
  cases e with
  | internFunction key => exact absurd rfl (h key)
  | _ => rfl

/-- The profile after edits, whether they failed or not. -/
def edited (q : IndexedProfile) (es : List Edit) : IndexedProfile :=
  es.foldl (fun q e => (q.apply e).2) q

/-- Index and table are inverse to each other. -/
def Agrees (q : IndexedProfile) : Prop :=
  ∀ key id, q.functionIds.get? key = some id ↔ q.profile.function? id = some ⟨id, key⟩

variable {q : IndexedProfile}

theorem Agrees.empty : ({} : IndexedProfile).Agrees := by
  intro key id
  simp [Profile.function?, entryAt?]

theorem Agrees.of_eq {r : IndexedProfile} (h : q.Agrees) (hi : r.functionIds = q.functionIds)
    (hf : r.profile.functions = q.profile.functions) : r.Agrees := by
  intro key id
  rw [hi, h key id, Profile.function?, Profile.function?, hf]

theorem Agrees.fresh (h : q.Agrees) (hq : q.profile.Tabled) {key : FunctionKey}
    (hk : q.functionIds.get? key = none) : key ∉ q.profile.functions.map (·.key) := by
  intro hmem
  obtain ⟨id, hf⟩ := hq.exists_entry hmem
  have hid := (h key id).2 hf
  rw [hk] at hid
  simp at hid

/-- Interning by the index is interning by the table, and keeps them inverse to each other. -/
theorem Agrees.internFunction (h : q.Agrees) (hq : q.profile.Tabled) (key : FunctionKey) :
    (q.internFunction key).1 = (q.profile.internFunction key).1 ∧
      (q.internFunction key).2.profile = (q.profile.internFunction key).2 ∧
      (q.internFunction key).2.Agrees := by
  rw [IndexedProfile.internFunction]
  cases hk : q.functionIds.get? key with
  | some id =>
      rw [hq.internFunction_of_entry ((h key id).1 hk)]
      exact ⟨rfl, rfl, h⟩
  | none =>
      have hfresh := h.fresh hq hk
      have htabled := hq.internFunction key
      rw [Profile.internFunction_of_fresh hfresh] at htabled ⊢
      refine ⟨rfl, rfl, ?_⟩
      intro j id
      -- The table has one more entry, which the new key finds and no other key.
      have hentry := @entryAt?_eq_some_iff _ _ _ htabled.functionIds id ⟨id, j⟩
      have hold := @entryAt?_eq_some_iff _ _ _ hq.functionIds id ⟨id, j⟩
      simp only [Registry.get?_insert, Profile.function?]
      rw [hentry, List.mem_append, List.mem_singleton, FunctionEntry.mk.injEq]
      by_cases hj : j = key
      · subst hj
        have hnot : (⟨id, j⟩ : FunctionEntry) ∉ q.profile.functions := fun hf =>
          hfresh (List.mem_map.2 ⟨_, hf, rfl⟩)
        simp [hnot, eq_comm]
      · rw [if_neg hj, h j id, Profile.function?, hold]
        simp [hj]

/-- An edit by the index answers and does the same. -/
theorem Agrees.apply (h : q.Agrees) (hq : q.profile.Tabled) (e : Edit) :
    (q.apply e).1 = (Edit.apply q.profile e).1 ∧
      (q.apply e).2.profile = (Edit.apply q.profile e).2 ∧ (q.apply e).2.Agrees := by
  by_cases he : ∃ key, e = .internFunction key
  · obtain ⟨key, rfl⟩ := he
    obtain ⟨hid, hp, hagrees⟩ := h.internFunction hq key
    exact ⟨by simp only [IndexedProfile.apply, Edit.apply, hid], hp, hagrees⟩
  · have hne : ∀ key, e ≠ .internFunction key := fun key hk => he ⟨key, hk⟩
    rw [apply_of_ne hne]
    exact ⟨rfl, rfl, h.of_eq rfl (Edit.functions_apply hne q.profile)⟩

theorem Agrees.edited (h : q.Agrees) (hq : q.profile.Tabled) (es : List Edit) :
    (q.edited es).profile = q.profile.edited es ∧ (q.edited es).Agrees := by
  induction es generalizing q with
  | nil => exact ⟨rfl, h⟩
  | cons e es ih =>
      obtain ⟨-, hp, hagrees⟩ := h.apply hq e
      obtain ⟨hprofile, hrest⟩ := ih hagrees (by rw [hp]; exact hq.apply e)
      refine ⟨?_, hrest⟩
      rw [hp] at hprofile
      exact hprofile

end IndexedProfile

/-- Whatever edits a profile has seen: its identifiers are the positions from one on, no two
functions are alike, and functions stay.  Interning a function answers the identifier of its entry,
now and at any later time; an entry is found if and only if its identifier is one of the table.  A
profile that interns by an index has the same tables and gives the same answers, and its index is
inverse to the table. -/
theorem tables_edited (es : List Edit) :
    let p := ({} : Profile).edited es
    let q := ({} : IndexedProfile).edited es
    p.locations.map (·.id) = idsUpTo p.locations.length ∧
    p.functions.map (·.id) = idsUpTo p.functions.length ∧
    (p.functions.map (·.key)).Nodup ∧
    (∀ later, p.functions <+: (p.edited later).functions) ∧
    (∀ key, ∃ id, (Edit.apply p (.internFunction key)).1 = .ok (.number id) ∧
      ∀ later, let p' := p.edited (.internFunction key :: later)
        p'.function? id = some ⟨id, key⟩ ∧
        Edit.apply p' (.internFunction key) = (.ok (.number id), p')) ∧
    (∀ id, ∃ l?, (Edit.apply p (.getLocation id)).1 = .ok (.location l?) ∧
      (l?.isSome ↔ 1 ≤ id ∧ id ≤ p.locations.length) ∧
      ∀ l, l? = some l ↔ l ∈ p.locations ∧ l.id = id) ∧
    (∀ id, ∃ f?, (Edit.apply p (.getFunction id)).1 = .ok (.function f?) ∧
      (f?.isSome ↔ 1 ≤ id ∧ id ≤ p.functions.length) ∧
      ∀ f, f? = some f ↔ f ∈ p.functions ∧ f.id = id) ∧
    q.profile = p ∧ (∀ e, (q.apply e).1 = (Edit.apply p e).1) ∧
    ∀ key id, q.functionIds.get? key = some id ↔ p.function? id = some ⟨id, key⟩ := by
  intro p q
  have hp : p.Tabled := Profile.Tabled.empty.edited es
  obtain ⟨hq, hagrees⟩ := IndexedProfile.Agrees.empty.edited .empty es
  refine ⟨hp.locationIds, hp.functionIds, hp.functionKeys, p.functions_prefix_edited, ?_, ?_, ?_,
    hq, ?_, ?_⟩
  · intro key
    refine ⟨_, rfl, fun later => ?_⟩
    obtain ⟨hentry, hagain⟩ := hp.internFunction_edited key later
    refine ⟨hentry, ?_⟩
    simp only [Edit.apply]
    exact congrArg (fun r => (Except.ok (EditAnswer.number r.1), r.2)) hagain
  · intro id
    exact ⟨_, rfl, entryAt?_isSome_iff, fun l => entryAt?_eq_some_iff hp.locationIds⟩
  · intro id
    exact ⟨_, rfl, entryAt?_isSome_iff, fun f => entryAt?_eq_some_iff hp.functionIds⟩
  · intro e
    have htabled : q.profile.Tabled := hq ▸ hp
    rw [(hagrees.apply htabled e).1, hq]
  · intro key id
    rw [hagrees key id, hq]

example :
    let p := ({} : Profile).edited [.pushLocation, .internFunction ⟨"f", "", "", 0⟩,
      .pushLine 1 9 (-3), .setAddress 2 16, .internFunction ⟨"f", "", "", 1⟩,
      .internFunction ⟨"f", "", "", 0⟩]
    p.locations = [⟨1, [⟨9, -3⟩], 0⟩] ∧ p.functions.map (·.id) = [1, 2] := by
  decide

end StackProfile
