import Mathlib.Algebra.Ring.Int.Defs
import Mathlib.Data.List.Basic
import StackProfile.Proofs.Move

/-! # The ledger of a builder

A ledger lists what was added to a profile: captures by the keys of their traces, with weight and
metric, and artificial traces.  Until a profile is finished, its samples can be read off the
ledger: every key has one sample and every artificial trace has one, in the order of their first
entries, with the totals of the key or with the values of the artificial trace.

Main lemmas: one more entry (`Booked.addCapture`, `Booked.addArtificial`), a move of a session
(`booked_move`), and the samples after every run (`samples_after`). -/

namespace StackProfile

/-- What is added to a profile. -/
inductive Entry where
  | capture (key : TraceKey) (weight metric : Int)
  | artificial (count rate : Int)
deriving DecidableEq, Repr

namespace Entry

/-- What an entry adds to the weight of a key. -/
def weight (k : TraceKey) : Entry → Int
  | capture k' w _ => if k' = k then w else 0
  | artificial _ _ => 0

/-- What an entry adds to the metric of a key. -/
def metric (k : TraceKey) : Entry → Int
  | capture k' _ m => if k' = k then m else 0
  | artificial _ _ => 0

end Entry

/-- What was added, in order. -/
abbrev Ledger := List Entry

namespace Ledger

/-- The keys of the captures. -/
def keys : Ledger → List TraceKey
  | [] => []
  | .capture k _ _ :: h => k :: keys h
  | .artificial _ _ :: h => keys h

/-- The entries that open samples, if the keys `seen` have samples already: captures with a new key
and all artificial traces. -/
def openers (seen : List TraceKey) : Ledger → Ledger
  | [] => []
  | .capture k w m :: h =>
    if k ∈ seen then openers seen h else .capture k w m :: openers (k :: seen) h
  | .artificial c r :: h => .artificial c r :: openers seen h

/-- The values of the sample that an entry opens. -/
def values (h : Ledger) : Entry → List Int
  | .capture k _ _ => [(h.map (Entry.weight k)).sum, (h.map (Entry.metric k)).sum]
  | .artificial c r => [c, c * r]

/-! ### One more entry -/

theorem openers_concat_capture (seen : List TraceKey) (h : Ledger) (k : TraceKey) (w m : Int) :
    openers seen (h ++ [.capture k w m]) =
      openers seen h ++ if k ∈ seen ∨ k ∈ keys h then [] else [.capture k w m] := by
  induction h generalizing seen with
  | nil => simp [openers, keys]
  | cons e h ih =>
      cases e with
      | artificial c r =>
          rw [List.cons_append, openers, ih]
          rfl
      | capture k' w' m' =>
          by_cases hk : k' ∈ seen
          · have hiff : k ∈ seen ∨ k ∈ keys (.capture k' w' m' :: h) ↔ k ∈ seen ∨ k ∈ keys h := by
              simp only [keys, List.mem_cons]
              grind
            simp only [List.cons_append, openers, if_pos hk, ih, hiff]
          · have hiff : k ∈ seen ∨ k ∈ keys (.capture k' w' m' :: h) ↔
                k ∈ k' :: seen ∨ k ∈ keys h := by
              simp only [keys, List.mem_cons]
              grind
            simp only [List.cons_append, openers, if_neg hk, ih, hiff]

theorem openers_concat_artificial (seen : List TraceKey) (h : Ledger) (c r : Int) :
    openers seen (h ++ [.artificial c r]) = openers seen h ++ [.artificial c r] := by
  induction h generalizing seen with
  | nil => rfl
  | cons e h ih =>
      cases e with
      | artificial c' r' => simp [openers, ih]
      | capture k w m => by_cases hk : k ∈ seen <;> simp [openers, hk, ih]

/-- A key that opened a sample is in the ledger. -/
theorem mem_keys_of_opener {seen : List TraceKey} {h : Ledger} {k : TraceKey} {w m : Int}
    (hm : .capture k w m ∈ openers seen h) : k ∈ keys h := by
  induction h generalizing seen with
  | nil => simp [openers] at hm
  | cons e h ih =>
      cases e with
      | artificial c r =>
          rcases List.mem_cons.1 hm with hm | hm
          · cases hm
          · exact ih hm
      | capture k' w' m' =>
          unfold openers at hm
          split at hm
          · exact List.mem_cons_of_mem _ (ih hm)
          · rcases List.mem_cons.1 hm with hm | hm
            · cases hm
              exact List.mem_cons_self
            · exact List.mem_cons_of_mem _ (ih hm)

/-- A key of the ledger has opened a sample, if it had none before. -/
theorem exists_opener {seen : List TraceKey} {h : Ledger} {k : TraceKey} (hs : k ∉ seen)
    (hk : k ∈ keys h) : ∃ w m, .capture k w m ∈ openers seen h := by
  induction h generalizing seen with
  | nil => simp [keys] at hk
  | cons e h ih =>
      cases e with
      | artificial c r =>
          obtain ⟨w, m, hm⟩ := ih hs hk
          exact ⟨w, m, List.mem_cons_of_mem _ hm⟩
      | capture k' w' m' =>
          unfold openers
          by_cases he : k = k'
          · subst he
            rw [if_neg hs]
            exact ⟨w', m', List.mem_cons_self⟩
          · have hk' : k ∈ keys h := (List.mem_cons.1 hk).resolve_left he
            split
            · exact ih hs hk'
            · have hs' : k ∉ k' :: seen := by simp [he, hs]
              obtain ⟨w, m, hm⟩ := ih hs' hk'
              exact ⟨w, m, List.mem_cons_of_mem _ hm⟩

/-- The keys of the opened samples are the distinct keys in the order of their first entries. -/
theorem keys_openers (seen : List TraceKey) (h : Ledger) :
    keys (openers seen h) = ((keys h).filter fun k => k ∉ seen).eraseDups := by
  induction h generalizing seen with
  | nil => rfl
  | cons e h ih =>
      cases e with
      | artificial c r => exact ih seen
      | capture k w m =>
          by_cases hk : k ∈ seen
          · simp [openers, keys, hk, ih]
          · have hfilter : (keys h).filter (fun j => j ∉ k :: seen) =
                ((keys h).filter fun j => j ∉ seen).filter fun j => !(j == k) := by
              rw [List.filter_filter]
              apply List.filter_congr
              intro j _
              by_cases hj : j = k <;> simp [hj]
            simp only [openers, if_neg hk, keys, ih, hfilter]
            rw [List.filter_cons_of_pos (by simpa using hk), List.eraseDups_cons]

theorem sum_weight_of_not_mem {h : Ledger} {k : TraceKey} (hk : k ∉ keys h) :
    (h.map (Entry.weight k)).sum = 0 ∧ (h.map (Entry.metric k)).sum = 0 := by
  induction h with
  | nil => exact ⟨rfl, rfl⟩
  | cons e h ih =>
      cases e with
      | artificial c r => simpa [Entry.weight, Entry.metric] using ih hk
      | capture k' w m =>
          obtain ⟨hne, hk⟩ := not_or.1 (mt List.mem_cons.2 hk)
          simpa [Entry.weight, Entry.metric, Ne.symm hne] using ih hk

theorem values_concat_artificial (h : Ledger) (c r : Int) :
    values (h ++ [.artificial c r]) = h.values := by
  funext e
  cases e <;> simp [values, Entry.weight, Entry.metric]

/-- An entry of one key does not change the values of the others. -/
theorem values_concat_of_ne (h : Ledger) {k : TraceKey} {e : Entry}
    (he : ∀ w m, e ≠ .capture k w m) (w m : Int) :
    values (h ++ [.capture k w m]) e = h.values e := by
  cases e with
  | artificial c r => rfl
  | capture k' w' m' =>
      have hne : k ≠ k' := by
        rintro rfl
        exact he w' m' rfl
      simp [values, Entry.weight, Entry.metric, hne]

theorem values_concat_self (h : Ledger) (k : TraceKey) (w m w' m' : Int) :
    values (h ++ [.capture k w m]) (.capture k w' m') =
      [(h.map (Entry.weight k)).sum + w, (h.map (Entry.metric k)).sum + m] := by
  simp [values, Entry.weight, Entry.metric]

end Ledger

/-! ### Booked entries -/

/-- The samples of a builder are those of its ledger, with the same values as long as the profile is
`unfinished`, and the index finds them by key. -/
structure Booked (unfinished : Prop) (h : Ledger) (b : Builder) : Prop where
  length : b.samples.length = (h.openers []).length
  index : ∀ k j, b.index.get? k = some j ↔ ∃ w m, (h.openers [])[j]? = some (.capture k w m)
  values : unfinished → b.samples.map (·.values) = (h.openers []).map h.values

namespace Booked

variable {u : Prop} {h : Ledger} {b b' : Builder}

/-- A key is in the ledger exactly if it has a sample. -/
theorem mem_keys_iff (hb : Booked u h b) (k : TraceKey) :
    k ∈ h.keys ↔ (b.index.get? k).isSome = true := by
  rw [Option.isSome_iff_exists]
  constructor
  · intro hk
    obtain ⟨w, m, hm⟩ := Ledger.exists_opener List.not_mem_nil hk
    obtain ⟨j, hj⟩ := List.getElem?_of_mem hm
    exact ⟨j, (hb.index k j).2 ⟨w, m, hj⟩⟩
  · rintro ⟨j, hj⟩
    obtain ⟨w, m, hm⟩ := (hb.index k j).1 hj
    exact Ledger.mem_keys_of_opener (List.mem_of_getElem? hm)

theorem congr (hb : Booked u h b) (hs : b'.samples = b.samples) (hi : b'.index = b.index) :
    Booked u h b' :=
  ⟨hs ▸ hb.length, hi ▸ hb.index, hs ▸ hb.values⟩

theorem mono (hb : Booked u h b) {v : Prop} (huv : v → u) : Booked v h b :=
  ⟨hb.length, hb.index, fun hv => hb.values (huv hv)⟩

end Booked

theorem booked_ofPlan (u : Prop) (id : Nat) (plan : Plan) : Booked u [] (.ofPlan id plan) := by
  refine ⟨rfl, ?_, fun _ => rfl⟩
  intro k j
  simp [Builder.ofPlan, Ledger.openers]

/-! ### Captures and artificial traces -/

theorem Rendering.samples_renderFrames (owner : Nat) (methods : MethodTable) (r : Rendering)
    (t : Trace) :
    (r.renderFrames owner methods t).table.profile.samples = r.table.profile.samples := by
  induction t generalizing r with
  | nil => rfl
  | cons f t ih =>
      have hstep : (r.renderFrame owner methods f).table.profile.samples =
          r.table.profile.samples := by
        unfold renderFrame
        split
        · split
          · unfold native
            dsimp only
            split
            · rfl
            · exact Symbolizer.samples_locate _ _ _ _
          · rfl
        · exact LocationTable.samples_intern _ _
      exact (ih _).trans hstep

namespace Booked

variable {u : Prop} {h : Ledger} {b b' : Builder}

/-- Adding to the sample of a key adds to the totals of this key and of no other one. -/
theorem values_accumulated (hb : Booked u h b) (hu : u) {k : TraceKey} {j : Nat}
    (hj : b.index.get? k = some j) (w m : Int) :
    (b.samples.modify j fun s => s.accumulate w m).map (·.values) =
      (h.openers []).map (Ledger.values (h ++ [.capture k w m])) := by
  apply List.ext_getElem?
  intro i
  have hi : b.samples[i]?.map (·.values) = (h.openers [])[i]?.map h.values := by
    rw [← List.getElem?_map, hb.values hu, List.getElem?_map]
  rw [List.getElem?_map, List.getElem?_modify, List.getElem?_map]
  cases ho : (h.openers [])[i]? with
  | none =>
      rw [ho, Option.map_none, Option.map_eq_none_iff] at hi
      rw [hi]
      rfl
  | some e =>
      rw [ho, Option.map_some, Option.map_eq_some_iff] at hi
      obtain ⟨s, hs, hv⟩ := hi
      simp only [hs, Option.map_eq_map, Option.map_some]
      by_cases hij : j = i
      · obtain ⟨w', m', he⟩ := (hb.index k j).1 hj
        rw [hij, ho] at he
        obtain rfl := Option.some.inj he
        rw [if_pos hij, Ledger.values_concat_self]
        obtain ⟨ids, vs⟩ := s
        subst hv
        rfl
      · -- Another entry with this key would have another position in the index.
        have hne : ∀ w' m', e ≠ .capture k w' m' := by
          rintro w' m' rfl
          exact hij (Option.some.inj (hj.symm.trans ((hb.index k i).2 ⟨w', m', ho⟩)))
        rw [if_neg hij, Ledger.values_concat_of_ne h hne, hv]

/-- An entry of a known key adds to the sample of the key. -/
theorem known (hb : Booked u h b) {k : TraceKey} {j : Nat} (hj : b.index.get? k = some j)
    (w m : Int) :
    Booked u (h ++ [.capture k w m])
      (b.withProfile (b.profile.modifySample j fun s => s.accumulate w m)) := by
  have hkeys : k ∈ h.keys := (hb.mem_keys_iff k).2 (by rw [hj]; rfl)
  have hopen : Ledger.openers [] (h ++ [.capture k w m]) = h.openers [] := by
    rw [Ledger.openers_concat_capture, if_pos (.inr hkeys), List.append_nil]
  have hlength : (b.samples.modify j fun s => s.accumulate w m).length = b.samples.length :=
    List.length_modify _ _ _
  refine ⟨?_, ?_, ?_⟩
  · rw [hopen]
    exact hlength.trans hb.length
  · rw [hopen]
    exact hb.index
  · intro hu
    rw [hopen]
    exact hb.values_accumulated hu hj w m

/-- An entry that opens a sample. -/
theorem opened (hb : Booked u h b) {e : Entry} {s : Sample}
    (hopen : Ledger.openers [] (h ++ [e]) = h.openers [] ++ [e])
    (hkeep : ∀ x ∈ h.openers [], Ledger.values (h ++ [e]) x = h.values x)
    (hv : s.values = Ledger.values (h ++ [e]) e) (hs : b'.samples = b.samples ++ [s])
    (hi : ∀ k j, b'.index.get? k = some j ↔
      b.index.get? k = some j ∨ j = b.samples.length ∧ ∃ w m, e = .capture k w m) :
    Booked u (h ++ [e]) b' := by
  refine ⟨?_, ?_, ?_⟩
  · rw [hopen, hs, List.length_append, List.length_append, hb.length]
    rfl
  · intro k j
    rw [hi, hb.index, hopen, hb.length]
    constructor
    · rintro (⟨w, m, hj⟩ | ⟨rfl, w, m, rfl⟩)
      · have hlt := (List.getElem?_eq_some_iff.1 hj).1
        exact ⟨w, m, by rw [List.getElem?_append_left hlt, hj]⟩
      · exact ⟨w, m, by simp⟩
    · rintro ⟨w, m, hj⟩
      rcases getElem?_concat_eq_some hj with hj | ⟨hj, he⟩
      · exact .inl ⟨w, m, hj⟩
      · exact .inr ⟨hj, w, m, he.symm⟩
  · intro hu
    rw [hopen, hs, List.map_append, List.map_append, hb.values hu, List.map_congr_left hkeep]
    simp [hv]

theorem addCapture (hb : Booked u h b) (methods : MethodTable) (z : Symbolizer)
    (c : Capture × Int) :
    Booked u (h ++ [.capture c.1.trace.key c.2 c.1.metric])
      (Builder.addCapture methods (b, z) c).1 := by
  obtain ⟨c, w⟩ := c
  cases hc : b.index.get? c.trace.key with
  | some j =>
      rw [Builder.addCapture_of_known hc]
      exact hb.known hc w c.metric
  | none =>
      have hkeys : c.trace.key ∉ h.keys := by
        rw [hb.mem_keys_iff, hc]
        simp
      have hzero := Ledger.sum_weight_of_not_mem hkeys
      simp only [Builder.addCapture, SampleIndex.sample?, hc]
      let r := Rendering.renderFrames b.id methods { table := b.table, symbolizer := z }
        (c.trace.trim b.plan.skip.toNat)
      refine hb.opened (s := ⟨r.locationIds, [w, c.metric]⟩) ?_ ?_ ?_ ?_ ?_
      · rw [Ledger.openers_concat_capture, if_neg (by simp [hkeys])]
      · intro x hx
        apply Ledger.values_concat_of_ne
        rintro w' m' rfl
        exact hkeys (Ledger.mem_keys_of_opener hx)
      · rw [Ledger.values_concat_self, hzero.1, hzero.2, Int.zero_add, Int.zero_add]
      · show _ ++ [_] = _
        rw [Rendering.samples_renderFrames]
        rfl
      · intro k j
        unfold SampleIndex.put
        rw [Registry.get?_insert]
        by_cases hk : k = c.trace.key
        · subst hk
          simp [hc, eq_comm]
        · simp [hk, Ne.symm hk]

theorem addCaptures (hb : Booked u h b) (methods : MethodTable) (z : Symbolizer)
    (cs : List (Capture × Int)) :
    Booked u (h ++ cs.map fun c => .capture c.1.trace.key c.2 c.1.metric)
      (Builder.addCaptures methods (b, z) cs).1 := by
  induction cs generalizing h b z with
  | nil =>
      rw [List.map_nil, List.append_nil]
      exact hb
  | cons c cs ih =>
      have hcs := ih (hb.addCapture methods z c) (Builder.addCapture methods (b, z) c).2
      rw [List.append_assoc] at hcs
      exact hcs

theorem addArtificial (hb : Booked u h b) (name : String) (count rate : Int) :
    Booked u (h ++ [.artificial count rate]) (b.addArtificial name count rate) := by
  let k : FrameLabel := ⟨name, name, "", -1⟩
  refine hb.opened (s := ⟨[(b.table.intern k).1.id], [count, count * rate]⟩)
    (Ledger.openers_concat_artificial _ h _ _) ?_ rfl ?_ ?_
  · intro x _
    rw [Ledger.values_concat_artificial]
  · exact congrArg (· ++ [_]) (LocationTable.samples_intern b.table k)
  · simp [Builder.addArtificial]

/-- Finishing keeps the samples in their places. -/
theorem finish (hb : Booked u h b) (exp : Float → Float) (unsampled : Bool) :
    Booked False h (b.finish exp unsampled).2 := by
  obtain ⟨ss, he, hids, -⟩ := b.finish_eq_setSamples exp unsampled
  have hlength : ss.length = b.samples.length := by simpa using congrArg List.length hids
  rw [he]
  exact ⟨hlength.trans hb.length, hb.index, False.elim⟩

end Booked

/-! ### Sessions -/

namespace Session

/-- What an answered operation adds to the ledger of the builder at desk `i`; a refused operation
adds nothing. -/
def entries (i : Nat) : Op × Except OpError Answer → Ledger
  | (.addBatch j batch counts?, .ok _) =>
    if j = i then
      (batch.zip (Builder.weights batch counts?)).map fun c =>
        .capture c.1.trace.key c.2 c.1.metric
    else []
  | (.addArtificial j _ count rate, .ok _) => if j = i then [.artificial count rate] else []
  | _ => []

/-- The ledger of the builder at desk `i` after a run. -/
def ledger (exp : Float → Float) (i : Nat) (ops : List Op) : Ledger :=
  (ops.zip (run exp {} ops).1).flatMap (entries i)

variable {exp : Float → Float} {s s' : Session} {i : Nat} {d : Desk}

theorem length_run (exp : Float → Float) (s : Session) (ops : List Op) :
    (s.run exp ops).1.length = ops.length := by
  induction ops generalizing s with
  | nil => rfl
  | cons op ops ih => simp [run, ih]

theorem ledger_concat (exp : Float → Float) (i : Nat) (ops : List Op) (op : Op) :
    ledger exp i (ops ++ [op]) =
      ledger exp i ops ++ entries i (op, ((after exp ops).step exp op).1) := by
  unfold ledger
  rw [run_append, List.zip_append (length_run exp {} ops).symm, List.flatMap_append]
  exact congrArg (_ ++ ·) (List.append_nil _)

theorem entries_of_error (op : Op) (e : OpError) (i : Nat) : entries i (op, .error e) = [] := by
  cases op <;> rfl

theorem entries_of_spares {op : Op} {answer : Except OpError Answer} (h : op.Spares answer)
    (i : Nat) : entries i (op, answer) = [] := by
  obtain h | rfl | ⟨e, rfl⟩ := h
  · cases op with
    | addBatch => simp [Op.builder?] at h
    | addArtificial => simp [Op.builder?] at h
    | _ => rfl
  · exact entries_of_error op _ i
  · exact entries_of_error op _ i

/-- A desk whose builder has worked, or another one. -/
theorem booked_setBuilder {u u' : Prop} {h h' : Ledger} {j : Nat} {e : Desk} {b : Builder}
    (he : s.desks[j]? = some e) (hd : s.desks[i]? = some d) (hb : Booked u h d.builder)
    (hu : u' → u) (hsame : j = i → Booked u h e.builder → Booked u' (h ++ h') b)
    (hne : j ≠ i → h' = []) :
    ∃ d', (s.setBuilder j b).desks[i]? = some d' ∧ Booked u' (h ++ h') d'.builder := by
  rw [getElem?_setBuilder]
  by_cases hji : j = i
  · subst hji
    obtain rfl := Option.some.inj (he.symm.trans hd)
    rw [if_pos rfl, he]
    exact ⟨_, rfl, hsame rfl hb⟩
  · rw [if_neg hji, hne hji, List.append_nil]
    exact ⟨d, hd, hb.mono hu⟩

/-- A move books its entries. -/
theorem booked_move {op : Op} {answer : Except OpError Answer} {u : Prop} {h : Ledger}
    (hm : s.Move exp op answer s') (hd : s.desks[i]? = some d) (hb : Booked u h d.builder) :
    ∃ d', s'.desks[i]? = some d' ∧
      Booked (u ∧ ∀ how, op ≠ .finish i how) (h ++ entries i (op, answer)) d'.builder := by
  cases hm with
  | aside hop ha =>
      rw [entries_of_spares hop, List.append_nil]
      exact ⟨d, desk_aside ha hd, hb.mono And.left⟩
  | artificial he name count rate =>
      refine booked_setBuilder he hd hb And.left ?_ fun hne => if_neg hne
      intro hji hbe
      simpa [entries, hji] using hbe.addArtificial name count rate
  | intern he label =>
      refine booked_setBuilder he hd hb And.left ?_ fun _ => rfl
      intro _ hbe
      simpa [entries] using hbe.congr (Builder.samples_intern _ label) rfl
  | finish he how =>
      refine booked_setBuilder he hd hb And.left ?_ fun _ => rfl
      rintro rfl hbe
      obtain ⟨unsampled, hfinish⟩ := finish_eq exp how _
      show Booked _ (h ++ []) _
      rw [hfinish, List.append_nil]
      exact (hbe.finish exp unsampled).mono fun hu => hu.2 how rfl
  | locate hz he ha =>
      refine booked_setBuilder (s := s.setSymbolizer _ _) he hd hb And.left ?_ fun _ => rfl
      intro _ hbe
      simpa [entries] using hbe.congr (Builder.samples_locate _ _ _) rfl
  | @mislocate _ _ _ e hz he =>
      refine booked_setBuilder (s := s.setSymbolizer _ _) he hd hb And.left ?_ fun _ => rfl
      intro _ hbe
      have hsamples : e.builder.pushLineless.samples = e.builder.samples := rfl
      simpa [entries] using hbe.congr hsamples rfl
  | batch he hz _ _ _ _ hr =>
      subst hr
      refine booked_setBuilder (s := s.setSymbolizer _ _) he hd hb And.left ?_
        fun hne => if_neg hne
      intro hji hbe
      rw [entries, if_pos hji]
      exact (hbe.addCaptures _ _ _).mono And.left

/-- Nothing is booked before the desk is there. -/
theorem entries_of_none {op : Op} {answer : Except OpError Answer}
    (hm : s.Move exp op answer s') (hd : s.desks[i]? = none) : entries i (op, answer) = [] := by
  have hne : ∀ {j : Nat} {e : Desk}, s.desks[j]? = some e → j ≠ i := by
    rintro j e he rfl
    rw [hd] at he
    cases he
  cases hm with
  | aside hop _ => exact entries_of_spares hop i
  | artificial he => exact if_neg (hne he)
  | batch he => exact if_neg (hne he)
  | _ => rfl

/-- After every run all builders are booked. -/
theorem booked_after (exp : Float → Float) (i : Nat) (ops : List Op) :
    ((after exp ops).desks[i]? = none → ledger exp i ops = []) ∧
      ∀ d : Desk, (after exp ops).desks[i]? = some d →
        Booked (∀ how, .finish i how ∉ ops) (ledger exp i ops) d.builder := by
  refine after_induction (M := fun ops s => (s.desks[i]? = none → ledger exp i ops = []) ∧
    ∀ d : Desk, s.desks[i]? = some d →
      Booked (∀ how, .finish i how ∉ ops) (ledger exp i ops) d.builder) ?_ ?_ ops
  · simp [ledger]
  · intro ops op ih
    have hm := move_step exp (after exp ops) op
    rw [ledger_concat]
    cases hd : (after exp ops).desks[i]? with
    | none =>
        rw [ih.1 hd, entries_of_none hm hd]
        refine ⟨fun _ => rfl, ?_⟩
        intro d' hd'
        obtain ⟨plan, k, m, rfl⟩ := opened_move hm hd hd'
        exact booked_ofPlan _ i plan
    | some d =>
        obtain ⟨e, he, hb⟩ := booked_move hm hd (ih.2 d hd)
        refine ⟨fun hnone => ?_, fun d' hd' => ?_⟩
        · rw [he] at hnone
          cases hnone
        · obtain rfl := Option.some.inj (he.symm.trans hd')
          apply hb.mono
          intro hf
          exact ⟨fun how hmem => hf how (List.mem_append_left _ hmem),
            fun how hop => hf how (by simp [hop])⟩

/-- Until a profile is finished, its samples are those of the ledger: one for every distinct key in
the order of the first captures, with the totals of the key, and one for every artificial trace,
with its own values.  The index finds the sample of a key. -/
theorem samples_after (exp : Float → Float) {ops : List Op} {i : Nat} {d : Desk}
    (hd : (after exp ops).desks[i]? = some d) (hf : ∀ how, .finish i how ∉ ops) :
    let h := ledger exp i ops
    d.builder.samples.map (·.values) = (h.openers []).map h.values ∧
      (h.openers []).keys = h.keys.eraseDups ∧
      ∀ k j, d.builder.index.get? k = some j ↔
        ∃ w m, (h.openers [])[j]? = some (.capture k w m) := by
  intro h
  have hb := (booked_after exp i ops).2 d hd
  refine ⟨hb.values hf, ?_, hb.index⟩
  rw [Ledger.keys_openers, List.filter_eq_self.2 (by simp)]

/-- Weights may be zero or negative, and an artificial trace may come between two batches, as may a
method that changes what a frame shows. -/
theorem samples_after_weighted :
    let lines : LineTable := ⟨[⟨0, 40⟩, ⟨5, 41⟩], by decide⟩
    let run : Method := ⟨"Job.java", "p/q/Job", "run", some "(I)V", lines⟩
    let f : Capture := ⟨[⟨7, .number 1⟩], 3⟩
    let g : Capture := ⟨[.native 16, ⟨7, .number 1⟩], 5⟩
    let ops : List Op := [.openSymbolizer [⟨16, 8, "f"⟩], .openMethods [],
      .openPlanned ⟨1, {}, {}, 0, false⟩ 0 0, .addBatch 0 [f, g, f] (some [2, 0, -4]),
      .addArtificial 0 "idle" 3 10, .addMethod 0 (.number 1) run, .addBatch 0 [g, f] none]
    ∃ d : Desk, (after id ops).desks[0]? = some d ∧
      d.builder.samples.map (·.values) = [[-1, 9], [1, 10], [3, 30]] := by
  intro lines run f g ops
  have hf : ∀ how, .finish 0 how ∉ ops := by
    intro how
    simp [ops]
  obtain ⟨hvalues, -, -⟩ := @samples_after id ops 0 _ rfl hf
  have hledger : ledger id 0 ops = [.capture f.trace.key 2 3, .capture g.trace.key 0 5,
      .capture f.trace.key (-4) 3, .artificial 3 10, .capture g.trace.key 1 5,
      .capture f.trace.key 1 3] := by decide +kernel
  rw [hledger] at hvalues
  exact ⟨_, rfl, hvalues⟩

end Session

end StackProfile
