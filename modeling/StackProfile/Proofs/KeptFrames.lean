import StackProfile.Builder.Basic
import StackProfile.Proofs.Request

/-! # The frames of a trace that are kept

A trace loses its leading native frames, as many as the plan says, and of what remains every native
frame that repeats the name of the native frame right before it.  The walk of a rendering asks for
the locations of just the frames that are kept, in their order.

Main lemmas: trimming is a single drop (`trim_eq_drop`), what resolving makes of a managed frame is
read off its entry in the method table (`view_resolve`), the request of a kept frame shows the frame
(`view_request`), and rendering is serving the requests of the kept frames (`renderFrames_eq`). -/

namespace StackProfile

/-- What a frame in a method shows: class and method as source code writes them and without the
numbers of generated code, the arguments, the file and the source line. -/
def Method.view (m : Method) (location : Int) : LocationView :=
  let className := m.className.toList.map fun c => if c = '/' then '.' else c
  let call := DisplayName.stable (className ++ '.' :: m.name.toList)
  let parameters := Descriptor.parameterList (m.signature.getD "").toList
  ⟨String.ofList (call ++ parameters), m.fileName, m.lineTable.lineAt location, 0⟩

namespace ResolvedFrame

/-- What the location of a resolved frame shows. -/
def view (e : ResolvedFrame) : LocationView := ⟨e.displayName, e.fileName, e.line, 0⟩

theorem parameters_eq (e : ResolvedFrame) :
    e.parameters = Descriptor.parameterList (e.signature.getD "").toList := by
  unfold parameters
  cases e.signature with
  | some s => rfl
  | none => exact (Descriptor.parameterList_of_head_ne (by simp)).symm

end ResolvedFrame

namespace MethodTable

/-- What a frame of a method shows.  Of a method that the table does not know, only the dot between
class and method is left. -/
def view (methods : MethodTable) (id : MethodId) (location : Int) : LocationView :=
  match methods.get? id with
  | none => ⟨".", "", 0, 0⟩
  | some m => m.view location

theorem view_resolve (methods : MethodTable) (id : MethodId) (location : Int) :
    (methods.resolve id location).view = methods.view id location := by
  unfold view
  cases h : methods.get? id with
  | none =>
      have hdot : ({} : ResolvedFrame).displayName = "." := by decide +kernel
      rw [resolve_of_unknown h, ResolvedFrame.view, hdot]
  | some m =>
      unfold resolve
      rw [h]
      simp only [ResolvedFrame.view, ResolvedFrame.displayName, ResolvedFrame.parameters_eq,
        String.toList_ofList]
      rfl

end MethodTable

namespace Frame

/-- A native frame has an address. -/
def Addressed (f : Frame) : Prop := f.isNative = true → f.address?.isSome = true

/-- A native frame has an address that the symbolizer has named. -/
def KnownTo (z : Symbolizer) (f : Frame) : Prop :=
  f.isNative = true → ∃ a, f.address? = some a ∧ (z.names.get? a).isSome = true

/-- Whether a frame and the frame right before it are native frames of one name. -/
def repeats (name : Int → String) (prev? : Option Frame) (f : Frame) : Bool :=
  prev?.any fun p => p.isNative && f.isNative && p.address?.map name == f.address?.map name

/-- The location that a kept frame asks for. -/
def request (methods : MethodTable) (f : Frame) : Request :=
  match f.isNative, f.address? with
  | true, some a => .native a
  | _, _ => .managed (frameLabel methods f)

/-- What a kept frame shows.  A native frame without address shows nothing: a batch that holds one
is refused. -/
def view (name : Int → String) (methods : MethodTable) (f : Frame) : LocationView :=
  match f.isNative, f.method with
  | true, .number a => ⟨name a, "", 0, a⟩
  | true, _ => ⟨"", "", 0, 0⟩
  | false, .unknown => ⟨"Unknown method", "", 0, 0⟩
  | false, id => methods.view id f.line

theorem exists_address {f : Frame} (h : f.Addressed) (hf : f.isNative = true) :
    ∃ a, f.address? = some a ∧ f.method = .number a := by
  obtain ⟨a, ha⟩ := Option.isSome_iff_exists.1 (h hf)
  refine ⟨a, ha, ?_⟩
  unfold address? at ha
  split at ha
  · rename_i b hb
    rw [hb, Option.some.inj ha]
  · simp at ha

theorem request_of_native {f : Frame} (hf : f.isNative = true) {a : Int} (ha : f.address? = some a)
    (methods : MethodTable) : f.request methods = .native a := by
  unfold request
  rw [hf, ha]

theorem request_of_managed {f : Frame} (hf : f.isNative = false) (methods : MethodTable) :
    f.request methods = .managed (frameLabel methods f) := by
  unfold request
  rw [hf]

theorem KnownTo.addressed {z : Symbolizer} {f : Frame} (h : f.KnownTo z) : f.Addressed := by
  intro hf
  obtain ⟨a, ha, -⟩ := h hf
  rw [ha]
  rfl

theorem KnownTo.of_names_eq {z z' : Symbolizer} {f : Frame} (h : f.KnownTo z)
    (hn : z'.names = z.names) : f.KnownTo z' := by
  unfold KnownTo
  rwa [hn]

theorem KnownTo.request {z : Symbolizer} {f : Frame} (h : f.KnownTo z) (methods : MethodTable) :
    (f.request methods).Known z := by
  cases hf : f.isNative with
  | true =>
      obtain ⟨a, ha, hn⟩ := h hf
      rw [request_of_native hf ha]
      exact hn
  | false =>
      rw [request_of_managed hf]
      trivial

/-- The location of a kept frame shows the frame. -/
theorem view_request (name : Int → String) (methods : MethodTable) {f : Frame} (h : f.Addressed) :
    (f.request methods).view name = f.view name methods := by
  cases hf : f.isNative with
  | true =>
      obtain ⟨a, ha, hm⟩ := exists_address h hf
      simp only [request_of_native hf ha, view, hf, hm, Request.view]
  | false =>
      simp only [request_of_managed hf, view, hf, Request.view, FrameLabel.view, frameLabel]
      cases hm : f.method with
      | unknown => rfl
      | number n => exact methods.view_resolve _ f.line
      | name s => exact methods.view_resolve _ f.line

end Frame

namespace Trace

/-- The frames that do not repeat the frame right before them, with `prev?` before the first. -/
def unrepeated (name : Int → String) (prev? : Option Frame) : Trace → Trace
  | [] => []
  | f :: t =>
    if f.repeats name prev? then unrepeated name (some f) t
    else f :: unrepeated name (some f) t

/-- The frames that are kept: at most `skip` leading native frames go, then the repeating ones. -/
def kept (name : Int → String) (skip : Int) (t : Trace) : Trace :=
  unrepeated name none (t.drop (min skip.toNat (t.takeWhile Frame.isNative).length))

/-- What the locations of a trace ask for. -/
def requests (name : Int → String) (skip : Int) (methods : MethodTable) (t : Trace) :
    List Request :=
  (t.kept name skip).map (Frame.request methods)

theorem trim_eq_drop (n : Nat) (t : Trace) :
    trim n t = t.drop (min n (t.takeWhile Frame.isNative).length) := by
  fun_induction trim n t with
  | case1 n f t hf ih =>
      have hmin : min n.succ ((t.takeWhile Frame.isNative).length + 1) =
          min n (t.takeWhile Frame.isNative).length + 1 := by omega
      rw [ih, List.takeWhile_cons_of_pos hf, List.length_cons, hmin, List.drop_succ_cons]
  | case2 n f t hf =>
      rw [List.takeWhile_cons_of_neg hf, List.length_nil, Nat.min_zero, List.drop_zero]
  | case3 n t h =>
      cases n with
      | zero => rw [Nat.zero_min, List.drop_zero]
      | succ n =>
          cases t with
          | nil => rfl
          | cons f t => exact absurd rfl (h n f t rfl)

theorem unrepeated_sublist (name : Int → String) (prev? : Option Frame) (t : Trace) :
    (unrepeated name prev? t).Sublist t := by
  induction t generalizing prev? with
  | nil => exact List.Sublist.refl _
  | cons f t ih =>
      rw [unrepeated]
      split
      · exact (ih (some f)).cons f
      · exact (ih (some f)).cons_cons f

theorem kept_sublist (name : Int → String) (skip : Int) (t : Trace) :
    (t.kept name skip).Sublist t :=
  (unrepeated_sublist name none _).trans (List.drop_sublist _ t)

/-- The requests of a trace show what its kept frames show. -/
theorem view_requests (name : Int → String) (skip : Int) (methods : MethodTable) {t : Trace}
    (h : ∀ f ∈ t, f.Addressed) :
    (t.requests name skip methods).map (Request.view name) =
      (t.kept name skip).map (Frame.view name methods) := by
  unfold requests
  rw [List.map_map]
  apply List.map_congr_left
  intro f hf
  exact Frame.view_request name methods (h f ((kept_sublist name skip t).subset hf))

end Trace

/-! ### Rendering -/

namespace Walk

/-- What a walk sees of a frame. -/
def seen (name : Int → String) (f : Frame) : WalkStep :=
  if f.isNative then .native ((f.address?.map name).getD "") else .managed

/-- A walk that saw `prev?` last finds a native frame redundant if it repeats `prev?`. -/
theorem redundant_seen {name : Int → String} {w : Walk} {prev? : Option Frame} {f : Frame}
    (hw : w.last = prev?.map (seen name)) (hp : ∀ p ∈ prev?, p.Addressed) (hf : f.isNative = true)
    {a : Int} (ha : f.address? = some a) :
    (w.step (.native (name a))).redundant = f.repeats name prev? := by
  rw [step, hw]
  cases prev? with
  | none => rfl
  | some p =>
      cases hpn : p.isNative with
      | false => simp [Frame.repeats, seen, hpn]
      | true =>
          obtain ⟨b, hb, -⟩ := Frame.exists_address (hp p rfl) hpn
          rw [Bool.eq_iff_iff]
          simp [Frame.repeats, seen, hpn, hf, ha, hb]

end Walk

namespace Rendering

variable {r : Rendering} {owner : Nat} {methods : MethodTable}

/-- A native frame whose name is known is redundant, or asks for the location of its address. -/
theorem native_of_known {a : Int} (hn : (r.symbolizer.names.get? a).isSome = true) :
    r.native owner a =
      let walk := r.walk.step (.native (r.symbolizer.naming a))
      if walk.redundant then { r with walk }
      else
        let s := (Request.native a).serve owner r.table r.symbolizer
        { walk, locationIds := r.locationIds ++ [s.1.id], table := s.2.1,
          symbolizer := s.2.2 } := by
  obtain ⟨n, hn⟩ := Option.isSome_iff_exists.1 hn
  unfold native Symbolizer.naming
  rw [Symbolizer.nameOf_of_known hn]
  rfl

/-- One step of a rendering: a frame that repeats the one before it only moves the walk on, any
other frame is served. -/
theorem renderFrame_eq {f : Frame} {prev? : Option Frame}
    (hw : r.walk.last = prev?.map (Walk.seen r.symbolizer.naming))
    (hp : ∀ p ∈ prev?, p.Addressed) (hf : f.KnownTo r.symbolizer) :
    renderFrame owner methods r f =
      let walk := r.walk.step (Walk.seen r.symbolizer.naming f)
      if f.repeats r.symbolizer.naming prev? then { r with walk }
      else
        let s := (f.request methods).serve owner r.table r.symbolizer
        { walk, locationIds := r.locationIds ++ [s.1.id], table := s.2.1,
          symbolizer := s.2.2 } := by
  unfold renderFrame
  cases hfn : f.isNative with
  | false =>
      have hrep : f.repeats r.symbolizer.naming prev? = false := by
        cases prev? <;> simp [Frame.repeats, hfn]
      simp only [Bool.false_eq_true, if_false, hrep, Frame.request_of_managed hfn]
      simp [managed, Walk.seen, hfn, Request.serve]
  | true =>
      obtain ⟨a, ha, hn⟩ := hf hfn
      have hseen : Walk.seen r.symbolizer.naming f = .native (r.symbolizer.naming a) := by
        simp [Walk.seen, hfn, ha]
      simp only [if_true, ha, native_of_known hn, hseen, Frame.request_of_native hfn ha,
        Walk.redundant_seen hw hp hfn ha]

/-- Rendering frames is serving the requests of those that are kept. -/
theorem renderFrames_eq {t : Trace} {prev? : Option Frame}
    (hw : r.walk.last = prev?.map (Walk.seen r.symbolizer.naming))
    (hp : ∀ p ∈ prev?, p.Addressed) (ht : ∀ f ∈ t, f.KnownTo r.symbolizer) :
    let qs := (t.unrepeated r.symbolizer.naming prev?).map (Frame.request methods)
    let s := Request.serveAll owner r.table r.symbolizer qs
    let r' := renderFrames owner methods r t
    r'.locationIds = r.locationIds ++ s.1 ∧ r'.table = s.2.1 ∧ r'.symbolizer = s.2.2 := by
  induction t generalizing r prev? with
  | nil => simp [renderFrames, Trace.unrepeated, Request.serveAll]
  | cons f t ih =>
      have hf : f.KnownTo r.symbolizer := ht f List.mem_cons_self
      have hrest : ∀ g ∈ t, g.KnownTo r.symbolizer := fun g hg => ht g (List.mem_cons_of_mem f hg)
      have hprev : ∀ p ∈ some f, p.Addressed := by simpa using hf.addressed
      have hfold : renderFrames owner methods r (f :: t) =
          renderFrames owner methods (renderFrame owner methods r f) t := rfl
      rw [hfold, renderFrame_eq hw hp hf, Trace.unrepeated]
      cases f.repeats r.symbolizer.naming prev? with
      | true => exact ih (by simp) hprev hrest
      | false =>
          have hnaming := Request.naming_serve owner r.table r.symbolizer (f.request methods)
          have hnames := Request.names_serve_of_known (hf.request methods) owner r.table
          simp only [Bool.false_eq_true, if_false, List.map_cons, Request.serveAll]
          have hnext := @ih
            { walk := r.walk.step (Walk.seen r.symbolizer.naming f)
              locationIds := r.locationIds ++
                [((f.request methods).serve owner r.table r.symbolizer).1.id]
              table := ((f.request methods).serve owner r.table r.symbolizer).2.1
              symbolizer := ((f.request methods).serve owner r.table r.symbolizer).2.2 }
            (some f) (by simp [hnaming]) hprev (fun g hg => (hrest g hg).of_names_eq hnames)
          simpa [hnaming] using hnext

end Rendering

end StackProfile
