import StackProfile.Builder.Unsample

/-! # Sessions

A session holds symbolizers, method tables and builders.  A builder uses one symbolizer and one
method table; several builders may use the same ones.  Objects are known by their position in the
order in which they were opened, and the position of a builder is its identifier.

`step` carries out one operation and answers it.  An operation that fails leaves the session as far
as it got, and later operations go on from there.

Main lemmas: operations can be carried out in two parts (`run_append`), and replacing an object
keeps the number of builders (`length_desks_setSymbolizer`, `length_desks_setBuilder`). -/

namespace StackProfile

/-- A builder, the position of its symbolizer and the position of its method table. -/
structure Desk where
  builder : Builder
  symbolizer : Nat
  methods : Nat
deriving DecidableEq, Repr

/-- Symbolizers, method tables and builders. -/
structure Session where
  symbolizers : List Symbolizer := []
  methodTables : List MethodTable := []
  desks : List Desk := []
deriving DecidableEq, Repr

/-- How a profile is finished. -/
inductive Finish where
  | sampled
  | unsampled
  | planned
deriving DecidableEq, Repr

/-- What can be asked of a session. -/
inductive Op where
  | openSymbolizer (symbols : List Symbol)
  | register (symbolizer : Nat) (symbol : Symbol)
  | load (symbolizer : Nat) (path : String) (content? : Option String)
  | nameAll (symbolizer : Nat) (addresses : List Int)
  | resolveBatch (symbolizer : Nat) (batch : List Capture)
  | knownNames (symbolizer : Nat)
  | locate (symbolizer builder : Nat) (frame : Frame)
  | openMethods (methods : List (MethodId × Method))
  | addMethod (methods : Nat) (id : MethodId) (method : Method)
  | resolve (methods : Nat) (frame : Frame)
  | openConfigured (kind : ProfileKind) (rate : Int) (skip? : Option Int)
      (unsample? : Option Bool) (symbolizer methods : Nat)
  | openPlanned (plan : Plan) (symbolizer methods : Nat)
  | addBatch (builder : Nat) (batch : List Capture) (counts? : Option (List Int))
  | addArtificial (builder : Nat) (name : String) (count rate : Int)
  | intern (builder : Nat) (label : FrameLabel)
  | look (builder : Nat)
  | stackNames (builder : Nat)
  | finish (builder : Nat) (how : Finish)
deriving DecidableEq, Repr

/-- Why an operation fails. -/
inductive OpError where
  | settings (cause : SettingsError)
  | load (cause : LoadError)
  | resolve (cause : ResolveError)
  | batch (cause : BatchError)
  | ratio (cause : Sampling.RatioError)
  | absent
deriving DecidableEq, Repr

/-- The answer of an operation that succeeds. -/
inductive Answer where
  | size (n : Nat)
  | rate (n : Int)
  | report (r : LoadReport) (symbols : Nat)
  | names (ns : List String)
  | namesByAddress (ns : List (Int × String))
  | location (l : Location)
  | frame (f : ResolvedFrame)
  | builder (b : Builder)
  | stackNames (names : List (List (Option String)))
  | profile (p : Profile)
deriving DecidableEq, Repr

namespace Session

/-- Adds a symbolizer. -/
def pushSymbolizer (s : Session) (z : Symbolizer) : Session :=
  { s with symbolizers := s.symbolizers ++ [z] }

/-- Adds a method table. -/
def pushMethods (s : Session) (t : MethodTable) : Session :=
  { s with methodTables := s.methodTables ++ [t] }

/-- Adds a builder without samples. -/
def pushBuilder (s : Session) (plan : Plan) (symbolizer methods : Nat) : Session :=
  { s with desks := s.desks ++ [⟨.ofPlan s.desks.length plan, symbolizer, methods⟩] }

/-- Replaces a symbolizer. -/
def setSymbolizer (s : Session) (i : Nat) (z : Symbolizer) : Session :=
  { s with symbolizers := s.symbolizers.set i z }

/-- Replaces a method table. -/
def setMethods (s : Session) (i : Nat) (t : MethodTable) : Session :=
  { s with methodTables := s.methodTables.set i t }

/-- Replaces the builder of a desk. -/
def setBuilder (s : Session) (i : Nat) (b : Builder) : Session :=
  { s with desks := s.desks.modify i fun d => { d with builder := b } }

/-- Works with a symbolizer. -/
def onSymbolizer (s : Session) (i : Nat)
    (f : Symbolizer → Except OpError Answer × Symbolizer) : Except OpError Answer × Session :=
  match s.symbolizers[i]? with
  | none => (.error .absent, s)
  | some z => ((f z).1, s.setSymbolizer i (f z).2)

/-- Works with a builder. -/
def onBuilder (s : Session) (i : Nat) (f : Builder → Except OpError Answer × Builder) :
    Except OpError Answer × Session :=
  match s.desks[i]? with
  | none => (.error .absent, s)
  | some d => ((f d.builder).1, s.setBuilder i (f d.builder).2)

/-- Loads a perf map. -/
def load (path : String) (content? : Option String) (z : Symbolizer) :
    Except OpError Answer × Symbolizer :=
  match z.load path content? with
  | (.error e, z) => (.error (.load e), z)
  | (.ok r, z) => (.ok (.report r z.symbols.size), z)

/-- Resolves the native frames of a batch. -/
def resolveBatch (batch : List Capture) (z : Symbolizer) : Except OpError Answer × Symbolizer :=
  match z.resolveBatch batch with
  | (.error e, z) => (.error (.resolve e), z)
  | (.ok (), z) => (.ok (.namesByAddress z.namesByAddress), z)

/-- Finds the location of a frame, by any symbolizer and for any builder. -/
def locate (s : Session) (symbolizer builder : Nat) (frame : Frame) :
    Except OpError Answer × Session :=
  match s.symbolizers[symbolizer]?, s.desks[builder]? with
  | some z, some d =>
    let (outcome, b, z) := d.builder.locateFrame z frame
    (match outcome with
      | .error e => .error (.resolve e)
      | .ok location => .ok (.location location),
      (s.setSymbolizer symbolizer z).setBuilder builder b)
  | _, _ => (.error .absent, s)

/-- Adds a batch to a builder, with the symbolizer and the methods of its desk. -/
def addBatch (s : Session) (builder : Nat) (batch : List Capture) (counts? : Option (List Int)) :
    Except OpError Answer × Session :=
  match s.desks[builder]? with
  | none => (.error .absent, s)
  | some d =>
    match s.symbolizers[d.symbolizer]?, s.methodTables[d.methods]? with
    | some z, some t =>
      let (outcome, b, z) := d.builder.addBatch z t batch counts?
      (match outcome with
        | .error e => .error (.batch e)
        | .ok () => .ok (.builder b),
        (s.setSymbolizer d.symbolizer z).setBuilder builder b)
    | _, _ => (.error .absent, s)

/-- Finishes a profile, with `exp` as the exponential function on doubles. -/
def finish (exp : Float → Float) (how : Finish) (b : Builder) : Except OpError Answer × Builder :=
  let (outcome, b) :=
    match how with
    | .sampled => b.finish exp false
    | .unsampled => b.finish exp true
    | .planned => b.finishDefault exp
  match outcome with
  | .error e => (.error (.ratio e), b)
  | .ok p => (.ok (.profile p), b)

/-- Carries out one operation, with `exp` as the exponential function on doubles. -/
def step (exp : Float → Float) (s : Session) : Op → Except OpError Answer × Session
  | .openSymbolizer symbols =>
    let z := Symbolizer.ofSymbols symbols
    (.ok (.size z.symbols.size), s.pushSymbolizer z)
  | .register symbolizer symbol =>
    s.onSymbolizer symbolizer fun z =>
      let z := z.register symbol
      (.ok (.size z.symbols.size), z)
  | .load symbolizer path content? => s.onSymbolizer symbolizer (load path content?)
  | .nameAll symbolizer addresses =>
    s.onSymbolizer symbolizer fun z =>
      let (ns, z) := z.nameAll addresses
      (.ok (.names ns), z)
  | .resolveBatch symbolizer batch => s.onSymbolizer symbolizer (resolveBatch batch)
  | .knownNames symbolizer =>
    s.onSymbolizer symbolizer fun z => (.ok (.namesByAddress z.namesByAddress), z)
  | .locate symbolizer builder frame => s.locate symbolizer builder frame
  | .openMethods methods =>
    let t : MethodTable := Registry.ofList methods
    (.ok (.size t.size), s.pushMethods t)
  | .addMethod methods id method =>
    match s.methodTables[methods]? with
    | none => (.error .absent, s)
    | some t =>
      let t := t.insert id method
      (.ok (.size t.size), s.setMethods methods t)
  | .resolve methods frame =>
    match s.methodTables[methods]? with
    | none => (.error .absent, s)
    | some t => (.ok (.frame (t.resolve frame.method frame.line)), s)
  | .openConfigured kind rate skip? unsample? symbolizer methods =>
    match Settings.make kind rate skip? unsample? with
    | .error e => (.error (.settings e), s)
    | .ok settings => (.ok (.rate settings.rate), s.pushBuilder settings.plan symbolizer methods)
  | .openPlanned plan symbolizer methods =>
    (.ok (.rate plan.rate), s.pushBuilder plan symbolizer methods)
  | .addBatch builder batch counts? => s.addBatch builder batch counts?
  | .addArtificial builder name count rate =>
    s.onBuilder builder fun b =>
      let b := b.addArtificial name count rate
      (.ok (.builder b), b)
  | .intern builder label =>
    s.onBuilder builder fun b =>
      let (location, b) := b.intern label
      (.ok (.location location), b)
  | .look builder => s.onBuilder builder fun b => (.ok (.builder b), b)
  | .stackNames builder => s.onBuilder builder fun b => (.ok (.stackNames b.stackNames), b)
  | .finish builder how => s.onBuilder builder (finish exp how)

/-- Carries out operations one after the other and keeps their answers. -/
def run (exp : Float → Float) (s : Session) : List Op → List (Except OpError Answer) × Session
  | [] => ([], s)
  | op :: ops =>
    let (answer, s) := s.step exp op
    let (answers, s) := s.run exp ops
    (answer :: answers, s)

theorem run_append (exp : Float → Float) (s : Session) (ops ops' : List Op) :
    s.run exp (ops ++ ops') =
      ((s.run exp ops).1 ++ ((s.run exp ops).2.run exp ops').1,
        ((s.run exp ops).2.run exp ops').2) := by
  induction ops generalizing s with
  | nil => rfl
  | cons op ops ih => simp [run, ih]

@[simp] theorem length_desks_setBuilder (s : Session) (i : Nat) (b : Builder) :
    (s.setBuilder i b).desks.length = s.desks.length := List.length_modify _ _ _

@[simp] theorem length_desks_setSymbolizer (s : Session) (i : Nat) (z : Symbolizer) :
    (s.setSymbolizer i z).desks.length = s.desks.length := rfl

end Session

end StackProfile
