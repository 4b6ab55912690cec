import ClassWeave.Proofs.Results
import ClassWeave.Transform.Pipeline

/-!
# Requests to a pipeline

A pipeline keeps a registry, files and a log from one request to the next, but only the registry
decides what becomes of a class, and the registry never changes once the setup has run. So every
request is answered as if it were the only one: by what the setup registered before it ended, in
whatever way it ended, and by the request.

`Modest` computations are what runs behind the setup. They leave the registry alone and put what
they tell behind what was told before.
-/

namespace ClassWeave

/-! ## What a setup registers -/

/-- One thing that a setup registers. -/
inductive Registration where
  | writer (w : ClassWriter)
  | replacement (cls path : String)

namespace Registration

/-- The registry with one thing more. -/
def addTo (r : Registry) : Registration → Registry
  | writer w => r.addWriter w
  | replacement cls path => r.replace cls path

/-- The registry with these things, registered in order. -/
def registry (rs : List Registration) : Registry := rs.foldl addTo .empty

def register : Registration → Setup Unit
  | writer w => Setup.addWriter w
  | replacement cls path => Setup.replace cls path

/-- Registers these things in order; then ends well, fails or breaks down. -/
def setup (rs : List Registration) (ending : Except Interruption Unit) : Setup Unit := do
  rs.forM register
  liftM ending

/-- What writers make of a class, by its internal name, in the order in which they were registered.
A writer may name its class with slashes or dots. -/
def changes (rs : List Registration) (cls : String) :
    List (ClassModel → TransformResult ClassModel) :=
  rs.filterMap fun
    | writer w => if slashed w.target = cls then some w.apply else none
    | replacement _ _ => none

/-- The paths that were registered as replacements of a class, by its internal name. -/
def paths (rs : List Registration) (cls : String) : List String :=
  rs.filterMap fun
    | writer _ => none
    | replacement c path => if slashed c = cls then some path else none

end Registration

namespace Pipeline

/-! ## Computations behind the setup -/

theorem run_bind {α β : Type} (x : Session α) (f : α → Session β) (s : State) :
    (x >>= f).run s = (f (x.run s).1).run (x.run s).2 := rfl

/-- The computation keeps the registry, and puts what it tells behind what was told before without
looking at that. -/
structure Modest {α : Type} (x : Session α) : Prop where
  registry : ∀ s, (x.run s).2.registry = s.registry
  log : ∀ (s : State) (l : List LogEntry), x.run { s with log := s.log ++ l } =
    ((x.run s).1, { (x.run s).2 with log := (x.run s).2.log ++ l })

namespace Modest

variable {ε α β : Type}

theorem pure (a : α) : Modest (Pure.pure a : Session α) := ⟨fun _ => rfl, fun _ _ => rfl⟩

theorem bind {x : Session α} {f : α → Session β} (hx : Modest x) (hf : ∀ a, Modest (f a)) :
    Modest (x >>= f) := by
  constructor
  · intro s
    rw [run_bind, (hf _).registry, hx.registry]
  · intro s l
    rw [run_bind, run_bind, hx.log]
    exact (hf _).log _ _

/-- A computation may look at anything but what was told. -/
theorem look {f : State → Session α} (hlog : ∀ (s : State) (l : List LogEntry),
    f { s with log := l } = f s) (hf : ∀ s, Modest (f s)) : Modest (get >>= f) := by
  constructor
  · exact fun s => (hf s).registry s
  · intro s l
    show (f { s with log := s.log ++ l }).run { s with log := s.log ++ l } = _
    rw [hlog]
    exact (hf s).log s l

theorem tell (level : LogLevel) (message : String) : Modest (tell level message) :=
  ⟨fun _ => rfl, fun _ _ => rfl⟩

theorem forM {f : α → Session PUnit} (hf : ∀ a, Modest (f a)) (as : List α) :
    Modest (as.forM f) := by
  induction as with
  | nil => exact pure _
  | cons a as ih => exact (hf a).bind fun _ => ih

/-- A change of anything but the registry and what was told. -/
theorem change {f : State → State} (hregistry : ∀ s, (f s).registry = s.registry)
    (hlog : ∀ (s : State) (l : List LogEntry),
      f { s with log := s.log ++ l } = { f s with log := (f s).log ++ l }) :
    Modest (modify f : Session PUnit) := by
  constructor
  · exact hregistry
  · intro s l
    exact congrArg (Prod.mk PUnit.unit) (hlog s l)

theorem ofResult (x : Except ε α) : Modest (liftM x : ExceptT ε Session α).run := by
  cases x with
  | ok | error => exact pure _

theorem lift {x : Session α} (hx : Modest x) : Modest (liftM x : ExceptT ε Session α).run :=
  hx.bind fun _ => pure _

end Modest

/-- The computation has the same result in every state. -/
def Always {α : Type} (x : Session α) (a : α) : Prop := ∀ s, (x.run s).1 = a

namespace Always

variable {ε α β : Type}

theorem bind {x : Session α} {f : α → Session β} {a : α} {b : β} (hx : Always x a)
    (hf : Always (f a) b) : Always (x >>= f) b := by
  intro s
  rw [run_bind, hx]
  exact hf _

/-- What only changes the state may come in front. -/
theorem behind {x : Session α} {f : α → Session β} {b : β} (hf : ∀ a, Always (f a) b) :
    Always (x >>= f) b := fun _ => hf _ _

theorem ofResult (x : Except ε α) : Always (liftM x : ExceptT ε Session α).run x := by
  cases x with
  | ok | error => exact fun _ => rfl

theorem lift {x : Session α} {a : α} (hx : Always x a) :
    Always (liftM x : ExceptT ε Session α).run (.ok a) :=
  fun s => congrArg Except.ok (hx s)

end Always

/-- What writers make of the bytes of a class. -/
def wovenBy (h : Hierarchy) (changes : List (ClassModel → TransformResult ClassModel))
    (bytes : List UInt8) : TransformResult (List UInt8) := do
  let c ← (ClassModel.parse bytes).mapError .cls
  let c ← changes.foldlM (fun c change => change c) c
  (c.toBytes h).mapError .cls

/-- What becomes of a class that has writers. -/
def outcome : TransformResult (List UInt8) → Output
  | .ok woven => .woven woven
  | .error _ => .passThrough

section steps

variable {p : Pipeline} {load : String → Except FileError (List UInt8)}
  (hload : ∀ t path, (p.resources.load t path).1 = load path)

/-- What becomes of a class, by what is registered. -/
def settled (p : Pipeline) (load : String → Except FileError (List UInt8)) (r : Registry)
    (cls : String) (bytes : List UInt8) : TransformResult Output :=
  match r.replacement? cls, r.writersFor cls with
  | some path, _ => ((load path).map Output.replaced).mapError (.resource cls path)
  | none, [] => .ok .passThrough
  | none, ws => .ok (outcome (wovenBy p.hierarchy (ws.map ClassWriter.apply) bytes))

/-- What comes behind the setup. -/
def settle (p : Pipeline) (cls loader : String) (bytes : List UInt8) (r : Registry) :
    Session (TransformResult Output) :=
  match r.replacement? cls, r.writersFor cls with
  | some path, _ => p.loadReplacement cls loader path
  | none, [] => return .ok .passThrough
  | none, ws => return .ok (← p.runWriters cls loader ws bytes)

/-- Nothing was told yet. -/
def State.fresh (s : State) : State := { s with log := [] }

end steps

/-- The state behind some requests. -/
def after (p : Pipeline) (t : FileTree) (qs : List LoadRequest) : State :=
  ((qs.mapM p.answer).run (.start t)).2

end Pipeline

/-! ## What decides -/

namespace Pipeline

variable {p : Pipeline} {load : String → Except FileError (List UInt8)} {rs : List Registration}
  {q : LoadRequest}

section named

variable {settings : Settings} {h : Hierarchy} {name : String} (hname : q.name = some name)
  (hbytes : q.bytes ≠ [])

include hname hbytes

variable (hfree : settings.isProtected (slashed name) = false)

include hfree

end named

section runs

variable (hload : ∀ t path, (p.resources.load t path).1 = load path)

include hload

end runs

end Pipeline
end ClassWeave
