import ClassWeave.Build.Script

/-!
# Code that is built with a renaming

A renaming can be applied while code is built, or to the code that was built with all names left
alone: the list that comes out is the same. `Build.Renames` compares two computations, one with the
renaming and one without, and has a rule for every way to put code together.
-/

namespace ClassWeave

/-! ## Renaming what was built -/

variable {τ : Type}

def Handle.renamed (r : Renaming) (h : Handle) : Handle :=
  { h with member := r.renameFor h.kind h.member }

def Loadable.renamed (r : Renaming) : Loadable → Loadable
  | .handle h => .handle (h.renamed r)
  | c => c

/-- The name of a call is that of a method of the class that links it. -/
def CallSite.renamed (r : Renaming) (s : CallSite) : CallSite where
  name := r.method ⟨s.bootstrap.member.owner, s.name, s.descriptor⟩
  descriptor := s.descriptor
  bootstrap := s.bootstrap.renamed r
  arguments := s.arguments.map (.renamed r)

def Instr.renamed (r : Renaming) : Instr τ → Instr τ
  | .field op m => .field op (r.renameField m)
  | .method op m isInterface => .method op (r.renameMethod m) isInterface
  | .load c => .load (c.renamed r)
  | .invokeDynamic site => .invokeDynamic (site.renamed r)
  | i => i

def Node.renamed (r : Renaming) : Node → Node
  | .instr i => .instr (i.renamed r)
  | n => n

/-- The list with the name of every member and of every call replaced. -/
def InstrList.renamed (r : Renaming) (l : InstrList) : InstrList :=
  { l with nodes := l.nodes.map (Node.renamed r) }

def Builder.renamed (r : Renaming) (b : Builder) : Builder :=
  { b with
    list := b.list.renamed r
    handles := b.handles.map fun (name, h) => (name, h.renamed r) }

@[simp] theorem Instr.targets_renamed (r : Renaming) (i : Instr τ) :
    (i.renamed r).targets = i.targets := by
  cases i <;> rfl

@[simp] theorem Node.targets_renamed (r : Renaming) (n : Node) :
    (n.renamed r).targets = n.targets := by
  cases n with
  | instr i => exact Instr.targets_renamed r i
  | _ => rfl

namespace InstrList

variable (r : Renaming) (l : InstrList)

theorem push_renamed (n : Node) : (l.renamed r).push (n.renamed r) = (l.push n).renamed r := by
  simp [renamed, push]

theorem mark_renamed (lab : Label) : (l.renamed r).mark lab = (l.mark lab).renamed r := by
  simp [renamed, mark, Node.renamed]

/-- Whether a list is complete does not depend on names. -/
theorem finish_renamed : (l.renamed r).finish = l.finish.map (renamed r) := by
  have hunplaced : (l.renamed r).unplacedLabels = l.unplacedLabels := by
    simp [unplacedLabels, usedLabels, renamed, isPlaced, List.flatMap_map]
  rw [finish, finish, hunplaced]
  cases l.unplacedLabels <;> rfl

end InstrList

theorem Builder.renamed_startingAt (r : Renaming) (first : UInt16) :
    (startingAt first).renamed r = startingAt first := by
  simp [renamed, startingAt, InstrList.renamed, InstrList.empty]

theorem Builder.lookup_renamed (r : Renaming) (b : Builder) (name : String) :
    (b.renamed r).handles.lookup name = (b.handles.lookup name).map (Handle.renamed r) := by
  simp only [renamed]
  induction b.handles with
  | nil => rfl
  | cons p handles ih =>
    rw [List.map_cons, List.lookup_cons, List.lookup_cons, ih]
    split <;> rfl

theorem Renaming.renameFor_identity (kind : HandleKind) (m : MemberRef) :
    identity.renameFor kind m = m := by
  unfold renameFor
  split <;> rfl

/-! ## Two computations compared -/

/-- These handles were made. -/
def Builder.Knows (b : Builder) (names : List String) : Prop :=
  ∀ name ∈ names, ∃ h, b.handles.lookup name = some h

namespace Build

/-- One outcome is the other one renamed, and some more handles were made, unless both failed. -/
inductive Renamed {α : Type} (r : Renaming) (names : List String) (ρ : α → α → Prop) :
    BuildResult α × Builder → BuildResult α × Builder → Prop
  | ok {a a' : α} {b : Builder} (ha : ρ a a') (hb : b.Knows names) :
    Renamed r names ρ (.ok a, b.renamed r) (.ok a', b)
  | error (e : BuildError) (b : Builder) :
    Renamed r names ρ (.error e, b.renamed r) (.error e, b)

/-- The first computation does with the renaming what the second one does without, up to the
renaming. Of the handles, the first names are made before and the second ones behind. -/
def Renames {α : Type} (r : Renaming) (names names' : List String) (ρ : α → α → Prop)
    (x y : Build α) : Prop :=
  ∀ b : Builder, b.Knows names → Renamed r names' ρ (x.on r (b.renamed r)) (y.on .identity b)

/-- The computation itself, with the same results. -/
abbrev Commutes {α : Type} (r : Renaming) (names names' : List String) (x : Build α) : Prop :=
  Renames r names names' Eq x x

variable {α β : Type} {r : Renaming} {names mid names' : List String} {ρ : α → α → Prop}
  {σ : β → β → Prop} {x y : Build α} {f g : α → Build β}

theorem on_bind_error {b b' : Builder} {e : BuildError} (hx : x.on r b = (.error e, b')) :
    (x >>= f).on r b = (.error e, b') := by
  unfold on at hx ⊢
  simp only [ReaderT.run_bind, ExceptT.run_bind, StateT.run_bind, hx]
  rfl

theorem Renames.bind (hx : Renames r names mid ρ x y)
    (hf : ∀ a a', ρ a a' → Renames r mid names' σ (f a) (g a')) :
    Renames r names names' σ (x >>= f) (y >>= g) := by
  intro b hb
  have hfirst := hx b hb
  generalize hxon : x.on r (b.renamed r) = ran at hfirst
  generalize hyon : y.on .identity b = ran' at hfirst
  cases hfirst with
  | ok ha hb' =>
    rw [on_bind hxon, on_bind hyon]
    exact hf _ _ ha _ hb'
  | error e b' =>
    rw [on_bind_error hxon, on_bind_error hyon]
    exact .error e b'

/-- A computation that cannot fail. -/
theorem Renames.of_ok (h : ∀ b : Builder, b.Knows names → ∃ a a' b', x.on r (b.renamed r) =
    (.ok a, b'.renamed r) ∧ y.on .identity b = (.ok a', b') ∧ ρ a a' ∧ b'.Knows names') :
    Renames r names names' ρ x y := by
  intro b hb
  obtain ⟨a, a', b', hx, hy, ha, hb'⟩ := h b hb
  rw [hx, hy]
  exact .ok ha hb'

theorem Renames.imp {ρ' : α → α → Prop} (h : Renames r names names' ρ x y)
    (hρ : ∀ a a', ρ a a' → ρ' a a') : Renames r names names' ρ' x y := by
  intro b hb
  have hran := h b hb
  generalize x.on r (b.renamed r) = ran at hran ⊢
  generalize y.on .identity b = ran' at hran ⊢
  cases hran with
  | ok ha hb' => exact .ok (hρ _ _ ha) hb'
  | error e b' => exact .error e b'

theorem Renames.pure {a a' : α} (ha : ρ a a') :
    Renames r names names ρ (Pure.pure a) (Pure.pure a') :=
  .of_ok fun b hb => ⟨a, a', b, rfl, rfl, ha, hb⟩

theorem Commutes.pure (a : α) : Commutes r names names (Pure.pure a : Build α) := Renames.pure rfl

theorem Commutes.bind (hx : Commutes r names mid x)
    (hf : ∀ a, Renames r mid names' σ (f a) (g a)) :
    Renames r names names' σ (x >>= f) (x >>= g) :=
  Renames.bind hx fun a _ ha => ha ▸ hf a

theorem Commutes.fail (e : BuildError) : Commutes r names names' (throw e : Build α) :=
  fun b _ => .error e b

/-- A check that looks at nothing that was built. -/
theorem Commutes.check (x : BuildResult α) : Commutes r names names (liftM x : Build α) := by
  cases x with
  | ok a => exact .pure a
  | error e => exact .fail e

theorem Commutes.ite {c : Prop} [Decidable c] (hx : Commutes r names names' x)
    (hy : Commutes r names names' y) : Commutes r names names' (if c then x else y) := by
  split
  · exact hx
  · exact hy

/-! ## Single instructions -/

theorem renames_push {n n' : Node} (hn : n = n'.renamed r) :
    Renames r names names Eq (push n) (push n') := by
  refine .of_ok fun b hb => ⟨(), (), { b with list := b.list.push n' }, ?_, rfl, rfl, hb⟩
  subst hn
  exact congrArg (fun l => (_, { b.renamed r with list := l })) (b.list.push_renamed r n')

theorem renames_emit {i i' : Instr Label} (hi : i = i'.renamed r) :
    Renames r names names Eq (emit i) (emit i') :=
  renames_push (hi ▸ rfl)

theorem commutes_plain (op : UInt8) : Commutes r names names (plain op) := renames_emit rfl

theorem commutes_int (n : Int32) : Commutes r names names (int n) :=
  .ite (commutes_plain _) <| .ite (renames_emit rfl) <| .ite (renames_emit rfl) (renames_emit rfl)

theorem commutes_long (n : Int64) : Commutes r names names (long n) :=
  .ite (commutes_plain _) (renames_emit rfl)

theorem commutes_float (bits : UInt32) : Commutes r names names (float bits) :=
  .ite (commutes_plain _) <| .ite (commutes_plain _) <| .ite (commutes_plain _) (renames_emit rfl)

theorem commutes_double (bits : UInt64) : Commutes r names names (double bits) :=
  .ite (commutes_plain _) <| .ite (commutes_plain _) (renames_emit rfl)

theorem commutes_freshLabel : Commutes r names names freshLabel :=
  .of_ok fun b hb => ⟨_, _, { b with list := b.list.freshLabel.2 }, rfl, rfl, rfl, hb⟩

theorem commutes_placeLabel (lab : Label) : Commutes r names names (placeLabel lab) := by
  intro b hb
  have hon : ∀ (names : Renaming) (b : Builder), (placeLabel lab).on names b =
      (b.list.refusal? lab).elim (.ok (), { b with list := b.list.mark lab })
        fun e => (.error (.cls e), b) := by
    intro names b
    unfold placeLabel
    cases hlab : b.list.refusal? lab <;>
      simp [on, StateT.run, ExceptT.run, ExceptT.mk, ReaderT.run, hlab]
  have hrefusal : (b.renamed r).list.refusal? lab = b.list.refusal? lab := rfl
  rw [hon, hon, hrefusal]
  cases b.list.refusal? lab with
  | some e => exact .error _ b
  | none =>
    have hmark : (b.renamed r).list.mark lab = (b.list.mark lab).renamed r :=
      b.list.mark_renamed r lab
    simp only [hmark]
    exact .ok (b := { b with list := b.list.mark lab }) rfl hb

theorem commutes_addBlock (block : TryBlock) : Commutes r names names (addBlock block) :=
  .of_ok fun b hb => ⟨_, _, { b with list := b.list.addBlock block }, rfl, rfl, rfl, hb⟩

theorem commutes_allocate (kind : ValueKind) : Commutes r names names (allocate kind) :=
  .of_ok fun b hb =>
    ⟨_, _, { b with nextLocal := b.nextLocal + UInt16.ofNat kind.slots }, rfl, rfl, rfl, hb⟩

theorem commutes_loadSlot (s : Slot) : Commutes r names names (loadSlot s) := renames_emit rfl

theorem commutes_storeSlot (s : Slot) : Commutes r names names (storeSlot s) := renames_emit rfl

theorem commutes_storeNew (kind : ValueKind) : Commutes r names names (storeNew kind) :=
  (commutes_allocate kind).bind fun s => (commutes_storeSlot s).bind fun _ => .pure rfl

/-! ## Members -/

theorem commutes_field (access : FieldAccess) (m : MemberRef) :
    Commutes r names names (field access m) := by
  show Renames r names names Eq (emit (.field access.opcode (r.renameField m)))
    (emit (.field access.opcode m))
  exact renames_emit rfl

theorem commutes_invoke (kind : CallKind) (m : MemberRef) :
    Commutes r names names (invoke kind m) := by
  show Renames r names names Eq (emit (.method kind.opcode (r.renameMethod m) (kind == .interface)))
    (emit (.method kind.opcode m (kind == .interface)))
  exact renames_emit rfl

theorem renames_handle (kind : HandleKind) (m : MemberRef) (isInterface : Bool) :
    Renames r names names (fun h h' => h = h'.renamed r) (handle kind m isInterface)
      (handle kind m isInterface) := by
  refine .of_ok fun b hb => ⟨_, _, b, rfl, rfl, ?_, hb⟩
  simp [Handle.renamed, Renaming.renameFor_identity]

theorem renames_invokeDynamic (name descriptor : String) {h h' : Handle} {cs cs' : List Loadable}
    (hh : h = h'.renamed r) (hcs : cs = cs'.map (.renamed r)) :
    Renames r names names Eq (invokeDynamic name descriptor h cs)
      (invokeDynamic name descriptor h' cs') := by
  show Renames r names names Eq
    (emit (.invokeDynamic ⟨r.method ⟨h.member.owner, name, descriptor⟩, descriptor, h, cs⟩))
    (emit (.invokeDynamic ⟨name, descriptor, h', cs'⟩))
  refine renames_emit ?_
  subst hh hcs
  have howner : (h'.renamed r).member.owner = h'.member.owner := by
    unfold Handle.renamed Renaming.renameFor
    split <;> rfl
  rw [howner]
  rfl

/-! ## Structured control -/

/-- Computations that are run one after the other. -/
inductive CommutesAll (r : Renaming) : List String → List (Build Unit) → List String → Prop
  | nil {names : List String} : CommutesAll r names [] names
  | cons {names mid names' : List String} {x : Build Unit} {xs : List (Build Unit)}
    (hx : Commutes r names mid x) (hxs : CommutesAll r mid xs names') :
    CommutesAll r names (x :: xs) names'

variable {body otherwise : Build Unit}

theorem commutes_jump (c : Condition) (lab : Label) : Commutes r names names (jump c lab) :=
  renames_emit rfl

theorem commutes_goto (lab : Label) : Commutes r names names (goto lab) := renames_emit rfl

theorem commutes_jumpIfAny (conditions : List Condition) (lab : Label) :
    Commutes r names names (jumpIfAny conditions lab) := by
  unfold jumpIfAny
  induction conditions with
  | nil => exact .pure ()
  | cons c conditions ih => exact (commutes_jump c lab).bind fun _ => ih

theorem Commutes.ifClause (skipIf : List Condition) (h : Commutes r names names' body) :
    Commutes r names names' (ifClause skipIf body) :=
  commutes_freshLabel.bind fun stop => (commutes_jumpIfAny skipIf stop).bind fun _ =>
    h.bind fun _ => commutes_placeLabel stop

theorem Commutes.ifElse (conditions : List Condition) (hotherwise : Commutes r names mid otherwise)
    (hbody : Commutes r mid names' body) :
    Commutes r names names' (ifElse conditions body otherwise) := by
  refine commutes_freshLabel.bind fun taken => commutes_freshLabel.bind fun stop => ?_
  refine (commutes_jumpIfAny conditions taken).bind fun _ => hotherwise.bind fun _ => ?_
  refine (commutes_goto stop).bind fun _ => (commutes_placeLabel taken).bind fun _ => ?_
  exact hbody.bind fun _ => commutes_placeLabel stop

theorem commutes_enterMonitor : Commutes r names names enterMonitor :=
  (commutes_plain _).bind fun _ => (commutes_storeNew _).bind fun _ =>
    (commutes_plain _).bind fun _ => .pure rfl

theorem commutes_exitMonitor (lock : Slot) : Commutes r names names (exitMonitor lock) :=
  (commutes_loadSlot lock).bind fun _ => commutes_plain _

theorem Commutes.synchronized (h : Commutes r names names' body) :
    Commutes r names names' (synchronized body) :=
  commutes_enterMonitor.bind fun lock => h.bind fun _ => commutes_exitMonitor lock

theorem Commutes.synchronizedGuarded (h : Commutes r names names' body) :
    Commutes r names names' (synchronizedGuarded body) := by
  refine commutes_freshLabel.bind fun start => commutes_freshLabel.bind fun stop => ?_
  refine commutes_freshLabel.bind fun handler => commutes_freshLabel.bind fun done => ?_
  refine commutes_enterMonitor.bind fun lock => (commutes_placeLabel start).bind fun _ => ?_
  refine h.bind fun _ => (commutes_exitMonitor lock).bind fun _ => ?_
  refine (commutes_placeLabel stop).bind fun _ => (commutes_goto done).bind fun _ => ?_
  refine (commutes_placeLabel handler).bind fun _ => (commutes_storeNew _).bind fun thrown => ?_
  refine (commutes_exitMonitor lock).bind fun _ => (commutes_loadSlot thrown).bind fun _ => ?_
  refine (commutes_plain _).bind fun _ => (commutes_placeLabel done).bind fun _ => ?_
  exact commutes_addBlock _

theorem Commutes.times (count : Nat) (h : Commutes r names names body) :
    Commutes r names names (times count body) := by
  induction count with
  | zero => exact .pure ()
  | succ count ih => exact h.bind fun _ => ih

/-! ## Switches -/

theorem CommutesAll.caseBodies (stop : Label) (labeled : List (Case (Build Unit) × Label))
    (h : CommutesAll r names (labeled.map fun p => p.1.body) names') :
    Commutes r names names' (caseBodies stop labeled) := by
  induction labeled generalizing names with
  | nil =>
    cases h
    exact .pure ()
  | cons p labeled ih =>
    obtain ⟨c, lab⟩ := p
    cases h with
    | cons hx hxs =>
      refine (commutes_placeLabel lab).bind fun _ => hx.bind fun _ => ?_
      refine Commutes.ite ?_ ?_
      · exact (commutes_goto stop).bind fun _ => ih hxs
      · exact ih hxs

/-- Every case gets a label. -/
theorem renames_labels (cases : List (Case (Build Unit))) :
    Renames r names names (fun ps qs => ps = qs ∧ ps.map Prod.fst = cases)
      (cases.mapM fun c => return (c, ← freshLabel))
      (cases.mapM fun c => return (c, ← freshLabel)) := by
  induction cases with
  | nil => exact .pure ⟨rfl, rfl⟩
  | cons c cases ih =>
    rw [List.mapM_cons]
    have hfirst : Renames r names names (fun p q => p = q ∧ p.1 = c)
        (do return (c, ← freshLabel)) (do return (c, ← freshLabel)) :=
      commutes_freshLabel.bind fun lab => .pure ⟨rfl, rfl⟩
    refine hfirst.bind fun p _ ⟨hp, hc⟩ => ih.bind fun ps _ ⟨hps, hcases⟩ => .pure ?_
    subst hp hps hc hcases
    exact ⟨rfl, rfl⟩

theorem CommutesAll.switchOver {instruction : List (Int32 × Label) → Label → Instr Label}
    (hinstruction : ∀ labels lab, (instruction labels lab).renamed r = instruction labels lab)
    {cases : List (Case (Build Unit))} (hcases : CommutesAll r names (cases.map Case.body) mid)
    (hotherwise : Commutes r mid names' otherwise) :
    Commutes r names names' (switchOver instruction cases otherwise) := by
  refine (renames_labels cases).bind fun labeled _ ⟨heq, hlabeled⟩ => ?_
  subst heq
  refine commutes_freshLabel.bind fun default => ?_
  refine (renames_emit (hinstruction _ _).symm).bind fun _ _ _ => ?_
  refine commutes_freshLabel.bind fun stop => ?_
  rw [← hlabeled, List.map_map] at hcases
  refine (hcases.caseBodies stop labeled).bind fun _ => ?_
  refine (commutes_placeLabel default).bind fun _ => ?_
  exact hotherwise.bind fun _ => commutes_placeLabel stop

theorem CommutesAll.tableSwitch {cases : List (Case (Build Unit))}
    (hcases : CommutesAll r names (cases.map Case.body) mid)
    (hotherwise : Commutes r mid names' otherwise) :
    Commutes r names names' (tableSwitch cases otherwise) := by
  refine (Commutes.check _).bind fun _ => ?_
  simp only
  split
  · exact (Commutes.fail _).bind fun _ => hcases.switchOver (fun _ _ => rfl) hotherwise
  · exact hcases.switchOver (fun _ _ => rfl) hotherwise

theorem CommutesAll.lookupSwitch {cases : List (Case (Build Unit))}
    (hcases : CommutesAll r names (cases.map Case.body) mid)
    (hotherwise : Commutes r mid names' otherwise) :
    Commutes r names names' (lookupSwitch cases otherwise) :=
  (Commutes.check _).bind fun _ => hcases.switchOver (fun _ _ => rfl) hotherwise

/-! ## Arrays and objects -/

theorem commutes_newArrayOf (t : FieldType) : Commutes r names names (newArrayOf t) := by
  cases t <;> exact renames_emit rfl

theorem CommutesAll.storeElements (store : UInt8) {elements : List (Build Unit)} (i : Nat)
    (h : CommutesAll r names elements names') :
    Commutes r names names' (storeElements store i elements) := by
  induction h generalizing i with
  | nil => exact .pure ()
  | cons hx _ ih =>
    refine (commutes_plain _).bind fun _ => (commutes_int _).bind fun _ => hx.bind fun _ => ?_
    exact (commutes_plain _).bind fun _ => ih (i + 1)

theorem CommutesAll.array (descriptor : String) {elements : List (Build Unit)}
    (h : CommutesAll r names elements names') :
    Commutes r names names' (array descriptor elements) := by
  unfold Build.array
  cases FieldType.parse descriptor with
  | error e => exact .fail _
  | ok t =>
    exact (commutes_int _).bind fun _ => (commutes_newArrayOf t).bind fun _ =>
      h.storeElements t.arrayStore 0

theorem Commutes.createInstance (cls descriptor : String) (h : Commutes r names names' body) :
    Commutes r names names' (createInstance cls descriptor body) := by
  have hnew : Commutes r names names (emit (.type Opcode.new cls)) := renames_emit rfl
  exact hnew.bind fun _ => (commutes_plain _).bind fun _ => h.bind fun _ => commutes_invoke _ _

/-! ## Fields of objects in locals -/

theorem commutes_getLocalField (object : Slot) (m : MemberRef) :
    Commutes r names names (getLocalField object m) :=
  (commutes_loadSlot object).bind fun _ => commutes_field _ m

theorem Commutes.setLocalField (object : Slot) (m : MemberRef)
    (h : Commutes r names names' body) : Commutes r names names' (setLocalField object m body) :=
  (commutes_loadSlot object).bind fun _ => h.bind fun _ => commutes_field _ m

theorem Commutes.updateLocalField (object : Slot) (m : MemberRef)
    (h : Commutes r names names' body) :
    Commutes r names names' (updateLocalField object m body) :=
  (commutes_loadSlot object).bind fun _ => (commutes_plain _).bind fun _ =>
    (commutes_field _ m).bind fun _ => h.bind fun _ => commutes_field _ m

theorem commutes_getSingleton (owner : String) : Commutes r names names (getSingleton owner) :=
  commutes_field _ _

theorem Commutes.invokeSingleton (m : MemberRef) (h : Commutes r names names' body) :
    Commutes r names names' (invokeSingleton m body) :=
  (commutes_getSingleton m.owner).bind fun _ => h.bind fun _ => commutes_invoke _ m

/-! ## Names of labels, locals and handles -/

theorem commutes_labelNamed (name : String) : Commutes r names names (labelNamed name) :=
  .of_ok fun b hb => ⟨_, _, b, rfl, rfl, rfl, hb⟩

theorem commutes_slotNamed (name : String) : Commutes r names names (slotNamed name) :=
  .of_ok fun b hb => ⟨_, _, b, rfl, rfl, rfl, hb⟩

theorem commutes_nameLabel (name : String) (lab : Label) :
    Commutes r names names (nameLabel name lab) :=
  .of_ok fun b hb => ⟨_, _, { b with labels := (name, lab) :: b.labels }, rfl, rfl, rfl, hb⟩

theorem commutes_nameSlot (name : String) (s : Slot) : Commutes r names names (nameSlot name s) :=
  .of_ok fun b hb => ⟨_, _, { b with slots := (name, s) :: b.slots }, rfl, rfl, rfl, hb⟩

variable {name : String}

theorem renames_handleNamed (hname : name ∈ names) :
    Renames r names names (fun h h' => h = h'.renamed r) (handleNamed name) (handleNamed name) := by
  refine .of_ok fun b hb => ⟨_, _, b, rfl, rfl, ?_, hb⟩
  obtain ⟨h, hh⟩ := hb name hname
  rw [b.lookup_renamed, hh]
  rfl

/-- What a step tells may be a name, so it is not the same. -/
abbrev Anyhow (_ _ : Outcome) : Prop := True

theorem renames_nameHandle {h h' : Handle} (hh : h = h'.renamed r) :
    Renames r names (name :: names) Anyhow (nameHandle name h) (nameHandle name h') := by
  subst hh
  refine .of_ok fun b hb => ⟨_, _, { b with handles := (name, h') :: b.handles }, rfl, rfl, trivial,
    fun other hother => ?_⟩
  rw [List.lookup_cons]
  split
  · exact ⟨h', rfl⟩
  · rename_i hne
    refine hb other ((List.mem_cons.mp hother).resolve_left fun heq => ?_)
    exact (by simpa using hne : ¬ other = name) heq

end Build

end ClassWeave
