import ClassWeave.Proofs.RenamedCode

/-!
# Scripts with a renaming

Every step of a script is one of the ways to put code together, so a script that is run with a
renaming builds what it builds without, renamed. This asks that all names go through the renaming:
`BuildStep.scope` follows the handles that were made, and leaves out scripts that use others, that
add an entry as it is which names a member, or that insert code which was built apart.
-/

namespace ClassWeave

/-! ## Which scripts -/

/-- The constant is no handle. -/
def Loadable.isNameless : Loadable → Bool
  | .handle _ => false
  | _ => true

/-- The entry mentions no member. -/
def Node.isNameless : Node → Bool
  | .instr (.field ..) | .instr (.method ..) | .instr (.invokeDynamic _) => false
  | .instr (.load c) => c.isNameless
  | _ => true

theorem Loadable.renamed_of_nameless {c : Loadable} (hc : c.isNameless) (r : Renaming) :
    c.renamed r = c := by
  cases c with
  | handle => cases hc
  | _ => rfl

theorem Node.renamed_of_nameless {n : Node} (hn : n.isNameless) (r : Renaming) :
    n.renamed r = n := by
  cases n with
  | instr i =>
    cases i with
    | field | method | invokeDynamic => cases hn
    | load c => exact congrArg (fun c => Node.instr (.load c)) (c.renamed_of_nameless hn r)
    | _ => rfl
  | _ => rfl

/-- The argument is no handle, or one that was made. -/
def SiteArgument.isKnown (names : List String) : SiteArgument → Bool
  | .constant c => c.isNameless
  | .handle name => name ∈ names

/-- The names of the handles that are made, given those in front. There are none if a name is
written that does not go through the renaming, or if a handle is used that was not made. -/
abbrev NameScope := List String → Option (List String)

namespace NameScope

/-- Nothing is made, under a condition on what there is. -/
def check (test : List String → Bool) : NameScope := fun names =>
  if test names then some names else none

def times : Nat → NameScope → NameScope
  | 0, _ => some
  | n + 1, f => fun names => (f names).bind (times n f)

end NameScope

mutual

/-- The handles that a step makes. -/
def BuildStep.scope : BuildStep → NameScope
  | .push n => .check fun _ => n.isNameless
  | .loadHandle name => .check fun names => name ∈ names
  | .repeated count body => .times count (BuildStep.scopeAll body)
  | .insert _ => fun _ => none
  | .ifElse _ body otherwise => fun names =>
    (BuildStep.scopeAll otherwise names).bind (BuildStep.scopeAll body)
  | .tableSwitch cases otherwise | .lookupSwitch cases otherwise => fun names =>
    (BuildStep.scopeCases cases names).bind (BuildStep.scopeAll otherwise)
  | .array _ elements => BuildStep.scopeBodies elements
  | .ifClause _ body | .synchronized body | .synchronizedGuarded body | .createInstance _ _ body
  | .setLocalField _ _ body | .updateLocalField _ _ body | .invokeSingleton _ body =>
    BuildStep.scopeAll body
  | .handle name .. => fun names => some (name :: names)
  | .invokeDynamic _ _ bootstrap arguments => .check fun names =>
    bootstrap ∈ names && arguments.all Loadable.isNameless
  | .callSite _ _ bootstrap arguments => .check fun names =>
    bootstrap ∈ names && arguments.all (SiteArgument.isKnown names)
  | _ => some

def BuildStep.scopeAll : List BuildStep → NameScope
  | [] => some
  | s :: rest => fun names => (s.scope names).bind (BuildStep.scopeAll rest)

def BuildStep.scopeBodies : List (List BuildStep) → NameScope
  | [] => some
  | s :: rest => fun names => (BuildStep.scopeAll s names).bind (BuildStep.scopeBodies rest)

def BuildStep.scopeCases : List (Case (List BuildStep)) → NameScope
  | [] => some
  | ⟨_, _, body⟩ :: rest => fun names =>
    (BuildStep.scopeAll body names).bind (BuildStep.scopeCases rest)

end

/-! ## Scripts -/

namespace Build

variable {r : Renaming} {names names' : List String}

theorem renames_silent {x : Build Unit} (h : Commutes r names names' x) :
    Renames r names names' Anyhow (silent x) (silent x) :=
  h.bind fun _ => .pure trivial

theorem renames_siteArgument {argument : SiteArgument} (h : argument.isKnown names) :
    Renames r names names (fun c c' => c = c'.renamed r) (siteArgument argument)
      (siteArgument argument) := by
  cases argument with
  | constant c => exact .pure (c.renamed_of_nameless h r).symm
  | handle name =>
    refine (renames_handleNamed (of_decide_eq_true h)).bind fun h h' hh => .pure ?_
    rw [hh]
    rfl

theorem renames_siteArguments {arguments : List SiteArgument}
    (h : arguments.all (SiteArgument.isKnown names)) :
    Renames r names names (fun cs cs' => cs = cs'.map (.renamed r)) (arguments.mapM siteArgument)
      (arguments.mapM siteArgument) := by
  induction arguments with
  | nil => exact .pure rfl
  | cons argument arguments ih =>
    rw [List.all_cons, Bool.and_eq_true] at h
    rw [List.mapM_cons]
    refine (renames_siteArgument h.1).bind fun c c' hc => (ih h.2).bind fun cs cs' hcs => .pure ?_
    rw [hc, hcs]
    rfl

theorem Commutes.scoped_times {scope : NameScope} {body : Build Unit}
    (h : ∀ {names names'}, scope names = some names' → Commutes r names names' body)
    (count : Nat) :
    ∀ {names names'}, NameScope.times count scope names = some names' →
      Commutes r names names' (Build.times count body) := by
  induction count with
  | zero =>
    rintro names _ ⟨⟩
    exact .pure ()
  | succ count ih =>
    intro names names' hscope
    obtain ⟨mid, hmid, hrest⟩ := Option.bind_eq_some_iff.mp hscope
    exact (h hmid).bind fun _ => ih hrest

end Build

theorem NameScope.check_eq_some {test : List String → Bool} {names names' : List String} :
    check test names = some names' ↔ test names ∧ names' = names := by
  unfold check
  split
  · simp [*, eq_comm]
  · simp [*]

section scripts

open Build

variable {r : Renaming}

mutual

theorem BuildStep.renames_run : ∀ (s : BuildStep) {names names' : List String},
    s.scope names = some names' → Renames r names names' Anyhow s.run s.run
  | .push n, _, _, h => by
    rw [BuildStep.scope, NameScope.check_eq_some] at h
    obtain ⟨hn, rfl⟩ := h
    exact renames_silent (renames_push (n.renamed_of_nameless hn r).symm)
  | .int n, _, _, rfl => renames_silent (commutes_int n)
  | .long n, _, _, rfl => renames_silent (commutes_long n)
  | .float bits, _, _, rfl => renames_silent (commutes_float bits)
  | .double bits, _, _, rfl => renames_silent (commutes_double bits)
  | .loadHandle name, _, _, h => by
    rw [BuildStep.scope, NameScope.check_eq_some] at h
    obtain ⟨hname, rfl⟩ := h
    refine renames_silent ((renames_handleNamed (of_decide_eq_true hname)).bind fun h h' hh => ?_)
    exact renames_emit (hh ▸ rfl)
  | .newArray element, _, _, rfl => renames_silent (renames_emit rfl)
  | .repeated count body, _, _, h =>
    renames_silent (Commutes.scoped_times (fun h => BuildStep.commutes_runAll body h) count h)
  | .label name, _, _, rfl =>
    (commutes_freshLabel.bind fun lab => commutes_nameLabel name lab).imp fun _ _ _ => trivial
  | .place name, _, _, rfl =>
    renames_silent ((commutes_labelNamed name).bind fun lab => commutes_placeLabel lab)
  | .jump c name, _, _, rfl =>
    renames_silent ((commutes_labelNamed name).bind fun lab => commutes_jump c lab)
  | .jumpUnless c name, _, _, rfl =>
    renames_silent ((commutes_labelNamed name).bind fun lab => commutes_jump c.negate lab)
  | .goto name, _, _, rfl =>
    renames_silent ((commutes_labelNamed name).bind fun lab => commutes_goto lab)
  | .tryCatch start stop handler catchType, _, _, rfl =>
    renames_silent ((commutes_labelNamed start).bind fun _ =>
      (commutes_labelNamed stop).bind fun _ => (commutes_labelNamed handler).bind fun _ =>
        commutes_addBlock _)
  | .insert _, _, _, h => nomatch h
  | .allocate kind name, _, _, rfl =>
    ((commutes_allocate kind).bind fun s => commutes_nameSlot name s).imp fun _ _ _ => trivial
  | .storeNew kind name, _, _, rfl =>
    ((commutes_storeNew kind).bind fun s => commutes_nameSlot name s).imp fun _ _ _ => trivial
  | .loadSlot name, _, _, rfl =>
    renames_silent ((commutes_slotNamed name).bind fun s => commutes_loadSlot s)
  | .storeSlot name, _, _, rfl =>
    renames_silent ((commutes_slotNamed name).bind fun s => commutes_storeSlot s)
  | .loadIndex kind i, _, _, rfl => renames_silent (commutes_loadSlot ⟨i, kind⟩)
  | .storeIndex kind i, _, _, rfl => renames_silent (commutes_storeSlot ⟨i, kind⟩)
  | .returnValue kind, _, _, rfl => renames_silent (commutes_plain _)
  | .ifClause skipIf body, _, _, h =>
    renames_silent ((BuildStep.commutes_runAll body h).ifClause skipIf)
  | .ifElse conditions body otherwise, _, _, h => by
    obtain ⟨mid, hotherwise, hbody⟩ := Option.bind_eq_some_iff.mp h
    exact renames_silent (Commutes.ifElse conditions
      (BuildStep.commutes_runAll otherwise hotherwise) (BuildStep.commutes_runAll body hbody))
  | .tableSwitch cases otherwise, _, _, h => by
    obtain ⟨mid, hcases, hotherwise⟩ := Option.bind_eq_some_iff.mp h
    exact renames_silent ((BuildStep.commutes_cases cases hcases).tableSwitch
      (BuildStep.commutes_runAll otherwise hotherwise))
  | .lookupSwitch cases otherwise, _, _, h => by
    obtain ⟨mid, hcases, hotherwise⟩ := Option.bind_eq_some_iff.mp h
    exact renames_silent ((BuildStep.commutes_cases cases hcases).lookupSwitch
      (BuildStep.commutes_runAll otherwise hotherwise))
  | .synchronized body, _, _, h => renames_silent ((BuildStep.commutes_runAll body h).synchronized)
  | .synchronizedGuarded body, _, _, h =>
    renames_silent ((BuildStep.commutes_runAll body h).synchronizedGuarded)
  | .array descriptor elements, _, _, h =>
    ((BuildStep.commutes_bodies elements h).array descriptor).bind fun _ => .pure trivial
  | .createInstance cls descriptor arguments, _, _, h =>
    renames_silent ((BuildStep.commutes_runAll arguments h).createInstance cls descriptor)
  | .field access m, _, _, rfl => renames_silent (commutes_field access m)
  | .invoke kind m, _, _, rfl => renames_silent (commutes_invoke kind m)
  | .handle name kind m isInterface, _, _, rfl =>
    (renames_handle kind m isInterface).bind fun _ _ hh => renames_nameHandle hh
  | .invokeDynamic name descriptor bootstrap arguments, _, _, h => by
    rw [BuildStep.scope, NameScope.check_eq_some, Bool.and_eq_true] at h
    obtain ⟨hknown, rfl⟩ := h
    have harguments : arguments = arguments.map (.renamed r) :=
      (List.map_id' arguments).symm.trans (List.map_congr_left fun c hc =>
        (c.renamed_of_nameless (List.all_eq_true.mp hknown.2 c hc) r).symm)
    refine renames_silent ((renames_handleNamed (of_decide_eq_true hknown.1)).bind ?_)
    exact fun h h' hh => renames_invokeDynamic name descriptor hh harguments
  | .callSite name descriptor bootstrap arguments, _, _, h => by
    rw [BuildStep.scope, NameScope.check_eq_some, Bool.and_eq_true] at h
    obtain ⟨hknown, rfl⟩ := h
    refine renames_silent ((renames_handleNamed (of_decide_eq_true hknown.1)).bind ?_)
    refine fun h h' hh => (renames_siteArguments hknown.2).bind fun cs cs' hcs => ?_
    exact renames_invokeDynamic name descriptor hh hcs
  | .getLocalField object m, _, _, rfl =>
    renames_silent ((commutes_slotNamed object).bind fun s => commutes_getLocalField s m)
  | .setLocalField object m value, _, _, h =>
    renames_silent ((commutes_slotNamed object).bind fun s =>
      (BuildStep.commutes_runAll value h).setLocalField s m)
  | .updateLocalField object m update, _, _, h =>
    renames_silent ((commutes_slotNamed object).bind fun s =>
      (BuildStep.commutes_runAll update h).updateLocalField s m)
  | .getSingleton owner, _, _, rfl => renames_silent (commutes_getSingleton owner)
  | .invokeSingleton m arguments, _, _, h =>
    renames_silent ((BuildStep.commutes_runAll arguments h).invokeSingleton m)

theorem BuildStep.commutes_runAll : ∀ (s : Script) {names names' : List String},
    BuildStep.scopeAll s names = some names' → Commutes r names names' (BuildStep.runAll s)
  | [], _, _, rfl => .pure ()
  | s :: rest, _, _, h => by
    obtain ⟨mid, hs, hrest⟩ := Option.bind_eq_some_iff.mp h
    exact (s.renames_run hs).bind fun _ _ _ => BuildStep.commutes_runAll rest hrest

theorem BuildStep.commutes_bodies : ∀ (ss : List Script) {names names' : List String},
    BuildStep.scopeBodies ss names = some names' →
      CommutesAll r names (BuildStep.bodies ss) names'
  | [], _, _, rfl => .nil
  | s :: rest, _, _, h => by
    obtain ⟨mid, hs, hrest⟩ := Option.bind_eq_some_iff.mp h
    exact .cons (BuildStep.commutes_runAll s hs) (BuildStep.commutes_bodies rest hrest)

theorem BuildStep.commutes_cases : ∀ (cases : List (Case Script)) {names names' : List String},
    BuildStep.scopeCases cases names = some names' →
      CommutesAll r names ((BuildStep.caseBodies cases).map Case.body) names'
  | [], _, _, rfl => .nil
  | ⟨_, _, body⟩ :: rest, _, _, h => by
    obtain ⟨mid, hbody, hrest⟩ := Option.bind_eq_some_iff.mp h
    exact .cons (BuildStep.commutes_runAll body hbody) (BuildStep.commutes_cases rest hrest)

end

/-- All names that a script writes go through the renaming. -/
def BuildStep.Scoped (s : Script) : Prop := ∃ names, BuildStep.scopeAll s [] = some names

/-- **Renaming commutes with building.** A script that is run with a renaming comes to the same end
as without, and leaves what it leaves without, with every name replaced once. So does the list that
it builds, and it builds one where it does without. -/
theorem BuildStep.runAll_renamed (r : Renaming) {s : Script} (hs : BuildStep.Scoped s)
    (first : UInt16) :
    ((BuildStep.runAll s).on r (.startingAt first)).1 =
        ((BuildStep.runAll s).on .identity (.startingAt first)).1 ∧
      ((BuildStep.runAll s).on r (.startingAt first)).2 =
        ((BuildStep.runAll s).on .identity (.startingAt first)).2.renamed r ∧
      (BuildStep.runAll s).listOn r (.startingAt first) =
        ((BuildStep.runAll s).listOn .identity (.startingAt first)).map (.renamed r) := by
  obtain ⟨names, hnames⟩ := hs
  have hran : Renamed r names Eq ((BuildStep.runAll s).on r (.startingAt first))
      ((BuildStep.runAll s).on .identity (.startingAt first)) := by
    have hrun : Commutes r [] names (BuildStep.runAll s) := BuildStep.commutes_runAll s hnames
    have hstart := hrun (.startingAt first) nofun
    rwa [Builder.renamed_startingAt] at hstart
  unfold Build.listOn
  generalize (BuildStep.runAll s).on r (.startingAt first) = ran at hran ⊢
  generalize (BuildStep.runAll s).on .identity (.startingAt first) = ran' at hran ⊢
  cases hran with
  | error e b => exact ⟨rfl, rfl, rfl⟩
  | ok ha _ =>
    subst ha
    refine ⟨rfl, rfl, ?_⟩
    rename_i b _
    simp only [Builder.renamed, InstrList.finish_renamed]
    cases b.list.finish <;> rfl

/-- A name that is replaced by one which is replaced as well. -/
def chainedNames : Renaming :=
  .ofTables [] [(⟨"A", "run", "()V"⟩, "go"), (⟨"A", "go", "()V"⟩, "stop")]

/-- Calls `run` by way of a call site and directly. -/
def relay : Script :=
  [.handle "h" .invokeStatic ⟨"A", "run", "()V"⟩ false,
    .callSite "run" "()V" "h" [.handle "h"],
    .ifClause [] [.invoke .static ⟨"A", "run", "()V"⟩]]

/-- Every name is replaced once, also that of a call site. -/
theorem relay_renamed :
    (BuildStep.runAll relay).listOn chainedNames (.startingAt 0) =
        ((BuildStep.runAll relay).listOn .identity (.startingAt 0)).map (.renamed chainedNames) ∧
      ((BuildStep.runAll relay).on chainedNames (.startingAt 0)).2.list.nodes =
        let run : Handle := ⟨.invokeStatic, ⟨"A", "go", "()V"⟩, false⟩
        #[.instr (.invokeDynamic ⟨"go", "()V", run, [.handle run]⟩),
          .instr (.method Opcode.invokestatic ⟨"A", "go", "()V"⟩ false), .label ⟨0⟩] := by
  have hscoped : BuildStep.Scoped relay := ⟨["h"], rfl⟩
  exact ⟨(BuildStep.runAll_renamed chainedNames hscoped 0).2.2, rfl⟩

end scripts
end ClassWeave
