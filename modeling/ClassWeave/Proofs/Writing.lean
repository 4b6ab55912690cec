import ClassWeave.Proofs.Lockstep
import ClassWeave.Proofs.Pruning
import ClassWeave.Proofs.StoredFrames

/-!
# What writing a class does

Every step of writing a class leaves facts behind that go on to hold while more constants are added:
the code of a method is analysed, cut down and encoded, its handlers, lines and frames are stored,
and all names have their constants. `ClassModel.Written` is what they come to for a whole class, for
the pool and the bootstrap methods that the class file gets.
-/

namespace ClassWeave

namespace WriteContext

variable {ctx : WriteContext}

/-! ## Code that is cut down -/

theorem gives_analysis (l : InstrList) : Gives (ctx.analysis l) fun s a =>
    analyze ctx.method l s.pool ctx.hierarchy .lenient = .ok a := by
  intro s a t _ hrun
  obtain ⟨ha, rfl⟩ := Prod.mk.inj hrun
  exact ⟨Links.Extends.refl s, ha⟩

/-- Some code was cut down to what an analysis reached, and analysed again. -/
structure Pruned (ctx : WriteContext) (l : InstrList) (p : Pool) (a : Analysis) (l' : InstrList)
    (a' : Analysis) : Prop where
  analysis : analyze ctx.method l p ctx.hierarchy .lenient = .ok a
  nodes : l'.nodes.toList = a.live l
  placed : l'.placed = l.placed
  blocks : l'.blocks = l.blocks
  again : analyze ctx.method l' p ctx.hierarchy .lenient = .ok a'

theorem Pruned.labelCount_eq {l l' : InstrList} {p : Pool} {a a' : Analysis}
    (h : Pruned ctx l p a l' a') : l'.labelCount = l.labelCount := by
  rw [InstrList.labelCount, InstrList.labelCount, h.placed]

theorem gives_prune (l : InstrList) : Gives (ctx.prune l) fun s r =>
    ∃ a, Pruned ctx l s.pool a r.1 r.2 := by
  refine (gives_analysis l).bind (fun h ha => analyze_extends h.pool ha) fun a => ?_
  simp only
  split
  · refine (gives_analysis _).bind (fun h ha => analyze_extends h.pool ha) fun a' => ?_
    exact .pure fun s _ hagain ha => ⟨a, ha, InstrList.toList_filterIdx _, rfl, rfl, hagain⟩
  · rename_i hdead
    refine .pure fun s _ ha => ⟨a, ha, ?_, rfl, rfl, ha⟩
    rw [← Analysis.toList_cut, Analysis.cut_eq_self hdead]

/-! ## Handlers and lines -/

/-- What is stored for a block: nothing if its range is empty. -/
def HandlerAt (p : Pool) (e : Code.Encoded) (b : TryBlock) (entry : Option HandlerEntry) : Prop :=
  ∃ start stop, e.labelOffset b.start = .ok start ∧ e.labelOffset b.stop = .ok stop ∧
    (stop ≤ start ∧ entry = none ∨ start < stop ∧ ∃ handler catchType,
      e.labelOffset b.handler = .ok handler ∧ p.optionalClass catchType = .ok b.catchType ∧
      entry = some ⟨UInt16.ofNat start, UInt16.ofNat stop, UInt16.ofNat handler, catchType⟩)

theorem gives_handlerEntry (e : Code.Encoded) (b : TryBlock) :
    Gives (handlerEntry e b) fun s entry => HandlerAt s.pool e b entry := by
  obtain ⟨first, last, handler, catchType⟩ := b
  refine (Linking.gives_ofResult (e.labelOffset first)).bind (fun _ h => h) fun start => ?_
  refine (Linking.gives_ofResult (e.labelOffset last)).bind (fun _ h => h) fun stop => ?_
  by_cases hempty : stop ≤ start
  · rw [if_pos hempty]
    exact .pure fun s _ hstop hstart => ⟨start, stop, hstart, hstop, .inl ⟨hempty, rfl⟩⟩
  · rw [if_neg hempty]
    refine (Linking.gives_optionalClass catchType).bind (fun h hi => h.pool.optionalClass hi)
      fun i => ?_
    exact (Linking.gives_ofResult (e.labelOffset handler)).bind (fun _ h => h) fun o =>
      .pure fun s _ ho hcatch hstop hstart => ⟨start, stop, hstart, hstop,
        .inr ⟨Nat.lt_of_not_le hempty, o, i, ho, hcatch, rfl⟩⟩

/-- What is stored about lines: nothing if there are none. -/
def LinesAt (p : Pool) (lines : List LineEntry) (as : List Attribute) : Prop :=
  lines = [] ∧ as = [] ∨ ∃ stored, as = [stored] ∧ stored.Named p LineEntry.tableName ∧
    stored.info = LineEntry.encodeTable lines

theorem gives_lineTable (lines : List LineEntry) :
    Gives (lineTable lines) fun s as => LinesAt s.pool lines as := by
  unfold lineTable
  by_cases hempty : lines.isEmpty
  · rw [if_pos hempty]
    exact .pure fun _ _ => .inl ⟨List.isEmpty_iff.mp hempty, rfl⟩
  · rw [if_neg hempty]
    refine (gives_namedAttribute _ _).map fun {s stored} _ h => .inr ⟨stored, rfl, h.1, ?_⟩
    exact (Except.ok.inj h.2).symm

theorem gives_sized (n : Nat) (e : Nat → ClassError) :
    Gives (sized n e) fun _ size => size.toNat = n := by
  unfold sized
  by_cases hn : n ≤ 65535
  · rw [if_pos hn]
    exact .pure fun _ _ => Reader.toNat_ofNat_u16 hn
  · rw [if_neg hn]
    exact .throw

/-! ## The code of a method -/

/-- What is stored for a block, with the label of its handler. -/
def BlockAt (p : Pool) (e : Code.Encoded) (b : TryBlock) (r : Option HandlerEntry × Label) : Prop :=
  HandlerAt p e b r.1 ∧ r.2 = b.handler

/-- What is known about the code of a method once it was written. -/
structure Wrote (ctx : WriteContext) (body : MethodBody) (s : Links) (code : CodeAttribute)
    (a : Analysis) (l : InstrList) (a' : Analysis) (e : Code.Encoded) (slots : List Code.Slot)
    (entries : List (Option HandlerEntry × Label)) : Prop where
  pruned : Pruned ctx body.list s.pool a l a'
  encoding : Code.Encoding s .short l.nodes.toList l.labelCount e slots
  bytes : code.code = e.bytes
  maxStack : code.maxStack.toNat = a'.maxStack
  maxLocals : code.maxLocals.toNat = a'.maxLocals
  blocks : List.Forall₂ (BlockAt s.pool e) l.blocks entries
  handlers : code.handlers = (keptEntries entries).map Prod.fst
  attributes : ∃ lines frames, code.attributes = lines ++ frames ++ body.attributes ∧
    LinesAt s.pool e.lines lines ∧
    (ctx.hasStackMaps = false ∧ frames = [] ∨ ctx.hasStackMaps = true ∧
      FramesAt ctx l a' e ((keptEntries entries).map Prod.snd) s.pool frames)

end WriteContext

/-! ## The whole class -/

open WriteContext

/-- What is known about a field once it was written. -/
structure FieldModel.At (f : FieldModel) (p : Pool) (info : MemberInfo) : Prop where
  access : info.access = f.access
  name : p.utf8 info.name = .ok f.name
  descriptor : p.utf8 info.descriptor = .ok f.descriptor
  attributes : info.attributes = f.attributes

/-- What is stored about the code of a method: nothing if there is none. -/
def MethodBody.At (ctx : WriteContext) (s : Links) (as : List Attribute) :
    Option MethodBody → Prop
  | none => as = []
  | some body => ∃ stored code, as = [stored] ∧ stored.Named s.pool CodeAttribute.name ∧
    stored.info = code.encode ∧
      ∃ a l a' e slots entries, Wrote ctx body s code a l a' e slots entries

namespace ClassModel

/-- What a method of a class is analysed with. -/
def context (c : ClassModel) (m : MethodModel) : MethodContext :=
  ⟨c.name, m.name, m.descriptor, m.isStatic⟩

/-- What the code of a method of a class is written with. -/
def writeContext (c : ClassModel) (h : Hierarchy) (m : MethodModel) : WriteContext :=
  ⟨c.context m, h, c.version.hasStackMaps⟩

/-- What is known about a method once it was written. -/
structure MethodAt (c : ClassModel) (h : Hierarchy) (s : Links) (m : MethodModel)
    (info : MemberInfo) : Prop where
  access : info.access = m.access
  name : s.pool.utf8 info.name = .ok m.name
  descriptor : s.pool.utf8 info.descriptor = .ok m.descriptor
  attributes : ∃ code, info.attributes = code ++ m.attributes ∧
    MethodBody.At (c.writeContext h m) s code m.body

/-- What is stored about the bootstrap methods: nothing if there are none. -/
def TableAt (s : Links) (as : List Attribute) : Prop :=
  s.bootstraps.toList = [] ∧ as = [] ∨ ∃ stored, as = [stored] ∧
    stored.Named s.pool BootstrapMethod.tableName ∧
      stored.info = BootstrapMethod.encodeTable s.bootstraps.toList

/-- What is known about a class once it was written. -/
structure Written (c : ClassModel) (h : Hierarchy) (s : Links) (file : ClassFile) : Prop where
  version : file.version = c.version
  access : file.access = c.access
  this : s.pool.className file.this = .ok c.name
  super : s.pool.optionalClass file.super = .ok c.super
  interfaces : List.Forall₂ (fun name i => s.pool.className i = .ok name) c.interfaces
    file.interfaces
  fields : List.Forall₂ (fun f info => f.At s.pool info) c.fields file.fields
  methods : List.Forall₂ (c.MethodAt h s) c.methods file.methods
  attributes : ∃ table, file.attributes = c.attributes ++ table ∧ TableAt s table

variable {c : ClassModel} {h : Hierarchy}

theorem gives_bootstrapTable : Gives bootstrapTable TableAt := by
  intro s as t hs hrun
  obtain ⟨s', t', hget, hrun⟩ := Growing.run_bind.mp hrun
  obtain ⟨hs', rfl⟩ := Prod.mk.inj hget
  obtain rfl := Except.ok.inj hs'
  by_cases hempty : s.bootstraps.isEmpty
  · simp only [hempty, if_true] at hrun
    obtain ⟨rfl, rfl⟩ := Growing.run_pure.mp hrun
    refine ⟨Links.Extends.refl s, .inl ⟨?_, rfl⟩⟩
    rw [Array.isEmpty_iff.mp hempty]
  · simp only [hempty, if_false, Bool.false_eq_true] at hrun
    obtain ⟨stored, t, hstored, hpure⟩ := Growing.run_bind.mp hrun
    obtain ⟨rfl, rfl⟩ := Growing.run_pure.mp hpure
    obtain ⟨hextends, hnamed, hinfo⟩ := gives_namedAttribute _ _ _ _ _ hs hstored
    -- asking for a name leaves the bootstrap methods as they are
    have hsame : t.bootstraps = s.bootstraps := by
      rw [← (Prod.mk.inj hstored).2]
    refine ⟨hextends, .inr ⟨stored, rfl, hnamed, ?_⟩⟩
    rw [hsame]
    exact (Except.ok.inj hinfo).symm

end ClassModel
end ClassWeave
