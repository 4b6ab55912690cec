import ClassWeave.Proofs.AskedAgain
import ClassWeave.Proofs.JumpLayouts

/-!
# The steps of writing a class

Writing a class succeeds step by step. What a step asked for is there from then on, so in the end all
steps can be taken once more, one by one, and none of them adds anything. Everything that is known
about the parts of the class file follows from that.
-/

namespace ClassWeave

open Code Linking

namespace WriteContext

variable {ctx : WriteContext}

/-! ## The steps of writing code -/

/-- What writing the frames of some code asked for. -/
structure MapSteps (ctx : WriteContext) (l : InstrList) (a : Analysis) (e : Code.Encoded)
    (handlers : List Label) (s : Links) (as : List Attribute) (points : List Nat)
    (frames : Std.HashMap Nat RawFrame) : Prop where
  needed : framePoints l e handlers = .ok points
  gathered : Gathered l a e (fun f raw =>
    Lasts (ofInterning (f.compact.intern fun j => e.offsets[j]?)) s raw) points frames
  stored : frames.isEmpty = true ∧ as = [] ∨ frames.isEmpty = false ∧ ∃ entry raw stored,
    Frame.entry ctx.method = .ok entry ∧
    Lasts (ofInterning (entry.compact.intern fun j => e.offsets[j]?)) s raw ∧
    Lasts (namedAttribute StackMapFrame.tableName (StackMapFrame.encodeTable
      (CompactFrame.table raw (frames.toList.mergeSort fun x y => x.1 ≤ y.1)))) s stored ∧
    as = [stored]

theorem MapSteps.extends {l : InstrList} {a : Analysis} {e : Code.Encoded} {handlers : List Label}
    {s t : Links} {as : List Attribute} {points : List Nat} {frames : Std.HashMap Nat RawFrame}
    (h : s.Extends t) (hm : MapSteps ctx l a e handlers s as points frames) :
    MapSteps ctx l a e handlers t as points frames where
  needed := hm.needed
  gathered := hm.gathered.imp fun hraw => hraw.extends h
  stored := hm.stored.imp_right fun ⟨hsome, entry, raw, stored, hentry, hraw, hstored, has⟩ =>
    ⟨hsome, entry, raw, stored, hentry, hraw.extends h, hstored.extends h, has⟩

theorem steps_stackMap (l : InstrList) (a : Analysis) (e : Code.Encoded) (handlers : List Label) :
    Gives (ctx.stackMap l a e handlers) fun s as =>
      ∃ points frames, MapSteps ctx l a e handlers s as points frames := by
  refine (gives_ofResult (framePoints l e handlers)).bind (fun _ h => h) fun points => ?_
  have hframes := gathered_foldlM (l := l) (a := a) (e := e)
    (R := fun s f raw => Lasts (ofInterning (f.compact.intern fun j => e.offsets[j]?)) s raw)
    Lasts.extends (fun f => lasting_ofInterning (lasting_intern _ f.compact)) points
  refine hframes.bind (fun h hg => hg.imp fun hraw => hraw.extends h) fun frames => ?_
  cases hempty : frames.isEmpty with
  | true => exact .pure fun s _ hg hpoints => ⟨points, frames, hpoints, hg, .inl ⟨hempty, rfl⟩⟩
  | false =>
    refine (gives_ofResult _).bind (fun _ h => h) fun entry => ?_
    refine Gives.bind (lasting_ofInterning (lasting_intern _ entry.compact)) Lasts.extends
      fun raw => ?_
    refine Gives.bind (lasting_namedAttribute _ _) Lasts.extends fun stored => ?_
    exact .pure fun s _ hstored hraw hentry hg hpoints => ⟨points, frames, hpoints, hg,
      .inr ⟨hempty, entry, raw, stored, mapError_eq_ok.mp hentry, hraw, hstored, rfl⟩⟩

/-- What writing the code of a method asked for. -/
structure Steps (ctx : WriteContext) (body : MethodBody) (s : Links) (code : CodeAttribute)
    (l : InstrList) (a' : Analysis) (e : Code.Encoded)
    (entries : List (Option HandlerEntry × Label)) : Prop where
  prune : Lasts (ctx.prune body.list) s (l, a')
  encode : Lasts (Code.encode l.nodes.toList l.labelCount) s e
  blocks : List.Forall₂ (fun b r => Lasts (handlerEntry e b) s r.1 ∧ r.2 = b.handler) l.blocks
    entries
  maxStack : code.maxStack.toNat = a'.maxStack
  maxLocals : code.maxLocals.toNat = a'.maxLocals
  bytes : code.code = e.bytes
  handlers : code.handlers = (keptEntries entries).map Prod.fst
  attributes : ∃ lines frames, code.attributes = lines ++ frames ++ body.attributes ∧
    Lasts (lineTable e.lines) s lines ∧
    (ctx.hasStackMaps = false ∧ frames = [] ∨ ctx.hasStackMaps = true ∧
      ∃ points table, MapSteps ctx l a' e ((keptEntries entries).map Prod.snd) s frames points
        table)

variable {body : MethodBody} {s t : Links} {code : CodeAttribute} {a' : Analysis} {l : InstrList}
  {e : Code.Encoded} {entries : List (Option HandlerEntry × Label)}

theorem Steps.extends (h : s.Extends t) (hs : Steps ctx body s code l a' e entries) :
    Steps ctx body t code l a' e entries := by
  obtain ⟨lines, frames, hattributes, hlines, hframes⟩ := hs.attributes
  exact { hs with
    prune := hs.prune.extends h
    encode := hs.encode.extends h
    blocks := hs.blocks.imp fun _ _ hb => ⟨hb.1.extends h, hb.2⟩
    attributes := ⟨lines, frames, hattributes, hlines.extends h, hframes.imp_right
      fun ⟨hmaps, points, table, hm⟩ => ⟨hmaps, points, table, hm.extends h⟩⟩ }

theorem steps_code (body : MethodBody) : Gives (ctx.code body) fun s code =>
    ∃ l a' e entries, Steps ctx body s code l a' e entries := by
  refine Gives.bind (lasting_prune body.list) Lasts.extends fun r => ?_
  obtain ⟨l, a'⟩ := r
  refine Gives.bind (Code.lasting_encodeWithin _ _ _) Lasts.extends fun e => ?_
  have hentries : Gives (l.blocks.mapM fun b => do return (← handlerEntry e b, b.handler))
      fun s entries => List.Forall₂ (fun b r => Lasts (handlerEntry e b) s r.1 ∧ r.2 = b.handler)
        l.blocks entries :=
    .mapM (fun h hb => ⟨hb.1.extends h, hb.2⟩)
      fun b _ => Gives.map (lasting_handlerEntry e b) fun _ hb => ⟨hb, rfl⟩
  refine hentries.bind (fun h hall => hall.imp fun _ _ hb => ⟨hb.1.extends h, hb.2⟩)
    fun entries => ?_
  refine (gives_sized _ _).bind (fun _ h => h) fun maxStack => ?_
  refine (gives_sized _ _).bind (fun _ h => h) fun maxLocals => ?_
  refine Gives.bind (lasting_lineTable e.lines) Lasts.extends fun lines => ?_
  cases hmaps : ctx.hasStackMaps with
  | true =>
    refine (steps_stackMap l a' e _).bind
      (fun h ⟨points, table, hm⟩ => ⟨points, table, hm.extends h⟩) fun frames => ?_
    exact .pure fun s _ hframes hlines hlocals hstack hall he hprune => ⟨l, a', e, entries, hprune,
      he, hall, hstack, hlocals, rfl, rfl, lines, frames, rfl, hlines, .inr ⟨hmaps, hframes⟩⟩
  | false =>
    have hnone : Gives (pure [] : Linking (List Attribute)) fun _ frames => frames = [] :=
      .pure fun _ _ => rfl
    refine hnone.bind (fun _ h => h) fun frames => ?_
    exact .pure fun s _ hframes hlines hlocals hstack hall he hprune => ⟨l, a', e, entries, hprune,
      he, hall, hstack, hlocals, rfl, rfl, lines, frames, rfl, hlines, .inl ⟨hmaps, hframes⟩⟩

/-! ## What was written -/

theorem MapSteps.framesAt {a : Analysis} {handlers : List Label} {as : List Attribute}
    {points : List Nat} {frames : Std.HashMap Nat RawFrame} (hs : s.pool.Reachable)
    (hm : MapSteps ctx l a e handlers s as points frames) :
    FramesAt ctx l a e handlers s.pool as := by
  have hraw : ∀ {f : Frame} {raw : RawFrame},
      Lasts (ofInterning (f.compact.intern fun j => e.offsets[j]?)) s raw →
        NamedFrame.At s.pool (fun j => e.offsets[j]?) f.compact raw := fun h =>
    h.gives hs (gives_ofInterning (CompactFrame.gives_intern _ _))
  have hgathered := hm.gathered.imp hraw
  have hc : Collected l a e s.pool points frames := ⟨hgathered.needed, hgathered.stored⟩
  rcases hm.stored with ⟨hempty, rfl⟩ | ⟨-, entry, raw, stored, hentry, hlasts, hstored, rfl⟩
  · exact ⟨points, [], hm.needed, hc.table_of_isEmpty hempty, .inl ⟨rfl, rfl⟩⟩
  · obtain ⟨hnamed, hbytes⟩ := hstored.gives hs (gives_namedAttribute _ _)
    exact ⟨points, _, hm.needed, hc.table, .inr ⟨stored, rfl, hnamed, entry, raw, hentry,
      hraw hlasts, hbytes⟩⟩

/-- What was asked for is what is known about the code once it was written. -/
theorem Steps.exists_wrote (hs : s.pool.Reachable) (h : Steps ctx body s code l a' e entries) :
    ∃ a pieces slots, Wrote ctx body s code a l a' e slots entries ∧
      (l.nodes.toList.mapM Piece.ofNode).run.run s = (.ok pieces, s) ∧
      assemble .short l.labelCount pieces = .ok e ∧
      slots = (settle .short l.labelCount (narrowSlots pieces)).1 := by
  obtain ⟨a, hpruned⟩ := h.prune.gives hs (gives_prune body.list)
  obtain ⟨pieces, hpieces, hmarks, htargets, hassemble⟩ := encodeWithin_inv h.encode.run
  have hsettled : List.Forall₂ (fun n piece => n.Settled s piece) l.nodes.toList pieces :=
    (Gives.mapM Node.Settled.extends (fun n _ => Piece.gives_ofNode n) s pieces s hs hpieces).2
  have hblocks : List.Forall₂ (BlockAt s.pool e) l.blocks entries :=
    h.blocks.imp fun _ _ hb => ⟨hb.1.gives hs (gives_handlerEntry e _), hb.2⟩
  obtain ⟨lines, frames, hattributes, hlines, hframes⟩ := h.attributes
  refine ⟨a, pieces, _, ⟨hpruned, assemble_spec hassemble hsettled hmarks htargets, h.bytes,
    h.maxStack, h.maxLocals, hblocks, h.handlers, lines, frames, hattributes, ?_, ?_⟩, hpieces,
    hassemble, rfl⟩
  · exact hlines.gives hs (gives_lineTable _)
  · exact hframes.imp_right fun ⟨hmaps, points, table, hm⟩ => ⟨hmaps, hm.framesAt hs⟩

end WriteContext

/-! ## The steps of writing a class -/

namespace ClassModel

open Linking WriteContext

/-- What writing a field asked for. -/
structure FieldSteps (s : Links) (f : FieldModel) (info : MemberInfo) : Prop where
  access : info.access = f.access
  name : Lasts (ofInterning (.utf8 f.name)) s info.name
  descriptor : Lasts (ofInterning (.utf8 f.descriptor)) s info.descriptor
  attributes : info.attributes = f.attributes

/-- What writing the code of a method asked for, if there is any. -/
def BodySteps (ctx : WriteContext) (s : Links) (as : List Attribute) : Option MethodBody → Prop
  | none => as = []
  | some body => ∃ stored code, as = [stored] ∧
    Lasts (namedAttribute CodeAttribute.name (.ok code.encode)) s stored ∧
      ∃ l a' e entries, Steps ctx body s code l a' e entries

/-- What writing a method asked for. -/
structure MethodSteps (c : ClassModel) (h : Hierarchy) (s : Links) (m : MethodModel)
    (info : MemberInfo) : Prop where
  access : info.access = m.access
  name : Lasts (ofInterning (.utf8 m.name)) s info.name
  descriptor : Lasts (ofInterning (.utf8 m.descriptor)) s info.descriptor
  attributes : ∃ as, info.attributes = as ++ m.attributes ∧
    BodySteps (c.writeContext h m) s as m.body

/-- What writing a class asked for. -/
structure ClassSteps (c : ClassModel) (h : Hierarchy) (s : Links) (file : ClassFile) : Prop where
  version : file.version = c.version
  pool : file.pool = .empty
  access : file.access = c.access
  this : Lasts (ofInterning (.cls c.name)) s file.this
  super : Lasts (optionalClass c.super) s file.super
  interfaces : Lasts (ofInterning (c.interfaces.mapM .cls)) s file.interfaces
  fields : List.Forall₂ (FieldSteps s) c.fields file.fields
  methods : List.Forall₂ (c.MethodSteps h s) c.methods file.methods
  attributes : ∃ table, file.attributes = c.attributes ++ table ∧
    bootstrapTable.run.run s = (.ok table, s)

variable {c : ClassModel} {h : Hierarchy} {s t : Links}

theorem FieldSteps.extends {f : FieldModel} {info : MemberInfo} (hst : s.Extends t)
    (hf : FieldSteps s f info) : FieldSteps t f info :=
  { hf with name := hf.name.extends hst, descriptor := hf.descriptor.extends hst }

theorem BodySteps.extends {ctx : WriteContext} {as : List Attribute} {body : Option MethodBody}
    (hst : s.Extends t) (hb : BodySteps ctx s as body) : BodySteps ctx t as body := by
  cases body with
  | none => exact hb
  | some body =>
    obtain ⟨stored, code, has, hstored, l, a', e, entries, hs⟩ := hb
    exact ⟨stored, code, has, hstored.extends hst, l, a', e, entries, hs.extends hst⟩

theorem MethodSteps.extends {m : MethodModel} {info : MemberInfo} (hst : s.Extends t)
    (hm : c.MethodSteps h s m info) : c.MethodSteps h t m info := by
  obtain ⟨as, hattributes, hbody⟩ := hm.attributes
  exact { hm with
    name := hm.name.extends hst
    descriptor := hm.descriptor.extends hst
    attributes := ⟨as, hattributes, hbody.extends hst⟩ }

theorem steps_writeField (f : FieldModel) : Gives (writeField f) fun s info => FieldSteps s f info :=
  Gives.bind (lasting_ofInterning (Interning.lasting_utf8 f.name)) Lasts.extends fun _ =>
    Gives.map (lasting_ofInterning (Interning.lasting_utf8 f.descriptor))
      fun _ hdescriptor hname => ⟨rfl, hname, hdescriptor, rfl⟩

theorem steps_writeMethod (m : MethodModel) :
    Gives (c.writeMethod h m) fun s info => c.MethodSteps h s m info := by
  refine Gives.bind (lasting_ofInterning (Interning.lasting_utf8 m.name)) Lasts.extends
    fun name => ?_
  refine Gives.bind (lasting_ofInterning (Interning.lasting_utf8 m.descriptor)) Lasts.extends
    fun descriptor => ?_
  have hinfo : ∀ {s : Links} {as : List Attribute}, BodySteps (c.writeContext h m) s as m.body →
      Lasts (ofInterning (.utf8 m.descriptor)) s descriptor →
      Lasts (ofInterning (.utf8 m.name)) s name →
        c.MethodSteps h s m ⟨m.access, name, descriptor, as ++ m.attributes⟩ :=
    fun hbody hdescriptor hname => ⟨rfl, hname, hdescriptor, _, rfl, hbody⟩
  cases hbody : m.body with
  | none =>
    rw [hbody] at hinfo
    have hnone : Gives (pure [] : Linking (List Attribute)) fun _ as => as = [] :=
      .pure fun _ _ => rfl
    exact hnone.bind (fun _ h => h) fun as => .pure fun s _ has => hinfo (s := s) has
  | some body =>
    rw [hbody] at hinfo
    refine (steps_code body).bind (fun hst ⟨l, a', e, entries, hs⟩ =>
      ⟨l, a', e, entries, hs.extends hst⟩) fun code => ?_
    refine Gives.bind (lasting_namedAttribute _ _) Lasts.extends fun stored => ?_
    exact .pure fun s _ hstored hs => hinfo ⟨stored, code, rfl, hstored, hs⟩

/-- The table of bootstrap methods comes last; asking for its name changes no entry. -/
theorem steps_bootstrapTable :
    Gives bootstrapTable fun s as => bootstrapTable.run.run s = (.ok as, s) := by
  intro s as t hs hrun
  refine ⟨(gives_bootstrapTable s as t hs hrun).1, ?_⟩
  obtain ⟨s', t', hget, hrun⟩ := Growing.run_bind.mp hrun
  obtain ⟨hs', rfl⟩ := Prod.mk.inj hget
  obtain rfl := Except.ok.inj hs'
  refine Growing.run_bind.mpr ⟨t, t, rfl, ?_⟩
  by_cases hempty : s.bootstraps.isEmpty
  · simp only [hempty, if_true] at hrun
    obtain ⟨rfl, rfl⟩ := Growing.run_pure.mp hrun
    simp only [hempty, if_true]
    rfl
  · simp only [hempty, if_false, Bool.false_eq_true] at hrun
    obtain ⟨stored, u, hstored, hpure⟩ := Growing.run_bind.mp hrun
    obtain ⟨rfl, rfl⟩ := Growing.run_pure.mp hpure
    have hsame : u.bootstraps = s.bootstraps := by
      rw [← (Prod.mk.inj hstored).2]
    simp only [hsame, hempty, if_false, Bool.false_eq_true]
    have hagain := (lasting_namedAttribute _ _ s stored u hs hstored).2
    exact Growing.run_bind.mpr ⟨stored, u, hagain.run, rfl⟩

/-- Everything that writing a class asks for it finds again in the end. -/
theorem steps_write : Gives (c.write h) fun s file => c.ClassSteps h s file := by
  refine Gives.bind (lasting_ofInterning (Interning.lasting_cls c.name)) Lasts.extends
    fun this => ?_
  refine Gives.bind (lasting_optionalClass c.super) Lasts.extends fun super => ?_
  refine Gives.bind (lasting_ofInterning (Lasting.mapM Interning.lasting_cls c.interfaces))
    Lasts.extends fun interfaces => ?_
  have hfields : Gives (c.fields.mapM writeField) fun s infos =>
      List.Forall₂ (FieldSteps s) c.fields infos :=
    .mapM FieldSteps.extends fun f _ => steps_writeField f
  refine hfields.bind (fun h hall => hall.imp fun _ _ => FieldSteps.extends h) fun fields => ?_
  have hmethods : Gives (c.methods.mapM (c.writeMethod h)) fun s infos =>
      List.Forall₂ (c.MethodSteps h s) c.methods infos :=
    .mapM MethodSteps.extends fun m _ => steps_writeMethod m
  refine hmethods.bind (fun h hall => hall.imp fun _ _ => MethodSteps.extends h) fun methods => ?_
  exact steps_bootstrapTable.map fun {s table} _ htable hmethods hfields hinterfaces hsuper hthis =>
    ⟨rfl, rfl, rfl, hthis, hsuper, hinterfaces, hfields, hmethods, table, rfl, htable⟩

/-! ## What was written -/

theorem FieldSteps.at {f : FieldModel} {info : MemberInfo} (hs : s.pool.Reachable)
    (hf : FieldSteps s f info) : f.At s.pool info where
  access := hf.access
  name := hf.name.gives hs (gives_ofInterning (Interning.gives_utf8 _))
  descriptor := hf.descriptor.gives hs (gives_ofInterning (Interning.gives_utf8 _))
  attributes := hf.attributes

theorem BodySteps.at {ctx : WriteContext} {as : List Attribute} {body : Option MethodBody}
    (hs : s.pool.Reachable) (hb : BodySteps ctx s as body) : MethodBody.At ctx s as body := by
  cases body with
  | none => exact hb
  | some body =>
    obtain ⟨stored, code, has, hstored, l, a', e, entries, hsteps⟩ := hb
    obtain ⟨hnamed, hinfo⟩ := hstored.gives hs (gives_namedAttribute _ _)
    obtain ⟨a, -, slots, hw, -⟩ := hsteps.exists_wrote hs
    exact ⟨stored, code, has, hnamed, (Except.ok.inj hinfo).symm, a, l, a', e, slots, entries, hw⟩

theorem MethodSteps.at {m : MethodModel} {info : MemberInfo} (hs : s.pool.Reachable)
    (hm : c.MethodSteps h s m info) : c.MethodAt h s m info where
  access := hm.access
  name := hm.name.gives hs (gives_ofInterning (Interning.gives_utf8 _))
  descriptor := hm.descriptor.gives hs (gives_ofInterning (Interning.gives_utf8 _))
  attributes := by
    obtain ⟨as, hattributes, hbody⟩ := hm.attributes
    exact ⟨as, hattributes, hbody.at hs⟩

theorem ClassSteps.written {file : ClassFile} (hs : s.pool.Reachable)
    (hc : c.ClassSteps h s file) : c.Written h s file where
  version := hc.version
  access := hc.access
  this := hc.this.gives hs (gives_ofInterning (Interning.gives_cls _))
  super := hc.super.gives hs (gives_optionalClass _)
  interfaces := by
    have hinterfaces : Gives (c.interfaces.mapM Interning.cls) fun p is =>
        List.Forall₂ (fun name i => p.className i = .ok name) c.interfaces is :=
      .mapM (fun h hi => Pool.Extends.className h hi) fun name _ => Interning.gives_cls name
    exact hc.interfaces.gives hs (gives_ofInterning hinterfaces)
  fields := hc.fields.imp fun _ _ hf => hf.at hs
  methods := hc.methods.imp fun _ _ hm => hm.at hs
  attributes := by
    obtain ⟨table, hattributes, htable⟩ := hc.attributes
    exact ⟨table, hattributes, (gives_bootstrapTable s table s hs htable).2⟩

/-- What writing a class does. -/
theorem gives_write : Gives (c.write h) fun s file => c.Written h s file :=
  steps_write.imp fun hs hc => hc.written hs

end ClassModel
end ClassWeave
