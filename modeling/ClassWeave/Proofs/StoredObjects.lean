import ClassWeave.Frame.Verify
import ClassWeave.Model.Write
import ClassWeave.Proofs.Findings
import ClassWeave.Proofs.FreshObjects
import ClassWeave.Proofs.ObjectErrors

/-!
# Frames are stored without missing an instruction

A frame is stored with the offsets of the instructions that made its objects. Writing a class takes
them from code that all of them are in, and so does verifying one when it compares its own frames
with those of the class. Neither comes to an object that has no offset.
-/

namespace ClassWeave

namespace CompactFrame

variable {offset? : Nat → Option Nat} {c : NamedFrame}

/-- Every object of the frame is made by an instruction with an offset. -/
def Placed (offset? : Nat → Option Nat) (c : NamedFrame) : Prop :=
  ∀ i, .fresh i ∈ c.locals ∨ .fresh i ∈ c.stack → ∃ o, offset? i = some o

theorem harmless_internType {t : NamedType}
    (ht : ∀ i, t = .fresh i → ∃ o, offset? i = some o) :
    Harmless (t.mapM Interning.cls fun i => Interning.ofPool fun _ =>
      (freshOffset offset? i).map UInt16.ofNat) := by
  cases t with
  | object cls => exact (Interning.fulfils_cls cls).bind fun _ _ => .pure trivial
  | fresh i =>
    obtain ⟨o, ho⟩ := ht i rfl
    refine (Interning.fulfils_ofPool fun _ => ?_).bind fun _ _ => .pure trivial
    rw [freshOffset, ho]
    trivial
  | _ => exact .pure trivial

theorem Placed.harmless_intern (hc : c.Placed offset?) : Harmless (c.intern offset?) :=
  (Growing.Fulfils.mapM (S := Anything) fun _ ht => harmless_internType fun i hi =>
    hc i (.inl (hi ▸ ht))).bind fun _ _ =>
  (Growing.Fulfils.mapM (S := Anything) fun _ ht => harmless_internType fun i hi =>
    hc i (.inr (hi ▸ ht))).bind fun _ _ => .pure trivial

theorem Placed.spares_relocate (hc : c.Placed offset?) : Spares Anything (c.relocate offset?) := by
  obtain ⟨c', hc'⟩ := exists_relocate (fun i hi => hc i (.inl hi)) fun i hi => hc i (.inr hi)
  rw [hc']
  trivial

end CompactFrame

theorem Frame.placed_compact {f : Frame} {offset? : Nat → Option Nat}
    (hf : ∀ i, f.Holds i → ∃ o, offset? i = some o) : f.compact.Placed offset? := fun i hi =>
  hf i (hi.imp mem_compactLocals List.mem_reverse.mp)

/-- The frame at entry holds no objects. -/
theorem Frame.placed_entry {m : MethodContext} {f : Frame} (hf : entry m = .ok f)
    (offset? : Nat → Option Nat) : f.compact.Placed offset? :=
  placed_compact fun i hi => ((tidy_entry (K := fun _ => False) hf).holds i hi).elim

/-- Objects are found where every entry of the list has an offset. -/
theorem Analysis.Tidy.placed {l : InstrList} {a : Analysis} (ha : a.Tidy l) {i : Nat} {f : Frame}
    (hf : a.frameAt? l.nodes i = some f) {offsets : Array Nat}
    (hsize : offsets.size = l.nodes.size) : f.compact.Placed fun j => offsets[j]? := by
  obtain ⟨j, -, hf⟩ := Analysis.frameAt?_eq_some.mp hf
  refine Frame.placed_compact (ha.entries hf fun k hk => ?_)
  exact ⟨_, Array.getElem?_eq_getElem (hsize ▸ hk)⟩

/-! ## Writing a class -/

namespace WriteContext

open Linking

variable (ctx : WriteContext)

theorem harmless_analysis (l : InstrList) :
    Growing.Fulfils (Analysis.Tidy l) ClassError.LosesNew (ctx.analysis l) :=
  fun _ => Analysis.spares_analyze

/-- The frames are those of the code that is left. -/
theorem harmless_prune (l : InstrList) :
    Growing.Fulfils (fun (l', a) => Analysis.Tidy l' a) ClassError.LosesNew (ctx.prune l) := by
  refine (ctx.harmless_analysis l).bind fun a ha => .ite (fun _ => ?_) fun _ => .pure ha
  exact (ctx.harmless_analysis _).bind fun a' ha' => .pure ha'

theorem harmless_labelOffset (e : Code.Encoded) (lab : Label) :
    Harmless (ofResult (e.labelOffset lab)) := fulfils_ofResult (Code.spares_labelOffset e lab)

theorem harmless_handlerEntry (e : Code.Encoded) (b : TryBlock) : Harmless (handlerEntry e b) := by
  refine (harmless_labelOffset e b.start).bind fun start _ => ?_
  refine (harmless_labelOffset e b.stop).bind fun stop _ => ?_
  refine .ite (fun _ => .pure trivial) fun _ => ?_
  refine (fulfils_optionalClass b.catchType).bind fun _ _ => ?_
  exact (harmless_labelOffset e b.handler).bind fun _ _ => .pure trivial

theorem harmless_namedAttribute (name : String) (info : Except FormatError (List UInt8)) :
    Harmless (namedAttribute name info) := by
  refine fulfils_ofInterning ((Interning.fulfils_utf8 name).bind fun i _ => ?_)
  cases info with
  | ok => exact .pure trivial
  | error => exact .throw id

variable {l : InstrList} {a : Analysis} {e : Code.Encoded}

theorem harmless_addFrame (ha : a.Tidy l) (he : e.offsets.size = l.nodes.size)
    (frames : Std.HashMap Nat RawFrame) (i : Nat) : Harmless (addFrame l a e frames i) := by
  unfold addFrame
  cases e.offsets[i]? with
  | none => exact .throw id
  | some offset =>
    refine .ite (fun _ => .pure trivial) fun _ => ?_
    cases hf : a.frameAt? l.nodes i with
    | none => exact .throw id
    | some f =>
      exact (fulfils_ofInterning (ha.placed hf he).harmless_intern).bind fun _ _ => .pure trivial

theorem spares_framePoints (handlers : List Label) : Spares Anything (framePoints l e handlers) :=
  (Fulfils.mapM (S := Anything) fun lab _ => FlowGraph.spares_position _ lab).bind
    fun _ _ => trivial

theorem harmless_stackMap (ha : a.Tidy l) (he : e.offsets.size = l.nodes.size)
    (handlers : List Label) : Harmless (ctx.stackMap l a e handlers) := by
  refine (fulfils_ofResult (spares_framePoints handlers)).bind fun points _ => ?_
  refine (Growing.Fulfils.foldlM (S := Anything)
    (fun frames _ i _ => harmless_addFrame ha he frames i) trivial).bind fun frames _ => ?_
  refine .ite (fun _ => .pure trivial) fun _ => ?_
  refine (fulfils_ofResult (Frame.spares_entry ctx.method)).bind fun entry hentry => ?_
  refine (fulfils_ofInterning (Frame.placed_entry hentry _).harmless_intern).bind fun _ _ => ?_
  exact (harmless_namedAttribute _ _).bind fun _ _ => .pure trivial

theorem harmless_lineTable (lines : List LineEntry) : Harmless (lineTable lines) :=
  .ite (fun _ => .pure trivial) fun _ =>
    (harmless_namedAttribute _ _).bind fun _ _ => .pure trivial

theorem harmless_sized (n : Nat) {error : Nat → ClassError} (herror : ¬ (error n).LosesNew) :
    Harmless (sized n error) := .ite (fun _ => .pure trivial) fun _ => .throw herror

theorem harmless_code (body : MethodBody) : Harmless (ctx.code body) := by
  refine (ctx.harmless_prune body.list).bind fun (l, a) ha => ?_
  refine (Code.harmless_encodeWithin _ _ _).bind fun e he => ?_
  refine (Growing.Fulfils.mapM (S := Anything) fun b _ =>
    (harmless_handlerEntry e b).bind fun _ _ => .pure trivial).bind fun entries _ => ?_
  refine (harmless_sized _ id).bind fun _ _ => (harmless_sized _ id).bind fun _ _ => ?_
  refine (harmless_lineTable _).bind fun _ _ => ?_
  have hstackMap := ctx.harmless_stackMap ha (he.trans l.nodes.length_toList)
  exact .ite (fun _ => (hstackMap _).bind fun _ _ => .pure trivial) fun _ => .pure trivial

end WriteContext

namespace ClassModel

open Linking

variable (h : Hierarchy) (c : ClassModel)

theorem harmless_text (text : String) : Harmless (ofInterning (.utf8 text)) :=
  fulfils_ofInterning (Interning.fulfils_utf8 text)

theorem harmless_writeField (f : FieldModel) : Harmless (writeField f) :=
  (harmless_text _).bind fun _ _ => (harmless_text _).bind fun _ _ => .pure trivial

theorem harmless_writeMethod (m : MethodModel) : Harmless (c.writeMethod h m) := by
  refine (harmless_text _).bind fun _ _ => (harmless_text _).bind fun _ _ => ?_
  cases m.body with
  | none => exact .pure trivial
  | some body =>
    refine (WriteContext.harmless_code _ body).bind fun code _ => ?_
    exact (WriteContext.harmless_namedAttribute _ _).bind fun _ _ => .pure trivial

theorem harmless_bootstrapTable : Harmless bootstrapTable := by
  refine Growing.Fulfils.bind (R := Anything) (fun _ => trivial) fun s _ => ?_
  refine .ite (fun _ => .pure trivial) fun _ => ?_
  exact (WriteContext.harmless_namedAttribute _ _).bind fun _ _ => .pure trivial

theorem harmless_write : Harmless (c.write h) := by
  have hcls : ∀ name : String, Harmless (Interning.cls name) := Interning.fulfils_cls
  refine (fulfils_ofInterning (hcls c.name)).bind fun _ _ => ?_
  refine (fulfils_optionalClass c.super).bind fun _ _ => ?_
  refine (fulfils_ofInterning (Growing.Fulfils.mapM (S := Anything) fun name _ =>
    hcls name)).bind fun _ _ => ?_
  refine (Growing.Fulfils.mapM (S := Anything) fun f _ => harmless_writeField f).bind
    fun _ _ => ?_
  refine (Growing.Fulfils.mapM (S := Anything) fun m _ => c.harmless_writeMethod h m).bind
    fun _ _ => ?_
  exact harmless_bootstrapTable.bind fun _ _ => .pure trivial

/-- Writing a class does not come to an object that no instruction has made. -/
theorem spares_toBytes : Spares Anything (c.toBytes h) := by
  refine Fulfils.bind (R := Anything) ?_ fun _ _ => trivial
  have hwrite : Fulfils Anything ClassError.LosesNew ((c.write h).on c.links).1 :=
    c.harmless_write h c.links
  unfold toClassFile
  generalize (c.write h).on c.links = ran at hwrite ⊢
  obtain ⟨result, links⟩ := ran
  cases result with
  | ok => trivial
  | error e => exact hwrite

end ClassModel

/-! ## Verifying a class -/

namespace CompactFrame

variable (pool : Pool)

theorem spares_resolve (t : RawType) : Spares Anything (resolve pool t) := by
  cases t with
  | object cls => exact (pool.fulfils_className cls).bind fun _ _ => trivial
  | _ => trivial

theorem spares_follow (previous : NamedFrame) (d : StackMapFrame) :
    Spares Anything (follow pool previous d) := by
  have types : ∀ ts : List RawType, Spares Anything (ts.mapM (resolve pool)) := fun ts =>
    (Fulfils.mapM (S := Anything) fun t _ => spares_resolve pool t).imp fun _ _ _ => trivial
  cases d with
  | same => trivial
  | sameOne _ t => exact (spares_resolve pool t).bind fun _ _ => trivial
  | chop _ k => exact .ite (fun _ => trivial) fun _ => id
  | append _ ts => exact (types ts).bind fun _ _ => trivial
  | full _ locals stack =>
    exact (types locals).bind fun _ _ => (types stack).bind fun _ _ => trivial

theorem spares_readOnto : ∀ (table : List StackMapFrame) (found : List (Nat × NamedFrame))
    (previous : NamedFrame) (last : Option Nat),
    Spares Anything (readOnto pool found previous last table)
  | [], _, _, _ => trivial
  | d :: table, _, previous, _ =>
    (spares_follow pool previous d).bind fun _ _ => spares_readOnto table _ _ _

end CompactFrame

namespace Verify

/-- None of the errors is for want of an instruction that makes an object. -/
def Clean (es : List ClassError) : Prop := ∀ e ∈ es, ¬ e.LosesNew

theorem Clean.append {es es' : List ClassError} (hes : Clean es) (hes' : Clean es') :
    Clean (es ++ es') := fun e he => (List.mem_append.mp he).elim (hes e) (hes' e)

theorem clean_singleton {e : ClassError} (he : ¬ e.LosesNew) : Clean [e] :=
  List.forall_mem_singleton.mpr he

theorem draws_checkFrame (h : Hierarchy) (offset : Nat) (found recorded : NamedFrame) :
    Draws Anything (checkFrame h offset found recorded) := by
  refine .ite (fun _ => id) fun _ => ?_
  simp only
  split
  · exact id
  · trivial

namespace Subject

variable {s : Subject}

/-- A stored frame is compared with a frame whose objects have offsets. -/
theorem checkStored_clean (ha : s.analysis.Tidy s.list) (hsize : s.offsets.size = s.list.nodes.size)
    {nodes : Std.HashMap Nat Nat} {offset : Nat} {recorded : NamedFrame} {e : ClassError}
    (he : s.checkStored nodes offset recorded = some e) : ¬ e.LosesNew := by
  unfold checkStored at he
  simp only at he
  split at he
  · split at he
    · obtain rfl := Option.some.inj he
      exact id
    · rename_i i hi
      split at he
      · cases he
      · rename_i f hf
        have hrelocate := (ha.placed hf hsize).spares_relocate
        split at he
        · rename_i e' herror
          obtain rfl := Option.some.inj he
          exact hrelocate.error herror
        · split at he
          · rename_i e' herror
            obtain rfl := Option.some.inj he
            exact (draws_checkFrame s.hierarchy offset _ recorded).error herror
          · cases he
  · obtain rfl := Option.some.inj he
    exact id

theorem check_clean (ha : s.analysis.Tidy s.list) (hsize : s.offsets.size = s.list.nodes.size)
    (recorded : List (Nat × NamedFrame)) : Clean (s.check recorded) := by
  intro e he
  rcases List.mem_append.mp he with he | he
  · obtain ⟨offset, -, rfl⟩ := List.mem_map.mp he
    exact id
  · obtain ⟨⟨offset, c⟩, -, hc⟩ := List.mem_filterMap.mp he
    exact checkStored_clean ha hsize hc

end Subject

theorem spares_readAttribute {α : Type} (pool : Pool) (name : String) (r : Reader α)
    (attributes : List Attribute) : Spares Anything (readAttribute pool name r attributes) := by
  refine Fulfils.foldlM (fun found _ a _ => ?_) trivial
  refine (pool.fulfils_utf8 a.name).bind fun _ _ => .ite (fun _ => ?_) fun _ => trivial
  exact (ClassError.spares_reading r a.info).bind fun _ _ => trivial

variable (c : ClassFile) (h : Hierarchy)

theorem spares_storedFrames {m : MethodContext} {code : CodeAttribute} {list : InstrList}
    {offsets : List Nat} {analysis : Analysis} (ha : analysis.Tidy list)
    (hsize : offsets.length = list.nodes.size) :
    Spares Clean (storedFrames c h m code list offsets analysis) := by
  refine (spares_readAttribute _ _ _ _).bind fun table _ => ?_
  have hrecorded : Spares Anything (do
      let entry ← FlowGraph.failure 0 (Frame.entry m)
      CompactFrame.ofTable c.pool (← entry.compact.relocate fun _ => none) (table.getD [])) := by
    refine (Frame.spares_entry m).bind fun entry hentry => ?_
    refine (Frame.placed_entry hentry _).spares_relocate.bind fun first _ => ?_
    exact CompactFrame.spares_readOnto c.pool _ [] first none
  simp only
  split
  · rename_i e he
    exact clean_singleton (hrecorded.error he)
  · exact Subject.check_clean ha (by simpa using hsize) _

theorem spares_checkCode (bootstraps : Array BootstrapMethod) (m : MethodContext)
    (code : CodeAttribute) : Spares Clean (checkCode c h bootstraps m code) := by
  refine (Code.spares_decode _ _ _ _).bind fun (list, offsets) hsize => ?_
  have hanalyze : Spares (Analysis.Tidy list) (analyze m list c.pool h .strict) :=
    Analysis.spares_analyze
  simp only
  split
  · rename_i e he
    exact clean_singleton (hanalyze.error he)
  · rename_i analysis ha
    have hroom : ∀ {p : Prop} [Decidable p] {e : VerifyError}, ¬ e.LosesNew →
        Clean (if p then [.verify 0 e] else []) := by
      intro p _ e he
      split
      · exact clean_singleton he
      · exact fun _ hmem => nomatch hmem
    have hrooms := (hroom (p := code.maxStack.toNat < analysis.maxStack)
      (e := .maxStackExceeded code.maxStack analysis.maxStack) id).append
      (hroom (p := code.maxLocals.toNat < analysis.maxLocals)
        (e := .maxLocalsExceeded code.maxLocals analysis.maxLocals) id)
    refine .ite (fun _ => ?_) fun _ => hrooms
    refine (spares_storedFrames c h (hanalyze.ok ha) hsize).bind fun es hes => ?_
    exact hrooms.append hes

theorem spares_checkMethod (cls : String) (bootstraps : Array BootstrapMethod)
    (info : MemberInfo) :
    Spares (fun found => ∀ f ∈ found, ¬ f.error.LosesNew)
      (checkMethod c h cls bootstraps info) := by
  refine (spares_readAttribute _ _ _ _).bind fun code _ => ?_
  cases code with
  | none => exact fun _ hmem => nomatch hmem
  | some code =>
    refine (c.pool.fulfils_utf8 _).bind fun name _ => (c.pool.fulfils_utf8 _).bind fun _ _ => ?_
    refine (spares_checkCode c h bootstraps _ code).bind fun es hes f hf => ?_
    obtain ⟨e, he, rfl⟩ := List.mem_map.mp hf
    exact hes e he

end Verify

theorem ClassFile.spares_parse (bytes : List UInt8) : Spares Anything (parse bytes) := by
  unfold parse
  split
  · exact id
  · trivial
  · exact id

/-- Verifying a class neither fails for an object that no instruction has made nor reports one. -/
theorem spares_verifyClass (bytes : List UInt8) (h : Hierarchy) :
    Spares (fun found => ∀ f ∈ found, ¬ f.error.LosesNew) (verifyClass bytes h) := by
  refine (ClassFile.spares_parse bytes).bind fun c _ => ?_
  refine (c.pool.fulfils_className c.this).bind fun cls _ => ?_
  refine (Verify.spares_readAttribute _ _ _ _).bind fun bootstraps _ => ?_
  refine (Fulfils.mapM fun info _ =>
    Verify.spares_checkMethod c h cls _ info).bind fun found hfound f hf => ?_
  obtain ⟨fs, hfs, hf⟩ := List.mem_flatten.mp hf
  exact hfound fs hfs f hf

end ClassWeave
