import ClassWeave.Proofs.Encoding
import ClassWeave.Proofs.Outcomes
import Mathlib.Tactic.SplitIfs

/-!
# Errors of what code is made of

Constants, the forms of instructions and the length of code account for a few errors of their own.
Errors of any other kind, such as those about labels or about frames, never come up while the
entries of a list are settled and written down.
-/

namespace ClassWeave

/-- Why constants and instructions cannot be written. -/
def ClassError.AboutPieces : ClassError → Prop
  | .badConstant .. | .poolOverflow .. | .badDescriptor _ | .unknownOpcode .. | .codeTooLong _ =>
    True
  | .malformed flaw =>
    match flaw with
    | .operandRange .. | .switchTargets .. | .tooManyBootstrapMethods => True
    | _ => False
  | _ => False

/-- The errors are of another kind. -/
class ClassError.Apart (E : ClassError → Prop) : Prop where
  not_of : ∀ {e}, e.AboutPieces → ¬ E e

open ClassError.Apart

variable {E : ClassError → Prop} [ClassError.Apart E]

/-! ## Constants -/

namespace Pool

variable (p : Pool) (i : PoolIndex)

theorem fulfils_get : Fulfils Anything E (p.get i) := by
  unfold get
  cases p.constants.get? i.toNat with
  | some c => trivial
  | none => exact not_of trivial

theorem fulfils_utf8 : Fulfils Anything E (p.utf8 i) := by
  refine (p.fulfils_get i).bind fun c _ => ?_
  cases c with
  | utf8 => trivial
  | _ => exact not_of trivial

theorem fulfils_className : Fulfils Anything E (p.className i) := by
  refine (p.fulfils_get i).bind fun c _ => ?_
  cases c with
  | classInfo name => exact p.fulfils_utf8 name
  | _ => exact not_of trivial

theorem fulfils_optionalClass : Fulfils Anything E (p.optionalClass i) :=
  .ite (fun _ => trivial) fun _ => (p.fulfils_className i).map fun _ _ => trivial

theorem fulfils_nameAndType : Fulfils Anything E (p.nameAndType i) := by
  refine (p.fulfils_get i).bind fun c _ => ?_
  cases c with
  | nameAndType name descriptor =>
    exact (p.fulfils_utf8 name).bind fun _ _ => (p.fulfils_utf8 descriptor).bind fun _ _ => trivial
  | _ => exact not_of trivial

theorem fulfils_member (owner nt : PoolIndex) : Fulfils Anything E (p.member owner nt) :=
  (p.fulfils_className owner).bind fun _ _ => (p.fulfils_nameAndType nt).bind fun _ _ => trivial

theorem fulfils_memberRef : Fulfils Anything E (p.memberRef i) := by
  refine (p.fulfils_get i).bind fun c _ => ?_
  cases c with
  | fieldRef owner nt => exact (p.fulfils_member owner nt).bind fun _ _ => trivial
  | methodRef owner nt => exact (p.fulfils_member owner nt).bind fun _ _ => trivial
  | _ => exact not_of trivial

theorem fulfils_handle : Fulfils Anything E (p.handle i) := by
  refine (p.fulfils_get i).bind fun c _ => ?_
  cases c with
  | methodHandle _ member => exact (p.fulfils_memberRef member).bind fun _ _ => trivial
  | _ => exact not_of trivial

theorem fulfils_loadable : Fulfils Anything E (p.loadable i) := by
  refine (p.fulfils_get i).bind fun c _ => ?_
  cases c with
  | string text => exact (p.fulfils_utf8 text).bind fun _ _ => trivial
  | classInfo text => exact (p.fulfils_utf8 text).bind fun _ _ => trivial
  | methodType text => exact (p.fulfils_utf8 text).bind fun _ _ => trivial
  | methodHandle => exact (p.fulfils_handle i).bind fun _ _ => trivial
  | integer | float | long | double | dynamic => trivial
  | _ => exact not_of trivial

theorem fulfils_isWide (c : Loadable) : Fulfils Anything E (p.isWide c) := by
  cases c with
  | pooled i =>
    refine (p.fulfils_get i).bind fun c _ => ?_
    cases c with
    | dynamic _ nt => exact (p.fulfils_nameAndType nt).bind fun _ _ => trivial
    | _ => trivial
  | _ => trivial

end Pool

namespace Interning

theorem fulfils_intern (c : Constant) : Growing.Fulfils Anything E (intern c) := by
  intro p
  simp only [intern, ExceptT.run, ExceptT.mk, StateT.run]
  cases p.index[c]? with
  | some i => trivial
  | none =>
    simp only
    split
    · trivial
    · exact not_of trivial

omit [ClassError.Apart E] in
theorem fulfils_ofPool {α : Type} {f : Pool → ClassResult α} (hf : ∀ p, Fulfils Anything E (f p)) :
    Growing.Fulfils Anything E (ofPool f) := hf

theorem fulfils_utf8 (text : String) : Growing.Fulfils Anything E (utf8 text) := fulfils_intern _

/-- A constant that is made of a text. -/
theorem fulfils_named (text : String) (f : PoolIndex → Constant) :
    Growing.Fulfils Anything E (do intern (f (← utf8 text))) :=
  (fulfils_utf8 text).bind fun _ _ => fulfils_intern _

theorem fulfils_cls (name : String) : Growing.Fulfils Anything E (cls name) := fulfils_named name _

theorem fulfils_nameAndType (name descriptor : String) :
    Growing.Fulfils Anything E (nameAndType name descriptor) :=
  (fulfils_utf8 _).bind fun _ _ => (fulfils_utf8 _).bind fun _ _ => fulfils_intern _

theorem fulfils_member (m : MemberRef) (f : PoolIndex → PoolIndex → Constant) :
    Growing.Fulfils Anything E (do
      let owner ← cls m.owner
      let nt ← nameAndType m.name m.descriptor
      intern (f owner nt)) :=
  (fulfils_cls _).bind fun _ _ => (fulfils_nameAndType _ _).bind fun _ _ => fulfils_intern _

theorem fulfils_handle (h : Handle) : Growing.Fulfils Anything E (handle h) := by
  unfold handle
  split
  · exact (fulfils_member h.member _).bind fun _ _ => fulfils_intern _
  · exact (fulfils_member h.member _).bind fun _ _ => fulfils_intern _

theorem fulfils_loadable (c : Loadable) : Growing.Fulfils Anything E (loadable c) := by
  cases c with
  | int | float | long | double => exact fulfils_intern _
  | string text | cls text | methodType text => exact fulfils_named text _
  | handle h => exact fulfils_handle h
  | pooled i => exact (fulfils_ofPool fun p => p.fulfils_get i).bind fun _ _ => .pure trivial

end Interning

namespace Linking

omit [ClassError.Apart E] in
theorem fulfils_ofInterning {α : Type} {R : α → Prop} {x : Interning α}
    (hx : Growing.Fulfils R E x) : Growing.Fulfils R E (ofInterning x) := fun s => hx s.pool

omit [ClassError.Apart E] in
theorem fulfils_ofResult {α : Type} {R : α → Prop} {x : ClassResult α} (hx : Fulfils R E x) :
    Growing.Fulfils R E (ofResult x) := fun _ => hx

theorem fulfils_optionalClass (name : Option String) :
    Growing.Fulfils Anything E (optionalClass name) := by
  cases name with
  | none => exact .pure trivial
  | some name => exact fulfils_ofInterning (Interning.fulfils_cls name)

omit [ClassError.Apart E] in
theorem fulfils_bootstrapPosition (entry : BootstrapMethod) :
    Growing.Fulfils Anything E (bootstrapPosition entry) := by
  intro s
  simp only [bootstrapPosition, ExceptT.run, ExceptT.mk, StateT.run]
  cases s.bootstraps.findIdx? (· == entry) <;> trivial

theorem fulfils_callSite (site : CallSite) : Growing.Fulfils Anything E (callSite site) := by
  refine (fulfils_ofInterning (Interning.fulfils_handle _)).bind fun _ _ => ?_
  refine (fulfils_ofInterning (Growing.Fulfils.mapM (S := Anything) fun c _ =>
    Interning.fulfils_loadable c)).bind fun _ _ => ?_
  refine (fulfils_bootstrapPosition _).bind fun _ _ => .ite (fun _ => ?_) fun _ =>
    .throw (not_of trivial)
  exact fulfils_ofInterning ((Interning.fulfils_nameAndType _ _).bind fun _ _ =>
    Interning.fulfils_intern _)

end Linking

/-! ## Code -/

namespace Code

open Linking

namespace Piece

/-- The piece stands for the entry: jumps and switches keep their labels, the keys of a switch are put
in order, and all other instructions are bytes. -/
inductive Stands : Node → Piece → Prop
  | label (l : Label) : Stands (.label l) (.label l)
  | line (n : UInt16) : Stands (.line n) (.line n)
  | jump (op : UInt8) (t : Label) : Stands (.instr (.jump op t)) (.jump op t)
  | tableSwitch (low high : Int32) (d : Label) (ts : List Label) :
      Stands (.instr (.tableSwitch low high d ts)) (.tableSwitch low high d ts)
  | lookupSwitch (d : Label) (ps : List (Int32 × Label)) :
      Stands (.instr (.lookupSwitch d ps)) (.lookupSwitch d (ps.mergeSort fun a b => a.1 ≤ b.1))
  | bytes {i : Instr Label} (htargets : i.targets = []) (bs : List UInt8) :
      Stands (.instr i) (.bytes bs)

theorem stands_ofVar (op : UInt8) (i : UInt16) : Stands (.instr (.var op i)) (ofVar op i) := by
  unfold ofVar
  split_ifs <;> exact .bytes rfl _

theorem stands_ofIncrement (i : UInt16) (n : Int16) :
    Stands (.instr (.increment i n)) (ofIncrement i n) := by
  unfold ofIncrement
  split_ifs <;> exact .bytes rfl _

theorem stands_ofLoad (c : Loadable) (isWide : Bool) (i : PoolIndex) :
    Stands (.instr (.load c)) (ofLoad isWide i) := by
  unfold ofLoad
  split_ifs <;> exact .bytes rfl _

theorem fulfils_ofInt (op : UInt8) (n : Int32) :
    Fulfils (Stands (.instr (.int op n))) E (ofInt op n) := by
  refine .ite (fun _ => .ite (fun _ => .bytes rfl _) fun _ => not_of trivial) fun _ => ?_
  refine .ite (fun _ => .ite (fun _ => .bytes rfl _) fun _ => not_of trivial) fun _ => ?_
  exact .ite (fun _ => .bytes rfl _) fun _ => not_of trivial

theorem fulfils_callTail (op : UInt8) (descriptor : String) :
    Fulfils Anything E (callTail op descriptor) := by
  refine .ite (fun _ => Fulfils.bind (R := Anything) ?_ fun _ _ => trivial) fun _ => trivial
  unfold MethodType.parse
  cases MethodType.parse? descriptor with
  | some m => trivial
  | none => exact not_of trivial

theorem fulfils_ofInstr (i : Instr Label) :
    Growing.Fulfils (Stands (.instr i)) E (ofInstr i) := by
  cases i with
  | plain op => exact .pure (.bytes rfl _)
  | jump op t => exact .pure (.jump op t)
  | lookupSwitch d ps => exact .pure (.lookupSwitch d ps)
  | var op i => exact .pure (stands_ofVar op i)
  | increment i n => exact .pure (stands_ofIncrement i n)
  | int op n => exact fulfils_ofResult (fulfils_ofInt op n)
  | type op cls =>
    exact (fulfils_ofInterning (Interning.fulfils_cls cls)).bind fun _ _ => .pure (.bytes rfl _)
  | newMultiArray cls =>
    exact (fulfils_ofInterning (Interning.fulfils_cls cls)).bind fun _ _ => .pure (.bytes rfl _)
  | field op m =>
    exact (fulfils_ofInterning (Interning.fulfils_member m _)).bind fun _ _ => .pure (.bytes rfl _)
  | method op m isInterface =>
    refine (fulfils_ofInterning (Interning.fulfils_member m _)).bind fun _ _ => ?_
    exact (fulfils_ofResult (fulfils_callTail op m.descriptor)).bind fun _ _ => .pure (.bytes rfl _)
  | load c =>
    refine (fulfils_ofInterning (Interning.fulfils_loadable c)).bind fun i _ => ?_
    refine (fulfils_ofInterning (Interning.fulfils_ofPool fun p => p.fulfils_isWide c)).bind ?_
    exact fun isWide _ => .pure (stands_ofLoad c isWide i)
  | tableSwitch low high d ts =>
    exact .ite (fun _ => .pure (.tableSwitch low high d ts)) fun _ => .throw (not_of trivial)
  | invokeDynamic site =>
    exact (fulfils_callSite site).bind fun _ _ => .pure (.bytes rfl _)

theorem fulfils_ofNode (n : Node) : Growing.Fulfils (Stands n) E (ofNode n) := by
  cases n with
  | instr i => exact fulfils_ofInstr i
  | label lab => exact .pure (.label lab)
  | line m => exact .pure (.line m)

/-- The piece is the marker of a label just where the entry is. -/
theorem Stands.label_iff {n : Node} {p : Piece} (h : Stands n p) (lab : Label) :
    p = .label lab ↔ n = .label lab := by
  cases h with
  | label l => simp
  | _ => exact iff_of_false nofun nofun

/-- The markers of pieces are those of the entries. -/
theorem Stands.mem_iff {nodes : List Node} {pieces : List Piece}
    (h : List.Forall₂ Stands nodes pieces) (lab : Label) :
    .label lab ∈ pieces ↔ .label lab ∈ nodes := by
  constructor
  · intro hmem
    obtain ⟨n, hn, hstands⟩ := exists_of_forall₂ h.flip hmem
    exact (hstands.label_iff lab).mp rfl ▸ hn
  · intro hmem
    obtain ⟨p, hp, hstands⟩ := exists_of_forall₂ h hmem
    exact (hstands.label_iff lab).mpr rfl ▸ hp

end Piece

theorem fulfils_emit (lay : Layout) (s : Slot) (offset : Nat) :
    Fulfils Anything E (emit lay s offset) := by
  unfold emit
  cases s.piece with
  | jump op l =>
    refine .ite (fun _ => .ite (fun _ => trivial) fun _ => .ite (fun _ => trivial) fun _ => ?_)
      fun _ => trivial
    cases Opcode.invertJump? op with
    | some inverse => trivial
    | none => exact not_of trivial
  | _ => trivial

/-- Every piece has an offset, and every marker of a label that was handed out has one that can be
looked up. -/
theorem fulfils_assemble (range : JumpRange) (count : Nat) (pieces : List Piece) :
    Fulfils (fun e => e.offsets.size = pieces.length ∧
      ∀ lab, .label lab ∈ pieces → lab.id < count → ∃ o, e.labelOffset lab = .ok o) E
      (assemble range count pieces) := by
  obtain ⟨hlay, hpieces, -⟩ := settle_spec range count (pieces.map (⟨·, false⟩))
  unfold assemble
  generalize settle range count (pieces.map (⟨·, false⟩)) = settled at *
  obtain ⟨slots, lay⟩ := settled
  simp only at hlay hpieces ⊢
  rw [List.map_map] at hpieces
  have hpieces : slots.map Slot.piece = pieces := hpieces.trans (List.map_id _)
  refine .ite (fun _ => not_of trivial) fun _ => ?_
  refine (Fulfils.mapM (S := Anything) fun p _ => fulfils_emit lay p.1 p.2).bind fun _ _ => ?_
  refine ⟨?_, fun lab hlab hid => ?_⟩
  · show lay.offsets.size = pieces.length
    rw [hlay, ← Array.length_toList, Layout.offsets_ofSlots, length_offsetsFrom, ← hpieces,
      List.length_map]
  · obtain ⟨o, ho⟩ := Layout.exists_offset?_ofSlots hid (hpieces.symm ▸ hlab)
    rw [← hlay] at ho
    refine ⟨o, ?_⟩
    unfold Encoded.labelOffset
    rw [show lay.labels[lab.id]?.join = some o from ho]

theorem missingLabels_of_marked {nodes : List Node} {count : Nat}
    (hmarks : ∀ lab, .label lab ∈ nodes → lab.id < count)
    (htargets : ∀ lab ∈ nodes.flatMap Node.targets, .label lab ∈ nodes) :
    missingLabels count nodes = [] := by
  refine Label.sorted_eq_nil.mpr (List.filter_eq_nil_iff.mpr fun lab hlab => ?_)
  have hmark := htargets lab hlab
  simpa using (getD_markedLabels nodes count lab).mpr ⟨hmark, hmarks lab hmark⟩

theorem strangeLabel?_of_marks {nodes : List Node} {count : Nat} {pieces : List Piece}
    (hstands : List.Forall₂ Piece.Stands nodes pieces)
    (hmarks : ∀ lab, .label lab ∈ nodes → lab.id < count) : strangeLabel? count pieces = none := by
  refine List.findSome?_eq_none_iff.mpr fun p hp => ?_
  cases p with
  | label lab => exact if_pos (hmarks lab ((Piece.Stands.mem_iff hstands lab).mp hp))
  | _ => rfl

/-- Where all markers are of labels that were handed out and all targets have markers, encoding does
not fail for want of a label, and every marker has an offset. -/
theorem fulfils_encodeWithin (range : JumpRange) {nodes : List Node} {count : Nat}
    (hmarks : ∀ lab, .label lab ∈ nodes → lab.id < count)
    (htargets : ∀ lab ∈ nodes.flatMap Node.targets, .label lab ∈ nodes) :
    Growing.Fulfils (fun e => ∀ lab, .label lab ∈ nodes → ∃ o, e.labelOffset lab = .ok o) E
      (encodeWithin range nodes count) := by
  refine (Growing.Fulfils.mapM_forall₂ fun n _ => Piece.fulfils_ofNode n).bind
    fun pieces hpieces => ?_
  simp only [strangeLabel?_of_marks hpieces hmarks, missingLabels_of_marked hmarks htargets]
  refine fulfils_ofResult ((fulfils_assemble range count pieces).imp fun e _ he lab hlab => ?_)
  exact he.2 lab ((Piece.Stands.mem_iff hpieces lab).mpr hlab) (hmarks lab hlab)

end Code
end ClassWeave
