import ClassWeave.Model.Write
import ClassWeave.Proofs.ClassCodec
import ClassWeave.Proofs.Writing

/-!
# Room for constants

Asking for constants fails only if the pool has no place left for them. `Needs x n P` says that a
computation succeeds wherever `n` places are left, takes up no more than these, and gives a value
with a property. A constant that is there already takes up none, so `n` is a bound and no exact
count. Only states are looked at in which everything can be written, and the computation leads to
such states.
-/

namespace ClassWeave

/-- States in which places are taken, by things that can be written. -/
class Filling (σ : Type) where
  taken : σ → Nat
  Fits : σ → Prop

instance : Filling Pool := ⟨Pool.count, Pool.Fits⟩

/-- The constants and the bootstrap methods can be written. -/
structure Links.Fits (s : Links) : Prop where
  pool : s.pool.Fits
  bootstraps : BootstrapMethod.AllFit s.bootstraps.toList
  table : (BootstrapMethod.encodeTable s.bootstraps.toList).length < 2 ^ 32

instance : Filling Links := ⟨fun s => s.pool.count, Links.Fits⟩

/-- The computation succeeds with `n` places, and what it gives has a property. -/
def Needs {σ α : Type} [Filling σ] (x : Growing σ α) (n : Nat) (P : α → Prop) : Prop :=
  ∀ s, Filling.Fits s → Filling.taken s + n ≤ 65535 →
    ∃ a t, x.run.run s = (.ok a, t) ∧ Filling.Fits t ∧ Filling.taken t ≤ Filling.taken s + n ∧ P a

namespace Needs

variable {σ α β : Type} [Filling σ] {P : α → Prop} {Q : β → Prop} {n k : Nat}

/-- What leaves the state as it is needs no place. -/
theorem of_run {x : Growing σ α} {a : α} (h : ∀ s, x.run.run s = (.ok a, s)) (ha : P a) :
    Needs x 0 P :=
  fun s hs _ => ⟨a, s, h s, hs, Nat.le_refl _, ha⟩

theorem pure {a : α} (ha : P a) : Needs (Pure.pure a : Growing σ α) 0 P := of_run (fun _ => rfl) ha

theorem bind {x : Growing σ α} {f : α → Growing σ β} (hx : Needs x n P)
    (hf : ∀ a, P a → Needs (f a) k Q) : Needs (x >>= f) (n + k) Q := by
  intro s hs hroom
  obtain ⟨a, t, hrun, ht, hle, ha⟩ := hx s hs (by omega)
  obtain ⟨b, u, hrun', hu, hle', hb⟩ := hf a ha t ht (by omega)
  exact ⟨b, u, Growing.run_bind.mpr ⟨a, t, hrun, hrun'⟩, hu, by omega, hb⟩

end Needs

/-! ## Constants -/

namespace Interning

variable {α : Type} {P : α → Prop} {n : Nat}

theorem needs_intern {c : Constant} (hc : c.Fits) : Needs (intern c) c.slots fun _ => True := by
  intro p hp hroom
  simp only [intern, ExceptT.run, ExceptT.mk, StateT.run]
  cases p.index[c]? with
  | some i => exact ⟨i, p, rfl, hp, Nat.le_add_right _ _, trivial⟩
  | none =>
    have hpush : p.push c = .ok (p.add c) := if_pos (show p.hasRoom c from decide_eq_true hroom)
    have hvalues := Pool.values_push hpush
    have hfits : (p.add c).2.Fits := by
      intro d hd
      rcases List.mem_append.mp (hvalues ▸ hd) with hd | hd
      · exact hp d hd
      · rwa [List.mem_singleton.mp hd]
    rw [if_pos (show p.hasRoom c from decide_eq_true hroom)]
    exact ⟨(p.add c).1, (p.add c).2, rfl, hfits, Nat.le_of_eq (Pool.count_push hpush), trivial⟩

theorem needs_utf8 {text : String} (htext : (Constant.utf8 text).Fits) :
    Needs (utf8 text) 1 fun _ => True :=
  needs_intern htext

theorem needs_cls {name : String} (hname : (Constant.utf8 name).Fits) :
    Needs (cls name) 2 fun _ => True :=
  (needs_utf8 hname).bind fun i _ => needs_intern (c := .classInfo i) trivial

end Interning

namespace Linking

variable {α : Type} {P : α → Prop} {n : Nat}

theorem needs_ofInterning {x : Interning α} (hx : Needs x n P) : Needs (ofInterning x) n P := by
  intro s hs hroom
  obtain ⟨a, p, hrun, hp, hle, ha⟩ := hx s.pool hs.pool hroom
  have hon : x.on s.pool = (.ok a, p) := hrun
  refine ⟨a, ⟨p, s.bootstraps⟩, ?_, ⟨hp, hs.bootstraps, hs.table⟩, hle, ha⟩
  show ((x.on s.pool).1, (⟨(x.on s.pool).2, s.bootstraps⟩ : Links)) = _
  rw [hon]

theorem needs_attribute {name : String} (bytes : List UInt8) (hname : (Constant.utf8 name).Fits) :
    Needs (WriteContext.namedAttribute name (.ok bytes)) 1 fun a => a.info = bytes := by
  have hneeds : Needs (Interning.attribute name (.ok bytes)) 1 fun a => a.info = bytes :=
    (Interning.needs_utf8 hname).bind fun i _ =>
      Needs.pure (σ := Pool) (P := fun a : Attribute => a.info = bytes) (a := ⟨i, bytes⟩) rfl
  exact needs_ofInterning hneeds

end Linking

theorem Attribute.length_encode (a : Attribute) : a.encode.length = 6 + a.info.length := by
  have hname : (Bytes.u16 a.name).length = 2 := rfl
  have hcount : (Bytes.u32 (UInt32.ofNat a.info.length)).length = 4 := rfl
  simp only [encode, Bytes.longBlock, List.length_append, hname, hcount]
  omega

theorem LineEntry.length_encodeTable (lines : List LineEntry) :
    (encodeTable lines).length = 2 + 4 * lines.length := by
  have hentries : (lines.flatMap encode).length = 4 * lines.length :=
    Code.length_flatMap_const fun _ => rfl
  rw [encodeTable, Bytes.counted, List.length_append, hentries]
  rfl

namespace WriteContext

variable {ctx : WriteContext} {body : MethodBody} {l : InstrList} {a : Analysis} {e : Code.Encoded}

theorem needs_sized {n : Nat} {error : Nat → ClassError} (hn : n ≤ 65535) :
    Needs (sized n error) 0 fun _ => True := by
  unfold sized
  rw [if_pos hn]
  exact .pure trivial

theorem needs_lineTable (lines : List LineEntry) :
    Needs (lineTable lines) 1 fun as =>
      (as.flatMap Attribute.encode).length ≤ 8 + 4 * lines.length := by
  unfold lineTable
  by_cases hempty : lines.isEmpty
  · rw [if_pos hempty]
    exact fun s hs _ => ⟨[], s, rfl, hs, Nat.le_add_right _ _, Nat.zero_le _⟩
  · rw [if_neg hempty]
    refine (Linking.needs_attribute _ (by decide +kernel)).bind fun a ha => .pure ?_
    rw [List.flatMap_singleton, Attribute.length_encode, ha, LineEntry.length_encodeTable]
    omega

/-- Code that needs neither constants nor handlers nor frames takes a name for its lines. -/
theorem needs_code (hprune : ∀ s, (ctx.prune body.list).run.run s = (.ok (l, a), s))
    (hencode : ∀ s, (Code.encode l.nodes.toList l.labelCount).run.run s = (.ok e, s))
    (hblocks : l.blocks = []) (hpoints : framePoints l e [] = .ok [])
    (hstack : a.maxStack ≤ 65535) (hlocals : a.maxLocals ≤ 65535)
    (hattributes : body.attributes = []) :
    Needs (ctx.code body) 1 fun code =>
      code.encode.length ≤ 20 + e.bytes.length + 4 * e.lines.length := by
  have hentries : Needs (l.blocks.mapM fun b => do return (← handlerEntry e b, b.handler)) 0
      fun entries => entries = [] := by
    rw [hblocks]
    exact .of_run (fun _ => rfl) rfl
  have hframes : Needs (ctx.stackMap l a e []) 0 fun frames => frames = [] := by
    refine .of_run (a := []) (fun s => ?_) rfl
    refine Growing.run_bind.mpr ⟨[], s, by rw [hpoints]; rfl, ?_⟩
    refine Growing.run_bind.mpr ⟨∅, s, rfl, ?_⟩
    rw [if_pos Std.HashMap.isEmpty_empty]
    rfl
  have hcode : ∀ {maxStack maxLocals : UInt16} {lines : List Attribute},
      (lines.flatMap Attribute.encode).length ≤ 8 + 4 * e.lines.length →
      (CodeAttribute.encode ⟨maxStack, maxLocals, e.bytes, [], lines ++ [] ++ body.attributes⟩).length
        ≤ 20 + e.bytes.length + 4 * e.lines.length := by
    intro maxStack maxLocals lines hlines
    have hfixed : ∀ n : UInt16, (Bytes.u16 n).length = 2 := fun _ => rfl
    have hcount : ∀ n : UInt32, (Bytes.u32 n).length = 4 := fun _ => rfl
    rw [hattributes, List.append_nil, List.append_nil]
    simp only [CodeAttribute.encode, Bytes.longBlock, Bytes.counted, List.length_append, hfixed,
      hcount, List.flatMap_nil, List.length_nil]
    omega
  have hneeds : Needs (ctx.code body) (0 + (0 + (0 + (0 + (0 + (1 + (0 + 0)))))))
      fun code => code.encode.length ≤ 20 + e.bytes.length + 4 * e.lines.length := by
    refine Needs.bind (P := fun r => r = (l, a)) (.of_run hprune rfl) ?_
    rintro _ rfl
    refine Needs.bind (P := fun r => r = e) (.of_run hencode rfl) ?_
    rintro _ rfl
    refine hentries.bind ?_
    rintro _ rfl
    refine (needs_sized hstack).bind fun _ _ => (needs_sized hlocals).bind fun _ _ => ?_
    refine (needs_lineTable _).bind fun lines hlines => ?_
    cases ctx.hasStackMaps with
    | true =>
      refine hframes.bind (k := 0) ?_
      rintro _ rfl
      exact .pure (hcode hlines)
    | false => exact .of_run (fun _ => rfl) (hcode hlines)
  exact hneeds

end WriteContext

namespace ClassModel

variable {c : ClassModel} {h : Hierarchy} {n : Nat}

theorem needs_bootstrapTable :
    Needs bootstrapTable 1 fun as => as.length ≤ 1 ∧ ∀ a ∈ as, a.Fits := by
  intro s hs hroom
  by_cases hempty : s.bootstraps.isEmpty
  · refine ⟨[], s, Growing.run_bind.mpr ⟨s, s, rfl, ?_⟩, hs, Nat.le_add_right _ _, Nat.zero_le _,
      fun a ha => absurd ha List.not_mem_nil⟩
    simp only [hempty, if_true]
    rfl
  · have hname : (Constant.utf8 BootstrapMethod.tableName).Fits := by decide +kernel
    obtain ⟨stored, t, hstored, hfits, ht, hinfo⟩ :=
      Linking.needs_attribute (BootstrapMethod.encodeTable s.bootstraps.toList) hname s hs hroom
    refine ⟨[stored], t, Growing.run_bind.mpr ⟨s, s, rfl, ?_⟩, hfits, ht, Nat.le_refl _,
      fun a ha => ?_⟩
    · simp only [hempty, if_false, Bool.false_eq_true]
      exact Growing.run_bind.mpr ⟨stored, t, hstored, rfl⟩
    · rw [List.mem_singleton.mp ha, Attribute.Fits, hinfo]
      exact hs.table

/-- A method needs a name, a descriptor and what its code needs. -/
theorem needs_writeMethod {m : MethodModel} {body : MethodBody} {size : Nat}
    (hbody : m.body = some body) (hattributes : m.attributes = [])
    (hname : (Constant.utf8 m.name).Fits) (hdescriptor : (Constant.utf8 m.descriptor).Fits)
    (hsize : size < 2 ^ 32)
    (hcode : Needs ((c.writeContext h m).code body) n fun code => code.encode.length ≤ size) :
    Needs (c.writeMethod h m) (n + 3) fun info => Attribute.AllFit info.attributes := by
  have hneeds : Needs (c.writeMethod h m) (1 + (1 + (n + (1 + 0))))
      fun info => Attribute.AllFit info.attributes := by
    unfold writeMethod
    rw [hbody, hattributes]
    refine (Linking.needs_ofInterning (Interning.needs_utf8 hname)).bind fun _ _ => ?_
    refine (Linking.needs_ofInterning (Interning.needs_utf8 hdescriptor)).bind fun _ _ => ?_
    refine hcode.bind fun code hlength => ?_
    refine (Linking.needs_attribute _ (by decide +kernel)).bind fun stored hinfo => .pure ?_
    refine ⟨show 1 ≤ 65535 by omega, fun a ha => ?_⟩
    rw [List.mem_singleton.mp ha, Attribute.Fits, hinfo]
    exact Nat.lt_of_le_of_lt hlength hsize
  have hsum : 1 + (1 + (n + (1 + 0))) = n + 3 := by omega
  rwa [hsum] at hneeds

/-- A class without a super class, interfaces and fields can be written if its methods can. -/
theorem needs_write (hname : (Constant.utf8 c.name).Fits) (hsuper : c.super = none)
    (hinterfaces : c.interfaces = []) (hfields : c.fields = [])
    (hattributes : c.attributes.length + 1 ≤ 65535) (hraw : ∀ a ∈ c.attributes, a.Fits)
    (hmethods : Needs (c.methods.mapM (c.writeMethod h)) n fun infos =>
      infos.length ≤ 65535 ∧ ∀ info ∈ infos, Attribute.AllFit info.attributes) :
    Needs (c.write h) (n + 3) ClassFile.Fits := by
  have hnone : Needs (Linking.optionalClass none) 0 fun _ => True := .of_run (fun _ => rfl) trivial
  have hempty : Needs (Linking.ofInterning (([] : List String).mapM Interning.cls)) 0
      fun is => is = [] := .of_run (fun _ => rfl) rfl
  have hempty' : Needs (([] : List FieldModel).mapM writeField) 0 fun infos => infos = [] :=
    .of_run (fun _ => rfl) rfl
  have hneeds : Needs (c.write h) (2 + (0 + (0 + (0 + (n + (1 + 0)))))) ClassFile.Fits := by
    unfold write
    rw [hsuper, hinterfaces, hfields]
    refine (Linking.needs_ofInterning (Interning.needs_cls hname)).bind fun _ _ => ?_
    refine hnone.bind fun _ _ => hempty.bind ?_
    rintro _ rfl
    refine hempty'.bind ?_
    rintro _ rfl
    refine hmethods.bind fun infos hinfos => needs_bootstrapTable.bind fun table htable => .pure ?_
    have hall : Attribute.AllFit (c.attributes ++ table) := by
      refine ⟨?_, List.forall_mem_append.mpr ⟨hraw, htable.2⟩⟩
      have := htable.1
      rw [List.length_append]
      omega
    exact
      { pool := fun _ hc => absurd hc List.not_mem_nil
        interfaces := Nat.zero_le _
        fields := Nat.zero_le _
        fieldAttributes := fun _ hm => absurd hm List.not_mem_nil
        methods := hinfos.1
        methodAttributes := hinfos.2
        attributes := hall }
  have hsum : 2 + (0 + (0 + (0 + (n + (1 + 0))))) = n + 3 := by omega
  rwa [hsum] at hneeds

/-- The constants and bootstrap methods that there are once a class was written. -/
def linksAfter (c : ClassModel) (h : Hierarchy) : Links := ((c.write h).on c.links).2

/-- A class that needs no more places than there are is written, and what is written fits. -/
theorem toClassFile_of_needs (hneeds : Needs (c.write h) n ClassFile.Fits)
    (hlinks : c.links.Fits) (hroom : c.links.pool.count + n ≤ 65535) :
    ∃ file, c.toClassFile h = .ok file ∧ file.Fits ∧ (c.linksAfter h).Fits := by
  obtain ⟨file, s, hrun, hs, -, hfile⟩ := hneeds c.links hlinks hroom
  have hon : (c.write h).on c.links = (.ok file, s) := hrun
  refine ⟨{ file with pool := s.pool }, ?_, { hfile with pool := hs.pool }, ?_⟩
  · rw [toClassFile, hon]
  · rwa [linksAfter, hon]

/-- How a class file comes about. -/
theorem toClassFile_eq_ok {file : ClassFile} (hfile : c.toClassFile h = .ok file) :
    ∃ raw s, (c.write h).run.run c.links = (.ok raw, s) ∧ file = { raw with pool := s.pool } := by
  unfold toClassFile at hfile
  split at hfile
  · rename_i raw s hon
    exact ⟨raw, s, hon, (Except.ok.inj hfile).symm⟩
  · cases hfile

end ClassModel
end ClassWeave
