import ClassWeave.Model.Read
import ClassWeave.Proofs.ClassCodec
import ClassWeave.Proofs.Room
import ClassWeave.Proofs.WritingSteps

/-!
# What edits of a class leave valid

Attributes that are never taken apart refer to constants and bootstrap methods by their places. They
stay valid across every edit of a class that was read, since an edit does not touch what the class
file brought along, and writing adds behind it only.
-/

namespace ClassWeave

/-! ## What reading brings along -/

/-- The bootstrap methods of a class file: those of the last attribute that holds some. -/
def ClassFile.HoldsTable (file : ClassFile) (table : List BootstrapMethod) : Prop :=
  (table = [] ∧ ∀ a ∈ file.attributes, ¬ a.Named file.pool BootstrapMethod.tableName) ∨
    ∃ before a after, file.attributes = before ++ a :: after ∧
      a.Named file.pool BootstrapMethod.tableName ∧
      ClassError.reading BootstrapMethod.tableReader a.info = .ok table ∧
      ∀ b ∈ after, ¬ b.Named file.pool BootstrapMethod.tableName

/-- The pool of a class that was read is a reachable one. -/
theorem ClassFile.reachable_of_parse {bytes : List UInt8} {file : ClassFile}
    (h : ClassFile.parse bytes = .ok file) : file.pool.Reachable := by
  have hread : ∃ rest, ClassFile.reader bytes = .ok (file, rest) := by
    unfold ClassFile.parse Reader.runOn at h
    split at h
    · cases h
    · rename_i found hfound
      obtain rfl := Except.ok.inj h
      exact ⟨_, hfound⟩
    · cases h
  obtain ⟨rest, hread⟩ := hread
  obtain ⟨⟨header, bs⟩, -, hread⟩ := bind_eq_ok.mp hread
  simp only at hread
  split at hread
  · cases hread
  obtain ⟨⟨version, bs⟩, -, hread⟩ := bind_eq_ok.mp hread
  obtain ⟨⟨pool, bs⟩, hpool, hread⟩ := bind_eq_ok.mp hread
  obtain ⟨⟨access, bs⟩, -, hread⟩ := bind_eq_ok.mp hread
  obtain ⟨⟨this, bs⟩, -, hread⟩ := bind_eq_ok.mp hread
  obtain ⟨⟨super, bs⟩, -, hread⟩ := bind_eq_ok.mp hread
  obtain ⟨⟨interfaces, bs⟩, -, hread⟩ := bind_eq_ok.mp hread
  obtain ⟨⟨fields, bs⟩, -, hread⟩ := bind_eq_ok.mp hread
  obtain ⟨⟨methods, bs⟩, -, hread⟩ := bind_eq_ok.mp hread
  obtain ⟨⟨attributes, bs⟩, -, hread⟩ := bind_eq_ok.mp hread
  obtain ⟨rfl, -⟩ := Prod.mk.inj (Except.ok.inj hread)
  exact Pool.reachable_of_reader hpool

namespace ClassModel

variable {original file : ClassFile} {c edited : ClassModel} {h : Hierarchy} {pool : Pool}

/-- The bootstrap methods that were found are those of the last attribute that holds some. -/
theorem holds_of_sortAttributesOnto {found table : List BootstrapMethod}
    {kept raw attributes : List Attribute}
    (hsort : sortAttributesOnto pool found kept attributes = .ok (table, raw)) :
    (table = found ∧ ∀ a ∈ attributes, ¬ a.Named pool BootstrapMethod.tableName) ∨
      ∃ before a after, attributes = before ++ a :: after ∧
        a.Named pool BootstrapMethod.tableName ∧
        ClassError.reading BootstrapMethod.tableReader a.info = .ok table ∧
        ∀ b ∈ after, ¬ b.Named pool BootstrapMethod.tableName := by
  induction attributes generalizing found kept with
  | nil =>
    obtain ⟨rfl, -⟩ := Prod.mk.inj (Except.ok.inj hsort)
    exact .inl ⟨rfl, fun a ha => absurd ha List.not_mem_nil⟩
  | cons a attributes ih =>
    obtain ⟨name, hname, hsort⟩ := bind_eq_ok.mp hsort
    by_cases htable : name = BootstrapMethod.tableName
    · subst htable
      rw [if_pos rfl] at hsort
      obtain ⟨read, hread, hsort⟩ := bind_eq_ok.mp hsort
      rcases ih hsort with ⟨rfl, hnone⟩ | ⟨before, b, after, rfl, hb⟩
      · exact .inr ⟨[], a, attributes, rfl, hname, hread, hnone⟩
      · exact .inr ⟨a :: before, b, after, rfl, hb⟩
    · rw [if_neg htable] at hsort
      rcases ih hsort with ⟨rfl, hnone⟩ | ⟨before, b, after, rfl, hb⟩
      · refine .inl ⟨rfl, fun b hb hnamed => ?_⟩
        rcases List.mem_cons.mp hb with rfl | hb
        · exact htable (Except.ok.inj (hname.symm.trans hnamed))
        · exact hnone b hb hnamed
      · exact .inr ⟨a :: before, b, after, rfl, hb⟩

/-- A class that was read holds the constants and the bootstrap methods of its class file. -/
theorem links_of_ofClassFile (hc : ofClassFile original = .ok c) :
    c.links.pool = original.pool ∧ original.HoldsTable c.links.bootstraps.toList := by
  obtain ⟨name, -, hc⟩ := bind_eq_ok.mp hc
  obtain ⟨super, -, hc⟩ := bind_eq_ok.mp hc
  obtain ⟨interfaces, -, hc⟩ := bind_eq_ok.mp hc
  obtain ⟨⟨table, raw⟩, hsort, hc⟩ := bind_eq_ok.mp hc
  obtain ⟨fields, -, hc⟩ := bind_eq_ok.mp hc
  obtain ⟨methods, -, hc⟩ := bind_eq_ok.mp hc
  obtain rfl := Except.ok.inj hc
  refine ⟨rfl, ?_⟩
  show original.HoldsTable table.toArray.toList
  rw [List.toList_toArray]
  exact holds_of_sortAttributesOnto hsort

/-! ## What is written -/

/-- The code of a method is stored together with the raw attributes of the code. -/
def StoresCode (pool : Pool) (as : List Attribute) : Option MethodBody → Prop
  | none => as = []
  | some body => ∃ (stored : Attribute) (code : CodeAttribute) (own : List Attribute),
      as = [stored] ∧ stored.Named pool CodeAttribute.name ∧ stored.info = code.encode ∧ code.attributes = own ++ body.attributes

/-- Every raw attribute of a class is stored as it is, under the same name index. The bootstrap
methods of the class file are those given. -/
structure StoresRaw (c : ClassModel) (table : List BootstrapMethod) (file : ClassFile) :
    Prop where
  attributes : ∃ own, file.attributes = c.attributes ++ own ∧ (table = [] ∧ own = [] ∨
    ∃ stored, own = [stored] ∧ stored.Named file.pool BootstrapMethod.tableName ∧
      stored.info = BootstrapMethod.encodeTable table)
  fields : List.Forall₂ (fun f info => info.attributes = f.attributes) c.fields file.fields
  methods : List.Forall₂ (fun m info => ∃ code, info.attributes = code ++ m.attributes ∧
    StoresCode file.pool code m.body) c.methods file.methods

theorem storesCode_of_at {ctx : WriteContext} {s : Links} {as : List Attribute}
    {body : Option MethodBody} (hbody : MethodBody.At ctx s as body) :
    StoresCode s.pool as body := by
  cases body with
  | none => exact hbody
  | some body =>
    obtain ⟨stored, code, has, hnamed, hinfo, a, l, a', e, slots, entries, hw⟩ := hbody
    obtain ⟨lines, frames, hattributes, -, -⟩ := hw.attributes
    exact ⟨stored, code, lines ++ frames, has, hnamed, hinfo, hattributes⟩

theorem Written.storesRaw {s : Links} {raw : ClassFile} (hw : c.Written h s raw) :
    c.StoresRaw s.bootstraps.toList { raw with pool := s.pool } where
  attributes := hw.attributes
  fields := hw.fields.imp fun _ _ hf => hf.attributes
  methods := hw.methods.imp fun _ _ hm => by
    obtain ⟨code, hattributes, hcode⟩ := hm.attributes
    exact ⟨code, hattributes, storesCode_of_at hcode⟩

/-- **Raw attributes stay valid across every edit.** Whatever is done to a class that was read, as
long as it is written with the constants and bootstrap methods that it came with: every index that
stood for a constant in the class file still stands for it, the bootstrap methods of the class file
come first among those written, and every raw attribute that the class still has is stored as it
is. -/
theorem edited_keeps_raw {bytes : List UInt8} (hread : parse bytes = .ok c)
    (hedit : edited.links = c.links) (hwrite : edited.toClassFile h = .ok file) :
    ∃ original table added, ClassFile.parse bytes = .ok original ∧ original.HoldsTable table ∧
      (∀ i k, original.pool.get i = .ok k → file.pool.get i = .ok k) ∧
      edited.StoresRaw (table ++ added) file := by
  obtain ⟨original, hparse, hc⟩ := bind_eq_ok.mp hread
  obtain ⟨hpool, htable⟩ := links_of_ofClassFile hc
  have hreached : edited.links.pool.Reachable := by
    rw [hedit, hpool]
    exact ClassFile.reachable_of_parse hparse
  obtain ⟨raw, s, hrun, rfl⟩ := toClassFile_eq_ok hwrite
  obtain ⟨hextends, hwritten⟩ := gives_write edited.links raw s hreached hrun
  rw [hedit] at hextends
  obtain ⟨added, hadded⟩ := hextends.bootstraps
  refine ⟨original, c.links.bootstraps.toList, added, hparse, htable, fun i k hget => ?_, ?_⟩
  · rw [← hpool] at hget
    exact hextends.pool.get hget
  · rw [hadded]
    exact hwritten.storesRaw

/-! ## A class under another name -/

/-- The constants of a class with an attribute of its own. -/
def notedPool : Pool :=
  (((Pool.empty.add (.utf8 "Old")).2.add (.classInfo 1)).2.add (.utf8 "Note")).2

/-- A class with an attribute that is never taken apart. -/
def noted : ClassFile := ⟨.java8, notedPool, Access.publicSuper, 2, 0, [], [], [], [⟨3, [1, 2]⟩]⟩

/-- The class as a tree. -/
def notedClass : ClassModel :=
  ⟨.java8, Access.publicSuper, "Old", none, [], [], [], [⟨3, [1, 2]⟩], ⟨notedPool, #[]⟩⟩

theorem reachable_notedPool : notedPool.Reachable := by
  have hold := Pool.Extends.refl.push (p := .empty) (c := .utf8 "Old") (i := 1) rfl
  have hclass := hold.push (c := .classInfo 1) (i := 2) rfl
  exact hclass.push (c := .utf8 "Note") (i := 3) rfl

theorem fits_noted : noted.Fits where
  pool := by
    intro c hc
    have hvalues : notedPool.constants.values = [.utf8 "Old", .classInfo 1, .utf8 "Note"] := rfl
    rw [show noted.pool = notedPool from rfl, hvalues] at hc
    simp only [List.mem_cons, List.not_mem_nil, or_false] at hc
    rcases hc with rfl | rfl | rfl
    · show (ModifiedUtf8.encode "Old").length ≤ 65535
      decide +kernel
    · trivial
    · show (ModifiedUtf8.encode "Note").length ≤ 65535
      decide +kernel
  interfaces := by decide
  fields := by decide
  fieldAttributes := fun m hm => absurd hm List.not_mem_nil
  methods := by decide
  methodAttributes := fun m hm => absurd hm List.not_mem_nil
  attributes := ⟨by decide, fun a ha => by
    rw [List.mem_singleton.mp ha]
    show [1, 2].length < 2 ^ 32
    decide⟩

theorem parse_noted : parse noted.encode = .ok notedClass := by
  have hparse : ClassFile.parse noted.encode = .ok noted :=
    noted.parse_encode reachable_notedPool fits_noted
  have hc : ofClassFile noted = .ok notedClass := rfl
  exact bind_eq_ok.mpr ⟨noted, hparse, hc⟩

/-- Under another name the class still has its attribute, and the name of that is where it was. -/
theorem renamed_keeps_raw : ∃ file,
    ({ notedClass with name := "New" } : ClassModel).toClassFile .unknown = .ok file ∧
      ∃ original table added, ClassFile.parse noted.encode = .ok original ∧
        original.HoldsTable table ∧
        (∀ i k, original.pool.get i = .ok k → file.pool.get i = .ok k) ∧
        ({ notedClass with name := "New" } : ClassModel).StoresRaw (table ++ added) file := by
  have hmethods : Needs (([] : List MethodModel).mapM
      (({ notedClass with name := "New" } : ClassModel).writeMethod .unknown)) 0 fun infos =>
        infos.length ≤ 65535 ∧ ∀ info ∈ infos, Attribute.AllFit info.attributes :=
    .of_run (a := []) (fun _ => rfl) ⟨Nat.zero_le _, fun _ hm => absurd hm List.not_mem_nil⟩
  have hlinks : notedClass.links.Fits :=
    ⟨fits_noted.pool, ⟨Nat.zero_le _, fun _ hb => absurd hb List.not_mem_nil⟩, by decide⟩
  obtain ⟨file, hfile, -, -⟩ := toClassFile_of_needs
    (needs_write (by decide +kernel) rfl rfl rfl (by decide) fits_noted.attributes.each hmethods)
    hlinks (by decide)
  exact ⟨file, hfile, edited_keeps_raw parse_noted rfl hfile⟩

end ClassModel
end ClassWeave
