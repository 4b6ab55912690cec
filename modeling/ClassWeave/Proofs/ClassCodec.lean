import ClassWeave.ClassFile.Basic
import ClassWeave.Proofs.PoolCodec

/-!
# Class files that are written and read back

Everything in a class file is read back as it was written, as long as every list and every block of
bytes is as long as the number in front of it can tell. Only access flags without a meaning
get lost on the way.
-/

namespace ClassWeave

open Reader

/-! ## Attributes -/

/-- The number of bytes fits into the four bytes in front of them. -/
def Attribute.Fits (a : Attribute) : Prop := a.info.length < 2 ^ 32

theorem Attribute.reads (a : Attribute) (hfits : a.Fits) : reader.Reads a.encode a := by
  refine (reads_u16 a.name).bind ((reads_u32 _).bind ?_)
  rw [toNat_ofNat_u32 hfits]
  exact (reads_bytes rfl).map (Attribute.mk a.name)

/-- A list of attributes can be written. -/
structure Attribute.AllFit (as : List Attribute) : Prop where
  count : as.length ≤ 65535
  each : ∀ a ∈ as, a.Fits

theorem Attribute.AllFit.reads {as : List Attribute} (h : AllFit as) :
    (counted reader).Reads (Bytes.counted encode as) as :=
  reads_counted h.count fun a ha => a.reads (h.each a ha)

theorem HandlerEntry.reads (h : HandlerEntry) : reader.Reads h.encode h := by
  have hread : reader.Reads (Bytes.u16 h.start ++ (Bytes.u16 h.stop ++ (Bytes.u16 h.handler ++
      Bytes.u16 h.catchType))) h :=
    (reads_u16 h.start).bind ((reads_u16 h.stop).bind ((reads_u16 h.handler).bind
      ((reads_u16 h.catchType).map (HandlerEntry.mk h.start h.stop h.handler))))
  simpa only [encode, List.append_assoc] using hread

theorem LineEntry.reads (l : LineEntry) : reader.Reads l.encode l :=
  (reads_u16 l.start).bind ((reads_u16 l.line).map (LineEntry.mk l.start))

theorem LineEntry.reads_table {table : List LineEntry} (h : table.length ≤ 65535) :
    tableReader.Reads (encodeTable table) table :=
  reads_counted h fun l _ => l.reads

/-- The number of arguments fits into the two bytes in front of them. -/
def BootstrapMethod.Fits (b : BootstrapMethod) : Prop := b.arguments.length ≤ 65535

theorem BootstrapMethod.reads (b : BootstrapMethod) (hfits : b.Fits) : reader.Reads b.encode b :=
  (reads_u16 b.handle).bind
    ((reads_counted hfits fun i _ => reads_u16 i).map (BootstrapMethod.mk b.handle))

/-- A table of bootstrap methods can be written. -/
structure BootstrapMethod.AllFit (table : List BootstrapMethod) : Prop where
  count : table.length ≤ 65535
  each : ∀ b ∈ table, b.Fits

theorem BootstrapMethod.AllFit.reads {table : List BootstrapMethod} (h : AllFit table) :
    tableReader.Reads (encodeTable table) table :=
  reads_counted h.count fun b hb => b.reads (h.each b hb)

namespace CodeAttribute

/-- Some code can be written. -/
structure Fits (c : CodeAttribute) : Prop where
  nonempty : c.code ≠ []
  code : c.code.length ≤ 65535
  handlers : c.handlers.length ≤ 65535
  attributes : Attribute.AllFit c.attributes

theorem reads_bytecode {bs : List UInt8} (hne : bs ≠ []) (hlength : bs.length ≤ 65535) :
    bytecodeReader.Reads (Bytes.longBlock bs) bs := by
  have hcount : (UInt32.ofNat bs.length).toNat = bs.length := toNat_ofNat_u32 (by omega)
  refine (reads_u32 _).bind ?_
  have hpos : 0 < bs.length := List.length_pos_of_ne_nil hne
  have hgood : ¬ (UInt32.ofNat bs.length = 0 ∨ 65535 < UInt32.ofNat bs.length) := by
    rintro (h | h)
    · have hzero := congrArg UInt32.toNat h
      rw [hcount] at hzero
      exact absurd hzero (Nat.ne_of_gt hpos)
    · rw [UInt32.lt_iff_toNat_lt, hcount] at h
      exact absurd h (Nat.not_lt.mpr hlength)
  rw [if_neg hgood, hcount]
  exact reads_bytes rfl

theorem reads (c : CodeAttribute) (hfits : c.Fits) : reader.Reads c.encode c := by
  have hread : reader.Reads (Bytes.u16 c.maxStack ++ (Bytes.u16 c.maxLocals ++
      (Bytes.longBlock c.code ++ (Bytes.counted HandlerEntry.encode c.handlers ++
        Bytes.counted Attribute.encode c.attributes)))) c :=
    (reads_u16 c.maxStack).bind ((reads_u16 c.maxLocals).bind
      ((reads_bytecode hfits.nonempty hfits.code).bind
        ((reads_counted hfits.handlers fun h _ => h.reads).bind
          (hfits.attributes.reads.map
            (CodeAttribute.mk c.maxStack c.maxLocals c.code c.handlers)))))
  simpa only [encode, List.append_assoc] using hread

end CodeAttribute

/-! ## Classes -/

/-- A member whose flags are cut down. -/
def MemberInfo.masked (access : UInt16 → UInt16) (m : MemberInfo) : MemberInfo :=
  { m with access := access m.access }

theorem MemberInfo.reads {access : UInt16 → UInt16} (m : MemberInfo)
    (hfits : Attribute.AllFit m.attributes) : (reader access).Reads m.encode (m.masked access) := by
  have hread : (reader access).Reads (Bytes.u16 m.access ++ (Bytes.u16 m.name ++
      (Bytes.u16 m.descriptor ++ Bytes.counted Attribute.encode m.attributes)))
      (m.masked access) :=
    (reads_u16 m.access).bind ((reads_u16 m.name).bind ((reads_u16 m.descriptor).bind
      (hfits.reads.map (MemberInfo.mk (access m.access) m.name m.descriptor))))
  simpa only [encode, List.append_assoc] using hread

theorem Version.reads (v : Version) : reader.Reads v.encode v :=
  (reads_u16 v.minor).bind ((reads_u16 v.major).map fun major => Version.mk major v.minor)

namespace ClassFile

/-- Everything in the class file is as long as the number in front of it can tell. -/
structure Fits (c : ClassFile) : Prop where
  pool : c.pool.Fits
  interfaces : c.interfaces.length ≤ 65535
  fields : c.fields.length ≤ 65535
  fieldAttributes : ∀ m ∈ c.fields, Attribute.AllFit m.attributes
  methods : c.methods.length ≤ 65535
  methodAttributes : ∀ m ∈ c.methods, Attribute.AllFit m.attributes
  attributes : Attribute.AllFit c.attributes

/-- The class file without access flags that have no meaning. -/
def masked (c : ClassFile) : ClassFile :=
  { c with
    access := Access.ofClass c.access
    fields := c.fields.map (MemberInfo.masked Access.ofField)
    methods := c.methods.map (MemberInfo.masked Access.ofMethod) }

theorem reads (c : ClassFile) (hpool : c.pool.Reachable) (hfits : c.Fits) :
    reader.Reads c.encode c.masked := by
  have hread : reader.Reads (magic ++ (c.version.encode ++ (c.pool.encode ++ (Bytes.u16 c.access ++
      (Bytes.u16 c.this ++ (Bytes.u16 c.super ++ (Bytes.counted Bytes.u16 c.interfaces ++
        (Bytes.counted MemberInfo.encode c.fields ++ (Bytes.counted MemberInfo.encode c.methods ++
          Bytes.counted Attribute.encode c.attributes))))))))) c.masked := by
    have hmagic : (bytes 4).Reads magic magic := reads_bytes rfl
    refine hmagic.bind ?_
    rw [if_neg (by simp)]
    exact c.version.reads.bind ((c.pool.reads hpool hfits.pool).bind ((reads_u16 c.access).bind
      ((reads_u16 c.this).bind ((reads_u16 c.super).bind
        ((reads_counted hfits.interfaces fun i _ => reads_u16 i).bind
          ((reads_counted_map hfits.fields fun m hm => m.reads (hfits.fieldAttributes m hm)).bind
            ((reads_counted_map hfits.methods fun m hm => m.reads (hfits.methodAttributes m hm)).bind
              (hfits.attributes.reads.map fun attributes =>
                ClassFile.mk c.version c.pool (Access.ofClass c.access) c.this c.super c.interfaces
                  (c.fields.map (MemberInfo.masked Access.ofField))
                  (c.methods.map (MemberInfo.masked Access.ofMethod)) attributes))))))))
  simpa only [encode, List.append_assoc] using hread

/-- **A class file is read back.** -/
theorem parse_encode (c : ClassFile) (hpool : c.pool.Reachable) (hfits : c.Fits) :
    parse c.encode = .ok c.masked := by
  unfold parse
  rw [Reader.runOn, (c.reads hpool hfits).eq_ok]

end ClassFile
end ClassWeave
