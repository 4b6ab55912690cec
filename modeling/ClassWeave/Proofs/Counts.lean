import ClassWeave.ClassFile.StackMap
import ClassWeave.Code.Piece
import ClassWeave.Proofs.ClassCodec
import ClassWeave.Proofs.StackMapCodec

/-!
# Numbers in front of what they count

A text, a sequence or a block of bytes stands behind the number of its items. The number has a
field of a fixed width, and writing goes on with the low bits of a number that is too large. A
`Marked` is what is written together with where such numbers stand and what they should say: all
of them are true exactly if everything fits, and nothing else is looked at before a class is
written.
-/

namespace ClassWeave

/-- The number that some bytes stand for, the high one first. -/
def Bytes.value (bytes : List UInt8) : Nat := bytes.foldl (fun n b => 256 * n + b.toNat) 0

theorem Bytes.value_u16 (n : UInt16) : value (u16 n) = n.toNat := by
  have hlt := n.toNat_lt
  simp only [value, u16, List.foldl_cons, List.foldl_nil, UInt16.toNat_toUInt8,
    UInt16.toNat_shiftRight, Nat.shiftRight_eq_div_pow, UInt16.toNat_ofNat, Nat.reducePow,
    Nat.reduceMod]
  omega

theorem Bytes.value_u32 (n : UInt32) : value (u32 n) = n.toNat := by
  have hlt := n.toNat_lt
  have hhigh := value_u16 (n >>> 16).toUInt16
  have hlow := value_u16 n.toUInt16
  have happend : value (u32 n) =
      65536 * value (u16 (n >>> 16).toUInt16) + value (u16 n.toUInt16) := by
    simp only [value, u32, u16, List.cons_append, List.nil_append, List.foldl_cons, List.foldl_nil]
    omega
  rw [happend, hhigh, hlow]
  simp only [UInt32.toNat_toUInt16, UInt32.toNat_shiftRight, Nat.shiftRight_eq_div_pow,
    UInt32.toNat_ofNat, Nat.reducePow, Nat.reduceMod]
  omega

/-- The number of some items, and the field that it is written in. -/
structure Count where
  /-- How many bytes stand in front of the field. -/
  place : Nat
  /-- How many bytes the field has. -/
  width : Nat
  amount : Nat
deriving Repr, DecidableEq

namespace Count

/-- What stands in the field. -/
def field (c : Count) (bytes : List UInt8) : Nat := Bytes.value ((bytes.drop c.place).take c.width)

/-- The field has the number that it should have. -/
def Told (c : Count) (bytes : List UInt8) : Prop := c.field bytes = c.amount

/-- The number fits into its field. -/
def Fits (c : Count) : Prop := c.amount < 256 ^ c.width

/-- The same field behind more bytes. -/
def shift (n : Nat) (c : Count) : Count := { c with place := n + c.place }

theorem field_append_left {c : Count} {bs : List UInt8} (hc : c.place + c.width ≤ bs.length)
    (cs : List UInt8) : c.field (bs ++ cs) = c.field bs := by
  rw [field, List.drop_append_of_le_length (by omega), List.take_append_of_le_length]
  · rfl
  · rw [List.length_drop]
    omega

theorem field_shift (c : Count) (bs cs : List UInt8) :
    (c.shift bs.length).field (bs ++ cs) = c.field cs := by
  show Bytes.value (((bs ++ cs).drop (bs.length + c.place)).take c.width) = _
  rw [List.drop_append, List.drop_eq_nil_of_le (by omega), List.nil_append,
    Nat.add_sub_cancel_left]
  rfl

end Count

/-! ## Bytes and the numbers in them -/

/-- Bytes with the numbers that are written in them, in fields that keep their low bits. -/
structure Marked where
  bytes : List UInt8
  counts : List Count
  inside : ∀ c ∈ counts, c.place + c.width ≤ bytes.length
  written : ∀ c ∈ counts, c.field bytes = c.amount % 256 ^ c.width

namespace Marked

variable {α : Type} {a b m : Marked}

/-- Every number fits into its field. -/
def Fits (m : Marked) : Prop := ∀ c ∈ m.counts, c.Fits

/-- **What is written tells the truth exactly if every number fits.** -/
theorem told_iff (m : Marked) : (∀ c ∈ m.counts, c.Told m.bytes) ↔ m.Fits := by
  refine forall₂_congr fun c hc => ?_
  rw [Count.Told, m.written c hc, Count.Fits]
  exact Nat.mod_eq_iff_lt (by simp)

/-- Bytes without numbers. -/
def plain (bytes : List UInt8) : Marked := ⟨bytes, [], by simp, by simp⟩

/-- A number in one byte. -/
def byte (n : Nat) : Marked where
  bytes := [UInt8.ofNat n]
  counts := [⟨0, 1, n⟩]
  inside := by simp
  written := by simp [Count.field, Bytes.value]

/-- A number in two bytes. -/
def short (n : Nat) : Marked where
  bytes := Bytes.u16 (UInt16.ofNat n)
  counts := [⟨0, 2, n⟩]
  inside := by simp [Bytes.u16]
  written := by
    intro c hc
    rw [List.mem_singleton.mp hc]
    exact (Bytes.value_u16 _).trans UInt16.toNat_ofNat'

/-- A number in four bytes. -/
def long (n : Nat) : Marked where
  bytes := Bytes.u32 (UInt32.ofNat n)
  counts := [⟨0, 4, n⟩]
  inside := by simp [Bytes.u32, Bytes.u16]
  written := by
    intro c hc
    rw [List.mem_singleton.mp hc]
    exact (Bytes.value_u32 _).trans UInt32.toNat_ofNat'

/-- One behind the other. -/
def append (a b : Marked) : Marked where
  bytes := a.bytes ++ b.bytes
  counts := a.counts ++ b.counts.map (Count.shift a.bytes.length)
  inside := by
    intro c hc
    rw [List.length_append]
    rcases List.mem_append.mp hc with hc | hc
    · have := a.inside c hc
      omega
    · obtain ⟨d, hd, rfl⟩ := List.mem_map.mp hc
      have := b.inside d hd
      simp only [Count.shift]
      omega
  written := by
    intro c hc
    rcases List.mem_append.mp hc with hc | hc
    · rw [Count.field_append_left (a.inside c hc), a.written c hc]
    · obtain ⟨d, hd, rfl⟩ := List.mem_map.mp hc
      rw [Count.field_shift, b.written d hd]
      rfl

instance : Append Marked := ⟨append⟩

/-- Items one behind the other. -/
def all (item : α → Marked) : List α → Marked
  | [] => plain []
  | a :: as => item a ++ all item as

/-- Items behind their number, in two bytes. -/
def counted (item : α → Marked) (items : List α) : Marked := short items.length ++ all item items

@[simp] theorem bytes_append (a b : Marked) : (a ++ b).bytes = a.bytes ++ b.bytes := rfl

@[simp] theorem bytes_plain (bs : List UInt8) : (plain bs).bytes = bs := rfl

@[simp] theorem bytes_short (n : Nat) : (short n).bytes = Bytes.u16 (UInt16.ofNat n) := rfl

@[simp] theorem bytes_long (n : Nat) : (long n).bytes = Bytes.u32 (UInt32.ofNat n) := rfl

theorem bytes_all (item : α → Marked) (items : List α) :
    (all item items).bytes = items.flatMap fun a => (item a).bytes := by
  induction items with
  | nil => rfl
  | cons a as ih => rw [all, bytes_append, ih, List.flatMap_cons]

@[simp] theorem bytes_counted (item : α → Marked) (items : List α) :
    (counted item items).bytes = Bytes.counted (fun a => (item a).bytes) items := by
  rw [counted, bytes_append, bytes_all]
  rfl

@[simp] theorem fits_append : (a ++ b).Fits ↔ a.Fits ∧ b.Fits := by
  show (∀ c ∈ a.counts ++ b.counts.map (Count.shift a.bytes.length), c.Fits) ↔ _
  simp only [List.mem_append, or_imp, forall_and, List.forall_mem_map]
  rfl

@[simp] theorem fits_plain (bs : List UInt8) : (plain bs).Fits := by simp [Fits, plain]

@[simp] theorem fits_byte {n : Nat} : (byte n).Fits ↔ n ≤ 255 := by
  simp only [Fits, byte, List.forall_mem_singleton, Count.Fits]
  omega

@[simp] theorem fits_short {n : Nat} : (short n).Fits ↔ n ≤ 65535 := by
  simp only [Fits, short, List.forall_mem_singleton, Count.Fits]
  omega

@[simp] theorem fits_long {n : Nat} : (long n).Fits ↔ n < 2 ^ 32 := by
  simp only [Fits, long, List.forall_mem_singleton, Count.Fits]
  omega

theorem fits_all {item : α → Marked} {items : List α} :
    (all item items).Fits ↔ ∀ a ∈ items, (item a).Fits := by
  induction items with
  | nil => simp [all]
  | cons a as ih => rw [all, fits_append, ih, List.forall_mem_cons]

@[simp] theorem fits_counted {item : α → Marked} {items : List α} :
    (counted item items).Fits ↔ items.length ≤ 65535 ∧ ∀ a ∈ items, (item a).Fits := by
  rw [counted, fits_append, fits_short, fits_all]

end Marked

/-! ## What a class file is made of -/

open Marked

/-- A constant; only a text has a number in front of it. -/
def Constant.marked : Constant → Marked
  | utf8 text =>
    plain [1] ++ short (ModifiedUtf8.encode text).length ++ plain (ModifiedUtf8.encode text)
  | c => plain c.encode

@[simp] theorem Constant.bytes_marked (c : Constant) : c.marked.bytes = c.encode := by
  cases c <;> rfl

@[simp] theorem Constant.fits_marked (c : Constant) : c.marked.Fits ↔ c.Fits := by
  cases c with
  | utf8 => simp [marked, Fits]
  | _ => simp [marked, Fits]

/-- A pool behind its count, which is that of the places in it. -/
def Pool.marked (p : Pool) : Marked :=
  short p.count ++ all Constant.marked p.constants.values

@[simp] theorem Pool.bytes_marked (p : Pool) : p.marked.bytes = p.encode := by
  simp [marked, encode, bytes_all]

@[simp] theorem Pool.fits_marked (p : Pool) : p.marked.Fits ↔ p.count ≤ 65535 ∧ p.Fits := by
  simp [marked, fits_all, Fits]

namespace Attribute

def marked (a : Attribute) : Marked := plain (Bytes.u16 a.name) ++ long a.info.length ++ plain a.info

@[simp] theorem bytes_marked (a : Attribute) : a.marked.bytes = a.encode := by
  simp [marked, encode, Bytes.longBlock]

@[simp] theorem fits_counted_marked (as : List Attribute) :
    (counted marked as).Fits ↔ AllFit as := by
  simp only [fits_counted, marked, fits_append, fits_plain, fits_long, true_and, and_true]
  exact ⟨fun h => ⟨h.1, h.2⟩, fun h => ⟨h.count, h.each⟩⟩

end Attribute

def MemberInfo.marked (m : MemberInfo) : Marked :=
  plain (Bytes.u16 m.access ++ Bytes.u16 m.name ++ Bytes.u16 m.descriptor) ++
    counted Attribute.marked m.attributes

@[simp] theorem MemberInfo.bytes_marked (m : MemberInfo) : m.marked.bytes = m.encode := by
  simp [marked, encode]

@[simp] theorem MemberInfo.fits_marked (m : MemberInfo) :
    m.marked.Fits ↔ Attribute.AllFit m.attributes := by
  simp [marked, -fits_counted]

namespace ClassFile

def marked (c : ClassFile) : Marked :=
  plain (magic ++ c.version.encode) ++ c.pool.marked ++
    plain (Bytes.u16 c.access ++ Bytes.u16 c.this ++ Bytes.u16 c.super) ++
    counted (fun i => plain (Bytes.u16 i)) c.interfaces ++ counted MemberInfo.marked c.fields ++
    counted MemberInfo.marked c.methods ++ counted Attribute.marked c.attributes

@[simp] theorem bytes_marked (c : ClassFile) : c.marked.bytes = c.encode := by
  simp [marked, encode]

theorem fits_marked (c : ClassFile) (hpool : c.pool.Reachable) : c.marked.Fits ↔ c.Fits := by
  simp only [marked, fits_append, fits_plain, Pool.fits_marked, hpool.sound.room, true_and,
    Attribute.fits_counted_marked]
  simp only [fits_counted, fits_plain, MemberInfo.fits_marked, implies_true, and_true]
  constructor
  · rintro ⟨⟨⟨⟨hp, hi⟩, hf, hfa⟩, hm, hma⟩, ha⟩
    exact ⟨hp, hi, hf, hfa, hm, hma, ha⟩
  · intro h
    exact ⟨⟨⟨⟨h.pool, h.interfaces⟩, h.fields, h.fieldAttributes⟩, h.methods, h.methodAttributes⟩,
      h.attributes⟩

end ClassFile

/-! ## What the code of a method is made of -/

namespace CodeAttribute

def marked (c : CodeAttribute) : Marked :=
  plain (Bytes.u16 c.maxStack ++ Bytes.u16 c.maxLocals) ++ long c.code.length ++ plain c.code ++
    counted (fun h => plain h.encode) c.handlers ++ counted Attribute.marked c.attributes

@[simp] theorem bytes_marked (c : CodeAttribute) : c.marked.bytes = c.encode := by
  simp [marked, encode, Bytes.longBlock]

/-- The lists of some code fit into the fields in front of them. -/
def FieldsFit (c : CodeAttribute) : Prop :=
  c.code.length < 2 ^ 32 ∧ c.handlers.length ≤ 65535 ∧ Attribute.AllFit c.attributes

theorem fits_marked (c : CodeAttribute) : c.marked.Fits ↔ c.FieldsFit := by
  simp only [marked, fits_append, fits_plain, fits_long, Attribute.fits_counted_marked, true_and,
    and_true]
  simp [FieldsFit, and_assoc]

end CodeAttribute

def LineEntry.markedTable (table : List LineEntry) : Marked := counted (fun l => plain l.encode) table

def BootstrapMethod.marked (b : BootstrapMethod) : Marked :=
  plain (Bytes.u16 b.handle) ++ counted (fun i => plain (Bytes.u16 i)) b.arguments

def BootstrapMethod.markedTable (table : List BootstrapMethod) : Marked :=
  counted BootstrapMethod.marked table

namespace StackMapFrame

/-- A frame; only a full one has numbers in front of its types. -/
def marked : StackMapFrame → Except FormatError Marked
  | full d locals stack =>
    .ok (plain (255 :: Bytes.u16 d) ++ counted (fun t => plain (RawType.encode t)) locals ++
      counted (fun t => plain (RawType.encode t)) stack)
  | f => plain <$> f.encode

def markedTable (table : List StackMapFrame) : Except FormatError Marked := do
  let frames ← table.mapM marked
  return counted id frames

theorem marked_of_encode {f : StackMapFrame} {bytes : List UInt8} (h : f.encode = .ok bytes) :
    ∃ m, f.marked = .ok m ∧ m.bytes = bytes ∧ (m.Fits ↔ f.Fits) := by
  cases f with
  | full d locals stack =>
    rw [← Except.ok.inj h]
    refine ⟨_, rfl, ?_, ?_⟩
    · simp
    · simp [Fits]
  | same | sameOne | chop | append =>
    refine ⟨plain bytes, map_eq_ok.mpr ⟨bytes, h, rfl⟩, rfl, ?_⟩
    simp [Fits]

theorem marked_of_encodes {table : List StackMapFrame} {parts : List (List UInt8)}
    (h : List.Forall₂ (fun f bytes => encode f = .ok bytes) table parts) :
    ∃ frames, List.Forall₂ (fun f m => marked f = .ok m) table frames ∧
      frames.map Marked.bytes = parts ∧ ((∀ m ∈ frames, m.Fits) ↔ ∀ f ∈ table, f.Fits) := by
  induction h with
  | nil => exact ⟨[], .nil, rfl, by simp⟩
  | cons hf _ ih =>
    obtain ⟨m, hm, hbytes, hfits⟩ := marked_of_encode hf
    obtain ⟨frames, hframes, hparts, hfits'⟩ := ih
    refine ⟨m :: frames, .cons hm hframes, by rw [List.map_cons, hbytes, hparts], ?_⟩
    rw [List.forall_mem_cons, List.forall_mem_cons, hfits, hfits']

theorem markedTable_of_encodeTable {table : List StackMapFrame} {bytes : List UInt8}
    (h : encodeTable table = .ok bytes) :
    ∃ m, markedTable table = .ok m ∧ m.bytes = bytes ∧
      (m.Fits ↔ table.length ≤ 65535 ∧ ∀ f ∈ table, f.Fits) := by
  obtain ⟨parts, hparts, h⟩ := bind_eq_ok.mp h
  obtain ⟨frames, hframes, hbytes, hfits⟩ := marked_of_encodes (mapM_eq_ok.mp hparts)
  refine ⟨counted id frames, bind_eq_ok.mpr ⟨frames, mapM_eq_ok.mpr hframes, rfl⟩, ?_, ?_⟩
  · rw [bytes_counted, Bytes.counted, ← hframes.length_eq, ← pure_eq_ok.mp h, ← hbytes]
    rfl
  · rw [fits_counted, ← hframes.length_eq]
    exact and_congr_right fun _ => hfits

end StackMapFrame

/-! ## Calls of interface methods -/

namespace Code.Piece

/-- A call of an interface method ends in the number of its arguments and a zero. -/
theorem callTail_interface {descriptor : String} {m : MethodType}
    (hm : MethodType.parse descriptor = .ok m) :
    callTail Opcode.invokeinterface descriptor =
      .ok (byte (1 + m.parameterSlots) ++ plain [0]).bytes := by
  rw [callTail, if_pos rfl]
  exact bind_eq_ok.mpr ⟨m, hm, rfl⟩

end Code.Piece

/-! ## Everything that is written -/

/-- **Numbers are written as they are exactly where they fit**: in front of texts, of the items of
a class file and of the lists inside its attributes, and behind calls of interface methods. -/
theorem counts_told_iff (c : ClassFile) (code : CodeAttribute) (lines : List LineEntry)
    (bootstraps : List BootstrapMethod) (frames : List StackMapFrame) (descriptor : String) :
    (c.pool.Reachable → ((∀ n ∈ c.marked.counts, n.Told c.encode) ↔ c.Fits)) ∧
    ((∀ n ∈ code.marked.counts, n.Told code.encode) ↔ code.FieldsFit) ∧
    ((∀ n ∈ (LineEntry.markedTable lines).counts, n.Told (LineEntry.encodeTable lines)) ↔
      lines.length ≤ 65535) ∧
    ((∀ n ∈ (BootstrapMethod.markedTable bootstraps).counts,
      n.Told (BootstrapMethod.encodeTable bootstraps)) ↔ BootstrapMethod.AllFit bootstraps) ∧
    (∀ bytes, StackMapFrame.encodeTable frames = .ok bytes →
      ∃ m, StackMapFrame.markedTable frames = .ok m ∧
        ((∀ n ∈ m.counts, n.Told bytes) ↔ frames.length ≤ 65535 ∧ ∀ f ∈ frames, f.Fits)) ∧
    (∀ m, MethodType.parse descriptor = .ok m →
      ∃ bytes, Code.Piece.callTail Opcode.invokeinterface descriptor = .ok bytes ∧
        ((⟨0, 1, 1 + m.parameterSlots⟩ : Count).Told bytes ↔ 1 + m.parameterSlots ≤ 255)) := by
  refine ⟨?_, ?_, ?_, ?_, ?_, ?_⟩
  · intro hpool
    rw [← c.bytes_marked, told_iff, c.fits_marked hpool]
  · rw [← code.bytes_marked, told_iff, code.fits_marked]
  · have hbytes : (LineEntry.markedTable lines).bytes = LineEntry.encodeTable lines := by
      simp [LineEntry.markedTable, LineEntry.encodeTable]
    rw [← hbytes, told_iff]
    simp [LineEntry.markedTable]
  · have hbytes : (BootstrapMethod.markedTable bootstraps).bytes =
        BootstrapMethod.encodeTable bootstraps := by
      simp [BootstrapMethod.markedTable, BootstrapMethod.marked, BootstrapMethod.encodeTable]
      rfl
    rw [← hbytes, told_iff]
    simp only [BootstrapMethod.markedTable, BootstrapMethod.marked, fits_counted, fits_append,
      fits_plain, true_and, implies_true, and_true]
    exact ⟨fun h => ⟨h.1, h.2⟩, fun h => ⟨h.count, h.each⟩⟩
  · intro bytes h
    obtain ⟨m, hm, hbytes, hfits⟩ := StackMapFrame.markedTable_of_encodeTable h
    refine ⟨m, hm, ?_⟩
    rw [← hbytes, told_iff, hfits]
  · intro m hm
    refine ⟨_, Code.Piece.callTail_interface hm, ?_⟩
    have htold := (byte (1 + m.parameterSlots) ++ plain [0]).told_iff
    have hcounts : (byte (1 + m.parameterSlots) ++ plain [0]).counts =
        [⟨0, 1, 1 + m.parameterSlots⟩] := rfl
    rw [hcounts, List.forall_mem_singleton] at htold
    simpa using htold

theorem counts_told_small :
    (∀ n ∈ (default : ClassFile).marked.counts, n.Told (default : ClassFile).encode) ∧
    (∃ m, StackMapFrame.markedTable [.full 7 [] [.int]] = .ok m ∧
      ∀ n ∈ m.counts, n.Told [0, 1, 255, 0, 7, 0, 0, 0, 1, 1]) ∧
    ∃ bytes, Code.Piece.callTail Opcode.invokeinterface "(IJ)V" = .ok bytes ∧
      (⟨0, 1, 4⟩ : Count).Told bytes := by
  obtain ⟨hfile, -, -, -, hframes, hcall⟩ :=
    counts_told_iff default default [] [] [.full 7 [] [.int]] "(IJ)V"
  refine ⟨?_, ?_, ?_⟩
  · refine (hfile Pool.Extends.refl).mpr ?_
    exact ⟨fun _ h => absurd h List.not_mem_nil, Nat.zero_le _, Nat.zero_le _,
      fun _ h => absurd h List.not_mem_nil, Nat.zero_le _, fun _ h => absurd h List.not_mem_nil,
      ⟨Nat.zero_le _, fun _ h => absurd h List.not_mem_nil⟩⟩
  · obtain ⟨m, hm, hiff⟩ := hframes _ rfl
    refine ⟨m, hm, hiff.mpr ⟨by decide, ?_⟩⟩
    rintro f (_ | ⟨_, ⟨⟩⟩)
    exact ⟨by decide, by decide⟩
  · obtain ⟨bytes, hbytes, hiff⟩ := hcall ⟨[.base .int, .base .long], none⟩ (by decide +kernel)
    exact ⟨bytes, hbytes, hiff.mpr (by decide)⟩

/-! ## Numbers that do not fit -/

/-- A text of one letter. -/
def letters (n : Nat) : String := String.ofList (List.replicate n 'a')

theorem length_letters (n : Nat) : (ModifiedUtf8.encode (letters n)).length = n := by
  have hchar : ModifiedUtf8.ofChar 'a' = [97] := by decide +kernel
  rw [ModifiedUtf8.encode, letters, String.toList_ofList, List.length_flatMap, List.map_replicate,
    hchar]
  simp

/-- The number of bytes of a text stands behind the count of its pool and its tag. -/
theorem mem_counts_text {p : Pool} {text : String} (h : p.constants.values = [.utf8 text]) :
    ⟨3, 2, (ModifiedUtf8.encode text).length⟩ ∈ p.marked.counts := by
  rw [Pool.marked, h]
  refine List.mem_append_right _ (List.mem_map.mpr
    ⟨⟨1, 2, (ModifiedUtf8.encode text).length⟩, ?_, rfl⟩)
  exact List.mem_append_left _ (List.mem_append_left _ (List.mem_append_right _
    (List.mem_singleton.mpr rfl)))

/-- The descriptor of a method with `n` numbers as its arguments. -/
def numbers (n : Nat) : String := String.ofList ('(' :: (List.replicate n 'I' ++ [')', 'V']))

theorem parametersOnto_numbers (n : Nat) (found : List FieldType) (rest : List Char) :
    MethodType.parametersOnto found (List.replicate n 'I' ++ ')' :: rest) =
      some (found.reverse ++ List.replicate n (.base .int), rest) := by
  induction n generalizing found with
  | zero =>
    rw [List.replicate_zero, List.nil_append, MethodType.parametersOnto, List.replicate_zero,
      List.append_nil]
  | succ n ih =>
    rw [List.replicate_succ, List.cons_append, MethodType.parametersOnto]
    · show MethodType.parametersOnto (.base .int :: found) _ = _
      rw [ih, List.reverse_cons, List.append_assoc]
      rfl
    · intro rest' h
      cases h

theorem parse_numbers (n : Nat) :
    MethodType.parse (numbers n) = .ok ⟨List.replicate n (.base .int), none⟩ := by
  have hparse : MethodType.parse? (numbers n) = some ⟨List.replicate n (.base .int), none⟩ := by
    rw [MethodType.parse?, numbers, String.toList_ofList]
    simp only [parametersOnto_numbers]
    rfl
  rw [MethodType.parse, hparse]

theorem parameterSlots_numbers (n : Nat) :
    MethodType.parameterSlots ⟨List.replicate n (.base .int), none⟩ = n := by
  have hfold : ∀ total, (List.replicate n (FieldType.base .int)).foldl
      (fun total t => total + t.slots) total = total + n := by
    induction n with
    | zero => exact fun _ => rfl
    | succ n ih =>
      intro total
      rw [List.replicate_succ, List.foldl_cons, ih]
      show total + 1 + n = _
      omega
  exact (hfold 0).trans (Nat.zero_add n)

/-- **Numbers that do not fit are written all the same**: zero in front of a text of 65536 bytes,
and in a call with 256 arguments. -/
theorem large_counts_told_zero :
    (∃ i p, Pool.empty.push (.utf8 (letters 65536)) = .ok (i, p) ∧ p.Reachable ∧
      ∃ n ∈ p.marked.counts, n.amount = 65536 ∧ n.field p.encode = 0) ∧
    ∃ m, MethodType.parse (numbers 255) = .ok m ∧ 1 + m.parameterSlots = 256 ∧
      Code.Piece.callTail Opcode.invokeinterface (numbers 255) = .ok [0, 0] := by
  constructor
  · have hroom : Pool.empty.count + (Constant.utf8 (letters 65536)).slots ≤ 65535 := by
      show 1 + 1 ≤ 65535
      omega
    obtain ⟨i, p, hp⟩ : ∃ i p, Pool.empty.push (.utf8 (letters 65536)) = .ok (i, p) :=
      ⟨_, _, Pool.push_eq_ok.mpr ⟨hroom, rfl, rfl⟩⟩
    have hmem := mem_counts_text (Pool.values_push hp)
    rw [length_letters] at hmem
    refine ⟨i, p, hp, Pool.Extends.refl.push hp, _, hmem, rfl, ?_⟩
    rw [← p.bytes_marked, p.marked.written _ hmem]
    decide
  · refine ⟨_, parse_numbers 255, by rw [parameterSlots_numbers], ?_⟩
    rw [Code.Piece.callTail_interface (parse_numbers 255), parameterSlots_numbers]
    rfl

end ClassWeave
