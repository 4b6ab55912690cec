import ClassWeave.Proofs.ClassCodec
import ClassWeave.Proofs.ExactReading

/-!
# What stands in the bytes of a class file

Reading forgets two things: how a text was spelled, since longer forms than needed are accepted, and
access flags without a meaning. A `RawClass` keeps both, so that it is the grammar of class files:
the bytes that are accepted are those of the raw classes, and reading them gives what they stand
for. A raw class that holds only what is ever written is written again as it was.
-/

namespace ClassWeave

open Reader

/-! ## Constants -/

/-- A constant as it stands in a file. A text may be spelled in several ways, any other constant has
one written form. -/
inductive RawConstant where
  | text (bytes : List UInt8)
  | other (c : Constant)

namespace RawConstant

def encode : RawConstant → List UInt8
  | text bytes => 1 :: Bytes.shortBlock bytes
  | other c => c.encode

def slots : RawConstant → Nat
  | text _ => 1
  | other c => c.slots

/-- What the constant stands for. -/
def Means : RawConstant → Constant → Prop
  | text bytes, c => bytes.length ≤ 65535 ∧ ∃ s, ModifiedUtf8.decode bytes = .ok s ∧ c = .utf8 s
  | other d, c => (∀ s, d ≠ .utf8 s) ∧ c = d

/-- A text is spelled as it is written. -/
def Canonical : RawConstant → Prop
  | text bytes => ∃ s, bytes = ModifiedUtf8.encode s
  | other _ => True

variable {raw : RawConstant} {c : Constant}

theorem Means.slots_eq (h : raw.Means c) : c.slots = raw.slots := by
  cases raw with
  | text bytes =>
    obtain ⟨-, s, -, rfl⟩ := h
    rfl
  | other d =>
    obtain ⟨-, rfl⟩ := h
    rfl

theorem Means.reads (h : raw.Means c) : Constant.reader.Reads raw.encode c := by
  cases raw with
  | text bytes =>
    obtain ⟨hlength, s, hs, rfl⟩ := h
    refine (reads_u8 1).bind ((reads_u16 _).bind ?_)
    rw [toNat_ofNat_u16 hlength, ← List.append_nil bytes]
    exact (reads_bytes (by simp)).bind ((Reads.ofExcept (by simpa using hs)).map Constant.utf8)
  | other d =>
    obtain ⟨hd, rfl⟩ := h
    refine c.reads ?_
    cases c with
    | utf8 s => exact absurd rfl (hd s)
    | _ => trivial

theorem Means.encode_eq (h : raw.Means c) (hraw : raw.Canonical) : c.encode = raw.encode := by
  cases raw with
  | text bytes =>
    obtain ⟨-, s, hs, rfl⟩ := h
    obtain ⟨s', rfl⟩ := hraw
    obtain rfl := Except.ok.inj ((ModifiedUtf8.decode_encode s').symm.trans hs)
    rfl
  | other d =>
    obtain ⟨-, rfl⟩ := h
    rfl

end RawConstant

theorem HandleKind.tag_of_ofTag? {tag : UInt8} {kind : HandleKind} (h : ofTag? tag = some kind) :
    kind.tag = tag := by
  unfold ofTag? at h
  split at h
  all_goals cases h
  all_goals rfl

theorem HandleKind.exact : HandleKind.reader.Exact HandleKind.encode := by
  refine Exact.bind exact_u8 fun tag => ?_
  cases hkind : ofTag? tag with
  | none => exact .throw _
  | some kind =>
    refine (Accepts.pure kind).imp ?_
    rintro front _ ⟨rfl, rfl⟩
    rw [encode, tag_of_ofTag? hkind, List.append_nil]

namespace Constant

/-- The tags of constants. -/
def tags : List UInt8 := [1, 3, 4, 5, 6, 7, 8, 9, 10, 11, 12, 15, 16, 17, 18, 19, 20]

theorem bodyReader_of_not_mem {tag : UInt8} (h : tag ∉ tags) :
    bodyReader tag = throw (.unknownConstantTag tag) := by
  unfold bodyReader
  split <;> first | exact absurd (by decide) h | rfl

/-- Bytes behind a tag that are the rest of a constant. -/
def Behind (tag : UInt8) (front : List UInt8) (c : Constant) : Prop :=
  ∃ raw : RawConstant, raw.Means c ∧ tag :: front = raw.encode

variable {α β : Type} {tag : UInt8} {r : Reader α} {r' : Reader β} {enc : α → List UInt8}
  {enc' : β → List UInt8}

/-- A constant that is no text and has one part. -/
theorem accepts_part {f : α → Constant} (hr : r.Exact enc) (htext : ∀ a s, f a ≠ utf8 s)
    (hf : ∀ a, (f a).encode = tag :: enc a) :
    (r >>= fun a => pure (f a)).Accepts (Behind tag) := by
  refine (Accepts.map f hr).imp ?_
  rintro front c ⟨a, rfl, rfl⟩
  exact ⟨.other (f a), ⟨htext a, rfl⟩, (hf a).symm⟩

/-- A constant that is no text and has two parts. -/
theorem accepts_parts {f : α → β → Constant} (hr : r.Exact enc) (hr' : r'.Exact enc')
    (htext : ∀ a b s, f a b ≠ utf8 s) (hf : ∀ a b, (f a b).encode = tag :: (enc a ++ enc' b)) :
    (r >>= fun a => r' >>= fun b => pure (f a b)).Accepts (Behind tag) := by
  refine (Accepts.bind hr fun a => Accepts.map (f a) hr').imp ?_
  rintro front c ⟨_, a, _, rfl, ⟨b, rfl, rfl⟩, rfl⟩
  exact ⟨.other (f a b), ⟨htext a b, rfl⟩, (hf a b).symm⟩

theorem accepts_text : (do
    let n ← u16
    let text ← bytes n.toNat
    return utf8 (← MonadExcept.ofExcept (ModifiedUtf8.decode text)) : Reader Constant).Accepts
      (Behind 1) := by
  refine (Accepts.bind exact_u16 fun n => Accepts.bind (accepts_bytes n.toNat) fun text =>
    Accepts.map utf8 (accepts_ofExcept _)).imp ?_
  rintro front c ⟨_, n, _, rfl, ⟨text, _, _, ⟨rfl, hlength⟩, ⟨s, ⟨rfl, hs⟩, rfl⟩, rfl⟩, rfl⟩
  refine ⟨.text text, ⟨?_, s, hs, rfl⟩, ?_⟩
  · rw [hlength]
    exact Nat.le_of_lt_succ n.toNat_lt
  · rw [RawConstant.encode, Bytes.shortBlock, hlength, UInt16.ofNat_toNat, List.append_nil]

theorem accepts_bodyReader (tag : UInt8) : (bodyReader tag).Accepts (Behind tag) := by
  unfold bodyReader
  split
  case h_1 => exact accepts_text
  case h_2 => exact accepts_part exact_i32 nofun fun _ => rfl
  case h_3 => exact accepts_part exact_u32 nofun fun _ => rfl
  case h_4 => exact accepts_part exact_i64 nofun fun _ => rfl
  case h_5 => exact accepts_part exact_u64 nofun fun _ => rfl
  case h_12 => exact accepts_parts HandleKind.exact exact_u16 nofun fun _ _ => rfl
  case h_18 => exact .throw _
  case h_6 | h_7 | h_13 | h_16 | h_17 => exact accepts_part exact_u16 nofun fun _ => rfl
  all_goals exact accepts_parts exact_u16 exact_u16 nofun fun _ _ => rfl

/-- What is read as a constant is a constant as it stands in a file. -/
theorem accepts : reader.Accepts fun front c =>
    ∃ raw : RawConstant, raw.Means c ∧ front = raw.encode := by
  refine (Accepts.bind exact_u8 accepts_bodyReader).imp ?_
  rintro front c ⟨_, tag, behind, rfl, ⟨raw, hraw, hencode⟩, rfl⟩
  exact ⟨raw, hraw, hencode⟩

end Constant
/-! ## Pools -/

namespace Pool

variable {raws : List RawConstant} {raw : RawConstant} {c : Constant} {cs : List Constant}
  {p q : Pool} {count : UInt16}

/-- Constants as they stand in a file make up a pool. -/
def Spelled (raws : List RawConstant) (p : Pool) : Prop :=
  ∃ cs, List.Forall₂ RawConstant.Means raws cs ∧ Added .empty cs p

theorem Spelled.reachable (h : Spelled raws p) : p.Reachable := by
  obtain ⟨cs, -, hcs⟩ := h
  exact hcs.extends

theorem Spelled.count_eq (h : Spelled raws p) : p.count = 1 + (raws.map RawConstant.slots).sum := by
  obtain ⟨cs, hmeans, hcs⟩ := h
  have general : ∀ {p q : Pool} {cs : List Constant} {raws : List RawConstant},
      List.Forall₂ RawConstant.Means raws cs → Added p cs q →
        q.count = p.count + (raws.map RawConstant.slots).sum := by
    intro p q cs raws hmeans hcs
    induction hmeans generalizing p with
    | nil =>
      cases hcs
      rfl
    | cons hraw _ ih =>
      obtain _ | ⟨hc, hcs⟩ := hcs
      rw [ih hcs, count_push hc, hraw.slots_eq, List.map_cons, List.sum_cons, Nat.add_assoc]
  exact general hmeans hcs

theorem Spelled.forall₂_reads (h : List.Forall₂ RawConstant.Means raws cs) :
    List.Forall₂ Constant.reader.Reads (raws.map RawConstant.encode) cs :=
  List.forall₂_map_left_iff.mpr (h.imp fun _ _ => RawConstant.Means.reads)

theorem Spelled.reads (h : Spelled raws p) :
    reader.Reads (Bytes.u16 (UInt16.ofNat p.count) ++ raws.flatMap RawConstant.encode) p := by
  have hroom := h.reachable.sound.room
  obtain ⟨cs, hmeans, hcs⟩ := h
  rw [List.flatMap_def]
  exact reads_of_added hcs (Spelled.forall₂_reads hmeans) hroom

theorem Spelled.encode_eq (h : Spelled raws p) (hraws : ∀ raw ∈ raws, raw.Canonical) :
    p.encode = Bytes.u16 (UInt16.ofNat p.count) ++ raws.flatMap RawConstant.encode := by
  obtain ⟨cs, hmeans, hcs⟩ := h
  have hvalues : p.constants.values = cs := hcs.values
  rw [encode, hvalues]
  congr 1
  clear hvalues hcs
  induction hmeans with
  | nil => rfl
  | cons hraw _ ih =>
    rw [List.flatMap_cons, List.flatMap_cons, hraw.encode_eq (hraws _ List.mem_cons_self),
      ih fun raw hmem => hraws raw (List.mem_cons_of_mem _ hmem)]

theorem accepts_readUpTo (count fuel : Nat) (p : Pool) :
    (readUpTo count fuel p).Accepts fun front q => ∃ raws cs,
      List.Forall₂ RawConstant.Means raws cs ∧ Added p cs q ∧
        front = raws.flatMap RawConstant.encode := by
  have done : ∀ p : Pool, (Pure.pure p : Reader Pool).Accepts fun front q => ∃ raws cs,
      List.Forall₂ RawConstant.Means raws cs ∧ Added p cs q ∧
        front = raws.flatMap RawConstant.encode := by
    intro p
    refine (Accepts.pure p).imp ?_
    rintro front q ⟨rfl, rfl⟩
    exact ⟨[], [], .nil, .nil q, rfl⟩
  induction fuel generalizing p with
  | zero => exact done p
  | succ fuel ih =>
    refine .ite (fun _ => ?_) fun _ => done p
    intro bs q rest h
    obtain ⟨⟨c, behind⟩, hc, hpushed⟩ := bind_eq_ok.mp h
    obtain ⟨front, rfl, raw, hraw, rfl⟩ := Constant.accepts _ _ _ hc
    cases hpush : p.push c with
    | error e =>
      simp only [hpush] at hpushed
      cases hpushed
    | ok found =>
      simp only [hpush] at hpushed
      obtain ⟨front, rfl, raws, cs, hraws, hcs, rfl⟩ := ih _ _ _ _ hpushed
      exact ⟨_, (List.append_assoc _ _ _).symm, raw :: raws, c :: cs, .cons hraw hraws,
        .cons hpush hcs, rfl⟩

/-- What is read as a pool are constants as they stand in a file behind their count. -/
theorem accepts : reader.Accepts fun front p => ∃ raws, Spelled raws p ∧
    front = Bytes.u16 (UInt16.ofNat p.count) ++ raws.flatMap RawConstant.encode := by
  refine (Accepts.bind exact_u16 fun count =>
    Accepts.bind (accepts_readUpTo count.toNat count.toNat .empty) fun p =>
      Accepts.ite (P := fun front q => front = [] ∧ q = p ∧ p.count = count.toNat)
        (fun hcount => (Accepts.pure p).imp ?_) fun _ => .throw _).imp ?_
  · rintro front q ⟨rfl, rfl⟩
    exact ⟨rfl, rfl, hcount⟩
  · rintro front p ⟨_, count, _, rfl, ⟨_, q, _, ⟨raws, cs, hraws, hcs, rfl⟩,
      ⟨rfl, rfl, hcount⟩, rfl⟩, rfl⟩
    refine ⟨raws, ⟨cs, hraws, hcs⟩, ?_⟩
    rw [hcount, UInt16.ofNat_toNat, List.append_nil]

/-! ### What is refused -/

/-- Behind the constants that make up a pool so far. -/
theorem Spelled.reader_append (h : Spelled raws p) (hcount : p.count < count.toNat)
    (rest : List UInt8) :
    ∃ fuel, reader (Bytes.u16 count ++ (raws.flatMap RawConstant.encode ++ rest)) =
      (readUpTo count.toNat (fuel + 1) p >>= fun p =>
        if p.count = count.toNat then Pure.pure p else MonadExcept.throw .poolOverrun) rest := by
  obtain ⟨cs, hmeans, hcs⟩ := h
  have hle := hcs.count_le
  obtain ⟨fuel, hfuel⟩ := Nat.exists_eq_add_of_lt
    (Nat.lt_of_le_of_lt (Nat.le_trans (Nat.le_add_left _ _) hle) hcount)
  refine ⟨fuel, ?_⟩
  have happend := readUpTo_append hcs (Spelled.forall₂_reads hmeans) (Nat.le_of_lt hcount)
    (fuel + 1) rest
  rw [← Nat.add_assoc, ← hfuel, ← List.flatMap_def] at happend
  unfold reader
  rw [(reads_u16 count).bind_append]
  exact bind_congr _ happend

/-- The last constant takes up more places than the count leaves. -/
theorem Spelled.overrun (h : Spelled raws p) (hraw : raw.Means c) (hcount : p.count < count.toNat)
    (hover : count.toNat < p.count + raw.slots) (rest : List UInt8) :
    reader (Bytes.u16 count ++ (raws.flatMap RawConstant.encode ++ (raw.encode ++ rest))) =
      .error (if p.count + raw.slots ≤ 65535 then .poolOverrun else .poolTooLong) := by
  obtain ⟨fuel, hreader⟩ := h.reader_append hcount (raw.encode ++ rest)
  rw [hreader, readUpTo, if_pos hcount, bind_assoc, hraw.reads.bind_append, ← hraw.slots_eq]
  by_cases hroom : p.count + c.slots ≤ 65535
  · obtain ⟨i, q, hpush⟩ : ∃ i q, p.push c = .ok (i, q) := ⟨_, _, push_eq_ok.mpr ⟨hroom, rfl, rfl⟩⟩
    have hq := count_push hpush
    rw [← hraw.slots_eq] at hover
    have hend : readUpTo count.toNat fuel q = Pure.pure q := by
      cases fuel with
      | zero => rfl
      | succ fuel => rw [readUpTo, if_neg (by omega)]
    rw [if_pos hroom]
    simp only [hpush, hend, pure_bind]
    rw [if_neg (by omega)]
    rfl
  · have hpush : p.push c = .error (.poolOverflow c p.count) := by
      simp [push, hasRoom, hroom]
    rw [if_neg hroom]
    simp only [hpush]
    rfl

theorem Spelled.unknown_tag (h : Spelled raws p) (hcount : p.count < count.toNat) {tag : UInt8}
    (htag : tag ∉ Constant.tags) (rest : List UInt8) :
    reader (Bytes.u16 count ++ (raws.flatMap RawConstant.encode ++ tag :: rest)) =
      .error (.unknownConstantTag tag) := by
  obtain ⟨fuel, hreader⟩ := h.reader_append hcount (tag :: rest)
  rw [hreader, readUpTo, if_pos hcount, bind_assoc, Constant.reader, bind_assoc,
    ← List.singleton_append, (reads_u8 tag).bind_append, Constant.bodyReader_of_not_mem htag]
  rfl

theorem reader_zero (rest : List UInt8) :
    reader (Bytes.u16 0 ++ rest) = .error .poolOverrun := by
  rfl

end Pool
/-! ## Classes -/

theorem Attribute.accepts : reader.Accepts fun front a => a.Fits ∧ front = a.encode := by
  refine (Accepts.bind exact_u16 fun name => Accepts.bind exact_u32 fun length =>
    Accepts.map (Attribute.mk name) (accepts_bytes length.toNat)).imp ?_
  rintro front a ⟨_, name, _, rfl, ⟨_, length, _, rfl, ⟨info, ⟨rfl, hlength⟩, rfl⟩, rfl⟩, rfl⟩
  constructor
  · rw [Attribute.Fits, hlength]
    exact length.toNat_lt
  · rw [Attribute.encode, Bytes.longBlock, hlength, UInt32.ofNat_toNat]

theorem Attribute.accepts_list : (counted reader).Accepts fun front as =>
    AllFit as ∧ front = Bytes.counted encode as := by
  refine (accepts_counted Attribute.accepts).imp ?_
  rintro front as ⟨hcount, heach, hfront⟩
  exact ⟨⟨hcount, heach⟩, hfront⟩

/-- The flags of a member may have stood there with others that have no meaning. -/
theorem MemberInfo.accepts (access : UInt16 → UInt16) : (reader access).Accepts fun front m =>
    ∃ raw : MemberInfo, Attribute.AllFit raw.attributes ∧ m = raw.masked access ∧
      front = raw.encode := by
  refine (Accepts.bind exact_u16 fun bits => Accepts.bind exact_u16 fun name =>
    Accepts.bind exact_u16 fun descriptor =>
      Accepts.map (MemberInfo.mk (access bits) name descriptor) Attribute.accepts_list).imp ?_
  rintro front m ⟨_, bits, _, rfl, ⟨_, name, _, rfl, ⟨_, descriptor, _, rfl,
    ⟨attributes, ⟨hfits, rfl⟩, rfl⟩, rfl⟩, rfl⟩, rfl⟩
  refine ⟨⟨bits, name, descriptor, attributes⟩, hfits, rfl, ?_⟩
  simp only [MemberInfo.encode, List.append_assoc]

theorem Version.exact : reader.Exact encode := by
  refine Exact.bind exact_u16 fun minor => (Accepts.map _ exact_u16).imp ?_
  rintro front v ⟨major, rfl, rfl⟩
  rfl

/-- A class as it stands in a file: its constants as they are spelled, and all access flags. -/
structure RawClass where
  version : Version
  constants : List RawConstant
  access : UInt16
  this : PoolIndex
  super : PoolIndex
  interfaces : List PoolIndex
  fields : List MemberInfo
  methods : List MemberInfo
  attributes : List Attribute

namespace RawClass

/-- The first index that no constant takes. -/
def count (r : RawClass) : Nat := 1 + (r.constants.map RawConstant.slots).sum

/-- What stands behind the constants. -/
def encodeBody (r : RawClass) : List UInt8 :=
  Bytes.u16 r.access ++ (Bytes.u16 r.this ++ (Bytes.u16 r.super ++
    (Bytes.counted Bytes.u16 r.interfaces ++ (Bytes.counted MemberInfo.encode r.fields ++
      (Bytes.counted MemberInfo.encode r.methods ++
        Bytes.counted Attribute.encode r.attributes)))))

def encode (r : RawClass) : List UInt8 :=
  ClassFile.magic ++ (r.version.encode ++ (Bytes.u16 (UInt16.ofNat r.count) ++
    r.constants.flatMap RawConstant.encode ++ r.encodeBody))

/-- The class file with these constants as its pool. -/
def standsFor (r : RawClass) (p : Pool) : ClassFile :=
  ⟨r.version, p, Access.ofClass r.access, r.this, r.super, r.interfaces,
    r.fields.map (MemberInfo.masked Access.ofField),
    r.methods.map (MemberInfo.masked Access.ofMethod), r.attributes⟩

/-- The raw class is well-formed and stands for the class file. -/
structure Means (r : RawClass) (c : ClassFile) : Prop where
  pool : Pool.Spelled r.constants c.pool
  interfaces : r.interfaces.length ≤ 65535
  fields : r.fields.length ≤ 65535
  fieldAttributes : ∀ m ∈ r.fields, Attribute.AllFit m.attributes
  methods : r.methods.length ≤ 65535
  methodAttributes : ∀ m ∈ r.methods, Attribute.AllFit m.attributes
  attributes : Attribute.AllFit r.attributes
  file : c = r.standsFor c.pool

/-- The raw class has texts only as they are written, and only flags that have a meaning. -/
structure Canonical (r : RawClass) : Prop where
  texts : ∀ raw ∈ r.constants, raw.Canonical
  access : Access.ofClass r.access = r.access
  fields : ∀ m ∈ r.fields, Access.ofField m.access = m.access
  methods : ∀ m ∈ r.methods, Access.ofMethod m.access = m.access

variable {r : RawClass} {c : ClassFile}

theorem Means.reads (h : r.Means c) : ClassFile.reader.Reads r.encode c := by
  have hmagic : (bytes 4).Reads ClassFile.magic ClassFile.magic := reads_bytes rfl
  rw [encode, count, ← h.pool.count_eq]
  refine hmagic.bind ?_
  rw [if_neg (by simp), h.file]
  exact r.version.reads.bind (h.pool.reads.bind ((reads_u16 r.access).bind
    ((reads_u16 r.this).bind ((reads_u16 r.super).bind
      ((reads_counted h.interfaces fun i _ => reads_u16 i).bind
        ((reads_counted_map h.fields fun m hm => m.reads (h.fieldAttributes m hm)).bind
          ((reads_counted_map h.methods fun m hm => m.reads (h.methodAttributes m hm)).bind
            (h.attributes.reads.map fun attributes =>
              ClassFile.mk r.version c.pool (Access.ofClass r.access) r.this r.super r.interfaces
                (r.fields.map (MemberInfo.masked Access.ofField))
                (r.methods.map (MemberInfo.masked Access.ofMethod)) attributes))))))))

theorem map_masked {access : UInt16 → UInt16} {ms : List MemberInfo}
    (h : ∀ m ∈ ms, access m.access = m.access) : ms.map (MemberInfo.masked access) = ms := by
  refine (List.map_congr_left fun m hm => ?_).trans ms.map_id
  rw [MemberInfo.masked, h m hm]
  rfl

/-- What is as it is ever written is written again as it was. -/
theorem Means.encode_eq (h : r.Means c) (hr : r.Canonical) : c.encode = r.encode := by
  rw [h.file]
  simp only [ClassFile.encode, standsFor, encode, encodeBody, count, ← h.pool.count_eq, hr.access,
    map_masked hr.fields, map_masked hr.methods, h.pool.encode_eq hr.texts, List.append_assoc]

end RawClass

namespace ClassFile

/-- What is read as a class file is a raw class. -/
theorem accepts : reader.Accepts fun front c => ∃ r : RawClass, r.Means c ∧ front = r.encode := by
  refine (Accepts.bind (Q := fun header front c => header = magic ∧
    ∃ r : RawClass, r.Means c ∧ magic ++ front = r.encode) (accepts_bytes 4) fun header =>
      .ite (fun _ => .throw _) fun hheader => ?_).imp ?_
  · refine (Accepts.bind Version.exact fun version => Accepts.bind Pool.accepts fun p =>
      Accepts.bind exact_u16 fun access => Accepts.bind exact_u16 fun this =>
        Accepts.bind exact_u16 fun super => Accepts.bind (accepts_counted (F := fun _ => True)
          (exact_u16.imp fun h => ⟨trivial, h⟩)) fun interfaces =>
            Accepts.bind (accepts_counted_map (MemberInfo.accepts Access.ofField)) fun fields =>
              Accepts.bind (accepts_counted_map (MemberInfo.accepts Access.ofMethod)) fun methods =>
                Accepts.map _ Attribute.accepts_list).imp ?_
    rintro front c ⟨_, version, _, rfl, ⟨_, p, _, ⟨raws, hraws, rfl⟩, ⟨_, access, _, rfl,
      ⟨_, this, _, rfl, ⟨_, super, _, rfl, ⟨_, interfaces, _, ⟨hinterfaces, -, rfl⟩,
        ⟨_, _, _, ⟨fields, hfields, hfieldsFit, rfl, rfl⟩, ⟨_, _, _, ⟨methods, hmethods, hmethodsFit,
          rfl, rfl⟩, ⟨attributes, ⟨hattributes, rfl⟩, rfl⟩, rfl⟩, rfl⟩, rfl⟩, rfl⟩, rfl⟩, rfl⟩, rfl⟩,
            rfl⟩
    refine ⟨not_not.mp hheader, ⟨version, raws, access, this, super, interfaces, fields, methods,
      attributes⟩, ?_, ?_⟩
    · exact ⟨hraws, hinterfaces, hfields, hfieldsFit, hmethods, hmethodsFit, hattributes, rfl⟩
    · simp only [RawClass.encode, RawClass.encodeBody, RawClass.count, ← hraws.count_eq]
  · rintro front c ⟨_, _, _, ⟨rfl, -⟩, ⟨rfl, r, hr, hencode⟩, rfl⟩
    exact ⟨r, hr, hencode⟩

/-- **The bytes of class files.** Exactly the bytes of raw classes are accepted, and they stand for
what is read. -/
theorem parse_eq_ok_iff {bs : List UInt8} {c : ClassFile} :
    parse bs = .ok c ↔ ∃ r : RawClass, r.Means c ∧ bs = r.encode := by
  constructor
  · intro h
    unfold parse runOn at h
    cases hread : reader bs with
    | error e =>
      rw [hread] at h
      cases h
    | ok found =>
      obtain ⟨c', rest⟩ := found
      rw [hread] at h
      cases rest with
      | cons => cases h
      | nil =>
        obtain rfl := Except.ok.inj h
        obtain ⟨front, rfl, r, hr, rfl⟩ := accepts _ _ _ hread
        exact ⟨r, hr, List.append_nil _⟩
  · rintro ⟨r, hr, rfl⟩
    unfold parse runOn
    rw [hr.reads.eq_ok]

/-- Nothing may be left over. -/
theorem parse_append {bs extra : List UInt8} {c : ClassFile} (h : parse bs = .ok c)
    (hextra : extra ≠ []) :
    parse (bs ++ extra) = .error (.malformed (.trailingBytes extra.length)) := by
  obtain ⟨r, hr, rfl⟩ := parse_eq_ok_iff.mp h
  unfold parse runOn
  rw [hr.reads extra]
  cases extra with
  | nil => exact absurd rfl hextra
  | cons b extra => rfl

/-- What is wrong with the pool is wrong with the class. -/
theorem parse_of_pool {v : Version} {bs : List UInt8} {e : FormatError}
    (h : Pool.reader bs = .error e) :
    parse (magic ++ (v.encode ++ bs)) = .error (.format e) := by
  have hmagic : (bytes 4).Reads magic magic := reads_bytes rfl
  have hread : reader (magic ++ (v.encode ++ bs)) = .error e := by
    unfold reader
    rw [hmagic.bind_append, if_neg (by simp)]
    refine (v.reads.bind_append _ _).trans ?_
    exact bind_error _ h
  unfold parse runOn
  rw [hread]

end ClassFile
end ClassWeave
