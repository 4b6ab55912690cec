import ClassWeave.Proofs.PoolInterning
import ClassWeave.Proofs.RawClasses

/-!
# The class file format

Reading and writing class files are inverse to each other, as far as they can be: whatever can be
written is read back as it was, and what was read is written again as it was unless it held
spellings or flags that are never written.
-/

namespace ClassWeave

/-! ## How a pool comes about -/

/-- What a pool may be asked for. -/
inductive ConstantRequest where
  | utf8 (text : String)
  | cls (name : String)
  | string (text : String)
  | integer (n : Int32)
  | float (bits : UInt32)
  | long (n : Int64)
  | double (bits : UInt64)
  | nameAndType (name descriptor : String)
  | fieldRef (m : MemberRef)
  | methodRef (m : MemberRef) (isInterface : Bool)
  | methodHandle (kind : HandleKind) (member : PoolIndex)
  | methodType (descriptor : String)
  | invokeDynamic (bootstrap : UInt16) (name descriptor : String)

/-- Asks for a constant. -/
def ConstantRequest.ask : ConstantRequest → Interning PoolIndex
  | utf8 text => .utf8 text
  | cls name => .cls name
  | string text => .string text
  | integer n => .integer n
  | float bits => .float bits
  | long n => .long n
  | double bits => .double bits
  | nameAndType name descriptor => .nameAndType name descriptor
  | fieldRef m => .fieldRef m
  | methodRef m isInterface => .methodRef m isInterface
  | methodHandle kind member => .methodHandle kind member
  | methodType descriptor => .methodType descriptor
  | invokeDynamic bootstrap name descriptor => .invokeDynamic bootstrap name descriptor

namespace Interning

variable {α β : Type} {p : Pool}

/-- The computation only makes a pool grow, even if it fails. -/
def Grows (x : Interning α) : Prop := ∀ p : Pool, p.Extends (x.on p).2

/-- A constant that is not there is added if there is a place for it. -/
theorem on_intern {c : Constant} (hindex : p.index[c]? = none) (hroom : p.hasRoom c) :
    (intern c).on p = (.ok (p.add c).1, (p.add c).2) := by
  simp only [intern, on, ExceptT.run, ExceptT.mk, StateT.run]
  rw [hindex]
  exact if_pos hroom

theorem grows_intern (c : Constant) : Grows (intern c) := by
  intro p
  cases hindex : p.index[c]? with
  | some i =>
    simp only [intern, on, ExceptT.run, ExceptT.mk, StateT.run]
    rw [hindex]
    exact .refl
  | none =>
    by_cases hroom : p.hasRoom c
    · rw [on_intern hindex hroom]
      exact Pool.Extends.refl.push (if_pos hroom)
    · simp only [intern, on, ExceptT.run, ExceptT.mk, StateT.run]
      rw [hindex, if_neg hroom]
      exact .refl

theorem Grows.bind {x : Interning α} {f : α → Interning β} (hx : Grows x) (hf : ∀ a, Grows (f a)) :
    Grows (x >>= f) := by
  intro p
  have hfirst := hx p
  unfold on at hfirst ⊢
  rw [ExceptT.run_bind, StateT.run_bind]
  generalize x.run.run p = ran at hfirst ⊢
  obtain ⟨result, q⟩ := ran
  cases result with
  | error e => exact hfirst
  | ok a => exact hfirst.trans (hf a q)

theorem grows_cls (name : String) : Grows (cls name) :=
  (grows_intern _).bind fun _ => grows_intern _

theorem grows_nameAndType (name descriptor : String) : Grows (nameAndType name descriptor) :=
  (grows_intern _).bind fun _ => (grows_intern _).bind fun _ => grows_intern _

theorem grows_ask (r : ConstantRequest) : Grows r.ask := by
  cases r with
  | utf8 | integer | float | long | double | methodHandle => exact grows_intern _
  | cls name => exact grows_cls name
  | string | methodType => exact (grows_intern _).bind fun _ => grows_intern _
  | nameAndType name descriptor => exact grows_nameAndType name descriptor
  | fieldRef m | methodRef m =>
    exact (grows_cls _).bind fun _ => (grows_nameAndType _ _).bind fun _ => grows_intern _
  | invokeDynamic bootstrap name descriptor =>
    exact (grows_nameAndType name descriptor).bind fun _ => grows_intern _

end Interning

/-- A pool that comes about by reading class files and by asking for constants. -/
inductive Pool.Built : Pool → Prop
  | empty : Built .empty
  | parsed {bytes : List UInt8} {c : ClassFile} (h : ClassFile.parse bytes = .ok c) : Built c.pool
  | asked {p : Pool} (hp : Built p) (r : ConstantRequest) : Built (r.ask.on p).2

theorem Pool.Built.reachable {p : Pool} (h : p.Built) : p.Reachable := by
  induction h with
  | empty => exact .refl
  | parsed h =>
    obtain ⟨r, hr, -⟩ := ClassFile.parse_eq_ok_iff.mp h
    exact hr.pool.reachable
  | asked _ r ih => exact ih.trans (Interning.grows_ask r _)

/-! ## The format as a whole -/

namespace ClassFile

/-- All access flags have a meaning. -/
structure FlagsKnown (c : ClassFile) : Prop where
  access : Access.ofClass c.access = c.access
  fields : ∀ m ∈ c.fields, Access.ofField m.access = m.access
  methods : ∀ m ∈ c.methods, Access.ofMethod m.access = m.access

theorem FlagsKnown.masked_eq {c : ClassFile} (h : c.FlagsKnown) : c.masked = c := by
  rw [masked, h.access, RawClass.map_masked h.fields, RawClass.map_masked h.methods]

/-- **The format is exact.** A class file that can be written is read back as it was, its pool
included, and so are the attributes that are taken apart. The bytes that are accepted are those of
raw classes, and one that is as it is ever written is written again byte for byte. So nothing may be
left over, the count of a pool may not be zero, no constant may take more places than the count
leaves, and none may have a tag that does not exist. -/
theorem format_exact :
    (∀ c : ClassFile, c.pool.Built → c.Fits → c.FlagsKnown → parse c.encode = .ok c) ∧
    (∀ code : CodeAttribute, code.Fits → CodeAttribute.reader.Reads code.encode code) ∧
    (∀ table, BootstrapMethod.AllFit table →
      BootstrapMethod.tableReader.Reads (BootstrapMethod.encodeTable table) table) ∧
    (∀ table : List LineEntry, table.length ≤ 65535 →
      LineEntry.tableReader.Reads (LineEntry.encodeTable table) table) ∧
    (∀ bs c, parse bs = .ok c ↔ ∃ r : RawClass, r.Means c ∧ bs = r.encode) ∧
    (∀ (r : RawClass) c, r.Means c → r.Canonical → c.encode = r.encode) ∧
    (∀ bs c extra, parse bs = .ok c → extra ≠ [] →
      parse (bs ++ extra) = .error (.malformed (.trailingBytes extra.length))) ∧
    (∀ (v : Version) rest,
      parse (magic ++ (v.encode ++ (Bytes.u16 0 ++ rest))) = .error (.format .poolOverrun)) ∧
    (∀ (v : Version) (count : UInt16) raws p (raw : RawConstant) c rest, Pool.Spelled raws p →
      raw.Means c → p.count < count.toNat → count.toNat < p.count + raw.slots →
      parse (magic ++ (v.encode ++ (Bytes.u16 count ++ (raws.flatMap RawConstant.encode ++
        (raw.encode ++ rest))))) = .error (.format
          (if p.count + raw.slots ≤ 65535 then .poolOverrun else .poolTooLong))) ∧
    (∀ (v : Version) (count : UInt16) raws p (tag : UInt8) rest, Pool.Spelled raws p →
      p.count < count.toNat → tag ∉ Constant.tags →
      parse (magic ++ (v.encode ++ (Bytes.u16 count ++ (raws.flatMap RawConstant.encode ++
        tag :: rest)))) = .error (.format (.unknownConstantTag tag))) := by
  refine ⟨?_, fun code hfits => code.reads hfits, fun _ hfits => hfits.reads,
    fun _ hlength => LineEntry.reads_table hlength, fun _ _ => parse_eq_ok_iff,
    fun _ _ hr hcanonical => hr.encode_eq hcanonical, fun _ _ _ => parse_append, ?_, ?_, ?_⟩
  · intro c hpool hfits hflags
    rw [c.parse_encode hpool.reachable hfits, hflags.masked_eq]
  · intro v rest
    exact parse_of_pool (Pool.reader_zero rest)
  · intro v count raws p raw c rest hraws hraw hcount hover
    exact parse_of_pool (hraws.overrun hraw hcount hover rest)
  · intro v count raws p tag rest hraws hcount htag
    exact parse_of_pool (hraws.unknown_tag hcount htag rest)

/-- A class file with one number of 64 bits, which takes two places. -/
def numbered : ClassFile :=
  ⟨.java8, ((ConstantRequest.long 7).ask.on .empty).2, Access.publicSuper, 0, 0, [], [], [], []⟩

theorem format_exact_numbered : parse numbered.encode = .ok numbered ∧
    parse (numbered.encode ++ [0]) = .error (.malformed (.trailingBytes 1)) := by
  obtain ⟨hreads, -, -, -, -, -, hextra, -⟩ := format_exact
  have hpool : numbered.pool = (Pool.empty.add (.long 7)).2 :=
    congrArg Prod.snd (Interning.on_intern (by simp [Pool.empty]) (by decide))
  have hvalues : numbered.pool.constants.values = [.long 7] := by
    rw [hpool]
    rfl
  have hfits : numbered.Fits := by
    refine ⟨fun c hc => ?_, by decide, by decide, fun m hm => absurd hm List.not_mem_nil, by decide,
      fun m hm => absurd hm List.not_mem_nil, by decide, fun a ha => absurd ha List.not_mem_nil⟩
    rw [hvalues, List.mem_singleton] at hc
    rw [hc]
    trivial
  have hflags : numbered.FlagsKnown := ⟨by decide, fun m hm => absurd hm List.not_mem_nil,
    fun m hm => absurd hm List.not_mem_nil⟩
  have hparse := hreads numbered (.asked .empty _) hfits hflags
  exact ⟨hparse, hextra _ _ _ hparse (by simp)⟩

end ClassFile
end ClassWeave
