import ClassWeave.Code.Encode
import ClassWeave.Proofs.ByteCodec
import ClassWeave.Proofs.CallSites

/-!
# Reading instructions back

What stands in some code is read back by the scanner whatever stands behind it; unlike a plain
reader, a scanner knows its offset, since the operands of switches are aligned and jumps are
relative. There is one lemma for every form that an instruction can take in bytecode.
-/

namespace ClassWeave.Code
namespace Scanner

variable {α β : Type} {o : Nat} {bs cs : List UInt8}

/-- At an offset, the scanner takes exactly these bytes and gives this value. -/
def Scans (x : Scanner α) (o : Nat) (bs : List UInt8) (a : α) : Prop :=
  ∀ rest, x ⟨o, bs ++ rest⟩ = .ok (a, ⟨o + bs.length, rest⟩)

theorem Scans.pure (a : α) (o : Nat) : Scans (Pure.pure a : Scanner α) o [] a := fun _ => rfl

theorem Scans.bind {x : Scanner α} {f : α → Scanner β} {a : α} {b : β} (hx : Scans x o bs a)
    (hf : Scans (f a) (o + bs.length) cs b) : Scans (x >>= f) o (bs ++ cs) b := by
  intro rest
  show (x ⟨o, bs ++ cs ++ rest⟩ >>= fun p => f p.1 p.2) = _
  rw [List.append_assoc, hx, List.length_append, ← Nat.add_assoc]
  exact hf rest

theorem Scans.map {x : Scanner α} {a : α} (f : α → β) (hx : Scans x o bs a) :
    Scans (x >>= fun x => Pure.pure (f x)) o bs (f a) := by
  have := hx.bind (f := fun x => Pure.pure (f x)) (Scans.pure (f a) _)
  rwa [List.append_nil] at this

theorem scans_ofReader {r : Reader α} {n : Nat} {a : α} (hr : r.Reads bs a) (hn : bs.length = n) :
    Scans (ofReader n r) o bs a := by
  intro rest
  simp only [ofReader, Reader.runOn, hr rest, hn]

theorem scans_u8 (n : UInt8) (o : Nat) : Scans u8 o [n] n :=
  scans_ofReader (Reader.reads_u8 n) rfl

theorem scans_u16 (n : UInt16) (o : Nat) : Scans u16 o (Bytes.u16 n) n :=
  scans_ofReader (Reader.reads_u16 n) rfl

theorem scans_i8 (n : Int8) (o : Nat) : Scans i8 o (Bytes.i8 n) n :=
  scans_ofReader (Reader.reads_i8 n) rfl

theorem scans_i16 (n : Int16) (o : Nat) : Scans i16 o (Bytes.i16 n) n :=
  scans_ofReader (Reader.reads_i16 n) rfl

theorem scans_i32 (n : Int32) (o : Nat) : Scans i32 o (Bytes.i32 n) n :=
  scans_ofReader (Reader.reads_i32 n) rfl

theorem scans_ofResult {x : ClassResult α} {a : α} (hx : x = .ok a) :
    Scans (ofResult x) o [] a := by
  subst hx
  exact .pure a o

theorem scans_skip (bs : List UInt8) (o : Nat) : Scans (skip bs.length) o bs () := by
  induction bs generalizing o with
  | nil => exact .pure () o
  | cons b bs ih => exact (scans_u8 b o).bind (ih _)

theorem scans_timesOnto {γ : Type} {item : Scanner α} {encode : γ → List UInt8} {value : γ → α}
    {items : List γ} (found : List α)
    (hitem : ∀ c ∈ items, ∀ o, Scans item o (encode c) (value c)) :
    Scans (timesOnto item items.length found) o (items.flatMap encode)
      (found.reverse ++ items.map value) := by
  induction items generalizing found o with
  | nil =>
    rw [List.map_nil, List.append_nil]
    exact .pure _ o
  | cons c items ih =>
    have hrest := ih (o := o + (encode c).length) (value c :: found)
      fun b hb => hitem b (List.mem_cons_of_mem _ hb)
    rw [List.reverse_cons, List.append_assoc] at hrest
    exact (hitem c List.mem_cons_self o).bind hrest

theorem scans_times {γ : Type} {item : Scanner α} {encode : γ → List UInt8} {value : γ → α}
    {items : List γ} (hitem : ∀ c ∈ items, ∀ o, Scans item o (encode c) (value c)) :
    Scans (times items.length item) o (items.flatMap encode) (items.map value) :=
  scans_timesOnto [] hitem

end Scanner

open Scanner

/-! ## Where jumps go to -/

variable {ctx : Context} {length o : Nat}

theorem jumpTarget_distance {t : Nat} (ht : t < length) :
    jumpTarget length o ((t : Int) - o) = .ok t := by
  unfold jumpTarget
  have hsum : (o : Int) + ((t : Int) - o) = t := by omega
  simp only [hsum]
  rw [if_pos ⟨by omega, by omega⟩, Int.toNat_natCast]

theorem toInt_distance {t : Nat} (ht : t ≤ 65535) (ho : o ≤ 65535) :
    (Int32.ofInt ((t : Int) - o)).toInt = (t : Int) - o :=
  Int32.toInt_ofInt_of_le (by omega) (by omega)

/-- A distance in four bytes is read back. -/
theorem scans_distance {t : Nat} (ht : t < length) (hlength : length ≤ 65535) (ho : o ≤ 65535)
    (o' : Nat) : Scans (scanTarget length o) o' (distance t o) t := by
  have hresult : jumpTarget length o (Int32.ofInt ((t : Int) - o)).toInt = .ok t := by
    rw [toInt_distance (by omega) ho]
    exact jumpTarget_distance ht
  have := (scans_i32 (Int32.ofInt ((t : Int) - o)) o').bind
    (f := fun n => ofResult (jumpTarget length o n.toInt)) (scans_ofResult hresult)
  rwa [List.append_nil] at this

/-- An instruction is its opcode and what stands behind it. -/
theorem scans_instr {op : UInt8} {bs : List UInt8} {i : Instr Nat}
    (h : Scans (scanOperands ctx length o op) (o + 1) bs i) :
    Scans (scanInstr ctx length) o (op :: bs) i := by
  intro rest
  have := h rest
  rw [List.length_cons, Nat.add_comm bs.length, ← Nat.add_assoc]
  exact this

/-! ## Families of opcodes -/

/-- What has to be shown of every opcode can be tried on all of them. -/
theorem forall_u8 {P : UInt8 → Prop} (h : ∀ n : Fin 256, P (UInt8.ofFin n)) (op : UInt8) : P op :=
  h op.toFin

/-- No operands. -/
theorem scans_plain {op : UInt8} (hop : Opcode.isPlain op) :
    Scans (scanInstr ctx length) o [op] (.plain op) := by
  refine scans_instr ?_
  rw [scanOperands, if_pos hop]
  exact .pure _ _

/-- An access to a local variable, its opcode without the variable. -/
def isAccess (op : UInt8) : Bool := Opcode.isLoad op || Opcode.isStore op || op == Opcode.ret

theorem access_facts : ∀ op : UInt8, isAccess op = true →
    Opcode.isPlain op = false ∧ op ≠ Opcode.bipush ∧ op ≠ Opcode.sipush ∧ op ≠ Opcode.newarray ∧
      op ≠ Opcode.ldc ∧ op ≠ Opcode.ldc_w ∧ op ≠ Opcode.ldc2_w ∧ op ≠ Opcode.iinc :=
  forall_u8 (by decide +kernel)

theorem scans_access {op n : UInt8} (hop : isAccess op) :
    Scans (scanInstr ctx length) o [op, n] (.var op n.toUInt16) := by
  refine scans_instr ?_
  obtain ⟨h1, h2, h3, h4, h5, h6, h7, -⟩ := access_facts op hop
  rw [isAccess] at hop
  simp only [scanOperands, h1, h2, h3, h4, h5, h6, h7, hop, decide_false, Bool.or_self,
    Bool.false_eq_true, if_false, if_true]
  exact (scans_u8 n (o + 1)).map fun n => Instr.var op n.toUInt16

theorem scans_wideAccess {op : UInt8} {n : UInt16} (hop : isAccess op) :
    Scans (scanInstr ctx length) o (Opcode.wide :: op :: Bytes.u16 n) (.var op n) := by
  refine scans_instr ?_
  obtain ⟨-, -, -, -, -, -, -, h⟩ := access_facts op hop
  rw [isAccess] at hop
  refine Scans.bind (scans_u8 op (o + 1)) ?_
  simp only [h, hop, if_false, if_true]
  exact (scans_u16 n _).map fun n => Instr.var op n

theorem shortLoad_facts : ∀ op : UInt8, Opcode.isLoad op = true → ∀ i : Fin 4,
    let q := Piece.shortForm op + UInt8.ofNat i
    Opcode.isPlain q = false ∧ q ≠ Opcode.bipush ∧ q ≠ Opcode.sipush ∧ q ≠ Opcode.newarray ∧
      q ≠ Opcode.ldc ∧ q ≠ Opcode.ldc_w ∧ q ≠ Opcode.ldc2_w ∧
      (Opcode.isLoad q || Opcode.isStore q || q == Opcode.ret) = false ∧
      Opcode.isShortLoad q = true ∧ Opcode.iload + (q - Opcode.iload_0) / 4 = op ∧
      (q - Opcode.iload_0) % 4 = UInt8.ofNat i :=
  forall_u8 (by decide +kernel)

theorem shortStore_facts : ∀ op : UInt8, Opcode.isStore op = true → ∀ i : Fin 4,
    let q := Piece.shortForm op + UInt8.ofNat i
    Opcode.isPlain q = false ∧ q ≠ Opcode.bipush ∧ q ≠ Opcode.sipush ∧ q ≠ Opcode.newarray ∧
      q ≠ Opcode.ldc ∧ q ≠ Opcode.ldc_w ∧ q ≠ Opcode.ldc2_w ∧
      (Opcode.isLoad q || Opcode.isStore q || q == Opcode.ret) = false ∧
      Opcode.isShortLoad q = false ∧ Opcode.isShortStore q = true ∧
      Opcode.istore + (q - Opcode.istore_0) / 4 = op ∧
      (q - Opcode.istore_0) % 4 = UInt8.ofNat i :=
  forall_u8 (by decide +kernel)

theorem scans_shortLoad {op : UInt8} (hop : Opcode.isLoad op) (i : Fin 4) :
    Scans (scanInstr ctx length) o [Piece.shortForm op + UInt8.ofNat i]
      (.var op (UInt8.ofNat i).toUInt16) := by
  refine scans_instr ?_
  obtain ⟨h1, h2, h3, h4, h5, h6, h7, h8, h9, h10, h11⟩ := shortLoad_facts op hop i
  simp only [scanOperands, h1, h2, h3, h4, h5, h6, h7, h8, h9, h10, h11, decide_false, Bool.or_self,
    Bool.false_eq_true, if_false, if_true]
  exact .pure _ _

theorem scans_shortStore {op : UInt8} (hop : Opcode.isStore op) (i : Fin 4) :
    Scans (scanInstr ctx length) o [Piece.shortForm op + UInt8.ofNat i]
      (.var op (UInt8.ofNat i).toUInt16) := by
  refine scans_instr ?_
  obtain ⟨h1, h2, h3, h4, h5, h6, h7, h8, h9, h10, h11, h12⟩ := shortStore_facts op hop i
  simp only [scanOperands, h1, h2, h3, h4, h5, h6, h7, h8, h9, h10, h11, h12, decide_false,
    Bool.or_self, Bool.false_eq_true, if_false, if_true]
  exact .pure _ _

theorem scans_bipush (n : Int8) :
    Scans (scanInstr ctx length) o (Opcode.bipush :: Bytes.i8 n)
      (.int Opcode.bipush n.toInt32) :=
  scans_instr ((scans_i8 n (o + 1)).map fun (n : Int8) => Instr.int Opcode.bipush n.toInt32)

theorem scans_sipush (n : Int16) :
    Scans (scanInstr ctx length) o (Opcode.sipush :: Bytes.i16 n)
      (.int Opcode.sipush n.toInt32) :=
  scans_instr ((scans_i16 n (o + 1)).map fun (n : Int16) => Instr.int Opcode.sipush n.toInt32)

theorem scans_newarray (n : UInt8) :
    Scans (scanInstr ctx length) o [Opcode.newarray, n]
      (.int Opcode.newarray n.toUInt32.toInt32) :=
  scans_instr ((scans_u8 n (o + 1)).map fun (n : UInt8) =>
    Instr.int Opcode.newarray n.toUInt32.toInt32)

theorem scans_increment (i : UInt8) (n : Int8) :
    Scans (scanInstr ctx length) o (Opcode.iinc :: i :: Bytes.i8 n)
      (.increment i.toUInt16 n.toInt16) :=
  scans_instr ((scans_u8 i (o + 1)).bind
    ((scans_i8 n _).map fun n => Instr.increment i.toUInt16 n.toInt16))

theorem scans_wideIncrement (i : UInt16) (n : Int16) :
    Scans (scanInstr ctx length) o
      (Opcode.wide :: Opcode.iinc :: (Bytes.u16 i ++ Bytes.i16 n)) (.increment i n) :=
  scans_instr ((scans_u8 Opcode.iinc (o + 1)).bind
    ((scans_u16 i _).bind ((scans_i16 n _).map fun n => Instr.increment i n)))

/-! ## Constants -/

theorem scans_load {i : UInt8} {c : Loadable} (hc : ctx.pool.loadable i.toUInt16 = .ok c) :
    Scans (scanInstr ctx length) o [Opcode.ldc, i] (.load c) :=
  scans_instr ((scans_u8 i (o + 1)).bind
    ((scans_ofResult hc).map fun c => Instr.load c))

/-- The long forms of a load. -/
theorem scans_wideLoad {op : UInt8} {i : UInt16} {c : Loadable}
    (hop : op = Opcode.ldc_w ∨ op = Opcode.ldc2_w) (hc : ctx.pool.loadable i = .ok c) :
    Scans (scanInstr ctx length) o (op :: Bytes.u16 i) (.load c) := by
  have hload : Scans (do return Instr.load (← ofResult (ctx.pool.loadable (← u16)))) (o + 1)
      (Bytes.u16 i ++ []) (Instr.load c : Instr Nat) :=
    (scans_u16 i (o + 1)).bind ((scans_ofResult hc).map fun c => Instr.load c)
  rw [List.append_nil] at hload
  rcases hop with rfl | rfl
  · exact scans_instr hload
  · exact scans_instr hload

/-! ## Members, classes and call sites -/

theorem member_facts : ∀ op : UInt8,
    Opcode.within Opcode.getstatic Opcode.invokeinterface op = true →
    Opcode.isPlain op = false ∧ op ≠ Opcode.bipush ∧ op ≠ Opcode.sipush ∧ op ≠ Opcode.newarray ∧
      op ≠ Opcode.ldc ∧ op ≠ Opcode.ldc_w ∧ op ≠ Opcode.ldc2_w ∧
      (Opcode.isLoad op || Opcode.isStore op || op == Opcode.ret) = false ∧
      Opcode.isShortLoad op = false ∧ Opcode.isShortStore op = false ∧ op ≠ Opcode.iinc ∧
      op ≠ Opcode.wide ∧
      (Opcode.within Opcode.ifeq Opcode.jsr op || Opcode.isNullTest op) = false ∧
      op ≠ Opcode.goto_w ∧ op ≠ Opcode.jsr_w ∧ op ≠ Opcode.tableswitch ∧
      op ≠ Opcode.lookupswitch :=
  forall_u8 (by decide +kernel)

theorem field_facts : ∀ op : UInt8, Opcode.within Opcode.getstatic Opcode.putfield op = true →
    Opcode.within Opcode.getstatic Opcode.invokeinterface op = true :=
  forall_u8 (by decide +kernel)

theorem method_facts : ∀ op : UInt8,
    Opcode.within Opcode.invokevirtual Opcode.invokeinterface op = true →
    Opcode.within Opcode.getstatic Opcode.invokeinterface op = true ∧
      Opcode.within Opcode.getstatic Opcode.putfield op = false :=
  forall_u8 (by decide +kernel)

theorem scans_field {op : UInt8} {i : PoolIndex} {m : MemberRef} {isInterface : Bool}
    (hop : Opcode.within Opcode.getstatic Opcode.putfield op)
    (hm : ctx.pool.memberRef i = .ok (m, isInterface)) :
    Scans (scanInstr ctx length) o (op :: Bytes.u16 i) (.field op m) := by
  refine scans_instr ?_
  obtain ⟨h1, h2, h3, h4, h5, h6, h7, h8, h9, h10, h11, h12, h13, h14, h15, h16, h17⟩ :=
    member_facts op (field_facts op hop)
  simp only [scanOperands, h1, h2, h3, h4, h5, h6, h7, h8, h9, h10, h11, h12, h13, h14, h15, h16,
    h17, hop, decide_false, Bool.or_self, Bool.false_eq_true, if_false, if_true]
  rw [← List.append_nil (Bytes.u16 i)]
  exact (scans_u16 i (o + 1)).bind
    ((scans_ofResult hm).map fun (p : MemberRef × Bool) => (Instr.field op p.1 : Instr Nat))

theorem scans_method {op : UInt8} {i : PoolIndex} {m : MemberRef} {isInterface : Bool}
    {tail : List UInt8} (hop : Opcode.within Opcode.invokevirtual Opcode.invokeinterface op)
    (htail : Piece.callTail op m.descriptor = .ok tail)
    (hm : ctx.pool.memberRef i = .ok (m, isInterface)) :
    Scans (scanInstr ctx length) o (op :: (Bytes.u16 i ++ tail)) (.method op m isInterface) := by
  refine scans_instr ?_
  obtain ⟨hmember, hfield⟩ := method_facts op hop
  obtain ⟨h1, h2, h3, h4, h5, h6, h7, h8, h9, h10, h11, h12, h13, h14, h15, h16, h17⟩ :=
    member_facts op hmember
  simp only [scanOperands, h1, h2, h3, h4, h5, h6, h7, h8, h9, h10, h11, h12, h13, h14, h15, h16,
    h17, hfield, hop, decide_false, Bool.or_self, Bool.false_eq_true, if_false, if_true]
  refine (scans_u16 i (o + 1)).bind ?_
  have hread : ∀ o', Scans (ofResult (ctx.pool.memberRef i) >>= fun p =>
      Pure.pure (Instr.method op p.1 p.2)) o' [] (Instr.method op m isInterface : Instr Nat) :=
    fun o' => (scans_ofResult hm).map
      fun (p : MemberRef × Bool) => (Instr.method op p.1 p.2 : Instr Nat)
  by_cases hinterface : op = Opcode.invokeinterface
  · -- two more bytes stand behind the index
    obtain ⟨type, -, htail⟩ : ∃ type, MethodType.parse m.descriptor = .ok type ∧
        Pure.pure [UInt8.ofNat (1 + type.parameterSlots), 0] = (.ok tail : ClassResult _) := by
      rw [Piece.callTail, if_pos hinterface] at htail
      exact bind_eq_ok.mp htail
    obtain rfl := pure_eq_ok.mp htail
    simp only [hinterface, if_true]
    rw [← List.append_nil [UInt8.ofNat (1 + type.parameterSlots), 0]]
    exact (scans_skip [UInt8.ofNat (1 + type.parameterSlots), 0] _).bind (hinterface ▸ hread _)
  · rw [Piece.callTail, if_neg hinterface] at htail
    obtain rfl := pure_eq_ok.mp htail
    simp only [hinterface, if_false]
    exact hread _

theorem scans_class {op : UInt8} {i : PoolIndex} {cls : String}
    (hop : op = Opcode.new ∨ op = Opcode.anewarray ∨ op = Opcode.checkcast ∨
      op = Opcode.instanceof)
    (hcls : ctx.pool.className i = .ok cls) :
    Scans (scanInstr ctx length) o (op :: Bytes.u16 i) (.type op cls) := by
  have hclass : Scans (scanClass ctx) (o + 1) (Bytes.u16 i ++ []) cls :=
    (scans_u16 i (o + 1)).bind (scans_ofResult hcls)
  rw [List.append_nil] at hclass
  rcases hop with rfl | rfl | rfl | rfl
  all_goals exact scans_instr (hclass.map fun cls => Instr.type _ cls)

theorem scans_multiArray {i : PoolIndex} {cls : String} {n : UInt8}
    (hcls : ctx.pool.className i = .ok cls) :
    Scans (scanInstr ctx length) o (Opcode.multianewarray :: (Bytes.u16 i ++ [n]))
      (.newMultiArray cls n) := by
  rw [← List.append_nil [n]]
  exact scans_instr ((scans_u16 i (o + 1)).bind ((scans_u8 n _).bind
    ((scans_ofResult hcls).map fun cls => Instr.newMultiArray cls n)))

theorem scans_callSite {i : PoolIndex} {site : CallSite} (hsite : callSite ctx i = .ok site) :
    Scans (scanInstr ctx length) o (Opcode.invokedynamic :: (Bytes.u16 i ++ [0, 0]))
      (.invokeDynamic site) := by
  rw [← List.append_nil [(0 : UInt8), 0]]
  exact scans_instr ((scans_u16 i (o + 1)).bind ((scans_skip [0, 0] _).bind
    ((scans_ofResult hsite).map fun site => Instr.invokeDynamic site)))

/-! ## Jumps and switches -/

theorem jump_facts : ∀ op : UInt8,
    (Opcode.within Opcode.ifeq Opcode.jsr op || Opcode.isNullTest op) = true →
    Opcode.isPlain op = false ∧ op ≠ Opcode.bipush ∧ op ≠ Opcode.sipush ∧ op ≠ Opcode.newarray ∧
      op ≠ Opcode.ldc ∧ op ≠ Opcode.ldc_w ∧ op ≠ Opcode.ldc2_w ∧
      (Opcode.isLoad op || Opcode.isStore op || op == Opcode.ret) = false ∧
      Opcode.isShortLoad op = false ∧ Opcode.isShortStore op = false ∧ op ≠ Opcode.iinc ∧
      op ≠ Opcode.wide :=
  forall_u8 (by decide +kernel)

/-- A jump in its short form. -/
theorem scans_jump {op : UInt8} {t : Nat}
    (hop : Opcode.within Opcode.ifeq Opcode.jsr op || Opcode.isNullTest op) (ht : t < length)
    (hlow : -32768 ≤ (t : Int) - o) (hhigh : (t : Int) - o < 32768) :
    Scans (scanInstr ctx length) o (op :: Bytes.i16 (Int16.ofInt ((t : Int) - o)))
      (.jump op t) := by
  refine scans_instr ?_
  obtain ⟨h1, h2, h3, h4, h5, h6, h7, h8, h9, h10, h11, h12⟩ := jump_facts op hop
  simp only [scanOperands, h1, h2, h3, h4, h5, h6, h7, h8, h9, h10, h11, h12, hop, decide_false,
    Bool.or_self, Bool.false_eq_true, if_false, if_true]
  have hresult : jumpTarget length o (Int16.ofInt ((t : Int) - o)).toInt = .ok t := by
    rw [Int16.toInt_ofInt_of_le (by omega) (by omega)]
    exact jumpTarget_distance ht
  rw [← List.append_nil (Bytes.i16 _)]
  exact (scans_i16 _ (o + 1)).bind ((scans_ofResult hresult).map fun t => Instr.jump op t)

theorem scans_wideGoto {t : Nat} (ht : t < length) (hlength : length ≤ 65535) (ho : o ≤ 65535) :
    Scans (scanInstr ctx length) o (Opcode.goto_w :: distance t o) (.jump Opcode.goto t) :=
  scans_instr ((scans_distance ht hlength ho (o + 1)).map fun t => Instr.jump Opcode.goto t)

theorem scans_wideJsr {t : Nat} (ht : t < length) (hlength : length ≤ 65535) (ho : o ≤ 65535) :
    Scans (scanInstr ctx length) o (Opcode.jsr_w :: distance t o) (.jump Opcode.jsr t) :=
  scans_instr ((scans_distance ht hlength ho (o + 1)).map fun t => Instr.jump Opcode.jsr t)

theorem scans_padding (o' : Nat) : Scans (skip (switchPadding o)) o' (paddingBytes o) () := by
  have := scans_skip (paddingBytes o) o'
  rwa [paddingBytes, List.length_replicate] at this

theorem scans_tableSwitch {low high : Int32} {d : Nat} {ts : List Nat}
    (hlength : length ≤ 65535) (ho : o ≤ 65535) (hd : d < length) (hts : ∀ t ∈ ts, t < length)
    (hle : low ≤ high) (hcount : high.toInt - low.toInt + 1 = ts.length) :
    Scans (scanInstr ctx length) o
      (Opcode.tableswitch :: (paddingBytes o ++ (distance d o ++ (Bytes.i32 low ++
        (Bytes.i32 high ++ ts.flatMap fun t => distance t o)))))
      (.tableSwitch low high d ts) := by
  refine scans_instr ((scans_padding _).bind ((scans_distance hd hlength ho _).bind
    ((scans_i32 low _).bind ((scans_i32 high _).bind ?_))))
  have hlt : ¬ high < low := by
    rw [Int32.lt_iff_toInt_lt]
    rw [Int32.le_iff_toInt_le] at hle
    omega
  rw [if_neg hlt, show (high.toInt - low.toInt + 1).toNat = ts.length by omega]
  have htargets : ∀ o', Scans (times ts.length (scanTarget length o)) o'
      (ts.flatMap fun t => distance t o) ts := by
    intro o'
    have htarget : ∀ t ∈ ts, ∀ o', Scans (scanTarget length o) o' (distance t o) (id t) :=
      fun t ht o' => scans_distance (hts t ht) hlength ho o'
    have := scans_times (o := o') htarget
    rwa [List.map_id] at this
  exact (htargets _).map fun ts => Instr.tableSwitch low high d ts

theorem toInt_toInt32 {n : Nat} (hn : n < 2 ^ 31) : (UInt32.ofNat n).toInt32.toInt = n := by
  show (BitVec.ofNat 32 n).toInt = n
  rw [BitVec.toInt_ofNat', Int.bmod_eq_of_le (by omega) (by omega)]

theorem scans_lookupSwitch {d : Nat} {ps : List (Int32 × Nat)} (hlength : length ≤ 65535)
    (ho : o ≤ 65535) (hd : d < length) (hps : ∀ p ∈ ps, p.2 < length)
    (hcount : ps.length < 2 ^ 31) :
    Scans (scanInstr ctx length) o
      (Opcode.lookupswitch :: (paddingBytes o ++ (distance d o ++
        (Bytes.u32 (UInt32.ofNat ps.length) ++
          ps.flatMap fun p => Bytes.i32 p.1 ++ distance p.2 o))))
      (.lookupSwitch d ps) := by
  have hn := toInt_toInt32 hcount
  have hpairs : ∀ o', Scans (times ps.length (scanPair length o)) o'
      (ps.flatMap fun p => Bytes.i32 p.1 ++ distance p.2 o) ps := by
    intro o'
    have hpair : ∀ p ∈ ps, ∀ o', Scans (scanPair length o) o'
        (Bytes.i32 p.1 ++ distance p.2 o) (id p) := fun p hp o' =>
      (scans_i32 p.1 o').bind ((scans_distance (hps p hp) hlength ho _).map fun t => (p.1, t))
    have := scans_times (o := o') hpair
    rwa [List.map_id] at this
  have hrest : ∀ o', Scans (do
      let count ← i32
      if count < 0 then throw (.malformed (.switchCount o))
      else return Instr.lookupSwitch d (← times count.toInt.toNat (scanPair length o))) o'
      (Bytes.u32 (UInt32.ofNat ps.length) ++
        ps.flatMap fun p => Bytes.i32 p.1 ++ distance p.2 o) (.lookupSwitch d ps) := by
    intro o'
    refine (scans_i32 (UInt32.ofNat ps.length).toInt32 o').bind ?_
    have hpos : ¬ (UInt32.ofNat ps.length).toInt32 < 0 := by
      rw [Int32.lt_iff_toInt_lt, hn]
      exact Int.not_lt.mpr (Int.natCast_nonneg _)
    rw [if_neg hpos, hn, Int.toNat_natCast]
    exact (hpairs _).map fun ps => Instr.lookupSwitch d ps
  exact scans_instr ((scans_padding _).bind ((scans_distance hd hlength ho _).bind (hrest _)))

end ClassWeave.Code
