import ClassWeave.Proofs.Scanning

/-!
# Instructions in their settled form

`Instr.Settled` says which pieces may stand for an instruction once its constants have indices;
encoding gives such pieces, and they stay what they are while more constants are added. Those
without a target are read back as the instruction.
-/

namespace ClassWeave
namespace Instr

variable {τ : Type}

/-- The forms that instructions are built in: each opcode has the operands that it takes in
bytecode, jumps come in their short form, and constants can be told from their entries in a pool. -/
def Documented (p : Pool) : Instr τ → Prop
  | plain op => Opcode.isPlain op
  | int op _ => op = Opcode.bipush ∨ op = Opcode.sipush ∨ op = Opcode.newarray
  | type op _ =>
    op = Opcode.new ∨ op = Opcode.anewarray ∨ op = Opcode.checkcast ∨ op = Opcode.instanceof
  | var op _ => Code.isAccess op
  | field op _ => Opcode.within Opcode.getstatic Opcode.putfield op
  | method op _ _ => Opcode.within Opcode.invokevirtual Opcode.invokeinterface op
  | load c => c.Plain p
  | jump op _ => Opcode.within Opcode.ifeq Opcode.jsr op || Opcode.isNullTest op
  | invokeDynamic site => site.Plain p
  | increment .. | tableSwitch .. | lookupSwitch .. | newMultiArray .. => True

theorem Documented.extends {p q : Pool} {i : Instr τ} (h : p.Extends q) (hi : i.Documented p) :
    i.Documented q := by
  cases i with
  | load => exact Loadable.Plain.extends h hi
  | invokeDynamic => exact ⟨hi.bootstrap, fun c hc => (hi.arguments c hc).extends h⟩
  | _ => exact hi

open Code in
/-- The piece stands for the instruction. -/
def Settled (s : Links) : Instr Label → Piece → Prop
  | plain op, piece => piece = .bytes [op]
  | int op n, piece => Piece.ofInt op n = .ok piece
  | type op cls, piece => ∃ i, piece = .withShort op i [] ∧ s.pool.className i = .ok cls
  | var op i, piece => piece = .ofVar op i
  | increment i n, piece => piece = .ofIncrement i n
  | field op m, piece => ∃ i, piece = .withShort op i [] ∧ s.pool.memberRef i = .ok (m, false)
  | method op m isInterface, piece => ∃ i tail, piece = .withShort op i tail ∧
      Piece.callTail op m.descriptor = .ok tail ∧ s.pool.memberRef i = .ok (m, isInterface)
  | load c, piece => ∃ isWide i, piece = .ofLoad isWide i ∧ c.At s.pool i
  | jump op t, piece => piece = .jump op t
  | tableSwitch low high d ts, piece => piece = .tableSwitch low high d ts ∧ low ≤ high ∧
      high.toInt - low.toInt + 1 = ts.length
  | lookupSwitch d ps, piece => piece = .lookupSwitch d (ps.mergeSort fun a b => a.1 ≤ b.1)
  | newMultiArray cls n, piece => ∃ i, piece = .withShort Opcode.multianewarray i [n] ∧
      s.pool.className i = .ok cls
  | invokeDynamic site, piece => ∃ i, piece = .withShort Opcode.invokedynamic i [0, 0] ∧
      site.At s i

theorem Settled.extends {s t : Links} {i : Instr Label} {piece : Code.Piece} (h : s.Extends t)
    (hi : i.Settled s piece) : i.Settled t piece := by
  cases i with
  | type | newMultiArray =>
    obtain ⟨j, hpiece, hcls⟩ := hi
    exact ⟨j, hpiece, h.pool.className hcls⟩
  | field =>
    obtain ⟨j, hpiece, hm⟩ := hi
    exact ⟨j, hpiece, h.pool.memberRef hm⟩
  | method =>
    obtain ⟨j, tail, hpiece, htail, hm⟩ := hi
    exact ⟨j, tail, hpiece, htail, h.pool.memberRef hm⟩
  | load =>
    obtain ⟨isWide, j, hpiece, hc⟩ := hi
    exact ⟨isWide, j, hpiece, hc.extends h.pool⟩
  | invokeDynamic =>
    obtain ⟨j, hpiece, hsite⟩ := hi
    exact ⟨j, hpiece, hsite.extends h⟩
  | _ => exact hi

/-- The shapes of pieces that stand for instructions: those with targets keep them, all others are
bytes. -/
inductive Shape (s : Links) : Instr Label → Code.Piece → Prop
  | jump (op : UInt8) (t : Label) : Shape s (.jump op t) (.jump op t)
  | tableSwitch {low high : Int32} {d : Label} {ts : List Label} (hle : low ≤ high)
      (hcount : high.toInt - low.toInt + 1 = ts.length) :
      Shape s (.tableSwitch low high d ts) (.tableSwitch low high d ts)
  | lookupSwitch (d : Label) (ps : List (Int32 × Label)) :
      Shape s (.lookupSwitch d ps) (.lookupSwitch d (ps.mergeSort fun a b => a.1 ≤ b.1))
  | bytes {i : Instr Label} {bs : List UInt8} (htargets : i.targets = [])
      (hi : i.Settled s (.bytes bs)) : Shape s i (.bytes bs)

open Code in
theorem Settled.shape {s : Links} {i : Instr Label} {piece : Piece} (hi : i.Settled s piece) :
    Shape s i piece := by
  have ofBytes : i.targets = [] → (∃ bs, piece = .bytes bs) → Shape s i piece := by
    rintro ht ⟨bs, rfl⟩
    exact .bytes ht hi
  cases i with
  | jump op t =>
    obtain rfl : piece = .jump op t := hi
    exact .jump op t
  | tableSwitch low high d ts =>
    obtain ⟨rfl, hle, hcount⟩ := hi
    exact .tableSwitch hle hcount
  | lookupSwitch d ps =>
    obtain rfl : piece = .lookupSwitch d _ := hi
    exact .lookupSwitch d ps
  | plain op => exact ofBytes rfl ⟨_, hi⟩
  | int op n =>
    refine ofBytes rfl ?_
    unfold Settled Piece.ofInt at hi
    simp only at hi
    split at hi
    · split at hi
      · exact ⟨_, (Except.ok.inj hi).symm⟩
      · cases hi
    · split at hi
      · split at hi
        · exact ⟨_, (Except.ok.inj hi).symm⟩
        · cases hi
      · split at hi
        · exact ⟨_, (Except.ok.inj hi).symm⟩
        · cases hi
  | var op i =>
    obtain rfl : piece = .ofVar op i := hi
    refine ofBytes rfl ?_
    unfold Piece.ofVar
    split
    · exact ⟨_, rfl⟩
    · split <;> exact ⟨_, rfl⟩
  | increment i n =>
    obtain rfl : piece = .ofIncrement i n := hi
    refine ofBytes rfl ?_
    unfold Piece.ofIncrement
    split <;> exact ⟨_, rfl⟩
  | load c =>
    obtain ⟨isWide, j, rfl, -⟩ := hi
    refine ofBytes rfl ?_
    unfold Piece.ofLoad
    split
    · exact ⟨_, rfl⟩
    · split <;> exact ⟨_, rfl⟩
  | type | field | newMultiArray | invokeDynamic =>
    obtain ⟨_, rfl, -⟩ := id hi
    exact ofBytes rfl ⟨_, rfl⟩
  | method =>
    obtain ⟨_, _, rfl, -⟩ := id hi
    exact ofBytes rfl ⟨_, rfl⟩

end Instr

/-- The piece stands for the entry. -/
def Node.Settled (s : Links) : Node → Code.Piece → Prop
  | .instr i, piece => i.Settled s piece
  | .label l, piece => piece = .label l
  | .line n, piece => piece = .line n

theorem Node.Settled.extends {s t : Links} {n : Node} {piece : Code.Piece} (h : s.Extends t)
    (hn : n.Settled s piece) : n.Settled t piece := by
  cases n with
  | instr => exact Instr.Settled.extends h hn
  | _ => exact hn

namespace Code.Piece

open Linking

/-- Settling an instruction gives a piece that stands for it. -/
theorem gives_ofInstr (i : Instr Label) : Gives (ofInstr i) fun s piece => i.Settled s piece := by
  cases i with
  | plain | var | increment | jump | lookupSwitch => exact .pure fun _ _ => rfl
  | int op n => exact gives_ofResult _
  | type op cls =>
    exact (gives_ofInterning (Interning.gives_cls cls)).bind
      (fun h hcls => h.pool.className hcls) fun i => .pure fun _ _ hcls => ⟨i, rfl, hcls⟩
  | field op m =>
    exact (gives_ofInterning (Interning.gives_fieldRef m)).bind
      (fun h hm => h.pool.memberRef hm) fun i => .pure fun _ _ hm => ⟨i, rfl, hm⟩
  | method op m isInterface =>
    exact (gives_ofInterning (Interning.gives_methodRef m isInterface)).bind
      (fun h hm => h.pool.memberRef hm) fun i =>
        (gives_ofResult _).bind (fun _ htail => htail) fun tail =>
          .pure fun _ _ htail hm => ⟨i, tail, rfl, htail, hm⟩
  | load c =>
    refine (gives_ofInterning (Interning.gives_loadable c)).bind
      (fun h hc => hc.extends h.pool) fun i => ?_
    -- the pool may go on to grow, so nothing is kept of how wide the constant is in it
    have hwide : Gives (ofInterning (.ofPool (·.isWide c))) fun _ _ => True :=
      (gives_ofInterning (Interning.gives_ofPool (·.isWide c))).imp fun _ _ => trivial
    exact hwide.bind (fun _ _ => trivial) fun isWide => .pure fun _ _ _ hc => ⟨isWide, i, rfl, hc⟩
  | tableSwitch low high d ts =>
    simp only [ofInstr]
    by_cases hrange : low ≤ high ∧ high.toInt - low.toInt + 1 = ts.length
    · rw [if_pos hrange]
      exact .pure fun _ _ => ⟨rfl, hrange⟩
    · rw [if_neg hrange]
      exact .throw
  | newMultiArray cls n =>
    exact (gives_ofInterning (Interning.gives_cls cls)).bind
      (fun h hcls => h.pool.className hcls) fun i => .pure fun _ _ hcls => ⟨i, rfl, hcls⟩
  | invokeDynamic site =>
    exact (gives_callSite site).bind CallSite.At.extends fun i =>
      .pure fun _ _ hsite => ⟨i, rfl, hsite⟩

theorem gives_ofNode (n : Node) : Gives (ofNode n) fun s piece => n.Settled s piece := by
  cases n with
  | instr i => exact gives_ofInstr i
  | _ => exact .pure fun _ _ => rfl

end Code.Piece

/-! ## Reading pieces without targets back -/

namespace Code

open Scanner

variable {s : Links} {length o : Nat} {bs : List UInt8}

theorem ofByte_toUInt16 {i : UInt16} (hi : i ≤ 255) : i.toUInt8.toUInt16 = i := by
  apply UInt16.toNat_inj.mp
  have : i.toNat ≤ 255 := hi
  simp
  omega

theorem scans_ofInt {op : UInt8} {n : Int32}
    (hop : op = Opcode.bipush ∨ op = Opcode.sipush ∨ op = Opcode.newarray)
    (hn : Piece.ofInt op n = .ok (.bytes bs)) :
    Scans (scanInstr s.context length) o bs (.int op n) := by
  unfold Piece.ofInt at hn
  rcases hop with rfl | rfl | rfl
  · simp only [if_true] at hn
    split at hn
    · rename_i hrange
      have hback : n.toInt8.toInt32 = n := by
        apply Int32.toInt_inj.mp
        rw [Int8.toInt_toInt32, Int32.toInt_toInt8, Int.bmod_eq_of_le (by omega) (by omega)]
      have hscan : Scans (scanInstr s.context length) o _ _ := scans_bipush n.toInt8
      rw [hback] at hscan
      obtain rfl := Piece.bytes.inj (Except.ok.inj hn)
      exact hscan
    · cases hn
  · rw [if_neg (by decide)] at hn
    simp only [if_true] at hn
    split at hn
    · rename_i hrange
      have hback : n.toInt16.toInt32 = n := by
        apply Int32.toInt_inj.mp
        rw [Int16.toInt_toInt32, Int32.toInt_toInt16, Int.bmod_eq_of_le (by omega) (by omega)]
      have hscan : Scans (scanInstr s.context length) o _ _ := scans_sipush n.toInt16
      rw [hback] at hscan
      obtain rfl := Piece.bytes.inj (Except.ok.inj hn)
      rw [List.append_nil]
      exact hscan
    · cases hn
  · rw [if_neg (by decide), if_neg (by decide)] at hn
    split at hn
    · rename_i hrange
      have hback : (UInt8.ofNat n.toInt.toNat).toUInt32.toInt32 = n := by
        apply Int32.toInt_inj.mp
        have : (UInt8.ofNat n.toInt.toNat).toUInt32 = UInt32.ofNat n.toInt.toNat := by
          apply UInt32.toNat_inj.mp
          rw [UInt8.toNat_toUInt32, UInt8.toNat_ofNat', UInt32.toNat_ofNat',
            Nat.mod_eq_of_lt (by omega), Nat.mod_eq_of_lt (by omega)]
        rw [this, toInt_toInt32 (by omega)]
        omega
      have hscan : Scans (scanInstr s.context length) o _ _ :=
        scans_newarray (UInt8.ofNat n.toInt.toNat)
      rw [hback] at hscan
      obtain rfl := Piece.bytes.inj (Except.ok.inj hn)
      exact hscan
    · cases hn

theorem scans_ofVar {op : UInt8} {i : UInt16} (hop : isAccess op)
    (hbs : .bytes bs = Piece.ofVar op i) :
    Scans (scanInstr s.context length) o bs (.var op i) := by
  unfold Piece.ofVar at hbs
  split at hbs
  · -- one of the first four variables
    rename_i hshort
    obtain rfl := Piece.bytes.inj hbs
    have hi : i.toNat < 4 := by
      have : i.toNat ≤ 3 := hshort.1
      omega
    have hbyte : i.toUInt8 = UInt8.ofNat (⟨i.toNat, hi⟩ : Fin 4) := rfl
    have hvar : (UInt8.ofNat (⟨i.toNat, hi⟩ : Fin 4)).toUInt16 = i := by
      rw [← hbyte]
      refine ofByte_toUInt16 ?_
      show i.toNat ≤ 255
      omega
    rw [isAccess, Bool.or_eq_true, Bool.or_eq_true] at hop
    rw [hbyte]
    rcases hop with (hload | hstore) | hret
    · have hscan : Scans (scanInstr s.context length) o _ _ :=
        scans_shortLoad hload ⟨i.toNat, hi⟩
      rwa [hvar] at hscan
    · have hscan : Scans (scanInstr s.context length) o _ _ :=
        scans_shortStore hstore ⟨i.toNat, hi⟩
      rwa [hvar] at hscan
    · exact absurd (eq_of_beq hret) hshort.2
  · split at hbs
    · rename_i hi
      obtain rfl := Piece.bytes.inj hbs
      have hscan : Scans (scanInstr s.context length) o _ _ := scans_access (n := i.toUInt8) hop
      rwa [ofByte_toUInt16 hi] at hscan
    · obtain rfl := Piece.bytes.inj hbs
      exact scans_wideAccess hop

theorem scans_ofIncrement {i : UInt16} {n : Int16} (hbs : .bytes bs = Piece.ofIncrement i n) :
    Scans (scanInstr s.context length) o bs (.increment i n) := by
  unfold Piece.ofIncrement at hbs
  split at hbs
  · rename_i hshort
    have hback : n.toInt8.toInt16 = n := by
      apply Int16.toInt_inj.mp
      rw [Int8.toInt_toInt16, Int16.toInt_toInt8,
        Int.bmod_eq_of_le (by omega) (by omega)]
    have hscan : Scans (scanInstr s.context length) o _ _ := scans_increment i.toUInt8 n.toInt8
    rw [hback, ofByte_toUInt16 hshort.1] at hscan
    obtain rfl := Piece.bytes.inj hbs
    exact hscan
  · obtain rfl := Piece.bytes.inj hbs
    exact scans_wideIncrement i n

theorem scans_ofLoad {isWide : Bool} {i : PoolIndex} {c : Loadable}
    (hc : s.pool.loadable i = .ok c) (hbs : .bytes bs = Piece.ofLoad isWide i) :
    Scans (scanInstr s.context length) o bs (.load c) := by
  unfold Piece.ofLoad Piece.withShort at hbs
  rw [List.append_nil] at hbs
  split at hbs
  · obtain rfl := Piece.bytes.inj hbs
    exact scans_wideLoad (.inr rfl) hc
  · split at hbs
    · rename_i hi
      obtain rfl := Piece.bytes.inj hbs
      refine scans_load ?_
      rw [ofByte_toUInt16 hi]
      exact hc
    · obtain rfl := Piece.bytes.inj hbs
      exact scans_wideLoad (.inl rfl) hc

/-- A piece without targets is read back as the instruction that it stands for. -/
theorem scans_settled {i : Instr Label} (hi : i.Settled s (.bytes bs))
    (hdoc : i.Documented s.pool) (f : Label → Nat) :
    Scans (scanInstr s.context length) o bs (i.map f) := by
  cases i with
  | plain op =>
    obtain rfl := Piece.bytes.inj hi
    exact scans_plain hdoc
  | int op n => exact scans_ofInt hdoc hi
  | type op cls =>
    obtain ⟨j, hpiece, hcls⟩ := hi
    obtain rfl := Piece.bytes.inj hpiece
    rw [List.append_nil]
    exact scans_class hdoc hcls
  | var op i => exact scans_ofVar hdoc hi
  | increment i n => exact scans_ofIncrement hi
  | field op m =>
    obtain ⟨j, hpiece, hm⟩ := hi
    obtain rfl := Piece.bytes.inj hpiece
    rw [List.append_nil]
    exact scans_field hdoc hm
  | method op m isInterface =>
    obtain ⟨j, tail, hpiece, htail, hm⟩ := hi
    obtain rfl := Piece.bytes.inj hpiece
    exact scans_method hdoc htail hm
  | load c =>
    obtain ⟨isWide, j, hpiece, hc⟩ := hi
    exact scans_ofLoad (hc.loadable hdoc) hpiece
  | jump | lookupSwitch => cases hi
  | tableSwitch => cases hi.1
  | newMultiArray cls n =>
    obtain ⟨j, hpiece, hcls⟩ := hi
    obtain rfl := Piece.bytes.inj hpiece
    exact scans_multiArray hcls
  | invokeDynamic site =>
    obtain ⟨j, hpiece, hsite⟩ := hi
    obtain rfl := Piece.bytes.inj hpiece
    exact scans_callSite (hsite.callSite hdoc)

/-- An instruction takes up at least one byte. -/
theorem Scanner.Scans.ne_nil {i : Instr Nat} {ctx : Context}
    (h : Scans (scanInstr ctx length) o bs i) : bs ≠ [] := by
  rintro rfl
  cases h []

theorem width_pos {i : Instr Label} {slot : Slot} (hi : i.Settled s slot.piece)
    (hdoc : i.Documented s.pool) (o : Nat) : 0 < slot.width o := by
  obtain ⟨piece, wide⟩ := slot
  cases Instr.Settled.shape hi with
  | jump =>
    simp only [Slot.width]
    split
    · split <;> decide
    · decide
  | tableSwitch | lookupSwitch =>
    simp only [Slot.width]
    omega
  | bytes htargets hbytes =>
    have hscan : Scans (scanInstr s.context 0) 0 _ _ := scans_settled hbytes hdoc Label.id
    exact List.length_pos_of_ne_nil hscan.ne_nil

end Code
end ClassWeave
