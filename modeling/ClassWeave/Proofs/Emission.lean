import ClassWeave.Proofs.Spelling

/-!
# Reading back what was written down

The bytes that encoding writes down for a list are read back as the instructions of the list as it
is spelled out, each at its offset, with offsets in place of labels.
-/

namespace ClassWeave.Code

open Scanner Listing

/-- From an offset on, the bytes hold these instructions one behind the other. -/
inductive Scanned (ctx : Context) (length : Nat) :
    Nat → List UInt8 → List (Nat × Instr Nat) → Prop
  | nil (o : Nat) : Scanned ctx length o [] []
  | cons {o : Nat} {bs cs : List UInt8} {i : Instr Nat} {found : List (Nat × Instr Nat)}
      (h : Scans (scanInstr ctx length) o bs i) (hrest : Scanned ctx length (o + bs.length) cs found) :
      Scanned ctx length o (bs ++ cs) ((o, i) :: found)

namespace Scanned

variable {ctx : Context} {length o : Nat} {bs cs : List UInt8} {i : Instr Nat}
  {found found' : List (Nat × Instr Nat)}

theorem single (h : Scans (scanInstr ctx length) o bs i) : Scanned ctx length o bs [(o, i)] := by
  have := cons h (.nil _)
  rwa [List.append_nil] at this

theorem append (h : Scanned ctx length o bs found)
    (h' : Scanned ctx length (o + bs.length) cs found') :
    Scanned ctx length o (bs ++ cs) (found ++ found') := by
  induction h with
  | nil => exact h'
  | @cons o bs cs' i found hi _ ih =>
    rw [List.length_append, ← Nat.add_assoc] at h'
    rw [List.append_assoc, List.cons_append]
    exact .cons hi (ih h')

theorem scanOnto (h : Scanned ctx length o bs found) (fuel : Nat) (hfuel : bs.length ≤ fuel)
    (before : List (Nat × Instr Nat)) :
    scanOnto ctx length fuel before ⟨o, bs⟩ = .ok (before.reverse ++ found) := by
  induction h generalizing fuel before with
  | nil =>
    rw [List.append_nil]
    cases fuel <;> rfl
  | @cons o bs cs i found hi _ ih =>
    have hpos : 0 < bs.length := List.length_pos_of_ne_nil hi.ne_nil
    rw [List.length_append] at hfuel
    cases fuel with
    | zero => omega
    | succ fuel =>
      have hnot : (bs ++ cs).isEmpty = false := by
        cases bs with
        | nil => cases hpos
        | cons => rfl
      have hrun : (scanInstr ctx length).run ⟨o, bs ++ cs⟩ = .ok (i, ⟨o + bs.length, cs⟩) := hi cs
      rw [Code.scanOnto]
      simp only [hnot, Bool.false_eq_true, if_false, hrun]
      rw [ih fuel (by omega) ((o, i) :: before), List.reverse_cons, List.append_assoc]
      rfl

theorem scan (h : Scanned ctx bs.length 0 bs found) : scan ctx bs = .ok found :=
  h.scanOnto bs.length (Nat.le_refl _) []

end Scanned

/-! ## One entry -/

variable {links : Links} {lay : Layout} {length o : Nat} {n : Node} {s : Slot} {skip : Label}
  {bs : List UInt8} {tgt : Label → Nat}

theorem length_paddingBytes (o : Nat) : (paddingBytes o).length = switchPadding o := by
  rw [paddingBytes, List.length_replicate]

theorem length_distance (t o : Nat) : (distance t o).length = 4 := rfl

theorem length_flatMap_const {α : Type} {f : α → List UInt8} {k : Nat} {l : List α}
    (h : ∀ a, (f a).length = k) : (l.flatMap f).length = k * l.length := by
  induction l with
  | nil => rfl
  | cons a l ih =>
    rw [List.flatMap_cons, List.length_append, h, ih, List.length_cons, Nat.mul_succ, Nat.add_comm]

/-- A piece is written down as many bytes as its width tells. -/
theorem length_of_emit {s : Slot} (h : emit lay s o = .ok bs) : bs.length = s.width o := by
  obtain ⟨piece, wide⟩ := s
  cases piece with
  | bytes cs | label | line =>
    obtain rfl := Except.ok.inj h
    rfl
  | jump op t =>
    simp only [emit] at h
    simp only [Slot.width]
    cases wide with
    | false =>
      obtain rfl := Except.ok.inj h
      rfl
    | true =>
      by_cases hgoto : op = Opcode.goto
      · rw [if_pos rfl, if_pos hgoto] at h
        obtain rfl := Except.ok.inj h
        rw [if_pos rfl, if_pos (.inl hgoto)]
        rfl
      · by_cases hjsr : op = Opcode.jsr
        · rw [if_pos rfl, if_neg hgoto, if_pos hjsr] at h
          obtain rfl := Except.ok.inj h
          rw [if_pos rfl, if_pos (.inr hjsr)]
          rfl
        · rw [if_pos rfl, if_neg hgoto, if_neg hjsr] at h
          rw [if_pos rfl, if_neg (not_or.mpr ⟨hgoto, hjsr⟩)]
          cases hinverse : Opcode.invertJump? op with
          | none =>
            rw [hinverse] at h
            cases h
          | some inverse =>
            rw [hinverse] at h
            obtain rfl := Except.ok.inj h
            rfl
  | tableSwitch low high d ts =>
    obtain rfl := Except.ok.inj h
    have hints : (Bytes.i32 low).length = 4 ∧ (Bytes.i32 high).length = 4 := ⟨rfl, rfl⟩
    simp only [List.length_cons, List.length_append, length_paddingBytes, length_distance,
      length_flatMap_const fun t => length_distance (lay.target t) o, Slot.width]
    omega
  | lookupSwitch d ps =>
    obtain rfl := Except.ok.inj h
    have hcount : (Bytes.u32 (UInt32.ofNat ps.length)).length = 4 := rfl
    have hpairs : (ps.flatMap fun p => Bytes.i32 p.1 ++ distance (lay.target p.2) o).length =
        8 * ps.length := length_flatMap_const fun p => rfl
    simp only [List.length_cons, List.length_append, length_paddingBytes, length_distance, hcount,
      hpairs, Slot.width]
    omega

theorem inverse_facts : ∀ op : UInt8, ∀ inverse ∈ Opcode.invertJump? op,
    (Opcode.within Opcode.ifeq Opcode.jsr inverse || Opcode.isNullTest inverse) = true :=
  forall_u8 (by decide +kernel)

/-- What the written form of an entry is read back with. -/
structure Emitted (links : Links) (lay : Layout) (length : Nat) (tgt : Label → Nat)
    (skip : Label) (n : Node) (s : Slot) (o : Nat) : Prop where
  settled : n.Settled links s.piece
  documented : ∀ i, n = .instr i → i.Documented links.pool
  fits : o + s.width o ≤ length
  narrow : ∀ op t, s.piece = .jump op t → s.wide = false →
    -32768 ≤ (lay.target t : Int) - o ∧ (lay.target t : Int) - o < 32768
  targets : ∀ t ∈ n.targets, tgt t = lay.target t ∧ lay.target t < length
  skips : isWideCondition s → tgt skip = o + 8 ∧ o + 8 < length

section jump

variable {op : UInt8} {t : Label} {wide : Bool}

/-- A jump that becomes a detour. -/
theorem Emitted.scanned_detour
    (h : Emitted links lay length tgt skip (.instr (.jump op t)) ⟨.jump op t, wide⟩ o)
    (hlength : length ≤ 65535) (hs : isWideCondition ⟨.jump op t, wide⟩)
    (hemit : emit lay ⟨.jump op t, wide⟩ o = .ok bs) :
    Scanned links.context length o bs
      [(o, .jump ((Opcode.invertJump? op).getD op) (tgt skip)),
        (o + 3, .jump Opcode.goto (tgt t))] ∧ bs.length = 8 := by
  simp only [isWideCondition, Bool.and_eq_true, bne_iff_ne] at hs
  obtain ⟨⟨rfl, hgoto⟩, hjsr⟩ := hs
  obtain ⟨htgt, hlt⟩ := h.targets t List.mem_cons_self
  obtain ⟨hskip, hend⟩ := h.skips (by simp [isWideCondition, hgoto, hjsr])
  simp only [emit, hgoto, hjsr, if_false, if_true] at hemit
  cases hinverse : Opcode.invertJump? op with
  | none =>
    rw [hinverse] at hemit
    cases hemit
  | some inverse =>
    rw [hinverse] at hemit
    obtain rfl := Except.ok.inj hemit
    have hop := inverse_facts op inverse hinverse
    -- the opposite condition goes over the jump behind it
    have hover : Scans (scanInstr links.context length) o
        (inverse :: Bytes.i16 (Int16.ofInt (((o + 8 : Nat) : Int) - o))) (.jump inverse (o + 8)) :=
      scans_jump hop hend (by omega) (by omega)
    have hgap : (((o + 8 : Nat) : Int) - o) = 8 := by omega
    rw [hgap] at hover
    have hjump : Scans (scanInstr links.context length) (o + 3)
        (Opcode.goto_w :: distance (lay.target t) (o + 3)) (.jump Opcode.goto (lay.target t)) :=
      scans_wideGoto hlt hlength (by omega)
    have hboth := Scanned.cons hover (.single hjump)
    rw [hskip, htgt]
    exact ⟨hboth, rfl⟩

/-- A jump that stays one instruction. -/
theorem Emitted.scanned_jump
    (h : Emitted links lay length tgt skip (.instr (.jump op t)) ⟨.jump op t, wide⟩ o)
    (hlength : length ≤ 65535) (hs : isWideCondition ⟨.jump op t, wide⟩ = false)
    (hemit : emit lay ⟨.jump op t, wide⟩ o = .ok bs) :
    Scanned links.context length o bs [(o, .jump op (tgt t))] ∧
      bs.length = Slot.width o ⟨.jump op t, wide⟩ := by
  obtain ⟨htgt, hlt⟩ := h.targets t List.mem_cons_self
  have hfits := h.fits
  rw [htgt]
  cases wide with
  | false =>
    obtain rfl := Except.ok.inj hemit
    obtain ⟨hlow, hhigh⟩ := h.narrow op t rfl rfl
    exact ⟨.single (scans_jump (h.documented _ rfl) hlt hlow hhigh), rfl⟩
  | true =>
    have hcase : op = Opcode.goto ∨ op = Opcode.jsr := by
      by_contra hnot
      rw [not_or] at hnot
      simp [isWideCondition, hnot.1, hnot.2] at hs
    rcases hcase with rfl | rfl
    · obtain rfl := Except.ok.inj hemit
      exact ⟨.single (scans_wideGoto hlt hlength (by omega)), rfl⟩
    · obtain rfl := Except.ok.inj hemit
      exact ⟨.single (scans_wideJsr hlt hlength (by omega)), rfl⟩

end jump

theorem Emitted.scanned_tableSwitch {low high : Int32} {d : Label} {ts : List Label} {wide : Bool}
    (h : Emitted links lay length tgt skip (.instr (.tableSwitch low high d ts))
      ⟨.tableSwitch low high d ts, wide⟩ o)
    (hlength : length ≤ 65535) (hle : low ≤ high) (hcount : high.toInt - low.toInt + 1 = ts.length)
    (hemit : emit lay ⟨.tableSwitch low high d ts, wide⟩ o = .ok bs) :
    Scanned links.context length o bs [(o, .tableSwitch low high (tgt d) (ts.map tgt))] ∧
      bs.length = Slot.width o ⟨.tableSwitch low high d ts, wide⟩ := by
  have hfits := h.fits
  obtain rfl := Except.ok.inj hemit
  have htargets : (ts.map lay.target) = ts.map tgt :=
    List.map_congr_left fun t ht => (h.targets t (List.mem_cons_of_mem _ ht)).1.symm
  have hscan : Scans (scanInstr links.context length) o _
      (.tableSwitch low high (lay.target d) (ts.map lay.target)) :=
    scans_tableSwitch hlength (by omega) (h.targets d List.mem_cons_self).2
      (fun t ht => by
        obtain ⟨t', ht', rfl⟩ := List.mem_map.mp ht
        exact (h.targets t' (List.mem_cons_of_mem _ ht')).2)
      hle (by rw [hcount, List.length_map])
  rw [List.flatMap_map, htargets, ← (h.targets d List.mem_cons_self).1] at hscan
  rw [← (h.targets d List.mem_cons_self).1]
  refine ⟨.single ?_, ?_⟩
  · simpa only [List.append_assoc] using hscan
  · simp only [List.length_cons, List.length_append, length_paddingBytes, length_distance,
      length_flatMap_const fun t => length_distance (lay.target t) o, Slot.width]
    have : (Bytes.i32 low).length = 4 ∧ (Bytes.i32 high).length = 4 := ⟨rfl, rfl⟩
    omega

theorem Emitted.scanned_lookupSwitch {d : Label} {ps : List (Int32 × Label)} {wide : Bool}
    (hfits : o + Slot.width o ⟨.lookupSwitch d ps, wide⟩ ≤ length) (hlength : length ≤ 65535)
    (hd : tgt d = lay.target d ∧ lay.target d < length)
    (hps : ∀ p ∈ ps, tgt p.2 = lay.target p.2 ∧ lay.target p.2 < length)
    (hemit : emit lay ⟨.lookupSwitch d ps, wide⟩ o = .ok bs) :
    Scanned links.context length o bs
      [(o, .lookupSwitch (tgt d) (ps.map fun (key, t) => (key, tgt t)))] ∧
      bs.length = Slot.width o ⟨.lookupSwitch d ps, wide⟩ := by
  obtain rfl := Except.ok.inj hemit
  simp only [Slot.width] at hfits
  have htargets : (ps.map fun p => (p.1, lay.target p.2)) = ps.map fun (key, t) => (key, tgt t) :=
    List.map_congr_left fun p hp => by
      show _ = (p.1, tgt p.2)
      rw [(hps p hp).1]
  have hscan : Scans (scanInstr links.context length) o _
      (.lookupSwitch (lay.target d) (ps.map fun p => (p.1, lay.target p.2))) :=
    scans_lookupSwitch hlength (by omega) hd.2
      (fun p hp => by
        obtain ⟨p', hp', rfl⟩ := List.mem_map.mp hp
        exact (hps p' hp').2)
      (by rw [List.length_map]; omega)
  rw [List.flatMap_map, List.length_map, htargets] at hscan
  rw [hd.1]
  refine ⟨.single ?_, ?_⟩
  · simpa only [List.append_assoc] using hscan
  · have hcount : (Bytes.u32 (UInt32.ofNat ps.length)).length = 4 := rfl
    have hpairs : (ps.flatMap fun p => Bytes.i32 p.1 ++ distance (lay.target p.2) o).length =
        8 * ps.length := length_flatMap_const fun p => rfl
    simp only [List.length_cons, List.length_append, length_paddingBytes, length_distance, hcount,
      hpairs, Slot.width]
    omega

/-- An entry is read back as what it is spelled out to. -/
theorem Emitted.scanned (h : Emitted links lay length tgt skip n s o) (hlength : length ≤ 65535)
    (hemit : emit lay s o = .ok bs) :
    Scanned links.context length o bs
      ((reals (spelledAt skip n s o)).map fun r => (r.1, r.2.map tgt)) ∧
      bs.length = s.width o := by
  have hn := h.settled
  obtain ⟨piece, wide⟩ := s
  cases n with
  | label l =>
    obtain rfl : piece = .label l := hn
    obtain rfl := Except.ok.inj hemit
    exact ⟨.nil o, rfl⟩
  | line m =>
    obtain rfl : piece = .line m := hn
    obtain rfl := Except.ok.inj hemit
    exact ⟨.nil o, rfl⟩
  | instr i =>
    cases Instr.Settled.shape hn with
    | @bytes _ bs' htargets hi =>
      obtain rfl := Except.ok.inj hemit
      refine ⟨?_, rfl⟩
      have hasc : i.ascending = i := by
        cases i with
        | lookupSwitch => cases htargets
        | _ => rfl
      have hat : spelledAt skip (.instr i) ⟨.bytes bs', wide⟩ o = [(.instr i.ascending, o)] := rfl
      rw [hat, hasc]
      exact .single (scans_settled hi (h.documented i rfl) tgt)
    | tableSwitch hle hcount => exact h.scanned_tableSwitch hlength hle hcount hemit
    | lookupSwitch d ps =>
      refine Emitted.scanned_lookupSwitch h.fits hlength (h.targets d List.mem_cons_self)
        (fun p hp => ?_) hemit
      rw [List.mem_mergeSort] at hp
      exact h.targets p.2 (List.mem_cons_of_mem _ (List.mem_map_of_mem hp))
    | jump op t =>
      rcases spelledAt_cases (s := ⟨.jump op t, wide⟩) hn skip o with
        ⟨_, _, heq, hs, hwidth, hat⟩ | ⟨hs, hat⟩
      · obtain ⟨rfl, rfl⟩ := Instr.jump.inj (Node.instr.inj heq)
        rw [hat, hwidth]
        exact h.scanned_detour hlength hs hemit
      · rw [hat]
        exact h.scanned_jump hlength hs hemit

end ClassWeave.Code
