import ClassWeave.Proofs.Decoding
import ClassWeave.Proofs.ExactReading
import ClassWeave.Proofs.Pieces

/-!
# What is read where code is accepted

The scanner and the decoder read backwards: whatever they accept is a list of instructions in the
forms that they are built in, one behind the other, whose targets are instructions. This is what
encoding asks of a list, so code that was decoded can be encoded and decoded again.
-/

namespace ClassWeave

/-- Method handles of fields refer to fields. -/
def Pool.FieldHandles (p : Pool) : Prop :=
  ∀ i kind member, p.get i = .ok (.methodHandle kind member) → kind.isField →
    ∃ owner nt, p.get member = .ok (.fieldRef owner nt)

namespace Pool

variable {p : Pool} {i : PoolIndex}

theorem FieldHandles.handle (hp : p.FieldHandles) {h : Handle} (hh : p.handle i = .ok h) :
    h.Plain := by
  obtain ⟨c, hc, hh⟩ := bind_eq_ok.mp hh
  cases c with
  | methodHandle kind member =>
    obtain ⟨⟨m, isInterface⟩, hm, hh⟩ := bind_eq_ok.mp hh
    obtain rfl := Except.ok.inj hh
    intro hfield
    obtain ⟨owner, nt, hget⟩ := hp i kind member hc hfield
    obtain ⟨c, hc, hm⟩ := bind_eq_ok.mp hm
    obtain rfl := Except.ok.inj (hget.symm.trans hc)
    obtain ⟨m', -, hm⟩ := bind_eq_ok.mp hm
    exact (Prod.mk.inj (pure_eq_ok.mp hm)).2.symm
  | _ => cases hh

theorem FieldHandles.loadable (hp : p.FieldHandles) {c : Loadable} (hc : p.loadable i = .ok c) :
    c.Plain p := by
  obtain ⟨k, hk, hc⟩ := bind_eq_ok.mp hc
  cases k with
  | methodHandle =>
    obtain ⟨h, hh, hc⟩ := bind_eq_ok.mp hc
    obtain rfl := pure_eq_ok.mp hc
    exact hp.handle hh
  | dynamic bootstrap nt =>
    obtain rfl := Except.ok.inj hc
    exact ⟨bootstrap, nt, hk⟩
  | string | classInfo | methodType =>
    obtain ⟨text, -, hc⟩ := bind_eq_ok.mp hc
    obtain rfl := pure_eq_ok.mp hc
    trivial
  | integer | float | long | double =>
    obtain rfl := Except.ok.inj hc
    trivial
  | _ => cases hc

end Pool

namespace Code

theorem callSite_plain {ctx : Context} (hp : ctx.pool.FieldHandles) {i : PoolIndex}
    {site : CallSite} (hsite : callSite ctx i = .ok site) : site.Plain ctx.pool := by
  obtain ⟨c, -, hsite⟩ := bind_eq_ok.mp hsite
  cases c with
  | invokeDynamic bootstrap nt =>
    obtain ⟨⟨name, descriptor⟩, -, hsite⟩ := bind_eq_ok.mp hsite
    simp only at hsite
    split at hsite
    · cases hsite
    · obtain ⟨arguments, harguments, hsite⟩ := bind_eq_ok.mp hsite
      obtain ⟨handle, hhandle, hsite⟩ := bind_eq_ok.mp hsite
      obtain rfl := pure_eq_ok.mp hsite
      refine ⟨hp.handle hhandle, fun c hc => ?_⟩
      obtain ⟨j, -, hj⟩ := exists_of_forall₂ (mapM_eq_ok.mp harguments).flip hc
      exact hp.loadable hj
  | _ => cases hsite

/-! ## The scanner -/

namespace Scanner

variable {α β : Type} {R R' : α → Prop} {S : β → Prop} {x y : Scanner α}

/-- What the scanner gives has a property, and its offset goes on by the bytes that it takes. -/
def Finds (R : α → Prop) (x : Scanner α) : Prop :=
  ∀ c a c', x c = .ok (a, c') →
    R a ∧ ∃ bs, c.rest = bs ++ c'.rest ∧ c'.offset = c.offset + bs.length

theorem Finds.pure {a : α} (ha : R a) : Finds R (Pure.pure a) := by
  intro c b c' h
  obtain ⟨rfl, rfl⟩ := Prod.mk.inj (Except.ok.inj h)
  exact ⟨ha, [], rfl, rfl⟩

theorem Finds.throw (e : ClassError) : Finds R (MonadExcept.throw e : Scanner α) := by
  intro c a c' h
  cases h

theorem Finds.bind {f : α → Scanner β} (hx : Finds R x) (hf : ∀ a, R a → Finds S (f a)) :
    Finds S (x >>= f) := by
  intro c b c' h
  obtain ⟨⟨a, next⟩, hrun, h⟩ := bind_eq_ok.mp h
  obtain ⟨ha, bs, hbs, hoffset⟩ := hx c a next hrun
  obtain ⟨hb, cs, hcs, hoffset'⟩ := hf a ha next b c' h
  refine ⟨hb, bs ++ cs, by rw [hbs, hcs, List.append_assoc], ?_⟩
  rw [hoffset', hoffset, List.length_append, Nat.add_assoc]

theorem Finds.ite {c : Prop} [Decidable c] (hx : c → Finds R x) (hy : ¬ c → Finds R y) :
    Finds R (if c then x else y) := by
  split
  · exact hx ‹_›
  · exact hy ‹_›

theorem finds_ofReader {n : Nat} {r : Reader α}
    (hr : r.Accepts fun front _ => front.length = n) : Finds (fun _ => True) (ofReader n r) := by
  intro c a c' h
  unfold ofReader at h
  split at h
  · rename_i b rest hrun
    obtain ⟨rfl, rfl⟩ := Prod.mk.inj (Except.ok.inj h)
    obtain ⟨bs, hbs, rfl⟩ := hr c.rest b rest hrun
    exact ⟨trivial, bs, hbs, rfl⟩
  · cases h

theorem finds_u8 : Finds (fun _ => True) u8 :=
  finds_ofReader (Reader.exact_u8.imp fun h => by rw [h]; rfl)

theorem finds_u16 : Finds (fun _ => True) u16 :=
  finds_ofReader (Reader.exact_u16.imp fun h => by rw [h]; rfl)

theorem finds_i8 : Finds (fun _ => True) i8 :=
  finds_ofReader ((Reader.Accepts.map _ Reader.exact_u8).imp fun ⟨_, h, _⟩ => by rw [h]; rfl)

theorem finds_i16 : Finds (fun _ => True) i16 :=
  finds_ofReader ((Reader.Accepts.map _ Reader.exact_u16).imp fun ⟨_, h, _⟩ => by rw [h]; rfl)

theorem finds_i32 : Finds (fun _ => True) i32 :=
  finds_ofReader (Reader.exact_i32.imp fun h => by rw [h]; rfl)

theorem finds_ofResult {r : ClassResult α} (hr : ∀ a, r = .ok a → R a) : Finds R (ofResult r) := by
  cases r with
  | ok a => exact .pure (hr a rfl)
  | error e => exact .throw e

theorem finds_skip : ∀ n, Finds (fun _ => True) (skip n)
  | 0 => .pure trivial
  | n + 1 => finds_u8.bind fun _ _ => finds_skip n

theorem finds_timesOnto {item : Scanner α} (hitem : Finds R item) :
    ∀ n found, (∀ a ∈ found, R a) → Finds (fun as => ∀ a ∈ as, R a) (timesOnto item n found)
  | 0, _, hfound => .pure fun a ha => hfound a (List.mem_reverse.mp ha)
  | n + 1, found, hfound => hitem.bind fun a ha =>
    finds_timesOnto hitem n (a :: found) (List.forall_mem_cons.mpr ⟨ha, hfound⟩)

theorem finds_times {item : Scanner α} (hitem : Finds R item) (n : Nat) :
    Finds (fun as => ∀ a ∈ as, R a) (times n item) :=
  finds_timesOnto hitem n [] fun _ ha => nomatch ha

end Scanner

open Scanner

/-! ## One instruction -/

section instr

variable {ctx : Context} {length offset : Nat}

/-- An instruction as it is read: in one of the forms that are built, if the pool is sound, with
targets in the code. -/
structure ReadAs (ctx : Context) (length : Nat) (i : Instr Nat) : Prop where
  documented : ctx.pool.FieldHandles → i.Documented ctx.pool
  inside : ∀ t ∈ i.targets, t < length

theorem jumpTarget_lt {relative : Int} {t : Nat} (ht : jumpTarget length offset relative = .ok t) :
    t < length := by
  unfold jumpTarget at ht
  simp only at ht
  split at ht
  · obtain rfl := Except.ok.inj ht
    omega
  · cases ht

theorem finds_scanTarget : Finds (· < length) (scanTarget length offset) :=
  finds_i32.bind fun _ _ => finds_ofResult fun _ => jumpTarget_lt

theorem finds_scanTableSwitch : Finds (ReadAs ctx length) (scanTableSwitch length offset) := by
  refine (finds_skip _).bind fun _ _ => finds_scanTarget.bind fun t ht => ?_
  refine finds_i32.bind fun low _ => finds_i32.bind fun high _ => ?_
  refine .ite (fun _ => .throw _) fun _ => ?_
  refine (finds_times finds_scanTarget _).bind fun ts hts => .pure ⟨fun _ => trivial, ?_⟩
  exact List.forall_mem_cons.mpr ⟨ht, hts⟩

theorem finds_scanLookupSwitch : Finds (ReadAs ctx length) (scanLookupSwitch length offset) := by
  have hpair : Finds (fun p : Int32 × Nat => p.2 < length) (scanPair length offset) :=
    finds_i32.bind fun _ _ => finds_scanTarget.bind fun _ ht => .pure ht
  refine (finds_skip _).bind fun _ _ => finds_scanTarget.bind fun t ht => ?_
  refine finds_i32.bind fun count _ => .ite (fun _ => .throw _) fun _ => ?_
  refine (finds_times hpair _).bind fun ps hps => .pure ⟨fun _ => trivial, ?_⟩
  refine List.forall_mem_cons.mpr ⟨ht, fun t ht => ?_⟩
  obtain ⟨p, hp, rfl⟩ := List.mem_map.mp ht
  exact hps p hp

/-- Without targets. -/
theorem ReadAs.of_documented {i : Instr Nat} (htargets : i.targets = [])
    (hi : ctx.pool.FieldHandles → i.Documented ctx.pool) : ReadAs ctx length i :=
  ⟨hi, fun t ht => by rw [htargets] at ht; cases ht⟩

theorem finds_scanWide : Finds (ReadAs ctx length) (scanWide offset) := by
  refine finds_u8.bind fun op _ => .ite (fun _ => ?_) fun _ => .ite (fun hop => ?_) fun _ => ?_
  · exact finds_u16.bind fun _ _ => finds_i16.bind fun _ _ => .pure (.of_documented rfl fun _ => trivial)
  · exact finds_u16.bind fun _ _ => .pure (.of_documented rfl fun _ => hop)
  · exact .throw _

/-- Accesses to the first four variables are read as accesses. -/
theorem short_facts : ∀ op : UInt8,
    (Opcode.isShortLoad op = true → isAccess (Opcode.iload + (op - Opcode.iload_0) / 4) = true) ∧
      (Opcode.isShortStore op = true →
        isAccess (Opcode.istore + (op - Opcode.istore_0) / 4) = true) :=
  forall_u8 (by decide +kernel)

theorem finds_scanOperands (op : UInt8) :
    Finds (ReadAs ctx length) (scanOperands ctx length offset op) := by
  have hload : ∀ i, Finds (fun c => ctx.pool.FieldHandles → c.Plain ctx.pool)
      (ofResult (ctx.pool.loadable i)) := fun i => finds_ofResult fun _ hc hp => hp.loadable hc
  have hmember : ∀ i, Finds (fun _ => True) (ofResult (ctx.pool.memberRef i)) :=
    fun i => finds_ofResult fun _ _ => trivial
  have hclass : ∀ i, Finds (fun _ => True) (ofResult (ctx.pool.className i)) :=
    fun i => finds_ofResult fun _ _ => trivial
  have hjump : ∀ {op t}, (Opcode.within Opcode.ifeq Opcode.jsr op || Opcode.isNullTest op) = true →
      t < length → ReadAs ctx length (.jump op t) := fun hop ht =>
    ⟨fun _ => hop, List.forall_mem_singleton.mpr ht⟩
  have hwithout : ∀ {i : Instr Nat}, i.targets = [] →
      (ctx.pool.FieldHandles → i.Documented ctx.pool) → Finds (ReadAs ctx length) (pure i) :=
    fun htargets hi => .pure (.of_documented htargets hi)
  unfold scanOperands
  refine .ite (fun hop => hwithout rfl fun _ => hop) fun _ => ?_
  refine .ite (fun hop => finds_i8.bind fun _ _ => hwithout rfl fun _ => .inl hop) fun _ => ?_
  refine .ite (fun hop => finds_i16.bind fun _ _ => hwithout rfl fun _ => .inr (.inl hop)) fun _ => ?_
  refine .ite (fun hop => finds_u8.bind fun _ _ => hwithout rfl fun _ => .inr (.inr hop)) fun _ => ?_
  refine .ite (fun _ => finds_u8.bind fun _ _ => (hload _).bind fun _ hc => hwithout rfl hc)
    fun _ => ?_
  refine .ite (fun _ => finds_u16.bind fun _ _ => (hload _).bind fun _ hc => hwithout rfl hc)
    fun _ => ?_
  refine .ite (fun hop => finds_u8.bind fun _ _ => hwithout rfl fun _ => hop) fun _ => ?_
  refine .ite (fun hop => hwithout rfl fun _ => (short_facts op).1 hop) fun _ => ?_
  refine .ite (fun hop => hwithout rfl fun _ => (short_facts op).2 hop) fun _ => ?_
  refine .ite (fun _ => finds_u8.bind fun _ _ => finds_i8.bind fun _ _ => hwithout rfl fun _ => trivial)
    fun _ => ?_
  refine .ite (fun _ => finds_scanWide) fun _ => .ite (fun hop => ?_) fun _ => ?_
  · refine finds_i16.bind fun _ _ => (finds_ofResult fun _ => jumpTarget_lt).bind fun t ht => ?_
    exact .pure (hjump hop ht)
  refine .ite (fun _ => finds_scanTarget.bind fun t ht => .pure (hjump (by decide) ht)) fun _ => ?_
  refine .ite (fun _ => finds_scanTarget.bind fun t ht => .pure (hjump (by decide) ht)) fun _ => ?_
  refine .ite (fun _ => finds_scanTableSwitch) fun _ => ?_
  refine .ite (fun _ => finds_scanLookupSwitch) fun _ => ?_
  refine .ite (fun hop => ?_) fun _ => .ite (fun hop => ?_) fun _ => .ite (fun _ => ?_) fun _ => ?_
  · exact finds_u16.bind fun _ _ => (hmember _).bind fun _ _ => hwithout rfl fun _ => hop
  · refine finds_u16.bind fun index _ => .ite (fun _ => ?_) fun _ => ?_
    · refine (finds_skip 2).bind fun _ _ => ?_
      exact (hmember index).bind fun _ _ => hwithout rfl fun _ => hop
    · exact (hmember index).bind fun _ _ => hwithout rfl fun _ => hop
  · refine finds_u16.bind fun index _ => (finds_skip 2).bind fun _ _ => ?_
    exact (finds_ofResult fun _ hsite hp => callSite_plain hp hsite).bind fun _ hsite =>
      hwithout rfl hsite
  refine .ite (fun hop => ?_) fun _ => .ite (fun _ => ?_) fun _ => .throw _
  · have hread : Finds (fun _ => True) (scanClass ctx) := finds_u16.bind fun _ _ => hclass _
    refine hread.bind fun _ _ => hwithout rfl ?_
    simpa [Instr.Documented, or_assoc] using fun _ => hop
  · refine finds_u16.bind fun index _ => finds_u8.bind fun _ _ => ?_
    exact (hclass index).bind fun _ _ => hwithout rfl fun _ => trivial

/-- An instruction takes at least its opcode. -/
theorem scanInstr_spec {c next : Cursor} {i : Instr Nat}
    (h : (scanInstr ctx length).run c = .ok (i, next)) :
    ReadAs ctx length i ∧ c.offset < next.offset ∧
      next.offset + next.rest.length = c.offset + c.rest.length := by
  have h : (u8 >>= scanOperands ctx length c.offset) c = .ok (i, next) := h
  obtain ⟨⟨op, mid⟩, hop, h⟩ := bind_eq_ok.mp h
  obtain ⟨hi, bs, hbs, hoffset⟩ := finds_scanOperands op mid i next h
  have hopcode : c.rest = [op] ++ mid.rest ∧ mid.offset = c.offset + 1 := by
    unfold u8 ofReader at hop
    split at hop
    · rename_i b rest hrun
      obtain ⟨rfl, rfl⟩ := Prod.mk.inj (Except.ok.inj hop)
      obtain ⟨_, hrest, rfl⟩ := Reader.exact_u8 c.rest b rest hrun
      exact ⟨hrest, rfl⟩
    · cases hop
  refine ⟨hi, by omega, ?_⟩
  rw [hopcode.1, hbs, hoffset, hopcode.2]
  simp only [List.length_append, List.length_singleton]
  omega

theorem scanOnto_spec : ∀ fuel found c instrs,
    scanOnto ctx length fuel found c = .ok instrs → ∃ read, instrs = found.reverse ++ read ∧
      (read.map Prod.fst).Pairwise (· < ·) ∧ ∀ p ∈ read, ReadAs ctx length p.2 ∧
        c.offset ≤ p.1 ∧ p.1 < c.offset + c.rest.length
  | 0, found, c, instrs, h => by
    obtain rfl := Except.ok.inj h
    exact ⟨[], (List.append_nil _).symm, .nil, fun _ hp => nomatch hp⟩
  | fuel + 1, found, c, instrs, h => by
    unfold scanOnto at h
    split at h
    · obtain rfl := Except.ok.inj h
      exact ⟨[], (List.append_nil _).symm, .nil, fun _ hp => nomatch hp⟩
    · split at h
      · rename_i i next hi
        obtain ⟨hread, hlt, hend⟩ := scanInstr_spec hi
        obtain ⟨read, rfl, hsorted, hall⟩ := scanOnto_spec fuel _ next instrs h
        refine ⟨(c.offset, i) :: read, by simp, List.pairwise_cons.mpr ⟨?_, hsorted⟩, ?_⟩
        · intro o ho
          obtain ⟨p, hp, rfl⟩ := List.mem_map.mp ho
          exact Nat.lt_of_lt_of_le hlt (hall p hp).2.1
        · refine List.forall_mem_cons.mpr ⟨⟨hread, Nat.le_refl _, by omega⟩, fun p hp => ?_⟩
          obtain ⟨hread, hle, hlt'⟩ := hall p hp
          exact ⟨hread, by omega, by omega⟩
      · cases h

end instr

/-! ## The whole code -/

section decode

variable {ctx : Context} {code : List UInt8} {handlers : List HandlerEntry}
  {lines : List LineEntry} {l : InstrList} {offsets : List Nat}

/-- Instructions stand one behind the other inside the code that they were read off. -/
theorem scan_spec {instrs : List (Nat × Instr Nat)} (h : scan ctx code = .ok instrs) :
    (instrs.map Prod.fst).Pairwise (· < ·) ∧
      ∀ p ∈ instrs, ReadAs ctx code.length p.2 ∧ p.1 < code.length := by
  obtain ⟨_, rfl, hsorted, hall⟩ := scanOnto_spec _ _ _ _ h
  exact ⟨hsorted, fun p hp => ⟨(hall p hp).1, by simpa using (hall p hp).2.2⟩⟩

/-- Some code that was decoded, and the instructions that were read. -/
structure Disassembled (ctx : Context) (code : List UInt8) (handlers : List HandlerEntry)
    (lines : List LineEntry) (l : InstrList) (instrs : List (Nat × Instr Nat)) : Prop where
  readAs : ∀ p ∈ instrs, ReadAs ctx code.length p.2
  wellRead : WellRead code.length instrs handlers
  nodes : l.nodes = ((decodedEntries code.length instrs handlers lines).map Prod.fst).toArray
  placed : l.placed =
    InstrList.markedLabels l.nodes.toList (labelOffsets instrs handlers).length
  blocks : List.Forall₂ (fun h b => tryBlock ctx (labelTable (labelOffsets instrs handlers)) h =
    .ok b) handlers l.blocks

theorem disassembled_of_scan {instrs : List (Nat × Instr Nat)} (hscan : scan ctx code = .ok instrs)
    (h : decode ctx code handlers lines = .ok (l, offsets)) :
    Disassembled ctx code handlers lines l instrs := by
  obtain ⟨_, blocks, hscan', hplaces, hblocks, heq⟩ := decode_eq_ok_iff.mp h
  obtain rfl := Except.ok.inj (hscan.symm.trans hscan')
  obtain ⟨rfl, rfl⟩ := Prod.mk.inj heq
  obtain ⟨hsorted, hall⟩ := scan_spec hscan
  refine ⟨fun p hp => (hall p hp).1, ⟨hsorted, fun p hp => (hall p hp).2, ?_, ?_⟩, rfl, rfl,
    mapM_eq_ok.mp hblocks⟩
  · intro p hp t ht
    rcases hplaces t (mem_labelOffsets.mpr (.inl ⟨p, hp, ht⟩)) with hmem | rfl
    · exact hmem
    · exact absurd ((hall p hp).1.inside _ ht) (Nat.lt_irrefl _)
  · exact fun k hk o ho => hplaces o (mem_labelOffsets.mpr (.inr ⟨k, hk, ho⟩))

theorem disassembled_of_decode (h : decode ctx code handlers lines = .ok (l, offsets)) :
    ∃ instrs, Disassembled ctx code handlers lines l instrs := by
  obtain ⟨instrs, _, hscan, -⟩ := decode_eq_ok_iff.mp h
  exact ⟨instrs, disassembled_of_scan hscan h⟩

/-- The same where the instructions are as they can be encoded. -/
structure Read (ctx : Context) (code : List UInt8) (handlers : List HandlerEntry)
    (lines : List LineEntry) (l : InstrList) (instrs : List (Nat × Instr Nat)) : Prop
    extends Disassembled ctx code handlers lines l instrs where
  documented : ∀ p ∈ instrs, p.2.Documented ctx.pool

/-- Whatever is decoded was read as it can be encoded. -/
theorem read_of_decode (hp : ctx.pool.FieldHandles)
    (h : decode ctx code handlers lines = .ok (l, offsets)) :
    ∃ instrs, Read ctx code handlers lines l instrs := by
  obtain ⟨instrs, hread⟩ := disassembled_of_decode h
  exact ⟨instrs, hread, fun p hmem => (hread.readAs p hmem).documented hp⟩

end decode

end Code
end ClassWeave
