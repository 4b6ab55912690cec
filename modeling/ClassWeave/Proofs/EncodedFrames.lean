import ClassWeave.Proofs.CodeCeilings
import ClassWeave.Proofs.MethodRoundTrip

/-!
# The frames of encoded code

The frames that a checked analysis has found for a list are known at the offsets that the list is
encoded to: an instruction has the frame of its entry, and the jump in a detour has the frame behind
the condition that became wide. Nothing that the code hands on rises above them.
-/

namespace ClassWeave
namespace Code

open Listing

/-! ## Entries and their offsets -/

/-- The entry at a place, the slot that stands for it, and its offset. -/
structure Placed (nodes : List Node) (slots : List Slot) (i : Nat) (n : Node) (s : Slot) (o : Nat) :
    Prop where
  node : nodes[i]? = some n
  slot : slots[i]? = some s
  offset : (offsetsFrom 0 slots)[i]? = some o

theorem getElem?_offsetsFrom {slots : List Slot} {k i o : Nat} {s : Slot} (hs : slots[i]? = some s)
    (ho : (offsetsFrom k slots)[i]? = some o) :
    k ≤ o ∧ ∀ {j o' : Nat}, i < j → (offsetsFrom k slots)[j]? = some o' → o + s.width o ≤ o' := by
  induction slots generalizing k i with
  | nil => cases hs
  | cons t slots ih =>
    have hlater : ∀ {j o' : Nat}, (offsetsFrom (k + t.width k) slots)[j]? = some o' →
        k + t.width k ≤ o' := by
      intro j o' hj
      exact (sorted_offsetsFrom _ _).2 _ (List.mem_of_getElem? hj)
    cases i with
    | zero =>
      obtain rfl := Option.some.inj hs
      obtain rfl := Option.some.inj ho
      refine ⟨Nat.le_refl _, fun {j o'} hj ho' => ?_⟩
      obtain ⟨j, rfl⟩ := Nat.exists_eq_succ_of_ne_zero (Nat.ne_of_gt hj)
      exact hlater ho'
    | succ i =>
      obtain ⟨hle, hnext⟩ := ih (k := k + t.width k) (i := i) hs ho
      refine ⟨Nat.le_trans (Nat.le_add_right _ _) hle, fun {j o'} hj ho' => ?_⟩
      obtain ⟨j, rfl⟩ := Nat.exists_eq_succ_of_ne_zero (Nat.ne_of_gt (Nat.zero_lt_of_lt hj))
      exact hnext (Nat.lt_of_succ_lt_succ hj) ho'

theorem getElem?_offsetsFrom_succ {slots : List Slot} {k i o o' : Nat} {s : Slot}
    (hs : slots[i]? = some s) (ho : (offsetsFrom k slots)[i]? = some o)
    (ho' : (offsetsFrom k slots)[i + 1]? = some o') : o' = o + s.width o := by
  induction slots generalizing k i with
  | nil => cases hs
  | cons t slots ih =>
    cases i with
    | zero =>
      obtain rfl := Option.some.inj hs
      obtain rfl := Option.some.inj ho
      cases slots with
      | nil => cases ho'
      | cons u slots => exact (Option.some.inj ho').symm
    | succ i => exact ih (k := k + t.width k) (i := i) hs ho ho'

section placed

variable {nodes : List Node} {slots : List Slot} {i j o o' : Nat} {n n' : Node} {s s' : Slot}

theorem Placed.unique (h : Placed nodes slots i n s o) (h' : Placed nodes slots i n' s' o') :
    n = n' ∧ s = s' ∧ o = o' :=
  ⟨Option.some.inj (h.node.symm.trans h'.node), Option.some.inj (h.slot.symm.trans h'.slot),
    Option.some.inj (h.offset.symm.trans h'.offset)⟩

/-- What comes later starts behind an entry. -/
theorem Placed.behind (h : Placed nodes slots i n s o) (h' : Placed nodes slots j n' s' o')
    (hij : i < j) : o + s.width o ≤ o' :=
  (getElem?_offsetsFrom h.slot h.offset).2 hij h'.offset

theorem Placed.mono (h : Placed nodes slots i n s o) (h' : Placed nodes slots j n' s' o')
    (hij : i ≤ j) : o ≤ o' := by
  rcases Nat.lt_or_eq_of_le hij with hlt | rfl
  · exact Nat.le_trans (Nat.le_add_right _ _) (h.behind h' hlt)
  · exact Nat.le_of_eq (h.unique h').2.2

theorem Placed.next (h : Placed nodes slots i n s o) (h' : Placed nodes slots (i + 1) n' s' o') :
    o' = o + s.width o :=
  getElem?_offsetsFrom_succ h.slot h.offset h'.offset

/-- Entries that take up room do not overlap. -/
theorem Placed.eq_of_within (h : Placed nodes slots i n s o) (h' : Placed nodes slots j n' s' o')
    {at' : Nat} (hle : o ≤ at') (hlt : at' < o + s.width o) (hle' : o' ≤ at')
    (hlt' : at' < o' + s'.width o') : i = j := by
  rcases Nat.lt_trichotomy i j with hij | rfl | hij
  · have := h.behind h' hij
    omega
  · rfl
  · have := h'.behind h hij
    omega

/-- An entry among those around it. -/
theorem Placed.of_split (hlength : nodes.length = slots.length) {xs ys : List (Node × Slot)}
    (h : nodes.zip slots = xs ++ (n, s) :: ys) :
    Placed nodes slots xs.length n s (endFrom 0 (xs.map Prod.snd)) := by
  have hpair : (nodes.zip slots)[xs.length]? = some (n, s) := by
    rw [h]
    simp
  obtain ⟨hnode, hslot⟩ := List.getElem?_zip_eq_some.mp hpair
  have hslots : slots = xs.map Prod.snd ++ s :: ys.map Prod.snd := by
    rw [← List.map_snd_zip (Nat.le_of_eq hlength.symm), h, List.map_append, List.map_cons]
  refine ⟨hnode, hslot, ?_⟩
  rw [hslots, offsetsFrom_append, List.getElem?_append_right (by simp [length_offsetsFrom])]
  simp [length_offsetsFrom, offsetsFrom]

theorem Placed.exists_split (hlength : nodes.length = slots.length)
    (h : Placed nodes slots i n s o) : ∃ xs ys, nodes.zip slots = xs ++ (n, s) :: ys ∧
      xs.length = i ∧ o = endFrom 0 (xs.map Prod.snd) := by
  have hpair : (nodes.zip slots)[i]? = some (n, s) :=
    List.getElem?_zip_eq_some.mpr ⟨h.node, h.slot⟩
  obtain ⟨hsplit, hi⟩ := eq_take_cons_drop hpair
  have hplaced := Placed.of_split hlength hsplit
  rw [hi] at hplaced
  exact ⟨_, _, hsplit, hi, (h.unique hplaced).2.2⟩

theorem exists_placed (hlength : nodes.length = slots.length) (h : nodes[i]? = some n) :
    ∃ s o, Placed nodes slots i n s o := by
  obtain ⟨hlt, -⟩ := List.getElem?_eq_some_iff.mp h
  have hslot : i < slots.length := hlength ▸ hlt
  have hoffset : i < (offsetsFrom 0 slots).length := by rwa [length_offsetsFrom]
  exact ⟨_, _, h, List.getElem?_eq_getElem hslot, List.getElem?_eq_getElem hoffset⟩

end placed

/-! ## What is read -/

/-- The opposite of a condition does the same to a frame, and may not be taken either. -/
theorem invertJump?_facts : ∀ op : UInt8, (Opcode.invertJump? op).isSome = true →
    Opcode.isZeroTest ((Opcode.invertJump? op).getD op) = Opcode.isZeroTest op ∧
    Opcode.isIntTest ((Opcode.invertJump? op).getD op) = Opcode.isIntTest op ∧
    Opcode.isReferenceTest ((Opcode.invertJump? op).getD op) = Opcode.isReferenceTest op ∧
    Opcode.isNullTest ((Opcode.invertJump? op).getD op) = Opcode.isNullTest op ∧
    (Opcode.isZeroTest op || Opcode.isIntTest op || Opcode.isReferenceTest op ||
      Opcode.isNullTest op) = true :=
  forall_u8 (by decide +kernel)

theorem step_invertJump? {τ τ' : Type} {p : Program} {k : Nat} {op : UInt8} (t : τ) (t' : τ')
    (f : Frame) (hop : (Opcode.invertJump? op).isSome) :
    p.step k (.jump ((Opcode.invertJump? op).getD op) t) f = p.step k (.jump op t') f := by
  obtain ⟨hzero, hint, hreference, hnull, hone⟩ := invertJump?_facts op hop
  have hjump : Step.jump p ((Opcode.invertJump? op).getD op) = Step.jump p op := by
    unfold Step.jump
    rw [hzero, hint, hreference, hnull]
    split
    · rfl
    · split
      · rfl
      · split
        · rfl
        · split
          · rfl
          · simp_all
  rw [Program.step, Program.step, Step.instr, Step.instr, hjump]

/-- What is read at an offset comes from an entry: it is the instruction there, or one of the two
that a detour is made of. -/
inductive ReadFrom (nodes : List Node) (slots : List Slot) (leads : Label → Nat) :
    Nat → Instr Nat → Prop
  | whole {i o : Nat} {ins : Instr Label} {s : Slot} (hi : Placed nodes slots i (.instr ins) s o)
      (hs : isWideCondition s = false) : ReadFrom nodes slots leads o (ins.ascending.map leads)
  | skip {i o : Nat} {op : UInt8} {t : Label} {s : Slot}
      (hi : Placed nodes slots i (.instr (.jump op t)) s o) (hs : isWideCondition s) :
      ReadFrom nodes slots leads o (.jump ((Opcode.invertJump? op).getD op) (o + 8))
  | jump {i o : Nat} {op : UInt8} {t : Label} {s : Slot}
      (hi : Placed nodes slots i (.instr (.jump op t)) s o) (hs : isWideCondition s) :
      ReadFrom nodes slots leads (o + 3) (.jump Opcode.goto (leads t))

namespace Encoding

variable {links : Links} {range : JumpRange} {nodes : List Node} {count : Nat} {e : Encoded}
  {slots : List Slot} (he : Encoding links range nodes count e slots)
  {i j o o' : Nat} {n : Node} {s : Slot}

include he

theorem settled_placed (h : Placed nodes slots i n s o) : n.Settled links s.piece :=
  he.settled_zip (n, s) (List.mem_of_getElem? (List.getElem?_zip_eq_some.mpr ⟨h.node, h.slot⟩))

theorem offset_placed (h : Placed nodes slots i n s o) : e.offsets[i]? = some o := by
  rw [← Array.getElem?_toList, he.offsets]
  exact h.offset

theorem placed_of_offset (h : e.offsets[i]? = some o) : ∃ n s, Placed nodes slots i n s o := by
  rw [← Array.getElem?_toList, he.offsets] at h
  obtain ⟨hlt, -⟩ := List.getElem?_eq_some_iff.mp h
  rw [length_offsetsFrom] at hlt
  have hnode : i < nodes.length := by rwa [he.settled.length_eq]
  exact ⟨_, _, List.getElem?_eq_getElem hnode, List.getElem?_eq_getElem hlt, h⟩

theorem wide_placed (h : Placed nodes slots i n s o) (hs : isWideCondition s) (o' : Nat) :
    ∃ op t, n = .instr (.jump op t) ∧ s.width o' = 8 := by
  rcases spelledAt_cases (he.settled_placed h) ⟨0⟩ o' with ⟨op, t, hn, -, hwidth, -⟩ | ⟨hs', -⟩
  · exact ⟨op, t, hn, hwidth⟩
  · rw [hs] at hs'
    cases hs'

section documented

variable (hdoc : Documented links.pool nodes)

include hdoc

theorem inverts_placed {op : UInt8} {t : Label} (h : Placed nodes slots i (.instr (.jump op t)) s o)
    (hs : isWideCondition s) : (Opcode.invertJump? op).isSome := by
  obtain ⟨op', t', heq, -, -, hgoto, hjsr⟩ := eq_jump_of_isWideCondition (he.settled_placed h) hs
  obtain ⟨rfl, rfl⟩ := Instr.jump.inj (Node.instr.inj heq)
  exact condition_facts op (hdoc _ (List.mem_of_getElem? h.node)) hgoto hjsr

theorem width_placed (h : Placed nodes slots i n s o) (hreal : n.isReal) (o' : Nat) :
    0 < s.width o' :=
  width_real (he.settled_placed h)
    (fun ins hn => hdoc ins (List.mem_of_getElem? (hn ▸ h.node))) hreal o'

/-- Everything that is read comes from an entry. -/
theorem readFrom (hclosed : Closed nodes e.wideFallthroughs) {ins : Instr Nat}
    (h : (o, ins) ∈ readings (spelling nodes count slots)) :
    ReadFrom nodes slots (leadsTo (spelling nodes count slots)) o ins := by
  obtain ⟨⟨o', ins'⟩, hr, heq⟩ := List.mem_map.mp h
  obtain ⟨rfl, rfl⟩ := Prod.mk.inj heq
  obtain ⟨xs, n, s, ys, hsplit, hat⟩ := mem_spelledFrom (mem_reals.mp hr)
  have hplaced := Placed.of_split he.settled.length_eq hsplit
  rw [Nat.zero_add] at hat
  rcases spelledAt_cases (he.settled_placed hplaced) ⟨count + xs.length⟩
    (endFrom 0 (xs.map Prod.snd)) with ⟨op, t, rfl, hs, -, h⟩ | ⟨hs, h⟩
  · rw [h] at hat
    simp only [List.mem_cons, Prod.mk.injEq, Node.instr.injEq, List.not_mem_nil, or_false,
      reduceCtorEq, false_and] at hat
    rcases hat with ⟨rfl, rfl⟩ | ⟨rfl, rfl⟩
    · have hskip : leadsTo (spelling nodes count slots) ⟨count + xs.length⟩ =
          endFrom 0 (xs.map Prod.snd) + 8 := by
        rw [leadsTo, (he.offset?_behind hdoc hclosed hsplit hs).1]
        rfl
      rw [Instr.map, hskip]
      exact .skip hplaced hs
    · exact .jump hplaced hs
  · rw [h] at hat
    obtain ⟨hn, rfl⟩ := Prod.mk.inj (List.mem_singleton.mp hat)
    cases n with
    | label | line => cases hn
    | instr i =>
      rw [Node.instr.inj hn]
      exact .whole hplaced hs

omit hdoc in
/-- An instruction is read at the offset of every entry that is one. -/
theorem mem_starts_placed {ins : Instr Label} (h : Placed nodes slots i (.instr ins) s o) :
    o ∈ starts (spelling nodes count slots) ∧
      (isWideCondition s → o + 3 ∈ starts (spelling nodes count slots)) := by
  obtain ⟨xs, ys, hsplit, rfl, rfl⟩ := h.exists_split he.settled.length_eq
  have hmem : ∀ {ins' : Instr Label} {o : Nat}, (.instr ins', o) ∈ spelledAt
      ⟨count + (0 + xs.length)⟩ (.instr ins) s (endFrom 0 (xs.map Prod.snd)) →
        o ∈ starts (spelling nodes count slots) := by
    intro ins' o hb
    have hspelled : (.instr ins', o) ∈ spelling nodes count slots := by
      rw [spelling, hsplit, spelledFrom_append, spelledFrom]
      exact List.mem_append_right _ (List.mem_append_left _ hb)
    exact List.mem_map_of_mem (mem_reals.mpr hspelled)
  rcases spelledAt_cases (he.settled_placed h) ⟨count + (0 + xs.length)⟩
    (endFrom 0 (xs.map Prod.snd)) with ⟨op, t, -, -, -, hat⟩ | ⟨hs, hat⟩
  · rw [hat] at hmem
    exact ⟨hmem List.mem_cons_self, fun _ => hmem (List.mem_cons_of_mem _ List.mem_cons_self)⟩
  · rw [hat] at hmem
    refine ⟨hmem List.mem_cons_self, fun hs' => ?_⟩
    rw [hs] at hs'
    cases hs'

/-- An instruction that is read lies within an entry. -/
theorem placed_of_start (hclosed : Closed nodes e.wideFallthroughs)
    (h : o ∈ starts (spelling nodes count slots)) : ∃ i n s o', Placed nodes slots i n s o' ∧
      n.isReal ∧ (o = o' ∨ isWideCondition s ∧ o = o' + 3) := by
  rw [← map_fst_readings, List.mem_map] at h
  obtain ⟨⟨o, ins⟩, hr, rfl⟩ := h
  cases he.readFrom hdoc hclosed hr with
  | whole hi hs => exact ⟨_, _, _, _, hi, rfl, .inl rfl⟩
  | skip hi hs => exact ⟨_, _, _, _, hi, rfl, .inl rfl⟩
  | jump hi hs => exact ⟨_, _, _, _, hi, rfl, .inr ⟨hs, rfl⟩⟩

/-- Behind an offset of an entry comes the other half of a detour or what is behind the entry. -/
theorem start_behind (hclosed : Closed nodes e.wideFallthroughs) (hi : Placed nodes slots i n s o)
    (hstart : o' ∈ starts (spelling nodes count slots)) (hlt : o < o') :
    isWideCondition s ∧ o' = o + 3 ∨ o + s.width o ≤ o' := by
  obtain ⟨j, n', s', p, hj, hreal', hat⟩ := he.placed_of_start hdoc hclosed hstart
  have hwithin : p ≤ o' ∧ o' < p + s'.width p := by
    have := he.width_placed hdoc hj hreal' p
    rcases hat with rfl | ⟨hwide, rfl⟩
    · omega
    · obtain ⟨-, -, -, hwidth⟩ := he.wide_placed hj hwide p
      omega
  rcases Nat.lt_trichotomy j i with hji | rfl | hij
  · have := hj.behind hi hji
    omega
  · obtain ⟨-, rfl, rfl⟩ := hi.unique hj
    rcases hat with rfl | ⟨hwide, rfl⟩
    · omega
    · exact .inl ⟨hwide, rfl⟩
  · have := hi.behind hj hij
    exact .inr (by omega)

end documented

omit he in
/-- A label has the offset of the entry at its place. -/
theorem offset?_position {l : InstrList} {lab : Label}
    (he : Encoding links range l.nodes.toList l.labelCount e slots)
    (h : lab.position? l.labelPositions = some j) : ∃ s o,
      Placed l.nodes.toList slots j (.label lab) s o ∧
        offset? lab (spelling l.nodes.toList l.labelCount slots) = some o := by
  obtain ⟨as, bs, hnodes, rfl, hnot⟩ := InstrList.position?_labelPositions h
  have hnode : l.nodes.toList[as.length]? = some (.label lab) := by
    rw [hnodes]
    simp
  obtain ⟨s, o, hplaced⟩ := exists_placed he.settled.length_eq hnode
  obtain ⟨xs, ys, hsplit, hlength, rfl⟩ := hplaced.exists_split he.settled.length_eq
  have hfirst : as ++ Node.label lab :: bs = xs.map Prod.fst ++ .label lab :: ys.map Prod.fst := by
    rw [← hnodes, ← he.map_fst, hsplit, List.map_append, List.map_cons]
  have hbs : bs = ys.map Prod.fst :=
    (List.cons.inj (List.append_inj hfirst (by rw [List.length_map, hlength])).2).2
  have hlt : lab.id < l.labelCount := he.marks lab (List.mem_of_getElem? hnode)
  exact ⟨s, _, hplaced, (offset?_of_last he.settled_zip hlt hsplit (hbs ▸ hnot)).2⟩

end Encoding

/-! ## Frames by offsets -/

/-- The frames at the offsets of instructions, where `frame?` gives those of the entries and
`behind?` those behind them. Behind a condition that became wide stands the jump of its detour. -/
def roofFrom (frame? behind? : Nat → Option Frame) (k o : Nat) :
    List (Node × Slot) → Nat → Option Frame
  | [], _ => none
  | (n, s) :: rest, o' =>
    if n.isReal ∧ o' = o then frame? k
    else if isWideCondition s ∧ o' = o + 3 then behind? k
    else roofFrom frame? behind? (k + 1) (o + s.width o) rest o'

/-- The frame of an entry is known at an offset. -/
def KnownAt (frame? behind? : Nat → Option Frame) (i : Nat) (n : Node) (s : Slot) (o o' : Nat)
    (f : Frame) : Prop :=
  n.isReal ∧ o' = o ∧ frame? i = some f ∨ isWideCondition s ∧ o' = o + 3 ∧ behind? i = some f

theorem roofFrom_eq_some {frame? behind? : Nat → Option Frame} {links : Links} {k o o' : Nat}
    {pairs : List (Node × Slot)} {f : Frame} (hsettled : Settled links pairs)
    (hdoc : ∀ p ∈ pairs, ∀ i, p.1 = .instr i → i.Documented links.pool) :
    roofFrom frame? behind? k o pairs o' = some f ↔ ∃ xs n s ys, pairs = xs ++ (n, s) :: ys ∧
      KnownAt frame? behind? (k + xs.length) n s (endFrom o (xs.map Prod.snd)) o' f := by
  induction pairs generalizing k o with
  | nil => simp [roofFrom]
  | cons p pairs ih =>
    obtain ⟨n, s⟩ := p
    have hn : n.Settled links s.piece := hsettled _ List.mem_cons_self
    have hrest := ih (k := k + 1) (o := o + s.width o)
      (fun q hq => hsettled q (List.mem_cons_of_mem _ hq))
      fun q hq => hdoc q (List.mem_cons_of_mem _ hq)
    have hshift : ∀ xs : List (Node × Slot), k + ((n, s) :: xs).length = k + 1 + xs.length :=
      fun xs => by
        rw [List.length_cons]
        omega
    rw [roofFrom]
    constructor
    · intro h
      split at h
      · rename_i hat
        exact ⟨[], n, s, pairs, rfl, .inl ⟨hat.1, hat.2, h⟩⟩
      · split at h
        · rename_i hat
          exact ⟨[], n, s, pairs, rfl, .inr ⟨hat.1, hat.2, h⟩⟩
        · obtain ⟨xs, m, t, ys, rfl, hknown⟩ := hrest.mp h
          refine ⟨(n, s) :: xs, m, t, ys, rfl, ?_⟩
          rwa [hshift]
    · rintro ⟨xs, m, t, ys, heq, hknown⟩
      cases xs with
      | nil =>
        obtain ⟨hhead, rfl⟩ := List.cons.inj heq
        obtain ⟨rfl, rfl⟩ := Prod.mk.inj hhead
        rcases hknown with ⟨hreal, rfl, hf⟩ | ⟨hs, rfl, hf⟩
        · rw [if_pos ⟨hreal, rfl⟩]
          exact hf
        · have hne : ¬ o + 3 = o := by omega
          rw [if_neg fun hat => hne hat.2, if_pos ⟨hs, rfl⟩]
          exact hf
      | cons q xs =>
        obtain ⟨rfl, rfl⟩ := List.cons.inj heq
        rw [hshift] at hknown
        -- what is known later is known behind the first entry
        have hle : o + s.width o ≤ o' := by
          have := le_endFrom (o + s.width o) (xs.map Prod.snd)
          have hend : endFrom o (((n, s) :: xs).map Prod.snd) =
              endFrom (o + s.width o) (xs.map Prod.snd) := rfl
          rw [hend] at hknown
          rcases hknown with ⟨-, rfl, -⟩ | ⟨-, rfl, -⟩ <;> omega
        rw [if_neg, if_neg]
        · exact hrest.mpr ⟨xs, m, t, ys, rfl, hknown⟩
        · rintro ⟨hs, rfl⟩
          rcases spelledAt_cases hn ⟨0⟩ o with ⟨_, _, -, -, hwidth, -⟩ | ⟨hs', -⟩
          · omega
          · rw [hs] at hs'
            cases hs'
        · rintro ⟨hreal, rfl⟩
          have := width_real hn (hdoc _ List.mem_cons_self) hreal o'
          omega

/-- The frames at the offsets of some code. -/
def roofOf (frame? behind? : Nat → Option Frame) (nodes : List Node) (slots : List Slot) :
    Nat → Option Frame :=
  roofFrom frame? behind? 0 0 (nodes.zip slots)

theorem Encoding.roofOf_eq_some {frame? behind? : Nat → Option Frame} {links : Links}
    {range : JumpRange} {nodes : List Node} {count : Nat} {e : Encoded} {slots : List Slot}
    (he : Encoding links range nodes count e slots) (hdoc : Documented links.pool nodes) {o : Nat}
    {f : Frame} : roofOf frame? behind? nodes slots o = some f ↔ ∃ i n s o',
      Placed nodes slots i n s o' ∧ KnownAt frame? behind? i n s o' o f := by
  refine (roofFrom_eq_some he.settled_zip hdoc.zip).trans ⟨?_, ?_⟩
  · rintro ⟨xs, n, s, ys, hsplit, hknown⟩
    rw [Nat.zero_add] at hknown
    exact ⟨_, n, s, _, .of_split he.settled.length_eq hsplit, hknown⟩
  · rintro ⟨i, n, s, o', hplaced, hknown⟩
    obtain ⟨xs, ys, hsplit, rfl, rfl⟩ := hplaced.exists_split he.settled.length_eq
    exact ⟨xs, n, s, ys, hsplit, by rwa [Nat.zero_add]⟩

/-- An instruction of a list stands at an offset. -/
def StandsAt (nodes : List Node) (slots : List Slot) (o i : Nat) : Prop :=
  ∃ n s, Placed nodes slots i n s o ∧ n.isReal

theorem Encoding.siteMap_standsAt {links : Links} {range : JumpRange} {nodes : List Node}
    {count : Nat} {e : Encoded} {slots : List Slot} (he : Encoding links range nodes count e slots)
    (hdoc : Documented links.pool nodes) : VType.SiteMap (StandsAt nodes slots) where
  unique := by
    rintro o i j ⟨n, s, hi, hreal⟩ ⟨n', s', hj, hreal'⟩
    have := he.width_placed hdoc hi hreal o
    have := he.width_placed hdoc hj hreal' o
    exact hi.eq_of_within hj (Nat.le_refl o) (by omega) (Nat.le_refl o) (by omega)
  inj := by
    rintro o o' i ⟨n, s, hi, -⟩ ⟨n', s', hi', -⟩
    exact (hi.unique hi').2.2

/-- Behind a start in ascending order comes the next larger one. -/
theorem head?_behind {os xs ys : List Nat} {o o' : Nat} (hsorted : os.Pairwise (· < ·))
    (hos : os = xs ++ o :: ys) (ho' : o' ∈ os) (hlt : o < o') (hnext : ∀ p ∈ os, o < p → o' ≤ p) :
    ys.head? = some o' := by
  subst hos
  obtain ⟨-, hright, hcross⟩ := List.pairwise_append.mp hsorted
  obtain ⟨hbehind, hys⟩ := List.pairwise_cons.mp hright
  have hmem : o' ∈ ys := by
    rcases List.mem_append.mp ho' with hx | hx
    · have := hcross o' hx o List.mem_cons_self
      omega
    · rcases List.mem_cons.mp hx with rfl | hx
      · omega
      · exact hx
  cases ys with
  | nil => cases hmem
  | cons y ys =>
    have hle : o' ≤ y := hnext y (by simp) (hbehind y List.mem_cons_self)
    rcases List.mem_cons.mp hmem with rfl | hmem
    · rfl
    · have := (List.pairwise_cons.mp hys).1 o' hmem
      omega

/-- At the offset of an entry that is written down as it is, its instruction is read. -/
theorem Encoding.eq_of_placed {links : Links} {range : JumpRange} {nodes : List Node}
    {count : Nat} {e : Encoded} {slots : List Slot} (he : Encoding links range nodes count e slots)
    (hdoc : Documented links.pool nodes) (hclosed : Closed nodes e.wideFallthroughs) {i o : Nat}
    {ins : Instr Label} {s : Slot} {ins' : Instr Nat}
    (hi : Placed nodes slots i (.instr ins) s o) (hs : isWideCondition s = false)
    (h : (o, ins') ∈ readings (spelling nodes count slots)) :
    ins' = ins.ascending.map (leadsTo (spelling nodes count slots)) := by
  have hsame := he.siteMap_standsAt hdoc
  have hpos := he.width_placed hdoc hi rfl o
  have hread := he.readFrom hdoc hclosed h
  cases hread with
  | whole hj hs' =>
    obtain rfl := hsame.unique ⟨_, _, hi, rfl⟩ ⟨_, _, hj, rfl⟩
    rw [Node.instr.inj (hi.unique hj).1]
  | skip hj hs' =>
    obtain rfl := hsame.unique ⟨_, _, hi, rfl⟩ ⟨_, _, hj, rfl⟩
    obtain ⟨-, rfl, -⟩ := hi.unique hj
    rw [hs] at hs'
    cases hs'
  | @jump j o op t s' hj hs' =>
    obtain ⟨-, -, -, hwidth⟩ := he.wide_placed hj hs' o
    obtain rfl := hi.eq_of_within hj (Nat.le_refl (o + 3)) (by omega) (by omega) (by omega)
    have := (hi.unique hj).2.2
    omega

end Code

/-- The frame behind an instruction, as far as it is known. -/
def FlowGraph.behind? (g : FlowGraph) (w : Work) (i : Nat) : Option Frame :=
  match g.program.nodes[i]?, w.frame? i with
  | some (.instr ins), some f => (g.program.step i ins f).toOption
  | _, _ => none

theorem FlowGraph.behind?_eq_some {g : FlowGraph} {w : Work} {i : Nat} {after : Frame} :
    g.behind? w i = some after ↔ ∃ ins f, g.program.nodes[i]? = some (.instr ins) ∧
      w.frame? i = some f ∧ g.program.step i ins f = .ok after := by
  unfold behind?
  constructor
  · intro h
    split at h
    · rename_i ins f hn hf
      refine ⟨ins, f, hn, hf, ?_⟩
      cases hstep : g.program.step i ins f with
      | error => rw [hstep] at h; cases h
      | ok after' => rw [hstep] at h; rw [← Option.some.inj h]
    · cases h
  · rintro ⟨ins, f, hn, hf, hstep⟩
    rw [hn, hf]
    simp only [hstep]
    rfl

/-- A handler by places in a list is one by offsets in the code. -/
structure Handler.EncodedAs (e : Code.Encoded) (k k' : Handler) : Prop where
  start : e.offsets[k.start]? = some k'.start
  stop : e.offsets[k.stop]? = some k'.stop
  target : e.offsets[k.target]? = some k'.target
  caught : k'.catchType = k.catchType

namespace Analysis.Searched

open Code Listing

variable {m : MethodContext} {l : InstrList} {links : Links} {h : Hierarchy} {a : Analysis}
  {g : FlowGraph} {entry : Frame} {w : Work}
  (hs : Searched m l links.pool h .strict a g entry w) (hl : h.Lawful) {range : JumpRange}
  {e : Encoded} {slots : List Code.Slot}
  (he : Encoding links range l.nodes.toList l.labelCount e slots)
  (hdoc : Documented links.pool l.nodes.toList)

include hs hl he hdoc

/-- The frame of an entry covers what is known at its offset. -/
theorem roofed {j : Nat} {f : Frame} (hf : w.frame? j = some f) : ∃ n s o,
    Placed l.nodes.toList slots j n s o ∧
      f.Meets h (roofOf w.frame? (g.behind? w) l.nodes.toList slots) o := by
  obtain ⟨-, -, hsettles⟩ := hs.settles hl
  have hsettled := (hsettles hf).2
  have hnodes : g.program.nodes = l.nodes := by rw [hs.program]
  have hlt : j < l.nodes.size := hnodes ▸ hsettled.node
  have hnode : l.nodes[j]? = some l.nodes[j] := Array.getElem?_eq_getElem hlt
  obtain ⟨s, o, hplaced⟩ := exists_placed he.settled.length_eq
    (Array.getElem?_toList.trans hnode)
  refine ⟨_, s, o, hplaced, ?_⟩
  by_cases hreal : l.nodes[j].isReal
  · exact ⟨f, (he.roofOf_eq_some hdoc).mpr ⟨j, _, s, o, hplaced, .inl ⟨hreal, rfl, hf⟩⟩,
      Frame.covers_refl f⟩
  · -- a marker has the offset of what comes behind it
    have hmark : l.nodes[j].isReal = false := by simpa using hreal
    obtain ⟨f', hf', hcovers⟩ := hsettled.passes (by rw [hnodes]; exact hnode) hmark
    obtain ⟨n', s', o', hplaced', above, habove, hover⟩ := roofed hf'
    have hoffset := hplaced.next hplaced'
    rw [width_mark (he.settled_placed hplaced) hmark, Nat.add_zero] at hoffset
    subst hoffset
    exact ⟨above, habove, hover.trans hl hcovers⟩
termination_by l.nodes.size - j

/-- What is handed on to an entry stays below what is known at its offset. -/
theorem meets_of_followed {j : Nat} {f : Frame}
    (hf : Work.Followed (Frame.Covers h (· = ·)) w (j, f)) : ∃ n s o,
      Placed l.nodes.toList slots j n s o ∧
        f.Meets h (roofOf w.frame? (g.behind? w) l.nodes.toList slots) o := by
  obtain ⟨f', hf', hcovers⟩ := hf
  obtain ⟨n, s, o, hplaced, above, habove, hover⟩ := hs.roofed hl he hdoc hf'
  exact ⟨n, s, o, hplaced, above, habove, hover.trans hl hcovers⟩

/-- What is handed on to a label stays below what is known where the label leads to. -/
theorem meets_target {j : Nat} {lab : Label} {f : Frame}
    (hj : lab.position? l.labelPositions = some j)
    (hf : Work.Followed (Frame.Covers h (· = ·)) w (j, f)) :
    f.Meets h (roofOf w.frame? (g.behind? w) l.nodes.toList slots)
      (leadsTo (spelling l.nodes.toList l.labelCount slots) lab) := by
  obtain ⟨n, s, o, hplaced, hmeets⟩ := hs.meets_of_followed hl he hdoc hf
  obtain ⟨s', o', hplaced', hoffset⟩ := he.offset?_position hj
  obtain ⟨-, -, rfl⟩ := hplaced.unique hplaced'
  rwa [leadsTo, hoffset]

section hands

variable {i o o' : Nat} {ins : Instr Label} {s : Code.Slot} {before after : Frame}
  (hands : Work.HandsOn g (Frame.Covers h (· = ·)) w i ins before after)
  (hi : Placed l.nodes.toList slots i (.instr ins) s o)

include hands hi

/-- What is handed on to the next entry stays below what is known behind the instruction. -/
theorem meets_next (hfall : ins.fallsThrough) :
    after.Meets h (roofOf w.frame? (g.behind? w) l.nodes.toList slots) (o + s.width o) := by
  obtain ⟨n, s', o', hplaced, hmeets⟩ := hs.meets_of_followed hl he hdoc (hands.next hfall)
  rwa [hi.next hplaced] at hmeets

/-- What an exception leaves stays below what is known at its handler. -/
theorem meets_handler {k k' : Handler} (hk : k ∈ g.handlers) (hat : k.EncodedAs e k')
    (hle : o ≤ o') (hlt : o' < o + s.width o) (hstart : k'.start ≤ o') (hstop : o' < k'.stop)
    {f : Frame} (hf : f = before ∨ f = after) :
    Frame.Meets h (roofOf w.frame? (g.behind? w) l.nodes.toList slots) k'.target
      ⟨f.locals, [k'.catchType]⟩ := by
  obtain ⟨_, _, hfrom⟩ := he.placed_of_offset hat.start
  obtain ⟨_, _, hto⟩ := he.placed_of_offset hat.stop
  have hstart' : k.start ≤ i := by
    by_contra hgt
    have := hi.behind hfrom (Nat.lt_of_not_le hgt)
    omega
  have hstop' : i < k.stop := by
    by_contra hge
    have := hto.mono hi (Nat.le_of_not_lt hge)
    omega
  obtain ⟨n, s', o'', hplaced, hmeets⟩ :=
    hs.meets_of_followed hl he hdoc (hands.raised k hk hstart' hstop' f hf)
  have htarget := he.offset_placed hplaced
  rw [hat.target] at htarget
  rw [hat.caught, Option.some.inj htarget]
  exact hmeets

end hands

/-- Where the frames by offsets come from: from an entry, or from behind a condition that became
wide. -/
theorem roof_cases {o : Nat} {above : Frame}
    (habove : roofOf w.frame? (g.behind? w) l.nodes.toList slots o = some above) :
    (∃ i ins s after, Placed l.nodes.toList slots i (.instr ins) s o ∧
      w.frame? i = some above ∧ Work.HandsOn g (Frame.Covers h (· = ·)) w i ins above after) ∨
    ∃ i op t s o' before, Placed l.nodes.toList slots i (.instr (.jump op t)) s o' ∧
      isWideCondition s ∧ o = o' + 3 ∧ w.frame? i = some before ∧
        Work.HandsOn g (Frame.Covers h (· = ·)) w i (.jump op t) before above := by
  obtain ⟨-, -, hsettles⟩ := hs.settles hl
  have hnode : ∀ {i n s o}, Placed l.nodes.toList slots i n s o →
      g.program.nodes[i]? = some n := fun {i n s o} hi => by
    rw [hs.program, ← Array.getElem?_toList]
    exact hi.node
  obtain ⟨i, n, s, o', hi, hknown⟩ := (he.roofOf_eq_some hdoc).mp habove
  rcases hknown with ⟨hreal, rfl, hf⟩ | ⟨hwide, rfl, hbehind⟩
  · obtain ⟨ins, rfl⟩ := Node.exists_instr hreal
    obtain ⟨after, hands⟩ := (hsettles hf).2.handsOn (hnode hi)
    exact .inl ⟨i, ins, s, after, hi, hf, hands⟩
  · obtain ⟨op, t, rfl, -⟩ := he.wide_placed hi hwide o'
    obtain ⟨ins, before, hn, hf, hstep⟩ := FlowGraph.behind?_eq_some.mp hbehind
    rw [hnode hi] at hn
    obtain rfl := Node.instr.inj (Option.some.inj hn)
    obtain ⟨after, hands⟩ := (hsettles hf).2.handsOn (hnode hi)
    obtain rfl := Except.ok.inj (hstep.symm.trans hands.step)
    exact .inr ⟨i, op, t, s, o', before, hi, hwide, rfl, hf, hands⟩

section steps

variable {handlers : List Handler}
  (hhandlers : ∀ k' ∈ handlers, ∃ k ∈ g.handlers, k.EncodedAs e k')
  {i o : Nat} {s : Code.Slot} {before after : Frame} {next? : Option Nat}

include hhandlers

/-- An instruction that is written down as it is stays below the roof. -/
theorem step_whole {ins : Instr Label}
    (hands : Work.HandsOn g (Frame.Covers h (· = ·)) w i ins before after)
    (hi : Placed l.nodes.toList slots i (.instr ins) s o)
    (hnext : ∀ above, roofOf w.frame? (g.behind? w) l.nodes.toList slots (o + s.width o) =
      some above → next? = some (o + s.width o)) :
    Roof.Step h handlers g.program (StandsAt l.nodes.toList slots)
      (roofOf w.frame? (g.behind? w) l.nodes.toList slots) o next?
      (ins.ascending.map (leadsTo (spelling l.nodes.toList l.labelCount slots))) i before after where
  site _ _ := ⟨_, _, hi, rfl⟩
  step := by
    rw [Instr.step_map, step_ascending]
    exact hands.step
  next hfall := by
    rw [Instr.fallsThrough_map, fallsThrough_ascending] at hfall
    obtain ⟨above, habove, hcovers⟩ := hs.meets_next hl he hdoc hands hi hfall
    exact ⟨_, hnext above habove, above, habove, hcovers⟩
  targets t ht := by
    rw [Instr.targets_map, List.mem_map] at ht
    obtain ⟨lab, hlab, rfl⟩ := ht
    obtain ⟨j, hj, hfollowed⟩ := hands.targets lab ((mem_targets_ascending ins).mp hlab)
    rw [hs.positions] at hj
    exact hs.meets_target hl he hdoc hj hfollowed
  raised k' hk' hstart hstop := by
    obtain ⟨k, hk, hat⟩ := hhandlers k' hk'
    have hwidth := he.width_placed hdoc hi rfl o
    have hmeets : ∀ {f}, f = before ∨ f = after → Frame.Meets h _ k'.target
        ⟨f.locals, [k'.catchType]⟩ := fun hf =>
      hs.meets_handler hl he hdoc hands hi hk hat (Nat.le_refl o) (by omega) hstart hstop hf
    exact ⟨hmeets (.inl rfl), hmeets (.inr rfl)⟩

variable {op : UInt8} {t : Label}
  (hands : Work.HandsOn g (Frame.Covers h (· = ·)) w i (.jump op t) before after)
  (hi : Placed l.nodes.toList slots i (.instr (.jump op t)) s o) (hwide : isWideCondition s)

include hands hi hwide

/-- The condition of a detour stays below the roof. -/
theorem step_skip (hf : w.frame? i = some before) :
    Roof.Step h handlers g.program (StandsAt l.nodes.toList slots)
      (roofOf w.frame? (g.behind? w) l.nodes.toList slots) o (some (o + 3))
      (.jump ((Opcode.invertJump? op).getD op) (o + 8)) i before after := by
  obtain ⟨-, -, -, hwidth⟩ := he.wide_placed hi hwide o
  have hop := he.inverts_placed hdoc hi hwide
  have hnode : g.program.nodes[i]? = some (.instr (.jump op t)) := by
    rw [hs.program, ← Array.getElem?_toList]
    exact hi.node
  refine ⟨fun _ _ => ⟨_, _, hi, rfl⟩, ?_, fun _ => ?_, fun t' ht' => ?_,
    fun k' hk' hstart hstop => ?_⟩
  · rw [step_invertJump? _ t before hop]
    exact hands.step
  · refine ⟨o + 3, rfl, after, (he.roofOf_eq_some hdoc).mpr ⟨i, _, s, o, hi, .inr ⟨hwide, rfl, ?_⟩⟩,
      Frame.covers_refl after⟩
    exact FlowGraph.behind?_eq_some.mpr ⟨_, before, hnode, hf, hands.step⟩
  · rw [List.mem_singleton.mp ht', ← hwidth]
    exact hs.meets_next hl he hdoc hands hi (fallsThrough_of_invertJump? op hop)
  · obtain ⟨k, hk, hat⟩ := hhandlers k' hk'
    have hmeets : ∀ {f}, f = before ∨ f = after → Frame.Meets h _ k'.target
        ⟨f.locals, [k'.catchType]⟩ := fun hf =>
      hs.meets_handler hl he hdoc hands hi hk hat (Nat.le_refl o) (by omega) hstart hstop hf
    exact ⟨hmeets (.inl rfl), hmeets (.inr rfl)⟩

/-- The jump of a detour stays below the roof. -/
theorem step_jump :
    Roof.Step h handlers g.program (StandsAt l.nodes.toList slots)
      (roofOf w.frame? (g.behind? w) l.nodes.toList slots) (o + 3) next?
      (.jump Opcode.goto (leadsTo (spelling l.nodes.toList l.labelCount slots) t)) i after
      after := by
  obtain ⟨-, -, -, hwidth⟩ := he.wide_placed hi hwide o
  refine ⟨fun _ h => (by cases h), rfl, fun hfall => ?_, fun t' ht' => ?_,
    fun k' hk' hstart hstop => ?_⟩
  · cases hfall
  · rw [List.mem_singleton.mp ht']
    obtain ⟨j, hj, hfollowed⟩ := hands.targets t List.mem_cons_self
    rw [hs.positions] at hj
    exact hs.meets_target hl he hdoc hj hfollowed
  · obtain ⟨k, hk, hat⟩ := hhandlers k' hk'
    have hle : o ≤ o + 3 := Nat.le_add_right o 3
    have hlt : o + 3 < o + s.width o := by omega
    have hmeets := hs.meets_handler hl he hdoc hands hi hk hat hle hlt hstart hstop (.inr rfl)
    exact ⟨hmeets, hmeets⟩

end steps

/-- **The frames of an analysis are a roof over the code that its list is encoded to.** -/
theorem roof (hclosed : Closed l.nodes.toList e.wideFallthroughs) {handlers : List Handler}
    (hhandlers : ∀ k' ∈ handlers, ∃ k ∈ g.handlers, k.EncodedAs e k') :
    Roof h (readings (spelling l.nodes.toList l.labelCount slots)) handlers g.program
      (StandsAt l.nodes.toList slots) (roofOf w.frame? (g.behind? w) l.nodes.toList slots)
      w.maxStack w.maxLocals := by
  obtain ⟨-, -, hsettles⟩ := hs.settles hl
  have hstrict : g.program.mode = .strict := by rw [hs.program]
  have hnode : ∀ {i n s o}, Placed l.nodes.toList slots i n s o →
      g.program.nodes[i]? = some n := fun {i n s o} hi => by
    rw [hs.program, ← Array.getElem?_toList]
    exact hi.node
  have hinside : ∀ {o above}, roofOf w.frame? (g.behind? w) l.nodes.toList slots o = some above →
      o ∈ starts (spelling l.nodes.toList l.labelCount slots) := by
    intro o above habove
    rcases hs.roof_cases hl he hdoc habove with ⟨i, ins, s, after, hi, -⟩ |
      ⟨i, op, t, s, o', before, hi, hwide, rfl, -⟩
    · exact (he.mem_starts_placed hi).1
    · exact (he.mem_starts_placed hi).2 hwide
  constructor
  · intro o above habove
    rw [map_fst_readings]
    exact hinside habove
  · intro o above habove
    rcases hs.roof_cases hl he hdoc habove with ⟨i, ins, s, after, -, hf, -⟩ |
      ⟨i, op, t, s, o', before, -, -, -, hf, hands⟩
    · exact (hsettles hf).1
    · exact Program.step_sound hstrict (hsettles hf).1 hands.step
  · intro o above habove
    rcases hs.roof_cases hl he hdoc habove with ⟨i, ins, s, after, hi, hf, -⟩ |
      ⟨i, op, t, s, o', before, -, -, -, -, hands⟩
    · obtain ⟨-, -, -, -, hdepth, -, hlength, -⟩ := (hsettles hf).2.edges (hnode hi)
      exact ⟨hdepth, hlength⟩
    · exact ⟨hands.depth, hands.length⟩
  · intro xs ys o ins above hsplit habove
    have hmem : (o, ins) ∈ readings (spelling l.nodes.toList l.labelCount slots) := by
      rw [hsplit]
      simp
    have hstarts : starts (spelling l.nodes.toList l.labelCount slots) =
        xs.map Prod.fst ++ o :: ys.map Prod.fst := by
      rw [← map_fst_readings, hsplit, List.map_append, List.map_cons]
    have hnext : ∀ {o'}, o' ∈ starts (spelling l.nodes.toList l.labelCount slots) → o < o' →
        (∀ p ∈ starts (spelling l.nodes.toList l.labelCount slots), o < p → o' ≤ p) →
          (ys.map Prod.fst).head? = some o' :=
      head?_behind (he.positioned hdoc).sorted hstarts
    -- the entry that is read is the one whose frame is known
    have hsame := he.siteMap_standsAt hdoc
    have hwidth : ∀ {i ins s o}, Placed l.nodes.toList slots i (.instr ins) s o →
        0 < s.width o ∧ (isWideCondition s → s.width o = 8) := by
      intro i ins s o hi
      refine ⟨he.width_placed hdoc hi rfl o, fun hwide => ?_⟩
      obtain ⟨-, -, -, hwidth⟩ := he.wide_placed hi hwide o
      exact hwidth
    have hread := he.readFrom hdoc hclosed hmem
    rcases hs.roof_cases hl he hdoc habove with ⟨i, ins', s, after, hi, hf, hands⟩ |
      ⟨i, op, t, s, o', before, hi, hwide, hoffset, hf, hands⟩
    · refine ⟨i, after, ?_, hands.depth, hands.length⟩
      obtain ⟨hpos, -⟩ := hwidth hi
      cases hread with
      | whole hj hnarrow =>
        obtain rfl := hsame.unique ⟨_, _, hi, rfl⟩ ⟨_, _, hj, rfl⟩
        obtain ⟨hins, rfl, -⟩ := hi.unique hj
        obtain rfl := Node.instr.inj hins
        refine hs.step_whole hl he hdoc hhandlers hands hi fun above' habove' => ?_
        refine hnext (hinside habove') (by omega) fun p hp hlt => ?_
        rcases he.start_behind hdoc hclosed hi hp hlt with ⟨hwide, -⟩ | hle
        · rw [hnarrow] at hwide
          cases hwide
        · exact hle
      | skip hj hwide =>
        obtain rfl := hsame.unique ⟨_, _, hi, rfl⟩ ⟨_, _, hj, rfl⟩
        obtain ⟨hins, rfl, -⟩ := hi.unique hj
        obtain rfl := Node.instr.inj hins
        have hskip : (ys.map Prod.fst).head? = some (o + 3) := by
          refine hnext ((he.mem_starts_placed hi).2 hwide) (by omega) fun p hp hlt => ?_
          have := (hwidth hi).2 hwide
          rcases he.start_behind hdoc hclosed hi hp hlt with ⟨-, rfl⟩ | hle
          · exact Nat.le_refl _
          · omega
        rw [hskip]
        exact hs.step_skip hl he hdoc hhandlers hands hi hwide hf
      | jump hj hwide =>
        have := (hwidth hj).2 hwide
        obtain rfl := hj.eq_of_within hi (Nat.le_add_right _ 3) (by omega) (Nat.le_refl _) (by omega)
        have := (hi.unique hj).2.2
        omega
    · have := (hwidth hi).2 hwide
      refine ⟨i, above, ?_, hands.depth, hands.length⟩
      cases hread with
      | whole hj hnarrow =>
        obtain ⟨hpos, -⟩ := hwidth hj
        obtain rfl := hj.eq_of_within hi (Nat.le_refl o) (by omega) (by omega) (by omega)
        obtain ⟨-, rfl, -⟩ := hi.unique hj
        rw [hnarrow] at hwide
        cases hwide
      | skip hj hwide' =>
        obtain ⟨hpos, -⟩ := hwidth hj
        obtain rfl := hj.eq_of_within hi (Nat.le_refl o) (by omega) (by omega) (by omega)
        have := (hi.unique hj).2.2
        omega
      | jump hj hwide' =>
        obtain rfl := Nat.add_right_cancel hoffset
        obtain rfl := hsame.unique ⟨_, _, hi, rfl⟩ ⟨_, _, hj, rfl⟩
        obtain ⟨hins, rfl, -⟩ := hi.unique hj
        obtain ⟨rfl, rfl⟩ := Instr.jump.inj (Node.instr.inj hins)
        exact hs.step_jump hl he hdoc hhandlers hands hi hwide

end Analysis.Searched
end ClassWeave
