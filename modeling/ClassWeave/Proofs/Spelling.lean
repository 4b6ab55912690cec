import ClassWeave.Proofs.Layouts
import ClassWeave.Proofs.Listings
import ClassWeave.Proofs.Pieces

/-!
# What encoding does to a list

Encoding changes a list in two ways before it is written down: the keys of switches ascend, and a
conditional jump whose target is too far away becomes a detour, where the opposite condition jumps
over a jump without a condition. `spellOut` is the list with these changes made; `spelledFrom` adds
the offsets that its entries get.
-/

namespace ClassWeave

/-- The instruction with its keys in ascending order; equal keys keep their order. -/
def Instr.ascending {τ : Type} : Instr τ → Instr τ
  | lookupSwitch d ps => lookupSwitch d (ps.mergeSort fun a b => a.1 ≤ b.1)
  | i => i

namespace Node

/-- The entry with its keys in ascending order. -/
def ascending : Node → Node
  | instr i => instr i.ascending
  | n => n

/-- A conditional jump as a detour: the opposite condition skips a jump to the target. -/
def detour (skip : Label) : Node → List Node
  | instr (.jump op t) =>
    [instr (.jump ((Opcode.invertJump? op).getD op) skip), instr (.jump Opcode.goto t), label skip]
  | n => [n]

end Node

namespace Code

/-- The list as it is written down, where `behind` are the entries behind those that become detours.
The labels from `count` on are not used in it. -/
def spellOut (behind : List Nat) (count : Nat) (nodes : List Node) : List Node :=
  nodes.zipIdx.flatMap fun (n, i) =>
    if i + 1 ∈ behind then n.detour ⟨count + i⟩ else [n.ascending]

/-- The entries that an entry becomes at an offset. -/
def spelledAt (skip : Label) (n : Node) (s : Slot) (o : Nat) : List (Node × Nat) :=
  if isWideCondition s then (n.detour skip).zip [o, o + 3, o + 8] else [(n.ascending, o)]

/-- The entries that a list becomes from an entry on, with their offsets. -/
def spelledFrom (count k o : Nat) : List (Node × Slot) → List (Node × Nat)
  | [] => []
  | (n, s) :: rest => spelledAt ⟨count + k⟩ n s o ++ spelledFrom count (k + 1) (o + s.width o) rest

open Listing

variable {links : Links} {count k o : Nat} {n : Node} {s : Slot} {skip : Label}
  {pairs : List (Node × Slot)}

/-- The pieces stand for the entries. -/
def Settled (links : Links) (pairs : List (Node × Slot)) : Prop :=
  ∀ p ∈ pairs, p.1.Settled links p.2.piece

/-- The instructions of a list come in the forms that they are built in. -/
def Documented (p : Pool) (nodes : List Node) : Prop := ∀ i, .instr i ∈ nodes → i.Documented p

/-- Only a jump becomes a detour. -/
theorem eq_jump_of_isWideCondition (hn : n.Settled links s.piece) (hs : isWideCondition s) :
    ∃ op t, n = .instr (.jump op t) ∧ s.piece = .jump op t ∧ s.wide = true ∧ op ≠ Opcode.goto ∧
      op ≠ Opcode.jsr := by
  obtain ⟨piece, wide⟩ := s
  unfold isWideCondition at hs
  split at hs
  · rename_i op t hpiece
    obtain rfl : piece = .jump op t := hpiece
    simp only [Bool.and_eq_true, bne_iff_ne] at hs
    refine ⟨op, t, ?_, rfl, hs.1.1, hs.1.2, hs.2⟩
    cases n with
    | label | line => cases hn
    | instr i =>
      cases Instr.Settled.shape hn
      rfl
  · cases hs

/-- An entry becomes a detour or stays one entry. -/
theorem spelledAt_cases (hn : n.Settled links s.piece) (skip : Label) (o : Nat) :
    (∃ op t, n = .instr (.jump op t) ∧ isWideCondition s ∧ s.width o = 8 ∧
      spelledAt skip n s o =
        [(.instr (.jump ((Opcode.invertJump? op).getD op) skip), o),
          (.instr (.jump Opcode.goto t), o + 3), (.label skip, o + 8)]) ∨
      (isWideCondition s = false ∧ spelledAt skip n s o = [(n.ascending, o)]) := by
  by_cases hs : isWideCondition s
  · obtain ⟨op, t, rfl, hpiece, hwide, hgoto, hjsr⟩ := eq_jump_of_isWideCondition hn hs
    refine .inl ⟨op, t, rfl, hs, ?_, ?_⟩
    · simp [Slot.width, hpiece, hwide, hgoto, hjsr]
    · rw [spelledAt, if_pos hs]
      rfl
  · refine .inr ⟨by simpa using hs, ?_⟩
    rw [spelledAt, if_neg hs]

theorem isReal_ascending (n : Node) : n.ascending.isReal = n.isReal := by
  cases n <;> rfl

theorem width_mark (hn : n.Settled links s.piece) (hreal : n.isReal = false) (o : Nat) :
    s.width o = 0 := by
  obtain ⟨piece, wide⟩ := s
  cases n with
  | instr => cases hreal
  | label l =>
    obtain rfl : piece = .label l := hn
    rfl
  | line m =>
    obtain rfl : piece = .line m := hn
    rfl

theorem width_real (hn : n.Settled links s.piece) (hdoc : ∀ i, n = .instr i → i.Documented links.pool)
    (hreal : n.isReal) (o : Nat) : 0 < s.width o := by
  cases n with
  | instr i => exact width_pos hn (hdoc i rfl) o
  | _ => cases hreal

section spelledFrom

variable (hsettled : Settled links pairs)
  (hdoc : ∀ p ∈ pairs, ∀ i, p.1 = .instr i → i.Documented links.pool)

include hsettled hdoc

/-- The entries lie one behind the other, from the first offset on to the end. -/
theorem positioned_spelledFrom_end (k o : Nat) (l : Label) :
    Positioned (spelledFrom count k o pairs ++ [(.label l, endFrom o (pairs.map Prod.snd))]) ∧
      ∃ m ns, spelledFrom count k o pairs ++ [(.label l, endFrom o (pairs.map Prod.snd))] =
        (m, o) :: ns := by
  induction pairs generalizing k o with
  | nil => exact ⟨.singleton _, _, _, rfl⟩
  | cons p pairs ih =>
    obtain ⟨n, s⟩ := p
    have hn : n.Settled links s.piece := hsettled _ List.mem_cons_self
    obtain ⟨hchain, m, ns, hrest⟩ := ih (fun q hq => hsettled q (List.mem_cons_of_mem _ hq))
      (fun q hq => hdoc q (List.mem_cons_of_mem _ hq)) (k + 1) (o + s.width o)
    rw [spelledFrom, List.map_cons, endFrom, List.append_assoc]
    rw [hrest] at hchain ⊢
    rcases spelledAt_cases hn ⟨count + k⟩ o with ⟨op, t, rfl, hs, hwidth, hat⟩ | ⟨hs, hat⟩
    · rw [hat]
      refine ⟨?_, _, _, rfl⟩
      refine List.isChain_cons_cons.mpr ⟨?_, List.isChain_cons_cons.mpr ⟨?_,
        List.isChain_cons_cons.mpr ⟨?_, hchain⟩⟩⟩
      · simp [Behind, Node.isReal]
      · simp [Behind, Node.isReal]
      · simp [Behind, Node.isReal, hwidth]
    · rw [hat]
      refine ⟨List.isChain_cons_cons.mpr ⟨?_, hchain⟩, _, _, rfl⟩
      rw [Behind, isReal_ascending]
      split
      · rename_i hreal
        have := width_real hn (hdoc _ List.mem_cons_self) hreal o
        simp only
        omega
      · rename_i hreal
        rw [width_mark hn (by simpa using hreal)]
        rfl

/-- Instructions lie in front of the end. -/
theorem positioned_spelledFrom (k o : Nat) : Positioned (spelledFrom count k o pairs) ∧
    ∀ b ∈ spelledFrom count k o pairs, b.1.isReal → b.2 < endFrom o (pairs.map Prod.snd) := by
  have hall : Positioned (spelledFrom count k o pairs ++
      [(.label ⟨0⟩, endFrom o (pairs.map Prod.snd))]) :=
    (positioned_spelledFrom_end hsettled hdoc k o ⟨0⟩).1
  refine ⟨hall.left_of_append, fun b hb hreal => ?_⟩
  obtain ⟨n, o'⟩ := b
  cases n with
  | instr i =>
    obtain ⟨xs, ys, hsplit⟩ := List.append_of_mem hb
    rw [hsplit, List.append_assoc] at hall
    exact Positioned.lt hall.right_of_append (.label ⟨0⟩, _) (by simp)
  | label | line => cases hreal

end spelledFrom

/-! ## Labels -/

section labels

variable {l : Label} (hsettled : Settled links pairs)

theorem offset?_spelledAt (hn : n.Settled links s.piece) (hl : skip ≠ l) :
    offset? l (spelledAt skip n s o) = if n = .label l then some o else none := by
  rcases spelledAt_cases hn skip o with ⟨op, t, rfl, -, -, hat⟩ | ⟨-, hat⟩
  · rw [hat]
    simp [offset?, hl]
  · rw [hat]
    cases n <;> simp [offset?, Node.ascending]

include hsettled

/-- The labels of the list keep the offsets that the layout gives them. -/
theorem offset?_spelledFrom {lay : Layout} (k : Nat) (hcount : l.id < count)
    (hsize : l.id < lay.labels.size) :
    ((pairs.map Prod.snd).foldl Layout.place lay).offset? l =
      (offset? l (spelledFrom count k lay.length pairs)).or (lay.offset? l) := by
  induction pairs generalizing lay k with
  | nil => rfl
  | cons p pairs ih =>
    obtain ⟨n, s⟩ := p
    have hn : n.Settled links s.piece := hsettled _ List.mem_cons_self
    have hne : (⟨count + k⟩ : Label) ≠ l := by
      rintro rfl
      simp only at hcount
      omega
    have hsize' : l.id < (lay.place s).labels.size := by
      unfold Layout.place
      split <;> simp [hsize]
    have hplace : (lay.place s).offset? l =
        (if n = .label l then some lay.length else none).or (lay.offset? l) := by
      by_cases hlabel : n = .label l
      · subst hlabel
        have hpiece : s.piece = .label l := hn
        rw [Layout.offset?, Layout.place, hpiece, if_pos rfl]
        simp [hsize]
      · rw [if_neg hlabel, Option.none_or]
        refine Layout.offset?_place_of_ne fun hpiece => hlabel ?_
        cases n with
        | label l' =>
          have hl' : s.piece = .label l' := hn
          rw [hl'] at hpiece
          rw [Piece.label.inj hpiece]
        | line m =>
          have hl' : s.piece = .line m := hn
          rw [hl'] at hpiece
          cases hpiece
        | instr i =>
          have hshape := Instr.Settled.shape (i := i) hn
          rw [hpiece] at hshape
          cases hshape
    rw [List.map_cons, List.foldl_cons, ih (fun q hq => hsettled q (List.mem_cons_of_mem _ hq))
      (k + 1) hsize', hplace, spelledFrom, offset?_append, offset?_spelledAt hn hne,
      Option.or_assoc]
    rfl

/-- The label that a detour skips to belongs to no other entry. -/
theorem offset?_skip_eq_none (hmarks : ∀ p ∈ pairs, ∀ l, p.1 = .label l → l.id < count) {j : Nat}
    (hj : j < k) : offset? ⟨count + j⟩ (spelledFrom count k o pairs) = none := by
  induction pairs generalizing k o with
  | nil => rfl
  | cons p pairs ih =>
    obtain ⟨n, s⟩ := p
    have hn : n.Settled links s.piece := hsettled _ List.mem_cons_self
    have hne : (⟨count + k⟩ : Label) ≠ ⟨count + j⟩ := by
      intro h
      have := Label.mk.inj h
      omega
    have hnode : n ≠ .label ⟨count + j⟩ := by
      intro h
      have := hmarks _ List.mem_cons_self _ h
      simp only at this
      omega
    rw [spelledFrom, offset?_append, offset?_spelledAt hn hne, if_neg hnode, Option.or_none]
    exact ih (fun q hq => hsettled q (List.mem_cons_of_mem _ hq))
      (fun q hq => hmarks q (List.mem_cons_of_mem _ hq)) (by omega)

theorem offset?_skip (hmarks : ∀ p ∈ pairs, ∀ l, p.1 = .label l → l.id < count)
    (hn : n.Settled links s.piece) (hs : isWideCondition s) :
    offset? ⟨count + k⟩ (spelledFrom count k o ((n, s) :: pairs)) = some (o + 8) := by
  rw [spelledFrom, offset?_append, offset?_skip_eq_none hsettled hmarks (Nat.lt_succ_self k)]
  rcases spelledAt_cases hn ⟨count + k⟩ o with ⟨op, t, rfl, -, -, hat⟩ | ⟨hs', -⟩
  · rw [hat]
    simp [offset?]
  · rw [hs'] at hs
    cases hs

end labels

/-! ## Lines -/

/-- Only a line marker gives a line entry. -/
theorem lineAt_of_settled (hn : n.Settled links s.piece) (o : Nat) :
    lineAt s o = match n with
      | .line m => some ⟨UInt16.ofNat o, m⟩
      | _ => none := by
  obtain ⟨piece, wide⟩ := s
  cases n with
  | label l =>
    obtain rfl : piece = .label l := hn
    rfl
  | line m =>
    obtain rfl : piece = .line m := hn
    rfl
  | instr i => cases Instr.Settled.shape hn <;> rfl

theorem linesAt_spelledAt (hn : n.Settled links s.piece) {o' : Nat} (ho : o ≤ 65535) :
    linesAt (spelledAt skip n s o) o' =
      ((lineAt s o).toList.filter fun e => e.start.toNat = o').map LineEntry.line := by
  obtain ⟨piece, wide⟩ := s
  cases n with
  | label l =>
    obtain rfl : piece = .label l := hn
    rfl
  | line m =>
    obtain rfl : piece = .line m := hn
    have hat : spelledAt skip (.line m) ⟨.line m, wide⟩ o = [(.line m, o)] := rfl
    have hstart : (UInt16.ofNat o).toNat = o := Reader.toNat_ofNat_u16 ho
    rw [hat, linesAt_line]
    by_cases heq : o = o'
    · subst heq
      simp [lineAt, hstart, linesAt]
    · simp [lineAt, hstart, heq, linesAt]
  | instr i =>
    rw [lineAt_of_settled (s := ⟨piece, wide⟩) hn o]
    rcases spelledAt_cases (s := ⟨piece, wide⟩) hn skip o with ⟨op, t, -, -, -, hat⟩ | ⟨-, hat⟩
    · rw [hat]
      rfl
    · rw [hat]
      rfl

theorem linesAt_spelledFrom (hsettled : Settled links pairs) (k : Nat) {o' : Nat}
    (hend : endFrom o (pairs.map Prod.snd) ≤ 65535) :
    linesAt (spelledFrom count k o pairs) o' =
      ((((pairs.map Prod.snd).zip (offsetsFrom o (pairs.map Prod.snd))).filterMap
        fun (s, o) => lineAt s o).filter fun e => e.start.toNat = o').map LineEntry.line := by
  induction pairs generalizing o k with
  | nil => rfl
  | cons p pairs ih =>
    obtain ⟨n, s⟩ := p
    have hn : n.Settled links s.piece := hsettled _ List.mem_cons_self
    have hle := le_endFrom (o + s.width o) (pairs.map Prod.snd)
    have hend : endFrom (o + s.width o) (pairs.map Prod.snd) ≤ 65535 := hend
    have hrest := ih (fun q hq => hsettled q (List.mem_cons_of_mem _ hq)) (k + 1) hend
    rw [spelledFrom, linesAt_append, linesAt_spelledAt hn (by omega), hrest, List.map_cons,
      offsetsFrom, List.zip_cons_cons, List.filterMap_cons, ← List.map_append,
      ← List.filter_append]
    cases hline : lineAt s o with
    | none => simp [hline]
    | some e => simp [hline]

/-! ## Without offsets -/

theorem map_fst_spelledFrom (hsettled : Settled links pairs) {behind : List Nat} (o : Nat)
    (hbehind : ∀ p ∈ pairs.zipIdx k, p.2 + 1 ∈ behind ↔ isWideCondition p.1.2) :
    (spelledFrom count k o pairs).map Prod.fst =
      ((pairs.map Prod.fst).zipIdx k).flatMap fun (n, i) =>
        if i + 1 ∈ behind then n.detour ⟨count + i⟩ else [n.ascending] := by
  induction pairs generalizing o k with
  | nil => rfl
  | cons p pairs ih =>
    obtain ⟨n, s⟩ := p
    have hn : n.Settled links s.piece := hsettled _ List.mem_cons_self
    have hhead := hbehind ((n, s), k) (by simp)
    have hrest := ih (k := k + 1) (fun q hq => hsettled q (List.mem_cons_of_mem _ hq))
      (o + s.width o) fun q hq => hbehind q (by
        rw [List.zipIdx_cons]
        exact List.mem_cons_of_mem _ hq)
    rw [spelledFrom, List.map_append, hrest, List.map_cons, List.zipIdx_cons, List.flatMap_cons]
    refine congrArg (· ++ _) ?_
    simp only [hhead]
    rcases spelledAt_cases hn ⟨count + k⟩ o with ⟨op, t, rfl, hs, -, hat⟩ | ⟨hs, hat⟩
    · rw [hat, if_pos hs]
      rfl
    · rw [hat, if_neg (by simp [hs])]
      rfl

/-- Without detours every entry has the offset of its piece. -/
theorem map_snd_spelledFrom (k o : Nat) (hnarrow : ∀ p ∈ pairs, isWideCondition p.2 = false) :
    (spelledFrom count k o pairs).map Prod.snd = offsetsFrom o (pairs.map Prod.snd) := by
  induction pairs generalizing k o with
  | nil => rfl
  | cons p pairs ih =>
    obtain ⟨n, s⟩ := p
    have hs : isWideCondition s = false := hnarrow _ List.mem_cons_self
    rw [spelledFrom, spelledAt, if_neg (by simp [hs]), List.map_append,
      ih (k + 1) (o + s.width o) fun q hq => hnarrow q (List.mem_cons_of_mem _ hq)]
    rfl

end Code
end ClassWeave
