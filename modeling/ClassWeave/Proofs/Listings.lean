import Mathlib.Data.List.Chain
import ClassWeave.Instr.List

/-!
# What a list of instructions says

Two lists say the same if they have the same instructions in the same order, with the same lines in
front of each, and if every label that an instruction uses stands in front of the same instruction.
The names of labels do not matter, nor does where among other markers a marker stands.
`Listing.program` is what is left of a list then.

When every entry of a list has an offset in some code, labels and lines have that of the instruction
that they stand in front of, and offsets alone tell what a list says.
-/

namespace ClassWeave

namespace Instr

variable {α β γ : Type}

theorem map_map (f : α → β) (g : β → γ) (i : Instr α) :
    (i.map f).map g = i.map fun t => g (f t) := by
  cases i <;> simp [map, Function.comp_def]

theorem map_congr {f g : α → β} {i : Instr α} (h : ∀ t ∈ i.targets, f t = g t) :
    i.map f = i.map g := by
  cases i with
  | jump => simpa [map, targets] using h
  | tableSwitch => simpa [map, targets] using h
  | lookupSwitch d ps =>
    simp only [targets, List.mem_cons, List.mem_map, forall_eq_or_imp, forall_exists_index,
      and_imp, forall_apply_eq_imp_iff₂] at h
    simp only [map, lookupSwitch.injEq]
    exact ⟨h.1, List.map_congr_left fun p hp => by rw [h.2 p hp]⟩
  | _ => rfl

theorem targets_map (f : α → β) (i : Instr α) : (i.map f).targets = i.targets.map f := by
  cases i <;> simp [map, targets, Function.comp_def]

end Instr

namespace Listing

/-- The lines in front of every instruction, and the instruction; `lines` are those in front of the
first entry. -/
def outlineOnto (lines : List UInt16) : List Node → List (List UInt16 × Instr Label)
  | [] => []
  | .instr i :: rest => (lines, i) :: outlineOnto [] rest
  | .line n :: rest => outlineOnto (lines ++ [n]) rest
  | .label _ :: rest => outlineOnto lines rest

/-- The instructions, each with the lines that stand in front of it. -/
def outline (nodes : List Node) : List (List UInt16 × Instr Label) := outlineOnto [] nodes

/-- The number of instructions in front of the last marker of a label. -/
def place? (l : Label) : List Node → Option Nat
  | [] => none
  | n :: rest =>
    match place? l rest with
    | some k => some (if n.isReal then k + 1 else k)
    | none => if n = .label l then some 0 else none

/-- The instructions with their lines, and every label replaced by the number of the instruction
that it stands in front of. -/
def program (nodes : List Node) : List (List UInt16 × Instr (Option Nat)) :=
  (outline nodes).map fun (lines, i) => (lines, i.map fun l => place? l nodes)

/-- The labels that have a marker, in order. -/
def markers (nodes : List Node) : List Label :=
  nodes.filterMap fun
    | .label l => some l
    | _ => none

/-! ## Entries with offsets -/

/-- The offset of an entry and of the one behind it: only instructions take up room. -/
def Behind (a b : Node × Nat) : Prop := if a.1.isReal then a.2 < b.2 else a.2 = b.2

/-- Every entry has the offset of what comes behind it, or is an instruction. -/
def Positioned (ns : List (Node × Nat)) : Prop := ns.IsChain Behind

/-- The instructions with their offsets. -/
def reals (ns : List (Node × Nat)) : List (Nat × Instr Label) :=
  ns.filterMap fun
    | (.instr i, o) => some (o, i)
    | _ => none

/-- The lines at an offset. -/
def linesAt (ns : List (Node × Nat)) (o : Nat) : List UInt16 :=
  ns.filterMap fun
    | (.line n, o') => if o' = o then some n else none
    | _ => none

/-- The offset of the last marker of a label. -/
def offset? (l : Label) : List (Node × Nat) → Option Nat
  | [] => none
  | (n, o) :: rest =>
    match offset? l rest with
    | some o' => some o'
    | none => if n = .label l then some o else none

/-- What a list says, in terms of offsets. -/
def view (ns : List (Node × Nat)) : List (Nat × List UInt16 × Instr (Option Nat)) :=
  (reals ns).map fun (o, i) => (o, linesAt ns o, i.map fun l => offset? l ns)

variable {a b : Node × Nat} {ns : List (Node × Nat)} {o : Nat} {l : Label}

theorem Behind.le (h : Behind a b) : a.2 ≤ b.2 := by
  unfold Behind at h
  split at h <;> omega

theorem Positioned.tail (h : Positioned (a :: ns)) : Positioned ns := List.IsChain.tail h

theorem Positioned.le (h : Positioned (a :: ns)) : ∀ b ∈ ns, a.2 ≤ b.2 := by
  induction ns generalizing a with
  | nil => simp
  | cons c ns ih =>
    obtain ⟨hac, hrest⟩ := List.isChain_cons_cons.mp h
    intro b hb
    rcases List.mem_cons.mp hb with rfl | hb
    · exact hac.le
    · exact Nat.le_trans hac.le (ih hrest b hb)

theorem Positioned.lt {i : Instr Label} (h : Positioned ((.instr i, o) :: ns)) :
    ∀ b ∈ ns, o < b.2 := by
  cases ns with
  | nil => simp
  | cons c ns =>
    obtain ⟨hac, hrest⟩ := List.isChain_cons_cons.mp h
    have hlt : o < c.2 := hac
    have htail : Positioned (c :: ns) := hrest
    intro b hb
    rcases List.mem_cons.mp hb with rfl | hb
    · exact hlt
    · exact Nat.lt_of_lt_of_le hlt (htail.le b hb)

@[simp] theorem reals_nil : reals [] = [] := rfl

@[simp] theorem reals_instr {i : Instr Label} :
    reals ((.instr i, o) :: ns) = (o, i) :: reals ns := rfl

@[simp] theorem reals_label : reals ((.label l, o) :: ns) = reals ns := rfl

@[simp] theorem reals_line {n : UInt16} : reals ((.line n, o) :: ns) = reals ns := rfl

theorem reals_append (xs ys : List (Node × Nat)) : reals (xs ++ ys) = reals xs ++ reals ys :=
  List.filterMap_append

theorem mem_reals {i : Instr Label} : (o, i) ∈ reals ns ↔ (.instr i, o) ∈ ns := by
  induction ns with
  | nil => simp
  | cons p ns ih =>
    obtain ⟨n, o'⟩ := p
    cases n with
    | instr j => simp [ih, and_comm]
    | _ => simp [ih]

@[simp] theorem offset?_instr {i : Instr Label} :
    offset? l ((.instr i, o) :: ns) = offset? l ns := by
  rw [offset?]
  cases offset? l ns <;> simp

@[simp] theorem offset?_line {n : UInt16} : offset? l ((.line n, o) :: ns) = offset? l ns := by
  rw [offset?]
  cases offset? l ns <;> simp

@[simp] theorem offset?_label {l' : Label} : offset? l ((.label l', o) :: ns) =
    (offset? l ns).or (if l' = l then some o else none) := by
  rw [offset?]
  cases offset? l ns <;> simp

theorem offset?_append (xs ys : List (Node × Nat)) :
    offset? l (xs ++ ys) = (offset? l ys).or (offset? l xs) := by
  induction xs with
  | nil => simp [offset?]
  | cons p xs ih =>
    obtain ⟨n, o⟩ := p
    cases n with
    | label => rw [List.cons_append, offset?_label, offset?_label, ih, Option.or_assoc]
    | instr => rw [List.cons_append, offset?_instr, offset?_instr, ih]
    | line => rw [List.cons_append, offset?_line, offset?_line, ih]

theorem offset?_mem (h : offset? l ns = some o) : (.label l, o) ∈ ns := by
  induction ns with
  | nil => cases h
  | cons p ns ih =>
    obtain ⟨n, o'⟩ := p
    cases n with
    | instr | line => exact List.mem_cons_of_mem _ (ih (by simpa using h))
    | label l' =>
      rw [offset?_label, Option.or_eq_some_iff] at h
      rcases h with h | ⟨-, h⟩
      · exact List.mem_cons_of_mem _ (ih h)
      · split at h
        · rename_i hl
          rw [hl, Option.some.inj h]
          exact List.mem_cons_self
        · cases h

/-! ## What offsets tell -/

/-- How many of some offsets are below another one. -/
def countBelow (starts : List Nat) (o : Nat) : Nat := starts.countP (· < o)

theorem countBelow_eq_zero (h : ∀ b ∈ ns, o ≤ b.2) :
    countBelow ((reals ns).map Prod.fst) o = 0 := by
  rw [countBelow, List.countP_eq_zero]
  intro o' ho'
  obtain ⟨⟨_, i⟩, hi, rfl⟩ := List.mem_map.mp ho'
  have : o ≤ _ := h _ (mem_reals.mp hi)
  simpa using this

/-- In front of a label stand the instructions below its offset. -/
theorem place?_eq (h : Positioned ns) :
    place? l (ns.map Prod.fst) = (offset? l ns).map (countBelow ((reals ns).map Prod.fst)) := by
  induction ns with
  | nil => rfl
  | cons p ns ih =>
    obtain ⟨n, o⟩ := p
    rw [List.map_cons, place?, ih h.tail]
    cases n with
    | instr i =>
      rw [offset?_instr]
      cases hrest : offset? l ns with
      | none => simp
      | some o' =>
        have hlt : o < o' := h.lt _ (offset?_mem hrest)
        simp [Node.isReal, countBelow, hlt]
    | line =>
      rw [offset?_line]
      cases offset? l ns <;> simp [Node.isReal]
    | label l' =>
      rw [offset?_label]
      cases offset? l ns with
      | some => simp [Node.isReal]
      | none =>
        by_cases hl : l' = l
        · simp [hl, countBelow_eq_zero h.le]
        · simp [hl]

theorem linesAt_eq_nil (h : ∀ b ∈ ns, b.2 ≠ o) : linesAt ns o = [] := by
  rw [linesAt, List.filterMap_eq_nil_iff]
  rintro ⟨n, o'⟩ hb
  cases n with
  | line => simp [h _ hb]
  | _ => rfl

theorem linesAt_append (xs ys : List (Node × Nat)) (o : Nat) :
    linesAt (xs ++ ys) o = linesAt xs o ++ linesAt ys o :=
  List.filterMap_append

@[simp] theorem linesAt_line {n : UInt16} {o' : Nat} : linesAt ((.line n, o') :: ns) o =
    if o' = o then n :: linesAt ns o else linesAt ns o := by
  by_cases ho : o' = o
  · simp [linesAt, ho]
  · simp [linesAt, ho]

/-- Instructions start one behind the other. -/
theorem Positioned.sorted (h : Positioned ns) : ((reals ns).map Prod.fst).Pairwise (· < ·) := by
  induction ns with
  | nil => exact .nil
  | cons p ns ih =>
    obtain ⟨n, o⟩ := p
    have hrest := ih h.tail
    cases n with
    | label | line => exact hrest
    | instr i =>
      rw [reals_instr, List.map_cons, List.pairwise_cons]
      refine ⟨fun o' ho' => ?_, hrest⟩
      obtain ⟨r, hr, rfl⟩ := List.mem_map.mp ho'
      exact h.lt _ (mem_reals.mp hr)

/-- The first instruction behind a marker has its offset, and all others are behind that. -/
theorem Positioned.reals_eq_cons {n : Node} {o' : Nat} {i : Instr Label}
    {rs : List (Nat × Instr Label)} (h : Positioned ((n, o) :: ns)) (hn : n.isReal = false)
    (hr : reals ns = (o', i) :: rs) : o' = o ∧ ∀ r ∈ rs, o < r.1 := by
  induction ns generalizing n with
  | nil => cases hr
  | cons p ns ih =>
    obtain ⟨m, o''⟩ := p
    obtain ⟨hbehind, hrest⟩ := List.isChain_cons_cons.mp h
    obtain rfl : o = o'' := by simpa [Behind, hn] using hbehind
    cases m with
    | instr j =>
      obtain ⟨hhead, rfl⟩ := List.cons.inj hr
      obtain ⟨rfl, rfl⟩ := Prod.mk.inj hhead
      have hpositioned : Positioned ((.instr j, o) :: ns) := hrest
      exact ⟨rfl, fun r hmem => hpositioned.lt _ (mem_reals.mp hmem)⟩
    | label | line => exact ih hrest rfl hr

/-- An instruction whose offset is not below that of a marker stands behind it. -/
theorem Positioned.mem_behind {as bs : List (Node × Nat)} {n : Node} {o' : Nat} {i : Instr Label}
    (h : Positioned (as ++ (n, o) :: bs)) (hn : n.isReal = false)
    (hi : (.instr i, o') ∈ as ++ (n, o) :: bs) (hle : o ≤ o') : (.instr i, o') ∈ bs := by
  rcases List.mem_append.mp hi with hi | hi
  · -- all instructions in front have smaller offsets
    obtain ⟨xs, ys, rfl⟩ := List.append_of_mem hi
    rw [List.append_assoc, List.cons_append] at h
    have htail : Positioned ((.instr i, o') :: (ys ++ (n, o) :: bs)) := h.right_of_append
    exact absurd (htail.lt (n, o) (by simp)) (Nat.not_lt_of_le hle)
  · rcases List.mem_cons.mp hi with heq | hi
    · obtain ⟨rfl, -⟩ := Prod.mk.inj heq
      cases hn
    · exact hi

/-- If an instruction has the offset of a marker, it stands behind it. -/
theorem Positioned.exists_real_behind {as bs : List (Node × Nat)} {n : Node}
    (h : Positioned (as ++ (n, o) :: bs)) (hn : n.isReal = false)
    (ho : o ∈ (reals (as ++ (n, o) :: bs)).map Prod.fst) : ∃ i, (.instr i, o) ∈ bs := by
  obtain ⟨⟨o', i⟩, hi, rfl⟩ := List.mem_map.mp ho
  exact ⟨i, h.mem_behind hn (mem_reals.mp hi) (Nat.le_refl _)⟩

theorem outlineOnto_eq (h : Positioned ns) (lines : List UInt16) :
    outlineOnto lines (ns.map Prod.fst) =
      ((reals ns).map fun r => (linesAt ns r.1, r.2)).modifyHead fun p =>
        (lines ++ p.1, p.2) := by
  induction ns generalizing lines with
  | nil => rfl
  | cons p ns ih =>
    obtain ⟨n, o⟩ := p
    rw [List.map_cons]
    cases n with
    | label l =>
      rw [outlineOnto, ih h.tail]
      rfl
    | instr i =>
      have hlines : linesAt ns o = [] :=
        linesAt_eq_nil fun b hb => Nat.ne_of_gt (h.lt b hb)
      have hhead : linesAt ((.instr i, o) :: ns) o = [] := hlines
      rw [outlineOnto, ih h.tail, reals_instr, List.map_cons, List.modifyHead_cons, hhead,
        List.append_nil]
      refine congrArg _ ?_
      cases reals ns <;> rfl
    | line n =>
      rw [outlineOnto, ih h.tail, reals_line]
      cases hr : reals ns with
      | nil => rfl
      | cons r rs =>
        obtain ⟨o', i⟩ := r
        obtain ⟨rfl, hlt⟩ := h.reals_eq_cons rfl hr
        simp only [List.map_cons, List.modifyHead_cons, linesAt_line, if_true,
          List.append_assoc, List.cons_append, List.nil_append, List.cons.injEq, true_and]
        refine List.map_congr_left fun r hmem => ?_
        rw [if_neg (Nat.ne_of_lt (hlt r hmem))]

/-- What a list says is what its offsets tell. -/
theorem program_eq (h : Positioned ns) : program (ns.map Prod.fst) =
    (view ns).map fun (_, lines, i) =>
      (lines, i.map fun o? => o?.map (countBelow ((view ns).map Prod.fst))) := by
  have hstarts : (view ns).map Prod.fst = (reals ns).map Prod.fst := by
    rw [view, List.map_map]
    rfl
  have houtline : outline (ns.map Prod.fst) = (reals ns).map fun r => (linesAt ns r.1, r.2) := by
    rw [outline, outlineOnto_eq h]
    cases reals ns <;> rfl
  rw [program, houtline, hstarts, view, List.map_map, List.map_map]
  refine List.map_congr_left fun r _ => ?_
  simp only [Function.comp_apply, Instr.map_map, place?_eq h]

/-- Lists that look the same in terms of offsets say the same. -/
theorem program_eq_of_view_eq {ms : List (Node × Nat)} (hn : Positioned ns) (hm : Positioned ms)
    (h : view ns = view ms) : program (ns.map Prod.fst) = program (ms.map Prod.fst) := by
  rw [program_eq hn, program_eq hm, h]

end Listing
end ClassWeave
