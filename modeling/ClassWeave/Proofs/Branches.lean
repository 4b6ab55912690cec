import ClassWeave.Proofs.Blocks

/-!
# Branches

Both forms of branches jump if one of their conditions holds and go on otherwise; a branch with one
body jumps to where the other form has a second body. The jumps test the conditions in order, and
each takes its operands off the stack.
-/

namespace ClassWeave

/-- Tests conditions up to the first that holds: whether one holds, and the stack without the
operands of those that were tested. -/
def Condition.anyHolds : List Condition → List Int32 → Option (Bool × List Int32)
  | [], st => some (false, st)
  | c :: conditions, st => do
    let (holds, st) ← c.test st
    if holds then return (true, st) else anyHolds conditions st

namespace Meaning

/-- Runs the first body if one of the conditions holds, otherwise the second. -/
def ifElse (conditions : List Condition) (body otherwise : Meaning) : Meaning := fun s => do
  let (holds, stack) ← Condition.anyHolds conditions s.stack
  if holds then body { s with stack } else otherwise { s with stack }

/-- Runs the body unless one of the conditions holds. -/
def ifClause (skipIf : List Condition) (body : Meaning) : Meaning := ifElse skipIf some body

end Meaning

/-! ## Jumps -/

/-- The jumps to a label that are taken if their conditions hold. -/
def Condition.jumps (conditions : List Condition) (target : Label) : List Node :=
  conditions.map fun c => .instr (.jump c.opcode target)

theorem Condition.length_jumps (conditions : List Condition) (t : Label) :
    (jumps conditions t).length = conditions.length := List.length_map _

theorem Instr.act_jump (c : Condition) (t : Label) (s : IntState) :
    (Instr.jump c.opcode t).act s =
      (c.test s.stack).map fun (taken, stack) => ({ s with stack }, if taken then some t else none) := by
  have hgoto : c.opcode ≠ Opcode.goto := by cases c <;> decide
  simp only [act, if_neg hgoto, Condition.test_opcode]
  cases c.test s.stack <;> rfl

/-- A run from the jumps ends as it does from their target if a condition holds, and as it does from
behind them otherwise. -/
theorem InstrList.ends_jumps {l : InstrList} {t : Label} {target stop : Nat} {body otherwise : Meaning}
    (conditions : List Condition) {pc : Nat} (h : l.Holds pc (Condition.jumps conditions t))
    (ht : t.position? l.labelPositions = some target)
    (hbody : ∀ s, l.Ends stop (target, s) (body s))
    (hotherwise : ∀ s, l.Ends stop (pc + conditions.length, s) (otherwise s)) (s : IntState) :
    l.Ends stop (pc, s) (Meaning.ifElse conditions body otherwise s) := by
  induction conditions generalizing pc s with
  | nil => exact hotherwise s
  | cons c conditions ih =>
    have hact := Instr.act_jump c t s
    have hrest := ih h.tail fun s => by
      rw [Nat.add_assoc, Nat.add_comm 1]
      exact hotherwise s
    cases htest : c.test s.stack with
    | none =>
      rw [htest] at hact
      simp only [Meaning.ifElse, Condition.anyHolds, htest]
      exact ends_stuck h hact
    | some p =>
      obtain ⟨taken, stack⟩ := p
      rw [htest] at hact
      simp only [Meaning.ifElse, Condition.anyHolds, htest]
      cases taken with
      | true => exact (hbody _).of_reaches (reaches_jump h hact ht)
      | false => exact (hrest { s with stack }).of_reaches (reaches_next h hact)

namespace Build

theorem exists_jumpIfAny (conditions : List Condition) (t : Label) (r : Renaming) (b : Builder) :
    ∃ b', Makes (jumpIfAny conditions t) r b () (Condition.jumps conditions t) b' ∧
      b'.list.labelCount = b.list.labelCount := by
  induction conditions generalizing b with
  | nil => exact ⟨b, .pure (), rfl⟩
  | cons c conditions ih =>
    obtain ⟨b₁, hmakes₁, hcount₁⟩ := exists_emit (.jump c.opcode t) r b
    obtain ⟨b₂, hmakes₂, hcount₂⟩ := ih b₁
    exact ⟨b₂, hmakes₁.bind hmakes₂, hcount₂.trans hcount₁⟩

end Build

/-! ## Layouts -/

section layouts

variable {conditions : List Condition} {taken stop lab t : Label} {n : Node} {ns ms : List Node}
  {first mid mid' next : Nat} {f g : Meaning}

/-- The body behind the jumps, and a place to jump to behind the body. -/
def clauseLayout (skipIf : List Condition) (stop : Label) (ns : List Node) : List Node :=
  Condition.jumps skipIf stop ++ (ns ++ [.label stop])

/-- The second body behind the jumps, and the first behind it. -/
def elseLayout (conditions : List Condition) (taken stop : Label) (ns ms : List Node) : List Node :=
  Condition.jumps conditions taken ++
    (ms ++ .instr (.jump Opcode.goto stop) :: .label taken :: (ns ++ [.label stop]))

theorem count_marker (lab t : Label) :
    [Node.label t].count (.label lab) = if lab.id = t.id then 1 else 0 := by
  have heq : Node.label t = Node.label lab ↔ lab.id = t.id := by
    rcases lab with ⟨i⟩
    rcases t with ⟨j⟩
    simp [eq_comm]
  simp [List.count_cons, heq]

theorem not_mem_jumps (conditions : List Condition) (t lab : Label) :
    .label lab ∉ Condition.jumps conditions t := by
  simp [Condition.jumps]

theorem targets_jumps (hn : n ∈ Condition.jumps conditions t) (hlab : lab ∈ n.targets) :
    lab = t := by
  obtain ⟨c, -, rfl⟩ := List.mem_map.mp hn
  exact List.mem_singleton.mp hlab

theorem Block.clause (hn : Block mid next ns) (hstop : stop.id = first) (hmid : mid = first + 1)
    (hnext : mid ≤ next) : Block first next (clauseLayout conditions stop ns) where
  markers lab := by
    rw [clauseLayout, List.count_append, List.count_append,
      List.count_eq_zero.mpr (not_mem_jumps _ _ _), hn.markers, count_marker]
    split_ifs <;> omega
  targets n hmem lab hlab := by
    simp only [clauseLayout, List.mem_append, List.mem_singleton] at hmem
    rcases hmem with hmem | hmem | rfl
    · have := targets_jumps hmem hlab
      subst this
      omega
    · have := hn.targets n hmem lab hlab
      omega
    · cases hlab

theorem Block.else (hm : Block mid mid' ms) (hn : Block mid' next ns) (htaken : taken.id = first)
    (hstop : stop.id = first + 1) (hmid : mid = first + 2) (hmid' : mid ≤ mid')
    (hnext : mid' ≤ next) : Block first next (elseLayout conditions taken stop ns ms) where
  markers lab := by
    have hcount : (elseLayout conditions taken stop ns ms).count (.label lab) =
        ms.count (.label lab) + [Node.label taken].count (.label lab) + ns.count (.label lab) +
          [Node.label stop].count (.label lab) := by
      have hjumps := List.count_eq_zero.mpr (not_mem_jumps conditions taken lab)
      simp only [elseLayout, List.count_append, hjumps, List.count_cons]
      simp
      omega
    rw [hcount, hm.markers, hn.markers, count_marker, count_marker]
    split_ifs <;> omega
  targets n hmem lab hlab := by
    simp only [elseLayout, List.mem_append, List.mem_cons, List.not_mem_nil, or_false] at hmem
    rcases hmem with hmem | hmem | rfl | rfl | hmem | rfl
    · have := targets_jumps hmem hlab
      subst this
      omega
    · have := hm.targets n hmem lab hlab
      omega
    · have := List.mem_singleton.mp hlab
      subst this
      omega
    · cases hlab
    · have := hn.targets n hmem lab hlab
      omega
    · cases hlab

theorem Performs.clause (skipIf : List Condition) (hf : Performs ns f) :
    Performs (clauseLayout skipIf stop ns) (Meaning.ifClause skipIf f) := by
  intro l hl pc hpc s
  have hbehind := hpc.right
  rw [Condition.length_jumps] at hbehind
  have hmark := hbehind.right
  have hlength : pc + (clauseLayout skipIf stop ns).length = pc + skipIf.length + ns.length + 1 := by
    simp [clauseLayout, Condition.length_jumps]
    omega
  have hend : ∀ s, l.Ends (pc + (clauseLayout skipIf stop ns).length)
      (pc + skipIf.length + ns.length, s) (some s) := by
    intro s
    rw [hlength]
    exact InstrList.reaches_label hmark
  refine InstrList.ends_jumps skipIf hpc.left (hl.position?_eq hmark) hend ?_ s
  intro s
  have hrun := (hf l hl _ hbehind.left s).bind hend
  rwa [Option.bind_fun_some] at hrun

theorem Performs.else (conditions : List Condition) (hf : Performs ns f) (hg : Performs ms g) :
    Performs (elseLayout conditions taken stop ns ms) (Meaning.ifElse conditions f g) := by
  intro l hl pc hpc s
  have hbehind := hpc.right
  rw [Condition.length_jumps] at hbehind
  have hleave := hbehind.right
  have htarget := hleave.tail
  have hmark := htarget.tail.right
  have hlength : pc + (elseLayout conditions taken stop ns ms).length =
      pc + conditions.length + ms.length + 1 + 1 + ns.length + 1 := by
    simp [elseLayout, Condition.length_jumps]
    omega
  have hend : ∀ s, l.Ends (pc + (elseLayout conditions taken stop ns ms).length)
      (pc + conditions.length + ms.length + 1 + 1 + ns.length, s) (some s) := by
    intro s
    rw [hlength]
    exact InstrList.reaches_label hmark
  refine InstrList.ends_jumps conditions hpc.left (hl.position?_eq htarget) ?_ ?_ s
  -- a condition holds: the first body runs into the end
  · intro s
    have hrun := (hf l hl _ htarget.tail.left s).bind hend
    rw [Option.bind_fun_some] at hrun
    exact hrun.of_reaches (InstrList.reaches_label htarget)
  -- none holds: the second body runs into the jump behind it
  · intro s
    have hleft := fun s => (hend s).of_reaches
      (InstrList.reaches_jump hleave rfl (hl.position?_eq hmark))
    have hrun := (hg l hl _ hbehind.left s).bind hleft
    rwa [Option.bind_fun_some] at hrun

end layouts

/-! ## Branches implement what they mean -/

namespace Implements

variable {x y : Build Unit} {f g : Meaning}

theorem ifClause (skipIf : List Condition) (hx : Implements x f) :
    Implements (Build.ifClause skipIf x) (Meaning.ifClause skipIf f) := by
  intro r b
  obtain ⟨stop, b₁, hfresh, hid, hcount₁, hfree⟩ := Build.exists_freshLabel r b
  obtain ⟨b₂, hjumps, hcount₂⟩ := Build.exists_jumpIfAny skipIf stop r b₁
  obtain ⟨ns, b₃, hbody, hblock, hf⟩ := hx r b₂
  have hcount₃ := hbody.count
  obtain ⟨b₄, hplace, hcount₄⟩ := Build.exists_placeLabel r (by omega) <|
    hbody.unplaced (hjumps.unplaced hfree (not_mem_jumps _ _ _)) (hblock.not_mem (by omega))
  exact ⟨_, b₄, hfresh.bind (hjumps.bind (hbody.bind hplace)),
    hcount₄ ▸ hblock.clause hid (by omega) hcount₃, hf.clause skipIf⟩

theorem ifElse (conditions : List Condition) (hx : Implements x f) (hy : Implements y g) :
    Implements (Build.ifElse conditions x y) (Meaning.ifElse conditions f g) := by
  intro r b
  obtain ⟨taken, b₁, htaken, hid, hcount₁, hfree⟩ := Build.exists_freshLabel r b
  obtain ⟨stop, b₂, hstop, hid', hcount₂, hfree'⟩ := Build.exists_freshLabel r b₁
  obtain ⟨b₃, hjumps, hcount₃⟩ := Build.exists_jumpIfAny conditions taken r b₂
  obtain ⟨ms, b₄, hotherwise, hblock, hg⟩ := hy r b₃
  obtain ⟨b₅, hgoto, hcount₅⟩ := Build.exists_emit (.jump Opcode.goto stop) r b₄
  have hcount₄ := hotherwise.count
  -- both labels are still free behind the second body, which has labels of its own
  have hstill : ∀ lab : Label, lab.id < b₃.list.labelCount → ¬b₂.list.isPlaced lab →
      ¬b₅.list.isPlaced lab := by
    intro lab hlab hfree
    exact hgoto.unplaced (hotherwise.unplaced (hjumps.unplaced hfree (not_mem_jumps _ _ _))
      (hblock.not_mem (.inl hlab))) (by simp)
  obtain ⟨b₆, hplace, hcount₆⟩ := Build.exists_placeLabel r (by omega) <|
    hstill taken (by omega) (hstop.unplaced hfree List.not_mem_nil)
  obtain ⟨ns, b₇, hbody, hblock', hf⟩ := hx r b₆
  have hcount₇ := hbody.count
  have hother : .label stop ∉ [Node.label taken] := by
    rw [← List.count_eq_zero, count_marker, if_neg (by omega)]
  obtain ⟨b₈, hplace', hcount₈⟩ := Build.exists_placeLabel r (by omega) <|
    hbody.unplaced (hplace.unplaced (hstill stop (by omega) hfree') hother)
      (hblock'.not_mem (by omega))
  refine ⟨_, b₈, htaken.bind (hstop.bind (hjumps.bind (hotherwise.bind (hgoto.bind (hplace.bind
    (hbody.bind hplace')))))), ?_, hf.else conditions hg⟩
  have hblock : Block b₃.list.labelCount b₆.list.labelCount ms := by
    rw [hcount₆, hcount₅]
    exact hblock
  rw [hcount₈]
  exact hblock.else hblock' hid (by omega) (by omega) (by omega) hcount₇

end Implements

end ClassWeave
