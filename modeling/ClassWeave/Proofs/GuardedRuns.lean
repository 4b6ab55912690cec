import ClassWeave.Proofs.GuardedBuilding
import ClassWeave.Proofs.GuardedHandlers
import Mathlib.Data.List.Find

/-!
# Guarded code releases its monitors

The marks of guarded code fit each other in the list that is built, so every run of the list has
entered those monitors that the marks say.
-/

namespace ClassWeave

/-! ## Markers and places -/

namespace InstrList.Marked

variable {l : InstrList} (hl : l.Marked) {lab : Label} {j pc : Nat} {i : Instr Label} {b : TryBlock}

include hl

theorem position?_eq_some_iff :
    lab.position? l.labelPositions = some j ↔ l.nodes[j]? = some (.label lab) := by
  constructor
  · intro h
    obtain ⟨as, bs, heq, rfl, -⟩ := position?_labelPositions h
    simp [← Array.getElem?_toList, heq]
  · intro h
    rw [← Array.getElem?_toList] at h
    obtain ⟨hsplit, hlength⟩ := eq_take_cons_drop h
    exact hl.position?_eq ⟨_, [], by rw [List.append_nil]; exact hsplit, hlength⟩

theorem exists_position (h : .label lab ∈ l.nodes.toList) :
    ∃ j, lab.position? l.labelPositions = some j := by
  obtain ⟨j, hj⟩ := List.mem_iff_getElem?.mp h
  rw [Array.getElem?_toList] at hj
  exact ⟨j, hl.position?_eq_some_iff.mpr hj⟩

/-- A label is in front of a place if its marker is. -/
theorem mem_take_iff (hj : lab.position? l.labelPositions = some j) :
    .label lab ∈ l.nodes.toList.take pc ↔ j < pc := by
  rw [List.mem_iff_getElem?]
  constructor
  · rintro ⟨k, hk⟩
    rw [List.getElem?_take] at hk
    split at hk
    · rw [Array.getElem?_toList] at hk
      have hkj := hj.symm.trans (hl.position?_eq_some_iff.mpr hk)
      have := Option.some.inj hkj
      omega
    · cases hk
  · intro hlt
    have hlab := hl.position?_eq_some_iff.mp hj
    exact ⟨j, by rw [List.getElem?_take_of_lt hlt, Array.getElem?_toList, hlab]⟩

/-- The blocks that cover an instruction are those that are open in front of it. -/
theorem covers_eq (hn : l.nodes[pc]? = some (.instr i))
    (hb : ∀ lab ∈ b.labels, .label lab ∈ l.nodes.toList) :
    b.covers l.labelPositions pc = b.isOpen (l.nodes.toList.take pc) := by
  obtain ⟨j, hj⟩ := hl.exists_position (hb b.start b.start_mem_labels)
  obtain ⟨k, hk⟩ := hl.exists_position (hb b.stop b.stop_mem_labels)
  have hne : ∀ {lab : Label} {n : Nat}, lab.position? l.labelPositions = some n → n ≠ pc := by
    rintro lab n hpos rfl
    rw [hl.position?_eq_some_iff, hn] at hpos
    cases hpos
  have hjne := hne hj
  have hkne := hne hk
  rw [Bool.eq_iff_iff]
  simp only [TryBlock.covers, TryBlock.isOpen, hj, hk, Option.any_some, Bool.and_eq_true,
    decide_eq_true_eq, hl.mem_take_iff hj, hl.mem_take_iff hk]
  omega

end InstrList.Marked

/-! ## The marks of a list -/

namespace GuardedCode

/-- What is known at the places of the code, and behind its end. -/
def marksFrom (s : Scope) (c : GuardedCode) (pc : Nat) : Option Mark :=
  ((c.entries s).map Prod.snd ++ [⟨s.held, .ordinary⟩])[pc]?

/-- Where nothing fails: in the handlers of the regions. -/
def sureFrom (s : Scope) (c : GuardedCode) (pc : Nat) : Bool :=
  (c.marksFrom s pc).any (·.stage.isSure)

/-- The list that is built has the entries and the blocks of the code. -/
structure BuiltFrom (s : Scope) (c : GuardedCode) (l : InstrList) : Prop where
  marked : l.Marked
  nodes : l.nodes.toList = (c.entries s).map Prod.fst
  blocks : l.blocks = c.frontBlocks s ++ c.blocks s

namespace BuiltFrom

variable {s : Scope} {c : GuardedCode} {l : InstrList} {pc : Nat} {n : Node} {μ : Mark}

theorem entry_iff (h : c.BuiltFrom s l) :
    (c.entries s)[pc]? = some (n, μ) ↔ l.nodes[pc]? = some n ∧ c.marksFrom s pc = some μ := by
  rw [← Array.getElem?_toList, h.nodes, marksFrom, List.getElem?_map]
  cases he : (c.entries s)[pc]? with
  | none => simp
  | some e =>
    have hlt : pc < ((c.entries s).map Prod.snd).length := by
      simpa using (List.getElem?_eq_some_iff.mp he).1
    rw [List.getElem?_append_left hlt, List.getElem?_map, he]
    simp [Prod.ext_iff]

/-- An entry has a mark. -/
theorem exists_mark (h : c.BuiltFrom s l) (hn : l.nodes[pc]? = some n) :
    ∃ μ, (c.entries s)[pc]? = some (n, μ) := by
  rw [← Array.getElem?_toList, h.nodes, List.getElem?_map, Option.map_eq_some_iff] at hn
  obtain ⟨e, he, rfl⟩ := hn
  exact ⟨e.2, he⟩

/-- A label with an entry has a place with the mark of the entry. -/
theorem exists_place (h : c.BuiltFrom s l) {lab : Label}
    (hmem : (.label lab, μ) ∈ c.entries s) :
    ∃ pc, lab.position? l.labelPositions = some pc ∧ c.marksFrom s pc = some μ := by
  obtain ⟨pc, hpc⟩ := List.mem_iff_getElem?.mp hmem
  obtain ⟨hn, hμ⟩ := h.entry_iff.mp hpc
  exact ⟨pc, h.marked.position?_eq_some_iff.mpr hn, hμ⟩

/-- The labels of the blocks have entries. -/
theorem marker_of_mem_blocks (h : c.BuiltFrom s l) (hc : c.Fits s) (hown : s.own = c.places)
    (hdeep : s.deep = c.deepPlaces) {b : TryBlock} (hb : b ∈ l.blocks) {lab : Label}
    (hlab : lab ∈ b.labels) : .label lab ∈ l.nodes.toList := by
  rw [h.nodes]
  rw [h.blocks, List.mem_append] at hb
  rcases hb with hb | hb
  · exact mem_entries_of_frontBlocks hc hb hlab
  · exact labels_mem_entries hc hown hdeep hb hlab

end BuiltFrom

variable {V : Type} {c : GuardedCode} {first : UInt16} {M : Machine V}

/-- An exception comes to a handler where the same monitors are entered. -/
theorem raises_entry (hc : c.Fits (.outermost c first))
    (hbuilt : c.BuiltFrom (.outermost c first) M.list) {pc : Nat} {i : Instr Label} {μ : Mark}
    (he : (c.entries (.outermost c first))[pc]? = some (.instr i, μ))
    (hi : μ.stage.isSure → i = .plain Opcode.athrow) (v : V) :
    (M.block? pc v).elim (μ.held = []) fun b =>
      (.label b.handler, ⟨μ.held, .ordinary⟩) ∈ c.entries (.outermost c first) ∨
        (.label b.handler, ⟨μ.held, .caught⟩) ∈ c.entries (.outermost c first) := by
  have hfollows := Scope.Follows.outermost c first
  have hfront := (frontHandled_entries hc (List.Subset.refl _) hfollows).at he
  have hraised := (raised_entries hc (List.Subset.refl _)
    (fun lab hlab => mem_entries_of_places hlab) hfollows).at he rfl
    (fun hsure => congrArg Node.instr (hi hsure))
  have hbefore : [] ++ ((c.entries (.outermost c first)).take pc).map Prod.fst =
      M.list.nodes.toList.take pc := by rw [List.nil_append, hbuilt.nodes, List.map_take]
  rw [hbefore] at hfront hraised
  have hblock : M.block? pc v = M.list.blocks.find? fun b =>
      b.isOpen (M.list.nodes.toList.take pc) && b.catches M.isOf v :=
    List.find?_congr fun b hb => by
      rw [hbuilt.marked.covers_eq (hbuilt.entry_iff.mp he).1
        fun lab hlab => hbuilt.marker_of_mem_blocks hc rfl rfl hb hlab]
  rw [hblock, hbuilt.blocks]
  exact hraised.handled hfront _ fun b hany => by simp [TryBlock.catches, hany]

/-- **The marks of guarded code fit each other.** -/
theorem marked (hc : c.Fits (.outermost c first))
    (hroom : (c.after (.outermost c first)).nextLocal ≤ 65536)
    (hbuilt : c.BuiltFrom (.outermost c first) M.list)
    (hsure : M.sure = c.sureFrom (.outermost c first))
    (hback : ∀ pc pc' k, M.list.nodes[pc]? = some (.instr (.var Opcode.ret k)) → M.back pc pc' →
      c.marksFrom (.outermost c first) pc' = c.marksFrom (.outermost c first) pc) :
    M.Marked (c.marksFrom (.outermost c first)) := by
  have hbelow : (Scope.outermost c first).LocksBelow := fun k hk => by cases hk
  have hlinked := linked_entries hc hbelow hroom
  have hcovers : ∀ {pc i μ}, M.list.nodes[pc]? = some (.instr i) →
      c.marksFrom (.outermost c first) pc = some μ → μ.Covers (c.entries (.outermost c first)) i :=
    fun hn hμ => covers_entries hc hbelow hroom (List.Subset.refl _)
      (fun lab hlab => mem_entries_of_places hlab)
      (List.mem_of_getElem? (hbuilt.entry_iff.mpr ⟨hn, hμ⟩))
  exact {
    sure := fun hμ => by
      rw [hsure, sureFrom, hμ]
      rfl
    marker := fun {pc n} hn hreal => by
      obtain ⟨μ, he⟩ := hbuilt.exists_mark hn
      obtain ⟨ν, hν, hhands⟩ := hlinked.at he
      rw [(hbuilt.entry_iff.mp he).2]
      refine hν.trans (congrArg some ?_)
      cases n with
      | instr => cases hreal
      | label | line => exact hhands
    next := fun hn hμ hfall => by
      obtain ⟨ν, hν, hhands⟩ := hlinked.at (hbuilt.entry_iff.mpr ⟨hn, hμ⟩)
      exact ⟨ν, hν, hhands hfall⟩
    jump := fun hn hμ hlab => by
      obtain ⟨hmem, hleads⟩ := (hcovers hn hμ).jump _ hlab
      obtain ⟨pc', hpc', hμ'⟩ := hbuilt.exists_place hmem
      exact ⟨pc', hpc', hμ', hleads⟩
    back := fun hn hpc' => hback _ _ _ hn hpc'
    returns := fun hn hμ hop => (hcovers hn hμ).returns hop
    handler := fun hn hμ hstage => (hcovers hn hμ).handler hstage
    raises := fun {pc i μ} hn hμ hi v => by
      have hraises := raises_entry hc hbuilt (hbuilt.entry_iff.mpr ⟨hn, hμ⟩) hi v
      cases hb : M.block? pc v with
      | none =>
        rw [hb] at hraises
        exact hraises
      | some b =>
        rw [hb] at hraises
        rcases hraises with hmem | hmem
        all_goals obtain ⟨h, hh, hmark⟩ := hbuilt.exists_place hmem
        · exact ⟨h, hh, .inl hmark⟩
        · exact ⟨h, hh, .inr hmark⟩ }

/-! ## The list that is built -/

/-- The variables of the objects whose monitors are entered at a place, the innermost first. -/
def lockedAt (c : GuardedCode) (first : UInt16) (pc : Nat) : List Nat :=
  ((c.marksFrom (.outermost c first) pc).map Mark.held).getD []

/-- What is known of a run that has come somewhere. At a place those monitors are open that are
locked there, and the run can go on; at the end of the list and outside no monitor is open. What
leaves the list is the latest exception that was thrown. -/
def Keeps (c : GuardedCode) (first : UInt16) (M : Machine V) (w : Watch V) : Config V → Prop
  | .running pc m => w.opened = (c.lockedAt first pc).map m.locals ∧
      (pc < M.list.nodes.size ∧ (∃ es conf, M.Step (.running pc m) es conf) ∨
        pc = M.list.nodes.size ∧ w.opened = [])
  | .left v => w.opened = [] ∧ w.latest = some v
  | .returned => w.opened = []

variable {isOf : String → V → Bool} {back : Nat → Nat → Prop}

end GuardedCode

/-! ## A handler around a region -/

namespace Machine.Runs

variable {V : Type} {M : Machine V} {conf : Config V} {es : List (Event V)} {pc : Nat}
  {locals : Nat → V} {x : V} {stack : List V}

theorem mark {m : Memory V} (h : M.Runs conf es (.running pc m)) (lab : Label)
    (hn : M.list.nodes[pc]? = some (.label lab)) : M.Runs conf es (.running (pc + 1) m) := by
  simpa using h.snoc (.marker hn rfl)

theorem load {k : UInt16} (h : M.Runs conf es (.running pc ⟨locals, stack⟩))
    (hn : M.list.nodes[pc]? = some (.instr (.var Opcode.aload k))) :
    M.Runs conf es (.running (pc + 1) ⟨locals, locals k.toNat :: stack⟩) := by
  simpa using h.snoc (.next hn rfl (.load k))

/-- A monitor is entered as a region enters it. -/
theorem enter {k : UInt16} (h : M.Runs conf es (.running pc ⟨locals, x :: stack⟩))
    (hdup : M.list.nodes[pc]? = some (.instr (.plain Opcode.dup)))
    (hstore : M.list.nodes[pc + 1]? = some (.instr (.var Opcode.astore k)))
    (henter : M.list.nodes[pc + 2]? = some (.instr (.plain Opcode.monitorenter))) :
    M.Runs conf (es ++ [.entered x])
      (.running (pc + 3) ⟨Function.update locals k.toNat x, stack⟩) := by
  have hkept := (h.snoc (.next hdup rfl .dup)).snoc (.next hstore rfl (.store k))
  simpa using hkept.snoc (.next henter rfl .enter)

end Machine.Runs

namespace GuardedCode

end GuardedCode
end ClassWeave
