import ClassWeave.Build.Switch
import ClassWeave.Proofs.Branches
import Mathlib.Data.List.Count
import Mathlib.Data.List.Forall2
import Mathlib.Data.List.Nodup

/-!
# Switches

Both forms of switches go to the label of the key on top of the stack, or to the default if it has
none. Behind the instruction come the bodies of the cases in the order of the cases, then the
default. Whoever comes to the body of a case runs the bodies from there on for as long as they fall
through; the last one may fall into the default.
-/

namespace ClassWeave

namespace Meaning

/-- Runs the cases one after the other, up to the first that does not fall through. Behind the last
comes the default. -/
def fallInto (otherwise : Meaning) : List (Case Meaning) → Meaning
  | [] => otherwise
  | c :: rest => fun s => do
    let s ← c.body s
    if c.fallsThrough then fallInto otherwise rest s else return s

/-- Runs the cases from the one with the key on, or the default if there is none. -/
def select (otherwise : Meaning) (key : Int32) : List (Case Meaning) → Meaning
  | [] => otherwise
  | c :: rest => if c.key = key then fallInto otherwise (c :: rest) else select otherwise key rest

/-- Takes the key off the stack and runs the cases from there on. -/
def switch (cases : List (Case Meaning)) (otherwise : Meaning) : Meaning := fun s => do
  let (key, s) ← s.pop?
  select otherwise key cases s

end Meaning

/-! ## Targets -/

section targets

variable {α : Type} {pairs : List (Int32 × α)} {key : Int32} {a : α}

theorem lookup_eq_some_iff_mem (h : (pairs.map Prod.fst).Nodup) :
    pairs.lookup key = some a ↔ (key, a) ∈ pairs := by
  induction pairs with
  | nil => simp
  | cons p pairs ih =>
    obtain ⟨k, b⟩ := p
    rw [List.map_cons, List.nodup_cons] at h
    rw [List.lookup_cons, List.mem_cons]
    by_cases heq : key = k
    · subst heq
      have hnot : (key, a) ∉ pairs := fun hmem => h.1 (List.mem_map.mpr ⟨_, hmem, rfl⟩)
      simp [hnot, eq_comm]
    · have hbeq : (key == k) = false := beq_eq_false_iff_ne.mpr heq
      rw [hbeq]
      simp [heq, ih h.2]

/-- Where keys differ, their order does not matter. -/
theorem lookup_perm {pairs' : List (Int32 × α)} (hperm : pairs.Perm pairs')
    (h : (pairs.map Prod.fst).Nodup) : pairs.lookup key = pairs'.lookup key := by
  have h' : (pairs'.map Prod.fst).Nodup := (hperm.map Prod.fst).nodup_iff.mp h
  apply Option.ext
  intro a
  rw [lookup_eq_some_iff_mem h, lookup_eq_some_iff_mem h', hperm.mem_iff]

theorem lookup_eq_none (h : key ∉ pairs.map Prod.fst) : pairs.lookup key = none := by
  rw [List.lookup_eq_none_iff]
  rintro ⟨k, b⟩ hmem
  have hne : key ≠ k := by
    rintro rfl
    exact h (List.mem_map_of_mem hmem)
  simpa using hne

end targets

/-- The range of keys goes from the smallest key to the largest. -/
theorem Build.keyRange_eq {keys : List Int32} (h : keys ≠ []) :
    (keys.map Int32.toInt).min? = some (keyRange keys).1 ∧
      (keys.map Int32.toInt).max? = some (keyRange keys).2 := by
  cases keys with
  | nil => exact absurd rfl h
  | cons k keys => exact ⟨List.min?_cons', List.max?_cons'⟩

/-- The instruction goes to the label of the key on the stack, or to the default. -/
structure Instr.Selects (i : Instr Label) (labels : List (Int32 × Label)) (default : Label) :
    Prop where
  act : ∀ s, i.act s = s.pop?.map fun (key, s) => (s, some ((labels.lookup key).getD default))
  targets : ∀ lab ∈ i.targets, lab = default ∨ lab ∈ labels.map Prod.snd

theorem lookup_mem {labels : List (Int32 × Label)} (key : Int32) (default : Label) :
    (labels.lookup key).getD default = default ∨
      (labels.lookup key).getD default ∈ labels.map Prod.snd := by
  cases h : labels.lookup key with
  | none => exact .inl rfl
  | some lab =>
    obtain ⟨before, behind, rfl, -⟩ := List.lookup_eq_some_iff.mp h
    right
    simp

/-- The instruction with an entry for every number in the range of the keys. -/
def Build.tableOver (keys : List Int32) (labels : List (Int32 × Label)) (default : Label) :
    Instr Label :=
  let (low, high) := keyRange keys
  .tableSwitch (Int32.ofInt low) (Int32.ofInt high) default
    (tableTargets low (high - low + 1).toNat labels default)

open Build in
theorem Instr.tableOver_selects {labels : List (Int32 × Label)} (default : Label)
    (h : labels ≠ []) : (tableOver (labels.map Prod.fst) labels default).Selects labels default := by
  constructor
  · intro s
    obtain ⟨hmin, hmax⟩ := Build.keyRange_eq (mt List.map_eq_nil_iff.mp h)
    obtain ⟨hlow, hbelow⟩ := List.min?_eq_some_iff.mp hmin
    obtain ⟨hhigh, habove⟩ := List.max?_eq_some_iff.mp hmax
    have hint : ∀ n ∈ (labels.map Prod.fst).map Int32.toInt, (Int32.ofInt n).toInt = n := by
      intro n hn
      obtain ⟨k, -, rfl⟩ := List.mem_map.mp hn
      rw [Int32.ofInt_toInt]
    have hlow' := hint _ hlow
    have hhigh' := hint _ hhigh
    rw [tableOver]
    generalize keyRange (labels.map Prod.fst) = range at *
    obtain ⟨low, high⟩ := range
    cases hs : s.pop? with
    | none => simp [act, hs]
    | some p =>
      obtain ⟨key, s'⟩ := p
      simp only [act, hs, Option.map_some, Option.bind_eq_bind, Option.bind_some,
        Int32.lt_iff_toInt_lt, hlow', hhigh']
      split
      -- out of range there are no keys
      · rename_i hout
        have hnot : key ∉ labels.map Prod.fst := by
          intro hmem
          have := hbelow _ (List.mem_map_of_mem hmem)
          have := habove _ (List.mem_map_of_mem hmem)
          omega
        rw [lookup_eq_none hnot]
        rfl
      · rename_i hin
        have hindex : (key.toInt - low).toNat < (high - low + 1).toNat := by omega
        have hkey : low + ((key.toInt - low).toNat : Int) = key.toInt := by omega
        rw [tableTargets, List.getElem?_map, List.getElem?_range hindex, Option.map_some, hkey,
          Int32.ofInt_toInt]
        rfl
  · intro lab hlab
    rcases List.mem_cons.mp hlab with rfl | hlab
    · exact .inl rfl
    · obtain ⟨k, -, rfl⟩ := List.mem_map.mp hlab
      exact lookup_mem _ _

theorem Instr.lookupSwitch_selects {labels : List (Int32 × Label)} (default : Label)
    (h : (labels.map Prod.fst).Nodup) :
    (Instr.lookupSwitch default (labels.mergeSort fun a b => a.1 ≤ b.1)).Selects labels default := by
  constructor
  · intro s
    cases hs : s.pop? with
    | none => simp [act, hs]
    | some p =>
      obtain ⟨key, s'⟩ := p
      simp only [act, hs, Option.map_some, Option.bind_eq_bind, Option.bind_some]
      rw [lookup_perm (List.mergeSort_perm labels _).symm h]
      rfl
  · intro lab hlab
    rcases List.mem_cons.mp hlab with rfl | hlab
    · exact .inl rfl
    · exact .inr (((List.mergeSort_perm labels _).map Prod.snd).mem_iff.mp hlab)

/-! ## Layouts -/

/-- The labels of the keys. -/
def keyLabels {β : Type} (cases : List (Case β × Label)) : List (Int32 × Label) :=
  cases.map fun p => (p.1.key, p.2)

/-- The body of a case behind its label. Where the case does not fall through, the switch is left. -/
def caseLayout (fallsThrough : Bool) (stop lab : Label) (ns rest : List Node) : List Node :=
  .label lab :: (ns ++ ((if fallsThrough then [] else [.instr (.jump Opcode.goto stop)]) ++ rest))

/-- The instruction, the cases, the default, and a place to leave to. -/
def switchLayout (i : Instr Label) (default stop : Label) (cases otherwise : List Node) :
    List Node :=
  .instr i :: (cases ++ .label default :: (otherwise ++ [.label stop]))

section layouts

variable {stop lab default : Label} {labs : List Label} {i : Instr Label} {n : Node}
  {ns ms : List Node} {first mid next behind finish : Nat} {c : Case Meaning}
  {cases : List (Case Meaning × Label)} {otherwise : Meaning} {l : InstrList}

/-- The bodies of cases mark the labels of the cases and otherwise keep to themselves, but for the
jumps that leave the switch. -/
structure CaseBlock (stop : Label) (labs : List Label) (first next : Nat) (ns : List Node) :
    Prop where
  markers : ∀ lab, ns.count (.label lab) =
    labs.count lab + if first ≤ lab.id ∧ lab.id < next then 1 else 0
  targets : ∀ n ∈ ns, ∀ lab ∈ n.targets, lab = stop ∨ first ≤ lab.id ∧ lab.id < next

/-- The ways out of the cases of a switch: a place to leave to, and the default behind the cases. -/
structure InstrList.Exits (l : InstrList) (stop default : Label) (behind finish : Nat)
    (otherwise : Meaning) : Prop where
  leave : ∃ out, stop.position? l.labelPositions = some out ∧
    ∀ s, l.Ends finish (out, s) (some s)
  place : default.position? l.labelPositions = some behind
  performs : ∀ s, l.Ends finish (behind, s) (otherwise s)

/-- The ways into the cases of a switch: the start of the first, and the labels of the keys. -/
structure InstrList.Enters (l : InstrList) (pc : Nat) (default : Label) (finish : Nat)
    (cases : List (Case Meaning × Label)) (otherwise : Meaning) : Prop where
  start : ∀ s, l.Ends finish (pc, s) (Meaning.fallInto otherwise (cases.map Prod.fst) s)
  select : ∀ key, ∃ entry,
    (((keyLabels cases).lookup key).getD default).position? l.labelPositions = some entry ∧
      ∀ s, l.Ends finish (entry, s) (Meaning.select otherwise key (cases.map Prod.fst) s)

/-- Wherever the bodies of the cases stand, a run goes through the cases from where it comes in. -/
def PerformsCases (stop : Label) (cases : List (Case Meaning × Label)) (ns : List Node) : Prop :=
  ∀ l : InstrList, l.Marked → ∀ pc, l.Holds pc ns → ∀ default finish otherwise,
    l.Exits stop default (pc + ns.length) finish otherwise →
    l.Enters pc default finish cases otherwise

theorem CaseBlock.nil (stop : Label) (first : Nat) : CaseBlock stop [] first first [] where
  markers lab := by
    rw [if_neg (by omega)]
    rfl
  targets := by simp

theorem CaseBlock.not_mem (h : CaseBlock stop labs first next ns) (hlabs : lab ∉ labs)
    (hlab : lab.id < first ∨ next ≤ lab.id) : .label lab ∉ ns := by
  rw [← List.count_eq_zero, h.markers, List.count_eq_zero.mpr hlabs, if_neg (by omega)]

theorem CaseBlock.cons (hn : Block first mid ns) (fallsThrough : Bool) (lab : Label)
    (hm : CaseBlock stop labs mid next ms) (hfirst : first ≤ mid) (hnext : mid ≤ next) :
    CaseBlock stop (lab :: labs) first next (caseLayout fallsThrough stop lab ns ms) where
  markers lab' := by
    have hcount : (caseLayout fallsThrough stop lab ns ms).count (.label lab') =
        [Node.label lab].count (.label lab') + ns.count (.label lab') +
          ms.count (.label lab') := by
      cases fallsThrough <;> simp [caseLayout, List.count_cons] <;> omega
    have hlabel : [Node.label lab].count (.label lab') = if lab == lab' then 1 else 0 := by
      simp [List.count_cons]
    rw [hcount, hlabel, hn.markers, hm.markers, List.count_cons]
    split_ifs <;> omega
  targets n hmem lab' hlab := by
    have hmem' : n = .label lab ∨ n ∈ ns ∨ n = .instr (.jump Opcode.goto stop) ∨ n ∈ ms := by
      cases fallsThrough <;> simp [caseLayout] at hmem <;> grind
    rcases hmem' with rfl | hmem | rfl | hmem
    · cases hlab
    · have := hn.targets n hmem lab' hlab
      exact .inr (by omega)
    · exact .inl (List.mem_singleton.mp hlab)
    · rcases hm.targets n hmem lab' hlab with h | h
      · exact .inl h
      · exact .inr (by omega)

theorem PerformsCases.nil (stop : Label) : PerformsCases stop [] [] := by
  intro l hl pc hpc default finish otherwise hexits
  exact ⟨hexits.performs, fun key => ⟨pc, hexits.place, hexits.performs⟩⟩

theorem PerformsCases.cons (hrest : PerformsCases stop cases ms) (lab : Label)
    (hf : Performs ns c.body) :
    PerformsCases stop ((c, lab) :: cases) (caseLayout c.fallsThrough stop lab ns ms) := by
  intro l hl pc hpc default finish otherwise hexits
  have hbody := hpc.tail
  have hbehind := hbody.right
  have hlength : pc + (caseLayout c.fallsThrough stop lab ns ms).length = pc + 1 + ns.length +
      (if c.fallsThrough then [] else [Node.instr (.jump Opcode.goto stop)]).length +
        ms.length := by
    simp only [caseLayout, List.length_cons, List.length_append]
    omega
  rw [hlength] at hexits
  obtain ⟨hnext, hselect⟩ := hrest l hl _ hbehind.right default finish otherwise hexits
  -- Behind its body a case goes on to the next one or leaves the switch.
  have hgo : ∀ s, l.Ends finish (pc + 1 + ns.length, s) (if c.fallsThrough then
      Meaning.fallInto otherwise (cases.map Prod.fst) s else some s) := by
    intro s
    cases hfalls : c.fallsThrough with
    | true =>
      have hsame := hnext s
      rwa [hfalls] at hsame
    | false =>
      rw [hfalls] at hbehind
      obtain ⟨out, hout, hend⟩ := hexits.leave
      exact (hend s).of_reaches (InstrList.reaches_jump hbehind rfl hout)
  have hstart : ∀ s, l.Ends finish (pc, s)
      (Meaning.fallInto otherwise (c :: cases.map Prod.fst) s) := by
    intro s
    have hrun := (hf l hl _ hbody.left s).bind hgo
    exact hrun.of_reaches (InstrList.reaches_label hpc)
  refine ⟨hstart, ?_⟩
  intro key
  by_cases hkey : c.key = key
  · refine ⟨pc, ?_, ?_⟩
    · have hfound : (keyLabels ((c, lab) :: cases)).lookup key = some lab := by
        simp [keyLabels, hkey]
      rw [hfound]
      exact hl.position?_eq hpc
    · intro s
      rw [List.map_cons, Meaning.select, if_pos hkey]
      exact hstart s
  · obtain ⟨entry, hentry, hend⟩ := hselect key
    refine ⟨entry, ?_, ?_⟩
    · have hpass : (keyLabels ((c, lab) :: cases)).lookup key = (keyLabels cases).lookup key := by
        have hbeq : (key == c.key) = false := beq_eq_false_iff_ne.mpr (Ne.symm hkey)
        simp [keyLabels, List.lookup_cons, hbeq]
      rw [hpass]
      exact hentry
    · intro s
      rw [List.map_cons, Meaning.select, if_neg hkey]
      exact hend s

theorem Block.switch {mid' : Nat} (hi : ∀ lab ∈ i.targets, lab = default ∨ lab ∈ labs)
    (hm : CaseBlock stop labs mid mid' ms) (hn : Block mid' next ns)
    (hlabs : ∀ lab, labs.count lab = if first ≤ lab.id ∧ lab.id < default.id then 1 else 0)
    (hfirst : first ≤ default.id) (hstop : stop.id = default.id + 1) (hmid : mid = stop.id + 1)
    (hmid' : mid ≤ mid') (hnext : mid' ≤ next) :
    Block first next (switchLayout i default stop ms ns) where
  markers lab := by
    have hcount : (switchLayout i default stop ms ns).count (.label lab) =
        ms.count (.label lab) + [Node.label default].count (.label lab) + ns.count (.label lab) +
          [Node.label stop].count (.label lab) := by
      simp [switchLayout, List.count_cons]
      omega
    rw [hcount, hm.markers, hn.markers, hlabs, count_marker, count_marker]
    split_ifs <;> omega
  targets n hmem lab hlab := by
    simp only [switchLayout, List.mem_cons, List.mem_append, List.not_mem_nil, or_false] at hmem
    rcases hmem with rfl | hmem | rfl | hmem | rfl
    · rcases hi lab hlab with rfl | hlab
      · omega
      · have hone := List.count_pos_iff.mpr hlab
        rw [hlabs] at hone
        split at hone
        · omega
        · cases hone
    · rcases hm.targets n hmem lab hlab with rfl | h
      · omega
      · omega
    · cases hlab
    · have := hn.targets n hmem lab hlab
      omega
    · cases hlab

theorem Performs.switch (hi : i.Selects (keyLabels cases) default)
    (hm : PerformsCases stop cases ms) (hn : Performs ns otherwise) :
    Performs (switchLayout i default stop ms ns)
      (Meaning.switch (cases.map Prod.fst) otherwise) := by
  intro l hl pc hpc s
  have hcases := hpc.tail
  have hdefault := hcases.right
  have hmark := hdefault.tail.right
  have hlength : pc + (switchLayout i default stop ms ns).length =
      pc + 1 + ms.length + 1 + ns.length + 1 := by
    simp [switchLayout]
    omega
  have hend : ∀ s, l.Ends (pc + (switchLayout i default stop ms ns).length)
      (pc + 1 + ms.length + 1 + ns.length, s) (some s) := by
    intro s
    rw [hlength]
    exact InstrList.reaches_label hmark
  have hexits : l.Exits stop default (pc + 1 + ms.length)
      (pc + (switchLayout i default stop ms ns).length) otherwise := by
    refine ⟨⟨_, hl.position?_eq hmark, hend⟩, hl.position?_eq hdefault, ?_⟩
    intro s
    have hrun := (hn l hl _ hdefault.tail.left s).bind hend
    rw [Option.bind_fun_some] at hrun
    exact hrun.of_reaches (InstrList.reaches_label hdefault)
  have henters := hm l hl _ hcases.left default _ otherwise hexits
  have hact := hi.act s
  cases hs : s.pop? with
  | none =>
    rw [hs] at hact
    simp only [Meaning.switch, hs]
    exact InstrList.ends_stuck hpc hact
  | some p =>
    obtain ⟨key, s'⟩ := p
    rw [hs] at hact
    obtain ⟨entry, hentry, hselect⟩ := henters.select key
    simp only [Meaning.switch, hs]
    exact (hselect s').of_reaches (InstrList.reaches_jump hpc hact hentry)

end layouts

/-! ## Building switches -/

/-- The body of a case implements the meaning of a case with the same key. -/
structure Case.Implements (c : Case (Build Unit)) (m : Case Meaning) : Prop where
  key : c.key = m.key
  fallsThrough : c.fallsThrough = m.fallsThrough
  body : ClassWeave.Implements c.body m.body

/-- Cases with the same labels. -/
def Case.Agree (c : Case (Build Unit) × Label) (m : Case Meaning × Label) : Prop :=
  c.1.Implements m.1 ∧ c.2 = m.2

theorem Case.keys_eq {cases : List (Case (Build Unit))} {meanings : List (Case Meaning)}
    (h : List.Forall₂ Case.Implements cases meanings) :
    cases.map Case.key = meanings.map Case.key := by
  induction h with
  | nil => rfl
  | cons hc _ ih => rw [List.map_cons, List.map_cons, ih, hc.key]

theorem keyLabels_congr {labeled : List (Case (Build Unit) × Label)}
    {meant : List (Case Meaning × Label)} (h : List.Forall₂ Case.Agree labeled meant) :
    keyLabels labeled = keyLabels meant := by
  induction h with
  | nil => rfl
  | @cons p q labeled meant hpq _ ih =>
    simp only [keyLabels, List.map_cons] at ih ⊢
    rw [ih, hpq.1.key, hpq.2]

namespace Build

variable {cases : List (Case (Build Unit))} {meanings : List (Case Meaning)}
  {labeled : List (Case (Build Unit) × Label)} {meant : List (Case Meaning × Label)}

theorem exists_labels (h : List.Forall₂ Case.Implements cases meanings) (r : Renaming)
    (b : Builder) :
    ∃ labeled meant b', Makes (cases.mapM fun c => return (c, ← freshLabel)) r b labeled [] b' ∧
      List.Forall₂ Case.Agree labeled meant ∧ meant.map Prod.fst = meanings ∧
      meant.map (·.2.id) = List.range' b.list.labelCount cases.length ∧
      b'.list.labelCount = b.list.labelCount + cases.length ∧
      ∀ p ∈ meant, ¬b'.list.isPlaced p.2 := by
  induction h generalizing b with
  | nil => exact ⟨[], [], b, .pure [], .nil, rfl, rfl, rfl, by simp⟩
  | @cons c m cases meanings hc _ ih =>
    obtain ⟨lab, b₁, hfresh, hid, hcount₁, hfree⟩ := exists_freshLabel r b
    obtain ⟨labeled, meant, b₂, hrest, hagree, hfst, hids, hcount₂, hfrees⟩ := ih b₁
    refine ⟨(c, lab) :: labeled, (m, lab) :: meant, b₂, ?_, .cons ⟨hc, rfl⟩ hagree, ?_, ?_, ?_, ?_⟩
    · rw [List.mapM_cons]
      have hpair := hfresh.bind (f := fun lab => pure (c, lab)) (.pure (c, lab))
      exact hpair.bind (hrest.bind (.pure _))
    · rw [List.map_cons, hfst]
    · rw [List.map_cons, hids, List.length_cons, List.range'_succ, hcount₁, hid]
    · rw [hcount₂, hcount₁, hid, List.length_cons]
      omega
    · intro p hp
      rcases List.mem_cons.mp hp with rfl | hp
      · exact hrest.unplaced hfree List.not_mem_nil
      · exact hfrees p hp

/-- The labels that were handed out one after the other. -/
theorem count_labels {first k : Nat} (h : meant.map (·.2.id) = List.range' first k) (lab : Label) :
    (meant.map Prod.snd).count lab = if first ≤ lab.id ∧ lab.id < first + k then 1 else 0 := by
  have hinj : Function.Injective Label.id := fun ⟨i⟩ ⟨j⟩ h => congrArg Label.mk h
  rw [← List.count_map_of_injective _ _ hinj, List.map_map]
  change List.count _ (meant.map (·.2.id)) = _
  rw [h, (List.nodup_range' 1).count]
  simp [List.mem_range'_1]

theorem caseBodies_cons (stop lab : Label) (c : Case (Build Unit)) :
    caseBodies stop ((c, lab) :: labeled) = (do
      placeLabel lab
      c.body
      (if c.fallsThrough then pure () else goto stop)
      caseBodies stop labeled) := by
  rw [caseBodies]
  cases c.fallsThrough <;> simp

theorem exists_exit (fallsThrough : Bool) (stop : Label) (r : Renaming) (b : Builder) :
    ∃ b', Makes (if fallsThrough then pure () else goto stop) r b ()
      (if fallsThrough then [] else [.instr (.jump Opcode.goto stop)]) b' ∧
      b'.list.labelCount = b.list.labelCount := by
  cases fallsThrough with
  | true => exact ⟨b, .pure (), rfl⟩
  | false => exact exists_emit _ r b

theorem exists_caseBodies (h : List.Forall₂ Case.Agree labeled meant) (stop : Label)
    (r : Renaming) (b : Builder)
    (hfree : ∀ p ∈ meant, p.2.id < b.list.labelCount ∧ ¬b.list.isPlaced p.2)
    (hdistinct : (meant.map Prod.snd).Nodup) :
    ∃ ns b', Makes (caseBodies stop labeled) r b () ns b' ∧
      CaseBlock stop (meant.map Prod.snd) b.list.labelCount b'.list.labelCount ns ∧
      PerformsCases stop meant ns := by
  induction h generalizing b with
  | nil => exact ⟨[], b, .pure (), .nil _ _, .nil _⟩
  | @cons p q labeled meant hpq _ ih =>
    obtain ⟨c, lab⟩ := p
    obtain ⟨m, lab'⟩ := q
    obtain ⟨hc, heq⟩ := hpq
    obtain rfl : lab = lab' := heq
    rw [List.map_cons, List.nodup_cons] at hdistinct
    obtain ⟨hid, hlab⟩ := hfree _ List.mem_cons_self
    obtain ⟨b₁, hplace, hcount₁⟩ := exists_placeLabel r hid hlab
    obtain ⟨ns, b₂, hbody, hblock, hf⟩ := hc.body r b₁
    obtain ⟨b₃, hexit, hcount₃⟩ := exists_exit c.fallsThrough stop r b₂
    have hcount₂ := hbody.count
    have hfree' : ∀ p ∈ meant, p.2.id < b₃.list.labelCount ∧ ¬b₃.list.isPlaced p.2 := by
      intro p hp
      obtain ⟨hid', hlab'⟩ := hfree p (List.mem_cons_of_mem _ hp)
      have hne : p.2 ≠ lab := by
        intro heq
        exact hdistinct.1 (List.mem_map.mpr ⟨p, hp, heq⟩)
      refine ⟨by omega, hexit.unplaced (hbody.unplaced (hplace.unplaced hlab' ?_)
        (hblock.not_mem (by omega))) ?_⟩
      · simpa using hne
      · cases c.fallsThrough <;> simp
    obtain ⟨ms, b₄, hrest, hcases, hm⟩ := ih b₃ hfree' hdistinct.2
    have hcount₄ := hrest.count
    refine ⟨caseLayout c.fallsThrough stop lab ns ms, b₄, ?_, ?_, ?_⟩
    · rw [caseBodies_cons]
      exact hplace.bind (hbody.bind (hexit.bind hrest))
    · rw [hcount₁] at hblock
      rw [hcount₃] at hcases
      exact .cons hblock c.fallsThrough lab hcases (by omega) (by omega)
    · rw [hc.fallsThrough]
      exact hm.cons lab hf

theorem repeatedKey?_eq_none {keys seen : List Int32} (h : keys.Nodup)
    (hseen : ∀ k ∈ keys, k ∉ seen) : repeatedKey? seen keys = none := by
  induction keys generalizing seen with
  | nil => rfl
  | cons k keys ih =>
    rw [List.nodup_cons] at h
    have hk : ¬seen.contains k := by simpa using hseen k List.mem_cons_self
    rw [repeatedKey?, if_neg hk]
    apply ih h.2
    intro k' hk' hmem
    rcases List.mem_cons.mp hmem with rfl | hmem
    · exact h.1 hk'
    · exact hseen k' (List.mem_cons_of_mem _ hk') hmem

/-- There are keys, and they differ. -/
def Distinct (keys : List Int32) : Prop := keys ≠ [] ∧ keys.Nodup

/-- The range of the keys is no wider than a table may be. -/
def Dense (keys : List Int32) : Prop :=
  ∀ k ∈ keys, ∀ k' ∈ keys, k'.toInt - k.toInt < maxTableEntries

theorem Distinct.checked {keys : List Int32} (h : Distinct keys) :
    (liftM (checkKeys keys) : Build Unit) = pure () := by
  rw [checkKeys, if_neg (by simpa using h.1), repeatedKey?_eq_none h.2 (by simp)]
  rfl

theorem Dense.fits {keys : List Int32} (h : Dense keys) (hne : keys ≠ []) :
    ¬maxTableEntries < (keyRange keys).2 - (keyRange keys).1 + 1 := by
  obtain ⟨hmin, hmax⟩ := keyRange_eq hne
  obtain ⟨k, hk, hlow⟩ := List.mem_map.mp (List.min?_eq_some_iff.mp hmin).1
  obtain ⟨k', hk', hhigh⟩ := List.mem_map.mp (List.max?_eq_some_iff.mp hmax).1
  have := h k hk k' hk'
  omega

theorem tableSwitch_eq (otherwise : Build Unit) (h : Distinct (cases.map Case.key))
    (hdense : Dense (cases.map Case.key)) :
    tableSwitch cases otherwise =
      switchOver (tableOver (cases.map Case.key)) cases otherwise := by
  simp only [tableSwitch, h.checked, pure_bind]
  exact if_neg (hdense.fits h.1)

theorem lookupSwitch_eq (otherwise : Build Unit) (h : Distinct (cases.map Case.key)) :
    lookupSwitch cases otherwise = switchOver (fun labels default => .lookupSwitch default
      (labels.mergeSort fun a b => a.1 ≤ b.1)) cases otherwise := by
  rw [lookupSwitch, h.checked, pure_bind]

end Build

namespace Implements

open Build

variable {cases : List (Case (Build Unit))} {meanings : List (Case Meaning)}
  {x : Build Unit} {g : Meaning}

theorem switchOver {instruction : List (Int32 × Label) → Label → Instr Label}
    (hcases : List.Forall₂ Case.Implements cases meanings) (hx : Implements x g)
    (hi : ∀ labels default, labels.map Prod.fst = cases.map Case.key →
      (instruction labels default).Selects labels default) :
    Implements (Build.switchOver instruction cases x) (Meaning.switch meanings g) := by
  intro r b
  obtain ⟨labeled, meant, b₁, hlabels, hagree, rfl, hids, hcount₁, hfrees⟩ :=
    exists_labels hcases r b
  obtain ⟨default, b₂, hdefault, hid, hcount₂, hfree⟩ := exists_freshLabel r b₁
  obtain ⟨b₃, hemit, hcount₃⟩ := exists_emit (instruction (keyLabels labeled) default) r b₂
  obtain ⟨stop, b₄, hstop, hid', hcount₄, hfree'⟩ := exists_freshLabel r b₃
  -- the labels of the cases come first, then the default, then the place to leave to
  have hcounts := count_labels hids
  have hselects : (instruction (keyLabels labeled) default).Selects (keyLabels meant) default := by
    rw [keyLabels_congr hagree]
    apply hi
    rw [Case.keys_eq hcases, keyLabels, List.map_map, List.map_map]
    rfl
  have hearly : ∀ lab ∈ meant.map Prod.snd, lab.id < default.id := by
    intro lab hlab
    have hone := List.count_pos_iff.mpr hlab
    rw [hcounts] at hone
    split at hone
    · omega
    · cases hone
  have hdistinct : (meant.map Prod.snd).Nodup := by
    apply List.Nodup.of_map Label.id
    rw [List.map_map]
    exact hids ▸ List.nodup_range' 1
  have hcasefree : ∀ p ∈ meant, p.2.id < b₄.list.labelCount ∧ ¬b₄.list.isPlaced p.2 := by
    intro p hp
    have := hearly p.2 (List.mem_map_of_mem hp)
    exact ⟨by omega, hstop.unplaced (hemit.unplaced (hdefault.unplaced (hfrees p hp)
      List.not_mem_nil) (by simp)) List.not_mem_nil⟩
  obtain ⟨ms, b₅, hbodies, hblock, hm⟩ := exists_caseBodies hagree stop r b₄ hcasefree hdistinct
  have hcount₅ := hbodies.count
  -- the bodies mark neither of the two labels that are still to be placed
  have houtside : ∀ lab : Label, default.id ≤ lab.id → lab.id < b₄.list.labelCount →
      .label lab ∉ ms := by
    intro lab hlow hhigh
    refine hblock.not_mem (fun hmem => ?_) (.inl hhigh)
    have := hearly lab hmem
    omega
  obtain ⟨b₆, hplace, hcount₆⟩ := exists_placeLabel r (by omega) <|
    hbodies.unplaced (hstop.unplaced (hemit.unplaced hfree (by simp)) List.not_mem_nil)
      (houtside default (by omega) (by omega))
  obtain ⟨ns, b₇, hotherwise, hblock', hg⟩ := hx r b₆
  have hcount₇ := hotherwise.count
  have hother : .label stop ∉ [Node.label default] := by
    rw [← List.count_eq_zero, count_marker, if_neg (by omega)]
  obtain ⟨b₈, hplace', hcount₈⟩ := exists_placeLabel r (by omega) <|
    hotherwise.unplaced (hplace.unplaced (hbodies.unplaced hfree'
      (houtside stop (by omega) (by omega))) hother) (hblock'.not_mem (by omega))
  refine ⟨switchLayout (instruction (keyLabels labeled) default) default stop ms ns, b₈,
    hlabels.bind (hdefault.bind (hemit.bind (hstop.bind (hbodies.bind (hplace.bind
      (hotherwise.bind hplace')))))), ?_, ?_⟩
  · have htargets : ∀ lab ∈ (instruction (keyLabels labeled) default).targets,
        lab = default ∨ lab ∈ meant.map Prod.snd := by
      have hlabs : (keyLabels meant).map Prod.snd = meant.map Prod.snd := by
        rw [keyLabels, List.map_map]
        rfl
      rw [← hlabs]
      exact hselects.targets
    rw [hcount₈]
    rw [hcount₆] at hblock'
    exact Block.switch htargets hblock hblock' (by simpa [hid, hcount₁] using hcounts) (by omega)
      (by omega) hcount₄ hcount₅ (by omega)
  · exact Performs.switch hselects hm hg

theorem tableSwitch (hcases : List.Forall₂ Case.Implements cases meanings) (hx : Implements x g)
    (h : Distinct (cases.map Case.key)) (hdense : Dense (cases.map Case.key)) :
    Implements (Build.tableSwitch cases x) (Meaning.switch meanings g) := by
  rw [tableSwitch_eq x h hdense]
  apply switchOver hcases hx
  intro labels default hkeys
  rw [← hkeys]
  apply Instr.tableOver_selects
  rintro rfl
  exact h.1 hkeys.symm

theorem lookupSwitch (hcases : List.Forall₂ Case.Implements cases meanings) (hx : Implements x g)
    (h : Distinct (cases.map Case.key)) :
    Implements (Build.lookupSwitch cases x) (Meaning.switch meanings g) := by
  rw [lookupSwitch_eq x h]
  apply switchOver hcases hx
  intro labels default hkeys
  exact Instr.lookupSwitch_selects default (hkeys ▸ h.2)

end Implements

end ClassWeave
