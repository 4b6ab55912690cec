import ClassWeave.Proofs.Insertions
import ClassWeave.Transform.Writer

/-!
# What an injection does to a class

An injection inserts copies of the code that it builds into one method of a class, or it fails and
the class is as it was: everything that can go wrong does so before the first copy is inserted. Each
copy is inserted into the class as it stands, so what is shown of one copy is carried through
the places from the last one to the first.
-/

namespace ClassWeave

/-! ## Places -/

namespace InjectionPoint

/-- The entry at a place is a return. -/
def ReturnsAt (l : InstrList) (p : Nat) : Prop := ∃ n, l.nodes[p]? = some n ∧ n.isReturn

/-- The places that a point names, in ascending order. -/
def Names (l : InstrList) (ps : List Nat) : InjectionPoint → Prop
  | head => ps = [0]
  | beforeReturn => ps.Pairwise (· < ·) ∧ ∀ p, p ∈ ps ↔ ReturnsAt l p
  | tail => ∃ p, ps = [p] ∧ ReturnsAt l p ∧ ∀ q, ReturnsAt l q → q ≤ p

variable {l : InstrList} {p : Nat} {ps : List Nat} {point : InjectionPoint}

theorem mem_returns : p ∈ l.returns ↔ ReturnsAt l p := by
  simp only [InstrList.returns, List.mem_map, List.mem_filter, Prod.exists, exists_eq_right,
    List.mem_zipIdx_iff_getElem?, Array.getElem?_toList, ReturnsAt]

theorem returns_sorted (l : InstrList) : l.returns.Pairwise (· < ·) := by
  have hplaces : (l.nodes.toList.zipIdx.map Prod.snd).Pairwise (· < ·) := by
    rw [List.zipIdx_map_snd]
    exact List.pairwise_lt_range'
  exact hplaces.sublist (List.filter_sublist.map Prod.snd)

theorem names_places (point : InjectionPoint) (h : point.places l ≠ []) :
    point.Names l (point.places l) := by
  cases point with
  | head => exact rfl
  | beforeReturn => exact ⟨returns_sorted l, fun _ => mem_returns⟩
  | tail =>
    cases hlast : l.returns.getLast? with
    | none =>
      rw [places, hlast] at h
      exact absurd rfl h
    | some p =>
      obtain ⟨init, hinit⟩ := List.getLast?_eq_some_iff.mp hlast
      refine ⟨p, by rw [places, hlast]; rfl, mem_returns.mp ?_, fun q hq => ?_⟩
      · rw [hinit]
        exact List.mem_append_right init (List.mem_singleton_self p)
      · have hsorted := returns_sorted l
        rw [hinit] at hsorted
        rcases List.mem_append.mp (hinit ▸ mem_returns.mpr hq) with hmem | hmem
        · exact Nat.le_of_lt ((List.pairwise_append.mp hsorted).2.2 q hmem p
            (List.mem_singleton_self p))
        · exact Nat.le_of_eq (List.mem_singleton.mp hmem)

theorem Names.sorted (h : point.Names l ps) : ps.Pairwise (· < ·) := by
  cases point with
  | head =>
    obtain rfl : ps = [0] := h
    exact List.pairwise_singleton _ _
  | beforeReturn => exact h.1
  | tail =>
    obtain ⟨p, rfl, -⟩ := h
    exact List.pairwise_singleton _ _

theorem ReturnsAt.le_size (h : ReturnsAt l p) : p ≤ l.nodes.size := by
  obtain ⟨n, hn, -⟩ := h
  exact Nat.le_of_lt (Array.getElem?_eq_some_iff.mp hn).1

theorem Names.le_size (h : point.Names l ps) : ∀ p ∈ ps, p ≤ l.nodes.size := by
  intro p hp
  cases point with
  | head =>
    obtain rfl : ps = [0] := h
    rw [List.mem_singleton.mp hp]
    exact Nat.zero_le _
  | beforeReturn => exact ((h.2 p).mp hp).le_size
  | tail =>
    obtain ⟨q, rfl, hq, -⟩ := h
    rw [List.mem_singleton.mp hp]
    exact hq.le_size

end InjectionPoint

/-! ## Changing a method -/

theorem modifyFirst_append {α : Type} {test : α → Bool} {f : α → α} {before after : List α} {a : α}
    (hbefore : ∀ b ∈ before, ¬ test b) (ha : test a) :
    modifyFirst test f (before ++ a :: after) = before ++ f a :: after := by
  induction before with
  | nil => exact if_pos ha
  | cons b before ih =>
    obtain ⟨hb, hbefore⟩ := List.forall_mem_cons.mp hbefore
    rw [List.cons_append, modifyFirst, if_neg hb, ih hbefore]
    rfl

theorem ClassModel.modifyMethod_eq {c : ClassModel} {name descriptor : String} {m : MethodModel}
    {before after : List MethodModel} (hmethods : c.methods = before ++ m :: after)
    (hbefore : ∀ x ∈ before, ¬ x.isNamed name descriptor) (hm : m.isNamed name descriptor)
    (f : MethodModel → MethodModel) :
    c.modifyMethod name descriptor f = { c with methods := before ++ f m :: after } := by
  rw [modifyMethod, hmethods, modifyFirst_append hbefore hm]

namespace ClassChange

variable {α β : Type} {c c' : ClassModel} {x : ClassChange α} {f : α → ClassChange β} {a : α}

theorem on_bind (hx : x.on c = (.ok a, c')) : (x >>= f).on c = (f a).on c' := by
  unfold on at hx ⊢
  rw [ExceptT.run_bind, StateT.run_bind, hx]
  rfl

theorem on_get (c : ClassModel) : (get : ClassChange ClassModel).on c = (.ok c, c) := rfl

end ClassChange

namespace Injection

variable {i : Injection} {c : ClassModel} {m : MethodModel} {before after : List MethodModel}
  {body : MethodBody} {injected : InstrList}

/-- The class with a list in the place of the code of a method. -/
def recoded (c : ClassModel) (before : List MethodModel) (m : MethodModel)
    (after : List MethodModel) (body : MethodBody) (l : InstrList) : ClassModel :=
  { c with methods := before ++ { m with body := some { body with list := l } } :: after }

section places

variable (hbefore : ∀ x ∈ before, ¬ x.isNamed i.method.name i.method.descriptor)
  (hm : m.isNamed i.method.name i.method.descriptor)

include hbefore hm

/-- One copy is inserted. -/
theorem on_spliceAt (injected l : InstrList) (p : Nat) :
    (i.spliceAt injected p).on (recoded c before m after body l) =
      (.ok (), recoded c before m after body (l.splice p injected)) := by
  have hm' : MethodModel.isNamed i.method.name i.method.descriptor
      { m with body := some { body with list := l } } := hm
  exact congrArg (Prod.mk (Except.ok ())) (ClassModel.modifyMethod_eq rfl hbefore hm' _)

/-- Copies are inserted one after the other. -/
theorem on_splices (injected l : InstrList) (ps : List Nat) :
    (ps.forM (i.spliceAt injected)).on (recoded c before m after body l) =
      (.ok (), recoded c before m after body (ps.foldl (fun l p => l.splice p injected) l)) := by
  induction ps generalizing l with
  | nil => rfl
  | cons p ps ih =>
    rw [List.forM, ClassChange.on_bind (on_spliceAt hbefore hm injected l p), ih]
    rfl

end places

theorem on_build (hbuild : i.build m = .ok injected) (c : ClassModel) :
    (liftM ((i.build m).mapError TransformError.build) : ClassChange InstrList).on c =
      (.ok injected, c) := by
  rw [hbuild]
  rfl

/-- Once there is something to insert and a place for it, all that is left is to insert it. -/
theorem on_inject (hm : c.method? i.method.name i.method.descriptor = some m)
    (hbuild : i.build m = .ok injected) (hbody : m.body = some body)
    (hne : i.point.places body.list ≠ []) : i.inject.on c =
      ((i.point.places body.list).reverse.forM (i.spliceAt injected)).on c := by
  rw [inject, ClassChange.on_bind (ClassChange.on_get c)]
  simp only [hm, ClassChange.on_bind (on_build hbuild c), hbody]

/-- All reasons to fail come in front of the first copy. -/
theorem inject_cases (i : Injection) (c : ClassModel) : (∃ e, i.inject.on c = (.error e, c)) ∨
    ∃ m injected body, c.method? i.method.name i.method.descriptor = some m ∧
      i.build m = .ok injected ∧ m.body = some body ∧ i.point.places body.list ≠ [] := by
  rw [inject, ClassChange.on_bind (ClassChange.on_get c)]
  cases hm : c.method? i.method.name i.method.descriptor with
  | none => exact .inl ⟨_, rfl⟩
  | some m =>
    cases hbuild : i.build m with
    | error e => exact .inl ⟨.build e, by simp only [hbuild]; rfl⟩
    | ok injected =>
      simp only [ClassChange.on_bind (on_build hbuild c)]
      cases hbody : m.body with
      | none => exact .inl ⟨_, rfl⟩
      | some body =>
        cases hplaces : i.point.places body.list with
        | nil => exact .inl ⟨_, by simp only [hplaces]; rfl⟩
        | cons p ps =>
          refine .inr ⟨m, injected, body, rfl, hbuild, hbody, ?_⟩
          rw [hplaces]
          exact List.cons_ne_nil p ps

/-- Code that was built marks all labels that it uses. -/
theorem complete_of_build (h : i.build m = .ok injected) : injected.unplacedLabels = [] := by
  obtain ⟨b, -, h⟩ := bind_eq_ok.mp h
  unfold Build.listOn at h
  split at h
  · have hfinish := mapError_eq_ok.mp h
    unfold InstrList.finish at hfinish
    split at hfinish
    · rename_i hnone
      rwa [← Except.ok.inj hfinish]
    · cases hfinish
  · cases h

/-- **An injection is a pure insertion or nothing.** If the code of the method and the code that is
built use labels of their own only: an injection fails and leaves the class as it is, or it
replaces the list of the first method that it names by that list with a copy of what was built at
every place that it names, and nothing else of the class. -/
theorem inserts_or_leaves (i : Injection) (c : ClassModel)
    (hlist : ∀ m body, c.method? i.method.name i.method.descriptor = some m →
      m.body = some body → body.list.OwnsLabels)
    (hbuilt : ∀ m injected, c.method? i.method.name i.method.descriptor = some m →
      i.build m = .ok injected → injected.OwnsLabels) :
    (∃ e, i.inject.on c = (.error e, c)) ∨
      ∃ before m after body injected ps l,
        c.methods = before ++ m :: after ∧
        (∀ x ∈ before, ¬ x.isNamed i.method.name i.method.descriptor) ∧
        m.isNamed i.method.name i.method.descriptor ∧ m.body = some body ∧
        i.build m = .ok injected ∧ i.point.Names body.list ps ∧
        InstrList.IsInsertion body.list injected ps l ∧
        i.inject.on c = (.ok (), recoded c before m after body l) := by
  rcases i.inject_cases c with hfail | ⟨m, injected, body, hm, hbuild, hbody, hne⟩
  · exact .inl hfail
  obtain ⟨hnamed, before, after, hmethods, hfirst⟩ := List.find?_eq_some_iff_append.mp hm
  have hbefore : ∀ x ∈ before, ¬ x.isNamed i.method.name i.method.descriptor := by
    intro x hx
    simpa using hfirst x hx
  have hnames := i.point.names_places hne
  have hinsertion := InstrList.isInsertion_foldr (hlist m body hm hbody)
    (hbuilt m injected hm hbuild) (complete_of_build hbuild) hnames.sorted hnames.le_size
  refine .inr ⟨before, m, after, body, injected, _, _, hmethods, hbefore, hnamed, hbody, hbuild,
    hnames, hinsertion, ?_⟩
  have hc : c = recoded c before m after body body.list := by
    rw [recoded, ← hbody, ← hmethods]
  rw [on_inject hm hbuild hbody hne, List.foldr_eq_foldl_reverse, hc]
  exact on_splices hbefore hnamed injected body.list _

/-! ## Two returns -/

/-- Code that returns at two places. -/
def sizeList : InstrList :=
  ⟨#[.instr (.var (Opcode.load .int) 1), .instr (.jump Opcode.ifeq ⟨0⟩),
    .instr (.plain Opcode.iconst_0), .instr (.plain (Opcode.returnOf .int)), .label ⟨0⟩,
    .instr (.plain Opcode.iconst_0), .instr (.plain (Opcode.returnOf .int))], #[true], []⟩

def sizeMethod : MethodModel := ⟨1, "size", "(Z)I", some ⟨sizeList, 1, 2, []⟩, []⟩

/-- A class with the method behind another one. -/
def widget : ClassModel :=
  { ClassModel.new "a/Widget" none with methods := [⟨1, "size", "()I", none, []⟩, sizeMethod] }

/-- Code with a label goes in front of both. -/
def hop : Injection where
  method := ⟨"a/Widget", "size", "(Z)I"⟩
  point := .beforeReturn
  names := .identity
  code := do
    let lab ← Build.freshLabel
    Build.goto lab
    Build.placeLabel lab

/-- What is built. -/
def hopList : InstrList := ⟨#[.instr (.jump Opcode.goto ⟨0⟩), .label ⟨0⟩], #[true], []⟩

theorem build_hop : hop.build sizeMethod = .ok hopList := by
  have hfree : Builder.firstFree sizeMethod = .ok 2 := by decide +kernel
  have hcomplete : hopList.unplacedLabels = [] := by decide +kernel
  have hfinish : hopList.finish = .ok hopList := by rw [InstrList.finish, hcomplete]
  rw [build, Builder.forMethod, hfree]
  show hopList.finish.mapError BuildError.cls = _
  rw [hfinish]
  rfl

theorem method?_widget : widget.method? hop.method.name hop.method.descriptor = some sizeMethod :=
  rfl

/-- The code is inserted in front of both returns. -/
theorem hop_before_returns : ∃ before m after body injected ps l,
    widget.methods = before ++ m :: after ∧
    (∀ x ∈ before, ¬ x.isNamed hop.method.name hop.method.descriptor) ∧
    m.isNamed hop.method.name hop.method.descriptor ∧ m.body = some body ∧
    hop.build m = .ok injected ∧ hop.point.Names body.list ps ∧
    InstrList.IsInsertion body.list injected ps l ∧
    hop.inject.on widget = (.ok (), recoded widget before m after body l) := by
  have hlist : ∀ m body, widget.method? hop.method.name hop.method.descriptor = some m →
      m.body = some body → body.list.OwnsLabels := by
    rintro m body hm hbody
    obtain rfl := Option.some.inj (method?_widget.symm.trans hm)
    obtain rfl := Option.some.inj hbody
    decide
  have hbuilt : ∀ m injected, widget.method? hop.method.name hop.method.descriptor = some m →
      hop.build m = .ok injected → injected.OwnsLabels := by
    rintro m injected hm hbuild
    obtain rfl := Option.some.inj (method?_widget.symm.trans hm)
    obtain rfl := Except.ok.inj (build_hop.symm.trans hbuild)
    decide
  rcases inserts_or_leaves hop widget hlist hbuilt with ⟨e, he⟩ | hinserted
  · have hplaces : hop.point.places sizeList = [3, 6] := by decide
    rw [on_inject method?_widget build_hop rfl (by rw [hplaces]; exact List.cons_ne_nil _ _),
      hplaces] at he
    cases congrArg Prod.fst he
  · exact hinserted

end Injection
end ClassWeave
