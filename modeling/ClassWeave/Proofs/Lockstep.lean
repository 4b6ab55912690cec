import ClassWeave.Proofs.ControlFlow
import ClassWeave.Proofs.StepTrust

/-!
# Searches side by side

One search goes side by side with another one if it looks at entries that stand for those that the
other one looks at: what an entry hands on in the second search, the first one hands on to the entry
that stands for its target. So where the second search comes to its end, the first one does, and the
frames that they find stand for each other.

Code that passes its checks therefore has the same frames without them, and neither frames nor room
change with constants that are added to the pool.
-/

namespace ClassWeave

variable {site : Nat → Nat → Prop} {led : Nat → Prop}

/-- The first handler is the second one, at places that stand for its own. -/
structure Handler.Stands (site : Nat → Nat → Prop) (c d : Handler) : Prop where
  target : site c.target d.target
  caught : c.catchType = d.catchType
  settled : VType.IsSettled d.catchType
  range : ∀ {i j}, site i j → (c.start ≤ i ∧ i < c.stop ↔ d.start ≤ j ∧ j < d.stop)

/-- The first graph is the second one at other places, as far as control comes to them. -/
structure FlowGraph.Stands (site : Nat → Nat → Prop) (led : Nat → Prop) (g k : FlowGraph) :
    Prop where
  program : g.program.Trusts site k.program
  handlers : List.Forall₂ (Handler.Stands site) g.handlers k.handlers
  first : site 0 0
  nodes : ∀ {i j}, site i j → g.program.nodes[i]? = k.program.nodes[j]?
  next : ∀ {i j}, site i j → led j → led (j + 1) → site (i + 1) (j + 1)
  labels : ∀ {lab : Label} {j}, lab.position? k.positions = some j →
    ∃ i, lab.position? g.positions = some i ∧ site i j
  good : Work.Good k fun j _ => led j

/-- What the first search knows stands for what the second one knows. -/
structure Work.Stands (site : Nat → Nat → Prop) (led : Nat → Prop) (w v : Work) : Prop where
  frames : ∀ {i j}, site i j →
    Option.Rel (Option.Rel (Frame.Stands site)) w.frames[i]? v.frames[j]?
  queued : ∀ {i j}, site i j → Option.Rel (· = ·) w.queued[i]? v.queued[j]?
  pending : List.Forall₂ (fun i j => site i j ∧ led j) w.pending v.pending
  maxStack : w.maxStack = v.maxStack
  maxLocals : w.maxLocals = v.maxLocals

/-- What is handed on in the first search stands for what is handed on in the second one. -/
abbrev FlowGraph.EdgeStands (site : Nat → Nat → Prop) (e e' : Nat × Frame) : Prop :=
  site e.1 e'.1 ∧ e.2.Stands site e'.2

/-- Setting cells that stand for each other keeps arrays that do. -/
theorem rel_setIfInBounds {α : Type} {R : α → α → Prop} {xs ys : Array α} {x y : α}
    (hs : VType.SiteMap site) (hall : ∀ {i j}, site i j → Option.Rel R xs[i]? ys[j]?)
    (hxy : R x y) {i j i' j' : Nat} (hij : site i j) (hij' : site i' j') :
    Option.Rel R (xs.setIfInBounds i x)[i']? (ys.setIfInBounds j y)[j']? := by
  rw [Array.getElem?_setIfInBounds, Array.getElem?_setIfInBounds]
  by_cases hi : i = i'
  · subst hi
    obtain rfl := hs.unique hij hij'
    have hcell := hall hij
    rw [if_pos rfl, if_pos rfl]
    by_cases hlt : i < xs.size
    · rw [Array.getElem?_eq_getElem hlt] at hcell
      by_cases hlt' : j < ys.size
      · rw [if_pos hlt, if_pos hlt']
        exact .some hxy
      · rw [Array.getElem?_eq_none (Nat.le_of_not_lt hlt')] at hcell
        cases hcell
    · rw [Array.getElem?_eq_none (Nat.le_of_not_lt hlt)] at hcell
      by_cases hlt' : j < ys.size
      · rw [Array.getElem?_eq_getElem hlt'] at hcell
        cases hcell
      · rw [if_neg hlt, if_neg hlt']
        exact .none
  · have hj : j ≠ j' := fun h => hi (hs.inj hij (h ▸ hij'))
    rw [if_neg hi, if_neg hj]
    exact hall hij'

namespace FlowGraph

variable {g k : FlowGraph} (hgk : g.Stands site led k)

include hgk

/-! ## What entries hand on -/

theorem Stands.exceptionEdges {i j : Nat} (hij : site i j) {f f' u u' : Frame}
    (hf : f.Stands site u) (hf' : f'.Stands site u') :
    List.Forall₂ (EdgeStands site) (g.exceptionEdges i f f') (k.exceptionEdges j u u') := by
  have hhandlers := hgk.handlers
  unfold FlowGraph.exceptionEdges
  generalize g.handlers = cs, k.handlers = ds at hhandlers
  induction hhandlers with
  | nil => exact .nil
  | @cons c d cs ds hcd _ ih =>
    have hraised : ∀ {f u : Frame}, f.Stands site u → EdgeStands site
        (c.target, ⟨f.locals, [c.catchType]⟩) (d.target, ⟨u.locals, [d.catchType]⟩) :=
      fun hfu => ⟨hcd.target, hfu.locals, hcd.caught ▸ .cons (.settled (hcd.caught ▸ hcd.settled)) .nil⟩
    simp only [List.filter_cons, Bool.and_eq_true, decide_eq_true_eq, hcd.range hij]
    by_cases hrange : d.start ≤ j ∧ j < d.stop
    · rw [if_pos hrange, if_pos hrange, List.flatMap_cons, List.flatMap_cons]
      exact List.rel_append (.cons (hraised hf) (.cons (hraised hf') .nil)) ih
    · rw [if_neg hrange, if_neg hrange]
      exact ih

theorem Stands.targets {labs : List Label} {ts : List Nat}
    (hts : List.Forall₂ (fun lab t => lab.position? k.positions = some t) labs ts) :
    ∃ ss, labs.mapM (position g.positions) = .ok ss ∧ List.Forall₂ site ss ts := by
  induction hts with
  | nil => exact ⟨[], rfl, .nil⟩
  | cons ht _ ih =>
    obtain ⟨s, hs, hst⟩ := hgk.labels ht
    obtain ⟨ss, hss, hall⟩ := ih
    refine ⟨s :: ss, ?_, .cons hst hall⟩
    rw [mapM_eq_ok] at hss ⊢
    exact .cons (position_eq_ok.mpr hs) hss

theorem Stands.edges {i j : Nat} (hij : site i j) (hj : led j) {n : Node}
    (hn : k.program.nodes[j]? = some n) {f u u' : Frame} (hf : f.Stands site u)
    {es : List (Nat × Frame)} (hedges : k.edges j n u = .ok (u', es)) :
    ∃ f' es', g.edges i n f = .ok (f', es') ∧ f'.Stands site u' ∧
      List.Forall₂ (EdgeStands site) es' es := by
  by_cases hreal : n.isReal
  · obtain ⟨ins, rfl⟩ := Node.exists_instr hreal
    -- control comes to every target, so the place behind the instruction has a counterpart if it
    -- is one of them
    have hled := hgk.good.edges hj hn hedges
    obtain ⟨hstep, ts, hts, rfl⟩ := edges_instr hedges
    obtain ⟨f', hstep', hf'⟩ := Program.step_of_trusts hgk.program (fun _ _ => hij) hf hstep
    obtain ⟨ss, hss, hall⟩ := hgk.targets hts
    refine ⟨f', _, bind_eq_ok.mpr ⟨f', failure_eq_ok.mpr hstep', bind_eq_ok.mpr ⟨ss, hss, rfl⟩⟩,
      hf', List.rel_append (List.rel_append (hgk.exceptionEdges hij hf hf') ?_) ?_⟩
    · refine List.forall₂_map_left_iff.mpr (List.forall₂_map_right_iff.mpr ?_)
      exact hall.imp fun _ _ hst => ⟨hst, hf'⟩
    · by_cases hfall : ins.fallsThrough
      · rw [if_pos hfall] at hled ⊢
        have hnext := hled (j + 1, u') (List.mem_append_right _ List.mem_cons_self)
        rw [if_pos hfall]
        exact .cons ⟨hgk.next hij hj hnext, hf'⟩ .nil
      · rw [if_neg hfall, if_neg hfall]
        exact .nil
  · have hmark : n.isReal = false := by simpa using hreal
    have hled := hgk.good.edges hj hn hedges
    rw [edges_other hmark, Except.ok.injEq, Prod.mk.injEq] at hedges
    obtain ⟨rfl, rfl⟩ := hedges
    have hnext := hled (j + 1, u) List.mem_cons_self
    exact ⟨f, _, edges_other hmark f, hf, .cons ⟨hgk.next hij hj hnext, hf⟩ .nil⟩

end FlowGraph

namespace Work

variable {g k : FlowGraph} {w v v' : Work}

/-! ## One look -/

theorem rel_join {x y : Option (Option Frame)} {R : Frame → Frame → Prop}
    (hxy : Option.Rel (Option.Rel R) x y) : Option.Rel R x.join y.join := by
  cases hxy with
  | none => exact .none
  | some hcell => exact hcell

theorem Stands.update (hs : VType.SiteMap site) (hw : w.Stands site led v) {i j : Nat}
    (hij : site i j) (hj : led j) {f u : Frame} (hf : f.Stands site u) :
    (w.update i f).Stands site led (v.update j u) := by
  have hframes : ∀ {i' j'}, site i' j' → Option.Rel (Option.Rel (Frame.Stands site))
      (w.frames.setIfInBounds i (some f))[i']? (v.frames.setIfInBounds j (some u))[j']? :=
    rel_setIfInBounds hs hw.frames (.some hf) hij
  have hqueued : w.queued.getD i false = v.queued.getD j false := by
    have hcell := hw.queued hij
    rw [Array.getD_eq_getD_getElem?, Array.getD_eq_getD_getElem?]
    generalize w.queued[i]? = x, v.queued[j]? = y at hcell
    cases hcell with
    | none => rfl
    | some heq => rw [heq]
  rw [update_eq, update_eq, hqueued]
  by_cases hq : v.queued.getD j false = true
  · rw [if_pos hq, if_pos hq]
    exact { hw with frames := hframes }
  · rw [if_neg hq, if_neg hq]
    exact { hw with
      frames := hframes
      queued := rel_setIfInBounds hs hw.queued rfl hij
      pending := .cons ⟨hij, hj⟩ hw.pending }

theorem Stands.cover (hw : w.Stands site led v) {f u : Frame} (hf : f.Stands site u) :
    (w.cover f).Stands site led (v.cover u) :=
  { hw with
    maxStack := by simp only [Work.cover, hw.maxStack, hf.depth_eq]
    maxLocals := by simp only [Work.cover, hw.maxLocals, hf.locals.length_eq] }

section graphs

variable (hgk : g.Stands site led k)

include hgk

theorem Stands.follow (hw : w.Stands site led v) {source source' : Nat} {e e' : Nat × Frame}
    (he : FlowGraph.EdgeStands site e e') (hled : led e'.1)
    (hv : Work.follow k source' v e' = .ok v') :
    ∃ w', Work.follow g source w e = .ok w' ∧ w'.Stands site led v' := by
  obtain ⟨hsite, hframe⟩ := he
  have hsites := hgk.program.sites
  have hcell := hw.frames hsite
  unfold Work.follow at hv ⊢
  -- both targets are outside the code, have no frame yet, or have frames that stand for each other
  generalize hx : w.frames[e.1]? = x at hcell
  generalize hy : v.frames[e'.1]? = y at hcell hv
  cases hcell with
  | none => cases hv
  | some hcell =>
    cases hcell with
    | none =>
      rw [Except.ok.injEq] at hv
      exact ⟨_, rfl, hv ▸ hw.update hsites hsite hled hframe⟩
    | @some f u hf =>
      simp only at hv ⊢
      cases hm : u.merge k.program.hierarchy k.program.mode e'.2 with
      | error => rw [hm] at hv; cases hv
      | ok r =>
        obtain ⟨r', hr', hrel⟩ := Frame.stands_merge hsites hgk.program.checks hf hframe hm
        rw [hgk.program.hierarchy, hr']
        rw [hm] at hv
        cases hrel with
        | none =>
          rw [Except.ok.injEq] at hv
          exact ⟨w, rfl, hv ▸ hw⟩
        | some hmerged =>
          rw [Except.ok.injEq] at hv
          exact ⟨_, rfl, hv ▸ hw.update hsites hsite hled hmerged⟩

theorem Stands.followAll (hw : w.Stands site led v) (source : Nat) {source' : Nat}
    {es es' : List (Nat × Frame)} (hes : List.Forall₂ (FlowGraph.EdgeStands site) es es')
    (hled : ∀ e ∈ es', led e.1) (hv : es'.foldlM (Work.follow k source') v = .ok v') :
    ∃ w', es.foldlM (Work.follow g source) w = .ok w' ∧ w'.Stands site led v' := by
  induction hes generalizing w v with
  | nil =>
    rw [List.foldlM_nil, pure_eq_ok] at hv
    exact ⟨w, rfl, hv ▸ hw⟩
  | cons he _ ih =>
    rw [List.foldlM_cons] at hv
    obtain ⟨v1, h1, h2⟩ := bind_eq_ok.mp hv
    obtain ⟨w1, h1', hw1⟩ := hw.follow hgk he (hled _ List.mem_cons_self) h1
    obtain ⟨w2, h2', hw2⟩ := ih hw1 (fun e he => hled e (List.mem_cons_of_mem _ he)) h2
    exact ⟨w2, by rw [List.foldlM_cons]; exact bind_eq_ok.mpr ⟨w1, h1', h2'⟩, hw2⟩

/-- **The look at an entry goes side by side with the look at the one that it stands for.** -/
theorem Stands.visit (hw : w.Stands site led v) {i j : Nat} (hij : site i j) (hj : led j)
    (hv : Work.visit k v j = .ok v') :
    ∃ w', Work.visit g w i = .ok w' ∧ w'.Stands site led v' := by
  have hlooked : Stands site led { w with queued := w.queued.setIfInBounds i false }
      { v with queued := v.queued.setIfInBounds j false } :=
    { hw with queued := rel_setIfInBounds hgk.program.sites hw.queued rfl hij }
  have hframe := rel_join (hw.frames hij)
  unfold Work.visit at hv ⊢
  simp only [hgk.nodes hij] at hv ⊢
  generalize w.frames[i]?.join = x, v.frames[j]?.join = y at hframe hv
  cases hn : k.program.nodes[j]? with
  | none =>
    rw [hn] at hv
    cases hframe with
    | none => exact ⟨_, rfl, Except.ok.inj hv ▸ hlooked⟩
    | some => exact ⟨_, rfl, Except.ok.inj hv ▸ hlooked⟩
  | some n =>
    rw [hn] at hv
    cases hframe with
    | none => exact ⟨_, rfl, Except.ok.inj hv ▸ hlooked⟩
    | @some f u hf =>
      obtain ⟨⟨u', es⟩, hedges, hfold⟩ := bind_eq_ok.mp hv
      obtain ⟨f', es', hedges', hf', hes⟩ := hgk.edges hij hj hn hf hedges
      obtain ⟨w', hfold', hw'⟩ := ((hlooked.cover hf).cover hf').followAll hgk i
        hes (hgk.good.edges hj hn hedges) hfold
      exact ⟨w', bind_eq_ok.mpr ⟨_, hedges', hfold'⟩, hw'⟩

/-! ## The whole search -/

/-- **Where the second search comes to its end, the first one does.** -/
theorem Stands.run : ∀ (v : Work) (r : ClassResult Work), Work.run k v = some r →
    ∀ v', r = .ok v' → ∀ w : Work, w.Stands site led v →
      ∃ w', Work.run g w = some (.ok w') ∧ w'.Stands site led v' := by
  -- by induction on the second search, for every state of the first that stands for its state
  refine run.partial_correctness k _ ?_
  intro run ih v r hrun v' hr w hw
  have hpending := hw.pending
  split at hrun
  · rename_i hnil
    rw [hnil, List.forall₂_nil_right_iff] at hpending
    rw [Option.some.injEq] at hrun
    obtain rfl : v = v' := Except.ok.inj (hrun.trans hr)
    exact ⟨w, run_of_pending_nil hpending, hw⟩
  · rename_i j rest hp
    rw [hp, List.forall₂_cons_right_iff] at hpending
    obtain ⟨i, rest', ⟨hij, hj⟩, hrest, hp'⟩ := hpending
    split at hrun
    · rw [Option.some.injEq] at hrun
      cases hrun.trans hr
    · rename_i v1 hvisit
      have hleft : Stands site led { w with pending := rest' } { v with pending := rest } :=
        { hw with pending := hrest }
      obtain ⟨w1, hvisit', hw1⟩ := hleft.visit hgk hij hj hvisit
      obtain ⟨w', hrun', hw'⟩ := ih v1 r hrun v' hr w1 hw1
      exact ⟨w', (run_of_visit hp' hvisit').trans hrun', hw'⟩

/-- The searches start side by side: an entry is inside the one list if its counterpart is inside
the other one. -/
theorem stands_start {entry : Frame} (hled : led 0) (hentry : entry.Stands site entry) :
    Stands site led (.start g.program.nodes.size entry) (.start k.program.nodes.size entry) := by
  have hsites := hgk.program.sites
  have hempty : ∀ {α : Type} {R : α → α → Prop} {x : α}, R x x → ∀ {i j}, site i j →
      Option.Rel R (Array.replicate g.program.nodes.size x)[i]?
        (Array.replicate k.program.nodes.size x)[j]? := by
    intro α R x hx i j hij
    have hnodes := hgk.nodes hij
    rw [Array.getElem?_replicate, Array.getElem?_replicate]
    by_cases hi : i < g.program.nodes.size
    · rw [Array.getElem?_eq_getElem hi] at hnodes
      obtain ⟨hj, -⟩ := Array.getElem?_eq_some_iff.mp hnodes.symm
      rw [if_pos hi, if_pos hj]
      exact .some hx
    · rw [Array.getElem?_eq_none (Nat.le_of_not_lt hi)] at hnodes
      have hj := Array.getElem?_eq_none_iff.mp hnodes.symm
      rw [if_neg hi, if_neg (Nat.not_lt.mpr hj)]
      exact .none
  exact {
    frames := rel_setIfInBounds hsites (hempty .none) (.some hentry) hgk.first
    queued := rel_setIfInBounds hsites (hempty rfl) rfl hgk.first
    pending := .cons ⟨hgk.first, hled⟩ .nil
    maxStack := rfl
    maxLocals := rfl }

end graphs

end Work

/-! ## Whole analyses -/

namespace Analysis

/-- The frames of the first analysis stand for those of the second, and need as much room. -/
structure Stands (site : Nat → Nat → Prop) (a b : Analysis) : Prop where
  frames : ∀ {i j}, site i j →
    Option.Rel (Option.Rel (Frame.Stands site)) a.frames[i]? b.frames[j]?
  maxStack : a.maxStack = b.maxStack
  maxLocals : a.maxLocals = b.maxLocals

theorem Stands.frame {a b : Analysis} (hab : a.Stands site b) {i j : Nat} (hij : site i j) :
    Option.Rel (Frame.Stands site) a.frames[i]?.join b.frames[j]?.join :=
  Work.rel_join (hab.frames hij)

/-- What is reached stands for what is reached. -/
theorem Stands.reaches {a b : Analysis} (hab : a.Stands site b) {i j : Nat} (hij : site i j) :
    a.Reaches i ↔ b.Reaches j := by
  have hframe := hab.frame hij
  unfold Reaches
  generalize a.frames[i]?.join = x, b.frames[j]?.join = y at hframe
  cases hframe <;> rfl

/-- An analysis stands for no other one at the same places. -/
theorem Stands.eq {a b : Analysis} (hab : a.Stands (· = ·) b) : a = b := by
  have hframes : a.frames = b.frames := by
    refine Array.ext_getElem? fun i => ?_
    have hcell := hab.frames (rfl : i = i)
    generalize a.frames[i]? = x, b.frames[i]? = y at hcell
    cases hcell with
    | none => rfl
    | some hcell =>
      cases hcell with
      | none => rfl
      | some hf => rw [Frame.stands_eq.mp hf]
  obtain ⟨frames, maxStack, maxLocals⟩ := a
  rw [show frames = b.frames from hframes, show maxStack = b.maxStack from hab.maxStack,
    show maxLocals = b.maxLocals from hab.maxLocals]

variable {m : MethodContext} {l l' : InstrList} {p q : Pool} {h h' : Hierarchy} {mode mode' : Mode}
  {a : Analysis} {g k : FlowGraph} {entry : Frame} {v : Work}

/-- Where an analysis succeeds, so does one whose graph stands for that of the first. -/
theorem Searched.stands (hs : Searched m l p h mode a k entry v)
    (hb : Begins m l' q h' mode' g entry) (hgk : g.Stands site led k) (hled : led 0) :
    ∃ a', analyze m l' q h' mode' = .ok a' ∧ a'.Stands site a := by
  obtain ⟨hlocals, hstack⟩ := Frame.settled_entry hs.start
  have hentry : entry.Stands site entry :=
    Frame.stands_settled hlocals (by rw [hstack]; exact fun _ ht => absurd ht List.not_mem_nil)
  have hrun : Work.run k (.start k.program.nodes.size entry) = some (.ok v) := by
    rw [hs.program]
    exact hs.run
  obtain ⟨w, hw, hwv⟩ := Work.Stands.run hgk _ _ hrun v rfl _ (Work.stands_start hgk hled hentry)
  refine ⟨⟨w.frames, w.maxStack, w.maxLocals⟩, hb.analyze_eq hw, ?_⟩
  rw [hs.result]
  exact ⟨hwv.frames, hwv.maxStack, hwv.maxLocals⟩

end Analysis

variable {m : MethodContext} {l : InstrList} {p q : Pool} {h : Hierarchy} {mode mode' : Mode}
  {a : Analysis}

/-- **An analysis that succeeds gives the same without checks and with more constants.** -/
theorem analyze_of_trusts (hpq : p.Extends q) (hmode : mode = .strict → mode' = .strict)
    (ha : analyze m l p h mode' = .ok a) : analyze m l q h mode = .ok a := by
  obtain ⟨k, entry, v, hs⟩ := Analysis.searched_of_analyze ha
  let program : Program :=
    ⟨m, l.nodes, q, h, mode, (MethodType.parse? m.descriptor).bind MethodType.result⟩
  let g : FlowGraph := ⟨program, k.positions, k.handlers⟩
  have hgk : g.Stands (· = ·) (fun _ => True) k := {
    program := {
      method := by rw [hs.program]
      result := by rw [hs.program]
      pooled := fun i t => Program.pooledType?_extends (by rw [hs.program]; exact hpq)
      sites := VType.siteMap_eq
      news := by rintro i _ cls rfl hn; rw [hs.program] at hn; exact hn
      hierarchy := by rw [hs.program]
      checks := by rw [hs.program]; exact hmode }
    handlers := List.forall₂_same.mpr fun d hd =>
      ⟨rfl, rfl, hs.caught hd, fun hij => by rw [hij]⟩
    first := rfl
    nodes := by rintro i _ rfl; rw [hs.program]
    next := fun hij _ _ => by rw [hij]
    labels := fun hj => ⟨_, hj, rfl⟩
    good := ⟨fun _ _ _ _ _ => trivial, fun _ _ _ => trivial⟩ }
  obtain ⟨a', ha', hstands⟩ :=
    hs.stands (g := g) ⟨rfl, hs.positions, hs.handlers, hs.start, hs.nonempty⟩ hgk trivial
  rwa [hstands.eq] at ha'

/-- An analysis that succeeds gives the same with more constants. -/
theorem analyze_extends (hpq : p.Extends q) (ha : analyze m l p h mode = .ok a) :
    analyze m l q h mode = .ok a :=
  analyze_of_trusts hpq id ha

/-- Code that passes its checks is analysed the same without them. -/
theorem analyze_lenient (ha : analyze m l p h .strict = .ok a) :
    analyze m l p h .lenient = .ok a :=
  analyze_of_trusts Pool.Extends.refl (fun hmode => by cases hmode) ha

end ClassWeave
