import ClassWeave.Proofs.SearchMoments
import ClassWeave.Proofs.StepTrust

/-!
# Objects told apart by the executions that made them

In a frame a fresh object is known by the instruction that made it, and a loop may run that
instruction again and again. To tell the objects of different executions apart, a trail through the
code is unrolled (`Program.unrolled`): every execution gets an entry of its own, and the frames
recorded along the trail are run once more with objects known by these entries (`Retraced`). What
comes out is that nothing was mixed up: in a recorded frame an instruction always stands for its
latest execution (`Begins.stands`), and a constructor call marks what it marks in the unrolled code
(`Begins.stands_step`).
-/

namespace ClassWeave

/-- Of the times at which a trail came through an entry, this is the latest. -/
def Latest (trail : List Nat) (t i : Nat) : Prop :=
  trail[t]? = some i ∧ ∀ u, trail[u]? = some i → u ≤ t

/-- The code that a trail comes through, one entry after the other. -/
def Program.unrolled (p : Program) (trail : List Nat) : Program :=
  { p with nodes := (trail.map fun i => p.nodes.getD i default).toArray }

section latest

variable {trail : List Nat} {t i j : Nat}

theorem siteMap_latest : VType.SiteMap (Latest trail) where
  unique h h' := Option.some.inj (h.1.symm.trans h'.1)
  inj h h' := Nat.le_antisymm (h'.2 _ h.1) (h.2 _ h'.1)

theorem latest_now : Latest (trail ++ [i]) trail.length i := by
  refine ⟨List.getElem?_concat_length, fun u hu => ?_⟩
  obtain ⟨hlt, -⟩ := List.getElem?_eq_some_iff.mp hu
  rw [List.length_append, List.length_singleton] at hlt
  omega

/-- Coming through another entry changes nothing. -/
theorem Latest.snoc (h : Latest trail t i) (hne : i ≠ j) : Latest (trail ++ [j]) t i := by
  obtain ⟨hlt, -⟩ := List.getElem?_eq_some_iff.mp h.1
  refine ⟨by rw [List.getElem?_append_left hlt, h.1], fun u hu => ?_⟩
  by_cases hu' : u < trail.length
  · rw [List.getElem?_append_left hu'] at hu
    exact h.2 u hu
  · obtain ⟨hlt', -⟩ := List.getElem?_eq_some_iff.mp hu
    rw [List.length_append, List.length_singleton] at hlt'
    obtain rfl : u = trail.length := by omega
    rw [List.getElem?_concat_length, Option.some.injEq] at hu
    exact absurd hu.symm hne

/-- The unrolled code makes the objects that the code makes. -/
theorem Program.trusts_unrolled (p : Program) :
    (p.unrolled trail).Trusts (Latest trail) p where
  method := rfl
  result := rfl
  pooled _ _ h := h
  sites := siteMap_latest
  news t i cls h hn := by
    simp only [unrolled, List.getElem?_toArray, List.getElem?_map, h.1, Option.map_some,
      Array.getD_eq_getD_getElem?, hn, Option.getD_some]
  hierarchy := rfl
  checks h := h

end latest

namespace Frame

variable {h : Hierarchy} {site : Nat → Nat → Prop} {f f' m e : Frame}

/-- Every fresh object of the first frame is that of the second one in the same place. -/
structure Inherits (f e : Frame) : Prop where
  locals : ∀ k i, slot f.locals k = .fresh i → slot e.locals k = .fresh i
  stack : ∀ k i, slot f.stack k = .fresh i → slot e.stack k = .fresh i

theorem inherits_refl (f : Frame) : f.Inherits f := ⟨fun _ _ h => h, fun _ _ h => h⟩

theorem Inherits.trans (h : m.Inherits f) (h' : f.Inherits e) : m.Inherits e :=
  ⟨fun k i hk => h'.locals k i (h.locals k i hk), fun k i hk => h'.stack k i (h.stack k i hk)⟩

theorem Merged.inherits (hm : Merged h f f' m) : m.Inherits f ∧ m.Inherits f' := by
  have hstack : ∀ k i, slot m.stack k = .fresh i →
      slot f.stack k = .fresh i ∧ slot f'.stack k = .fresh i := by
    intro k i hk
    rw [hm.stack, slot_zipWith_mergeTypes] at hk
    exact eq_fresh_of_merge hk
  exact ⟨⟨fun k i hk => (hm.fresh_local hk).1, fun k i hk => (hstack k i hk).1⟩,
    ⟨fun k i hk => (hm.fresh_local hk).2, fun k i hk => (hstack k i hk).2⟩⟩

/-- The values of a frame, its fresh objects as they are known in another one. -/
def tagged (known ts : List NamedType) : List NamedType :=
  ts.mapIdx fun k t =>
    match t with
    | .fresh _ => slot known k
    | t => t

/-- A frame, its fresh objects as they are known in another one. -/
def taggedBy (f e : Frame) : Frame := ⟨tagged e.locals f.locals, tagged e.stack f.stack⟩

theorem stands_tagged {known others ts : List NamedType} (hknown : StandAll site known others)
    (hts : ∀ k i, slot ts k = .fresh i → slot others k = .fresh i) :
    StandAll site (tagged known ts) ts := by
  rw [StandAll, List.forall₂_iff_get]
  refine ⟨by simp [tagged], fun k hk hk' => ?_⟩
  simp only [tagged, List.get_eq_getElem, List.getElem_mapIdx]
  have hslot := slot_eq_of_getElem? (List.getElem?_eq_getElem hk')
  cases ht : ts[k] with
  | fresh i =>
    have hother : others.getD k .top = .fresh i := hts k i (hslot.trans ht)
    have hstands := stands_getD hknown k
    rwa [hother] at hstands
  | _ => exact .settled trivial

theorem Inherits.stands (hf : f.Inherits e) {tags : Frame} (he : tags.Stands site e) :
    (f.taggedBy tags).Stands site f :=
  ⟨stands_tagged he.locals hf.locals, stands_tagged he.stack hf.stack⟩

theorem Stands.imp {site' : Nat → Nat → Prop} {s : Frame} (hs : s.Stands site f)
    (h : ∀ t i, f.Holds i → site t i → site' t i) : s.Stands site' f := by
  have hall : ∀ {as bs : List NamedType}, StandAll site as bs →
      (∀ t i, .fresh i ∈ bs → site t i → site' t i) → StandAll site' as bs := by
    intro as bs hab
    induction hab with
    | nil => exact fun _ => .nil
    | cons hd _ ih =>
      intro hsite
      refine .cons ?_ (ih fun t i hi => hsite t i (List.mem_cons_of_mem _ hi))
      cases hd with
      | settled ht => exact .settled ht
      | fresh hi => exact .fresh (hsite _ _ List.mem_cons_self hi)
  exact ⟨hall hs.locals fun t i hi => h t i (.inl hi), hall hs.stack fun t i hi => h t i (.inr hi)⟩

/-- A frame without fresh objects stands for itself. -/
theorem stands_self (hf : ∀ i, ¬ f.Holds i) : f.Stands site f := by
  have hsettled : ∀ t : NamedType, (∀ i, t ≠ .fresh i) → VType.IsSettled t := by
    intro t ht
    cases t with
    | fresh i => exact absurd rfl (ht i)
    | _ => trivial
  exact stands_settled
    (fun t ht => hsettled t fun i hi => hf i (.inl (hi ▸ ht)))
    (fun t ht => hsettled t fun i hi => hf i (.inr (hi ▸ ht)))

end Frame

/-- A trail came through these entries and is now in front of another one, and the frame recorded
there is this one, but for its fresh objects, which are known by the time of the execution that
made them. They are carried along by running the unrolled code. -/
inductive Retraced (g : FlowGraph) (w : Work) : List Nat → Nat → Frame → Prop
  | start {f : Frame} (hf : w.frame? 0 = some f) : Retraced g w [] 0 f
  | pass {trail : List Nat} {i : Nat} {s f : Frame} {n : Node} (hs : Retraced g w trail i s)
      (hn : g.program.nodes[i]? = some n) (hmark : n.isReal = false)
      (hf : w.frame? (i + 1) = some f) : Retraced g w (trail ++ [i]) (i + 1) (f.taggedBy s)
  | next {trail : List Nat} {i : Nat} {s s' f : Frame} {ins : Instr Label}
      (hs : Retraced g w trail i s) (hn : g.program.nodes[i]? = some (.instr ins))
      (hstep : (g.program.unrolled (trail ++ [i])).step trail.length ins s = .ok s')
      (hfall : ins.fallsThrough) (hf : w.frame? (i + 1) = some f) :
      Retraced g w (trail ++ [i]) (i + 1) (f.taggedBy s')
  | jump {trail : List Nat} {i j : Nat} {s s' f : Frame} {ins : Instr Label} {lab : Label}
      (hs : Retraced g w trail i s) (hn : g.program.nodes[i]? = some (.instr ins))
      (hstep : (g.program.unrolled (trail ++ [i])).step trail.length ins s = .ok s')
      (hlab : lab ∈ ins.targets) (hj : lab.position? g.positions = some j)
      (hf : w.frame? j = some f) : Retraced g w (trail ++ [i]) j (f.taggedBy s')
  | raise {trail : List Nat} {i : Nat} {s s' u f : Frame} {ins : Instr Label} {k : Handler}
      (hs : Retraced g w trail i s) (hn : g.program.nodes[i]? = some (.instr ins))
      (hstep : (g.program.unrolled (trail ++ [i])).step trail.length ins s = .ok s')
      (hk : k ∈ g.handlers) (hstart : k.start ≤ i) (hstop : i < k.stop) (hu : u = s ∨ u = s')
      (hf : w.frame? k.target = some f) :
      Retraced g w (trail ++ [i]) k.target (f.taggedBy ⟨u.locals, [k.catchType]⟩)

namespace Analysis

variable {m : MethodContext} {l : InstrList} {pool : Pool} {h : Hierarchy} {mode : Mode}
  {g : FlowGraph} {entry : Frame} {w : Work} {trail : List Nat} {i : Nat} {f s after : Frame}
  {ins : Instr Label}

theorem Begins.good_makes (hb : Begins m l pool h mode g entry) :
    Work.Good g fun _ f => f.Tidy g.program.MakesAt where
  edges := by
    intro i f n after es hf hn hedges e he
    have hafter : ∀ {ins}, n = .instr ins → after.Tidy g.program.MakesAt := by
      rintro ins rfl
      refine (Program.step_tidy (fun _ hk => hk) ?_ hf).ok (FlowGraph.edges_instr hedges).1
      rintro cls rfl
      exact ⟨cls, hn⟩
    cases (FlowGraph.mem_edges hedges).mp he with
    | pass => exact hf
    | raise hk _ _ hcase =>
      rcases hcase with rfl | rfl
      · exact hf.raised (hb.caught_settled _ hk)
      · exact (hafter rfl).raised (hb.caught_settled _ hk)
    | jump | next => exact hafter rfl
  merge hf hf' hm := hf.merged (Frame.merge_merged hf.closed hf'.closed hm)

/-- In the end every recorded frame has its objects from wherever control comes from. -/
theorem Begins.inherits (hb : Begins m l pool h mode g entry) (hw : Work.Ends g entry w) :
    Work.Followed Frame.Inherits w (0, entry) ∧
      ∀ {i f}, w.frame? i = some f → Work.Settles g Frame.Inherits w i f := by
  have hbounds : Work.Bounds g (fun _ f => f.Tidy g.program.MakesAt) Frame.Inherits :=
    ⟨Frame.inherits_refl, Frame.Inherits.trans, fun hf hf' hm =>
      (Frame.merge_merged hf.closed hf'.closed hm).inherits⟩
  obtain ⟨hfirst, -, hall⟩ := hw.settles hbounds hb.good_makes hb.positive
    (Frame.tidy_entry hb.start)
  exact ⟨hfirst, fun hf => (hall hf).2⟩

/-- No object in front of an entry was made there. -/
theorem Begins.ne_of_holds (hb : Begins m l pool h mode g entry) (hw : Work.Ends g entry w)
    (hf : w.frame? i = some f) {k : Nat} (hk : f.Holds k) : k ≠ i :=
  (((hb.tidy (.between hw.turns)).frames hf).holds k hk).2

/-- Where the objects in front of an instruction stand for their latest executions, so do those
behind it. The instruction itself has made none of the former. -/
theorem Begins.stands_step (hb : Begins m l pool h mode g entry) (hw : Work.Ends g entry w)
    (hf : w.frame? i = some f) (hs : s.Stands (Latest trail) f)
    (hstep : g.program.step i ins f = .ok after) :
    s.Stands (Latest (trail ++ [i])) f ∧
      ∃ s', (g.program.unrolled (trail ++ [i])).step trail.length ins s = .ok s' ∧
        s'.Stands (Latest (trail ++ [i])) after := by
  have hmore : s.Stands (Latest (trail ++ [i])) f :=
    hs.imp fun t k hk ht => ht.snoc (hb.ne_of_holds hw hf hk)
  exact ⟨hmore,
    Program.step_of_trusts g.program.trusts_unrolled (fun _ _ => latest_now) hmore hstep⟩

/-- Along every trail the objects of recorded frames stand for their latest executions. -/
theorem Begins.stands (hb : Begins m l pool h mode g entry) (hw : Work.Ends g entry w)
    (ht : Retraced g w trail i s) :
    ∃ f, w.frame? i = some f ∧ s.Stands (Latest trail) f := by
  obtain ⟨⟨first, hfirst, hinherits⟩, hsettled⟩ := hb.inherits hw
  have handed : ∀ {j : Nat} {u e f : Frame} {site : Nat → Nat → Prop},
      Work.Followed Frame.Inherits w (j, e) → w.frame? j = some f → u.Stands site e →
        ∃ f', w.frame? j = some f' ∧ (f.taggedBy u).Stands site f' := by
    rintro j u e f site ⟨f', hf', hinherits⟩ hf hu
    obtain rfl := Option.some.inj (hf'.symm.trans hf)
    exact ⟨f', hf', hinherits.stands hu⟩
  induction ht with
  | @start f hf =>
    obtain rfl := Option.some.inj (hfirst.symm.trans hf)
    refine ⟨first, hf, Frame.stands_self fun k hk => ?_⟩
    have hnone := (Frame.tidy_entry (K := fun _ => False) hb.start).holds k
    rcases hk with hk | hk
    · obtain ⟨x, hx⟩ := Frame.fresh_mem_iff.mp hk
      exact hnone (.inl (Frame.fresh_mem_iff.mpr ⟨x, hinherits.locals x k hx⟩))
    · obtain ⟨x, hx⟩ := Frame.fresh_mem_iff.mp hk
      exact hnone (.inr (Frame.fresh_mem_iff.mpr ⟨x, hinherits.stack x k hx⟩))
  | @pass trail i s f n _ hn hmark hf ih =>
    obtain ⟨f0, hf0, hs⟩ := ih
    refine handed ((hsettled hf0).passes hn hmark) hf (hs.imp fun t k hk ht => ?_)
    exact ht.snoc (hb.ne_of_holds hw hf0 hk)
  | @next trail i s s' f ins _ hn hstep hfall hf ih =>
    obtain ⟨f0, hf0, hs⟩ := ih
    obtain ⟨after, hands⟩ := (hsettled hf0).handsOn hn
    obtain ⟨-, s1, hs1, hstands⟩ := hb.stands_step hw hf0 hs hands.step
    obtain rfl := Except.ok.inj (hstep.symm.trans hs1)
    exact handed (hands.next hfall) hf hstands
  | @jump trail i j s s' f ins lab _ hn hstep hlab hj hf ih =>
    obtain ⟨f0, hf0, hs⟩ := ih
    obtain ⟨after, hands⟩ := (hsettled hf0).handsOn hn
    obtain ⟨-, s1, hs1, hstands⟩ := hb.stands_step hw hf0 hs hands.step
    obtain rfl := Except.ok.inj (hstep.symm.trans hs1)
    obtain ⟨t, ht, hfollowed⟩ := hands.targets lab hlab
    obtain rfl := Option.some.inj (hj.symm.trans ht)
    exact handed hfollowed hf hstands
  | @raise trail i s s' u f ins k _ hn hstep hk hstart hstop hu hf ih =>
    obtain ⟨f0, hf0, hs⟩ := ih
    obtain ⟨after, hands⟩ := (hsettled hf0).handsOn hn
    obtain ⟨hmore, s1, hs1, hstands⟩ := hb.stands_step hw hf0 hs hands.step
    obtain rfl := Except.ok.inj (hstep.symm.trans hs1)
    have hcaught := hb.caught_settled _ hk
    rcases hu with rfl | rfl
    · refine handed (hands.raised k hk hstart hstop f0 (.inl rfl)) hf ⟨hmore.locals, ?_⟩
      exact .cons (.settled hcaught) .nil
    · refine handed (hands.raised k hk hstart hstop after (.inr rfl)) hf ⟨hstands.locals, ?_⟩
      exact .cons (.settled hcaught) .nil

end Analysis
end ClassWeave
