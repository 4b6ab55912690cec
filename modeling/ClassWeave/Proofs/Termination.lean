import Mathlib
import ClassWeave.Proofs.Analyses

/-!
# The search for frames comes to an end

Every look at an entry takes it off those that wait, and puts entries back only if their frames
changed. A frame that changes moves up: to fewer entries without a frame, then to fewer nulls, then
to classes with fewer classes above them. `Work.cost` counts these three in this order, and the
search ends since it cannot go down for ever.

All of this rests on the table of super classes. Where two classes are above each other, a frame can
change without moving up, and the search goes round.
-/

namespace ClassWeave

/-! ## How far a class is from the root -/

namespace Hierarchy

variable {h : Hierarchy}

/-- How many classes a class that is no array has above it, itself included. -/
def height (h : Hierarchy) (cls : String) : Nat :=
  if cls = rootClass then 0
  else
    match h with
    | unknown | other _ => 1
    | known table => (table.ancestors cls).toFinset.card

/-- How far a class is from the root. An array is farther than its elements are; a name that does
not spell its elements the usual way becomes another one where it meets others of its kind. -/
def distance (h : Hierarchy) : List Char → Nat
  | '[' :: cs =>
    match _hx : elementClass? cs with
    | some x =>
      distance h x + if arrayOf (String.ofList x) = String.ofList ('[' :: cs) then 1 else 2
    | none => 1
  | cs => h.height (String.ofList cs)
termination_by cs => cs.length
decreasing_by
  have := length_elementClass? ‹elementClass? cs = some x›
  simp only [List.length_cons]
  omega

theorem distance_plain {cs : List Char} (hcs : IsPlain cs) :
    h.distance cs = h.height (String.ofList cs) := by
  unfold distance
  split
  · exact absurd rfl (hcs _)
  · rfl

theorem distance_array {cs x : List Char} (hx : elementClass? cs = some x) :
    h.distance ('[' :: cs) =
      h.distance x + if arrayOf (String.ofList x) = String.ofList ('[' :: cs) then 1 else 2 := by
  rw [distance]
  split
  · rename_i y hy
    obtain rfl := Option.some.inj (hx.symm.trans hy)
    rfl
  · rename_i hnone
    rw [hx] at hnone
    cases hnone

theorem distance_array_pos (cs : List Char) : 0 < h.distance ('[' :: cs) := by
  rw [distance]
  split
  · split <;> omega
  · exact Nat.one_pos

theorem height_root : h.height rootClass = 0 := if_pos rfl

theorem distance_root : h.distance rootClass.toList = 0 := by
  rw [distance_plain rootClass_isPlain, String.ofList_toList, height_root]

/-- Every other class is below the root. -/
theorem height_pos {cls : String} (hcls : cls ≠ rootClass) : 0 < h.height cls := by
  unfold height
  rw [if_neg hcls]
  cases h with
  | unknown | other => exact Nat.one_pos
  | known table =>
    refine Finset.card_pos.mpr ⟨cls, ?_⟩
    rw [List.mem_toFinset, SuperTable.ancestors]
    cases table.size with
    | zero => exact List.mem_singleton.mpr rfl
    | succ n =>
      unfold SuperTable.chain
      split
      · exact List.mem_singleton.mpr rfl
      · split <;> exact List.mem_cons_self

theorem distance_pos {cs : List Char} (hcs : String.ofList cs ≠ rootClass) : 0 < h.distance cs := by
  by_cases hp : IsPlain cs
  · rw [distance_plain hp]
    exact height_pos hcs
  · simp only [IsPlain, not_forall, not_not] at hp
    obtain ⟨rest, rfl⟩ := hp
    exact distance_array_pos rest

/-- Of two classes on one chain the upper one has fewer classes above it. -/
theorem height_commonSuper_lt (hh : h.Sound) {a b : String} (hne : h.commonSuper a b ≠ a) :
    h.height (h.commonSuper a b) < h.height a := by
  by_cases hroot : h.commonSuper a b = rootClass
  · rw [hroot] at hne ⊢
    have hzero : h.height rootClass = 0 := if_pos rfl
    rw [hzero]
    exact height_pos (Ne.symm hne)
  · cases h with
    | unknown => exact absurd rfl hroot
    | other => exact hh.elim
    | known t =>
      have ht : t.Sound := hh
      rcases SuperTable.commonSuper_cases ht.forest a b with ⟨hup, -, -⟩ | ⟨hm, -⟩
      · have ha : a ≠ rootClass := by
          rintro rfl
          exact hne (ht.forest.eq_of_root_extends hup)
        unfold height
        rw [if_neg hroot, if_neg ha]
        refine Finset.card_lt_card ((Finset.ssubset_iff_of_subset ?_).mpr ⟨a, ?_, ?_⟩)
        · intro d hd
          rw [List.mem_toFinset, SuperTable.mem_ancestors ht.forest] at hd ⊢
          exact Relation.ReflTransGen.trans hup hd
        · rw [List.mem_toFinset, SuperTable.mem_ancestors ht.forest]
          exact Relation.ReflTransGen.refl
        · rw [List.mem_toFinset, SuperTable.mem_ancestors ht.forest]
          exact fun hback => hne (ht.forest.extends_antisymm hback hup)
      · exact absurd hm hroot

/-- **A class that gives way to another one moves closer to the root.** -/
theorem distance_mergeChars_lt (hh : h.Sound) (a b : List Char)
    (hne : h.mergeChars a b ≠ String.ofList a) :
    h.distance (h.mergeChars a b).toList < h.distance a := by
  by_cases hp : IsPlain a ∧ IsPlain b
  · obtain ⟨ha, hb⟩ := hp
    have hplain : IsPlain (h.mergeChars a b).toList := by
      rw [mergeChars_plain ha hb, isPlain_iff]
      refine hh.lawful.plain _ _ ?_ ?_ <;> rw [← isPlain_iff, String.toList_ofList] <;> assumption
    rw [distance_plain hplain, distance_plain ha, String.ofList_toList]
    rw [mergeChars_plain ha hb] at hne ⊢
    exact height_commonSuper_lt hh hne
  · by_cases hel : ∃ as bs x y, a = '[' :: as ∧ b = '[' :: bs ∧ elementClass? as = some x ∧
        elementClass? bs = some y
    · obtain ⟨as, bs, x, y, rfl, rfl, hx, hy⟩ := hel
      have hshort := length_elementClass? hx
      rw [mergeChars_array hx hy] at hne ⊢
      obtain ⟨cs, hcs, hcx⟩ := toList_arrayOf (h.mergeChars x y)
      have harr : arrayOf (String.ofList (h.mergeChars x y).toList) = String.ofList ('[' :: cs) := by
        rw [String.ofList_toList, ← hcs, String.ofList_toList]
      rw [hcs, distance_array hcx, if_pos harr, distance_array hx]
      by_cases hsame : h.mergeChars x y = String.ofList x
      · -- the elements stay, so the name was not spelled the usual way
        rw [hsame] at hne
        rw [hsame, String.toList_ofList, if_neg hne]
        omega
      · have hlt := distance_mergeChars_lt hh x y hsame
        split <;> omega
    · rw [mergeChars_root hp fun as bs x y ha hb hx hy => hel ⟨as, bs, x, y, ha, hb, hx, hy⟩] at hne ⊢
      rw [distance_root]
      exact distance_pos (Ne.symm hne)
termination_by a.length
decreasing_by
  subst_vars
  simp only [List.length_cons]
  omega

end Hierarchy

/-! ## What a frame can still give up -/

/-- Nulls and distances from the root, in this order. -/
abbrev Cost := ℕ ×ₗ ℕ

namespace VType

variable {h : Hierarchy} {a b : NamedType}

/-- What a type can still give up where it meets others. -/
def cost (h : Hierarchy) : NamedType → Cost
  | .top => 0
  | .null => toLex (1, 0)
  | .object c => toLex (0, 1 + h.distance c.toList)
  | .int | .float | .long | .double | .freshThis | .fresh _ => toLex (0, 1)

theorem cost_pos (ha : a ≠ .top) : 0 < cost h a := by
  have hpos : ∀ n : ℕ, (0 : Cost) < toLex (0, n + 1) := fun n =>
    Prod.Lex.toLex_lt_toLex.mpr (.inr ⟨rfl, n.succ_pos⟩)
  cases a with
  | top => exact absurd rfl ha
  | null => exact Prod.Lex.toLex_lt_toLex.mpr (.inl Nat.one_pos)
  | object c =>
    rw [cost, Nat.add_comm]
    exact hpos _
  | _ => exact hpos 0

/-- A type that gives way to another one gives something up. -/
theorem cost_mergeTypes_lt (hh : h.Sound) (hne : h.mergeTypes a b ≠ a) :
    cost h (h.mergeTypes a b) < cost h a := by
  by_cases hab : a = b
  · exact absurd (hab ▸ mergeTypes_self a) hne
  · unfold Hierarchy.mergeTypes at hne ⊢
    rw [if_neg hab] at hne ⊢
    split at hne
    · -- a null gives way to a class
      exact Prod.Lex.toLex_lt_toLex.mpr (.inl Nat.one_pos)
    · exact absurd rfl hne
    · rename_i c d
      have hlt := Hierarchy.distance_mergeChars_lt hh c.toList d.toList fun heq =>
        hne (congrArg VType.object (heq.trans String.ofList_toList))
      exact Prod.Lex.toLex_lt_toLex.mpr (.inr ⟨rfl, Nat.add_lt_add_left hlt 1⟩)
    · exact cost_pos (Ne.symm hne)

end VType

namespace Frame

variable {h : Hierarchy} {mode : Mode} {f incoming merged : Frame}

/-- What some types can still give up together. -/
def costs (h : Hierarchy) (types : List NamedType) : Cost := (types.map (VType.cost h)).sum

theorem costs_cons (t : NamedType) (types : List NamedType) :
    costs h (t :: types) = VType.cost h t + costs h types := by
  rw [costs, List.map_cons, List.sum_cons, costs]

theorem costs_append (types types' : List NamedType) :
    costs h (types ++ types') = costs h types + costs h types' := by
  rw [costs, List.map_append, List.sum_append, costs, costs]

theorem costs_tops (n : ℕ) : costs h (List.replicate n .top) = 0 := by
  induction n with
  | zero => rfl
  | succ n ih =>
    rw [List.replicate_succ, costs_cons, ih]
    rfl

/-- Types that meet others give something up, or stay as they are as far as they can be used. -/
theorem costs_zipWith (hh : h.Sound) (a b : List NamedType) :
    costs h (List.zipWith h.mergeTypes a b) < costs h a ∨
      ∃ n, a = List.zipWith h.mergeTypes a b ++ List.replicate n .top := by
  induction a generalizing b with
  | nil => exact .inr ⟨0, rfl⟩
  | cons t a ih =>
    cases b with
    | nil =>
      rw [List.zipWith_nil_right]
      rcases ih [] with hlt | ⟨n, hn⟩
      · left
        rw [List.zipWith_nil_right] at hlt
        rw [costs_cons]
        exact lt_of_lt_of_le hlt (le_add_of_nonneg_left (by
          by_cases ht : t = .top
          · rw [ht]
            exact le_refl _
          · exact le_of_lt (VType.cost_pos ht)))
      · rw [List.zipWith_nil_right, List.nil_append] at hn
        by_cases ht : t = .top
        · exact .inr ⟨n + 1, by rw [ht, hn]; rfl⟩
        · left
          rw [costs_cons, hn, costs_tops, add_zero]
          exact VType.cost_pos ht
    | cons u b =>
      rw [List.zipWith_cons_cons, costs_cons, costs_cons]
      by_cases ht : h.mergeTypes t u = t
      · rw [ht]
        rcases ih b with hlt | ⟨n, hn⟩
        · exact .inl (add_lt_add_right hlt _)
        · exact .inr ⟨n, congrArg (t :: ·) hn⟩
      · left
        have hlt := VType.cost_mergeTypes_lt hh ht
        refine add_lt_add_of_lt_of_le hlt ?_
        rcases ih b with hlt' | ⟨n, hn⟩
        · exact le_of_lt hlt'
        · conv => rhs; rw [hn]
          rw [costs_append, costs_tops, add_zero]

theorem costs_trim (locals : List NamedType) : costs h (trim locals) = costs h locals := by
  obtain ⟨n, hn⟩ := trim_eq locals
  conv => rhs; rw [hn]
  rw [costs_append, costs_tops, add_zero]

/-- Types of which some cannot be used any more give something up, if there are any. -/
theorem costs_dropped {types types' : List NamedType}
    (hd : List.Forall₂ (fun t' t => t' = t ∨ t' = .top) types' types) :
    types' = types ∨ costs h types' < costs h types := by
  induction hd with
  | nil => exact .inl rfl
  | @cons t' t types' types ht _ ih =>
    rw [costs_cons, costs_cons]
    by_cases heq : t' = t
    · rw [heq]
      rcases ih with rfl | hlt
      · exact .inl rfl
      · exact .inr (add_lt_add_right hlt _)
    · right
      obtain rfl := ht.resolve_left heq
      refine add_lt_add_of_lt_of_le (VType.cost_pos (Ne.symm heq)) ?_
      rcases ih with rfl | hlt
      · exact le_refl _
      · exact le_of_lt hlt

theorem repairWide_dropped (locals : List NamedType) :
    List.Forall₂ (fun t' t => t' = t ∨ t' = .top) (repairWide locals) locals := by
  have hlen : (repairWide locals).length = locals.length := by
    rw [repairWide, List.length_zipWith, List.length_append, List.length_map, List.length_tail,
      List.length_singleton]
    omega
  refine List.forall₂_iff_get.mpr ⟨hlen, fun i hi hi' => ?_⟩
  simp only [repairWide, List.get_eq_getElem, List.getElem_zipWith]
  split
  · exact .inr rfl
  · exact .inl rfl

/-- A wide value at the very end has lost its second half. -/
theorem getLast?_of_repaired {locals : List NamedType} (hr : repairWide locals = locals)
    {t : NamedType} (ht : locals.getLast? = some t) : ¬ t.isWide := by
  intro hw
  rw [List.getLast?_eq_getElem?] at ht
  have hpos : locals.length - 1 < locals.length := (List.getElem?_eq_some_iff.mp ht).choose
  have hget : (repairWide locals)[locals.length - 1]? = some .top := by
    rw [repairWide, List.getElem?_zipWith, ht, List.getElem?_append_right (by simp)]
    simp [hw]
  rw [hr, ht, Option.some.injEq] at hget
  rw [hget] at hw
  cases hw

theorem trim_append_tops {locals : List NamedType}
    (hlast : ∀ t, locals.getLast? = some t → ¬ t.isWide) (n : ℕ) :
    trim (locals ++ List.replicate n .top) = trim locals := by
  rw [trim, List.reverse_append, List.reverse_replicate, trim]
  congr 1
  have hhead : ∀ t, locals.reverse.head? = some t → ¬ t.isWide := by
    intro t ht
    rw [List.head?_reverse] at ht
    exact hlast t ht
  induction n with
  | zero => rfl
  | succ n ih =>
    rw [List.replicate_succ, List.cons_append, ← ih]
    -- the slot behind the one that is left out is no wide value
    cases n with
    | zero =>
      cases hrev : locals.reverse with
      | nil => rfl
      | cons t rest =>
        rw [hrev] at hhead
        simp only [List.replicate_zero, List.nil_append, trimReversed]
        rw [if_neg (hhead t rfl)]
    | succ n =>
      rw [List.replicate_succ, List.cons_append, trimReversed]
      exact if_neg (by simp [VType.isWide])

/-- Locals that meet others give something up, or nothing changes. -/
theorem costs_mergeLocals (hh : h.Sound) (a b : List NamedType) :
    mergeLocals h a b = trim a ∨ costs h (mergeLocals h a b) < costs h a := by
  rw [mergeLocals, costs_trim]
  have hrepair := costs_dropped (h := h) (repairWide_dropped (List.zipWith h.mergeTypes a b))
  rcases costs_zipWith hh a b with hlt | ⟨n, hn⟩
  · right
    rcases hrepair with heq | hlt'
    · rw [heq]
      exact hlt
    · exact lt_trans hlt' hlt
  · rcases hrepair with heq | hlt
    · left
      rw [heq]
      conv => rhs; rw [hn]
      exact (trim_append_tops (fun t => getLast?_of_repaired heq) n).symm
    · right
      conv => rhs; rw [hn]
      rw [costs_append, costs_tops, add_zero]
      exact hlt

/-- Stacks that meet others give something up, or nothing changes. -/
theorem costs_mergeStacks (hh : h.Sound) {a b s : List NamedType} (hlen : a.length = b.length)
    (hs : mergeStacks h mode a b = .ok s) : s = a ∨ costs h s < costs h a := by
  rw [mergeStacks_eq_zipWith hs]
  rcases costs_zipWith hh a b with hlt | ⟨n, hn⟩
  · exact .inr hlt
  · left
    have hzero := congrArg List.length hn
    rw [List.length_append, List.length_zipWith, List.length_replicate] at hzero
    obtain rfl : n = 0 := by omega
    conv => rhs; rw [hn]
    rw [List.replicate_zero, List.append_nil]

/-- What a frame can still give up. -/
def cost (h : Hierarchy) (f : Frame) : Cost := costs h f.locals + costs h f.stack

/-- **A frame that changes where it meets another one gives something up.** -/
theorem merge_cost_lt (hh : h.Sound) (hm : f.merge h mode incoming = .ok (some merged)) :
    cost h merged < cost h f := by
  obtain ⟨hlen, stack, hstack, hr⟩ := merge_eq_ok hm
  have hlocals := costs_mergeLocals hh f.locals incoming.locals
  have hstacks := costs_mergeStacks hh hlen hstack
  split at hr
  · cases hr
  · rename_i hchanged
    rw [Option.some.injEq] at hr
    subst hr
    rcases hlocals with hsame | hlt
    · rcases hstacks with hsame' | hlt'
      · exact absurd ⟨hsame', hsame⟩ hchanged
      · rw [cost, cost, hsame, costs_trim]
        exact add_lt_add_right hlt' _
    · refine add_lt_add_of_lt_of_le hlt ?_
      rcases hstacks with hsame' | hlt'
      · exact le_of_eq (congrArg (costs h) hsame')
      · exact le_of_lt hlt'

end Frame

/-! ## What a search can still give up -/

namespace Work

variable {g : FlowGraph} {w w' : Work}

/-- What an entry can still give up: before all else, to be without a frame. -/
def cellCost (h : Hierarchy) : Option Frame → ℕ ×ₗ Cost
  | none => toLex (1, 0)
  | some f => toLex (0, f.cost h)

/-- What all entries can still give up together. -/
def cost (h : Hierarchy) (w : Work) : ℕ ×ₗ Cost :=
  ∑ i ∈ Finset.range w.frames.size, cellCost h (w.frame? i)

theorem cost_update_lt {h : Hierarchy} {i : Nat} {f : Frame} (hi : i < w.frames.size)
    (hlt : cellCost h (some f) < cellCost h (w.frame? i)) :
    cost h (w.update i f) < cost h w := by
  rw [cost, cost, (update_sizes i f).1]
  refine Finset.sum_lt_sum (fun j _ => ?_) ⟨i, Finset.mem_range.mpr hi, ?_⟩
  · rw [frame?_update hi]
    by_cases hj : j = i
    · rw [if_pos hj, hj]
      exact le_of_lt hlt
    · rw [if_neg hj]
  · rw [frame?_update hi, if_pos rfl]
    exact hlt

/-- Following an edge changes nothing, or something is given up. -/
theorem follow_cost (hh : g.program.hierarchy.Sound) {source : Nat} {e : Nat × Frame}
    (hok : follow g source w e = .ok w') :
    w' = w ∨ cost g.program.hierarchy w' < cost g.program.hierarchy w := by
  unfold follow at hok
  split at hok
  · cases hok
  · -- the entry gets its first frame
    rename_i hnone
    rw [Except.ok.injEq] at hok
    subst hok
    obtain ⟨hlt, _⟩ := Array.getElem?_eq_some_iff.mp hnone
    refine .inr (cost_update_lt hlt ?_)
    rw [frame?, hnone]
    exact Prod.Lex.toLex_lt_toLex.mpr (.inl Nat.one_pos)
  · rename_i f hsome
    obtain ⟨hlt, _⟩ := Array.getElem?_eq_some_iff.mp hsome
    split at hok
    · cases hok
    · rw [Except.ok.injEq] at hok
      exact .inl hok.symm
    · rename_i merged hm
      rw [Except.ok.injEq] at hok
      subst hok
      refine .inr (cost_update_lt hlt ?_)
      rw [frame?_eq_some.mpr hsome]
      exact Prod.Lex.toLex_lt_toLex.mpr (.inr ⟨rfl, Frame.merge_cost_lt hh hm⟩)

theorem follow_all_cost (hh : g.program.hierarchy.Sound) {source : Nat} {es : List (Nat × Frame)}
    (hok : es.foldlM (follow g source) w = .ok w') :
    w' = w ∨ cost g.program.hierarchy w' < cost g.program.hierarchy w := by
  induction es generalizing w with
  | nil => exact .inl (pure_eq_ok.mp hok).symm
  | cons e es ih =>
    rw [List.foldlM_cons] at hok
    obtain ⟨w1, h1, h2⟩ := bind_eq_ok.mp hok
    rcases follow_cost hh h1 with rfl | hlt
    · exact ih h2
    · rcases ih h2 with rfl | hlt'
      · exact .inr hlt
      · exact .inr (lt_trans hlt' hlt)

/-- A look puts no entry back, or something is given up. -/
theorem visit_cost (hh : g.program.hierarchy.Sound) {i : Nat} (hok : visit g w i = .ok w') :
    (w'.pending = w.pending ∧ cost g.program.hierarchy w' = cost g.program.hierarchy w) ∨
      cost g.program.hierarchy w' < cost g.program.hierarchy w := by
  unfold visit at hok
  simp only at hok
  split at hok
  · obtain ⟨⟨after, es⟩, -, hfold⟩ := bind_eq_ok.mp hok
    rcases follow_all_cost hh hfold with rfl | hlt
    · exact .inl ⟨rfl, rfl⟩
    · exact .inr hlt
  · rw [Except.ok.injEq] at hok
    subst hok
    exact .inl ⟨rfl, rfl⟩

/-- One look leads from the first state to the second. -/
def Look (g : FlowGraph) (w w' : Work) : Prop :=
  ∃ i rest, w.pending = i :: rest ∧ visit g { w with pending := rest } i = .ok w'

/-- What is left to do: what can be given up, then the entries that wait. -/
def effort (h : Hierarchy) (w : Work) : (ℕ ×ₗ Cost) ×ₗ ℕ := toLex (cost h w, w.pending.length)

theorem Turn.effort_lt (hh : g.program.hierarchy.Sound) (ht : Turn g w w') :
    effort g.program.hierarchy w' < effort g.program.hierarchy w := by
  obtain ⟨i, hi, hv⟩ := ht
  rcases visit_cost hh hv with ⟨hpending, hcost⟩ | hlt
  · refine Prod.Lex.toLex_lt_toLex.mpr (.inr ⟨hcost, ?_⟩)
    have hpos := List.length_pos_of_mem hi
    rw [hpending, List.length_erase_of_mem hi]
    omega
  · exact Prod.Lex.toLex_lt_toLex.mpr (.inl hlt)

/-- Looks come to an end, whatever their order. -/
theorem turns_end (hh : g.program.hierarchy.Sound) : WellFounded fun w' w => Turn g w w' :=
  Subrelation.wf (Turn.effort_lt hh)
    (InvImage.wf (effort g.program.hierarchy) wellFounded_lt)

theorem Look.turn (hl : Look g w w') : Turn g w w' := by
  obtain ⟨i, rest, hp, hv⟩ := hl
  refine ⟨i, by rw [hp]; exact List.mem_cons_self, ?_⟩
  rwa [hp, List.erase_cons_head]

/-- Every sequence of looks comes to an end. -/
theorem looks_end (hh : g.program.hierarchy.Sound) : WellFounded fun w' w => Look g w w' :=
  Subrelation.wf Look.turn (turns_end hh)

theorem run_of_look (hl : Look g w w') : run g w = run g w' := by
  obtain ⟨i, rest, hp, hv⟩ := hl
  exact run_of_visit hp hv

/-- **The search has a result from every state.** -/
theorem run_ends (hh : g.program.hierarchy.Sound) (w : Work) : ∃ result, run g w = some result := by
  induction w using (looks_end hh).induction with
  | _ w ih =>
    cases hp : w.pending with
    | nil => exact ⟨.ok w, run_of_pending_nil hp⟩
    | cons i rest =>
      cases hv : visit g { w with pending := rest } i with
      | error e =>
        refine ⟨.error e, ?_⟩
        rw [run, hp]
        simp only [hv]
      | ok w' =>
        have hl : Look g w w' := ⟨i, rest, hp, hv⟩
        rw [run_of_look hl]
        exact ih w' hl

/-- A search that can always go on with another look has no result. -/
theorem run_eq_none {goesOn : Work → Prop}
    (hlook : ∀ w, goesOn w → ∃ w', Look g w w' ∧ goesOn w') (hw : goesOn w) : run g w = none := by
  have hall : ∀ (w : Work) (r : ClassResult Work), run g w = some r → ¬ goesOn w := by
    refine run.partial_correctness g _ ?_
    intro run ih w r hrun hw
    obtain ⟨w', ⟨i, rest, hp, hv⟩, hw'⟩ := hlook w hw
    rw [hp] at hrun
    simp only [hv] at hrun
    exact ih w' r hrun hw'
  cases hr : run g w with
  | none => rfl
  | some r => exact absurd hw (hall w r hr)

end Work

namespace Analysis

variable {m : MethodContext} {l : InstrList} {pool : Pool} {h : Hierarchy} {mode : Mode}

/-- **The analysis comes to an end**, whatever the code, if the hierarchy has no cycles, nothing
above the root and no arrays: no matter how the search for frames starts, it cannot go on
for ever. -/
theorem analyze_ends (hh : h.Sound) {t : MethodType} {positions : Array (Option Nat)}
    {handlers : List Handler} {entry : Frame} (htype : MethodType.parse? m.descriptor = some t)
    (hpositions : l.labelPositions = positions)
    (hhandlers : l.blocks.mapM (FlowGraph.handler positions) = .ok handlers)
    (hentry : Frame.entry m = .ok entry) (hne : l.nodes.isEmpty = false) :
    let g : FlowGraph := ⟨⟨m, l.nodes, pool, h, mode, t.result⟩, positions, handlers⟩
    (WellFounded fun w' w => Work.Look g w w') ∧
      ∃ result, Work.run g (.start l.nodes.size entry) = some result ∧
        analyze m l pool h mode = result.map fun w => ⟨w.frames, w.maxStack, w.maxLocals⟩ := by
  intro g
  refine ⟨Work.looks_end hh, ?_⟩
  obtain ⟨result, hrun⟩ := Work.run_ends (g := g) hh (.start l.nodes.size entry)
  refine ⟨result, hrun, ?_⟩
  rw [analyze_eq htype hpositions hhandlers hentry hne, hrun]

/-! ## Two values that swap their places -/

/-- Two values go on the stack and swap their places for ever. -/
def swapping : InstrList where
  nodes := #[.instr (.var Opcode.aload 0), .instr (.var Opcode.aload 1), .label ⟨0⟩,
    .instr (.plain 0x5f), .instr (.jump Opcode.goto ⟨0⟩)]
  placed := #[true]
  blocks := []

/-- A method that is given two values. -/
def givenTwo : MethodContext := ⟨"x/A", "run", "(Lx/A;Lx/B;)V", true⟩

/-- The second class is above the first one. -/
def oneAbove : SuperTable := (∅ : SuperTable).insert "x/A" "x/B"

theorem parent_oneAbove {a b : String} : oneAbove.Parent a b ↔ a = "x/A" ∧ b = "x/B" := by
  simp only [SuperTable.Parent, oneAbove, Std.HashMap.getElem?_insert, beq_iff_eq]
  by_cases ha : "x/A" = a
  · simp [← ha, eq_comm]
  · simp [ha, Ne.symm ha]

theorem oneAbove_sound : (Hierarchy.known oneAbove).Sound where
  acyclic := by
    intro a ha
    -- the only class that is above another one is above nothing
    obtain ⟨b, hb, -⟩ := Relation.TransGen.head'_iff.mp ha
    obtain ⟨c, -, hc⟩ := Relation.TransGen.tail'_iff.mp ha
    rw [parent_oneAbove] at hb hc
    exact absurd (hb.1.symm.trans hc.2) (by decide)
  root := by
    simp [oneAbove, rootClass]
  plain := by
    intro a b hab
    obtain ⟨rfl, rfl⟩ := parent_oneAbove.mp hab
    decide +kernel

theorem swapping_ends :
    let g : FlowGraph := ⟨⟨givenTwo, swapping.nodes, .empty, .known oneAbove, .strict, none⟩,
      #[some 2], []⟩
    (WellFounded fun w' w => Work.Look g w w') ∧
      ∃ result, Work.run g (.start 5 ⟨[.object "x/A", .object "x/B"], []⟩) = some result ∧
        analyze givenTwo swapping .empty (.known oneAbove) .strict =
          result.map fun w => ⟨w.frames, w.maxStack, w.maxLocals⟩ :=
  analyze_ends (t := ⟨[.object "x/A", .object "x/B"], none⟩) oneAbove_sound (by decide +kernel) rfl
    rfl (by decide +kernel) rfl

/-! ## Classes that are above each other -/

/-- The graph of the two values that swap their places. -/
def swappingGraph (pool : Pool) (h : Hierarchy) (mode : Mode) : FlowGraph :=
  ⟨⟨givenTwo, swapping.nodes, pool, h, mode, none⟩, #[some 2], []⟩

/-- The two values are on the stack. -/
def bothPushed (top below : String) : Frame :=
  ⟨[.object "x/A", .object "x/B"], [.object top, .object below]⟩

/-- Each of two classes gives way to the other one. -/
structure Opposed (h : Hierarchy) (a b : String) : Prop where
  left : h.mergeTypes (.object a) (.object b) = .object b
  right : h.mergeTypes (.object b) (.object a) = .object a
  ne : a ≠ b

theorem Opposed.symm {a b : String} (ho : Opposed h a b) : Opposed h b a :=
  ⟨ho.right, ho.left, ho.ne.symm⟩

theorem mergeTypes_of_commonSuper {a b c : String} (hne : a ≠ b) (ha : ¬ a.startsWith "[")
    (hb : ¬ b.startsWith "[") (hc : h.commonSuper a b = c) :
    h.mergeTypes (.object a) (.object b) = .object c := by
  rw [Hierarchy.mergeTypes, if_neg (by simpa using hne)]
  show VType.object (h.mergeClasses a b) = _
  rw [Hierarchy.mergeClasses, Hierarchy.mergeChars_plain (Hierarchy.isPlain_iff.mpr ha)
    (Hierarchy.isPlain_iff.mpr hb), String.ofList_toList, String.ofList_toList, hc]

/-- The frame of an entry that is about to be given this one: there is none yet, or the two values
stand the other way around. -/
def Behind (a b : String) (o : Option Frame) : Prop := o = none ∨ o = some (bothPushed b a)

theorem merge_opposed {a b : String} (ho : Opposed h a b) :
    (bothPushed b a).merge h mode (bothPushed a b) = .ok (some (bothPushed a b)) := by
  have hself : ∀ t : NamedType, h.mergeTypes t t = t := VType.mergeTypes_self
  have hlocals : Frame.mergeLocals h (bothPushed b a).locals (bothPushed a b).locals =
      (bothPushed a b).locals := by
    simp [Frame.mergeLocals, bothPushed, hself, Frame.repairWide, VType.isWide, Frame.trim,
      Frame.trimReversed]
  have hstack : Frame.mergeStacks h mode (bothPushed b a).stack (bothPushed a b).stack =
      .ok (bothPushed a b).stack := by
    rw [Frame.mergeStacks_eq_ok]
    refine .cons ?_ (.cons ?_ .nil)
    · simp [Hierarchy.mergeEntries, ho.right]
    · simp [Hierarchy.mergeEntries, ho.left]
  have hne : (bothPushed a b).stack ≠ (bothPushed b a).stack := by
    intro heq
    simp only [bothPushed, List.cons.injEq, VType.object.injEq] at heq
    exact ho.ne heq.1
  rw [Frame.merge_eq]
  rw [hlocals, if_neg (by simp [bothPushed])]
  refine bind_eq_ok.mpr ⟨_, hstack, ?_⟩
  simp only [hne, false_and, if_false]
  rfl

/-- One look at the only entry that waits, where that one hands the two values on. -/
theorem look_behind {pool : Pool} {a b : String} (ho : Opposed h a b) {w : Work} {i j : Nat}
    {n : Node} {f : Frame} {o : Option Frame} (hp : w.pending = [i])
    (hf : w.frames[i]? = some (some f)) (hn : swapping.nodes[i]? = some n)
    (hedges : (swappingGraph pool h mode).edges i n f =
      .ok (bothPushed a b, [(j, bothPushed a b)]))
    (hj : w.frames[j]? = some o) (hbehind : Behind a b o) :
    Work.Look (swappingGraph pool h mode) w
      ((({ w with pending := [], queued := w.queued.setIfInBounds i false } : Work).cover f).cover
        (bothPushed a b) |>.update j (bothPushed a b)) := by
  refine ⟨i, [], hp, ?_⟩
  have hfollow : ∀ w' : Work, w'.frames = w.frames →
      Work.follow (swappingGraph pool h mode) i w' (j, bothPushed a b) =
        .ok (w'.update j (bothPushed a b)) := by
    intro w' hw'
    unfold Work.follow
    rw [hw', hj]
    rcases hbehind with rfl | rfl
    · rfl
    · simp only [swappingGraph, merge_opposed ho]
  unfold Work.visit
  rw [show (swappingGraph pool h mode).program.nodes[i]? = some n from hn]
  simp only [hf, Option.join_some, hedges, bind, Except.bind, List.foldlM_cons, List.foldlM_nil]
  rw [hfollow]
  · rfl
  · rfl

/-- The search goes round: one of the entries from the label on waits, and those behind it are
about to be given a frame in which the two values stand the other way around. -/
inductive GoesRound (h : Hierarchy) : Work → Prop where
  | atLabel {a b : String} {f3 f4 : Option Frame} (ho : Opposed h a b) (h3 : Behind a b f3)
      (h4 : Behind b a f4) (maxStack maxLocals : Nat) : GoesRound h {
        frames := #[some ⟨[.object "x/A", .object "x/B"], []⟩,
          some ⟨[.object "x/A", .object "x/B"], [.object "x/A"]⟩, some (bothPushed a b), f3, f4]
        queued := #[false, false, true, false, false]
        pending := [2], maxStack, maxLocals }
  | atSwap {a b : String} {f4 : Option Frame} (ho : Opposed h a b) (h4 : Behind b a f4)
      (maxStack maxLocals : Nat) : GoesRound h {
        frames := #[some ⟨[.object "x/A", .object "x/B"], []⟩,
          some ⟨[.object "x/A", .object "x/B"], [.object "x/A"]⟩, some (bothPushed a b),
          some (bothPushed a b), f4]
        queued := #[false, false, false, true, false]
        pending := [3], maxStack, maxLocals }
  | atJump {a b : String} (ho : Opposed h a b) (maxStack maxLocals : Nat) : GoesRound h {
        frames := #[some ⟨[.object "x/A", .object "x/B"], []⟩,
          some ⟨[.object "x/A", .object "x/B"], [.object "x/A"]⟩, some (bothPushed a b),
          some (bothPushed a b), some (bothPushed b a)]
        queued := #[false, false, false, false, true]
        pending := [4], maxStack, maxLocals }

/-- Every look leads on to the next one. -/
theorem GoesRound.look {pool : Pool} {w : Work} (hw : GoesRound h w) :
    ∃ w', Work.Look (swappingGraph pool h mode) w w' ∧ GoesRound h w' := by
  cases hw with
  | atLabel ho h3 h4 =>
    exact ⟨_, look_behind ho rfl rfl rfl rfl rfl h3, .atSwap ho h4 _ _⟩
  | atSwap ho h4 =>
    exact ⟨_, look_behind ho.symm rfl rfl rfl rfl rfl h4, .atJump ho _ _⟩
  | atJump ho =>
    exact ⟨_, look_behind ho.symm rfl rfl rfl rfl rfl (.inr rfl),
      .atLabel ho.symm (.inr rfl) (.inr rfl) _ _⟩

/-- Each of the two classes is above the other one. -/
def eachAbove : SuperTable := oneAbove.insert "x/B" "x/A"

theorem eachAbove_opposed : Opposed (.known eachAbove) "x/A" "x/B" := by
  have hsize : eachAbove.size = 2 := by
    simp [eachAbove, oneAbove, Std.HashMap.size_insert]
  have hA : eachAbove["x/A"]? = some "x/B" := by
    rw [eachAbove, Std.HashMap.getElem?_insert, if_neg (by decide), oneAbove,
      Std.HashMap.getElem?_insert_self]
  have hB : eachAbove["x/B"]? = some "x/A" := Std.HashMap.getElem?_insert_self
  have hup : eachAbove.ancestors "x/A" = ["x/A", "x/B"] := by
    simp [SuperTable.ancestors, hsize, SuperTable.chain, hA, hB]
  have hup' : eachAbove.ancestors "x/B" = ["x/B", "x/A"] := by
    simp [SuperTable.ancestors, hsize, SuperTable.chain, hA, hB]
  have hplain : ¬ "x/A".startsWith "[" ∧ ¬ "x/B".startsWith "[" := by decide +kernel
  -- the second class comes first on its own chain, and it is on that of the first one as well
  refine ⟨mergeTypes_of_commonSuper (by decide) hplain.1 hplain.2 ?_,
    mergeTypes_of_commonSuper (by decide) hplain.2 hplain.1 ?_, by decide⟩ <;>
    simp [Hierarchy.commonSuper, SuperTable.commonSuper, hup, hup']

theorem analyze_swapping_eachAbove (mode : Mode) :
    analyze givenTwo swapping .empty (.known eachAbove) mode = .error unsettled := by
  have hround : ∀ {w : Work}, GoesRound (.known eachAbove) w →
      Work.run (swappingGraph .empty (.known eachAbove) mode) w = none :=
    fun hw => Work.run_eq_none (fun _ hw => hw.look) hw
  have hrun : Work.run (swappingGraph .empty (.known eachAbove) mode)
      (.start 5 ⟨[.object "x/A", .object "x/B"], []⟩) = none := by
    cases mode <;>
      exact (Work.run_of_visit rfl rfl).trans ((Work.run_of_visit rfl rfl).trans
        (hround (.atLabel eachAbove_opposed.symm (.inl rfl) (.inl rfl) _ _)))
  have hentry : Frame.entry givenTwo = .ok ⟨[.object "x/A", .object "x/B"], []⟩ := by
    decide +kernel
  rw [analyze_eq (t := ⟨[.object "x/A", .object "x/B"], none⟩) (by decide +kernel) rfl rfl hentry
    rfl]
  split
  · rfl
  · rename_i result hresult
    cases hrun.symm.trans hresult

/-- **Where two classes are above each other, the analysis can go round for ever**, whether it
trusts the code or not. -/
theorem swapping_never_ends :
    analyze givenTwo swapping .empty (.known eachAbove) .strict = .error unsettled ∧
      analyze givenTwo swapping .empty (.known eachAbove) .lenient = .error unsettled :=
  ⟨analyze_swapping_eachAbove .strict, analyze_swapping_eachAbove .lenient⟩

end Analysis
end ClassWeave
