import ClassWeave.Proofs.Lockstep
import ClassWeave.Proofs.Writing

/-!
# Code that is cut down

Leaving out the instructions that are never reached moves the others to lower places. What control
comes to is left, so the search of the code that is left goes side by side with that of the whole
code, and it finds the same frames. Code that passes its checks therefore still passes them once it
is cut down, and control comes to all that is left.
-/

namespace ClassWeave

open Code

/-- The handler once the entries of its code are at other places. -/
def Handler.moved (place : Nat → Nat) (k : Handler) : Handler :=
  ⟨place k.start, place k.stop, place k.target, k.catchType⟩

/-! ## Where entries come from -/

/-- The places of the entries, numbered from `k` on, at which a test holds. -/
def keptPlaces (keep : Nat → Node → Bool) (k : Nat) : List Node → List Nat
  | [] => []
  | n :: rest =>
    if keep k n then k :: keptPlaces keep (k + 1) rest else keptPlaces keep (k + 1) rest

section kept

variable {keep : Nat → Node → Bool} {k : Nat} {nodes as bs : List Node} {n : Node}

theorem length_keptPlaces (keep : Nat → Node → Bool) (k : Nat) (nodes : List Node) :
    (keptPlaces keep k nodes).length = (keptFrom keep k nodes).length := by
  induction nodes generalizing k with
  | nil => rfl
  | cons n nodes ih =>
    rw [keptPlaces, keptFrom]
    split
    · rw [List.length_cons, List.length_cons, ih]
    · exact ih (k + 1)

theorem keptPlaces_append (as bs : List Node) : keptPlaces keep k (as ++ bs) =
    keptPlaces keep k as ++ keptPlaces keep (k + as.length) bs := by
  induction as generalizing k with
  | nil => rfl
  | cons n as ih =>
    rw [List.cons_append, keptPlaces, keptPlaces, ih, List.length_cons, Nat.add_right_comm k 1,
      Nat.add_assoc k]
    split <;> rfl

end kept

namespace Analysis

variable {a : Analysis} {l : InstrList} {as bs : List Node} {n : Node} {i j k : Nat}

/-- The place that an entry had before instructions were left out. -/
def origin? (a : Analysis) (l : InstrList) (k : Nat) : Option Nat :=
  (keptPlaces a.keeps 0 l.nodes.toList)[k]?

/-- How many entries are left of those in front of a place. -/
def rank (a : Analysis) (l : InstrList) (i : Nat) : Nat :=
  (keptFrom a.keeps 0 (l.nodes.toList.take i)).length

theorem rank_mono (a : Analysis) (l : InstrList) (h : i ≤ j) : a.rank l i ≤ a.rank l j := by
  obtain ⟨d, rfl⟩ := Nat.exists_eq_add_of_le h
  rw [rank, rank, List.take_add, keptFrom_append, List.length_append]
  exact Nat.le_add_right _ _

/-- One more entry is left of those in front of the place behind one that is left. -/
theorem rank_succ (hn : l.nodes[i]? = some n) (hkeep : a.keeps i n) :
    a.rank l (i + 1) = a.rank l i + 1 := by
  rw [← Array.getElem?_toList] at hn
  obtain ⟨hlt, hget⟩ := List.getElem?_eq_some_iff.mp hn
  rw [rank, rank, List.take_succ_eq_append_getElem hlt, keptFrom_append, List.length_append, hget,
    List.length_take, Nat.min_eq_left (Nat.le_of_lt hlt), Nat.zero_add,
    keptFrom_cons_of_keep hkeep]
  rfl

/-- An instruction that is left out does not count. -/
theorem rank_succ_of_not_keeps (hn : l.nodes[i]? = some n) (hdead : ¬ a.keeps i n) :
    a.rank l (i + 1) = a.rank l i := by
  rw [← Array.getElem?_toList] at hn
  obtain ⟨hlt, hget⟩ := List.getElem?_eq_some_iff.mp hn
  rw [rank, rank, List.take_succ_eq_append_getElem hlt, keptFrom_append, List.length_append, hget,
    List.length_take, Nat.min_eq_left (Nat.le_of_lt hlt), Nat.zero_add, keptFrom, if_neg hdead]
  rfl

theorem rank_lt (hn : l.nodes[i]? = some n) (hkeep : a.keeps i n) (h : i < j) :
    a.rank l i < a.rank l j := by
  have hle := a.rank_mono l (Nat.succ_le_of_lt h)
  rw [Nat.succ_eq_add_one, rank_succ hn hkeep] at hle
  exact hle

theorem live_rank (hn : l.nodes[i]? = some n) (hkeep : a.keeps i n) :
    (a.live l)[a.rank l i]? = some n := by
  rw [← Array.getElem?_toList] at hn
  obtain ⟨hsplit, hlength⟩ := eq_take_cons_drop hn
  conv => lhs; rw [live, hsplit, keptFrom_append, hlength, Nat.zero_add,
    keptFrom_cons_of_keep hkeep]
  rw [rank, List.getElem?_append_right (Nat.le_refl _), Nat.sub_self]
  rfl

theorem origin?_rank (hn : l.nodes[i]? = some n) (hkeep : a.keeps i n) :
    a.origin? l (a.rank l i) = some i := by
  rw [← Array.getElem?_toList] at hn
  obtain ⟨hsplit, hlength⟩ := eq_take_cons_drop hn
  conv => lhs; rw [origin?, hsplit, keptPlaces_append, hlength, Nat.zero_add, keptPlaces,
    if_pos hkeep]
  rw [rank, ← length_keptPlaces, List.getElem?_append_right (Nat.le_refl _), Nat.sub_self]
  rfl

/-- Every entry that is left was there before. -/
theorem exists_of_origin? (h : a.origin? l k = some i) :
    ∃ n, l.nodes[i]? = some n ∧ a.keeps i n ∧ a.rank l i = k := by
  have general : ∀ (nodes : List Node) (s k : Nat), (keptPlaces a.keeps s nodes)[k]? = some i →
      ∃ as n bs, nodes = as ++ n :: bs ∧ s + as.length = i ∧ a.keeps i n ∧
        (keptFrom a.keeps s as).length = k := by
    intro nodes
    induction nodes with
    | nil => exact fun s k h => by cases h
    | cons m nodes ih =>
      intro s k h
      rw [keptPlaces] at h
      split at h
      · rename_i hm
        cases k with
        | zero =>
          obtain rfl := Option.some.inj h
          exact ⟨[], m, nodes, rfl, rfl, hm, rfl⟩
        | succ k =>
          obtain ⟨as, n, bs, rfl, hi, hn, hk⟩ := ih (s + 1) k h
          refine ⟨m :: as, n, bs, rfl, ?_, hn, ?_⟩
          · rw [List.length_cons]
            omega
          · rw [keptFrom_cons_of_keep hm, List.length_cons, hk]
      · rename_i hm
        obtain ⟨as, n, bs, rfl, hi, hn, hk⟩ := ih (s + 1) k h
        refine ⟨m :: as, n, bs, rfl, ?_, hn, ?_⟩
        · rw [List.length_cons]
          omega
        · rwa [keptFrom, if_neg hm]
  obtain ⟨as, n, bs, hnodes, hi, hn, hk⟩ := general _ 0 k h
  rw [Nat.zero_add] at hi
  subst hi
  refine ⟨n, ?_, hn, ?_⟩
  · rw [← Array.getElem?_toList, hnodes]
    simp
  · rw [rank, hnodes, List.take_left]
    exact hk

theorem siteMap_origin (a : Analysis) (l : InstrList) :
    VType.SiteMap fun k i => a.origin? l k = some i where
  unique h h' := Option.some.inj (h.symm.trans h')
  inj h h' := by
    obtain ⟨-, -, -, rfl⟩ := exists_of_origin? h
    obtain ⟨-, -, -, rfl⟩ := exists_of_origin? h'
    rfl

theorem cut_of_origin? (h : a.origin? l k = some i) : (a.cut l).nodes[k]? = l.nodes[i]? := by
  obtain ⟨n, hn, hkeep, rfl⟩ := exists_of_origin? h
  rw [← Array.getElem?_toList, toList_cut, live_rank hn hkeep, hn]

theorem origin?_of_cut (h : (a.cut l).nodes[k]? = some n) :
    ∃ i, a.origin? l k = some i ∧ l.nodes[i]? = some n ∧ a.keeps i n := by
  obtain ⟨hlt, -⟩ := Array.getElem?_eq_some_iff.mp h
  rw [← Array.length_toList, toList_cut, live, ← length_keptPlaces] at hlt
  have hi : a.origin? l k = some (keptPlaces a.keeps 0 l.nodes.toList)[k] :=
    List.getElem?_eq_getElem hlt
  have hnode := cut_of_origin? hi
  rw [h] at hnode
  obtain ⟨n', hn', hkeep, -⟩ := exists_of_origin? hi
  obtain rfl := Option.some.inj (hnode.trans hn')
  exact ⟨_, hi, hn', hkeep⟩

/-- A label that is left is at the place that is left of its own. -/
theorem position?_cut {lab : Label} (h : lab.position? l.labelPositions = some i) :
    lab.position? (a.cut l).labelPositions = some (a.rank l i) ∧
      a.origin? l (a.rank l i) = some i := by
  obtain ⟨as, bs, hsplit, rfl, hnot⟩ := InstrList.position?_labelPositions h
  have hmark : a.keeps as.length (.label lab) := keeps_mark rfl
  have hn : l.nodes[as.length]? = some (.label lab) := by
    rw [← Array.getElem?_toList, hsplit]
    simp
  refine ⟨?_, origin?_rank hn hmark⟩
  have hlive : (a.cut l).nodes.toList = keptFrom a.keeps 0 as ++
      .label lab :: keptFrom a.keeps (as.length + 1) bs := by
    rw [toList_cut, live, hsplit, keptFrom_append, Nat.zero_add, keptFrom_cons_of_keep hmark]
  have hid : lab.id < (a.cut l).placed.size := show lab.id < l.placed.size from
    InstrList.lt_of_position? h
  rw [InstrList.position?_of_split hid hlive
    fun hmem => hnot ((keptFrom_sublist _ _ _).subset hmem), rank, hsplit, List.take_left]

/-! ## Ranges that are left -/

theorem le_rank_iff (hn : l.nodes[i]? = some n) (hkeep : a.keeps i n) :
    a.rank l j ≤ a.rank l i ↔ j ≤ i := by
  refine ⟨fun hle => ?_, a.rank_mono l⟩
  by_contra hlt
  exact absurd hle (Nat.not_le.mpr (rank_lt hn hkeep (Nat.lt_of_not_le hlt)))

theorem rank_lt_iff (hn : l.nodes[i]? = some n) (hkeep : a.keeps i n) :
    a.rank l i < a.rank l j ↔ i < j := by
  refine ⟨fun hlt => ?_, rank_lt hn hkeep⟩
  by_contra hle
  exact absurd hlt (Nat.not_lt.mpr (a.rank_mono l (Nat.le_of_not_lt hle)))

/-! ## The search of what is left -/

section searched

variable {m : MethodContext} {pool : Pool} {h : Hierarchy} {mode : Mode} {g : FlowGraph}
  {entry : Frame} {w : Work}

/-- Where control comes to, an entry is left. -/
theorem origin?_of_led (ha : analyze m l pool h mode = .ok a) (hi : l.Led i) :
    ∃ n, l.nodes[i]? = some n ∧ a.keeps i n ∧ a.origin? l (a.rank l i) = some i := by
  have hreach := (reaches_iff ha).mpr hi
  have hlt := (spreads ha).inside hreach
  have hn := Array.getElem?_eq_getElem hlt
  have hkeep : a.keeps i l.nodes[i] := by
    by_cases hreal : l.nodes[i].isReal
    · exact (keeps_real hreal).mpr hreach
    · exact keeps_mark (by simpa using hreal)
  exact ⟨_, hn, hkeep, origin?_rank hn hkeep⟩

/-- The graph of the code that is left. -/
def cutGraph (a : Analysis) (l : InstrList) (g : FlowGraph) : FlowGraph where
  program := { g.program with nodes := (a.cut l).nodes }
  positions := (a.cut l).labelPositions
  handlers := g.handlers.map (Handler.moved (a.rank l))

theorem Begins.cut (hb : Begins m l pool h mode g entry) (hne : 0 < (a.cut l).nodes.size) :
    Begins m (a.cut l) pool h mode (a.cutGraph l g) entry where
  program := by rw [cutGraph, hb.program]
  positions := rfl
  handlers := by
    refine List.forall₂_map_right_iff.mpr (hb.handlers.imp fun b k hk => ?_)
    obtain ⟨hstart, hstop, htarget, hcaught⟩ := FlowGraph.handler_eq_ok.mp hk
    exact FlowGraph.handler_eq_ok.mpr ⟨(position?_cut hstart).1, (position?_cut hstop).1,
      (position?_cut htarget).1, hcaught⟩
  start := hb.start
  nonempty := hne

/-- The graph of the code that is left stands for that of the whole code. -/
theorem Begins.stands_cut (hb : Begins m l pool h mode g entry)
    (ha : analyze m l pool h mode = .ok a) :
    (a.cutGraph l g).Stands (fun k i => a.origin? l k = some i) l.Led g where
  program := {
    method := rfl
    result := rfl
    pooled := fun _ _ ht => ht
    sites := siteMap_origin a l
    news := fun k i cls hk hn => by
      rw [hb.program] at hn
      exact (cut_of_origin? hk).trans hn
    hierarchy := rfl
    checks := id }
  handlers := by
    -- ranges may lose entries at their ends, but none that is left
    refine List.forall₂_map_left_iff.mpr (List.forall₂_same.mpr fun c hc => ?_)
    obtain ⟨b, -, -, -, htarget, -⟩ := hb.block hc
    refine ⟨(position?_cut htarget).2, rfl, hb.caught hc, fun {k i} hk => ?_⟩
    obtain ⟨n, hn, hkeep, rfl⟩ := exists_of_origin? hk
    exact and_congr (le_rank_iff hn hkeep) (rank_lt_iff hn hkeep)
  first := by
    obtain ⟨-, -, -, horigin⟩ := origin?_of_led ha .first
    exact horigin
  nodes := fun hk => by rw [hb.program]; exact cut_of_origin? hk
  next := fun {k i} hk _ hnext => by
    -- control comes to the next entry, so that one is left too and comes right behind
    obtain ⟨n, hn, hkeep, rfl⟩ := exists_of_origin? hk
    obtain ⟨-, -, -, horigin⟩ := origin?_of_led ha hnext
    rwa [rank_succ hn hkeep] at horigin
  labels := fun hj => ⟨_, position?_cut (hb.positions ▸ hj)⟩
  good := hb.good_led

/-- **What an analysis finds in code that was cut down is what it found before.** -/
theorem analyze_cut (ha : analyze m l pool h mode = .ok a) :
    ∃ a', analyze m (a.cut l) pool h mode = .ok a' ∧
      a'.Stands (fun k i => a.origin? l k = some i) a := by
  obtain ⟨g, entry, w, hs⟩ := searched_of_analyze ha
  have hne : 0 < (a.cut l).nodes.size := by
    obtain ⟨n, hn, -, horigin⟩ := origin?_of_led ha .first
    obtain ⟨hlt, -⟩ := Array.getElem?_eq_some_iff.mp ((cut_of_origin? horigin).trans hn)
    exact Nat.zero_lt_of_lt hlt
  exact hs.stands (hs.toBegins.cut hne) (hs.toBegins.stands_cut ha) .first

/-- Control comes to every instruction that is left. -/
theorem Stands.reaches_cut {a' : Analysis}
    (hs : a'.Stands (fun k i => a.origin? l k = some i) a) {ins : Instr Label}
    (hk : (a.cut l).nodes[k]? = some (.instr ins)) : a'.Reaches k := by
  obtain ⟨i, hi, hn, hkeep⟩ := origin?_of_cut hk
  exact (hs.reaches hi).mpr ((keeps_real rfl).mp hkeep)

end searched

end Analysis

namespace WriteContext

variable {ctx : WriteContext} {l l' : InstrList} {pool : Pool} {a a' : Analysis}

open Analysis

theorem Pruned.eq_cut (hp : Pruned ctx l pool a l' a') : l' = a.cut l := by
  have hnodes : l'.nodes = (a.cut l).nodes := by
    rw [← Array.toList_inj, hp.nodes, toList_cut]
  obtain ⟨nodes, placed, blocks⟩ := l'
  rw [cut, InstrList.filterIdx, InstrList.mk.injEq]
  exact ⟨hnodes, hp.placed, hp.blocks⟩

/-- Control comes to every instruction that is left. -/
theorem Pruned.reached (hp : Pruned ctx l pool a l' a') {k : Nat} {ins : Instr Label}
    (hk : l'.nodes[k]? = some (.instr ins)) : a'.Reaches k := by
  obtain rfl := hp.eq_cut
  obtain ⟨b, hb, hstands⟩ := analyze_cut hp.analysis
  obtain rfl := Except.ok.inj (hb.symm.trans hp.again)
  exact hstands.reaches_cut hk

/-- **Checked code still passes its checks once it is cut down.** -/
theorem Pruned.checked (hp : Pruned ctx l pool a l' a') {b : Analysis}
    (hb : analyze ctx.method l pool ctx.hierarchy .strict = .ok b) :
    analyze ctx.method l' pool ctx.hierarchy .strict = .ok a' := by
  obtain rfl := hp.eq_cut
  obtain rfl : b = a := Except.ok.inj ((analyze_lenient hb).symm.trans hp.analysis)
  obtain ⟨b', hb', -⟩ := analyze_cut hb
  rwa [Except.ok.inj ((analyze_lenient hb').symm.trans hp.again)] at hb'

end WriteContext
end ClassWeave
