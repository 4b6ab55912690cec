import ClassWeave.Proofs.Leftovers
import ClassWeave.Proofs.WrittenCode

/-!
# Where frames are stored

Writing stores a frame at the targets of jumps, at the handlers of ranges that are not empty, and
behind conditions that became wide. That is wherever checking asks for one: what comes behind an
instruction that control does not pass was only left in the code because control comes to it, and it
can do so by a jump or an exception only.
-/

namespace ClassWeave

open Code Listing

namespace InstrList

variable {l : InstrList} {i j : Nat} {ins : Instr Label}

/-- Control comes to the entry by a jump or an exception. -/
inductive Entered (l : InstrList) : Nat → Prop
  | jump {i j : Nat} {ins : Instr Label} {lab : Label} (hn : l.nodes[i]? = some (.instr ins))
      (hlab : lab ∈ ins.targets) (hj : lab.position? l.labelPositions = some j) : Entered l j
  | raise {i j : Nat} {ins : Instr Label} {b : TryBlock} (hn : l.nodes[i]? = some (.instr ins))
      (hb : b.Around l i) (hj : b.handler.position? l.labelPositions = some j) : Entered l j

/-- Where control comes to behind an instruction that it does not pass, it comes by a jump or an
exception to that place or to a marker in front of it. -/
theorem Led.entered (hj : l.Led j) (hi : l.nodes[i]? = some (.instr ins))
    (hfall : ins.fallsThrough = false) (hij : i < j)
    (hmarks : ∀ k n, i < k → k < j → l.nodes[k]? = some n → n.isReal = false) :
    ∃ k, i < k ∧ k ≤ j ∧ l.Entered k := by
  induction hj with
  | first => cases hij
  | @pass j n _ hn hreal ih =>
    have hne : i ≠ j := by
      rintro rfl
      rw [Option.some.inj (hn.symm.trans hi)] at hreal
      cases hreal
    obtain ⟨k, hik, hkj, hk⟩ := ih (by omega) fun k n hik hkj => hmarks k n hik (by omega)
    exact ⟨k, hik, by omega, hk⟩
  | @next j ins' _ hn hfall' _ =>
    by_cases heq : i = j
    · subst heq
      rw [Node.instr.inj (Option.some.inj (hn.symm.trans hi)), hfall] at hfall'
      cases hfall'
    · cases hmarks j _ (by omega) (by omega) hn
  | @jump i' j ins' lab _ hn hlab hpos _ => exact ⟨j, hij, Nat.le_refl j, .jump hn hlab hpos⟩
  | @raise i' j ins' b _ hn hb hpos _ => exact ⟨j, hij, Nat.le_refl j, .raise hn hb hpos⟩

end InstrList

/-- Between an offset and the next one lies no other. -/
theorem le_of_behind {os xs ys : List Nat} {o o' p : Nat} (hsorted : os.Pairwise (· < ·))
    (hos : os = xs ++ o :: o' :: ys) (hp : p ∈ os) (hlt : o < p) : o' ≤ p := by
  subst hos
  obtain ⟨-, hright, hcross⟩ := List.pairwise_append.mp hsorted
  obtain ⟨-, hright⟩ := List.pairwise_cons.mp hright
  rcases List.mem_append.mp hp with hp | hp
  · have := hcross p hp o List.mem_cons_self
    omega
  · rcases List.mem_cons.mp hp with rfl | hp
    · omega
    · rcases List.mem_cons.mp hp with rfl | hp
      · exact Nat.le_refl p
      · exact Nat.le_of_lt ((List.pairwise_cons.mp hright).1 p hp)

/-- The opposite of a condition may not be taken either. -/
theorem fallsThrough_invertJump? : ∀ op : UInt8, (Opcode.invertJump? op).isSome = true →
    ((Opcode.invertJump? op).getD op != Opcode.goto &&
      (Opcode.invertJump? op).getD op != Opcode.goto_w) = true :=
  forall_u8 (by decide +kernel)

namespace Code

variable {nodes : List Node} {slots : List Slot} {links : Links} {range : JumpRange} {count : Nat}
  {e : Encoded}

/-- Markers have the offset of what comes behind them. -/
theorem Encoding.offset_eq_of_marks (he : Encoding links range nodes count e slots) {k j o o' : Nat}
    {n n' : Node} {s s' : Slot} (hk : Placed nodes slots k n s o)
    (hj : Placed nodes slots j n' s' o') (hkj : k ≤ j)
    (hmarks : ∀ i m, k ≤ i → i < j → nodes[i]? = some m → m.isReal = false) : o = o' := by
  induction j generalizing n' s' o' with
  | zero =>
    obtain rfl := Nat.le_zero.mp hkj
    exact (hk.unique hj).2.2
  | succ j ih =>
    rcases Nat.lt_or_eq_of_le hkj with hlt | rfl
    · obtain ⟨hlength, -⟩ := List.getElem?_eq_some_iff.mp hj.node
      obtain ⟨t, p, hplaced⟩ := exists_placed he.settled.length_eq
        (List.getElem?_eq_getElem (Nat.lt_of_succ_lt hlength))
      have hle : k ≤ j := Nat.le_of_lt_succ hlt
      have hmark := hmarks j _ hle (Nat.lt_succ_self j) hplaced.node
      have hwidth := width_mark (he.settled_placed hplaced) hmark p
      rw [hplaced.next hj, hwidth, Nat.add_zero]
      exact ih hplaced hle fun i m hki hij => hmarks i m hki (Nat.lt_succ_of_lt hij)
    · exact (hk.unique hj).2.2

end Code

namespace WriteContext

variable {ctx : WriteContext} {body : MethodBody} {s : Links} {code : CodeAttribute}
  {a a' : Analysis} {l : InstrList} {e : Encoded} {slots : List Code.Slot}
  {entries : List (Option HandlerEntry × Label)} {handlers : List Label} {points : List Nat}

/-- A frame is stored at an offset, since an entry there needs one. -/
def FrameAt (e : Encoded) (points : List Nat) (o : Nat) : Prop :=
  ∃ i ∈ points, e.offsets[i]? = some o

theorem mem_framePoints (hpoints : framePoints l e handlers = .ok points) {i : Nat} :
    i ∈ points ↔ i ∈ e.wideFallthroughs ∨
      ∃ lab ∈ handlers ++ l.nodes.toList.flatMap Node.targets,
        lab.position? l.labelPositions = some i := by
  obtain ⟨is, his, hpoints⟩ := bind_eq_ok.mp hpoints
  obtain rfl := pure_eq_ok.mp hpoints
  have hall := mapM_eq_ok.mp his
  rw [List.mem_append]
  refine or_congr_right ⟨fun hi => ?_, fun ⟨lab, hlab, hi⟩ => ?_⟩
  · obtain ⟨lab, hlab, hpos⟩ := exists_of_forall₂ hall.flip hi
    exact ⟨lab, hlab, FlowGraph.position_eq_ok.mp hpos⟩
  · obtain ⟨j, hj, hpos⟩ := exists_of_forall₂ hall hlab
    rwa [Option.some.inj (hi.symm.trans (FlowGraph.position_eq_ok.mp hpos))]

section points

variable (hw : Wrote ctx body s code a l a' e slots entries)
  (hdoc : Documented s.pool body.list.nodes.toList)
  (hpoints : framePoints l e ((keptEntries entries).map Prod.snd) = .ok points)

include hw hdoc hpoints

/-- A label that is used leads to an offset with a frame. -/
theorem Wrote.frameAt_target {i : Nat} {ins : Instr Label} {lab : Label}
    (hn : l.nodes[i]? = some (.instr ins)) (hlab : lab ∈ ins.targets) :
    FrameAt e points (leadsTo (spelling l.nodes.toList l.labelCount slots) lab) := by
  have hleft := hw.documented hdoc
  rw [← Array.getElem?_toList] at hn
  have hused : lab ∈ l.nodes.toList.flatMap Node.targets :=
    List.mem_flatMap.mpr ⟨_, List.mem_of_getElem? hn, hlab⟩
  -- all labels that are used have places, or no points could have been found
  obtain ⟨is, his, heq⟩ := bind_eq_ok.mp hpoints
  obtain ⟨j, -, hpos⟩ := exists_of_forall₂ (mapM_eq_ok.mp his) (List.mem_append_right _ hused)
  have hj := FlowGraph.position_eq_ok.mp hpos
  obtain ⟨t, o, hplaced, hoffset⟩ := hw.encoding.offset?_position hj
  refine ⟨j, (mem_framePoints hpoints).mpr (.inr ⟨lab, List.mem_append_right _ hused, hj⟩), ?_⟩
  rw [hw.encoding.offset_placed hplaced, leadsTo, hoffset]
  rfl

/-- A frame is stored at every handler. -/
theorem Wrote.frameAt_handler {r : HandlerEntry} (hr : r ∈ code.handlers) :
    FrameAt e points r.handler.toNat := by
  rw [hw.handlers] at hr
  obtain ⟨r, hkept, rfl⟩ := List.mem_map.mp hr
  have hused : r.2 ∈ (keptEntries entries).map Prod.snd := List.mem_map_of_mem hkept
  obtain ⟨is, his, heq⟩ := bind_eq_ok.mp hpoints
  obtain ⟨j, -, hpos⟩ := exists_of_forall₂ (mapM_eq_ok.mp his) (List.mem_append_left _ hused)
  have hj := FlowGraph.position_eq_ok.mp hpos
  obtain ⟨b, -, hat, hhandler⟩ :=
    exists_storedAt (labelOffset_le hw.encoding (hw.documented hdoc)) hw.blocks hkept
  refine ⟨j, (mem_framePoints hpoints).mpr (.inr ⟨r.2, List.mem_append_left _ hused, hj⟩), ?_⟩
  rw [hhandler] at hj
  exact hw.offset_label hdoc hat.handler hj

/-- A frame is stored behind a condition that became wide. -/
theorem Wrote.frameAt_wide {i o : Nat} {n : Node} {t : Code.Slot}
    (hi : Placed l.nodes.toList slots i n t o) (hwide : isWideCondition t) :
    FrameAt e points (o + 8) := by
  have hbehind : i + 1 ∈ e.wideFallthroughs := by
    rw [hw.encoding.behind, List.mem_filterMap]
    refine ⟨(t, i), List.mem_zipIdx_iff_getElem?.mpr hi.slot, ?_⟩
    simp only [hwide, if_true]
  have hreal := (hw.closed_left hdoc).behind _ hbehind
  have hlt : i + 1 < l.nodes.toList.length := by
    by_contra hge
    rw [List.drop_eq_nil_of_le (Nat.le_of_not_lt hge)] at hreal
    cases hreal
  obtain ⟨t', o', hnext⟩ := exists_placed hw.encoding.settled.length_eq
    (List.getElem?_eq_getElem hlt)
  obtain ⟨-, -, -, hwidth⟩ := hw.encoding.wide_placed hi hwide o
  refine ⟨i + 1, (mem_framePoints hpoints).mpr (.inl hbehind), ?_⟩
  rw [hw.encoding.offset_placed hnext, hi.next hnext, hwidth]

/-- What control comes to by a jump or an exception needs a frame. -/
theorem Wrote.mem_points_of_entered {k : Nat} (hk : l.Entered k) : k ∈ points := by
  rw [mem_framePoints hpoints]
  cases hk with
  | @jump i _ ins lab hn hlab hj =>
    rw [← Array.getElem?_toList] at hn
    refine .inr ⟨lab, List.mem_append_right _ ?_, hj⟩
    exact List.mem_flatMap.mpr ⟨_, List.mem_of_getElem? hn, hlab⟩
  | @raise i _ ins b hn hb hj =>
    -- the range of the block holds an instruction, so it was kept
    rw [← Array.getElem?_toList] at hn
    obtain ⟨start, hstart, hle⟩ := hb.start
    obtain ⟨stop, hstop, hlt⟩ := hb.stop
    obtain ⟨r, hr, ⟨first, last, hfirst, hlast, hcase⟩, hhandler⟩ := exists_of_forall₂ hw.blocks hb.mem
    obtain ⟨t, o, hplaced⟩ := exists_placed hw.encoding.settled.length_eq hn
    obtain ⟨_, _, hfrom⟩ := hw.encoding.placed_of_offset (hw.offset_label hdoc hfirst hstart)
    obtain ⟨_, _, hto⟩ := hw.encoding.placed_of_offset (hw.offset_label hdoc hlast hstop)
    have hwidth := hw.encoding.width_placed (hw.documented hdoc) hplaced rfl o
    have hlower := hfrom.mono hplaced hle
    have hupper := hplaced.behind hto hlt
    rcases hcase with ⟨hempty, -⟩ | ⟨-, handler, catchType, -, -, hentry⟩
    · omega
    · have hkept : (⟨UInt16.ofNat first, UInt16.ofNat last, UInt16.ofNat handler, catchType⟩, r.2) ∈
          keptEntries entries := by
        refine List.mem_filterMap.mpr ⟨r, hr, ?_⟩
        change r.1.map (·, r.2) = _
        rw [hentry]
        rfl
      exact .inr ⟨b.handler, List.mem_append_left _ (List.mem_map.mpr ⟨_, hkept, hhandler⟩), hj⟩

/-- **Behind an instruction that control does not pass, a frame is stored.** -/
theorem Wrote.frameAt_behind {xs ys : List (Nat × Instr Nat)} {o o' : Nat} {ins ins' : Instr Nat}
    (hread : readings (spelling l.nodes.toList l.labelCount slots) =
      xs ++ (o, ins) :: (o', ins') :: ys) (hfall : ins.fallsThrough = false) :
    FrameAt e points o' := by
  have he := hw.encoding
  have hleft := hw.documented hdoc
  have hclosed := hw.closed_left hdoc
  have hsorted : (starts (spelling l.nodes.toList l.labelCount slots)).Pairwise (· < ·) :=
    (he.positioned hleft).sorted
  have hstarts : starts (spelling l.nodes.toList l.labelCount slots) =
      xs.map Prod.fst ++ o :: o' :: ys.map Prod.fst := by
    rw [← map_fst_readings, hread, List.map_append, List.map_cons, List.map_cons]
  have hbetween : ∀ {p}, p ∈ starts (spelling l.nodes.toList l.labelCount slots) → o < p → o' ≤ p :=
    fun hp hlt => le_of_behind hsorted hstarts hp hlt
  have hstart : o' ∈ starts (spelling l.nodes.toList l.labelCount slots) := by
    rw [hstarts]
    simp
  have hlt : o < o' := by
    rw [hstarts] at hsorted
    obtain ⟨-, hright, -⟩ := List.pairwise_append.mp hsorted
    exact (List.pairwise_cons.mp hright).1 o' List.mem_cons_self
  have hmem : (o, ins) ∈ readings (spelling l.nodes.toList l.labelCount slots) := by
    rw [hread]
    simp
  cases he.readFrom hleft hclosed hmem with
  | @skip i _ op t s' hi hwide =>
    -- a condition is passed, whichever way round it is
    have hpass := fallsThrough_invertJump? op (he.inverts_placed hleft hi hwide)
    rw [Instr.fallsThrough, hpass] at hfall
    cases hfall
  | @jump i p op t s' hi hwide =>
    obtain ⟨-, -, -, hwidth⟩ := he.wide_placed hi hwide p
    have hframe := hw.frameAt_wide hdoc hpoints hi hwide
    obtain ⟨xs', ys', hsplit, -, rfl⟩ := hi.exists_split he.settled.length_eq
    have hafter := (he.offset?_behind hleft hclosed hsplit hwide).2
    have hle := hbetween hafter (by omega)
    rcases he.start_behind hleft hclosed hi hstart (by omega) with ⟨-, rfl⟩ | hge
    · omega
    · obtain rfl : o' = endFrom 0 (xs'.map Prod.snd) + 8 := by omega
      exact hframe
  | @whole i _ ins₀ s' hi hnarrow =>
    rw [Instr.fallsThrough_map, fallsThrough_ascending] at hfall
    have hpos := he.width_placed hleft hi rfl o
    obtain ⟨j, n, s'', p, hj, hreal, hat⟩ := he.placed_of_start hleft hclosed hstart
    -- what comes next is an entry of its own, since no start lies in between
    obtain rfl : o' = p := by
      rcases hat with rfl | ⟨hwide, rfl⟩
      · rfl
      · obtain ⟨op, t, rfl, hwidth⟩ := he.wide_placed hj hwide p
        have hp := (he.mem_starts_placed hj).1
        by_cases hop : o < p
        · have := hbetween hp hop
          omega
        · obtain rfl := hi.eq_of_within hj (Nat.le_refl o) (by omega) (by omega) (by omega)
          obtain ⟨-, rfl, -⟩ := hi.unique hj
          rw [hnarrow] at hwide
          cases hwide
    have hij : i < j := by
      by_contra hge
      have := hj.mono hi (Nat.le_of_not_lt hge)
      omega
    have hmarks : ∀ k m, i < k → k < j → l.nodes[k]? = some m → m.isReal = false := by
      intro k m hik hkj hm
      by_contra hmreal
      rw [← Array.getElem?_toList] at hm
      cases m with
      | label | line => exact hmreal rfl
      | instr ins₁ =>
        obtain ⟨t, q, hk⟩ := exists_placed he.settled.length_eq hm
        have hwidth := he.width_placed hleft hk rfl q
        have hfirst := hi.behind hk hik
        have hlast := hk.behind hj hkj
        have := hbetween (he.mem_starts_placed hk).1 (by omega)
        omega
    have hled : l.Led j := by
      cases n with
      | label | line => cases hreal
      | instr ins₁ =>
        have hnode := hj.node
        rw [Array.getElem?_toList] at hnode
        exact (Analysis.reaches_iff hw.pruned.again).mp (hw.pruned.reached hnode)
    have hnode := hi.node
    rw [Array.getElem?_toList] at hnode
    obtain ⟨k, hik, hkj, hk⟩ := hled.entered hnode hfall hij hmarks
    have hlength : k < l.nodes.toList.length :=
      Nat.lt_of_le_of_lt hkj (List.getElem?_eq_some_iff.mp hj.node).1
    obtain ⟨t, q, hplaced⟩ := exists_placed he.settled.length_eq (List.getElem?_eq_getElem hlength)
    obtain rfl := he.offset_eq_of_marks hplaced hj hkj fun r m hkr hrj hm =>
      hmarks r m (by omega) hrj (by rwa [← Array.getElem?_toList])
    exact ⟨k, hw.mem_points_of_entered hdoc hpoints hk, he.offset_placed hplaced⟩

/-- **A frame is stored wherever the code that is read goes to.** -/
theorem Wrote.frameAt_goes {o : Nat} {ins : Instr Nat}
    (hread : (o, ins) ∈ readings (spelling l.nodes.toList l.labelCount slots)) {t : Nat}
    (ht : t ∈ ins.targets) : FrameAt e points t := by
  have he := hw.encoding
  have hleft := hw.documented hdoc
  have hnode : ∀ {i n s' o}, Placed l.nodes.toList slots i n s' o → l.nodes[i]? = some n :=
    fun hi => by
      rw [← Array.getElem?_toList]
      exact hi.node
  cases he.readFrom hleft (hw.closed_left hdoc) hread with
  | whole hi =>
    rw [Instr.targets_map, List.mem_map] at ht
    obtain ⟨lab, hlab, rfl⟩ := ht
    exact hw.frameAt_target hdoc hpoints (hnode hi) ((mem_targets_ascending _).mp hlab)
  | skip hi hwide =>
    rw [List.mem_singleton.mp ht]
    exact hw.frameAt_wide hdoc hpoints hi hwide
  | jump hi =>
    rw [List.mem_singleton.mp ht]
    exact hw.frameAt_target hdoc hpoints (hnode hi) List.mem_cons_self

end points

end WriteContext
end ClassWeave
