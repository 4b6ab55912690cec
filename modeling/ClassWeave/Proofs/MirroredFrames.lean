import ClassWeave.Proofs.FrameChecks
import ClassWeave.Proofs.Insertions
import ClassWeave.Proofs.Reencoding

/-!
# The same frames for the same code

Two lists that were encoded without detours and say the same stand for each other, whatever their
labels and markers are. The frames of each are a ceiling for those of the other one: if one of them
passes its checks, both need the same room, and where their instructions have the same offset, their
frames cover each other. Such frames are stored in the same way, since all that they can differ in
are the places of the instructions that made their fresh objects, and these have the same offsets.
-/

namespace ClassWeave

theorem mapM_congr_of_forall₂ {α β γ : Type} {m : Type → Type} [Monad m] [LawfulMonad m] {f : α → m γ}
    {g : β → m γ} {as : List α} {bs : List β} (h : List.Forall₂ (fun a b => f a = g b) as bs) :
    as.mapM f = bs.mapM g := by
  induction h with
  | nil => rw [List.mapM_nil, List.mapM_nil]
  | cons hab _ ih => rw [List.mapM_cons, List.mapM_cons, hab, ih]

/-! ## Frames that are stored in the same way -/

namespace CompactFrame

variable {h : Hierarchy} {site site' : Nat → Nat → Prop} {offset? other? : Nat → Option Nat}
  {t u : NamedType} {ts us : List NamedType}

/-- Types that cover each other are stored in the same way, if instructions that stand for each
other have the same offset. -/
theorem internType_eq (hh : h.Sound) (hsite : ∀ {i j}, site i j → ∃ o, offset? j = some o ∧ other? i = some o)
    (htu : VType.Covers h site t u) (hut : VType.Covers h site' u t) :
    internType offset? t = internType other? u := by
  cases htu with
  | top => cases hut; rfl
  | nullObject => cases hut
  | object hc =>
    cases hut with
    | object hc' => rw [Hierarchy.CoversClass.antisymm hh hc hc']; rfl
  | fresh hs =>
    obtain ⟨o, ho, ho'⟩ := hsite hs
    simp only [internType, VType.mapM, freshOffset, ho, ho']
  | _ => rfl

/-- If all slots cannot be used, neither can any of the values. -/
theorem eq_top_of_slots (h : ∀ k, Frame.slot (slots ts) k = .top) : ∀ t ∈ ts, t = .top := by
  induction ts with
  | nil => exact fun _ ht => absurd ht List.not_mem_nil
  | cons t ts ih =>
    have hhead : t = .top := by
      have hfirst := h 0
      rw [slots, List.flatMap_cons, Frame.slotsOf] at hfirst
      split at hfirst <;> exact hfirst
    subst hhead
    intro u hu
    rcases List.mem_cons.mp hu with rfl | hu
    · rfl
    · exact ih (fun k => h (k + 1)) u hu

/-- Values with related slots are related one by one, if none at the end is left out that could not
be used. -/
theorem forall₂_of_slots {R : NamedType → NamedType → Prop}
    (hwide : ∀ {t u}, R t u → u.isWide = t.isWide) (hleft : ∀ {t}, R t .top → t = .top)
    (hright : ∀ {u}, R .top u → u = .top) (hts : ts.getLast? ≠ some .top)
    (hus : us.getLast? ≠ some .top)
    (h : ∀ k, R (Frame.slot (slots ts) k) (Frame.slot (slots us) k)) : List.Forall₂ R ts us := by
  have hempty : ∀ {ts : List NamedType}, ts.getLast? ≠ some .top →
      (∀ k, Frame.slot (slots ts) k = .top) → ts = [] := by
    intro ts hlast hall
    by_contra hne
    refine hlast ?_
    rw [List.getLast?_eq_some_getLast hne, eq_top_of_slots hall _ (List.getLast_mem hne)]
  induction ts generalizing us with
  | nil =>
    obtain rfl := hempty hus fun k => hright (h k)
    exact .nil
  | cons t ts ih =>
    cases us with
    | nil => cases hempty hts fun k => hleft (h k)
    | cons u us =>
      have hhead : R t u := by
        have hfirst := h 0
        simp only [slots, List.flatMap_cons, Frame.slotsOf] at hfirst
        split at hfirst <;> split at hfirst <;> exact hfirst
      have hlast : ∀ {v : NamedType} {vs : List NamedType}, (v :: vs).getLast? ≠ some .top →
          vs.getLast? ≠ some .top := by
        intro v vs hlast
        cases vs with
        | nil => simp
        | cons => rwa [List.getLast?_cons_cons] at hlast
      refine .cons hhead (ih (hlast hts) (hlast hus) fun k => ?_)
      have hcons : ∀ (v : NamedType) (vs : List NamedType),
          slots (v :: vs) = Frame.slotsOf v ++ slots vs := fun _ _ => rfl
      simp only [hcons, Frame.slotsOf, hwide hhead] at h
      split at h
      · exact h (k + 2)
      · exact h (k + 1)

end CompactFrame

namespace Frame

open CompactFrame

variable {h : Hierarchy} {site site' : Nat → Nat → Prop} {offset? other? : Nat → Option Nat}
  {f g : Frame}

theorem getLast?_compactLocals (locals : List NamedType) :
    (compactLocals locals).getLast? ≠ some .top := by
  rw [compactLocals, List.getLast?_reverse]
  intro hlast
  have hnot := List.head?_dropWhile_not (· == VType.top) (wholeOnto [] locals)
  rw [hlast] at hnot
  cases hnot

/-- **Frames that cover each other are stored in the same way.** -/
theorem intern_compact_eq (hh : h.Sound)
    (hsite : ∀ {i j}, site i j → ∃ o, offset? j = some o ∧ other? i = some o)
    (hgf : Covers h site g f) (hfg : Covers h site' f g) (hg : Closed g.locals)
    (hf : Closed f.locals) : g.compact.intern offset? = f.compact.intern other? := by
  let R (t u : NamedType) : Prop := VType.Covers h site t u ∧ VType.Covers h site' u t
  have hlocals : List.Forall₂ R g.compact.locals f.compact.locals := by
    refine forall₂_of_slots ?_ ?_ ?_ (getLast?_compactLocals _) (getLast?_compactLocals _)
      fun k => ?_
    · rintro t u ⟨htu, hut⟩
      cases htu with
      | top => cases hut; rfl
      | _ => rfl
    · rintro t ⟨htu, -⟩
      cases htu
      rfl
    · rintro u ⟨-, hut⟩
      cases hut
      rfl
    · have hcompact : ∀ {f : Frame}, Closed f.locals →
          slot (slots f.compact.locals) k = slot f.locals k := fun hf => slot_compactLocals hf k
      rw [hcompact hg, hcompact hf]
      exact ⟨hgf.locals k, hfg.locals k⟩
  have hstack : List.Forall₂ R g.compact.stack f.compact.stack := by
    have hgf := List.forall₂_iff_get.mp hgf.stack
    have hfg := List.forall₂_iff_get.mp hfg.stack
    exact List.rel_reverse (List.forall₂_iff_get.mpr
      ⟨hgf.1, fun i hi hi' => ⟨hgf.2 i hi hi', hfg.2 i hi' hi⟩⟩)
  have hsame : ∀ {t u}, R t u → internType offset? t = internType other? u :=
    fun h => internType_eq hh hsite h.1 h.2
  show CompactFrame.mapM (internType offset?) _ = CompactFrame.mapM (internType other?) _
  rw [CompactFrame.mapM, CompactFrame.mapM, mapM_congr_of_forall₂ (hlocals.imp fun _ _ => hsame),
    mapM_congr_of_forall₂ (hstack.imp fun _ _ => hsame)]

/-- The frame at entry is stored in the same way wherever instructions are. -/
theorem intern_compact_entry {m : MethodContext} (hf : entry m = .ok f) :
    f.compact.intern offset? = f.compact.intern other? := by
  have hself : Covers .unknown (fun _ _ => False) f f := covers_entry hf
  have hclosed := (entry_sound hf).closed
  exact intern_compact_eq (h := .unknown) trivial (fun h => h.elim) hself hself hclosed hclosed

end Frame

/-- An instruction with nothing but markers in front of it comes next. -/
theorem nextReal?_of_marks {nodes : Array Node} {i j : Nat} {n : Node} (hij : i ≤ j)
    (hn : nodes[j]? = some n) (hreal : n.isReal)
    (hmarks : ∀ k n, i ≤ k → k < j → nodes[k]? = some n → n.isReal = false) :
    nextReal? nodes i = some j := by
  have hj : j < nodes.size := (Array.getElem?_eq_some_iff.mp hn).1
  fun_induction nextReal? nodes i with
  | case1 i hlt hi =>
    rcases Nat.lt_or_eq_of_le hij with hlt' | rfl
    · have := hmarks i _ (Nat.le_refl i) hlt' (Array.getElem?_eq_getElem hlt)
      rw [hi] at this
      cases this
    · rfl
  | case2 i hlt hi ih =>
    have hne : i ≠ j := by
      rintro rfl
      rw [Array.getElem?_eq_getElem hlt, Option.some.injEq] at hn
      exact hi (hn ▸ hreal)
    exact ih (by omega) fun k n hk => hmarks k n (by omega)
  | case3 i hge => omega

namespace Code

open Listing

/-! ## Lists that were encoded without detours -/

namespace Encoding

variable {links : Links} {range : JumpRange} {nodes : List Node} {count : Nat} {e : Encoded}
  {slots : List Slot} (he : Encoding links range nodes count e slots)
  (hnarrow : e.wideFallthroughs = []) {k o : Nat}

include he hnarrow

/-- Without detours the entries that are written down are those of the list. -/
theorem getElem?_spelling {n : Node} : (spelling nodes count slots)[k]? = some (n, o) ↔
    ∃ n' s, Placed nodes slots k n' s o ∧ n = n'.ascending := by
  have hfst := congrArg (·[k]?) (he.map_fst_of_narrow hnarrow)
  have hsnd := congrArg (·[k]?) (he.map_snd_of_narrow hnarrow)
  simp only [he.offsets, List.getElem?_map] at hfst hsnd
  constructor
  · intro hk
    rw [hk] at hfst hsnd
    obtain ⟨n', hn', rfl⟩ := Option.map_eq_some_iff.mp hfst.symm
    obtain ⟨s, o', hplaced⟩ := exists_placed he.settled.length_eq hn'
    obtain rfl := Option.some.inj (hsnd.trans hplaced.offset)
    exact ⟨n', s, hplaced, rfl⟩
  · rintro ⟨n', s, hplaced, rfl⟩
    rw [hplaced.node] at hfst
    rw [hplaced.offset] at hsnd
    obtain ⟨⟨n, o'⟩, hb, rfl⟩ := Option.map_eq_some_iff.mp hfst
    rw [hb] at hsnd
    obtain rfl : o' = o := Option.some.inj hsnd
    exact hb

theorem siteAt_spelling {site : Nat → Nat → Prop} {j : Nat} :
    siteAt (spelling nodes count slots) site k j ↔ ∃ o, StandsAt nodes slots o k ∧ site o j := by
  constructor
  · rintro ⟨⟨n, o⟩, hb, hreal, hj⟩
    obtain ⟨n', s, hplaced, rfl⟩ := (he.getElem?_spelling hnarrow).mp hb
    exact ⟨o, ⟨n', s, hplaced, by rwa [isReal_ascending] at hreal⟩, hj⟩
  · rintro ⟨o, ⟨n, s, hplaced, hreal⟩, hj⟩
    exact ⟨(n.ascending, o), (he.getElem?_spelling hnarrow).mpr ⟨n, s, hplaced, rfl⟩,
      by rwa [isReal_ascending], hj⟩

/-- Without detours every start is that of one instruction of the list. -/
theorem exists_standsAt (ho : o ∈ starts (spelling nodes count slots)) :
    ∃ k, StandsAt nodes slots o k := by
  obtain ⟨⟨o, i⟩, hi, rfl⟩ := List.mem_map.mp ho
  obtain ⟨k, hk⟩ := List.mem_iff_getElem?.mp (mem_reals.mp hi)
  obtain ⟨n, s, hplaced, hn⟩ := (he.getElem?_spelling hnarrow).mp hk
  refine ⟨k, n, s, hplaced, ?_⟩
  rw [← isReal_ascending, ← hn]
  rfl

omit hnarrow in
theorem start_of_standsAt (hk : StandsAt nodes slots o k) :
    o ∈ starts (spelling nodes count slots) := by
  obtain ⟨n, s, hplaced, hreal⟩ := hk
  cases n with
  | label | line => cases hreal
  | instr i => exact (he.mem_starts_placed hplaced).1

end Encoding

theorem Encoding.listed {links : Links} {range : JumpRange} {l : InstrList} {e : Encoded}
    {slots : List Slot} (he : Encoding links range l.nodes.toList l.labelCount e slots)
    (hdoc : Documented links.pool l.nodes.toList) (hnarrow : e.wideFallthroughs = []) :
    Listed l (spelling l.nodes.toList l.labelCount slots) where
  nodes := by
    have hfst := congrArg (List.map Node.ascending) (he.map_fst_of_narrow hnarrow)
    rw [List.map_map, List.map_map] at hfst
    refine Eq.trans (List.map_congr_left fun n _ => ?_) hfst.symm
    cases n with
    | label | line => rfl
    | instr i => exact congrArg Node.instr (ascending_ascending i).symm
  positioned := he.positioned hdoc
  placed lab hlab := by
    have hmem := he.targets lab hlab
    obtain ⟨i, hi⟩ := List.mem_iff_getElem?.mp hmem
    rw [Array.getElem?_toList] at hi
    exact InstrList.exists_position?_of_marker (he.marks lab hmem) hi

/-- A list was encoded without detours. Its handlers are `moved`, and `handlers` are those of them
by offsets that have something in their ranges. -/
structure Laid (links : Links) (l : InstrList) (e : Encoded) (slots : List Slot)
    (handlers moved : List Handler) : Prop where
  encoding : Encoding links .short l.nodes.toList l.labelCount e slots
  documented : Documented links.pool l.nodes.toList
  narrow : e.wideFallthroughs = []
  closed : Closed l.nodes.toList []
  located : l.blocks.mapM (FlowGraph.handler l.labelPositions) = .ok moved
  encoded : ∀ k' ∈ handlers, ∃ k ∈ moved, k.EncodedAs e k'
  among : ∀ k ∈ moved, k.Among (spelling l.nodes.toList l.labelCount slots) handlers

namespace Laid

variable {links : Links} {l : InstrList} {e : Encoded} {slots : List Slot}
  {handlers moved : List Handler} (hl : Laid links l e slots handlers moved) {i k o : Nat}

include hl

/-- At the offset of an instruction, that instruction comes next. -/
theorem nextReal?_eq_some (hi : e.offsets[i]? = some o) (hk : StandsAt l.nodes.toList slots o k) :
    nextReal? l.nodes i = some k := by
  have he := hl.encoding
  obtain ⟨m, t, hfirst⟩ := he.placed_of_offset hi
  obtain ⟨n, s, hplaced, hreal⟩ := hk
  have hwidth := he.width_placed hl.documented hplaced hreal o
  have hik : i ≤ k := by
    by_contra hgt
    have := hplaced.behind hfirst (Nat.lt_of_not_le hgt)
    omega
  refine ClassWeave.nextReal?_of_marks hik ?_ hreal fun j n' hij hjk hn' => ?_
  · rw [← Array.getElem?_toList]
    exact hplaced.node
  · -- an instruction in between would take up room
    rw [← Array.getElem?_toList] at hn'
    obtain ⟨s', o', hbetween⟩ := exists_placed he.settled.length_eq hn'
    by_contra hreal'
    have hwidth' := he.width_placed hl.documented hbetween (by simpa using hreal') o'
    have hlower := hfirst.mono hbetween hij
    have hupper := hbetween.behind hplaced hjk
    omega

end Laid

/-- Two analyses ask for the same room, and where the instructions of their lists have the same
offset, the frames are stored in the same way. -/
structure Mirrored (xs : List Node) (e : Encoded) (slots : List Slot) (a : Analysis)
    (ys : List Node) (e' : Encoded) (slots' : List Slot) (b : Analysis) : Prop where
  stack : b.maxStack = a.maxStack
  locals : b.maxLocals = a.maxLocals
  frames : ∀ {o j k f}, StandsAt xs slots o j → StandsAt ys slots' o k →
    a.frames[j]? = some (some f) → ∃ f', b.frames[k]? = some (some f') ∧
      f.compact.intern (fun i => e.offsets[i]?) = f'.compact.intern fun i => e'.offsets[i]?

section mirrored

variable {links : Links} {x y : InstrList} {e e' : Encoded} {slots slots' : List Slot}
  {handlers moved moved' : List Handler} (hx : Laid links x e slots handlers moved)
  (hy : Laid links y e' slots' handlers moved')
  (hagree : readings (spelling y.nodes.toList y.labelCount slots') =
    readings (spelling x.nodes.toList x.labelCount slots))
  {m : MethodContext} {h : Hierarchy} {a : Analysis} (hh : h.Sound)

include hx hy hagree hh

/-- A list passes its checks if another one does that says the same, and its frames stay below those
of the other one. -/
theorem Laid.below (ha : analyze m x links.pool h .strict = .ok a) :
    ∃ b, analyze m y links.pool h .strict = .ok b ∧ b.maxStack ≤ a.maxStack ∧
      b.maxLocals ≤ a.maxLocals ∧ ∀ {o k f}, StandsAt y.nodes.toList slots' o k →
        b.frames[k]? = some (some f) → ∃ j above, StandsAt x.nodes.toList slots o j ∧
          a.frames[j]? = some (some above) ∧
            Frame.Under h (siteAt (spelling y.nodes.toList y.labelCount slots')
              (StandsAt x.nodes.toList slots)) f above := by
  obtain ⟨g, entry, w, hs⟩ := Analysis.searched_of_analyze ha
  have hclosed : Closed x.nodes.toList e.wideFallthroughs := by
    rw [hx.narrow]
    exact hx.closed
  obtain rfl : moved = g.handlers :=
    Except.ok.inj (hx.located.symm.trans (mapM_eq_ok.mpr hs.handlers))
  obtain ⟨b, hb, hstack, hlocals, hframes⟩ := hs.recheck hh hx.encoding hx.documented hclosed
    (hy.encoding.listed hy.documented hy.narrow) hagree hx.encoded hy.located hy.among
  refine ⟨b, hb, hstack, hlocals, fun {o k f} hk hf => ?_⟩
  obtain ⟨above, habove, hunder⟩ := hframes hf
  obtain ⟨n, o', hns, hroof⟩ := roofAt_eq_some.mp habove
  obtain ⟨n', s', hplaced, -⟩ := (hy.encoding.getElem?_spelling hy.narrow).mp hns
  obtain ⟨n'', s'', hplaced', hreal⟩ := hk
  obtain ⟨-, -, rfl⟩ := hplaced.unique hplaced'
  obtain ⟨j, nj, sj, oj, hj, hknown⟩ := (hx.encoding.roofOf_eq_some hx.documented).mp hroof
  rcases hknown with ⟨hrealj, rfl, hfj⟩ | ⟨hwide, -, -⟩
  · refine ⟨j, above, ⟨nj, sj, hj, hrealj⟩, ?_, hunder⟩
    rw [hs.result]
    exact Work.frame?_eq_some.mp hfj
  · have hnarrow := hx.encoding.isWideCondition_of_narrow hx.narrow (nj, sj)
      (List.mem_of_getElem? (List.getElem?_zip_eq_some.mpr ⟨hj.node, hj.slot⟩))
    rw [hwide] at hnarrow
    cases hnarrow

/-- **Lists that say the same are checked with the same result.** -/
theorem Laid.mirrored (ha : analyze m x links.pool h .strict = .ok a) :
    ∃ b, analyze m y links.pool h .strict = .ok b ∧
      Mirrored x.nodes.toList e slots a y.nodes.toList e' slots' b := by
  obtain ⟨b, hb, hstack, hlocals, hframes⟩ := hx.below hy hagree hh ha
  obtain ⟨a', ha', hstack', hlocals', hframes'⟩ := hy.below hx hagree.symm hh hb
  obtain rfl := Except.ok.inj (ha.symm.trans ha')
  refine ⟨b, hb, Nat.le_antisymm hstack hstack', Nat.le_antisymm hlocals hlocals',
    fun {o j k f} hj hk hf => ?_⟩
  obtain ⟨k', f', hk', hf', hunder'⟩ := hframes' hj hf
  obtain rfl := (hy.encoding.siteMap_standsAt hy.documented).unique hk' hk
  obtain ⟨j', f'', hj', hf'', hunder⟩ := hframes hk hf'
  obtain rfl := (hx.encoding.siteMap_standsAt hx.documented).unique hj' hj
  obtain rfl := Option.some.inj (Option.some.inj (hf''.symm.trans hf))
  refine ⟨f', hf', Frame.intern_compact_eq hh (fun {i i'} hsite => ?_) hunder.covers
    hunder'.covers hunder.sound.closed hunder'.sound.closed⟩
  -- instructions that stand for each other have the same offset
  obtain ⟨o, ⟨n, s, hplaced, -⟩, n', s', hplaced', -⟩ :=
    (hy.encoding.siteAt_spelling hy.narrow).mp hsite
  exact ⟨o, hx.encoding.offset_placed hplaced', hy.encoding.offset_placed hplaced⟩

omit hh in
/-- Instructions of the two lists have the same offsets. -/
theorem Laid.exists_standsAt {o j : Nat} (hj : StandsAt x.nodes.toList slots o j) :
    ∃ k, StandsAt y.nodes.toList slots' o k := by
  refine hy.encoding.exists_standsAt hy.narrow ?_
  rw [← map_fst_readings, hagree, map_fst_readings]
  exact hx.encoding.start_of_standsAt hj

omit hh in
/-- Entries with the same offset have frames that are stored in the same way. -/
theorem Laid.exists_frameAt? {b : Analysis}
    (hm : Mirrored x.nodes.toList e slots a y.nodes.toList e' slots' b) {i i' o : Nat} {f : Frame}
    (hi : e.offsets[i]? = some o) (hi' : e'.offsets[i']? = some o)
    (hf : a.frameAt? x.nodes i = some f) : ∃ f', b.frameAt? y.nodes i' = some f' ∧
      f.compact.intern (fun j => e.offsets[j]?) = f'.compact.intern fun j => e'.offsets[j]? := by
  obtain ⟨j, hj, hframe⟩ := Analysis.frameAt?_eq_some.mp hf
  have hat := hx.encoding.standsAt_of_nextReal? hi hj
  obtain ⟨k, hk⟩ := hx.exists_standsAt hy hagree hat
  obtain ⟨f', hf', hsame⟩ := hm.frames hat hk hframe
  exact ⟨f', Analysis.frameAt?_eq_some.mpr ⟨k, hy.nextReal?_eq_some hi' hk, hf'⟩, hsame⟩

omit hh in
/-- If control comes to all of one list, it comes to all of the other one. -/
theorem Laid.reaches {b : Analysis}
    (hm : Mirrored x.nodes.toList e slots a y.nodes.toList e' slots' b)
    (hall : ∀ {j ins}, x.nodes[j]? = some (.instr ins) → a.Reaches j) {k : Nat} {ins : Instr Label}
    (hk : y.nodes[k]? = some (.instr ins)) : b.Reaches k := by
  rw [← Array.getElem?_toList] at hk
  obtain ⟨s, o, hplaced⟩ := exists_placed hy.encoding.settled.length_eq hk
  have hat : StandsAt y.nodes.toList slots' o k := ⟨_, s, hplaced, rfl⟩
  obtain ⟨j, hj⟩ := hy.exists_standsAt hx hagree.symm hat
  obtain ⟨n, t, hplaced', hreal⟩ := id hj
  obtain ⟨ins', rfl⟩ := Node.exists_instr hreal
  obtain ⟨f, hf⟩ := Option.isSome_iff_exists.mp
    (hall (by rw [← Array.getElem?_toList]; exact hplaced'.node))
  obtain ⟨f', hf', -⟩ := hm.frames hj hat (Option.join_eq_some_iff.mp hf)
  rw [Analysis.Reaches, hf']
  rfl

end mirrored

end Code
end ClassWeave
