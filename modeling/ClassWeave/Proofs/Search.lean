import ClassWeave.Frame.Analysis
import ClassWeave.Proofs.StepOrder

/-!
# What the search for frames keeps up

The search looks at one entry after the other. `Work.Invariant` is what holds between two looks,
whatever their order: an entry with a frame waits to be looked at, or its frame agrees with
those of all entries that it hands something on to. When nothing waits any more, all frames
agree, and that is all that the users of an analysis need.

Which frames can come up at an entry depends on the user, and so does when a frame agrees with one
that is handed on; `Work.Good` and `Work.Bounds` say what has to be known about the two.
-/

namespace ClassWeave
namespace Work

variable {g : FlowGraph} {w w' : Work}

/-- The frame of an entry. -/
def frame? (w : Work) (i : Nat) : Option Frame := w.frames[i]?.join

theorem frame?_eq_some {i : Nat} {f : Frame} :
    w.frame? i = some f ↔ w.frames[i]? = some (some f) := by
  simp [frame?, Option.join_eq_some_iff]

/-- The entry waits to be looked at. -/
def Waits (w : Work) (i : Nat) : Prop := w.queued[i]? = some true

/-- What has to be known about frames that come up at an entry: those that come of them come up,
too. -/
structure Good (g : FlowGraph) (good : Nat → Frame → Prop) : Prop where
  edges : ∀ {i f n after es}, good i f → g.program.nodes[i]? = some n →
    g.edges i n f = .ok (after, es) → ∀ e ∈ es, good e.1 e.2
  merge : ∀ {i f f' r}, good i f → good i f' →
    f.merge g.program.hierarchy g.program.mode f' = .ok r → good i (r.getD f)

/-- What has to be known about when a frame covers another one: merging two frames gives one that
covers both. -/
structure Bounds (g : FlowGraph) (good : Nat → Frame → Prop) (cov : Frame → Frame → Prop) :
    Prop where
  refl : ∀ f, cov f f
  trans : ∀ {f f' f''}, cov f f' → cov f' f'' → cov f f''
  merge : ∀ {i f f' r}, good i f → good i f' →
    f.merge g.program.hierarchy g.program.mode f' = .ok r → cov (r.getD f) f ∧ cov (r.getD f) f'

/-- Frames whose wide values are whole are covered slot by slot. -/
theorem bounds_covers {good : Nat → Frame → Prop} (hl : g.program.hierarchy.Lawful)
    (hclosed : ∀ {i f}, good i f → Frame.Closed f.locals) :
    Bounds g good (Frame.Covers g.program.hierarchy (· = ·)) where
  refl := Frame.covers_refl
  trans := Frame.Covers.trans hl
  merge hf hf' hm :=
    have hmerged := Frame.merge_merged (hclosed hf) (hclosed hf') hm
    ⟨hmerged.covers_left hl, hmerged.covers_right hl⟩

variable {good : Nat → Frame → Prop} {cov : Frame → Frame → Prop}

/-- The second state knows at least what the first one knows. -/
structure Rises (cov : Frame → Frame → Prop) (w w' : Work) : Prop where
  frames : ∀ {i f}, w.frame? i = some f → ∃ f', w'.frame? i = some f' ∧ cov f' f
  stack : w.maxStack ≤ w'.maxStack
  locals : w.maxLocals ≤ w'.maxLocals

theorem Rises.refl (hb : Bounds g good cov) (w : Work) : Rises cov w w where
  frames hf := ⟨_, hf, hb.refl _⟩
  stack := Nat.le_refl _
  locals := Nat.le_refl _

theorem Rises.trans (hb : Bounds g good cov) {w'' : Work} (h1 : Rises cov w w')
    (h2 : Rises cov w' w'') : Rises cov w w'' where
  frames hf := by
    obtain ⟨f', hf', hc⟩ := h1.frames hf
    obtain ⟨f'', hf'', hc'⟩ := h2.frames hf'
    exact ⟨f'', hf'', hb.trans hc' hc⟩
  stack := Nat.le_trans h1.stack h2.stack
  locals := Nat.le_trans h1.locals h2.locals

/-- The second state knows at least what the first one knows; frames that changed wait. -/
structure Grows (cov : Frame → Frame → Prop) (w w' : Work) : Prop extends Rises cov w w' where
  changed : ∀ {i f}, w'.frame? i = some f → w.frame? i = some f ∨ w'.Waits i
  waits : ∀ {i}, w.Waits i → w'.Waits i

theorem Grows.refl (hb : Bounds g good cov) (w : Work) : Grows cov w w where
  toRises := .refl hb w
  changed hf := .inl hf
  waits hw := hw

theorem Grows.trans (hb : Bounds g good cov) {w'' : Work} (h1 : Grows cov w w')
    (h2 : Grows cov w' w'') : Grows cov w w'' where
  toRises := h1.toRises.trans hb h2.toRises
  changed hf := by
    rcases h2.changed hf with hf | hw
    · rcases h1.changed hf with hf | hw
      · exact .inl hf
      · exact .inr (h2.waits hw)
    · exact .inr hw
  waits hw := h2.waits (h1.waits hw)

/-- An edge has been followed: the frame that it leads to covers the one handed on. -/
def Followed (cov : Frame → Frame → Prop) (w : Work) (e : Nat × Frame) : Prop :=
  ∃ f, w.frame? e.1 = some f ∧ cov f e.2

theorem Followed.grows (hb : Bounds g good cov) {e : Nat × Frame} (he : Followed cov w e)
    (hw : Grows cov w w') : Followed cov w' e := by
  obtain ⟨f, hf, hc⟩ := he
  obtain ⟨f', hf', hc'⟩ := hw.frames hf
  exact ⟨f', hf', hb.trans hc' hc⟩

/-- The frame of an entry agrees with the frames of all entries that it hands something on to. -/
structure Settles (g : FlowGraph) (cov : Frame → Frame → Prop) (w : Work) (i : Nat) (f : Frame) : Prop where
  node : i < g.program.nodes.size
  edges : ∀ {n}, g.program.nodes[i]? = some n → ∃ after es, g.edges i n f = .ok (after, es) ∧
    (∀ e ∈ es, Followed cov w e) ∧
    f.depth ≤ w.maxStack ∧ after.depth ≤ w.maxStack ∧
    f.locals.length ≤ w.maxLocals ∧ after.locals.length ≤ w.maxLocals

theorem Settles.grows (hb : Bounds g good cov) {i : Nat} {f : Frame}
    (hs : Settles g cov w i f) (hw : Grows cov w w') : Settles g cov w' i f where
  node := hs.node
  edges hn := by
    obtain ⟨after, es, he, hall, h1, h2, h3, h4⟩ := hs.edges hn
    exact ⟨after, es, he, fun e hmem => (hall e hmem).grows hb hw, Nat.le_trans h1 hw.stack,
      Nat.le_trans h2 hw.stack, Nat.le_trans h3 hw.locals, Nat.le_trans h4 hw.locals⟩

/-- What holds between two looks. -/
structure Invariant (g : FlowGraph) (good : Nat → Frame → Prop) (cov : Frame → Frame → Prop)
    (w : Work) : Prop where
  frames : w.frames.size = g.program.nodes.size
  queued : w.queued.size = g.program.nodes.size
  pending : ∀ {i}, w.Waits i → i ∈ w.pending
  good : ∀ {i f}, w.frame? i = some f → good i f
  settled : ∀ {i f}, w.frame? i = some f → w.Waits i ∨ Settles g cov w i f

/-! ## Following one edge -/

theorem frame?_lt (hw : w.frames.size = g.program.nodes.size) {i : Nat} {f : Frame}
    (hf : w.frame? i = some f) : i < g.program.nodes.size := by
  rw [frame?_eq_some] at hf
  obtain ⟨hlt, _⟩ := Array.getElem?_eq_some_iff.mp hf
  omega

theorem update_eq (i : Nat) (f : Frame) : w.update i f =
    if w.queued.getD i false = true then { w with frames := w.frames.setIfInBounds i (some f) }
    else { w with
      frames := w.frames.setIfInBounds i (some f)
      queued := w.queued.setIfInBounds i true
      pending := i :: w.pending } := rfl

theorem getD_queued {i : Nat} (hi : i < w.queued.size) :
    w.queued.getD i false = true ↔ w.Waits i := by
  rw [Waits, Array.getD_eq_getD_getElem?, Array.getElem?_eq_getElem hi, Option.getD_some,
    Option.some.injEq]

theorem frame?_update {i : Nat} (hi : i < w.frames.size) (f : Frame) (j : Nat) :
    (w.update i f).frame? j = if j = i then some f else w.frame? j := by
  have hframes : (w.update i f).frames = w.frames.setIfInBounds i (some f) := by
    rw [update_eq]
    by_cases hq : w.queued.getD i false = true
    · rw [if_pos hq]
    · rw [if_neg hq]
  rw [frame?, hframes, Array.getElem?_setIfInBounds]
  by_cases hj : j = i
  · subst hj
    simp [hi]
  · rw [if_neg (fun h => hj h.symm), if_neg hj]
    rfl

theorem waits_update {i : Nat} (hi : i < w.queued.size) (f : Frame) (j : Nat) :
    (w.update i f).Waits j ↔ j = i ∨ w.Waits j := by
  rw [update_eq]
  by_cases hq : w.queued.getD i false = true
  · rw [if_pos hq]
    refine ⟨.inr, ?_⟩
    rintro (rfl | hw)
    · exact (getD_queued hi).mp hq
    · exact hw
  · rw [if_neg hq]
    simp only [Waits, Array.getElem?_setIfInBounds]
    by_cases hj : j = i
    · subst hj
      simp [hi]
    · rw [if_neg (fun h => hj h.symm)]
      simp [hj]

theorem update_sizes (i : Nat) (f : Frame) : (w.update i f).frames.size = w.frames.size ∧
    (w.update i f).queued.size = w.queued.size ∧ (w.update i f).maxStack = w.maxStack ∧
    (w.update i f).maxLocals = w.maxLocals := by
  rw [update_eq]
  by_cases hq : w.queued.getD i false = true
  · rw [if_pos hq]
    simp
  · rw [if_neg hq]
    simp

theorem pending_update {i : Nat} (f : Frame) {j : Nat} (hi : i < w.queued.size)
    (hp : ∀ {k}, w.Waits k → k ∈ w.pending) (hj : (w.update i f).Waits j) :
    j ∈ (w.update i f).pending := by
  have hcase := (waits_update hi f j).mp hj
  rw [update_eq]
  by_cases hq : w.queued.getD i false = true
  · rw [if_pos hq]
    rcases hcase with rfl | hw
    · exact hp ((getD_queued hi).mp hq)
    · exact hp hw
  · rw [if_neg hq]
    rcases hcase with rfl | hw
    · exact List.mem_cons_self
    · exact List.mem_cons_of_mem _ (hp hw)

/-- Giving an entry a frame that covers the one it has, if it has one. -/
theorem grows_update (hb : Bounds g good cov) {i : Nat} {f : Frame} (hi : i < w.frames.size)
    (hq : w.queued.size = w.frames.size)
    (hf : ∀ f', w.frame? i = some f' → cov f f') :
    Grows cov w (w.update i f) where
  frames := by
    intro j f' hj
    rw [frame?_update hi]
    by_cases hji : j = i
    · subst hji
      exact ⟨f, if_pos rfl, hf f' hj⟩
    · exact ⟨f', by rw [if_neg hji, hj], hb.refl f'⟩
  changed := by
    intro j f' hj
    rw [frame?_update hi] at hj
    by_cases hji : j = i
    · exact .inr ((waits_update (by omega) f j).mpr (.inl hji))
    · rw [if_neg hji] at hj
      exact .inl hj
  waits hw := (waits_update (by omega) f _).mpr (.inr hw)
  stack := Nat.le_of_eq (update_sizes i f).2.2.1.symm
  locals := Nat.le_of_eq (update_sizes i f).2.2.2.symm

/-- What is kept while the edges of one entry are followed. -/
structure Following (g : FlowGraph) (good : Nat → Frame → Prop) (w : Work) : Prop where
  frames : w.frames.size = g.program.nodes.size
  queued : w.queued.size = g.program.nodes.size
  pending : ∀ {i}, w.Waits i → i ∈ w.pending
  good : ∀ {i f}, w.frame? i = some f → good i f

theorem follow_spec (hb : Bounds g good cov) (hg : Good g good) {source : Nat}
    {e : Nat × Frame} (hw : Following g good w) (he : good e.1 e.2)
    (hok : follow g source w e = .ok w') :
    Following g good w' ∧ Grows cov w w' ∧
      Followed cov w' e := by
  have updated : ∀ {m : Frame}, e.1 < w.frames.size → good e.1 m →
      (∀ f, w.frame? e.1 = some f → cov m f) →
      cov m e.2 →
      Following g good (w.update e.1 m) ∧ Grows cov w (w.update e.1 m) ∧
        Followed cov (w.update e.1 m) e := by
    intro m hlt hm hold hnew
    have hq : w.queued.size = w.frames.size := hw.queued.trans hw.frames.symm
    refine ⟨⟨?_, ?_, ?_, ?_⟩, grows_update hb hlt hq hold, ⟨m, ?_, hnew⟩⟩
    · rw [(update_sizes e.1 m).1, hw.frames]
    · rw [(update_sizes e.1 m).2.1, hw.queued]
    · exact fun hwait => pending_update m (by omega) hw.pending hwait
    · intro i f hf
      rw [frame?_update hlt] at hf
      by_cases hi : i = e.1
      · rw [if_pos hi, Option.some.injEq] at hf
        exact hf ▸ hi ▸ hm
      · rw [if_neg hi] at hf
        exact hw.good hf
    · rw [frame?_update hlt, if_pos rfl]
  unfold follow at hok
  split at hok
  · cases hok
  · -- the entry has no frame yet
    rename_i hnone
    rw [Except.ok.injEq] at hok
    subst hok
    obtain ⟨hlt, _⟩ := Array.getElem?_eq_some_iff.mp hnone
    refine updated hlt he ?_ (hb.refl _)
    intro f hf
    rw [frame?_eq_some, hnone] at hf
    cases hf
  · rename_i f hsome
    have hf : w.frame? e.1 = some f := frame?_eq_some.mpr hsome
    obtain ⟨hlt, _⟩ := Array.getElem?_eq_some_iff.mp hsome
    have hgf := hw.good hf
    split at hok
    · cases hok
    · -- the frame covers what is handed on
      rename_i hm
      rw [Except.ok.injEq] at hok
      subst hok
      exact ⟨hw, .refl hb _, f, hf, (hb.merge hgf he hm).2⟩
    · rename_i m hm
      rw [Except.ok.injEq] at hok
      subst hok
      have hmerged := hb.merge hgf he hm
      refine updated hlt (hg.merge hgf he hm) ?_ hmerged.2
      intro f' hf'
      rw [hf, Option.some.injEq] at hf'
      exact hf' ▸ hmerged.1

theorem follow_all (hb : Bounds g good cov) (hg : Good g good) {source : Nat}
    {es : List (Nat × Frame)} (hw : Following g good w) (hes : ∀ e ∈ es, good e.1 e.2)
    (hok : es.foldlM (follow g source) w = .ok w') :
    Following g good w' ∧ Grows cov w w' ∧
      ∀ e ∈ es, Followed cov w' e := by
  induction es generalizing w with
  | nil =>
    rw [List.foldlM_nil, pure_eq_ok] at hok
    subst hok
    exact ⟨hw, .refl hb _, by simp⟩
  | cons e es ih =>
    rw [List.foldlM_cons] at hok
    obtain ⟨w1, h1, h2⟩ := bind_eq_ok.mp hok
    obtain ⟨hf1, hg1, he1⟩ := follow_spec hb hg hw (hes e List.mem_cons_self) h1
    obtain ⟨hf2, hg2, he2⟩ := ih hf1 (fun e' he' => hes e' (List.mem_cons_of_mem _ he')) h2
    refine ⟨hf2, hg1.trans hb hg2, ?_⟩
    intro e' he'
    rcases List.mem_cons.mp he' with rfl | he'
    · exact he1.grows hb hg2
    · exact he2 e' he'

/-! ## One look -/

theorem visit_spec (hb : Bounds g good cov) (hg : Good g good) {i : Nat}
    {rest : List Nat} (hw : Invariant g good cov w) (hrest : ∀ j ∈ w.pending, j ≠ i → j ∈ rest)
    (hok : visit g { w with pending := rest } i = .ok w') :
    Invariant g good cov w' ∧ Rises cov w w' := by
  -- the state once the entry no longer waits
  let w0 : Work := { w with pending := rest, queued := w.queued.setIfInBounds i false }
  have hwaits : ∀ j, w0.Waits j ↔ j ≠ i ∧ w.Waits j := by
    intro j
    show (w.queued.setIfInBounds i false)[j]? = some true ↔ _
    rw [Array.getElem?_setIfInBounds]
    by_cases hj : j = i
    · subst hj
      simp only [↓reduceIte]
      split <;> simp
    · rw [if_neg (fun h => hj h.symm)]
      exact ⟨fun h => ⟨hj, h⟩, fun h => h.2⟩
  have hfollow : Following g good w0 := by
    refine ⟨hw.frames, by simpa [w0] using hw.queued, ?_, hw.good⟩
    intro j hj
    obtain ⟨hne, hj⟩ := (hwaits j).mp hj
    exact hrest j (hw.pending hj) hne
  -- entries that were not looked at stay as they are
  have others : ∀ w2 : Work, Grows cov w0 w2 → ∀ {j f}, j ≠ i →
      w2.frame? j = some f → w2.Waits j ∨ Settles g cov w2 j f := by
    intro w2 hgrow j f hj hf
    rcases hgrow.changed hf with hold | hwait
    · rcases hw.settled hold with hwait | hs
      · exact .inl (hgrow.waits ((hwaits j).mpr ⟨hj, hwait⟩))
      · have hs0 : Settles g cov w0 j f :=
          ⟨hs.node, fun hn => hs.edges hn⟩
        exact .inr (hs0.grows hb hgrow)
    · exact .inl hwait
  unfold visit at hok
  simp only at hok
  split at hok
  · rename_i f n hf hn
    have hf : w.frame? i = some f := hf
    obtain ⟨⟨after, es⟩, hedges, hfold⟩ := bind_eq_ok.mp hok
    have hes := hg.edges (hw.good hf) hn hedges
    have hcover : Grows cov w0 ((w0.cover f).cover after) := by
      refine ⟨⟨fun h => ⟨_, h, hb.refl _⟩, ?_, ?_⟩, .inl, id⟩
      · exact Nat.le_trans (Nat.le_max_left _ _) (Nat.le_max_left _ _)
      · exact Nat.le_trans (Nat.le_max_left _ _) (Nat.le_max_left _ _)
    have hfollow1 : Following g good ((w0.cover f).cover after) :=
      ⟨hfollow.frames, hfollow.queued, hfollow.pending, hfollow.good⟩
    obtain ⟨hf2, hg2, he2⟩ := follow_all hb hg hfollow1 hes hfold
    have hgrow := hcover.trans hb hg2
    refine ⟨⟨hf2.frames, hf2.queued, hf2.pending, hf2.good, ?_⟩,
      ⟨hgrow.frames, hgrow.stack, hgrow.locals⟩⟩
    intro j f' hj
    by_cases hji : j = i
    · subst hji
      rcases hg2.changed hj with hold | hwait
      · right
        have : f' = f := Option.some.inj (hold.symm.trans hf)
        subst this
        refine ⟨frame?_lt hw.frames hf, fun hn' => ?_⟩
        rw [hn, Option.some.injEq] at hn'
        subst hn'
        have hs := hg2.stack
        have hlo := hg2.locals
        simp only [cover] at hs hlo
        exact ⟨after, es, hedges, he2, by omega, by omega, by omega, by omega⟩
      · exact .inl hwait
    · exact others w' hgrow hji hj
  · -- an entry without a frame is passed over
    rename_i hnone
    rw [Except.ok.injEq] at hok
    subst hok
    refine ⟨⟨hfollow.frames, hfollow.queued, hfollow.pending, hfollow.good, ?_⟩,
      ⟨fun h => ⟨_, h, hb.refl _⟩, Nat.le_refl _, Nat.le_refl _⟩⟩
    intro j f hj
    by_cases hji : j = i
    · subst hji
      have hlt := frame?_lt hw.frames hj
      exact absurd (Array.getElem?_eq_getElem hlt) (hnone f _ hj)
    · exact others _ (.refl hb _) hji hj

/-! ## The whole search -/

theorem run_of_pending_nil (hp : w.pending = []) : run g w = some (.ok w) := by
  rw [run, hp]

theorem run_of_visit {i : Nat} {rest : List Nat} (hp : w.pending = i :: rest)
    (hv : visit g { w with pending := rest } i = .ok w') : run g w = run g w' := by
  rw [run, hp]
  simp only [hv]

/-- A look at any one of the entries that wait leads from the first state to the second. -/
def Turn (g : FlowGraph) (w w' : Work) : Prop :=
  ∃ i ∈ w.pending, visit g { w with pending := w.pending.erase i } i = .ok w'

/-- Looks at entries that wait, in any order, lead from the first state to the second. -/
def Turns (g : FlowGraph) : Work → Work → Prop := Relation.ReflTransGen (Turn g)

theorem Turn.spec (hb : Bounds g good cov) (hg : Good g good) (hw : Invariant g good cov w)
    (ht : Turn g w w') : Invariant g good cov w' ∧ Rises cov w w' := by
  obtain ⟨i, -, hok⟩ := ht
  exact visit_spec hb hg hw (fun j hj hne => (List.mem_erase_of_ne hne).mpr hj) hok

theorem Turns.spec (hb : Bounds g good cov) (hg : Good g good) (hw : Invariant g good cov w)
    (ht : Turns g w w') : Invariant g good cov w' ∧ Rises cov w w' := by
  induction ht with
  | refl => exact ⟨hw, .refl hb w⟩
  | tail _ ht ih =>
    obtain ⟨hw1, hrises1⟩ := ih
    obtain ⟨hw2, hrises2⟩ := ht.spec hb hg hw1
    exact ⟨hw2, hrises1.trans hb hrises2⟩

/-- The search itself looks at the latest entry first. -/
theorem turns_of_run : ∀ (w : Work) (r : ClassResult Work), run g w = some r →
    ∀ w', r = .ok w' → Turns g w w' ∧ w'.pending = [] := by
  refine run.partial_correctness g _ ?_
  intro run ih w r hrun w' hr
  split at hrun
  · rename_i hnil
    rw [Option.some.injEq] at hrun
    obtain rfl : w = w' := Except.ok.inj (hrun.trans hr)
    exact ⟨.refl, hnil⟩
  · rename_i i rest hp
    split at hrun
    · rw [Option.some.injEq] at hrun
      cases hrun.trans hr
    · rename_i w1 hvisit
      have hturn : Turn g w w1 := by
        refine ⟨i, by rw [hp]; exact List.mem_cons_self, ?_⟩
        rwa [hp, List.erase_cons_head]
      obtain ⟨hturns, hnil⟩ := ih w1 r hrun w' hr
      exact ⟨.head hturn hturns, hnil⟩

/-- At the start only the first entry has a frame. -/
theorem frame?_start {count i : Nat} {entry f : Frame} (hf : (start count entry).frame? i = some f) :
    i = 0 ∧ f = entry := by
  rw [frame?_eq_some] at hf
  simp only [start, Array.getElem?_setIfInBounds] at hf
  by_cases h0 : 0 = i
  · rw [if_pos h0] at hf
    split at hf
    · exact ⟨h0.symm, (Option.some.inj (Option.some.inj hf)).symm⟩
    · cases hf
  · rw [if_neg h0, Array.getElem?_replicate] at hf
    split at hf <;> cases hf

theorem invariant_start {entry : Frame} (hpos : 0 < g.program.nodes.size) (hentry : good 0 entry) :
    Invariant g good cov (.start g.program.nodes.size entry) where
  frames := by simp [start]
  queued := by simp [start]
  pending := by
    intro i hi
    simp only [Waits, start, Array.getElem?_setIfInBounds] at hi
    by_cases h0 : 0 = i
    · exact h0 ▸ List.mem_singleton.mpr rfl
    · rw [if_neg h0, Array.getElem?_replicate] at hi
      split at hi <;> cases hi
  good := by
    intro i f hf
    obtain ⟨rfl, rfl⟩ := frame?_start hf
    exact hentry
  settled := by
    intro i f hf
    obtain ⟨rfl, rfl⟩ := frame?_start hf
    left
    simp [Waits, start, hpos]

/-- In some order of the looks, the search ends in this state. -/
structure Ends (g : FlowGraph) (entry : Frame) (w : Work) : Prop where
  turns : Turns g (.start g.program.nodes.size entry) w
  done : w.pending = []

/-- The search itself is one of the orders. -/
theorem ends_of_run {entry : Frame}
    (hrun : run g (.start g.program.nodes.size entry) = some (.ok w)) : Ends g entry w := by
  obtain ⟨hturns, hnil⟩ := turns_of_run _ _ hrun w rfl
  exact ⟨hturns, hnil⟩

/-- When the search is over, all frames agree. -/
theorem Ends.settles (hb : Bounds g good cov) (hg : Good g good) {entry : Frame}
    (hpos : 0 < g.program.nodes.size) (hentry : good 0 entry) (hw : Ends g entry w) :
    Followed cov w (0, entry) ∧ entry.locals.length ≤ w.maxLocals ∧
      ∀ {i f}, w.frame? i = some f → good i f ∧ Settles g cov w i f := by
  obtain ⟨hinv, hrises⟩ := hw.turns.spec hb hg (invariant_start hpos hentry)
  refine ⟨hrises.frames ?_, hrises.locals, fun {i f} hf => ⟨hinv.good hf, ?_⟩⟩
  · simp [frame?, start, hpos]
  · rcases hinv.settled hf with hwait | hs
    · have := hinv.pending hwait
      rw [hw.done] at this
      cases this
    · exact hs

end Work
end ClassWeave
