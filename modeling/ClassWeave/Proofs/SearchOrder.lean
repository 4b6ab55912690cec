import ClassWeave.Proofs.Ceilings
import ClassWeave.Proofs.ControlFlow

/-!
# The order of the search

The search for frames takes the entries that wait in some order, and in checked code the order does
not matter. If one order comes to an end, its frames are a ceiling for all that any other order
finds on its way, so no other order can fail, and every order ends after finitely many looks. Two
orders that are at their ends are ceilings for each other: they agree on the room that they ask for
and on every frame, up to slots at the end of the locals that cannot be used.

The frames that all orders end with are the least ones that the code hands nothing new on from.
-/

namespace ClassWeave

/-! ## Frames that take nothing up -/

namespace Frame

variable {h : Hierarchy} {f g : Frame}

/-- The frames differ in nothing that can be used: at most in slots at the end of the locals. -/
structure Alike (f g : Frame) : Prop where
  stack : f.stack = g.stack
  locals : ∀ k, slot f.locals k = slot g.locals k

/-- Frames that cover each other are alike. -/
theorem Covers.antisymm (hh : h.Sound) (hgf : Covers h (· = ·) g f) (hfg : Covers h (· = ·) f g) :
    Alike g f where
  stack := by
    have hgf := List.forall₂_iff_get.mp hgf.stack
    have hfg := List.forall₂_iff_get.mp hfg.stack
    refine List.ext_getElem hgf.1 fun i hi hi' => ?_
    exact VType.Covers.antisymm hh (hgf.2 i hi hi') (hfg.2 i hi' hi)
  locals k := VType.Covers.antisymm hh (hgf.locals k) (hfg.locals k)

/-- Where the second frame meets the first one in checked code, the first one stays as it is. -/
def Keeps (h : Hierarchy) (g f : Frame) : Prop := g.merge h .strict f = .ok none

theorem Keeps.merged (hk : g.Keeps h f) : g.stack.length = f.stack.length ∧
    mergeStacks h .strict g.stack f.stack = .ok g.stack ∧
    mergeLocals h g.locals f.locals = trim g.locals := by
  obtain ⟨hlen, stack, hstack, hr⟩ := merge_eq_ok hk
  split at hr
  · rename_i hsame
    exact ⟨hlen, hsame.1 ▸ hstack, hsame.2⟩
  · cases hr

/-- A frame that takes up nothing of a whole one is whole: a wide value that had lost its second
half would be given up, and so would a value that cannot be used. -/
theorem Keeps.sound (hk : g.Keeps h f) (hf : f.Sound) : g.Sound := by
  obtain ⟨hlen, hstack, hlocals⟩ := hk.merged
  constructor
  · intro k hw
    -- the value is still there once the locals have met, so the slot behind it was in place
    have hkept : ∀ k, slot (repairWide (List.zipWith h.mergeTypes g.locals f.locals)) k =
        slot g.locals k := fun k => by
      rw [← slot_trim g.locals, ← hlocals, mergeLocals, slot_trim]
    have hlt : k < (repairWide (List.zipWith h.mergeTypes g.locals f.locals)).length :=
      lt_length_of_slot (by
        rw [hkept]
        rintro htop
        rw [htop] at hw
        cases hw)
    have hrepair := getElem?_repairWide (List.zipWith h.mergeTypes g.locals f.locals) k
    rw [getElem?_of_slot hlt, hkept] at hrepair
    obtain ⟨t, -, ht⟩ := Option.map_eq_some_iff.mp hrepair.symm
    split at ht
    · rw [← ht] at hw
      cases hw
    · rename_i hwhole
      have hnext : (List.zipWith h.mergeTypes g.locals f.locals)[k + 1]? = some .top := by
        by_contra hbad
        exact hwhole ⟨ht ▸ hw, hbad⟩
      refine ⟨?_, ?_⟩
      · obtain ⟨hlt', -⟩ := List.getElem?_eq_some_iff.mp hnext
        rw [List.length_zipWith] at hlt'
        omega
      · have hrepair' := getElem?_repairWide (List.zipWith h.mergeTypes g.locals f.locals) (k + 1)
        rw [hnext, Option.map_some, if_neg (by simp [VType.isWide])] at hrepair'
        rw [← hkept, slot_eq_of_getElem? hrepair']
  · intro htop
    obtain ⟨i, hi, htop⟩ := List.getElem_of_mem htop
    obtain ⟨-, hget⟩ := List.forall₂_iff_get.mp (mergeStacks_eq_ok.mp hstack)
    have hmerged := hget i (by simp; omega) hi
    simp only [List.get_eq_getElem, List.getElem_zip, htop] at hmerged
    unfold Hierarchy.mergeEntries at hmerged
    rw [VType.mergeTypes_top_left] at hmerged
    simp only [true_and, true_or, and_true, ne_eq, ite_not] at hmerged
    split at hmerged
    · rename_i heq
      exact hf.usable (heq ▸ List.getElem_mem _)
    · cases hmerged

theorem ext_slot {a b : List NamedType} (hlen : a.length = b.length)
    (hslots : ∀ k, slot a k = slot b k) : a = b := by
  refine List.ext_getElem hlen fun k hk hk' => ?_
  have hget := getElem?_of_slot hk
  rw [hslots, ← getElem?_of_slot hk', List.getElem?_eq_getElem hk, List.getElem?_eq_getElem hk']
    at hget
  exact Option.some.inj hget

/-- Whole locals with the same slots are the same but for slots at the end that cannot be used. -/
theorem trim_eq_of_slots {a b : List NamedType} (ha : Closed a) (hb : Closed b)
    (hslots : ∀ k, slot a k = slot b k) : trim a = trim b := by
  have hlast : ∀ {a : List NamedType}, Closed a → ∀ t, a.getLast? = some t → ¬ t.isWide := by
    intro a ha t ht hw
    rw [List.getLast?_eq_getElem?] at ht
    obtain ⟨hlt, -⟩ := ha (a.length - 1) (slot_eq_of_getElem? ht ▸ hw)
    omega
  have hshort : ∀ {a b : List NamedType}, Closed a → (∀ k, slot a k = slot b k) →
      a.length ≤ b.length → trim a = trim b := by
    intro a b ha hslots hle
    have hb : a ++ List.replicate (b.length - a.length) .top = b := by
      refine ext_slot (by simp; omega) fun k => ?_
      rw [slot_append_top, hslots]
    rw [← hb, trim_append_tops (hlast ha)]
  by_cases hle : a.length ≤ b.length
  · exact hshort ha hslots hle
  · exact (hshort hb (fun k => (hslots k).symm) (by omega)).symm

/-- Where whole frames meet, the first one stays as it is if it covers the other one, and only then. -/
theorem merge_eq_none_iff (hl : h.Lawful) (hg : Closed g.locals) (hf : Closed f.locals)
    {r : Option Frame} (hm : g.merge h mode f = .ok r) : r = none ↔ Covers h (· = ·) g f := by
  constructor
  · rintro rfl
    exact (merge_merged hg hf hm).covers_right hl
  · intro hc
    obtain ⟨hlen, stack, hstack, hsome⟩ := merge_eq_ok hm
    have hsame : stack = g.stack := by
      rw [mergeStacks_eq_zipWith hstack]
      refine List.ext_getElem (by simp; omega) fun i hi hi' => ?_
      rw [List.getElem_zipWith]
      exact VType.covers_iff.mp ((List.forall₂_iff_get.mp hc.stack).2 i hi' (by omega))
    have hslots : ∀ k, slot (List.zipWith h.mergeTypes g.locals f.locals) k = slot g.locals k :=
      fun k => by rw [slot_zipWith_mergeTypes, VType.covers_iff.mp (hc.locals k)]
    rw [mergeLocals_eq hg hf, trim_eq_of_slots (closed_zipWith_mergeTypes hg hf) hg hslots] at hsome
    rw [hsome, if_pos ⟨hsame, rfl⟩]

/-- **Taking nothing up is to cover**, where frames are whole. -/
theorem keeps_iff (hl : h.Lawful) (hf : f.Sound) :
    g.Keeps h f ↔ g.Sound ∧ Covers h (· = ·) g f := by
  constructor
  · intro hk
    have hg := hk.sound hf
    exact ⟨hg, (merge_eq_none_iff hl hg.closed hf.closed hk).mp rfl⟩
  · rintro ⟨hg, hc⟩
    obtain ⟨r, hr⟩ : ∃ r, g.merge h .strict f = .ok r :=
      merge_of_covers hl VType.siteMap_eq hg.usable (covers_refl g) hc
    rw [Keeps, hr, (merge_eq_none_iff hl hg.closed hf.closed hr).mpr hc]

end Frame

/-! ## Frames that the code hands nothing new on from -/

namespace FlowGraph

/-- Frames that are closed under what every entry hands on: where the frame of an entry leads, an
entry has a frame that stays as it is. -/
structure Stable (g : FlowGraph) (entry : Frame) (F : Nat → Option Frame) : Prop where
  first : ∃ f, F 0 = some f ∧ f.Keeps g.program.hierarchy entry
  edges : ∀ {i f}, F i = some f → ∃ n after es, g.program.nodes[i]? = some n ∧
    g.edges i n f = .ok (after, es) ∧
    ∀ e ∈ es, ∃ f', F e.1 = some f' ∧ f'.Keeps g.program.hierarchy e.2

variable {g : FlowGraph} {entry : Frame} {F : Nat → Option Frame}

/-- **What an entry hands on is monotone**: from a frame below another one, every edge leads to
where one leads from the other one, with a frame below that one's. -/
theorem edges_under (hstrict : g.program.mode = .strict) (hcaught : g.HandlersSound) {i : Nat}
    {n : Node} {f above after after' : Frame} {es es' : List (Nat × Frame)}
    (hunder : Frame.Under g.program.hierarchy (· = ·) f above)
    (habove : g.edges i n above = .ok (after, es)) (hf : g.edges i n f = .ok (after', es')) :
    ∀ e' ∈ es', ∃ e ∈ es, e.1 = e'.1 ∧ Frame.Under g.program.hierarchy (· = ·) e'.2 e.2 := by
  intro e' he'
  by_cases hreal : n.isReal
  · obtain ⟨ins, rfl⟩ := Node.exists_instr hreal
    obtain ⟨hstep, -⟩ := edges_instr habove
    obtain ⟨hstep', -⟩ := edges_instr hf
    obtain ⟨after'', hrun, ha⟩ :=
      Program.step_under (Program.follows_self hstrict) (fun _ _ => rfl) hunder hstep
    obtain rfl := Except.ok.inj (hstep'.symm.trans hrun)
    -- a handler gets the locals, and nothing but the exception
    have hraised : ∀ {k : Handler} {u v : Frame}, k ∈ g.handlers →
        Frame.Under g.program.hierarchy (· = ·) u v →
        Frame.Under g.program.hierarchy (· = ·) ⟨u.locals, [k.catchType]⟩
          ⟨v.locals, [k.catchType]⟩ := by
      intro k u v hk huv
      refine ⟨⟨.cons (VType.covers_refl _) .nil, huv.covers.locals⟩, ⟨huv.sound.closed, ?_⟩,
        huv.closed⟩
      rw [List.mem_singleton]
      exact (hcaught k hk).symm
    simp only [mem_edges habove]
    cases (mem_edges hf).mp he' with
    | pass hmark => cases hmark
    | raise hk hstart hstop hcase =>
      rcases hcase with rfl | rfl
      · exact ⟨_, .raise hk hstart hstop (.inl rfl), rfl, hraised hk hunder⟩
      · exact ⟨_, .raise hk hstart hstop (.inr rfl), rfl, hraised hk ha.under⟩
    | jump hlab ht => exact ⟨_, .jump hlab ht, rfl, ha.under⟩
    | next hfall => exact ⟨_, .next hfall, rfl, ha.under⟩
  · have hmark : n.isReal = false := by simpa using hreal
    rw [edges_other hmark, Except.ok.injEq, Prod.mk.injEq] at habove hf
    obtain ⟨-, rfl⟩ := habove
    obtain ⟨-, rfl⟩ := hf
    rw [List.mem_singleton.mp he']
    exact ⟨_, List.mem_cons_self, rfl, hunder⟩

/-- What stays below frames that are closed under what entries hand on comes up below them again. -/
theorem Stable.good (hl : g.program.hierarchy.Lawful) (hstrict : g.program.mode = .strict)
    (hcaught : g.HandlersSound) (hF : g.Stable entry F) : Work.Good g fun i f =>
      ∃ above, F i = some above ∧ Frame.Under g.program.hierarchy (· = ·) f above where
  edges := by
    rintro i f n after' es' ⟨above, habove, hunder⟩ hn hedges' e' he'
    obtain ⟨n', after, es, hn', hedges, hkeeps⟩ := hF.edges habove
    obtain rfl := Option.some.inj (hn.symm.trans hn')
    obtain ⟨e, he, hplace, hbelow⟩ := edges_under hstrict hcaught hunder hedges hedges' e' he'
    obtain ⟨higher, hhigher, hkept⟩ := hkeeps e he
    obtain ⟨hsound, hover⟩ := (Frame.keeps_iff hl hbelow.sound).mp hkept
    exact ⟨higher, hplace ▸ hhigher, hover.trans hl hbelow.covers, hsound, hbelow.closed⟩
  merge := by
    rintro i f f' r ⟨above, habove, hf⟩ ⟨above', habove', hf'⟩ hm
    obtain rfl := Option.some.inj (habove.symm.trans habove')
    have hmerged := Frame.merge_merged hf.closed hf'.closed hm
    exact ⟨above, habove, hmerged.covered hl VType.siteMap_eq hf.covers hf'.covers, hf.sound,
      hmerged.closed⟩

end FlowGraph

/-! ## All orders -/

/-- The states agree on the room that is asked for and on every frame. -/
structure Work.Alike (v w : Work) : Prop where
  size : v.frames.size = w.frames.size
  frames : ∀ i, Option.Rel Frame.Alike (v.frame? i) (w.frame? i)
  stack : v.maxStack = w.maxStack
  locals : v.maxLocals = w.maxLocals

section below

variable {g : FlowGraph} {q : Program} {site : Nat → Nat → Prop} {top : Nat → Option Frame}
  {maxStack maxLocals : Nat} {w w' : Work} (hl : g.program.hierarchy.Lawful)
  (htop : Ceiling g q site top maxStack maxLocals) (hq : g.program.Follows site q)

include hl htop hq

/-- Below a ceiling every entry that waits can be looked at. -/
theorem Work.Below.look (hw : w.Below g site top maxStack maxLocals) (i : Nat) :
    ∃ w', Work.visit g { w with pending := w.pending.erase i } i = .ok w' ∧
      w'.Below g site top maxStack maxLocals := by
  have hrest : Work.Below g site top maxStack maxLocals { w with pending := w.pending.erase i } :=
    ⟨hw.size, hw.frames, hw.stack, hw.locals⟩
  exact hrest.visit hl htop hq

theorem Work.Below.turns (hw : w.Below g site top maxStack maxLocals) (ht : Work.Turns g w w') :
    w'.Below g site top maxStack maxLocals := by
  induction ht with
  | refl => exact hw
  | tail _ hturn ih =>
    obtain ⟨i, -, hv⟩ := hturn
    obtain ⟨w'', hv', hbelow⟩ := ih.look hl htop hq i
    rwa [Except.ok.inj (hv.symm.trans hv')]

end below

namespace Analysis

variable {m : MethodContext} {l : InstrList} {pool : Pool} {h : Hierarchy} {g : FlowGraph}
  {entry : Frame} {v w : Work}

/-- **The frames that an order ends with are a ceiling.** -/
theorem Begins.ceiling (hs : Begins m l pool h .strict g entry) (hw : Work.Ends g entry w)
    (hl : h.Lawful) : Ceiling g g.program (· = ·) w.frame? w.maxStack w.maxLocals := by
  obtain ⟨-, -, hsettles⟩ := hs.settles hw hl
  have hh : g.program.hierarchy = h := by rw [hs.program]
  constructor
  · exact fun k hk => hs.caught hk
  · exact fun hf => (hsettles hf).2.node
  · exact fun hf => (hsettles hf).1
  · intro i above hf
    obtain ⟨after, es, -, -, hdepth, -, hlocals, -⟩ :=
      (hsettles hf).2.edges (Array.getElem?_eq_getElem (hsettles hf).2.node)
    exact ⟨hdepth, hlocals⟩
  · intro i above n hf hn hreal
    rw [hh]
    exact (hsettles hf).2.passes hn hreal
  · intro i above ins hf hn
    obtain ⟨after, hands⟩ := (hsettles hf).2.handsOn hn
    refine ⟨i, after, ⟨fun _ _ => rfl, hands.step, ?_, ?_, ?_⟩, hands.depth, hands.length⟩
    all_goals rw [hh]
    · exact hands.next
    · exact hands.targets
    · intro k hk hstart hstop
      exact ⟨hands.raised k hk hstart hstop _ (.inl rfl), hands.raised k hk hstart hstop _ (.inr rfl)⟩

/-- What an order comes to stays below the frames that another order ends with. -/
theorem Begins.below (hs : Begins m l pool h .strict g entry) (hw : Work.Ends g entry w)
    (hl : h.Lawful) (hv : Work.Turns g (.start g.program.nodes.size entry) v) :
    v.Below g (· = ·) w.frame? w.maxStack w.maxLocals := by
  obtain ⟨hfirst, hlocals, -⟩ := hs.settles hw hl
  have hh : g.program.hierarchy = h := by rw [hs.program]
  have hstrict : g.program.mode = .strict := by rw [hs.program]
  rw [← hh] at hfirst hl
  have htop : Ceiling g g.program (· = ·) w.frame? w.maxStack w.maxLocals :=
    hs.ceiling hw (hh ▸ hl)
  have hstart : Work.Below g (· = ·) w.frame? w.maxStack w.maxLocals
      (.start g.program.nodes.size entry) := .start hl htop hs.start hfirst hlocals
  exact hstart.turns hl htop (Program.follows_self hstrict) hv

/-- Orders that are at their ends agree. -/
theorem Begins.alike (hs : Begins m l pool h .strict g entry) (hh : h.Sound)
    (hv : Work.Ends g entry v) (hw : Work.Ends g entry w) : v.Alike w := by
  have hvw := hs.below hw hh.lawful hv.turns
  have hwv := hs.below hv hh.lawful hw.turns
  have hsame : g.program.hierarchy = h := by rw [hs.program]
  refine ⟨hvw.size.trans hwv.size.symm, fun i => ?_, Nat.le_antisymm hvw.stack hwv.stack,
    Nat.le_antisymm hvw.locals hwv.locals⟩
  cases hf : v.frame? i with
  | none =>
    cases hf' : w.frame? i with
    | none => exact .none
    | some f' =>
      obtain ⟨f, hsome, -⟩ := hwv.frames hf'
      cases hf.symm.trans hsome
  | some f =>
    obtain ⟨f', hf', hunder, -⟩ := hvw.frames hf
    obtain ⟨f'', hf'', hunder', -⟩ := hwv.frames hf'
    obtain rfl := Option.some.inj (hf.symm.trans hf'')
    rw [hsame] at hunder hunder'
    rw [hf']
    exact .some (hunder'.covers.antisymm hh hunder.covers)

/-- The frames that an order ends with are closed under what entries hand on. -/
theorem Begins.stable (hs : Begins m l pool h .strict g entry) (hw : Work.Ends g entry w)
    (hl : h.Lawful) : g.Stable entry w.frame? := by
  obtain ⟨⟨f, hf, hc⟩, -, hsettles⟩ := hs.settles hw hl
  have hh : g.program.hierarchy = h := by rw [hs.program]
  have hgood := FlowGraph.good_sound (g := g) (by rw [hs.program]) hs.handlersSound
  refine ⟨⟨f, hf, ?_⟩, fun {i f} hf => ?_⟩
  · rw [hh]
    exact (Frame.keeps_iff hl (Frame.entry_sound hs.start)).mpr ⟨(hsettles hf).1, hc⟩
  · obtain ⟨hsound, hsettled⟩ := hsettles hf
    have hn := Array.getElem?_eq_getElem hsettled.node
    obtain ⟨after, es, hedges, hfollowed, -⟩ := hsettled.edges hn
    refine ⟨_, after, es, hn, hedges, fun e he => ?_⟩
    obtain ⟨f', hf', hc'⟩ := hfollowed e he
    refine ⟨f', hf', ?_⟩
    rw [hh]
    exact (Frame.keeps_iff hl (hgood.edges hsound hn hedges e he)).mpr ⟨(hsettles hf').1, hc'⟩

/-- All other frames that are closed under what entries hand on are above those that an order ends
with. -/
theorem Begins.least (hs : Begins m l pool h .strict g entry) (hw : Work.Ends g entry w)
    (hl : h.Lawful) {F : Nat → Option Frame} (hF : g.Stable entry F) {i : Nat} {f : Frame}
    (hf : w.frame? i = some f) : ∃ above, F i = some above ∧ above.Keeps h f := by
  have hh : g.program.hierarchy = h := by rw [hs.program]
  have hlg : g.program.hierarchy.Lawful := hh ▸ hl
  have hgood := hF.good hlg (by rw [hs.program]) hs.handlersSound
  have hb : Work.Bounds g (fun i f => ∃ above, F i = some above ∧
      Frame.Under g.program.hierarchy (· = ·) f above) (fun _ _ => True) :=
    ⟨fun _ => trivial, fun _ _ => trivial, fun _ _ _ => ⟨trivial, trivial⟩⟩
  have hsound := Frame.entry_sound hs.start
  obtain ⟨first, hfirst, hkeeps⟩ := hF.first
  obtain ⟨hfirstSound, hcovers⟩ := (Frame.keeps_iff hlg hsound).mp hkeeps
  obtain ⟨-, -, hall⟩ := hw.settles hb hgood hs.positive
    ⟨first, hfirst, hcovers, hfirstSound, hsound.closed⟩
  obtain ⟨⟨above, habove, hunder⟩, -⟩ := hall hf
  rw [hh] at hunder
  obtain ⟨-, -, hsettles⟩ := hs.settles hw hl
  exact ⟨above, habove, (Frame.keeps_iff hl (hsettles hf).1).mpr ⟨hunder.sound, hunder.covers⟩⟩

/-- What the order of the looks does not matter to, if one order ends in this state. -/
structure OrderFree (m : MethodContext) (l : InstrList) (pool : Pool) (h : Hierarchy)
    (g : FlowGraph) (entry : Frame) (w : Work) : Prop where
  /-- Whatever was looked at so far, each of the entries that wait can be looked at next. -/
  goesOn : ∀ {v}, Work.Turns g (.start g.program.nodes.size entry) v → ∀ i ∈ v.pending,
    ∃ v', Work.visit g { v with pending := v.pending.erase i } i = .ok v'
  /-- No order goes on for ever. -/
  ends : WellFounded fun v' v => Work.Turn g v v'
  /-- All orders end with the same frames and the same room. -/
  same : ∀ {v}, Work.Ends g entry v → v.Alike w
  /-- The analysis is what one of the orders ends with. -/
  analysed : ∃ v, Work.Ends g entry v ∧
    analyze m l pool h .strict = .ok ⟨v.frames, v.maxStack, v.maxLocals⟩
  /-- The frames take up nothing of what the code hands on from them. -/
  stable : g.Stable entry w.frame?
  /-- There are no other frames like that which are not above them. -/
  least : ∀ {F : Nat → Option Frame}, g.Stable entry F → ∀ {i f}, w.frame? i = some f →
    ∃ above, F i = some above ∧ above.Keeps h f

/-- **Checked code has the same frames in whatever order it is searched.** If some order of the
looks comes to an end, then no order fails and none goes on for ever, and all of them, the one of
the analysis included, end with the least frames that are closed under what the code hands on. -/
theorem same_in_every_order (hh : h.Sound) (hs : Begins m l pool h .strict g entry)
    (hw : Work.Ends g entry w) : OrderFree m l pool h g entry w := by
  have hl := hh.lawful
  have hsame : g.program.hierarchy = h := by rw [hs.program]
  have hsound : g.program.hierarchy.Sound := hsame ▸ hh
  have hstrict : g.program.mode = .strict := by rw [hs.program]
  have hgoesOn : ∀ {v}, Work.Turns g (.start g.program.nodes.size entry) v → ∀ i ∈ v.pending,
      ∃ v', Work.visit g { v with pending := v.pending.erase i } i = .ok v' := by
    intro v hv i _
    obtain ⟨v', hv', -⟩ := (hs.below hw hl hv).look hsound.lawful (hs.ceiling hw hl)
      (Program.follows_self hstrict) i
    exact ⟨v', hv'⟩
  refine ⟨hgoesOn, Work.turns_end hsound, fun hv => hs.alike hh hv hw, ?_, hs.stable hw hl,
    fun {F} hF {i f} hf => hs.least hw hl hF hf⟩
  -- the search of the analysis is one of the orders, so it does not fail
  obtain ⟨result, hrun⟩ := Work.run_ends hsound (.start g.program.nodes.size entry)
  have hstart := hs.below hw hl (v := .start g.program.nodes.size entry) .refl
  obtain ⟨v, rfl, -⟩ := hstart.run hsound.lawful (hs.ceiling hw hl) (Program.follows_self hstrict) _ _
    hrun
  exact ⟨v, Work.ends_of_run hrun, hs.analyze_eq hrun⟩

/-! ## Two ways to a label -/

/-- A null is on the stack where the jump is taken, and a value of a class where it is not. -/
def meeting : InstrList where
  nodes := #[.instr (.plain 0x01), .instr (.plain 0x03), .instr (.jump 0x99 ⟨0⟩),
    .instr (.plain 0x57), .instr (.var Opcode.aload 0), .label ⟨0⟩, .instr (.plain 0x57),
    .instr (.plain 0xb1)]
  placed := #[true]
  blocks := []

/-- The graph of the two ways to the label. -/
def meetingGraph : FlowGraph :=
  ⟨⟨givenTwo, meeting.nodes, .empty, .unknown, .strict, none⟩, #[some 5], []⟩

/-- The locals of the method that is given two values. -/
def bothGiven : List NamedType := [.object "x/A", .object "x/B"]

theorem meeting_begins :
    Begins givenTwo meeting .empty .unknown .strict meetingGraph ⟨bothGiven, []⟩ where
  program := by
    have hresult : (MethodType.parse? givenTwo.descriptor).bind MethodType.result = none := by
      decide +kernel
    rw [hresult]
    rfl
  positions := rfl
  handlers := .nil
  start := by decide +kernel
  nonempty := by decide

/-- What is found if the label is looked at before the other way to it: the null gives way to the
class later on, and the label is looked at again. -/
theorem meeting_ends : Work.Ends meetingGraph ⟨bothGiven, []⟩ {
    frames := #[some ⟨bothGiven, []⟩, some ⟨bothGiven, [.null]⟩, some ⟨bothGiven, [.int, .null]⟩,
      some ⟨bothGiven, [.null]⟩, some ⟨bothGiven, []⟩, some ⟨bothGiven, [.object "x/A"]⟩,
      some ⟨bothGiven, [.object "x/A"]⟩, some ⟨bothGiven, []⟩]
    queued := #[false, false, false, false, false, false, false, false]
    pending := [], maxStack := 2, maxLocals := 2 } where
  done := rfl
  turns :=
    .head ⟨0, by decide, rfl⟩ (.head ⟨1, by decide, rfl⟩ (.head ⟨2, by decide, rfl⟩
      (.head ⟨5, by decide, rfl⟩ (.head ⟨6, by decide, rfl⟩ (.head ⟨7, by decide, rfl⟩
        (.head ⟨3, by decide, rfl⟩ (.head ⟨4, by decide, rfl⟩ (.head ⟨5, by decide, rfl⟩
          (.head ⟨6, by decide, rfl⟩ .refl)))))))))

theorem meeting_same_in_every_order : ∃ w, Work.Ends meetingGraph ⟨bothGiven, []⟩ w ∧
    OrderFree givenTwo meeting .empty .unknown meetingGraph ⟨bothGiven, []⟩ w :=
  ⟨_, meeting_ends, same_in_every_order (h := .unknown) trivial meeting_begins meeting_ends⟩

end Analysis
end ClassWeave
