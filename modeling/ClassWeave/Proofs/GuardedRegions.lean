import ClassWeave.Proofs.GuardedLabels

/-!
# Guarded regions release their monitors

The marks of guarded code fit each other. What an entry hands on to the next one and to the targets
of jumps is seen entry by entry; where exceptions go depends on the order of the blocks. The block
of a region is added behind those of its body, and a block of the code around it covers the region
only if it is added behind that: so an exception comes to the handlers of the innermost region
before it comes to any handler around it.
-/

namespace ClassWeave

/-! ## What entries hand on -/

/-- What an entry hands on to the next one. -/
def Node.HandsOn (μ ν : Mark) : Node → Prop
  | .instr i => i.fallsThrough → Mark.Leads μ i ν
  | _ => ν = μ

/-- The mark of the first entry, or the one behind all entries. -/
def firstMark (stop : Mark) : List (Node × Mark) → Mark
  | [] => stop
  | e :: _ => e.2

/-- Every entry hands on to the next one. -/
def Linked (stop : Mark) : List (Node × Mark) → Prop
  | [] => True
  | e :: rest => e.1.HandsOn e.2 (firstMark stop rest) ∧ Linked stop rest

theorem firstMark_append (stop : Mark) (es fs : List (Node × Mark)) :
    firstMark stop (es ++ fs) = firstMark (firstMark stop fs) es := by
  cases es <;> rfl

theorem linked_append {stop : Mark} {es fs : List (Node × Mark)} :
    Linked stop (es ++ fs) ↔ Linked (firstMark stop fs) es ∧ Linked stop fs := by
  induction es with
  | nil => simp [Linked]
  | cons e es ih => simp [Linked, ih, firstMark_append, and_assoc]

/-- Entries that do nothing about monitors hand on what they find. -/
theorem linked_ordinary {held : List Nat} {ns : List Node}
    (hns : ∀ i, .instr i ∈ ns → Mark.Leads ⟨held, .ordinary⟩ i ⟨held, .ordinary⟩) :
    Linked ⟨held, .ordinary⟩ (ns.map (·, ⟨held, .ordinary⟩)) := by
  induction ns with
  | nil => trivial
  | cons n ns ih =>
    refine ⟨?_, ih fun i hi => hns i (List.mem_cons_of_mem n hi)⟩
    have hfirst : firstMark ⟨held, .ordinary⟩ (ns.map (·, ⟨held, .ordinary⟩)) =
        ⟨held, .ordinary⟩ := by cases ns <;> rfl
    rw [hfirst]
    cases n with
    | instr i => exact fun _ => hns i List.mem_cons_self
    | label | line => rfl

theorem Linked.at {stop : Mark} {es : List (Node × Mark)} (h : Linked stop es) {pc : Nat}
    {n : Node} {μ : Mark} (he : es[pc]? = some (n, μ)) :
    ∃ ν, (es.map Prod.snd ++ [stop])[pc + 1]? = some ν ∧ n.HandsOn μ ν := by
  induction es generalizing pc with
  | nil => cases he
  | cons e es ih =>
    obtain ⟨hfirst, hrest⟩ := h
    cases pc with
    | zero =>
      obtain rfl := Option.some.inj he
      refine ⟨_, ?_, hfirst⟩
      cases es <;> rfl
    | succ pc => exact ih hrest he

/-- The variables of the objects that are locked were handed out. -/
def Scope.LocksBelow (s : Scope) : Prop := ∀ k ∈ s.held, k < s.nextLocal

theorem Stock.toNat_slot {s : Stock} (h : s.nextLocal < 65536) : s.slot.toNat = s.nextLocal := by
  rw [slot, UInt16.toNat_ofNat']
  exact Nat.mod_eq_of_lt h

namespace GuardedCode

theorem nextLocal_le_after (s : Scope) (c : GuardedCode) : s.nextLocal ≤ (c.after s).nextLocal := by
  induction c generalizing s with
  | done => exact Nat.le_refl _
  | op o rest ih => exact Nat.le_trans (Nat.le_add_right _ _) (ih (o.after s))
  | guarded body rest ihbody ihrest =>
    have hbody : s.nextLocal + 1 ≤ (body.after (s.enter body)).nextLocal := ihbody (s.enter body)
    have hrest : (body.after (s.enter body)).nextLocal + 1 ≤
        ((guarded body rest).after s).nextLocal :=
      ihrest (s.leave (body.after (s.enter body)))
    omega

/-- Inside a region and behind it, variables are only locked that were handed out, and the variables
that the region takes for itself are new. -/
theorem locksBelow_guarded {s : Scope} (hs : s.LocksBelow) {body rest : GuardedCode}
    (hroom : ((guarded body rest).after s).nextLocal ≤ 65536) :
    s.slot.toNat ∉ s.held ∧ (body.after (s.enter body)).slot.toNat ∉ s.slot.toNat :: s.held ∧
      (s.enter body).LocksBelow ∧ (s.leave (body.after (s.enter body))).LocksBelow ∧
      (body.after (s.enter body)).nextLocal ≤ 65536 := by
  have hinner := nextLocal_le_after (s.enter body) body
  have hlocal : (s.enter body).nextLocal = s.nextLocal + 1 := rfl
  have hroom' : (body.after (s.enter body)).nextLocal + 1 ≤ 65536 :=
    Nat.le_trans (nextLocal_le_after (s.leave (body.after (s.enter body))) rest) hroom
  have hlock : s.slot.toNat = s.nextLocal := Stock.toNat_slot (by omega)
  have hthrown : (body.after (s.enter body)).slot.toNat = (body.after (s.enter body)).nextLocal :=
    Stock.toNat_slot (by omega)
  have hbelow : (s.enter body).LocksBelow := by
    intro k hk
    rcases List.mem_cons.mp hk with rfl | hk
    · omega
    · have := hs k hk
      omega
  refine ⟨fun h => absurd (hs _ h) (by omega), fun h => absurd (hbelow _ h) (by omega), hbelow,
    fun k hk => ?_, by omega⟩
  have hlt := hs k hk
  show k < (body.after (s.enter body)).nextLocal + 1
  omega

/-- Guarded code begins as the code around it goes on. -/
theorem firstMark_entries (s : Scope) (c : GuardedCode) :
    firstMark ⟨s.held, .ordinary⟩ (c.entries s) = ⟨s.held, .ordinary⟩ := by
  induction c generalizing s with
  | done => rfl
  | op o rest ih =>
    rw [entries, firstMark_append]
    have hrest : firstMark ⟨s.held, .ordinary⟩ (rest.entries (o.after s)) = ⟨s.held, .ordinary⟩ :=
      ih (o.after s)
    rw [hrest]
    cases o.nodes s.nextLabel <;> rfl
  | guarded => rfl

/-- **Every entry of guarded code hands on to the next one.** -/
theorem linked_entries {s : Scope} {c : GuardedCode} (hc : c.Fits s) (hs : s.LocksBelow)
    (hroom : (c.after s).nextLocal ≤ 65536) :
    Linked ⟨s.held, .ordinary⟩ (c.entries s) := by
  induction c generalizing s with
  | done => trivial
  | op o rest ih =>
    obtain ⟨ho, hrest⟩ := hc
    have hbelow : (o.after s).LocksBelow := fun k hk => Nat.lt_add_right _ (hs k hk)
    have htail : Linked ⟨s.held, .ordinary⟩ (rest.entries (o.after s)) := ih hrest hbelow hroom
    have hfirst : firstMark ⟨s.held, .ordinary⟩ (rest.entries (o.after s)) = ⟨s.held, .ordinary⟩ :=
      firstMark_entries (o.after s) rest
    refine linked_append.mpr ⟨?_, htail⟩
    rw [hfirst]
    exact linked_ordinary fun i hi => .ordinary (ho.keepsTo hi).monitor (ho.keepsTo hi).stores
  | guarded body rest ihbody ihrest =>
    obtain ⟨-, hbody, hrest⟩ := hc
    obtain ⟨hkeep, hsave, hbelow, hbelow', hroom'⟩ := locksBelow_guarded hs hroom
    refine linked_append.mpr ⟨linked_append.mpr ⟨linked_append.mpr ⟨linked_append.mpr
      ⟨?_, ihbody hbody hbelow hroom'⟩, ?_⟩, ?_⟩, ihrest hrest hbelow' hroom⟩
    · show Linked (firstMark ⟨(s.enter body).held, .ordinary⟩ (body.entries (s.enter body))) _
      rw [firstMark_entries]
      exact ⟨fun _ => .double, fun _ => .keep hkeep, fun _ => .enter, rfl, trivial⟩
    · exact ⟨fun _ => .fetch, fun _ => .exit, rfl, nofun, trivial⟩
    · have hfirst : firstMark ⟨s.held, .ordinary⟩
          (rest.entries (s.leave (body.after (s.enter body)))) = ⟨s.held, .ordinary⟩ :=
        firstMark_entries (s.leave (body.after (s.enter body))) rest
      rw [hfirst]
      exact ⟨rfl, fun _ => .save hsave, fun _ => .fetchSaved, fun _ => .exitSaved,
        fun _ => .fetchThrown, nofun, rfl, trivial⟩

end GuardedCode

/-- What an instruction does but for going on to the next entry: it jumps to places with the same
mark, returns where nothing is locked, and while an exception is handled it does what it should. -/
structure Mark.Covers (all : List (Node × Mark)) (i : Instr Label) (μ : Mark) : Prop where
  jump : ∀ lab ∈ i.targets, (.label lab, μ) ∈ all ∧ Mark.Leads μ i μ
  returns : Opcode.isReturn i.opcode → μ.held = []
  handler : μ.stage.isSure →
    (∃ ν, Mark.Leads μ i ν) ∨ i = .plain Opcode.athrow ∧ μ.stage = .rethrowing

variable {all : List (Node × Mark)} {i : Instr Label} {μ ν : Mark}

theorem Instr.not_storesTo_of_stored? (h : i.stored? = none) (k : Nat) : ¬ i.StoresTo k := by
  rintro ⟨s, hs, -⟩
  simp [h] at hs

/-- An instruction that leads on and goes nowhere else. -/
theorem Mark.Leads.covers (h : μ.Leads i ν) (htargets : i.targets = [])
    (hreturn : Opcode.isReturn i.opcode = false) : μ.Covers all i where
  jump lab hlab := by simp [htargets] at hlab
  returns hop := by simp [hreturn] at hop
  handler _ := .inl ⟨ν, h⟩

namespace Scope

variable {s : Scope}

theorem covers_entering (hkeep : s.slot.toNat ∉ s.held) (hi : (.instr i, μ) ∈ s.entering) :
    μ.Covers all i := by
  simp only [entering, List.mem_cons, Prod.mk.injEq, Node.instr.injEq, List.not_mem_nil, or_false,
    reduceCtorEq, false_and] at hi
  rcases hi with ⟨rfl, rfl⟩ | ⟨rfl, rfl⟩ | ⟨rfl, rfl⟩
  · exact Mark.Leads.double.covers rfl rfl
  · exact (Mark.Leads.keep hkeep).covers rfl rfl
  · exact Mark.Leads.enter.covers rfl rfl

theorem covers_leaving (hall : (.label ⟨s.nextLabel + 3⟩, ⟨s.held, .ordinary⟩) ∈ all)
    (hi : (.instr i, μ) ∈ s.leaving) : μ.Covers all i := by
  simp only [leaving, List.mem_cons, Prod.mk.injEq, Node.instr.injEq, List.not_mem_nil, or_false,
    reduceCtorEq, false_and, false_or] at hi
  rcases hi with ⟨rfl, rfl⟩ | ⟨rfl, rfl⟩ | ⟨rfl, rfl⟩
  · exact Mark.Leads.fetch.covers rfl rfl
  · exact Mark.Leads.exit.covers rfl rfl
  · exact {
      jump := fun lab hlab => by
        obtain rfl := List.mem_singleton.mp hlab
        exact ⟨hall, .ordinary rfl fun k _ => Instr.not_storesTo_of_stored? rfl k⟩
      returns := fun hop => by cases hop
      handler := fun hsure => by cases hsure }

theorem covers_handling {thrown : UInt16} (hsave : thrown.toNat ∉ s.slot.toNat :: s.held)
    (hi : (.instr i, μ) ∈ s.handling thrown) : μ.Covers all i := by
  simp only [handling, List.mem_cons, Prod.mk.injEq, Node.instr.injEq, List.not_mem_nil, or_false,
    reduceCtorEq, false_and, false_or] at hi
  rcases hi with ⟨rfl, rfl⟩ | ⟨rfl, rfl⟩ | ⟨rfl, rfl⟩ | ⟨rfl, rfl⟩ | ⟨rfl, rfl⟩
  · exact (Mark.Leads.save hsave).covers rfl rfl
  · exact Mark.Leads.fetchSaved.covers rfl rfl
  · exact Mark.Leads.exitSaved.covers rfl rfl
  · exact Mark.Leads.fetchThrown.covers rfl rfl
  · exact {
      jump := fun lab hlab => by cases hlab
      returns := fun hop => by cases hop
      handler := fun _ => .inr ⟨rfl, rfl⟩ }

end Scope

namespace GuardedCode

/-- **No instruction goes anywhere but to where its mark is right.** -/
theorem covers_entries {s : Scope} {c : GuardedCode} (hc : c.Fits s) (hs : s.LocksBelow)
    (hroom : (c.after s).nextLocal ≤ 65536) (hall : c.entries s ⊆ all)
    (hown : ∀ lab ∈ s.own, (.label lab, ⟨s.held, .ordinary⟩) ∈ all)
    (hi : (.instr i, μ) ∈ c.entries s) : μ.Covers all i := by
  induction c generalizing s with
  | done => cases hi
  | op o rest ih =>
    obtain ⟨ho, hrest⟩ := hc
    rcases List.mem_append.mp hi with hi | hi
    · obtain ⟨n, hn, heq⟩ := List.mem_map.mp hi
      obtain ⟨rfl, rfl⟩ := Prod.mk.inj heq
      have hkeeps := ho.keepsTo hn
      exact {
        jump := fun lab hlab => by
          refine ⟨?_, .ordinary hkeeps.monitor hkeeps.stores⟩
          rcases BodyOp.of_mem_reach (hkeeps.targets lab hlab) with hlab | hlab
          · exact hown lab hlab
          · exact hall (List.mem_append_left _ (List.mem_map_of_mem hlab))
        returns := hkeeps.returns
        handler := fun hsure => by cases hsure }
    · exact ih hrest (fun k hk => Nat.lt_add_right _ (hs k hk)) hroom
        (List.append_subset.mp hall).2 hown hi
  | guarded body rest ihbody ihrest =>
    obtain ⟨-, hbody, hrest⟩ := hc
    obtain ⟨hkeep, hsave, hbelow, hbelow', hroom'⟩ := locksBelow_guarded hs hroom
    simp only [entries, List.append_subset] at hall
    obtain ⟨⟨⟨⟨-, hall⟩, -⟩, hhandling⟩, hall'⟩ := hall
    simp only [entries, List.mem_append] at hi
    rcases hi with (((hi | hi) | hi) | hi) | hi
    · exact Scope.covers_entering hkeep hi
    · exact ihbody hbody hbelow hroom' hall (fun lab hlab => hall (mem_entries_of_places hlab)) hi
    · exact Scope.covers_leaving (hhandling (by simp [Scope.handling])) hi
    · exact Scope.covers_handling hsave hi
    · exact ihrest hrest hbelow' hroom hall' hown hi

end GuardedCode
end ClassWeave
