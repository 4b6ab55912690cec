import ClassWeave.Proofs.StackMapCodec

/-!
# Tables of frames

A table says of every frame how it comes of the one before it, the frame at entry being the first.
Whatever these frames are, their table can be written, and reading the bytes gives back every frame
at its offset. No step takes more bytes than it has to: all types of a frame are listed only if
no short difference leads to it.
-/

namespace ClassWeave

namespace StackMapFrame

/-- All types of the frame are listed. -/
def IsFull : StackMapFrame → Prop
  | full .. => True
  | _ => False

/-- The difference describes how the first frame becomes the second, and lists all types only if
every difference that does so lists them. -/
structure Shortest (e : StackMapFrame) (raw raw' : RawFrame) : Prop where
  describes : e.Describes raw raw'
  full : e.IsFull → ∀ e' : StackMapFrame, e'.Describes raw raw' → e'.IsFull

end StackMapFrame

namespace CompactFrame

open StackMapFrame

variable {p : Pool} {entry raw raw' : RawFrame} {frames : List (Nat × RawFrame)}
  {named : NamedFrame} {recorded : List (Nat × NamedFrame)}

/-! ## Short differences -/

/-- Where a short difference leads from one frame to another, it is found. -/
theorem difference_of_describes {e : StackMapFrame} (he : e.Describes raw raw') (hshort : ¬ e.IsFull)
    (d : UInt16) : ¬ (difference d raw raw').IsFull := by
  cases he with
  | same => simp [difference, IsFull]
  | sameOne => simp [difference, IsFull]
  | @chop _ kept dropped _ hpos hfew =>
    have hne : kept ≠ kept ++ dropped := fun heq => by
      have := congrArg List.length heq
      rw [List.length_append] at this
      omega
    have hle : kept.length ≤ (kept ++ dropped).length ∧
        (kept ++ dropped).length - kept.length ≤ 3 ∧ kept.isPrefixOf (kept ++ dropped) := by
      rw [List.length_append, Nat.add_sub_cancel_left, List.isPrefixOf_iff_prefix]
      exact ⟨Nat.le_add_right _ _, hfew, List.prefix_append _ _⟩
    simp only [difference, if_neg hne, if_pos hle]
    exact id
  | @append _ locals more _ hpos hfew =>
    have hne : locals ++ more ≠ locals := fun heq => by
      have := congrArg List.length heq
      rw [List.length_append] at this
      omega
    -- locals that come are not taken for locals that go
    have hgt : ¬ ((locals ++ more).length ≤ locals.length ∧
        locals.length - (locals ++ more).length ≤ 3 ∧ (locals ++ more).isPrefixOf locals) := by
      rw [List.length_append]
      omega
    have hle : locals.length ≤ (locals ++ more).length ∧
        (locals ++ more).length - locals.length ≤ 3 ∧ locals.isPrefixOf (locals ++ more) := by
      rw [List.length_append, Nat.add_sub_cancel_left, List.isPrefixOf_iff_prefix]
      exact ⟨Nat.le_add_right _ _, hfew, List.prefix_append _ _⟩
    simp only [difference, if_neg hne, if_neg hgt, if_pos hle]
    exact id
  | full => exact absurd trivial hshort

theorem shortest_difference (d : UInt16) (raw raw' : RawFrame) :
    (difference d raw raw').Shortest raw raw' where
  describes := difference_describes d raw raw'
  full hfull e he := by
    by_contra hshort
    exact difference_of_describes he hshort d hfull

/-! ## The steps of a table -/

/-- The frames that the steps of a table start at and lead to. -/
def steps (entry : RawFrame) (frames : List (Nat × RawFrame)) : List (RawFrame × RawFrame) :=
  (entry :: frames.map Prod.snd).zip (frames.map Prod.snd)

theorem shortest_tableOnto (entry : RawFrame) (last : Option Nat) (frames : List (Nat × RawFrame)) :
    List.Forall₂ (fun e r => e.Shortest r.1 r.2) (tableOnto [] entry last frames)
      (steps entry frames) := by
  induction frames generalizing entry last with
  | nil => exact .nil
  | cons r rest ih =>
    rw [tableOnto_cons, tableOnto_eq]
    exact .cons (shortest_difference _ _ _) (ih _ _)

/-- Every table can be written. -/
theorem encodes_table (entry : RawFrame) (frames : List (Nat × RawFrame)) :
    ∃ bytes, encodeTable (table entry frames) = .ok bytes := by
  have hall : ∀ e ∈ table entry frames, ∃ bytes, e.encode = .ok bytes := fun e he => by
    obtain ⟨r, -, hr⟩ := exists_of_forall₂ (shortest_tableOnto entry none frames) he
    exact hr.describes.encodes
  obtain ⟨bss, hbss⟩ := exists_forall₂ hall
  exact ⟨_, bind_eq_ok.mpr ⟨bss, mapM_eq_ok.mpr hbss, rfl⟩⟩

/-! ## What is read back -/

/-- **A table of frames at ascending offsets is written and read back**, and it lists all types of a
frame only where it has to. -/
theorem table_reads_back (hentry : entry.mapM (resolve p) = .ok named)
    (hframes : (frames.mapM fun r => do return (r.1, ← r.2.mapM (resolve p))) = .ok recorded)
    (hsorted : (frames.map Prod.fst).Pairwise (· < ·)) (hoffsets : ∀ r ∈ frames, r.1 ≤ 65535)
    (hsizes : ∀ r ∈ frames, r.2.locals.length ≤ 65535 ∧ r.2.stack.length ≤ 65535)
    (hcount : frames.length ≤ 65535) :
    ∃ bytes, encodeTable (table entry frames) = .ok bytes ∧
      tableReader.Reads bytes (table entry frames) ∧
      ofTable p named (table entry frames) = .ok recorded ∧
      List.Forall₂ (fun e r => e.Shortest r.1 r.2) (table entry frames) (steps entry frames) := by
  have hnames : List.Forall₂ (NamesAt p) frames recorded := by
    refine (mapM_eq_ok.mp hframes).imp fun r c hr => ?_
    obtain ⟨named', hnamed', hr⟩ := bind_eq_ok.mp hr
    obtain rfl := pure_eq_ok.mp hr
    exact ⟨rfl, mapM_resolve_eq_ok.mp hnamed'⟩
  obtain ⟨bytes, hbytes⟩ := encodes_table entry frames
  have hreads := reads_table ((length_table entry frames).trans_le hcount)
    (fits_tableOnto entry none hsizes) hbytes
  exact ⟨bytes, hbytes, hreads,
    ofTable_table (mapM_resolve_eq_ok.mp hentry) hnames hsorted hoffsets,
    shortest_tableOnto entry none frames⟩

/-! ### A table with every kind of step -/

/-- A pool with a class. -/
def stepsPool : Pool := ((Pool.empty.add (.utf8 "A")).2.add (.classInfo 1)).2

/-- The frame in front of the steps. -/
def stepsEntry : RawFrame := ⟨[.int], []⟩

/-- Frames that come of each other in every way: nothing changes, three locals come, one value is on
the stack, also where the locals change, four locals come, three go, and everything changes. -/
def everyStep : List (Nat × RawFrame) :=
  [(0, ⟨[.int], []⟩), (64, ⟨[.int, .float, .long, .object 2], []⟩),
    (129, ⟨[.int, .float, .long, .object 2], [.fresh 7]⟩), (130, ⟨[.int], [.object 2]⟩),
    (131, ⟨[.int, .top, .null, .double, .int], []⟩), (132, ⟨[.int, .top], []⟩),
    (65535, ⟨[], [.freshThis, .int]⟩)]

/-- The frames in terms of names. -/
def everyStepNamed : List (Nat × NamedFrame) :=
  [(0, ⟨[.int], []⟩), (64, ⟨[.int, .float, .long, .object "A"], []⟩),
    (129, ⟨[.int, .float, .long, .object "A"], [.fresh 7]⟩), (130, ⟨[.int], [.object "A"]⟩),
    (131, ⟨[.int, .top, .null, .double, .int], []⟩), (132, ⟨[.int, .top], []⟩),
    (65535, ⟨[], [.freshThis, .int]⟩)]

/-- Distances up to 63 are kept in the tag, and up to three locals may come or go. -/
example : table stepsEntry everyStep =
    [.same 0, .append 63 [.float, .long, .object 2], .sameOne 64 (.fresh 7),
      .full 0 [.int] [.object 2], .full 0 [.int, .top, .null, .double, .int] [], .chop 0 3,
      .full 65402 [] [.freshThis, .int]] := by
  decide +kernel

theorem everyStep_reads_back :
    (stepsEntry.mapM (resolve stepsPool) = .ok ⟨[.int], []⟩ ∧
      (everyStep.mapM fun r => do return (r.1, ← r.2.mapM (resolve stepsPool))) =
        .ok everyStepNamed) ∧
    ∃ bytes, encodeTable (table stepsEntry everyStep) = .ok bytes ∧
      tableReader.Reads bytes (table stepsEntry everyStep) ∧
      ofTable stepsPool ⟨[.int], []⟩ (table stepsEntry everyStep) = .ok everyStepNamed ∧
      List.Forall₂ (fun e r => e.Shortest r.1 r.2) (table stepsEntry everyStep)
        (steps stepsEntry everyStep) := by
  have hentry : stepsEntry.mapM (resolve stepsPool) = .ok ⟨[.int], []⟩ := rfl
  have hframes : (everyStep.mapM fun r => do return (r.1, ← r.2.mapM (resolve stepsPool))) =
      .ok everyStepNamed := rfl
  exact ⟨⟨hentry, hframes⟩, table_reads_back hentry hframes (by decide) (by decide) (by decide)
    (by decide)⟩

end CompactFrame
end ClassWeave
