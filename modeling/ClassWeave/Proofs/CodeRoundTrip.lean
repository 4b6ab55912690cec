import ClassWeave.Proofs.Encoding

/-!
# Code that is encoded and decoded

The main result is `decode_encodeWithin`: decoding what was encoded gives the program that was
encoded, as it is spelled out, whatever had to become wide. Every label has to lead to an
instruction for this, and so does every place behind a detour, since jumps do not go to the end of
the code.
-/

namespace ClassWeave.Code

open Listing

/-- Short jumps reach all distances of the range. -/
def JumpRange.IsShort (r : JumpRange) : Prop := ∀ d, r.contains d → JumpRange.short.contains d

theorem JumpRange.IsShort.bounds {r : JumpRange} {d : Int} (h : r.IsShort) (hd : r.contains d) :
    -32768 ≤ d ∧ d < 32768 := by
  have hshort := h d hd
  rw [JumpRange.contains, Bool.and_eq_true, decide_eq_true_eq, decide_eq_true_eq] at hshort
  exact hshort

theorem JumpRange.isShort_of_le {r : JumpRange} (h : r.high ≤ r.low) : r.IsShort := by
  intro d hd
  rw [JumpRange.contains, Bool.and_eq_true, decide_eq_true_eq, decide_eq_true_eq] at hd
  omega

/-- An instruction stands somewhere behind the last marker of the label. -/
def Leads (nodes : List Node) (l : Label) : Prop :=
  ∃ xs ys, nodes = xs ++ .label l :: ys ∧ .label l ∉ ys ∧ ys.any Node.isReal

/-! ## Lists in parts -/

section parts

variable {links : Links} {count k o : Nat} {l : Label} {pairs xs ys : List (Node × Slot)}

theorem spelledFrom_append (xs ys : List (Node × Slot)) (k o : Nat) :
    spelledFrom count k o (xs ++ ys) = spelledFrom count k o xs ++
      spelledFrom count (k + xs.length) (endFrom o (xs.map Prod.snd)) ys := by
  induction xs generalizing k o with
  | nil => rfl
  | cons p xs ih =>
    obtain ⟨n, s⟩ := p
    rw [List.cons_append, spelledFrom, spelledFrom, ih, List.append_assoc, List.length_cons,
      List.map_cons, endFrom, Nat.add_right_comm k 1, Nat.add_assoc k]

/-- Every entry that is written down comes from one entry. -/
theorem mem_spelledFrom {b : Node × Nat} (hb : b ∈ spelledFrom count k o pairs) :
    ∃ xs n s ys, pairs = xs ++ (n, s) :: ys ∧
      b ∈ spelledAt ⟨count + (k + xs.length)⟩ n s (endFrom o (xs.map Prod.snd)) := by
  induction pairs generalizing k o with
  | nil => cases hb
  | cons p pairs ih =>
    obtain ⟨n, s⟩ := p
    rw [spelledFrom, List.mem_append] at hb
    rcases hb with hb | hb
    · exact ⟨[], n, s, pairs, rfl, hb⟩
    · obtain ⟨xs, m, s', ys, rfl, hb⟩ := ih hb
      have hk : k + ((n, s) :: xs).length = k + 1 + xs.length := by
        rw [List.length_cons]
        omega
      refine ⟨(n, s) :: xs, m, s', ys, rfl, ?_⟩
      rwa [hk, List.map_cons, endFrom]

theorem reals_spelledFrom_ne_nil (hsettled : Settled links pairs)
    (h : (pairs.map Prod.fst).any Node.isReal) : reals (spelledFrom count k o pairs) ≠ [] := by
  induction pairs generalizing k o with
  | nil => cases h
  | cons p pairs ih =>
    obtain ⟨n, s⟩ := p
    have hn : n.Settled links s.piece := hsettled _ List.mem_cons_self
    rw [spelledFrom, reals_append]
    rw [List.map_cons, List.any_cons, Bool.or_eq_true] at h
    rcases h with h | h
    · rcases spelledAt_cases hn ⟨count + k⟩ o with ⟨_, _, -, -, -, hat⟩ | ⟨-, hat⟩
      · rw [hat]
        simp
      · rw [hat]
        cases n with
        | instr => simp [Node.ascending]
        | _ => cases h
    · have := ih (k := k + 1) (o := o + s.width o)
        (fun q hq => hsettled q (List.mem_cons_of_mem _ hq)) h
      simp [this]

/-- Where the instruction behind a marker starts. -/
theorem mem_starts {as bs : List (Node × Nat)} {n : Node} (h : Positioned (as ++ (n, o) :: bs))
    (hn : n.isReal = false) (hreal : reals bs ≠ []) :
    o ∈ (reals (as ++ (n, o) :: bs)).map Prod.fst := by
  have htail : Positioned ((n, o) :: bs) := h.right_of_append
  obtain ⟨⟨o', i⟩, rs, hrs⟩ := List.exists_cons_of_ne_nil hreal
  obtain ⟨rfl, -⟩ := htail.reals_eq_cons hn hrs
  have hmem : (o', i) ∈ reals bs := by
    rw [hrs]
    exact List.mem_cons_self
  rw [mem_reals] at hmem
  exact List.mem_map_of_mem (mem_reals.mpr (List.mem_append_right _ (List.mem_cons_of_mem _ hmem)))

theorem offset?_spelledFrom_eq_none (hsettled : Settled links pairs) (hl : l.id < count)
    (hnot : .label l ∉ pairs.map Prod.fst) : offset? l (spelledFrom count k o pairs) = none := by
  induction pairs generalizing k o with
  | nil => rfl
  | cons p pairs ih =>
    obtain ⟨n, s⟩ := p
    have hn : n.Settled links s.piece := hsettled _ List.mem_cons_self
    rw [List.map_cons, List.mem_cons, not_or] at hnot
    have hne : (⟨count + k⟩ : Label) ≠ l := by
      rintro rfl
      simp only at hl
      omega
    rw [spelledFrom, offset?_append, offset?_spelledAt hn hne, if_neg (Ne.symm hnot.1),
      ih (fun q hq => hsettled q (List.mem_cons_of_mem _ hq)) hnot.2]
    rfl

/-- A label stands at the offset of its last marker. -/
theorem offset?_of_last (hsettled : Settled links pairs) (hl : l.id < count) {s : Slot}
    (hpairs : pairs = xs ++ (.label l, s) :: ys) (hnot : .label l ∉ ys.map Prod.fst) :
    spelledAt ⟨count + (0 + xs.length)⟩ (.label l) s (endFrom 0 (xs.map Prod.snd)) =
        [(.label l, endFrom 0 (xs.map Prod.snd))] ∧
      offset? l (spelledFrom count 0 0 pairs) = some (endFrom 0 (xs.map Prod.snd)) := by
  subst hpairs
  have hys : Settled links ys := fun q hq => hsettled q (by simp [hq])
  have hlabel : Node.Settled links (.label l) s.piece := hsettled (.label l, s) (by simp)
  have hat : spelledAt ⟨count + (0 + xs.length)⟩ (.label l) s (endFrom 0 (xs.map Prod.snd)) =
      [(.label l, endFrom 0 (xs.map Prod.snd))] := by
    rcases spelledAt_cases hlabel ⟨count + (0 + xs.length)⟩ (endFrom 0 (xs.map Prod.snd)) with
      ⟨_, _, h, -⟩ | ⟨-, h⟩
    · cases h
    · exact h
  refine ⟨hat, ?_⟩
  rw [spelledFrom_append, spelledFrom, hat, offset?_append, offset?_append,
    offset?_spelledFrom_eq_none hys hl hnot]
  simp [offset?]

variable (hsettled : Settled links pairs)
  (hdoc : ∀ p ∈ pairs, ∀ i, p.1 = .instr i → i.Documented links.pool)

include hsettled hdoc

/-- A label that leads to an instruction stands at its offset. -/
theorem offset?_of_leads (hl : l.id < count) (h : Leads (pairs.map Prod.fst) l) :
    ∃ o, offset? l (spelledFrom count 0 0 pairs) = some o ∧
      o ∈ (reals (spelledFrom count 0 0 pairs)).map Prod.fst := by
  obtain ⟨ns, ms, heq, hnot, hreal⟩ := h
  obtain ⟨xs, rest, rfl, rfl, hrest⟩ := List.map_eq_append_iff.mp heq
  obtain ⟨⟨_, s⟩, ys, rfl, rfl, rfl⟩ := List.map_eq_cons_iff.mp hrest
  have hpositioned : Positioned (spelledFrom count 0 0 _) :=
    (positioned_spelledFrom hsettled hdoc 0 0).1
  have hys : Settled links ys := fun q hq => hsettled q (by simp [hq])
  obtain ⟨hat, hoffset⟩ := offset?_of_last hsettled hl rfl hnot
  refine ⟨_, hoffset, ?_⟩
  rw [spelledFrom_append, spelledFrom, hat] at hpositioned ⊢
  exact mem_starts hpositioned rfl (reals_spelledFrom_ne_nil hys hreal)

/-- The place behind a detour is that of an instruction if there is one. -/
theorem behind_mem_starts {n : Node} {s : Slot} (hpairs : pairs = xs ++ (n, s) :: ys)
    (hs : isWideCondition s) (hreal : (ys.map Prod.fst).any Node.isReal) :
    endFrom 0 (xs.map Prod.snd) + 8 ∈
      (reals (spelledFrom count 0 0 pairs)).map Prod.fst := by
  subst hpairs
  have hpositioned : Positioned (spelledFrom count 0 0 _) :=
    (positioned_spelledFrom hsettled hdoc 0 0).1
  have hys : Settled links ys := fun q hq => hsettled q (by simp [hq])
  have hn : n.Settled links s.piece := hsettled (n, s) (by simp)
  rcases spelledAt_cases hn ⟨count + (0 + xs.length)⟩ (endFrom 0 (xs.map Prod.snd)) with
    ⟨op, t, -, -, -, hat⟩ | ⟨hs', -⟩
  · rw [spelledFrom_append, spelledFrom, hat, List.cons_append, List.cons_append,
      List.cons_append, List.nil_append] at hpositioned ⊢
    rw [List.append_cons, List.append_cons] at hpositioned ⊢
    exact mem_starts hpositioned rfl (reals_spelledFrom_ne_nil hys hreal)
  · rw [hs'] at hs
    cases hs

end parts

/-! ## The bytes of a list -/

section bytes

variable {links : Links} {range : JumpRange} {nodes : List Node} {count : Nat} {e : Encoded}
  {slots : List Slot} {lay : Layout} {length : Nat} {tgt : Label → Nat}

/-- Bytes that are written down one after the other are read one after the other. -/
theorem scanned_of_emitted {pairs : List (Node × Slot)} {bss : List (List UInt8)}
    (hlength : length ≤ 65535) (pre post : List (Node × Slot)) (hpairs : pairs = pre ++ post)
    (hall : ∀ xs n s ys, pairs = xs ++ (n, s) :: ys →
      Emitted links lay length tgt ⟨count + xs.length⟩ n s (endFrom 0 (xs.map Prod.snd)))
    (hbss : List.Forall₂ (fun p bs => emit lay p.1 p.2 = .ok bs)
      ((post.map Prod.snd).zip
        (offsetsFrom (endFrom 0 (pre.map Prod.snd)) (post.map Prod.snd))) bss) :
    Scanned links.context length (endFrom 0 (pre.map Prod.snd)) bss.flatten
      ((reals (spelledFrom count pre.length (endFrom 0 (pre.map Prod.snd)) post)).map fun r =>
        (r.1, r.2.map tgt)) ∧
      endFrom 0 (pre.map Prod.snd) + bss.flatten.length = endFrom 0 (pairs.map Prod.snd) := by
  induction post generalizing pre bss with
  | nil =>
    cases hbss
    subst hpairs
    exact ⟨.nil _, by simp⟩
  | cons p post ih =>
    obtain ⟨n, s⟩ := p
    rw [List.map_cons, offsetsFrom, List.zip_cons_cons] at hbss
    cases hbss with
    | @cons _ bs _ bss hbs hbss =>
      have hend : endFrom 0 ((pre ++ [(n, s)]).map Prod.snd) =
          endFrom 0 (pre.map Prod.snd) + s.width (endFrom 0 (pre.map Prod.snd)) := by
        rw [List.map_append, endFrom_append]
        rfl
      rw [← hend] at hbss
      obtain ⟨hscanned, hlen⟩ := ih (pre ++ [(n, s)]) (by rw [hpairs, List.append_assoc]; rfl) hbss
      rw [hend, List.length_append, List.length_singleton] at hscanned
      rw [hend] at hlen
      obtain ⟨hhead, hwidth⟩ := (hall pre n s post hpairs).scanned hlength hbs
      rw [← hwidth] at hscanned hlen
      refine ⟨?_, ?_⟩
      · rw [spelledFrom, reals_append, List.map_append, List.flatten_cons, ← hwidth]
        exact hhead.append hscanned
      · rw [List.flatten_cons, List.length_append, ← Nat.add_assoc]
        exact hlen

end bytes

/-- Everything that control goes to is an instruction: labels that are used lead to one, and so do
the places behind detours. -/
structure Closed (nodes : List Node) (behind : List Nat) : Prop where
  leads : ∀ l ∈ nodes.flatMap Node.targets, Leads nodes l
  behind : ∀ i ∈ behind, (nodes.drop i).any Node.isReal

/-- The entries of an encoded list as they are written down, with their offsets. -/
def spelling (nodes : List Node) (count : Nat) (slots : List Slot) : List (Node × Nat) :=
  spelledFrom count 0 0 (nodes.zip slots)

/-- Where the instructions of a list start. -/
def starts (ns : List (Node × Nat)) : List Nat := (reals ns).map Prod.fst

/-- Where a label of a list leads to. -/
def leadsTo (ns : List (Node × Nat)) (l : Label) : Nat := (offset? l ns).getD 0

theorem Documented.zip {p : Pool} {nodes : List Node} {slots : List Slot}
    (hdoc : Documented p nodes) :
    ∀ q ∈ nodes.zip slots, ∀ i, q.1 = .instr i → i.Documented p := by
  intro q hq i hi
  refine hdoc i ?_
  rw [← hi]
  exact (List.of_mem_zip hq).1

/-- What is read where a list was written down. -/
def readings (ns : List (Node × Nat)) : List (Nat × Instr Nat) :=
  (reals ns).map fun r => (r.1, r.2.map (leadsTo ns))

theorem map_fst_readings (ns : List (Node × Nat)) : (readings ns).map Prod.fst = starts ns :=
  List.map_map

theorem mem_targets_ascending {τ : Type} {t : τ} (i : Instr τ) :
    t ∈ i.ascending.targets ↔ t ∈ i.targets := by
  cases i with
  | lookupSwitch d ps => simp [Instr.ascending, Instr.targets, List.mem_mergeSort]
  | _ => rfl

/-- Every conditional jump has an opposite. -/
theorem condition_facts : ∀ op : UInt8,
    (Opcode.within Opcode.ifeq Opcode.jsr op || Opcode.isNullTest op) = true →
      op ≠ Opcode.goto → op ≠ Opcode.jsr → (Opcode.invertJump? op).isSome = true :=
  forall_u8 (by decide +kernel)

namespace Encoding

variable {links : Links} {range : JumpRange} {nodes : List Node} {count : Nat} {e : Encoded}
  {slots : List Slot} (he : Encoding links range nodes count e slots)

include he

theorem map_fst : (nodes.zip slots).map Prod.fst = nodes :=
  List.map_fst_zip (Nat.le_of_eq he.settled.length_eq)

theorem map_snd : (nodes.zip slots).map Prod.snd = slots :=
  List.map_snd_zip (Nat.le_of_eq he.settled.length_eq.symm)

theorem settled_zip : Code.Settled links (nodes.zip slots) := by
  intro p hp
  obtain ⟨n, s⟩ := p
  exact (List.forall₂_iff_zip.mp he.settled).2 hp

theorem marks_zip : ∀ p ∈ nodes.zip slots, ∀ l, p.1 = .label l → l.id < count := by
  intro p hp l hl
  refine he.marks l ?_
  rw [← hl]
  exact (List.of_mem_zip hp).1

/-- The layout has the offsets of labels. -/
theorem offset?_eq {l : Label} (hl : l.id < count) :
    (Layout.ofSlots count slots).offset? l = offset? l (spelling nodes count slots) := by
  have hsize : l.id < (Layout.start count).labels.size := by simpa [Layout.start] using hl
  have h := offset?_spelledFrom he.settled_zip 0 hl hsize
  rw [he.map_snd] at h
  have hstart : (Layout.start count).offset? l = none := by
    simp [Layout.offset?, Layout.start, hl]
  rw [hstart, Option.or_none] at h
  exact h

theorem target_eq {l : Label} (hl : l.id < count) :
    (Layout.ofSlots count slots).target l = leadsTo (spelling nodes count slots) l :=
  congrArg (fun o? => o?.getD 0) (he.offset?_eq hl)

/-- The lines that are stored are those of the list. -/
theorem linesAt_spelling (o : Nat) : linesAt (spelling nodes count slots) o =
    (e.lines.filter fun l => l.start.toNat = o).map LineEntry.line := by
  rw [he.lines, spelling, linesAt_spelledFrom he.settled_zip 0 (by
    rw [he.map_snd]
    exact he.length), he.map_snd]

/-- The place behind a wide condition is noted. -/
theorem mem_wideFallthroughs {xs ys : List (Node × Slot)} {n : Node} {s : Slot}
    (heq : nodes.zip slots = xs ++ (n, s) :: ys) (hs : isWideCondition s) :
    xs.length + 1 ∈ e.wideFallthroughs := by
  have hslots : slots = xs.map Prod.snd ++ s :: ys.map Prod.snd := by
    rw [← he.map_snd, heq, List.map_append, List.map_cons]
  rw [he.behind, hslots, List.mem_filterMap]
  refine ⟨(s, xs.length), ?_, by simp [hs]⟩
  rw [List.mem_zipIdx_iff_getElem?]
  simp

section closed

variable (hdoc : Documented links.pool nodes) (hclosed : Closed nodes e.wideFallthroughs)

include hdoc

theorem positioned : Positioned (spelling nodes count slots) :=
  (positioned_spelledFrom he.settled_zip hdoc.zip 0 0).1

theorem starts_lt {o : Nat} (ho : o ∈ starts (spelling nodes count slots)) :
    o < endFrom 0 slots := by
  obtain ⟨⟨_, i⟩, hi, rfl⟩ := List.mem_map.mp ho
  have h := (positioned_spelledFrom he.settled_zip hdoc.zip 0 0).2 _
    (mem_reals.mp hi) rfl
  rwa [he.map_snd] at h

include hclosed

theorem offset?_target {l : Label} (hl : l ∈ nodes.flatMap Node.targets) :
    ∃ o, offset? l (spelling nodes count slots) = some o ∧
      o ∈ starts (spelling nodes count slots) := by
  refine offset?_of_leads he.settled_zip hdoc.zip (he.marks l (he.targets l hl)) ?_
  rw [he.map_fst]
  exact hclosed.leads l hl

theorem offset?_behind {xs ys : List (Node × Slot)} {n : Node} {s : Slot}
    (heq : nodes.zip slots = xs ++ (n, s) :: ys) (hs : isWideCondition s) :
    offset? ⟨count + xs.length⟩ (spelling nodes count slots) =
        some (endFrom 0 (xs.map Prod.snd) + 8) ∧
      endFrom 0 (xs.map Prod.snd) + 8 ∈ starts (spelling nodes count slots) := by
  have hmem : ∀ q ∈ (n, s) :: ys, q ∈ nodes.zip slots := fun q hq => by
    rw [heq]
    exact List.mem_append_right _ hq
  refine ⟨?_, behind_mem_starts he.settled_zip hdoc.zip heq hs ?_⟩
  · have hskip : offset? ⟨count + xs.length⟩ (spelledFrom count xs.length
        (endFrom 0 (xs.map Prod.snd)) ((n, s) :: ys)) = some (endFrom 0 (xs.map Prod.snd) + 8) :=
      offset?_skip (fun q hq => he.settled_zip q (hmem q (List.mem_cons_of_mem _ hq)))
        (fun q hq => he.marks_zip q (hmem q (List.mem_cons_of_mem _ hq)))
        (he.settled_zip _ (hmem _ List.mem_cons_self)) hs
    rw [spelling, heq, spelledFrom_append, offset?_append, Nat.zero_add, hskip]
    rfl
  · have hdrop := hclosed.behind _ (he.mem_wideFallthroughs heq hs)
    have hnodes : nodes = xs.map Prod.fst ++ n :: ys.map Prod.fst := by
      rw [← he.map_fst, heq, List.map_append, List.map_cons]
    have hlength : xs.length = (xs.map Prod.fst).length := (List.length_map _).symm
    rwa [hnodes, hlength, List.drop_length_add_append] at hdrop

/-- What is known about every entry when it is written down. -/
theorem emitted (hrange : range.IsShort)
    {xs ys : List (Node × Slot)} {n : Node} {s : Slot}
    (heq : nodes.zip slots = xs ++ (n, s) :: ys) :
    Emitted links (.ofSlots count slots) (endFrom 0 slots)
      (leadsTo (spelling nodes count slots)) ⟨count + xs.length⟩ n s
      (endFrom 0 (xs.map Prod.snd)) := by
  have hmem : (n, s) ∈ nodes.zip slots := by
    rw [heq]
    simp
  have hslots : slots = xs.map Prod.snd ++ s :: ys.map Prod.snd := by
    rw [← he.map_snd, heq, List.map_append, List.map_cons]
  refine ⟨he.settled_zip _ hmem, hdoc.zip _ hmem, ?_, ?_, ?_, ?_⟩
  · rw [hslots, endFrom_append]
    exact le_endFrom _ _
  · intro op t hpiece hwide
    have hcontains := he.narrow (s, endFrom 0 (xs.map Prod.snd)) (by
      rw [hslots, offsetsFrom_append, List.zip_append (by rw [length_offsetsFrom])]
      simp [offsetsFrom]) op t hpiece hwide
    exact hrange.bounds hcontains
  · intro t ht
    have htarget : t ∈ nodes.flatMap Node.targets :=
      List.mem_flatMap.mpr ⟨n, (List.of_mem_zip hmem).1, ht⟩
    obtain ⟨o, ho, hstart⟩ := he.offset?_target hdoc hclosed htarget
    rw [he.target_eq (he.marks t (he.targets t htarget))]
    refine ⟨rfl, ?_⟩
    rw [leadsTo, ho]
    exact he.starts_lt hdoc hstart
  · intro hs
    obtain ⟨ho, hstart⟩ := he.offset?_behind hdoc hclosed heq hs
    refine ⟨?_, he.starts_lt hdoc hstart⟩
    rw [leadsTo, ho]
    rfl

/-- The bytes are read as the instructions of the list as it is spelled out. -/
theorem scanned (hrange : range.IsShort) :
    e.bytes.length = endFrom 0 slots ∧
      scan links.context e.bytes = .ok (readings (spelling nodes count slots)) := by
  obtain ⟨bss, hbss, hbytes⟩ := he.bytes
  have hall := scanned_of_emitted he.length [] (nodes.zip slots) rfl
    (fun xs n s ys heq => he.emitted hdoc hclosed hrange heq) (by rwa [he.map_snd])
  obtain ⟨hscanned, hlength⟩ := hall
  rw [List.nil_append, he.map_snd] at hlength
  rw [hbytes]
  have hlength : bss.flatten.length = endFrom 0 slots := (Nat.zero_add _).symm.trans hlength
  rw [← hlength] at hscanned
  exact ⟨hlength, hscanned.scan⟩

/-- Every label of the list as it is written down leads to an instruction. -/
theorem resolved {r : Nat × Instr Label} (hr : r ∈ reals (spelling nodes count slots)) :
    ∀ t ∈ r.2.targets, ∃ o, offset? t (spelling nodes count slots) = some o ∧
      o ∈ starts (spelling nodes count slots) := by
  intro t ht
  obtain ⟨xs, n, s, ys, heq, hat⟩ := mem_spelledFrom (mem_reals.mp hr)
  have hmem : (n, s) ∈ nodes.zip slots := by
    rw [heq]
    simp
  have hnode : t ∈ n.targets → t ∈ nodes.flatMap Node.targets := fun h =>
    List.mem_flatMap.mpr ⟨n, (List.of_mem_zip hmem).1, h⟩
  rw [Nat.zero_add] at hat
  rcases spelledAt_cases (he.settled_zip _ hmem) ⟨count + xs.length⟩
    (endFrom 0 (xs.map Prod.snd)) with ⟨op, t', rfl, hs, -, h⟩ | ⟨-, h⟩
  · rw [h] at hat
    simp only [List.mem_cons, Prod.mk.injEq, Node.instr.injEq, List.not_mem_nil, or_false,
      reduceCtorEq, false_and] at hat
    rcases hat with ⟨hi, -⟩ | ⟨hi, -⟩
    · rw [hi] at ht
      obtain rfl := List.mem_singleton.mp ht
      exact ⟨_, he.offset?_behind hdoc hclosed heq hs⟩
    · rw [hi] at ht
      obtain rfl := List.mem_singleton.mp ht
      exact he.offset?_target hdoc hclosed (hnode List.mem_cons_self)
  · rw [h] at hat
    refine he.offset?_target hdoc hclosed (hnode ?_)
    obtain ⟨hi, -⟩ := Prod.mk.inj (List.mem_singleton.mp hat)
    cases n with
    | label | line => cases hi
    | instr i =>
      rw [Node.instr.inj hi] at ht
      exact (mem_targets_ascending i).mp ht

theorem wellRead (hrange : range.IsShort) {handlers : List HandlerEntry}
    (hhandlers : ∀ h ∈ handlers, ∀ o ∈ handlerOffsets h,
      o ∈ starts (spelling nodes count slots) ∨ o = endFrom 0 slots) :
    WellRead e.bytes.length (readings (spelling nodes count slots)) handlers := by
  have hstarts := map_fst_readings (spelling nodes count slots)
  rw [(he.scanned hdoc hclosed hrange).1]
  refine ⟨?_, ?_, ?_, ?_⟩
  · rw [hstarts]
    exact (he.positioned hdoc).sorted
  · intro p hp
    refine he.starts_lt hdoc ?_
    rw [← hstarts]
    exact List.mem_map_of_mem hp
  · intro p hp o ho
    obtain ⟨r, hr, rfl⟩ := List.mem_map.mp hp
    rw [Instr.targets_map, List.mem_map] at ho
    obtain ⟨t, ht, rfl⟩ := ho
    obtain ⟨o, ho, hstart⟩ := he.resolved hdoc hclosed hr t ht
    rw [hstarts, leadsTo, ho]
    exact hstart
  · rw [hstarts]
    exact hhandlers

/-- What the list says as it is written down is what was read. -/
theorem view_spelling : view (spelling nodes count slots) =
    (readings (spelling nodes count slots)).map fun p =>
      (p.1, (e.lines.filter fun l => l.start.toNat = p.1).map LineEntry.line, p.2.map some) := by
  rw [view, readings, List.map_map]
  refine List.map_congr_left fun r hr => ?_
  simp only [Function.comp_apply, Instr.map_map, Prod.mk.injEq, true_and]
  refine ⟨he.linesAt_spelling r.1, Instr.map_congr fun t ht => ?_⟩
  obtain ⟨o, ho, -⟩ := he.resolved hdoc hclosed hr t ht
  rw [leadsTo, ho]
  rfl

end closed

theorem map_fst_spelling :
    (spelling nodes count slots).map Prod.fst = spellOut e.wideFallthroughs count nodes := by
  have hbehind : ∀ p ∈ (nodes.zip slots).zipIdx,
      p.2 + 1 ∈ e.wideFallthroughs ↔ isWideCondition p.1.2 := by
    rintro ⟨⟨n, s⟩, i⟩ hp
    have hslot : slots[i]? = some s := by
      rw [List.mem_zipIdx_iff_getElem?, List.getElem?_zip_eq_some] at hp
      exact hp.2
    rw [he.behind, List.mem_filterMap]
    constructor
    · rintro ⟨⟨s', j⟩, hmem, heq⟩
      rw [List.mem_zipIdx_iff_getElem?] at hmem
      simp only at heq
      split at heq
      · rename_i hs
        obtain rfl : j = i := Nat.succ.inj (Option.some.inj heq)
        rw [hslot] at hmem
        rwa [Option.some.inj hmem]
      · cases heq
    · intro hs
      exact ⟨(s, i), List.mem_zipIdx_iff_getElem?.mpr hslot, if_pos hs⟩
  rw [spelling, map_fst_spelledFrom he.settled_zip 0 hbehind, he.map_fst]
  rfl

/-- Only conditional jumps become detours. -/
theorem detour_spec (hdoc : Documented links.pool nodes) {i : Nat} (hi : i ∈ e.wideFallthroughs) :
    ∃ k op t, i = k + 1 ∧ nodes[k]? = some (.instr (.jump op t)) ∧
      (Opcode.invertJump? op).isSome := by
  rw [he.behind, List.mem_filterMap] at hi
  obtain ⟨⟨s, k⟩, hmem, heq⟩ := hi
  simp only at heq
  split at heq
  · rename_i hs
    rw [List.mem_zipIdx_iff_getElem?] at hmem
    obtain ⟨hlt, -⟩ := List.getElem?_eq_some_iff.mp hmem
    rw [← he.settled.length_eq] at hlt
    obtain ⟨n, hnode⟩ : ∃ n, nodes[k]? = some n := ⟨_, List.getElem?_eq_getElem hlt⟩
    have hzip : (n, s) ∈ nodes.zip slots :=
      List.mem_of_getElem? (List.getElem?_zip_eq_some.mpr ⟨hnode, hmem⟩)
    obtain ⟨op, t, rfl, -, -, hgoto, hjsr⟩ :=
      eq_jump_of_isWideCondition (he.settled_zip _ hzip) hs
    have hop := hdoc _ (List.mem_of_getElem? hnode)
    exact ⟨k, op, t, (Option.some.inj heq).symm, hnode, condition_facts op hop hgoto hjsr⟩
  · cases heq

/-- Decoding what was encoded gives the program that was encoded, for later constants and with
exception handlers too. -/
theorem decode (hdoc : Documented links.pool nodes) (hclosed : Closed nodes e.wideFallthroughs)
    (hrange : range.IsShort) {handlers : List HandlerEntry}
    (hhandlers : ∀ h ∈ handlers, ∀ o ∈ handlerOffsets h,
      o ∈ starts (spelling nodes count slots) ∨ o = endFrom 0 slots) {blocks : List TryBlock}
    (hblocks : handlers.mapM (tryBlock links.context (labelTable (labelOffsets
      (readings (spelling nodes count slots)) handlers))) = .ok blocks) :
    ∃ l offsets, Code.decode links.context e.bytes handlers e.lines = .ok (l, offsets) ∧
      l.blocks = blocks ∧
      l.nodes.toList = (decodedEntries (endFrom 0 slots) (readings (spelling nodes count slots))
        handlers e.lines).map Prod.fst ∧
      program l.nodes.toList = program (spellOut e.wideFallthroughs count nodes) := by
  obtain ⟨hlength, hscan⟩ := he.scanned hdoc hclosed hrange
  have hread := he.wellRead hdoc hclosed hrange hhandlers
  refine ⟨_, _, decode_eq hscan hread hblocks, rfl, ?_, ?_⟩
  · rw [hlength]
    rfl
  · rw [← he.map_fst_spelling]
    refine program_eq_of_view_eq hread.positioned (he.positioned hdoc) ?_
    rw [he.view_spelling hdoc hclosed]
    exact view_decodedEntries hread

end Encoding

/-- **Decoding what was encoded.** Whatever has to become wide, decoding gives the program that was
encoded, as it is spelled out; what becomes wide in another form are conditional jumps. -/
theorem decode_encodeWithin {range : JumpRange} {nodes : List Node} {count : Nat} {s s' : Links}
    {e : Encoded} (hs : s.pool.Reachable) (hdoc : Documented s.pool nodes)
    (hleads : ∀ l ∈ nodes.flatMap Node.targets, Leads nodes l)
    (hrange : range.IsShort)
    (hencode : (encodeWithin range nodes count).run.run s = (.ok e, s'))
    (hbehind : ∀ i ∈ e.wideFallthroughs, (nodes.drop i).any Node.isReal) :
    (∀ i ∈ e.wideFallthroughs, ∃ k op t, i = k + 1 ∧ nodes[k]? = some (.instr (.jump op t)) ∧
      (Opcode.invertJump? op).isSome) ∧
    ∃ l offsets, decode s'.context e.bytes [] e.lines = .ok (l, offsets) ∧
      program l.nodes.toList = program (spellOut e.wideFallthroughs count nodes) := by
  obtain ⟨hextends, slots, he⟩ := gives_encodeWithin range nodes count s e s' hs hencode
  have hdoc' : Documented s'.pool nodes := fun i hi => (hdoc i hi).extends hextends.pool
  have hblocks : ([] : List HandlerEntry).mapM (tryBlock s'.context (labelTable (labelOffsets
      (readings (spelling nodes count slots)) []))) = .ok [] := rfl
  obtain ⟨l, offsets, hdecode, -, -, hprogram⟩ := he.decode hdoc' ⟨hleads, hbehind⟩ hrange
    (fun h hh => by cases hh) hblocks
  exact ⟨fun i hi => he.detour_spec hdoc' hi, l, offsets, hdecode, hprogram⟩

/-! ## A loop -/

/-- How encoding succeeds. -/
theorem encodeWithin_eq_ok {range : JumpRange} {nodes : List Node} {count : Nat}
    {pieces : List Piece} {s s' : Links} {e : Encoded}
    (hpieces : (nodes.mapM Piece.ofNode).run.run s = (.ok pieces, s'))
    (hstrange : strangeLabel? count pieces = none) (hmissing : missingLabels count nodes = [])
    (hassemble : assemble range count pieces = .ok e) :
    (encodeWithin range nodes count).run.run s = (.ok e, s') := by
  refine Growing.run_bind.mpr ⟨pieces, s', hpieces, ?_⟩
  simp only [hstrange, hmissing, hassemble]
  rfl

/-- A loop with a condition at its end, and what stands behind it. -/
def loopThen (behind : List Node) : List Node :=
  [.label ⟨0⟩, .instr (.plain 0), .instr (.jump 154 ⟨0⟩)] ++ behind

theorem documented_loopThen {p : Pool} {behind : List Node} (h : Documented p behind) :
    Documented p (loopThen behind) := by
  intro i hi
  rcases List.mem_append.mp hi with hi | hi
  · simp only [List.mem_cons, Node.instr.injEq, List.not_mem_nil, or_false, reduceCtorEq,
      false_or] at hi
    rcases hi with rfl | rfl
    · show Opcode.isPlain 0 = true
      decide
    · show (Opcode.within Opcode.ifeq Opcode.jsr 154 || Opcode.isNullTest 154) = true
      decide
  · exact h i hi

theorem leads_loopThen {behind : List Node} (hnot : .label ⟨0⟩ ∉ behind) :
    Leads (loopThen behind) ⟨0⟩ :=
  ⟨[], .instr (.plain 0) :: .instr (.jump 154 ⟨0⟩) :: behind, rfl, by simp [hnot], rfl⟩

/-- The condition becomes a detour that skips to the instruction behind it. -/
theorem decode_encodeWithin_loop : ∃ e s' l offsets,
    (encodeWithin ⟨0, 0⟩ (loopThen [.instr (.plain 177)]) 1).run.run ⟨.empty, #[]⟩ = (.ok e, s') ∧
    decode s'.context e.bytes [] e.lines = .ok (l, offsets) ∧
    program l.nodes.toList = [([], .plain 0), ([], .jump 153 (some 3)), ([], .jump 167 (some 0)),
      ([], .plain 177)] := by
  have hrun : (encodeWithin ⟨0, 0⟩ (loopThen [.instr (.plain 177)]) 1).run.run ⟨.empty, #[]⟩ =
      (.ok ⟨[0, 153, 0, 8, 200, 255, 255, 255, 252, 177], #[0, 0, 1, 9], #[some 0], [], [3]⟩,
        ⟨.empty, #[]⟩) :=
    encodeWithin_eq_ok rfl rfl (by decide +kernel) (by decide +kernel)
  have hempty : (⟨.empty, #[]⟩ : Links).pool.Reachable := Pool.Extends.refl
  have hdoc : Documented Pool.empty (loopThen [.instr (.plain 177)]) := by
    refine documented_loopThen fun i hi => ?_
    rw [Node.instr.inj (List.mem_singleton.mp hi)]
    show Opcode.isPlain 177 = true
    decide
  have hleads : ∀ l ∈ (loopThen [.instr (.plain 177)]).flatMap Node.targets,
      Leads (loopThen [.instr (.plain 177)]) l := by
    intro l hl
    rw [List.mem_singleton.mp hl]
    exact leads_loopThen (by simp)
  obtain ⟨-, l, offsets, hdecode, hprogram⟩ := decode_encodeWithin hempty hdoc hleads
    (JumpRange.isShort_of_le (Int.le_refl 0)) hrun (by decide)
  exact ⟨_, _, l, offsets, hrun, hdecode, hprogram.trans rfl⟩

/-- At the end of the code there is nothing to skip to: what is encoded is refused then. -/
theorem decode_loop_at_end : Documented Pool.empty (loopThen []) ∧ Leads (loopThen []) ⟨0⟩ ∧
    ∃ e s', (encodeWithin ⟨0, 0⟩ (loopThen []) 1).run.run ⟨.empty, #[]⟩ = (.ok e, s') ∧
      decode s'.context e.bytes [] e.lines = .error (.badJumpTarget 1 9) :=
  ⟨documented_loopThen fun _ hi => absurd hi List.not_mem_nil, leads_loopThen List.not_mem_nil,
    ⟨[0, 153, 0, 8, 200, 255, 255, 255, 252], #[0, 0, 1], #[some 0], [], [3]⟩, ⟨.empty, #[]⟩,
    encodeWithin_eq_ok rfl rfl (by decide +kernel) (by decide +kernel), rfl⟩

end ClassWeave.Code
