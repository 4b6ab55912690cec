import ClassWeave.Proofs.CodeErrors
import ClassWeave.Proofs.CodeRoundTrip

/-!
# The layout of what is written down

Code is laid out again and again until no more jumps have to become wide. Each time but the last at
least one does, so there is at most one layout more than there are jumps. Nothing but the last one
matters for the bytes: every entry starts at its offset and takes up its width, and what jumps and
switches hold are the distances to their labels in that very layout, even though each widening has
moved what comes behind it.

Nothing is asked of the constants here, so all of this holds whatever the pool is like.
-/

namespace ClassWeave

/-- The entry is a jump. -/
def Node.isJump : Node → Bool
  | .instr (.jump ..) => true
  | _ => false

namespace Code

variable {range : JumpRange} {count : Nat} {slots : List Slot} {nodes : List Node}
  {pieces : List Piece} {e : Encoded} {links links' : Links}

/-! ## Settling the entries -/

/-- Errors of no kind. -/
instance : ClassError.Apart fun _ => False where
  not_of _ := id

theorem stands_all (h : (nodes.mapM Piece.ofNode).run.run links = (.ok pieces, links')) :
    List.Forall₂ Piece.Stands nodes pieces := by
  have hall : Growing.Fulfils (List.Forall₂ Piece.Stands nodes) (fun _ => False)
      (nodes.mapM Piece.ofNode) :=
    Growing.Fulfils.mapM_forall₂ fun n _ => Piece.fulfils_ofNode n
  exact (hall links).ok (congrArg Prod.fst h)

/-- What has been checked where encoding succeeds. -/
theorem encodeWithin_inv (h : (encodeWithin range nodes count).run.run links = (.ok e, links')) :
    ∃ pieces, (nodes.mapM Piece.ofNode).run.run links = (.ok pieces, links') ∧
      (∀ l, .label l ∈ nodes → l.id < count) ∧
      (∀ l ∈ nodes.flatMap Node.targets, .label l ∈ nodes) ∧
      assemble range count pieces = .ok e := by
  obtain ⟨pieces, s, hpieces, h⟩ := Growing.run_bind.mp h
  have hstands := stands_all hpieces
  cases hstrange : strangeLabel? count pieces with
  | some l =>
    simp only [hstrange] at h
    exact absurd h Growing.run_throw
  | none =>
    cases hmissing : missingLabels count nodes with
    | cons l ls =>
      simp only [hstrange, hmissing] at h
      exact absurd h Growing.run_throw
    | nil =>
      simp only [hstrange, hmissing] at h
      obtain ⟨hassemble, rfl⟩ := Prod.mk.inj h
      refine ⟨pieces, hpieces, fun l hl => ?_, missingLabels_eq_nil hmissing, hassemble⟩
      exact lt_of_strangeLabel? hstrange ((Piece.Stands.mem_iff hstands l).mpr hl)

/-- All pieces as they are laid out first. -/
def narrowSlots (pieces : List Piece) : List Slot := pieces.map (⟨·, false⟩)

/-- As many jumps can become wide as there are. -/
theorem narrowJumps_narrowSlots (h : List.Forall₂ Piece.Stands nodes pieces) :
    narrowJumps (narrowSlots pieces) = nodes.countP Node.isJump := by
  induction h with
  | nil => rfl
  | @cons n piece nodes pieces hn _ ih =>
    have hhead : Slot.isNarrowJump ⟨piece, false⟩ = n.isJump := by
      cases hn with
      | @bytes i htargets bs =>
        cases i with
        | jump => cases htargets
        | _ => rfl
      | _ => rfl
    rw [narrowJumps, narrowSlots, List.map_cons, List.countP_cons, List.countP_cons, hhead, ← ih]
    rfl

/-! ## The loop -/

/-- What a layout makes wide. -/
def widened (range : JumpRange) (count : Nat) (slots : List Slot) : List Slot :=
  (Layout.ofSlots count slots).widenAll range slots

/-- The loop over layouts: it ends with the first one that makes no more jumps wide. The number is
that of the layouts that are computed. -/
inductive Settles (range : JumpRange) (count : Nat) : List Slot → Nat → List Slot × Layout → Prop
  | done {slots : List Slot} (h : widened range count slots = slots) :
      Settles range count slots 1 (slots, .ofSlots count slots)
  | again {slots : List Slot} {n : Nat} {result : List Slot × Layout}
      (h : widened range count slots ≠ slots)
      (hrest : Settles range count (widened range count slots) n result) :
      Settles range count slots (n + 1) result

/-- A layout makes jumps wide just where it leaves fewer of them narrow. -/
theorem widened_eq_self_iff : widened range count slots = slots ↔
    ¬ narrowJumps (widened range count slots) < narrowJumps slots := by
  have hlength : (Layout.ofSlots count slots).offsets.toList.length = slots.length := by
    rw [Layout.offsets_ofSlots, length_offsetsFrom]
  constructor
  · intro h
    rw [h]
    exact Nat.lt_irrefl _
  · exact (Layout.widenAll_eq_self range hlength).2

/-- **The loop ends**, with at most one layout more than there are narrow jumps. -/
theorem exists_settles (range : JumpRange) (count : Nat) (slots : List Slot) :
    ∃ n, n ≤ narrowJumps slots + 1 ∧ Settles range count slots n (settle range count slots) := by
  induction slots using settle.induct range count with
  | case1 slots lay next hlt ih =>
    obtain ⟨n, hn, hsettles⟩ := ih
    have hchanged : widened range count slots ≠ slots := fun h => widened_eq_self_iff.mp h hlt
    refine ⟨n + 1, ?_, ?_⟩
    · have hfewer : narrowJumps next < narrowJumps slots := hlt
      omega
    · rw [settle, if_pos hlt]
      exact .again hchanged hsettles
  | case2 slots lay next hge =>
    refine ⟨1, Nat.le_add_left _ _, ?_⟩
    rw [settle, if_neg hge]
    exact .done (widened_eq_self_iff.mpr hge)

/-! ## Where labels are -/

namespace Layout

variable {lay : Layout} {l : Label} {before after : List Slot} {s : Slot}

theorem size_labels_foldl (lay : Layout) (slots : List Slot) :
    (slots.foldl place lay).labels.size = lay.labels.size := by
  induction slots generalizing lay with
  | nil => rfl
  | cons s slots ih => exact (ih (lay.place s)).trans (size_labels_place s)

theorem size_labels_ofSlots (count : Nat) (slots : List Slot) :
    (ofSlots count slots).labels.size = count := by
  rw [ofSlots, size_labels_foldl, start, Array.size_replicate]

theorem offset?_foldl_of_not_mem (h : .label l ∉ slots.map Slot.piece) :
    (slots.foldl place lay).offset? l = lay.offset? l := by
  induction slots generalizing lay with
  | nil => rfl
  | cons s slots ih =>
    rw [List.map_cons, List.mem_cons, not_or] at h
    exact (ih h.2).trans (offset?_place_of_ne (Ne.symm h.1))

/-- A label has the offset of its last marker. -/
theorem offset?_last_marker (hid : l.id < count) (hs : s.piece = .label l)
    (hnot : .label l ∉ after.map Slot.piece) :
    (ofSlots count (before ++ s :: after)).offset? l = some (endFrom 0 before) := by
  have hsize : l.id < (ofSlots count before).labels.size := by rwa [size_labels_ofSlots]
  -- nothing behind the marker gives the label another offset
  rw [ofSlots, List.foldl_append, List.foldl_cons, offset?_foldl_of_not_mem hnot]
  show ((ofSlots count before).place s).offset? l = _
  rw [← length_ofSlots count before]
  simp [offset?, place, hs, hsize]

theorem offset?_eq_none (h : .label l ∉ slots.map Slot.piece) :
    (ofSlots count slots).offset? l = none := by
  rw [ofSlots, offset?_foldl_of_not_mem h, offset?, start, Array.getElem?_replicate]
  split <;> rfl

end Layout

/-! ## The bytes of an entry -/

/-- The label stands so many bytes behind an offset. -/
def Away (offset? : Label → Option Nat) (o : Nat) (t : Label) (distance : Int) : Prop :=
  ∃ k, offset? t = some k ∧ distance = (k : Int) - o

/-- The bytes of an entry at an offset, where it is told whether a jump has become wide. A wide
condition is a detour: its opposite goes over a wide jump, which starts three bytes later. The
operands of a switch are at a multiple of four. -/
inductive EntryBytes (range : JumpRange) (offset? : Label → Option Nat) (o : Nat) :
    Node → Bool → List UInt8 → Prop
  | short {op : UInt8} {t : Label} {d : Int16} (hrange : range.contains d.toInt)
      (hd : Away offset? o t d.toInt) :
      EntryBytes range offset? o (.instr (.jump op t)) false (op :: Bytes.i16 d)
  | wideGoto {t : Label} {d : Int32} (hd : Away offset? o t d.toInt) :
      EntryBytes range offset? o (.instr (.jump Opcode.goto t)) true (Opcode.goto_w :: Bytes.i32 d)
  | wideJsr {t : Label} {d : Int32} (hd : Away offset? o t d.toInt) :
      EntryBytes range offset? o (.instr (.jump Opcode.jsr t)) true (Opcode.jsr_w :: Bytes.i32 d)
  | detour {op inverse : UInt8} {t : Label} {d : Int32}
      (hinverse : Opcode.invertJump? op = some inverse) (hd : Away offset? (o + 3) t d.toInt) :
      EntryBytes range offset? o (.instr (.jump op t)) true
        ([inverse, 0, 8, Opcode.goto_w] ++ Bytes.i32 d)
  | tableSwitch {low high : Int32} {t : Label} {ts : List Label} {wide : Bool} {padding : Nat}
      {d : Int32} {ds : List Int32} (hless : padding < 4) (haligned : 4 ∣ o + 1 + padding)
      (hd : Away offset? o t d.toInt)
      (hds : List.Forall₂ (fun t d => Away offset? o t d.toInt) ts ds) :
      EntryBytes range offset? o (.instr (.tableSwitch low high t ts)) wide
        (Opcode.tableswitch :: (List.replicate padding 0 ++ Bytes.i32 d ++ Bytes.i32 low ++
          Bytes.i32 high ++ ds.flatMap Bytes.i32))
  | lookupSwitch {t : Label} {ps : List (Int32 × Label)} {wide : Bool} {padding : Nat} {d : Int32}
      {ds : List (Int32 × Int32)} (hless : padding < 4) (haligned : 4 ∣ o + 1 + padding)
      (hd : Away offset? o t d.toInt)
      (hds : List.Forall₂ (fun p q => q.1 = p.1 ∧ Away offset? o p.2 q.2.toInt)
        (ps.mergeSort fun a b => a.1 ≤ b.1) ds) :
      EntryBytes range offset? o (.instr (.lookupSwitch t ps)) wide
        (Opcode.lookupswitch :: (List.replicate padding 0 ++ Bytes.i32 d ++
          Bytes.u32 (UInt32.ofNat ps.length) ++
          ds.flatMap fun (key, d) => Bytes.i32 key ++ Bytes.i32 d))
  | other {i : Instr Label} {wide : Bool} (htargets : i.targets = []) (bs : List UInt8) :
      EntryBytes range offset? o (.instr i) wide bs
  | label (l : Label) {wide : Bool} : EntryBytes range offset? o (.label l) wide []
  | line (n : UInt16) {wide : Bool} : EntryBytes range offset? o (.line n) wide []

theorem switchPadding_spec (o : Nat) : switchPadding o < 4 ∧ 4 ∣ o + 1 + switchPadding o := by
  unfold switchPadding
  omega

section emit

variable {lay : Layout} {n : Node} {s : Slot} {o : Nat} {bs : List UInt8} {t : Label}

/-- What is written down as the distance of a label is that distance. -/
theorem away_ofInt (ht : ∃ k, lay.offset? t = some k ∧ k ≤ 65535) (ho : o ≤ 65538) :
    Away lay.offset? o t (Int32.ofInt ((lay.target t : Int) - o)).toInt := by
  obtain ⟨k, hk, hle⟩ := ht
  refine ⟨k, hk, ?_⟩
  rw [Layout.target, hk, Option.getD_some, Int32.toInt_ofInt_of_le (by omega) (by omega)]

theorem entryBytes_jump {op : UInt8} {wide : Bool} (ht : ∃ k, lay.offset? t = some k ∧ k ≤ 65535)
    (ho : o ≤ 65535) (hshort : range.IsShort)
    (hnarrow : wide = false → range.contains ((lay.target t : Int) - o))
    (hemit : emit lay ⟨.jump op t, wide⟩ o = .ok bs) :
    EntryBytes range lay.offset? o (.instr (.jump op t)) wide bs := by
  cases wide with
  | false =>
    obtain rfl := Except.ok.inj hemit
    have hin := hnarrow rfl
    obtain ⟨hlow, hhigh⟩ := hshort.bounds hin
    have hd : (Int16.ofInt ((lay.target t : Int) - o)).toInt = (lay.target t : Int) - o :=
      Int16.toInt_ofInt_of_le (by omega) (by omega)
    obtain ⟨k, hk, -⟩ := ht
    refine .short (by rwa [hd]) ⟨k, hk, ?_⟩
    rw [hd, Layout.target, hk, Option.getD_some]
  | true =>
    by_cases hgoto : op = Opcode.goto
    · subst hgoto
      obtain rfl := Except.ok.inj hemit
      exact .wideGoto (away_ofInt ht (by omega))
    · by_cases hjsr : op = Opcode.jsr
      · subst hjsr
        obtain rfl := Except.ok.inj hemit
        exact .wideJsr (away_ofInt ht (by omega))
      · simp only [emit, hgoto, hjsr, if_true, if_false] at hemit
        -- a jump that has no opposite is not written down at all
        cases hinverse : Opcode.invertJump? op with
        | none =>
          rw [hinverse] at hemit
          cases hemit
        | some inverse =>
          rw [hinverse] at hemit
          obtain rfl := Except.ok.inj hemit
          exact .detour hinverse (away_ofInt ht (by omega))

/-- What is written down for an entry, in a layout that its jumps fit. -/
theorem entryBytes_of_emit (hn : Piece.Stands n s.piece) (hemit : emit lay s o = .ok bs)
    (htargets : ∀ t ∈ n.targets, ∃ k, lay.offset? t = some k ∧ k ≤ 65535) (ho : o ≤ 65535)
    (hshort : range.IsShort) (hnarrow : ∀ op t, s.piece = .jump op t → s.wide = false →
      range.contains ((lay.target t : Int) - o)) :
    EntryBytes range lay.offset? o n s.wide bs := by
  obtain ⟨piece, wide⟩ := s
  obtain ⟨hless, haligned⟩ := switchPadding_spec o
  cases hn with
  | label l =>
    obtain rfl := Except.ok.inj hemit
    exact .label l
  | line m =>
    obtain rfl := Except.ok.inj hemit
    exact .line m
  | bytes hnone => exact .other hnone bs
  | jump op t =>
    exact entryBytes_jump (htargets t List.mem_cons_self) ho hshort (hnarrow op t rfl) hemit
  | tableSwitch low high t ts =>
    obtain rfl := Except.ok.inj hemit
    have hd := away_ofInt (o := o) (htargets t List.mem_cons_self) (by omega)
    have hds : List.Forall₂ (fun t (d : Int32) => Away lay.offset? o t d.toInt) ts
        (ts.map fun t => Int32.ofInt ((lay.target t : Int) - o)) := by
      rw [List.forall₂_map_right_iff, List.forall₂_same]
      exact fun t' ht' => away_ofInt (htargets t' (List.mem_cons_of_mem _ ht')) (by omega)
    have hbytes : (ts.flatMap fun t => distance (lay.target t) o) =
        (ts.map fun t => Int32.ofInt ((lay.target t : Int) - o)).flatMap Bytes.i32 := by
      rw [List.flatMap_map]
      rfl
    rw [hbytes]
    exact .tableSwitch hless haligned hd hds
  | lookupSwitch t ps =>
    obtain rfl := Except.ok.inj hemit
    have hd := away_ofInt (o := o) (htargets t List.mem_cons_self) (by omega)
    have hds : List.Forall₂ (fun (p : Int32 × Label) (q : Int32 × Int32) =>
          q.1 = p.1 ∧ Away lay.offset? o p.2 q.2.toInt) (ps.mergeSort fun a b => a.1 ≤ b.1)
        ((ps.mergeSort fun a b => a.1 ≤ b.1).map fun p =>
          (p.1, Int32.ofInt ((lay.target p.2 : Int) - o))) := by
      rw [List.forall₂_map_right_iff, List.forall₂_same]
      intro p hp
      have hmem : p.2 ∈ Node.targets (.instr (.lookupSwitch t ps)) :=
        List.mem_cons_of_mem _ (List.mem_map_of_mem (List.mem_mergeSort.mp hp))
      exact ⟨rfl, away_ofInt (htargets p.2 hmem) (by omega)⟩
    have hcount : (ps.mergeSort fun a b => a.1 ≤ b.1).length = ps.length := List.length_mergeSort _
    have hbytes : ((ps.mergeSort fun a b => a.1 ≤ b.1).flatMap fun p =>
          Bytes.i32 p.1 ++ distance (lay.target p.2) o) =
        ((ps.mergeSort fun a b => a.1 ≤ b.1).map fun p =>
          (p.1, Int32.ofInt ((lay.target p.2 : Int) - o))).flatMap fun (key, d) =>
            Bytes.i32 key ++ Bytes.i32 d := by
      rw [List.flatMap_map]
      rfl
    rw [hcount, hbytes]
    exact .lookupSwitch hless haligned hd hds

end emit

/-! ## All entries -/

theorem length_flatten_take_le (bss : List (List UInt8)) (i : Nat) :
    (bss.take i).flatten.length ≤ bss.flatten.length := by
  conv => rhs; rw [← List.take_append_drop i bss]
  rw [List.flatten_append, List.length_append]
  exact Nat.le_add_right _ _

/-- What is written down for some pieces lies one behind the other, each part at its offset. -/
theorem parts_of_emits {lay : Layout} {o : Nat} {bss : List (List UInt8)}
    (h : List.Forall₂ (fun p bs => emit lay p.1 p.2 = .ok bs) (slots.zip (offsetsFrom o slots)) bss) :
    bss.length = slots.length ∧ o + bss.flatten.length = endFrom o slots ∧
      ∀ {i : Nat} {s : Slot}, slots[i]? = some s → ∃ bs, bss[i]? = some bs ∧
        (offsetsFrom o slots)[i]? = some (o + (bss.take i).flatten.length) ∧
        emit lay s (o + (bss.take i).flatten.length) = .ok bs := by
  induction slots generalizing o bss with
  | nil =>
    cases h
    exact ⟨rfl, rfl, fun hs => nomatch hs⟩
  | cons t slots ih =>
    rw [offsetsFrom, List.zip_cons_cons] at h
    obtain ⟨bs, bss, hbs, hrest, rfl⟩ := List.forall₂_cons_left_iff.mp h
    have hwidth : bs.length = t.width o := length_of_emit hbs
    rw [← hwidth] at hrest
    -- the rest is laid out from the end of the first part on
    obtain ⟨hcount, hend, hparts⟩ := ih hrest
    refine ⟨congrArg (· + 1) hcount, ?_, fun {i s} hs => ?_⟩
    · rw [List.flatten_cons, List.length_append, ← Nat.add_assoc, hend, endFrom, hwidth]
    · cases i with
      | zero =>
        obtain rfl := Option.some.inj hs
        exact ⟨bs, rfl, rfl, hbs⟩
      | succ i =>
        obtain ⟨bs', hget, hoffset, hemit⟩ := hparts (i := i) hs
        have hstart : o + ((bs :: bss).take (i + 1)).flatten.length =
            o + bs.length + (bss.take i).flatten.length := by
          rw [List.take_succ_cons, List.flatten_cons, List.length_append, Nat.add_assoc]
        rw [hstart, offsetsFrom, ← hwidth]
        exact ⟨bs', hget, hoffset, hemit⟩

/-- The widths of some pieces lead from their first offset to their end. -/
theorem sum_widths (o : Nat) (slots : List Slot) :
    o + ((slots.zip (offsetsFrom o slots)).map fun p => p.1.width p.2).sum = endFrom o slots := by
  induction slots generalizing o with
  | nil => rfl
  | cons s slots ih =>
    rw [offsetsFrom, List.zip_cons_cons, List.map_cons, List.sum_cons, ← Nat.add_assoc, ih, endFrom]

/-- The last marker of a label gives it its offset. -/
theorem offset?_last_entry {l : Label} {before after : List Node} (hid : l.id < count)
    (hstands : List.Forall₂ Piece.Stands nodes (slots.map Slot.piece))
    (hsplit : nodes = before ++ .label l :: after) (hnot : .label l ∉ after) :
    ∃ o, (Layout.ofSlots count slots).offset? l = some o ∧
      (offsetsFrom 0 slots)[before.length]? = some o := by
  subst hsplit
  have hlength : (before ++ Node.label l :: after).length = slots.length :=
    hstands.length_eq.trans (List.length_map _)
  have hlt : before.length < slots.length := by
    rw [← hlength, List.length_append, List.length_cons]
    omega
  obtain ⟨hslots, htake⟩ := eq_take_cons_drop (List.getElem?_eq_getElem hlt)
  have hdrop := List.forall₂_drop before.length hstands
  rw [List.drop_left, ← List.map_drop, List.drop_eq_getElem_cons hlt, List.map_cons,
    List.forall₂_cons] at hdrop
  obtain ⟨hmarker, hafter⟩ := hdrop
  have hpiece : slots[before.length].piece = .label l := (hmarker.label_iff l).mpr rfl
  have hlast : .label l ∉ (slots.drop (before.length + 1)).map Slot.piece := by
    rwa [Piece.Stands.mem_iff hafter]
  refine ⟨endFrom 0 (slots.take before.length), ?_, ?_⟩
  · conv => lhs; rw [hslots]
    exact Layout.offset?_last_marker hid hpiece hlast
  · conv => lhs; rw [hslots]
    rw [offsetsFrom_append, List.getElem?_append_right (by rw [length_offsetsFrom, htake]),
      length_offsetsFrom, htake, Nat.sub_self]
    rfl

/-- Among entries that are the same, one is the last. -/
theorem exists_last_entry {n : Node} (h : n ∈ nodes) :
    ∃ before after, nodes = before ++ n :: after ∧ n ∉ after := by
  obtain ⟨as, bs, hsplit, hnot⟩ := List.eq_append_cons_of_mem (List.mem_reverse.mpr h)
  refine ⟨bs.reverse, as.reverse, ?_, by rwa [List.mem_reverse]⟩
  rw [← List.reverse_reverse nodes, hsplit]
  simp

/-- A label has an offset if it has a marker, that of the last one. -/
theorem offset?_iff_last_entry {l : Label} {o : Nat}
    (hstands : List.Forall₂ Piece.Stands nodes (slots.map Slot.piece))
    (hmarks : .label l ∈ nodes → l.id < count) :
    (Layout.ofSlots count slots).offset? l = some o ↔ ∃ before after,
      nodes = before ++ .label l :: after ∧ .label l ∉ after ∧
        (offsetsFrom 0 slots)[before.length]? = some o := by
  constructor
  · intro ho
    have hmem : .label l ∈ nodes := by
      by_contra hnot
      rw [← Piece.Stands.mem_iff hstands] at hnot
      rw [Layout.offset?_eq_none hnot] at ho
      cases ho
    obtain ⟨before, after, hsplit, hnot⟩ := exists_last_entry hmem
    obtain ⟨k, hk, hat⟩ := offset?_last_entry (hmarks hmem) hstands hsplit hnot
    obtain rfl := Option.some.inj (hk.symm.trans ho)
    exact ⟨before, after, hsplit, hnot, hat⟩
  · rintro ⟨before, after, hsplit, hnot, ho⟩
    have hmem : .label l ∈ nodes := by simp [hsplit]
    obtain ⟨k, hk, hat⟩ := offset?_last_entry (hmarks hmem) hstands hsplit hnot
    rw [hk, ← hat, ho]

/-- The offset of a label in some code. -/
def Encoded.offset? (e : Encoded) (l : Label) : Option Nat := e.labels[l.id]?.join

/-- Where everything is in some code, going by the slots that it was laid out with. -/
structure LaidOut (range : JumpRange) (count : Nat) (nodes : List Node) (slots : List Slot)
    (e : Encoded) : Prop where
  /-- The bytes are those of the entries one behind the other. Those of an entry start at its offset
  and take up its width. -/
  parts : ∃ bss : List (List UInt8), e.bytes = bss.flatten ∧ bss.length = nodes.length ∧
    ∀ {i : Nat} {n : Node}, nodes[i]? = some n → ∃ s o bs, slots[i]? = some s ∧
      e.offsets[i]? = some o ∧ bss[i]? = some bs ∧ (bss.take i).flatten.length = o ∧
      bs.length = s.width o ∧ EntryBytes range e.offset? o n s.wide bs
  size : e.offsets.size = nodes.length
  widths : ((slots.zip e.offsets.toList).map fun p => p.1.width p.2).sum = e.bytes.length
  length : e.bytes.length ≤ 65535
  labelCount : e.labels.size = count
  labels : ∀ l o, e.offset? l = some o ↔ ∃ before after, nodes = before ++ .label l :: after ∧
    .label l ∉ after ∧ e.offsets[before.length]? = some o

/-- What is written down for pieces that stand for the entries of a list. -/
theorem Assembled.laidOut (ha : Assembled range count pieces e slots) (hshort : range.IsShort)
    (hstands : List.Forall₂ Piece.Stands nodes pieces)
    (hmarks : ∀ l, .label l ∈ nodes → l.id < count)
    (htargets : ∀ l ∈ nodes.flatMap Node.targets, .label l ∈ nodes) :
    LaidOut range count nodes slots e := by
  obtain ⟨bss, hbss, hbytes⟩ := ha.bytes
  obtain ⟨hcount, hend, hparts⟩ := parts_of_emits hbss
  have hfits := ha.length
  have hlength : nodes.length = slots.length := by
    rw [hstands.length_eq, ← ha.pieces, List.length_map]
  rw [← ha.pieces] at hstands
  have hoffset? : e.offset? = (Layout.ofSlots count slots).offset? := by
    funext l
    rw [Encoded.offset?, ha.labels, Layout.offset?]
  have hget : ∀ i : Nat, e.offsets[i]? = (offsetsFrom 0 slots)[i]? := fun i => by
    rw [← ha.offsets, Array.getElem?_toList]
  have htotal : e.bytes.length = endFrom 0 slots := by rw [hbytes, ← hend, Nat.zero_add]
  -- labels are inside of the code, so that every distance fits into four bytes
  have htarget : ∀ t, .label t ∈ nodes →
      ∃ k, (Layout.ofSlots count slots).offset? t = some k ∧ k ≤ 65535 := by
    intro t ht
    obtain ⟨before, after, hsplit, hnot⟩ := exists_last_entry ht
    obtain ⟨k, hk, hat⟩ := offset?_last_entry (hmarks t ht) hstands hsplit hnot
    have hlt : before.length < slots.length := by
      rw [← hlength, hsplit, List.length_append, List.length_cons]
      omega
    obtain ⟨_, -, hoffset, -⟩ := hparts (List.getElem?_eq_getElem hlt)
    have hstart := length_flatten_take_le bss before.length
    obtain rfl := Option.some.inj (hoffset.symm.trans hat)
    exact ⟨_, hk, by omega⟩
  refine ⟨⟨bss, hbytes, hcount.trans hlength.symm, fun {i n} hn => ?_⟩, ?_, ?_, ?_, ?_, ?_⟩
  · obtain ⟨hlt, hat⟩ := List.getElem?_eq_some_iff.mp hn
    have hlt' : i < slots.length := hlength ▸ hlt
    have hslot : slots[i]? = some slots[i] := List.getElem?_eq_getElem hlt'
    obtain ⟨bs, hbs, hoffset, hemit⟩ := hparts hslot
    rw [Nat.zero_add] at hoffset hemit
    have hmem : (slots[i], (bss.take i).flatten.length) ∈ slots.zip (offsetsFrom 0 slots) :=
      List.mem_of_getElem? (List.getElem?_zip_eq_some.mpr ⟨hslot, hoffset⟩)
    have hstart := length_flatten_take_le bss i
    have hn' : Piece.Stands n slots[i].piece := by
      rw [List.forall₂_map_right_iff] at hstands
      exact hat ▸ (List.forall₂_iff_get.mp hstands).2 i hlt hlt'
    refine ⟨_, _, bs, hslot, (hget i).trans hoffset, hbs, rfl, length_of_emit hemit, ?_⟩
    rw [hoffset?]
    refine entryBytes_of_emit hn' hemit (fun t ht => htarget t ?_) (by omega) hshort
      fun op t hpiece hwide => ha.narrow _ hmem op t hpiece hwide
    exact htargets t (List.mem_flatMap.mpr ⟨n, List.mem_of_getElem? hn, ht⟩)
  · rw [← Array.length_toList, ha.offsets, length_offsetsFrom, hlength]
  · rw [ha.offsets, htotal, ← sum_widths, Nat.zero_add]
  · rw [htotal]
    exact hfits
  · rw [ha.labels, Layout.size_labels_ofSlots]
  · intro l o
    simp only [hoffset?, hget]
    exact offset?_iff_last_entry hstands (hmarks l)

/-- **The layout is that of the bytes.** The loop that makes jumps wide ends with at most one layout
more than there are jumps, and what it ends with is where everything is in the code. -/
theorem layout_exact (hshort : range.IsShort) (nodes : List Node) (count : Nat) (links : Links) :
    (∀ pieces s, (nodes.mapM Piece.ofNode).run.run links = (.ok pieces, s) →
      ∃ n, n ≤ nodes.countP Node.isJump + 1 ∧
        Settles range count (narrowSlots pieces) n (settle range count (narrowSlots pieces))) ∧
      ∀ e s, (encodeWithin range nodes count).run.run links = (.ok e, s) →
        ∃ pieces s', (nodes.mapM Piece.ofNode).run.run links = (.ok pieces, s') ∧
          LaidOut range count nodes (settle range count (narrowSlots pieces)).1 e := by
  constructor
  · intro pieces s hpieces
    rw [← narrowJumps_narrowSlots (stands_all hpieces)]
    exact exists_settles range count (narrowSlots pieces)
  · intro e s hencode
    obtain ⟨pieces, hpieces, hmarks, htargets, hassemble⟩ := encodeWithin_inv hencode
    exact ⟨pieces, s, hpieces,
      (assembled hassemble).laidOut hshort (stands_all hpieces) hmarks htargets⟩

/-- A condition and a switch that go back to the start. -/
def switchBack : List Node :=
  [.label ⟨0⟩, .instr (.jump Opcode.ifeq ⟨0⟩), .instr (.tableSwitch 3 4 ⟨0⟩ [⟨0⟩, ⟨0⟩])]

/-- The condition becomes wide, which moves the switch; its operands come after three more bytes. -/
theorem layout_exact_switchBack : JumpRange.IsShort ⟨0, 0⟩ ∧ ∃ e s pieces s',
    (encodeWithin ⟨0, 0⟩ switchBack 1).run.run ⟨.empty, #[]⟩ = (.ok e, s) ∧
    e.bytes = [154, 0, 8, 200, 255, 255, 255, 253] ++ [170, 0, 0, 0, 255, 255, 255, 248,
      0, 0, 0, 3, 0, 0, 0, 4, 255, 255, 255, 248, 255, 255, 255, 248] ∧
    (switchBack.mapM Piece.ofNode).run.run ⟨.empty, #[]⟩ = (.ok pieces, s') ∧
    LaidOut ⟨0, 0⟩ 1 switchBack (settle ⟨0, 0⟩ 1 (narrowSlots pieces)).1 e := by
  have hshort : JumpRange.IsShort ⟨0, 0⟩ := JumpRange.isShort_of_le (Int.le_refl 0)
  have hrun : (encodeWithin ⟨0, 0⟩ switchBack 1).run.run ⟨.empty, #[]⟩ =
      (.ok ⟨[154, 0, 8, 200, 255, 255, 255, 253, 170, 0, 0, 0, 255, 255, 255, 248,
        0, 0, 0, 3, 0, 0, 0, 4, 255, 255, 255, 248, 255, 255, 255, 248], #[0, 0, 8],
        #[some 0], [], [2]⟩, ⟨.empty, #[]⟩) :=
    encodeWithin_eq_ok rfl rfl (by decide +kernel) (by decide +kernel)
  obtain ⟨pieces, s', hpieces, hlaid⟩ := (layout_exact hshort _ _ _).2 _ _ hrun
  exact ⟨hshort, _, _, pieces, s', hrun, rfl, hpieces, hlaid⟩

end Code
end ClassWeave
