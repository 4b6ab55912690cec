import ClassWeave.Proofs.ByteCodec
import ClassWeave.Proofs.StoredFrames

/-!
# Stored frames that are read back

Every kind of difference between frames is read back as it was written. Following the difference
from one frame to another gives the other one, so a table that was made of frames at ascending
offsets gives back these frames, each at its offset.
-/

namespace ClassWeave

open Reader

theorem RawType.reads (t : RawType) : reader.Reads t.encode t := by
  cases t with
  | object cls => exact (reads_u8 7).bind ((reads_u16 cls).map VType.object)
  | fresh offset => exact (reads_u8 8).bind ((reads_u16 offset).map VType.fresh)
  | _ => exact fun _ => rfl

/-- Values that are read one by one are read one after the other. -/
theorem Reader.reads_flatten {α : Type} {item : Reader α} {bss : List (List UInt8)} {items : List α}
    (h : List.Forall₂ item.Reads bss items) : (times items.length item).Reads bss.flatten items := by
  have general : ∀ found : List α,
      (timesOnto item items.length found).Reads bss.flatten (found.reverse ++ items) := by
    induction h with
    | nil =>
      intro found
      rw [List.append_nil]
      exact Reads.pure _
    | @cons bs a bss items ha _ ih =>
      intro found
      have hrest := ih (a :: found)
      rw [List.reverse_cons, List.append_assoc] at hrest
      exact ha.bind hrest
  exact general []

namespace StackMapFrame

/-- In a form that can be written, the difference says how the first frame becomes the second. -/
inductive Describes : StackMapFrame → RawFrame → RawFrame → Prop
  | same {d : UInt16} {locals stack : List RawType} :
      Describes (.same d) ⟨locals, stack⟩ ⟨locals, []⟩
  | sameOne {d : UInt16} {locals stack : List RawType} {t : RawType} :
      Describes (.sameOne d t) ⟨locals, stack⟩ ⟨locals, [t]⟩
  | chop {d : UInt16} {kept dropped stack : List RawType} (hpos : 1 ≤ dropped.length)
      (hfew : dropped.length ≤ 3) :
      Describes (.chop d (UInt8.ofNat dropped.length)) ⟨kept ++ dropped, stack⟩ ⟨kept, []⟩
  | append {d : UInt16} {locals more stack : List RawType} (hpos : 1 ≤ more.length)
      (hfew : more.length ≤ 3) : Describes (.append d more) ⟨locals, stack⟩ ⟨locals ++ more, []⟩
  | full {d : UInt16} {previous : RawFrame} {locals stack : List RawType} :
      Describes (.full d locals stack) previous ⟨locals, stack⟩

/-- The numbers of types fit into the two bytes in front of them. -/
def Fits : StackMapFrame → Prop
  | full _ locals stack => locals.length ≤ 65535 ∧ stack.length ≤ 65535
  | _ => True

theorem Describes.fits {e : StackMapFrame} {raw raw' : RawFrame} (h : e.Describes raw raw')
    (hlocals : raw'.locals.length ≤ 65535) (hstack : raw'.stack.length ≤ 65535) : e.Fits := by
  cases h with
  | full => exact ⟨hlocals, hstack⟩
  | _ => trivial

/-- What describes a step between frames can be written. -/
theorem Describes.encodes {e : StackMapFrame} {raw raw' : RawFrame} (h : e.Describes raw raw') :
    ∃ bytes, e.encode = .ok bytes := by
  cases h with
  | @chop _ _ dropped _ hpos hfew =>
    have hcount : (UInt8.ofNat dropped.length).toNat = dropped.length :=
      UInt8.toNat_ofNat_of_lt (Nat.lt_of_le_of_lt hfew (by decide))
    have hle : 1 ≤ UInt8.ofNat dropped.length ∧ UInt8.ofNat dropped.length ≤ 3 := by
      rw [UInt8.le_iff_toNat_le, UInt8.le_iff_toNat_le, hcount]
      exact ⟨hpos, hfew⟩
    exact ⟨_, if_pos hle⟩
  | append hpos hfew => exact ⟨_, if_pos ⟨hpos, hfew⟩⟩
  | _ => exact ⟨_, rfl⟩

/-- A small distance is kept in the tag. -/
theorem small_facts {d : UInt16} (h : d ≤ 63) : d.toUInt8 ≤ 63 ∧ d.toUInt8.toUInt16 = d ∧
    ¬ 64 + d.toUInt8 ≤ 63 ∧ 64 + d.toUInt8 ≤ 127 ∧ (64 + d.toUInt8 - 64).toUInt16 = d := by
  have general : ∀ n : Fin 64, (UInt16.ofNat n).toUInt8 ≤ 63 ∧
      (UInt16.ofNat n).toUInt8.toUInt16 = UInt16.ofNat n ∧ ¬ 64 + (UInt16.ofNat n).toUInt8 ≤ 63 ∧
      64 + (UInt16.ofNat n).toUInt8 ≤ 127 ∧
      (64 + (UInt16.ofNat n).toUInt8 - 64).toUInt16 = UInt16.ofNat n := by decide +kernel
  have hlt : d.toNat < 64 := Nat.lt_succ_of_le (UInt16.le_iff_toNat_le.mp h)
  have := general ⟨d.toNat, hlt⟩
  rwa [UInt16.ofNat_toNat] at this

/-- A frame is read back from its written form. -/
theorem reads_of_encode {f : StackMapFrame} {bytes : List UInt8} (hfits : f.Fits)
    (h : f.encode = .ok bytes) : reader.Reads bytes f := by
  cases f with
  | same d =>
    obtain rfl := Except.ok.inj h
    by_cases hd : d ≤ 63
    · obtain ⟨hle, heq, -⟩ := small_facts hd
      rw [if_pos hd]
      have hbody : (bodyReader d.toUInt8).Reads [] (same d) := by
        rw [bodyReader, if_pos hle, heq]
        exact Reads.pure _
      exact (reads_u8 d.toUInt8).bind hbody
    · rw [if_neg hd]
      exact (reads_u8 251).bind ((reads_u16 d).map same)
  | sameOne d t =>
    obtain rfl := Except.ok.inj h
    by_cases hd : d ≤ 63
    · obtain ⟨-, -, hgt, hle, heq⟩ := small_facts hd
      rw [if_pos hd]
      refine (reads_u8 (64 + d.toUInt8)).bind ?_
      rw [bodyReader, if_neg hgt, if_pos hle, heq]
      exact t.reads.map (sameOne d)
    · rw [if_neg hd]
      exact (reads_u8 247).bind ((reads_u16 d).bind (t.reads.map (sameOne d)))
  | chop d k =>
    rw [encode] at h
    split at h
    · rename_i hk
      obtain rfl := Except.ok.inj h
      have hcases : k = 1 ∨ k = 2 ∨ k = 3 := by
        have h1 := UInt8.le_iff_toNat_le.mp hk.1
        have h2 := UInt8.le_iff_toNat_le.mp hk.2
        simp only [← UInt8.toNat_inj]
        simp only [UInt8.reduceToNat] at *
        omega
      rcases hcases with rfl | rfl | rfl
      · exact (reads_u8 250).bind ((reads_u16 d).map fun d => chop d 1)
      · exact (reads_u8 249).bind ((reads_u16 d).map fun d => chop d 2)
      · exact (reads_u8 248).bind ((reads_u16 d).map fun d => chop d 3)
    · cases h
  | append d ts =>
    rw [encode] at h
    split at h
    · rename_i hts
      obtain rfl := Except.ok.inj h
      have htypes : (times ts.length RawType.reader).Reads (ts.flatMap RawType.encode) ts :=
        reads_times fun t _ => t.reads
      have hcases : ts.length = 1 ∨ ts.length = 2 ∨ ts.length = 3 := by omega
      rcases hcases with hlength | hlength | hlength
      all_goals
        rw [hlength] at htypes ⊢
        exact (reads_u8 _).bind ((reads_u16 d).bind (htypes.map (append d)))
    · cases h
  | full d locals stack =>
    obtain rfl := Except.ok.inj h
    have hlocals : (counted RawType.reader).Reads (Bytes.counted RawType.encode locals) locals :=
      reads_counted hfits.1 fun t _ => t.reads
    have hstack : (counted RawType.reader).Reads (Bytes.counted RawType.encode stack) stack :=
      reads_counted hfits.2 fun t _ => t.reads
    rw [List.append_assoc]
    exact (reads_u8 255).bind ((reads_u16 d).bind (hlocals.bind (hstack.map (full d locals))))

/-- A table is read back from its written form. -/
theorem reads_table {table : List StackMapFrame} {bytes : List UInt8} (hcount : table.length ≤ 65535)
    (hfits : ∀ f ∈ table, f.Fits) (h : encodeTable table = .ok bytes) :
    tableReader.Reads bytes table := by
  obtain ⟨bss, hbss, h⟩ := bind_eq_ok.mp h
  obtain rfl := pure_eq_ok.mp h
  refine (reads_u16 _).bind ?_
  rw [toNat_ofNat_u16 hcount]
  refine reads_flatten (List.Forall₂.flip ?_)
  have hall := List.forall₂_iff_zip.mp (mapM_eq_ok.mp hbss)
  exact List.forall₂_iff_zip.mpr ⟨hall.1, fun hmem =>
    reads_of_encode (hfits _ (List.of_mem_zip hmem).1) (hall.2 hmem)⟩

end StackMapFrame

namespace CompactFrame

variable {p : Pool} {raw raw' : RawFrame} {named named' : NamedFrame}

/-- A frame of a class file, in terms of names. -/
structure Names (p : Pool) (raw : RawFrame) (named : NamedFrame) : Prop where
  locals : List.Forall₂ (fun t u => resolve p t = .ok u) raw.locals named.locals
  stack : List.Forall₂ (fun t u => resolve p t = .ok u) raw.stack named.stack

/-- The names of a frame are what its types resolve to. -/
theorem mapM_resolve_eq_ok : raw.mapM (resolve p) = .ok named ↔ Names p raw named := by
  constructor
  · intro h
    obtain ⟨locals, hlocals, h⟩ := bind_eq_ok.mp h
    obtain ⟨stack, hstack, h⟩ := bind_eq_ok.mp h
    obtain rfl := pure_eq_ok.mp h
    exact ⟨mapM_eq_ok.mp hlocals, mapM_eq_ok.mp hstack⟩
  · rintro ⟨hlocals, hstack⟩
    exact bind_eq_ok.mpr ⟨_, mapM_eq_ok.mpr hlocals, bind_eq_ok.mpr ⟨_, mapM_eq_ok.mpr hstack, rfl⟩⟩

/-- Types have one name each. -/
theorem names_unique {ts : List RawType} {us us' : List NamedType}
    (h : List.Forall₂ (fun t u => resolve p t = .ok u) ts us)
    (h' : List.Forall₂ (fun t u => resolve p t = .ok u) ts us') : us = us' :=
  Except.ok.inj ((mapM_eq_ok.mpr h).symm.trans (mapM_eq_ok.mpr h'))

/-! ## Differences -/

/-- What describes how a frame becomes another one leads from the names of the first to those of the
second. -/
theorem follow_of_describes {e : StackMapFrame} (he : e.Describes raw raw') (h : Names p raw named)
    (h' : Names p raw' named') : follow p named e = .ok named' := by
  obtain ⟨locals', stack'⟩ := named'
  obtain ⟨hlocals', hstack'⟩ := h'
  have hlocals := h.locals
  cases he with
  | same =>
    obtain rfl : stack' = [] := List.forall₂_nil_left_iff.mp hstack'
    rw [follow, names_unique hlocals hlocals']
  | sameOne =>
    obtain ⟨u, us, hu, hus, rfl⟩ := List.forall₂_cons_left_iff.mp hstack'
    obtain rfl : us = [] := List.forall₂_nil_left_iff.mp hus
    obtain rfl : named.locals = locals' := names_unique hlocals hlocals'
    exact bind_eq_ok.mpr ⟨u, hu, rfl⟩
  | @chop _ kept dropped _ hpos hfew =>
    obtain rfl : stack' = [] := List.forall₂_nil_left_iff.mp hstack'
    have hcount : (UInt8.ofNat dropped.length).toNat = dropped.length :=
      UInt8.toNat_ofNat_of_lt (Nat.lt_of_le_of_lt hfew (by decide))
    have hlength : named.locals.length = kept.length + dropped.length := by
      rw [← hlocals.length_eq, List.length_append]
    -- the names of the locals in front are those of the shorter list
    have hfirst := List.forall₂_take kept.length hlocals
    rw [List.take_left] at hfirst
    rw [follow, hcount, hlength, if_pos (Nat.le_add_left _ _), Nat.add_sub_cancel,
      names_unique hfirst hlocals']
  | @append _ _ more _ _ _ =>
    obtain rfl : stack' = [] := List.forall₂_nil_left_iff.mp hstack'
    have hboth := mapM_eq_ok.mpr hlocals'
    rw [List.mapM_append] at hboth
    obtain ⟨first, hfirst, hboth⟩ := bind_eq_ok.mp hboth
    obtain ⟨rest, hrest, hboth⟩ := bind_eq_ok.mp hboth
    obtain rfl : first ++ rest = locals' := pure_eq_ok.mp hboth
    rw [names_unique (mapM_eq_ok.mp hfirst) hlocals]
    exact bind_eq_ok.mpr ⟨rest, hrest, rfl⟩
  | full =>
    exact bind_eq_ok.mpr ⟨locals', mapM_eq_ok.mpr hlocals',
      bind_eq_ok.mpr ⟨stack', mapM_eq_ok.mpr hstack', rfl⟩⟩

theorem delta_difference (d : UInt16) (raw raw' : RawFrame) : (difference d raw raw').delta = d := by
  simp only [difference]
  split
  · split
    · rfl
    · split
      · rfl
      · split <;> rfl
  · split <;> rfl
  · rfl

/-- The difference from one frame to another describes how it becomes the other one. -/
theorem difference_describes (d : UInt16) (raw raw' : RawFrame) :
    (difference d raw raw').Describes raw raw' := by
  obtain ⟨before, stack⟩ := raw
  obtain ⟨after, stack'⟩ := raw'
  simp only [difference]
  split
  · split
    · rename_i hsame
      exact hsame ▸ .same
    · rename_i hne
      split
      · rename_i hchop
        obtain ⟨hle, hfew, hprefix⟩ := hchop
        obtain ⟨dropped, rfl⟩ := List.isPrefixOf_iff_prefix.mp hprefix
        have hdropped : dropped ≠ [] := fun hnil => hne (by rw [hnil, List.append_nil])
        have hpos := List.length_pos_iff.mpr hdropped
        rw [List.length_append, Nat.add_sub_cancel_left] at hfew ⊢
        exact .chop hpos hfew
      · split
        · rename_i happend
          obtain ⟨hle, hfew, hprefix⟩ := happend
          obtain ⟨more, rfl⟩ := List.isPrefixOf_iff_prefix.mp hprefix
          have hmore : more ≠ [] := fun hnil => hne (by rw [hnil, List.append_nil])
          have hpos := List.length_pos_iff.mpr hmore
          rw [List.length_append, Nat.add_sub_cancel_left] at hfew
          rw [List.drop_left]
          exact .append hpos hfew
        · exact .full
  · split
    · rename_i hsame
      exact hsame ▸ .sameOne
    · exact .full
  · exact .full

/-- **The difference from one frame to another leads to the other one.** -/
theorem follow_difference (d : UInt16) (h : Names p raw named) (h' : Names p raw' named') :
    follow p named (difference d raw raw') = .ok named' :=
  follow_of_describes (difference_describes d raw raw') h h'

/-! ## Tables -/

/-- How far an offset lies behind that of the frame before. -/
def gap (last : Option Nat) (offset : Nat) : Nat := last.elim offset fun l => offset - l - 1

theorem tableOnto_cons (found : List StackMapFrame) (raw : RawFrame) (last : Option Nat)
    (offset : Nat) (raw' : RawFrame) (rest : List (Nat × RawFrame)) :
    tableOnto found raw last ((offset, raw') :: rest) =
      tableOnto (difference (UInt16.ofNat (gap last offset)) raw raw' :: found) raw' (some offset)
        rest := rfl

theorem tableOnto_eq (found : List StackMapFrame) (raw : RawFrame) (last : Option Nat)
    (frames : List (Nat × RawFrame)) :
    tableOnto found raw last frames = found.reverse ++ tableOnto [] raw last frames := by
  induction frames generalizing found raw last with
  | nil => simp [tableOnto]
  | cons r rest ih =>
    rw [tableOnto_cons, tableOnto_cons, ih, ih [_]]
    simp

theorem length_tableOnto (raw : RawFrame) (last : Option Nat) (frames : List (Nat × RawFrame)) :
    (tableOnto [] raw last frames).length = frames.length := by
  induction frames generalizing raw last with
  | nil => rfl
  | cons r rest ih =>
    rw [tableOnto_cons, tableOnto_eq, List.length_append, ih, List.length_cons]
    simp [Nat.add_comm]

theorem length_table (entry : RawFrame) (frames : List (Nat × RawFrame)) :
    (table entry frames).length = frames.length :=
  length_tableOnto entry none frames

theorem fits_tableOnto (raw : RawFrame) (last : Option Nat) {frames : List (Nat × RawFrame)}
    (h : ∀ r ∈ frames, r.2.locals.length ≤ 65535 ∧ r.2.stack.length ≤ 65535) :
    ∀ f ∈ tableOnto [] raw last frames, f.Fits := by
  induction frames generalizing raw last with
  | nil => exact fun _ hf => absurd hf List.not_mem_nil
  | cons r rest ih =>
    rw [tableOnto_cons, tableOnto_eq]
    intro f hf
    obtain ⟨hlocals, hstack⟩ := h r List.mem_cons_self
    rcases List.mem_append.mp hf with hf | hf
    · rw [List.reverse_singleton, List.mem_singleton] at hf
      rw [hf]
      exact (difference_describes _ _ _).fits hlocals hstack
    · exact ih _ _ (fun q hq => h q (List.mem_cons_of_mem _ hq)) f hf

/-- The frame at an offset, in terms of names. -/
def NamesAt (p : Pool) (r : Nat × RawFrame) (c : Nat × NamedFrame) : Prop :=
  c.1 = r.1 ∧ Names p r.2 c.2

theorem readOnto_tableOnto {frames : List (Nat × RawFrame)} {recorded : List (Nat × NamedFrame)}
    (hframes : List.Forall₂ (NamesAt p) frames recorded) :
    ∀ (found : List (Nat × NamedFrame)) (raw : RawFrame) (named : NamedFrame) (last : Option Nat),
      Names p raw named → (frames.map Prod.fst).Pairwise (· < ·) →
      (∀ r ∈ frames, r.1 ≤ 65535 ∧ ∀ l ∈ last, l < r.1) →
        readOnto p found named last (tableOnto [] raw last frames) =
          .ok (found.reverse ++ recorded) := by
  induction hframes with
  | nil =>
    intro found raw named last _ _ _
    rw [List.append_nil]
    rfl
  | @cons r c frames recorded hr _ ih =>
    intro found raw named last hnamed hsorted hbounds
    obtain ⟨offset, raw'⟩ := r
    obtain ⟨offset', named'⟩ := c
    obtain ⟨rfl, hnamed'⟩ := hr
    rw [List.map_cons, List.pairwise_cons] at hsorted
    obtain ⟨hle, hlast⟩ := hbounds _ List.mem_cons_self
    have hgap : (UInt16.ofNat (gap last offset')).toNat = gap last offset' := by
      refine toNat_ofNat_u16 ?_
      cases last with
      | none => exact hle
      | some l =>
        simp only [gap, Option.elim_some]
        omega
    have hoffset : (last.elim (gap last offset') fun l => l + gap last offset' + 1) = offset' := by
      cases last with
      | none => rfl
      | some l =>
        have hlt : l < offset' := hlast l rfl
        simp only [gap, Option.elim_some]
        omega
    rw [tableOnto_cons, tableOnto_eq, List.reverse_singleton, List.singleton_append, readOnto,
      follow_difference _ hnamed hnamed']
    show readOnto p ((last.elim _ fun l => l + _ + 1, named') :: found) named' (some _) _ = _
    rw [delta_difference, hgap, hoffset, ih _ raw' named' (some offset') hnamed' hsorted.2 ?_]
    · rw [List.reverse_cons, List.append_assoc]
      rfl
    · intro q hq
      refine ⟨(hbounds q (List.mem_cons_of_mem _ hq)).1, fun l hl => ?_⟩
      obtain rfl := Option.some.inj hl
      exact hsorted.1 _ (List.mem_map_of_mem hq)

/-- **A table of frames at ascending offsets gives back these frames.** -/
theorem ofTable_table {entry : RawFrame} {frames : List (Nat × RawFrame)}
    {recorded : List (Nat × NamedFrame)} (hentry : Names p entry named)
    (hframes : List.Forall₂ (NamesAt p) frames recorded)
    (hsorted : (frames.map Prod.fst).Pairwise (· < ·)) (hsmall : ∀ r ∈ frames, r.1 ≤ 65535) :
    ofTable p named (table entry frames) = .ok recorded :=
  readOnto_tableOnto hframes [] entry named none hentry hsorted fun r hr =>
    ⟨hsmall r hr, fun _ hl => absurd hl (by simp)⟩

/-! ## Frames that were interned -/

theorem resolve_of_at {offset? : Nat → Option Nat}
    (hsmall : ∀ {i o}, offset? i = some o → o ≤ 65535) {t : NamedType} {r : RawType}
    (h : NamedType.At p offset? r t) :
    ∃ u, resolve p r = .ok u ∧ VType.mapM pure (freshOffset offset?) t = .ok u := by
  cases t with
  | object cls =>
    obtain ⟨i, rfl, hi⟩ := h
    exact ⟨.object cls, bind_eq_ok.mpr ⟨cls, hi, rfl⟩, rfl⟩
  | fresh site =>
    obtain ⟨o, ho, rfl⟩ := h
    refine ⟨.fresh o, ?_, bind_eq_ok.mpr ⟨o, freshOffset_eq_ok.mpr ho, rfl⟩⟩
    have hread : (UInt16.ofNat o).toNat = o := toNat_ofNat_u16 (hsmall ho)
    exact bind_eq_ok.mpr ⟨_, rfl, by rw [hread]; rfl⟩
  | _ =>
    obtain rfl := h
    exact ⟨_, rfl, rfl⟩

/-- What stands for a frame is read as the frame with offsets in place of instructions. -/
theorem names_of_at {offset? : Nat → Option Nat}
    (hsmall : ∀ {i o}, offset? i = some o → o ≤ 65535) {c : NamedFrame}
    (h : NamedFrame.At p offset? c raw) :
    ∃ named, Names p raw named ∧ c.relocate offset? = .ok named := by
  have htypes : ∀ {ts : List NamedType} {rs : List RawType},
      List.Forall₂ (fun t r => NamedType.At p offset? r t) ts rs →
      ∃ us, List.Forall₂ (fun r u => resolve p r = .ok u) rs us ∧
        ts.mapM (VType.mapM pure (freshOffset offset?)) = .ok us := by
    intro ts rs hall
    induction hall with
    | nil => exact ⟨[], .nil, rfl⟩
    | cons ht _ ih =>
      obtain ⟨u, hu, ht⟩ := resolve_of_at hsmall ht
      obtain ⟨us, hus, hts⟩ := ih
      exact ⟨u :: us, .cons hu hus, mapM_eq_ok.mpr (.cons ht (mapM_eq_ok.mp hts))⟩
  obtain ⟨locals, hlocals, hlocals'⟩ := htypes h.locals
  obtain ⟨stack, hstack, hstack'⟩ := htypes h.stack
  exact ⟨⟨locals, stack⟩, ⟨hlocals, hstack⟩,
    bind_eq_ok.mpr ⟨locals, hlocals', bind_eq_ok.mpr ⟨stack, hstack', rfl⟩⟩⟩

end CompactFrame
end ClassWeave
