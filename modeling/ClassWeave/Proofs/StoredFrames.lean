import ClassWeave.Model.Write
import ClassWeave.Proofs.CallSites

/-!
# Frames that are stored

Writing a class stores the frames of some code in terms of indices and offsets. `FrameTable` says
which frames those are: one for every entry that needs one, and no others, at ascending offsets.
-/

namespace ClassWeave

/-- A type of a class file stands for an analysed one. -/
def NamedType.At (p : Pool) (offset? : Nat → Option Nat) (r : RawType) : NamedType → Prop
  | .object cls => ∃ i, r = .object i ∧ p.className i = .ok cls
  | .fresh site => ∃ o, offset? site = some o ∧ r = .fresh (UInt16.ofNat o)
  | t => r = t.map (fun _ => 0) (fun _ => 0)

/-- A frame of a class file stands for an analysed one. -/
structure NamedFrame.At (p : Pool) (offset? : Nat → Option Nat) (c : NamedFrame) (r : RawFrame) :
    Prop where
  locals : List.Forall₂ (fun t r => NamedType.At p offset? r t) c.locals r.locals
  stack : List.Forall₂ (fun t r => NamedType.At p offset? r t) c.stack r.stack

section grows

variable {p q : Pool} {offset? : Nat → Option Nat} {t : NamedType} {r : RawType} {c : NamedFrame}
  {raw : RawFrame}

theorem NamedType.At.extends (h : p.Extends q) (ht : NamedType.At p offset? r t) :
    NamedType.At q offset? r t := by
  cases t with
  | object cls =>
    obtain ⟨i, hr, hi⟩ := ht
    exact ⟨i, hr, h.className hi⟩
  | _ => exact ht

theorem NamedFrame.At.extends (h : p.Extends q) (hc : NamedFrame.At p offset? c raw) :
    NamedFrame.At q offset? c raw :=
  ⟨hc.locals.imp fun _ _ => NamedType.At.extends h, hc.stack.imp fun _ _ => NamedType.At.extends h⟩

end grows

namespace CompactFrame

theorem freshOffset_eq_ok {offset? : Nat → Option Nat} {i o : Nat} :
    freshOffset offset? i = .ok o ↔ offset? i = some o := by
  unfold freshOffset
  cases offset? i <;> simp

/-- A type in terms of indices and offsets; its class is added to the pool. -/
def internType (offset? : Nat → Option Nat) : NamedType → Interning RawType :=
  VType.mapM .cls fun i => .ofPool fun _ => (freshOffset offset? i).map UInt16.ofNat

theorem gives_internType (offset? : Nat → Option Nat) (t : NamedType) :
    Gives (internType offset? t) fun p r => NamedType.At p offset? r t := by
  cases t with
  | object cls =>
    exact (Interning.gives_cls cls).bind Pool.Extends.className fun i =>
      .pure fun _ _ hi => ⟨i, rfl, hi⟩
  | fresh site =>
    have hoffset : Gives (Interning.ofPool fun _ => (freshOffset offset? site).map UInt16.ofNat)
        fun _ r => ∃ o, offset? site = some o ∧ r = UInt16.ofNat o := by
      refine (Interning.gives_ofPool _).imp fun {_ r} _ hr => ?_
      cases ho : freshOffset offset? site with
      | error e =>
        rw [ho] at hr
        cases hr
      | ok o =>
        rw [ho] at hr
        exact ⟨o, freshOffset_eq_ok.mp ho, (Except.ok.inj hr).symm⟩
    exact hoffset.bind (fun _ h => h) fun r => .pure fun _ _ ⟨o, ho, hr⟩ => ⟨o, ho, congrArg _ hr⟩
  | _ => exact .pure fun _ _ => rfl

theorem gives_intern (offset? : Nat → Option Nat) (c : NamedFrame) :
    Gives (intern offset? c) fun p r => NamedFrame.At p offset? c r := by
  have htypes : ∀ ts : List NamedType, Gives (ts.mapM (internType offset?)) fun p rs =>
      List.Forall₂ (fun t r => NamedType.At p offset? r t) ts rs := fun ts =>
    .mapM NamedType.At.extends fun t _ => gives_internType offset? t
  refine (htypes c.locals).bind (fun h ht => ht.imp fun _ _ => NamedType.At.extends h)
    fun locals => ?_
  refine (htypes c.stack).bind (fun h ht => ht.imp fun _ _ => NamedType.At.extends h)
    fun stack => ?_
  exact .pure fun _ _ hstack hlocals => ⟨hlocals, hstack⟩

end CompactFrame

/-- An attribute with a given name. -/
def Attribute.Named (p : Pool) (name : String) (a : Attribute) : Prop := p.utf8 a.name = .ok name

theorem Attribute.Named.extends {p q : Pool} {name : String} {a : Attribute} (h : p.Extends q)
    (ha : a.Named p name) : a.Named q name :=
  h.utf8 ha

namespace WriteContext

variable {ctx : WriteContext} {l : InstrList} {a : Analysis} {e : Code.Encoded}

theorem gives_namedAttribute (name : String) (info : Except FormatError (List UInt8)) :
    Gives (namedAttribute name info) fun s stored =>
      stored.Named s.pool name ∧ info = .ok stored.info := by
  refine Linking.gives_ofInterning
    (P := fun p (stored : Attribute) => stored.Named p name ∧ info = .ok stored.info) ?_
  refine (Interning.gives_utf8 name).bind Pool.Extends.utf8 fun i => ?_
  cases info with
  | ok bytes => exact .pure fun _ _ hi => ⟨hi, rfl⟩
  | error e => exact .throw

/-- Every frame of a table is that of an entry at its offset. -/
def Stored (l : InstrList) (a : Analysis) (e : Code.Encoded) (p : Pool) (points : List Nat)
    (offset : Nat) (raw : RawFrame) : Prop :=
  ∃ i ∈ points, e.offsets[i]? = some offset ∧ ∃ f, a.frameAt? l.nodes i = some f ∧
    NamedFrame.At p (fun j => e.offsets[j]?) f.compact raw

/-- Where frames are stored, and which. -/
structure FrameTable (l : InstrList) (a : Analysis) (e : Code.Encoded) (p : Pool)
    (points : List Nat) (table : List (Nat × RawFrame)) : Prop where
  sorted : (table.map Prod.fst).Pairwise (· < ·)
  needed : ∀ i ∈ points, ∃ o, e.offsets[i]? = some o ∧ o ∈ table.map Prod.fst
  stored : ∀ t ∈ table, Stored l a e p points t.1 t.2

/-- The frames found for some of the entries that need one. -/
structure Collected (l : InstrList) (a : Analysis) (e : Code.Encoded) (p : Pool)
    (points : List Nat) (frames : Std.HashMap Nat RawFrame) : Prop where
  needed : ∀ i ∈ points, ∃ o, e.offsets[i]? = some o ∧ o ∈ frames
  stored : ∀ {o raw}, frames[o]? = some raw → Stored l a e p points o raw

/-- The frames found for some of the entries that need one; `R` tells what is stored for each. -/
structure Gathered (l : InstrList) (a : Analysis) (e : Code.Encoded) (R : Frame → RawFrame → Prop)
    (points : List Nat) (frames : Std.HashMap Nat RawFrame) : Prop where
  needed : ∀ i ∈ points, ∃ o, e.offsets[i]? = some o ∧ o ∈ frames
  stored : ∀ {o raw}, frames[o]? = some raw → ∃ i ∈ points, e.offsets[i]? = some o ∧
    ∃ f, a.frameAt? l.nodes i = some f ∧ R f raw

theorem Gathered.imp {R R' : Frame → RawFrame → Prop} {points : List Nat}
    {frames : Std.HashMap Nat RawFrame} (h : ∀ {f raw}, R f raw → R' f raw)
    (hg : Gathered l a e R points frames) : Gathered l a e R' points frames where
  needed := hg.needed
  stored hraw := by
    obtain ⟨i, hi, ho, f, hf, hR⟩ := hg.stored hraw
    exact ⟨i, hi, ho, f, hf, h hR⟩

section gathered

variable {R : Links → Frame → RawFrame → Prop}
  (hkeep : ∀ {s t f raw}, Growth.Extends s t → R s f raw → R t f raw)
  (hintern : ∀ f : Frame,
    Gives (Linking.ofInterning (f.compact.intern fun j => e.offsets[j]?)) fun s raw => R s f raw)

include hkeep hintern

theorem gathered_addFrame (points : List Nat) (i : Nat) (frames : Std.HashMap Nat RawFrame) :
    Gives (addFrame l a e frames i) fun s frames' => Gathered l a e (R s) points frames →
      Gathered l a e (R s) (points ++ [i]) frames' := by
  have hmore : ∀ {j}, j ∈ points → j ∈ points ++ [i] := List.mem_append_left _
  unfold addFrame
  cases ho : e.offsets[i]? with
  | none => exact .throw
  | some o =>
    simp only
    by_cases hmem : frames.contains o
    · rw [if_pos hmem]
      refine .pure fun s _ hg => ⟨fun j hj => ?_, fun hraw => ?_⟩
      · rcases List.mem_append.mp hj with hj | hj
        · exact hg.needed j hj
        · rw [List.mem_singleton.mp hj]
          exact ⟨o, ho, Std.HashMap.mem_iff_contains.mpr hmem⟩
      · obtain ⟨j, hj, hstored⟩ := hg.stored hraw
        exact ⟨j, hmore hj, hstored⟩
    · rw [if_neg hmem]
      cases hf : a.frameAt? l.nodes i with
      | none => exact .throw
      | some f =>
        simp only
        refine (hintern f).bind hkeep fun raw => ?_
        refine .pure fun s _ hraw hg => ⟨fun j hj => ?_, fun {o' raw'} ho' => ?_⟩
        · rcases List.mem_append.mp hj with hj | hj
          · obtain ⟨o', ho', hin⟩ := hg.needed j hj
            exact ⟨o', ho', Std.HashMap.mem_insert.mpr (.inr hin)⟩
          · rw [List.mem_singleton.mp hj]
            exact ⟨o, ho, Std.HashMap.mem_insert_self⟩
        · rw [Std.HashMap.getElem?_insert] at ho'
          split at ho'
          · rename_i heq
            obtain rfl := eq_of_beq heq
            obtain rfl := Option.some.inj ho'
            exact ⟨i, List.mem_append_right _ List.mem_cons_self, ho, f, hf, hraw⟩
          · obtain ⟨j, hj, hstored⟩ := hg.stored ho'
            exact ⟨j, hmore hj, hstored⟩

theorem gathered_foldlM (points : List Nat) :
    Gives (points.foldlM (addFrame l a e) ∅) fun s frames => Gathered l a e (R s) points frames :=
  .foldlM (I := fun (s : Links) points frames => Gathered l a e (R s) points frames)
    (fun h hg => hg.imp fun hR => hkeep h hR) (gathered_addFrame hkeep hintern)
    (fun _ => ⟨fun _ hi => absurd hi List.not_mem_nil, fun hraw => by simp at hraw⟩) points

end gathered

section sorted

variable {α : Type}

/-- Sorted by their offsets, what is found for offsets ascends. -/
theorem pairwise_mergeSort_toList (frames : Std.HashMap Nat α) :
    (frames.toList.mergeSort fun x y => x.1 ≤ y.1).Pairwise fun x y => x.1 < y.1 := by
  have hperm := List.mergeSort_perm frames.toList fun x y => decide (x.1 ≤ y.1)
  have hle : (frames.toList.mergeSort fun x y => x.1 ≤ y.1).Pairwise
      fun x y => decide (x.1 ≤ y.1) = true :=
    List.pairwise_mergeSort (fun x y z hxy hyz => by simp at *; omega)
      (fun x y => by simp; omega) _
  have hne : (frames.toList.mergeSort fun x y => x.1 ≤ y.1).Pairwise
      fun x y => (x.1 == y.1) = false :=
    (hperm.pairwise_iff fun h => by rw [Bool.beq_comm]; exact h).mpr
      Std.HashMap.distinct_keys_toList
  refine (hle.and hne).imp fun {x y} h => ?_
  have hxy : x.1 ≤ y.1 := of_decide_eq_true h.1
  have : x.1 ≠ y.1 := by simpa using h.2
  omega

theorem mem_mergeSort_toList {frames : Std.HashMap Nat α} {t : Nat × α} :
    t ∈ frames.toList.mergeSort (fun x y => x.1 ≤ y.1) ↔ frames[t.1]? = some t.2 := by
  rw [(List.mergeSort_perm _ _).mem_iff]
  exact Std.HashMap.mem_toList_iff_getElem?_eq_some

end sorted

theorem Collected.table {p : Pool} {points : List Nat} {frames : Std.HashMap Nat RawFrame}
    (hc : Collected l a e p points frames) :
    FrameTable l a e p points (frames.toList.mergeSort fun x y => x.1 ≤ y.1) where
  sorted := List.pairwise_map.mpr (pairwise_mergeSort_toList frames)
  needed i hi := by
    obtain ⟨o, ho, hmem⟩ := hc.needed i hi
    exact ⟨o, ho, List.mem_map.mpr ⟨(o, frames[o]),
      mem_mergeSort_toList.mpr (Std.HashMap.getElem?_eq_some_getElem hmem), rfl⟩⟩
  stored t ht := hc.stored (mem_mergeSort_toList.mp ht)

/-- If nothing was found, nothing was needed. -/
theorem Collected.table_of_isEmpty {p : Pool} {points : List Nat}
    {frames : Std.HashMap Nat RawFrame} (hc : Collected l a e p points frames)
    (hempty : frames.isEmpty) : FrameTable l a e p points [] where
  sorted := .nil
  needed i hi := by
    obtain ⟨o, -, hmem⟩ := hc.needed i hi
    rw [Std.HashMap.isEmpty_iff_forall_not_mem] at hempty
    exact absurd hmem (hempty o)
  stored _ ht := absurd ht List.not_mem_nil

/-- The attribute that stores frames: the differences between those of a table. -/
structure StoredAs (ctx : WriteContext) (e : Code.Encoded) (p : Pool)
    (table : List (Nat × RawFrame)) (stored : Attribute) : Prop where
  named : stored.Named p StackMapFrame.tableName
  bytes : ∃ entry raw, Frame.entry ctx.method = .ok entry ∧
    NamedFrame.At p (fun j => e.offsets[j]?) entry.compact raw ∧
    StackMapFrame.encodeTable (CompactFrame.table raw table) = .ok stored.info

/-- What is stored about the frames of some code: nothing if no entry needs one. -/
def FramesAt (ctx : WriteContext) (l : InstrList) (a : Analysis) (e : Code.Encoded)
    (handlers : List Label) (p : Pool) (as : List Attribute) : Prop :=
  ∃ points table, framePoints l e handlers = .ok points ∧ FrameTable l a e p points table ∧
    (table = [] ∧ as = [] ∨ ∃ stored, as = [stored] ∧ StoredAs ctx e p table stored)

end WriteContext
end ClassWeave
