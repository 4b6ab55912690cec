import ClassWeave.Proofs.ByteCodec
import ClassWeave.Proofs.PoolInterning
import ClassWeave.Proofs.TextCodec

/-!
# Pools that are written and read back

A constant is read back if its text fits, and since reading a pool puts the constants behind each
other in the same way as asking for them does, a pool comes back as it was: every constant with its
index, and the first occurrence of each.
-/

namespace ClassWeave

open Reader

theorem HandleKind.reads (k : HandleKind) : HandleKind.reader.Reads k.encode k := by
  cases k <;> exact fun _ => rfl

namespace Constant

/-- The number of bytes of a text fits into the two bytes in front of it. -/
def Fits : Constant → Prop
  | utf8 text => (ModifiedUtf8.encode text).length ≤ 65535
  | _ => True

instance : DecidablePred Fits := fun c =>
  match c with
  | utf8 text => inferInstanceAs (Decidable ((ModifiedUtf8.encode text).length ≤ 65535))
  | integer _ | float _ | long _ | double _ | classInfo _ | string _ | fieldRef _ _
  | methodRef _ _ _ | nameAndType _ _ | methodHandle _ _ | methodType _ | dynamic _ _
  | invokeDynamic _ _ | moduleInfo _ | packageInfo _ => .isTrue trivial

theorem reads (c : Constant) (hfits : c.Fits) : reader.Reads c.encode c := by
  have tagged : ∀ {tag : UInt8} {bs : List UInt8} {c : Constant}, (bodyReader tag).Reads bs c →
      reader.Reads (tag :: bs) c := fun h => (reads_u8 _).bind h
  cases c with
  | utf8 text =>
    refine tagged ((reads_u16 _).bind ?_)
    rw [toNat_ofNat_u16 hfits, ← List.append_nil (ModifiedUtf8.encode text)]
    exact (reads_bytes (by simp)).bind
      ((Reads.ofExcept (by simpa using ModifiedUtf8.decode_encode text)).map utf8)
  | integer n => exact tagged ((reads_i32 n).map integer)
  | float bits => exact tagged ((reads_u32 bits).map float)
  | long n => exact tagged ((reads_i64 n).map long)
  | double bits => exact tagged ((reads_u64 bits).map double)
  | classInfo i => exact tagged ((reads_u16 i).map classInfo)
  | string i => exact tagged ((reads_u16 i).map string)
  | fieldRef owner nt => exact tagged ((reads_u16 owner).bind ((reads_u16 nt).map (fieldRef owner)))
  | methodRef owner nt isInterface =>
    cases isInterface with
    | false =>
      exact tagged ((reads_u16 owner).bind ((reads_u16 nt).map (methodRef owner · false)))
    | true =>
      exact tagged ((reads_u16 owner).bind ((reads_u16 nt).map (methodRef owner · true)))
  | nameAndType name descriptor =>
    exact tagged ((reads_u16 name).bind ((reads_u16 descriptor).map (nameAndType name)))
  | methodHandle kind member =>
    exact tagged (kind.reads.bind ((reads_u16 member).map (methodHandle kind)))
  | methodType i => exact tagged ((reads_u16 i).map methodType)
  | dynamic bootstrap nt =>
    exact tagged ((reads_u16 bootstrap).bind ((reads_u16 nt).map (dynamic bootstrap)))
  | invokeDynamic bootstrap nt =>
    exact tagged ((reads_u16 bootstrap).bind ((reads_u16 nt).map (invokeDynamic bootstrap)))
  | moduleInfo i => exact tagged ((reads_u16 i).map moduleInfo)
  | packageInfo i => exact tagged ((reads_u16 i).map packageInfo)

end Constant

namespace Pool

variable {p q r : Pool} {cs ds : List Constant}

/-- The second pool is the first one with these constants behind the others, in order. -/
inductive Added : Pool → List Constant → Pool → Prop
  | nil (p : Pool) : Added p [] p
  | cons {p q r : Pool} {c : Constant} {i : PoolIndex} {cs : List Constant}
      (hc : p.push c = .ok (i, q)) (hcs : Added q cs r) : Added p (c :: cs) r

theorem Added.append (hp : Added p cs q) (hq : Added q ds r) : Added p (cs ++ ds) r := by
  induction hp with
  | nil => exact hq
  | cons hc _ ih => exact .cons hc (ih hq)

theorem Added.extends (h : Added p cs q) : p.Extends q := by
  induction h with
  | nil => exact .refl
  | cons hc _ ih => exact (Extends.refl.push hc).trans ih

theorem Extends.added (h : p.Extends q) : ∃ cs, Added p cs q := by
  induction h with
  | refl => exact ⟨[], .nil p⟩
  | push _ hr ih =>
    obtain ⟨cs, hcs⟩ := ih
    exact ⟨cs ++ [_], hcs.append (.cons hr (.nil _))⟩

theorem values_push {c : Constant} {i : PoolIndex} (h : p.push c = .ok (i, q)) :
    q.constants.values = p.constants.values ++ [c] := by
  obtain ⟨-, -, rfl⟩ := push_eq_ok.mp h
  exact SlotVec.values_push

theorem Added.values (h : Added p cs q) : q.constants.values = p.constants.values ++ cs := by
  induction h with
  | nil => rw [List.append_nil]
  | cons hc _ ih => rw [ih, values_push hc, List.append_assoc]; rfl

theorem Added.count_le (h : Added p cs q) : p.count + cs.length ≤ q.count := by
  induction h with
  | nil => exact Nat.le_refl _
  | @cons p q r c i cs hc _ ih =>
    have hslots : 0 < c.slots := Width.width_pos c
    rw [count_push hc] at ih
    rw [List.length_cons]
    omega

/-- Every text of the pool fits. -/
def Fits (p : Pool) : Prop := ∀ c ∈ p.constants.values, c.Fits

/-- Constants that are read one after the other are put behind each other, as long as there is a
place left for each. -/
theorem readUpTo_append (h : Added p cs q) {bss : List (List UInt8)}
    (hread : List.Forall₂ Constant.reader.Reads bss cs) {count : Nat} (hcount : q.count ≤ count)
    (fuel : Nat) (rest : List UInt8) :
    readUpTo count (cs.length + fuel) p (bss.flatten ++ rest) = readUpTo count fuel q rest := by
  induction h generalizing bss with
  | nil p =>
    cases hread
    rw [List.length_nil, Nat.zero_add]
    rfl
  | @cons p q r c i cs hc hcs ih =>
    obtain _ | ⟨hhead, htail⟩ := hread
    have hle := hcs.count_le
    have hslots : 0 < c.slots := Width.width_pos c
    rw [count_push hc] at hle
    rw [List.length_cons, Nat.add_right_comm, readUpTo, if_pos (by omega), List.flatten_cons,
      List.append_assoc]
    show (Constant.reader _ >>= _) = _
    rw [hhead]
    simp only [Bind.bind, Except.bind, hc]
    exact ih htail hcount

/-- A pool is read from written forms of its constants behind its count. -/
theorem reads_of_added (h : Added .empty cs p) {bss : List (List UInt8)}
    (hread : List.Forall₂ Constant.reader.Reads bss cs) (hroom : p.count ≤ 65535) :
    reader.Reads (Bytes.u16 (UInt16.ofNat p.count) ++ bss.flatten) p := by
  have hcount : (UInt16.ofNat p.count).toNat = p.count := toNat_ofNat_u16 hroom
  have hle := h.count_le
  have hread : (readUpTo p.count p.count .empty).Reads bss.flatten p := by
    intro rest
    obtain ⟨fuel, hfuel⟩ := Nat.exists_eq_add_of_le (Nat.le_trans (Nat.le_add_left _ _) hle)
    have happend := readUpTo_append h hread (Nat.le_refl _) fuel rest
    rw [← hfuel] at happend
    rw [happend]
    cases fuel with
    | zero => rfl
    | succ fuel =>
      rw [readUpTo, if_neg (Nat.lt_irrefl _)]
      rfl
  rw [← List.append_nil bss.flatten]
  refine (reads_u16 _).bind ?_
  rw [hcount]
  refine hread.bind ?_
  rw [if_pos rfl]
  exact .pure p

/-- **A pool comes back as it was.** -/
theorem reads (hp : p.Reachable) (hfits : p.Fits) : reader.Reads p.encode p := by
  obtain ⟨cs, hcs⟩ := hp.added
  have hvalues : p.constants.values = cs := hcs.values
  rw [encode, hvalues, List.flatMap_def]
  refine reads_of_added hcs ?_ hp.sound.room
  rw [List.forall₂_map_left_iff, List.forall₂_same]
  intro c hc
  exact c.reads (hfits c (by rwa [hvalues]))

/-- What is read only puts constants behind each other. -/
theorem extends_of_readUpTo {count fuel : Nat} {bs rest : List UInt8}
    (h : readUpTo count fuel p bs = .ok (q, rest)) : p.Extends q := by
  induction fuel generalizing p bs with
  | zero =>
    obtain ⟨rfl, -⟩ := Prod.mk.inj (Except.ok.inj h)
    exact .refl
  | succ fuel ih =>
    rw [readUpTo] at h
    split at h
    · obtain ⟨⟨c, bs'⟩, -, h⟩ := bind_eq_ok.mp h
      cases hpush : p.push c with
      | error e =>
        simp only [hpush] at h
        cases h
      | ok found =>
        obtain ⟨i, p'⟩ := found
        simp only [hpush] at h
        exact (Extends.refl.push hpush).trans (ih h)
    · obtain ⟨rfl, -⟩ := Prod.mk.inj (Except.ok.inj h)
      exact .refl

/-- A pool that was read is reachable. -/
theorem reachable_of_reader {bs rest : List UInt8} (h : reader bs = .ok (p, rest)) :
    p.Reachable := by
  obtain ⟨⟨count, bs'⟩, -, h⟩ := bind_eq_ok.mp h
  obtain ⟨⟨q, bs''⟩, hq, h⟩ := bind_eq_ok.mp h
  have hextends := extends_of_readUpTo hq
  simp only at h
  split at h
  · obtain ⟨rfl, -⟩ := Prod.mk.inj (Except.ok.inj h)
    exact hextends
  · cases h

end Pool
end ClassWeave
