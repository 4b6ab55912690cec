import ClassWeave.ClassFile.Basic
import ClassWeave.Proofs.ByteCodec

/-!
# Reading only what was written

The other half of the laws about readers: whatever a reader accepts begins with a written form of
the value that it gives. `Accepts` says so with a relation between bytes and values, since texts and
access flags have written forms that are never written. Where there is only one written form, the
bytes that were read are those that would be written.
-/

namespace ClassWeave
namespace Reader

variable {α β : Type} {P : List UInt8 → α → Prop} {Q : α → List UInt8 → β → Prop}

/-- Whatever the reader accepts begins with bytes that stand for its value. -/
def Accepts (r : Reader α) (P : List UInt8 → α → Prop) : Prop :=
  ∀ bs a rest, r bs = .ok (a, rest) → ∃ front, bs = front ++ rest ∧ P front a

theorem Accepts.pure (a : α) : (Pure.pure a : Reader α).Accepts fun front b => front = [] ∧ b = a := by
  intro bs b rest h
  obtain ⟨rfl, rfl⟩ := Prod.mk.inj (Except.ok.inj h)
  exact ⟨[], rfl, rfl, rfl⟩

theorem Accepts.throw (e : FormatError) : (MonadExcept.throw e : Reader α).Accepts P := by
  intro bs b rest h
  cases h

theorem Accepts.imp {P' : List UInt8 → α → Prop} {r : Reader α} (hr : r.Accepts P)
    (h : ∀ {front a}, P front a → P' front a) : r.Accepts P' := by
  intro bs a rest hrun
  obtain ⟨front, hbs, hP⟩ := hr bs a rest hrun
  exact ⟨front, hbs, h hP⟩

theorem Accepts.bind {r : Reader α} {f : α → Reader β} (hr : r.Accepts P)
    (hf : ∀ a, (f a).Accepts (Q a)) :
    (r >>= f).Accepts fun front b => ∃ bs a cs, P bs a ∧ Q a cs b ∧ front = bs ++ cs := by
  intro bs b rest h
  obtain ⟨⟨a, behind⟩, hrun, h⟩ := bind_eq_ok.mp h
  obtain ⟨front, hbs, hP⟩ := hr _ _ _ hrun
  obtain ⟨front', hbehind, hQ⟩ := hf a _ _ _ h
  exact ⟨front ++ front', by rw [hbs, hbehind, List.append_assoc], front, a, front', hP, hQ, rfl⟩

theorem Accepts.map {r : Reader α} (f : α → β) (hr : r.Accepts P) :
    (r >>= fun a => Pure.pure (f a)).Accepts fun front b => ∃ a, P front a ∧ b = f a := by
  refine (hr.bind fun a => .pure (f a)).imp ?_
  rintro front b ⟨bs, a, cs, hP, ⟨rfl, rfl⟩, rfl⟩
  exact ⟨a, by rwa [List.append_nil], rfl⟩

theorem Accepts.ite {c : Prop} [Decidable c] {r r' : Reader α} (hr : c → r.Accepts P)
    (hr' : ¬ c → r'.Accepts P) : (if c then r else r').Accepts P := by
  by_cases h : c
  · rw [if_pos h]
    exact hr h
  · rw [if_neg h]
    exact hr' h

theorem accepts_ofExcept (x : Except FormatError α) :
    (MonadExcept.ofExcept x : Reader α).Accepts fun front a => front = [] ∧ x = .ok a := by
  intro bs a rest h
  cases x with
  | error e => cases h
  | ok b =>
    obtain ⟨rfl, rfl⟩ := Prod.mk.inj (Except.ok.inj h)
    exact ⟨[], rfl, rfl, rfl⟩

/-- What the reader accepts begins with the one written form of its value. -/
abbrev Exact (r : Reader α) (encode : α → List UInt8) : Prop :=
  r.Accepts fun front a => front = encode a

/-- A value that is made of another one, and is written as that one. -/
theorem Exact.map {r : Reader α} {encode : α → List UInt8} {encode' : β → List UInt8} (f : α → β)
    (hr : r.Exact encode) (h : ∀ a, encode' (f a) = encode a) :
    (r >>= fun a => Pure.pure (f a)).Exact encode' := by
  refine (Accepts.map f hr).imp ?_
  rintro front b ⟨a, rfl, rfl⟩
  exact (h a).symm

/-- A value with two parts that are written one after the other. -/
theorem Exact.bind {γ : Type} {r : Reader α} {encode : α → List UInt8} {f : α → Reader γ}
    {encode' : γ → List UInt8} (hr : r.Exact encode)
    (hf : ∀ a, (f a).Accepts fun front c => encode' c = encode a ++ front) :
    (r >>= f).Exact encode' := by
  refine (Accepts.bind hr hf).imp ?_
  rintro front c ⟨bs, a, cs, rfl, hcs, rfl⟩
  exact hcs.symm

/-! ## Numbers -/

/-- Two halves are taken apart again: the low one is what is left without the high bits. -/
theorem split_halves {hi lo k : Nat} (hhi : hi < 2 ^ k) (hlo : lo < 2 ^ k) :
    (hi <<< k % 2 ^ (k + k) ||| lo) >>> k % 2 ^ k = hi ∧ hi <<< k % 2 ^ k ||| lo = lo := by
  have hpos := Nat.two_pow_pos k
  have hwhole : hi <<< k < 2 ^ (k + k) := by
    rw [Nat.shiftLeft_eq, Nat.pow_add]
    exact Nat.mul_lt_mul_of_pos_right hhi hpos
  constructor
  · rw [Nat.mod_eq_of_lt hwhole, ← Nat.shiftLeft_add_eq_or_of_lt hlo, Nat.shiftLeft_eq,
      Nat.shiftRight_eq_div_pow, Nat.add_comm, Nat.add_mul_div_right _ _ hpos,
      Nat.div_eq_of_lt hlo, Nat.zero_add, Nat.mod_eq_of_lt hhi]
  · rw [Nat.shiftLeft_eq, Nat.mul_mod_left, Nat.zero_or]

theorem exact_u8 : u8.Exact fun n => [n] := by
  intro bs n rest h
  cases bs with
  | nil => cases h
  | cons b bs =>
    obtain ⟨rfl, rfl⟩ := Prod.mk.inj (Except.ok.inj h)
    exact ⟨_, rfl, rfl⟩

theorem exact_u16 : u16.Exact Bytes.u16 := by
  refine Exact.bind exact_u8 fun hi => (Accepts.map _ exact_u8).imp ?_
  rintro front n ⟨lo, rfl, rfl⟩
  obtain ⟨hhigh, hlow⟩ := split_halves (k := 8) hi.toNat_lt lo.toNat_lt
  have hfirst : ((hi.toUInt16 <<< 8 ||| lo.toUInt16) >>> 8).toUInt8 = hi := by
    apply UInt8.toNat_inj.mp
    simpa using hhigh
  have hsecond : (hi.toUInt16 <<< 8 ||| lo.toUInt16).toUInt8 = lo := by
    apply UInt8.toNat_inj.mp
    simpa using hlow
  rw [Bytes.u16, hfirst, hsecond]
  rfl

theorem exact_u32 : u32.Exact Bytes.u32 := by
  refine Exact.bind exact_u16 fun hi => (Accepts.map _ exact_u16).imp ?_
  rintro front n ⟨lo, rfl, rfl⟩
  obtain ⟨hhigh, hlow⟩ := split_halves (k := 16) hi.toNat_lt lo.toNat_lt
  have hfirst : ((hi.toUInt32 <<< 16 ||| lo.toUInt32) >>> 16).toUInt16 = hi := by
    apply UInt16.toNat_inj.mp
    simpa using hhigh
  have hsecond : (hi.toUInt32 <<< 16 ||| lo.toUInt32).toUInt16 = lo := by
    apply UInt16.toNat_inj.mp
    simpa using hlow
  rw [Bytes.u32, hfirst, hsecond]

theorem exact_u64 : u64.Exact Bytes.u64 := by
  refine Exact.bind exact_u32 fun hi => (Accepts.map _ exact_u32).imp ?_
  rintro front n ⟨lo, rfl, rfl⟩
  obtain ⟨hhigh, hlow⟩ := split_halves (k := 32) hi.toNat_lt lo.toNat_lt
  have hfirst : ((hi.toUInt64 <<< 32 ||| lo.toUInt64) >>> 32).toUInt32 = hi := by
    apply UInt32.toNat_inj.mp
    simpa using hhigh
  have hsecond : (hi.toUInt64 <<< 32 ||| lo.toUInt64).toUInt32 = lo := by
    apply UInt32.toNat_inj.mp
    simpa using hlow
  rw [Bytes.u64, hfirst, hsecond]

theorem exact_i32 : i32.Exact Bytes.i32 := exact_u32.map UInt32.toInt32 fun _ => rfl

theorem exact_i64 : i64.Exact Bytes.i64 := exact_u64.map UInt64.toInt64 fun _ => rfl

/-! ## Sequences -/

theorem accepts_bytes (n : Nat) : (bytes n).Accepts fun front bs => front = bs ∧ bs.length = n := by
  intro bs a rest h
  unfold bytes at h
  simp only at h
  split at h
  · rename_i hlength
    obtain ⟨rfl, rfl⟩ := Prod.mk.inj (Except.ok.inj h)
    exact ⟨_, (List.take_append_drop n bs).symm, rfl, hlength⟩
  · cases h

/-- The items are read one after the other. -/
theorem accepts_timesOnto {item : Reader α} (hitem : item.Accepts P) (n : Nat) (found : List α) :
    (timesOnto item n found).Accepts fun front as => ∃ bss items, as = found.reverse ++ items ∧
      items.length = n ∧ List.Forall₂ P bss items ∧ front = bss.flatten := by
  induction n generalizing found with
  | zero =>
    refine (Accepts.pure _).imp ?_
    rintro front as ⟨rfl, rfl⟩
    exact ⟨[], [], (List.append_nil _).symm, rfl, .nil, rfl⟩
  | succ n ih =>
    refine (hitem.bind fun a => ih (a :: found)).imp ?_
    rintro front as ⟨bs, a, cs, ha, ⟨bss, items, rfl, rfl, hitems, rfl⟩, rfl⟩
    refine ⟨bs :: bss, a :: items, ?_, rfl, .cons ha hitems, rfl⟩
    rw [List.reverse_cons, List.append_assoc]
    rfl

/-- A sequence has at most as many items as two bytes can tell. The items may be made of others
that they were written as. -/
theorem accepts_counted_map {γ : Type} {item : Reader α} {F : γ → Prop} {f : γ → α}
    {encode : γ → List UInt8}
    (hitem : item.Accepts fun front a => ∃ c, F c ∧ a = f c ∧ front = encode c) :
    (counted item).Accepts fun front as => ∃ cs, cs.length ≤ 65535 ∧ (∀ c ∈ cs, F c) ∧
      as = cs.map f ∧ front = Bytes.counted encode cs := by
  refine (Accepts.bind exact_u16 fun n => accepts_timesOnto hitem n.toNat []).imp ?_
  rintro front as ⟨_, n, _, rfl, ⟨bss, items, rfl, hlength, hitems, rfl⟩, rfl⟩
  obtain ⟨cs, hF, hmap, hflatten⟩ : ∃ cs : List γ, (∀ c ∈ cs, F c) ∧ as = cs.map f ∧
      bss.flatten = cs.flatMap encode := by
    clear hlength
    induction hitems with
    | nil => exact ⟨[], List.forall_mem_nil _, rfl, rfl⟩
    | cons h _ ih =>
      obtain ⟨c, hc, rfl, rfl⟩ := h
      obtain ⟨cs, hF, rfl, hflatten⟩ := ih
      exact ⟨c :: cs, List.forall_mem_cons.mpr ⟨hc, hF⟩, rfl,
        by rw [List.flatten_cons, List.flatMap_cons, hflatten]⟩
  have hcount : cs.length = n.toNat := by rw [← hlength, hmap, List.length_map]
  refine ⟨cs, ?_, hF, hmap, ?_⟩
  · rw [hcount]
    exact Nat.le_of_lt_succ n.toNat_lt
  · rw [Bytes.counted, hcount, UInt16.ofNat_toNat, hflatten]

theorem accepts_counted {item : Reader α} {F : α → Prop} {encode : α → List UInt8}
    (hitem : item.Accepts fun front a => F a ∧ front = encode a) :
    (counted item).Accepts fun front as => as.length ≤ 65535 ∧ (∀ a ∈ as, F a) ∧
      front = Bytes.counted encode as := by
  have hself : item.Accepts fun front a => ∃ b, F b ∧ a = id b ∧ front = encode b := by
    refine hitem.imp ?_
    rintro front a ⟨ha, hfront⟩
    exact ⟨a, ha, rfl, hfront⟩
  refine (accepts_counted_map hself).imp ?_
  rintro front as ⟨cs, hlength, hF, rfl, hfront⟩
  rw [List.map_id]
  exact ⟨hlength, hF, hfront⟩

end Reader
end ClassWeave
