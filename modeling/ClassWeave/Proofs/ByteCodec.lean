import Mathlib.Data.Nat.Bitwise
import ClassWeave.Bytes.Reader
import ClassWeave.Bytes.Writer
import ClassWeave.Proofs.Results

/-!
# Reading back what was written

A reader reads a value off some bytes if it does so whatever stands behind them. Readers are put
together by binding one after the other, written forms by appending, so that a law about a compound
value follows the two definitions side by side.
-/

namespace ClassWeave
namespace Reader

variable {α β : Type}

/-- The reader takes exactly these bytes and gives this value. -/
def Reads (r : Reader α) (bytes : List UInt8) (a : α) : Prop :=
  ∀ rest, r (bytes ++ rest) = .ok (a, rest)

theorem Reads.pure (a : α) : (Pure.pure a : Reader α).Reads [] a := fun _ => rfl

/-- What comes behind a reader only depends on where it ends up. -/
theorem bind_congr {r r' : Reader α} {bs cs : List UInt8} (f : α → Reader β) (h : r bs = r' cs) :
    (r >>= f) bs = (r' >>= f) cs := by
  show (r bs >>= fun p => f p.1 p.2) = _
  rw [h]
  rfl

theorem bind_error {r : Reader α} {bs : List UInt8} {e : FormatError} (f : α → Reader β)
    (h : r bs = .error e) : (r >>= f) bs = .error e := by
  show (r bs >>= fun p => f p.1 p.2) = _
  rw [h]
  rfl

theorem Reads.bind_append {r : Reader α} {bs : List UInt8} {a : α} (hr : r.Reads bs a)
    (f : α → Reader β) (rest : List UInt8) : (r >>= f) (bs ++ rest) = f a rest := by
  have hpure : r (bs ++ rest) = (Pure.pure a : Reader α) rest := hr rest
  exact bind_congr f hpure

theorem Reads.bind {r : Reader α} {f : α → Reader β} {bs cs : List UInt8} {a : α} {b : β}
    (hr : r.Reads bs a) (hf : (f a).Reads cs b) : (r >>= f).Reads (bs ++ cs) b := by
  intro rest
  rw [List.append_assoc, hr.bind_append]
  exact hf rest

theorem Reads.map {r : Reader α} {bs : List UInt8} {a : α} (f : α → β) (hr : r.Reads bs a) :
    (r >>= fun x => Pure.pure (f x)).Reads bs (f a) := by
  have := hr.bind (f := fun x => Pure.pure (f x)) (Reads.pure (f a))
  rwa [List.append_nil] at this

theorem Reads.ofExcept {x : Except FormatError α} {a : α} (hx : x = .ok a) :
    (MonadExcept.ofExcept x : Reader α).Reads [] a := by
  subst hx
  exact fun _ => rfl

theorem Reads.eq_ok {r : Reader α} {bytes : List UInt8} {a : α} (hr : r.Reads bytes a) :
    r bytes = .ok (a, []) := by
  have := hr []
  rwa [List.append_nil] at this

theorem Reads.read {r : Reader α} {bytes : List UInt8} {a : α} (hr : r.Reads bytes a) :
    r.read bytes = .ok a := by
  rw [Reader.read, hr.eq_ok]
  rfl

/-! ## Numbers -/

/-- A number is put together from its two halves. -/
theorem join_halves {n k : Nat} (hn : n < 2 ^ (k + k)) :
    (n >>> k % 2 ^ k) <<< k % 2 ^ (k + k) ||| n % 2 ^ k = n := by
  have hhigh : n >>> k < 2 ^ k := by
    rw [Nat.shiftRight_eq_div_pow, Nat.div_lt_iff_lt_mul (Nat.two_pow_pos k), ← Nat.pow_add]
    exact hn
  have hsum : n >>> k <<< k + n % 2 ^ k = n := by
    rw [Nat.shiftRight_eq_div_pow, Nat.shiftLeft_eq, Nat.mul_comm]
    exact Nat.div_add_mod n (2 ^ k)
  have hlow : n % 2 ^ k < 2 ^ k := Nat.mod_lt _ (Nat.two_pow_pos k)
  rw [Nat.mod_eq_of_lt hhigh, Nat.mod_eq_of_lt (by omega : n >>> k <<< k < 2 ^ (k + k)),
    ← Nat.shiftLeft_add_eq_or_of_lt hlow, hsum]

theorem reads_u8 (n : UInt8) : u8.Reads [n] n := fun _ => rfl

theorem reads_u16 (n : UInt16) : u16.Reads (Bytes.u16 n) n := by
  have hjoin : ((n >>> 8).toUInt8.toUInt16 <<< 8 ||| n.toUInt8.toUInt16 : UInt16) = n := by
    apply UInt16.toNat_inj.mp
    have := join_halves (n := n.toNat) (k := 8) n.toNat_lt
    simpa using this
  have hread : u16.Reads (Bytes.u16 n)
      ((n >>> 8).toUInt8.toUInt16 <<< 8 ||| n.toUInt8.toUInt16) :=
    (reads_u8 _).bind ((reads_u8 _).map fun lo =>
      (n >>> 8).toUInt8.toUInt16 <<< 8 ||| lo.toUInt16)
  rwa [hjoin] at hread

theorem reads_u32 (n : UInt32) : u32.Reads (Bytes.u32 n) n := by
  have hjoin : ((n >>> 16).toUInt16.toUInt32 <<< 16 ||| n.toUInt16.toUInt32 : UInt32) = n := by
    apply UInt32.toNat_inj.mp
    have := join_halves (n := n.toNat) (k := 16) n.toNat_lt
    simpa using this
  have hread : u32.Reads (Bytes.u32 n)
      ((n >>> 16).toUInt16.toUInt32 <<< 16 ||| n.toUInt16.toUInt32) :=
    (reads_u16 _).bind ((reads_u16 _).map fun lo =>
      (n >>> 16).toUInt16.toUInt32 <<< 16 ||| lo.toUInt32)
  rwa [hjoin] at hread

theorem reads_u64 (n : UInt64) : u64.Reads (Bytes.u64 n) n := by
  have hjoin : ((n >>> 32).toUInt32.toUInt64 <<< 32 ||| n.toUInt32.toUInt64 : UInt64) = n := by
    apply UInt64.toNat_inj.mp
    have := join_halves (n := n.toNat) (k := 32) n.toNat_lt
    simpa using this
  have hread : u64.Reads (Bytes.u64 n)
      ((n >>> 32).toUInt32.toUInt64 <<< 32 ||| n.toUInt32.toUInt64) :=
    (reads_u32 _).bind ((reads_u32 _).map fun lo =>
      (n >>> 32).toUInt32.toUInt64 <<< 32 ||| lo.toUInt64)
  rwa [hjoin] at hread

theorem reads_i8 (n : Int8) : i8.Reads (Bytes.i8 n) n := (reads_u8 n.toUInt8).map UInt8.toInt8

theorem reads_i16 (n : Int16) : i16.Reads (Bytes.i16 n) n :=
  (reads_u16 n.toUInt16).map UInt16.toInt16

theorem reads_i32 (n : Int32) : i32.Reads (Bytes.i32 n) n :=
  (reads_u32 n.toUInt32).map UInt32.toInt32

theorem reads_i64 (n : Int64) : i64.Reads (Bytes.i64 n) n :=
  (reads_u64 n.toUInt64).map UInt64.toInt64

/-! ## Sequences -/

theorem reads_bytes {n : Nat} {bs : List UInt8} (hn : bs.length = n) : (bytes n).Reads bs bs := by
  intro rest
  subst hn
  simp [bytes]

/-- Every item is read as what it is turned into. -/
theorem reads_timesOnto {item : Reader β} {encode : α → List UInt8} {f : α → β} {items : List α}
    (found : List β) (hitem : ∀ a ∈ items, item.Reads (encode a) (f a)) :
    (timesOnto item items.length found).Reads (items.flatMap encode)
      (found.reverse ++ items.map f) := by
  induction items generalizing found with
  | nil =>
    rw [List.map_nil, List.append_nil]
    exact Reads.pure _
  | cons a items ih =>
    have hrest := ih (f a :: found) fun b hb => hitem b (List.mem_cons_of_mem _ hb)
    rw [List.reverse_cons, List.append_assoc] at hrest
    exact (hitem a List.mem_cons_self).bind hrest

theorem reads_times {item : Reader α} {encode : α → List UInt8} {items : List α}
    (hitem : ∀ a ∈ items, item.Reads (encode a) a) :
    (times items.length item).Reads (items.flatMap encode) items := by
  have hread : (times items.length item).Reads (items.flatMap encode) (items.map id) :=
    reads_timesOnto [] hitem
  rwa [List.map_id] at hread

theorem toNat_ofNat_u16 {n : Nat} (hn : n ≤ 65535) : (UInt16.ofNat n).toNat = n := by
  rw [UInt16.toNat_ofNat', Nat.mod_eq_of_lt (by omega)]

theorem toNat_ofNat_u32 {n : Nat} (hn : n < 2 ^ 32) : (UInt32.ofNat n).toNat = n := by
  rw [UInt32.toNat_ofNat', Nat.mod_eq_of_lt hn]

/-- A sequence is read back if its number of items fits into two bytes. -/
theorem reads_counted_map {item : Reader β} {encode : α → List UInt8} {f : α → β} {items : List α}
    (hlen : items.length ≤ 65535) (hitem : ∀ a ∈ items, item.Reads (encode a) (f a)) :
    (counted item).Reads (Bytes.counted encode items) (items.map f) := by
  refine (reads_u16 _).bind ?_
  rw [toNat_ofNat_u16 hlen]
  exact reads_timesOnto [] hitem

theorem reads_counted {item : Reader α} {encode : α → List UInt8} {items : List α}
    (hlen : items.length ≤ 65535) (hitem : ∀ a ∈ items, item.Reads (encode a) a) :
    (counted item).Reads (Bytes.counted encode items) items := by
  have hread : (counted item).Reads (Bytes.counted encode items) (items.map id) :=
    reads_counted_map hlen hitem
  rwa [List.map_id] at hread

end Reader
end ClassWeave
