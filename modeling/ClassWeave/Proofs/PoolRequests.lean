import ClassWeave.Proofs.ClassFormat

/-!
# Asking a pool again and again

A request for a constant is answered from the table of first occurrences, and only a constant that
the table does not know is put behind the others. So a pool that knows all its constants goes on
knowing them: an answer stays the answer to the same request for good, a request that fails has met
a constant that is missing and has no place, and no constant is put into the pool twice.
-/

namespace ClassWeave

/-! ## What a pool knows -/

namespace Pool

variable {p q r : Pool} {c : Constant} {i j : PoolIndex}

theorem get_push_cases {c' : Constant} (h : p.push c = .ok (i, q)) (hg : q.get j = .ok c') :
    p.get j = .ok c' ∨ j.toNat = p.count ∧ c' = c := by
  obtain ⟨-, -, rfl⟩ := push_eq_ok.mp h
  exact (SlotVec.get?_push_cases (get_eq_ok.mp hg)).imp_left get_eq_ok.mpr

theorem get_lt (h : p.get i = .ok c) : i.toNat < p.count := (SlotVec.get?_lt (get_eq_ok.mp h)).2

/-- The first occurrence of a constant is not changed by what comes behind it. -/
theorem Extends.index (h : p.Extends q) (hi : p.index[c]? = some i) : q.index[c]? = some i := by
  induction h with
  | refl => exact hi
  | push _ hr ih =>
    obtain ⟨-, -, rfl⟩ := push_eq_ok.mp hr
    rw [Std.HashMap.getElem?_insertIfNew, if_neg, ih]
    rintro ⟨hsame, hnew⟩
    obtain rfl := eq_of_beq hsame
    exact hnew (Std.HashMap.mem_iff_isSome_getElem?.mpr (by rw [ih]; rfl))

/-- The table of first occurrences knows every constant, by the first place that holds it. -/
def Indexed (p : Pool) : Prop :=
  ∀ c i, p.get i = .ok c → ∃ first, p.index[c]? = some first ∧ first.toNat ≤ i.toNat

theorem Indexed.push (hp : p.Indexed) (h : p.push c = .ok (i, q)) (hsound : p.Sound) :
    q.Indexed := by
  intro c' j hj
  have hpq : p.Extends q := Extends.refl.push h
  rcases get_push_cases h hj with hold | ⟨hplace, rfl⟩
  · obtain ⟨first, hfirst, hle⟩ := hp c' j hold
    exact ⟨first, hpq.index hfirst, hle⟩
  · cases hknown : p.index[c']? with
    | some first =>
      have hlt := get_lt (hsound.index hknown)
      exact ⟨first, hpq.index hknown, by omega⟩
    | none =>
      obtain ⟨hroom, -, rfl⟩ := push_eq_ok.mp h
      have hslots : 0 < c'.slots := Width.width_pos c'
      refine ⟨UInt16.ofNat p.count, ?_, ?_⟩
      · rw [Std.HashMap.getElem?_insertIfNew, if_pos]
        exact ⟨BEq.rfl, by rw [Std.HashMap.mem_iff_isSome_getElem?, hknown]; decide⟩
      · exact Nat.le_of_eq (by rw [Reader.toNat_ofNat_u16 (by omega), hplace])

theorem Reachable.indexed (hp : p.Reachable) : p.Indexed := by
  induction hp with
  | refl => exact fun _ _ h => absurd h get_empty
  | push hq hr ih => exact ih.push hr (Reachable.sound hq)

/-- The places that are taken are those of the constants. -/
theorem Reachable.count_eq (hp : p.Reachable) :
    p.count = 1 + (p.constants.values.map Constant.slots).sum := by
  induction hp with
  | refl => rfl
  | push _ hr ih =>
    rw [count_push hr, values_push hr, ih, List.map_append, List.sum_append, List.map_singleton,
      List.sum_singleton, Nat.add_assoc]

/-- The second pool comes from the first one by adding constants that are not there yet. -/
inductive Fills (p : Pool) : Pool → Prop
  | refl : Fills p p
  | add {q r : Pool} {c : Constant} {i : PoolIndex} (hq : Fills p q) (hnew : q.index[c]? = none)
      (hr : q.push c = .ok (i, r)) : Fills p r

theorem Fills.trans (hq : p.Fills q) (hr : q.Fills r) : p.Fills r := by
  induction hr with
  | refl => exact hq
  | add _ hnew hr ih => exact ih.add hnew hr

theorem Fills.extends (h : p.Fills q) : p.Extends q := by
  induction h with
  | refl => exact .refl
  | add _ _ hr ih => exact ih.push hr

/-- No constant stands at two places. -/
def Distinct (p : Pool) : Prop := ∀ c i j, p.get i = .ok c → p.get j = .ok c → i = j

theorem Fills.distinct (h : p.Fills q) (hreach : p.Reachable) (hp : p.Distinct) : q.Distinct := by
  induction h with
  | refl => exact hp
  | @add q r c k hq hnew hr ih =>
    have hknown : ∀ j, q.get j ≠ .ok c := by
      intro j hj
      obtain ⟨first, hfirst, -⟩ := (hreach.extends hq.extends).indexed c j hj
      rw [hnew] at hfirst
      cases hfirst
    intro c' i j hi hj
    rcases get_push_cases hr hi with hi | ⟨hi, hc⟩ <;>
      rcases get_push_cases hr hj with hj | ⟨hj, hc'⟩
    · exact ih c' i j hi hj
    · exact absurd (hc' ▸ hi) (hknown i)
    · exact absurd (hc ▸ hj) (hknown j)
    · exact UInt16.toNat_inj.mp (hi.trans hj.symm)

end Pool

/-! ## Requests that succeed and requests that fail -/

namespace Interning

variable {α β : Type} {p q : Pool}

theorem on_bind (x : Interning α) (f : α → Interning β) (p : Pool) :
    (x >>= f).on p = match x.on p with
      | (.ok a, q) => (f a).on q
      | (.error e, q) => (.error e, q) := by
  simp only [on, ExceptT.run_bind, StateT.run_bind]
  rcases x.run.run p with ⟨_ | _, _⟩ <;> rfl

theorem on_intern_known {c : Constant} {i : PoolIndex} (hindex : p.index[c]? = some i) :
    (intern c).on p = (.ok i, p) := by
  simp only [intern, on, ExceptT.run, ExceptT.mk, StateT.run]
  rw [hindex]

theorem on_intern_full {c : Constant} (hindex : p.index[c]? = none) (hroom : ¬ p.hasRoom c) :
    (intern c).on p = (.error (.poolOverflow c p.count), p) := by
  simp only [intern, on, ExceptT.run, ExceptT.mk, StateT.run]
  rw [hindex]
  exact if_neg hroom

/-- A constant is missing and there is no place for it. -/
structure Lacks (q : Pool) (c : Constant) : Prop where
  missing : ∀ i, q.get i ≠ .ok c
  full : 65535 < q.count + c.slots

/-- The computation adds only what is missing. What it gives it gives again, whatever is added in
between, and where it fails one of the constants that it `needs` has no place. -/
def Asks (x : Interning α) (needs : Pool → Constant → Prop) : Prop :=
  ∀ p : Pool, p.Reachable →
    (∃ a q, x.on p = (.ok a, q) ∧ p.Fills q ∧ ∀ r, q.Extends r → x.on r = (.ok a, r)) ∨
    (∃ c q, x.on p = (.error (.poolOverflow c q.count), q) ∧ p.Fills q ∧ needs q c ∧ Lacks q c)

theorem asks_intern (c : Constant) : Asks (intern c) fun _ c' => c' = c := by
  intro p hp
  cases hindex : p.index[c]? with
  | some i =>
    exact .inl ⟨i, p, on_intern_known hindex, .refl, fun r hr => on_intern_known (hr.index hindex)⟩
  | none =>
    by_cases hroom : p.hasRoom c
    · have hpush : p.push c = .ok (p.add c) := if_pos hroom
      refine .inl ⟨_, _, on_intern hindex hroom, Pool.Fills.refl.add hindex hpush, fun r hr => ?_⟩
      refine on_intern_known (hr.index ?_)
      show (p.index.insertIfNew c _)[c]? = _
      rw [Std.HashMap.getElem?_insertIfNew, if_pos]
      · rfl
      · exact ⟨BEq.rfl, by rw [Std.HashMap.mem_iff_isSome_getElem?, hindex]; decide⟩
    · refine .inr ⟨c, p, on_intern_full hindex hroom, .refl, rfl, ?_, ?_⟩
      · intro i hi
        obtain ⟨first, hfirst, -⟩ := hp.indexed c i hi
        rw [hindex] at hfirst
        cases hfirst
      · simpa [Pool.hasRoom] using hroom

theorem Asks.imp {x : Interning α} {needs needs' : Pool → Constant → Prop} (hx : Asks x needs)
    (h : ∀ q c, needs q c → needs' q c) : Asks x needs' := by
  intro p hp
  rcases hx p hp with hok | ⟨c, q, hrun, hfills, hneeds, hlacks⟩
  · exact .inl hok
  · exact .inr ⟨c, q, hrun, hfills, h q c hneeds, hlacks⟩

/-- What is needed behind a first answer may depend on what that answer stands for. -/
theorem Asks.bind {x : Interning α} {f : α → Interning β} {P : Pool → α → Prop}
    {needs : Pool → Constant → Prop} (hx : Asks x needs) (hgives : Gives x P)
    (hkeep : ∀ {q r a}, q.Extends r → P q a → P r a)
    (hf : ∀ a, Asks (f a) fun q c => P q a → needs q c) : Asks (x >>= f) needs := by
  intro p hp
  rcases hx p hp with ⟨a, q, hrun, hpq, hagain⟩ | ⟨c, q, hrun, hpq, hneeds, hlacks⟩
  · have ha : P q a := (hgives p a q hp hrun).2
    rcases hf a q (hp.extends hpq.extends) with
      ⟨b, r, hrun', hqr, hagain'⟩ | ⟨c, r, hrun', hqr, hneeds, hlacks⟩
    · refine .inl ⟨b, r, by rw [on_bind, hrun]; exact hrun', hpq.trans hqr, fun s hs => ?_⟩
      rw [on_bind, hagain s (hqr.extends.trans hs)]
      exact hagain' s hs
    · exact .inr ⟨c, r, by rw [on_bind, hrun]; exact hrun', hpq.trans hqr,
        hneeds (hkeep hqr.extends ha), hlacks⟩
  · exact .inr ⟨c, q, by rw [on_bind, hrun], hpq, hneeds, hlacks⟩

end Interning

namespace ConstantRequest

open Interning

/-! ## What an index stands for -/

/-- The constant is what is asked for, where its indices are read in a pool. -/
def Means (p : Pool) (c : Constant) : ConstantRequest → Prop
  | utf8 text => c = .utf8 text
  | cls name => ∃ i, c = .classInfo i ∧ p.utf8 i = .ok name
  | string text => ∃ i, c = .string i ∧ p.utf8 i = .ok text
  | integer n => c = .integer n
  | float bits => c = .float bits
  | long n => c = .long n
  | double bits => c = .double bits
  | nameAndType name descriptor =>
    ∃ i j, c = .nameAndType i j ∧ p.utf8 i = .ok name ∧ p.utf8 j = .ok descriptor
  | fieldRef m => ∃ owner nt, c = .fieldRef owner nt ∧ p.member owner nt = .ok m
  | methodRef m isInterface =>
    ∃ owner nt, c = .methodRef owner nt isInterface ∧ p.member owner nt = .ok m
  | methodHandle kind member => c = .methodHandle kind member
  | methodType descriptor => ∃ i, c = .methodType i ∧ p.utf8 i = .ok descriptor
  | invokeDynamic bootstrap name descriptor =>
    ∃ nt, c = .invokeDynamic bootstrap nt ∧ p.nameAndType nt = .ok (name, descriptor)

/-- Looking the index up gives back what was asked for. A method handle can be looked up if its
member can. -/
def Found (p : Pool) (i : PoolIndex) : ConstantRequest → Prop
  | utf8 text => p.utf8 i = .ok text
  | cls name => p.className i = .ok name ∧ p.loadable i = .ok (.cls name)
  | string text => p.loadable i = .ok (.string text)
  | integer n => p.loadable i = .ok (.int n)
  | float bits => p.loadable i = .ok (.float bits)
  | long n => p.loadable i = .ok (.long n)
  | double bits => p.loadable i = .ok (.double bits)
  | nameAndType name descriptor => p.nameAndType i = .ok (name, descriptor)
  | fieldRef m => p.memberRef i = .ok (m, false)
  | methodRef m isInterface => p.memberRef i = .ok (m, isInterface)
  | methodHandle kind member => ∀ m isInterface, p.memberRef member = .ok (m, isInterface) →
      p.loadable i = .ok (.handle ⟨kind, m, isInterface⟩)
  | methodType descriptor => p.loadable i = .ok (.methodType descriptor)
  | invokeDynamic bootstrap name descriptor =>
    ∃ nt, p.get i = .ok (.invokeDynamic bootstrap nt) ∧ p.nameAndType nt = .ok (name, descriptor)

/-- The constants that a constant is made of, those of its parts included. -/
def parts : ConstantRequest → List ConstantRequest
  | cls text | string text | methodType text => [utf8 text]
  | nameAndType name descriptor => [utf8 name, utf8 descriptor]
  | fieldRef m | methodRef m _ =>
    [utf8 m.owner, cls m.owner, utf8 m.name, utf8 m.descriptor, nameAndType m.name m.descriptor]
  | invokeDynamic _ name descriptor => [utf8 name, utf8 descriptor, nameAndType name descriptor]
  | _ => []

/-- The constant is what is asked for, or one that it is made of. -/
def Needs (r : ConstantRequest) (p : Pool) (c : Constant) : Prop := ∃ s ∈ r :: r.parts, s.Means p c

variable {p q : Pool} {c : Constant} {i : PoolIndex} {r : ConstantRequest}

/-- A constant that means what was asked for is read as that. -/
theorem Means.found (hi : p.get i = .ok c) (h : r.Means p c) : r.Found p i := by
  cases r with
  | utf8 | integer | float | long | double =>
    obtain rfl := h
    exact bind_eq_ok.mpr ⟨_, hi, rfl⟩
  | cls name =>
    obtain ⟨u, rfl, hu⟩ := h
    exact ⟨bind_eq_ok.mpr ⟨_, hi, hu⟩, bind_eq_ok.mpr ⟨_, hi, bind_eq_ok.mpr ⟨_, hu, rfl⟩⟩⟩
  | string | methodType =>
    obtain ⟨u, rfl, hu⟩ := h
    exact bind_eq_ok.mpr ⟨_, hi, bind_eq_ok.mpr ⟨_, hu, rfl⟩⟩
  | nameAndType name descriptor =>
    obtain ⟨u, v, rfl, hu, hv⟩ := h
    exact bind_eq_ok.mpr ⟨_, hi, bind_eq_ok.mpr ⟨_, hu, bind_eq_ok.mpr ⟨_, hv, rfl⟩⟩⟩
  | fieldRef | methodRef =>
    obtain ⟨owner, nt, rfl, hm⟩ := h
    exact bind_eq_ok.mpr ⟨_, hi, bind_eq_ok.mpr ⟨_, hm, rfl⟩⟩
  | methodHandle kind member =>
    obtain rfl := h
    intro m isInterface hm
    exact Pool.loadable_of_handle (bind_eq_ok.mpr ⟨_, hi, bind_eq_ok.mpr ⟨_, hm, rfl⟩⟩)
  | invokeDynamic bootstrap name descriptor =>
    obtain ⟨nt, rfl, hnt⟩ := h
    exact ⟨nt, hi, hnt⟩

/-- What a part of a constant needs the constant needs. -/
theorem Needs.of_part {s : ConstantRequest} (hparts : s :: s.parts ⊆ r :: r.parts)
    (h : s.Needs p c) : r.Needs p c := by
  obtain ⟨t, ht, hmeans⟩ := h
  exact ⟨t, hparts ht, hmeans⟩

theorem Means.needs (h : r.Means p c) : r.Needs p c := ⟨r, List.mem_cons_self, h⟩

/-! ## What is asked for and what is given -/

/-- What is given is the index of what was asked for. -/
theorem gives_ask (r : ConstantRequest) :
    Gives r.ask fun q i => ∃ c, q.get i = .ok c ∧ r.Means q c := by
  cases r with
  | utf8 | integer | float | long | double | methodHandle =>
    exact (gives_intern _).imp fun _ hi => ⟨_, hi, rfl⟩
  | cls text | string text | methodType text =>
    exact (gives_utf8 text).bind Pool.Extends.utf8 fun u =>
      (gives_intern _).imp fun _ hi hu => ⟨_, hi, u, rfl, hu⟩
  | nameAndType name descriptor =>
    exact (gives_utf8 name).bind Pool.Extends.utf8 fun u =>
      (gives_utf8 descriptor).bind Pool.Extends.utf8 fun v =>
        (gives_intern _).imp fun _ hi hv hu => ⟨_, hi, u, v, rfl, hu, hv⟩
  | fieldRef | methodRef =>
    exact gives_member.imp fun _ ⟨owner, nt, hi, hm⟩ => ⟨_, hi, owner, nt, rfl, hm⟩
  | invokeDynamic bootstrap name descriptor =>
    exact (gives_invokeDynamic bootstrap name descriptor).imp fun _ ⟨nt, hi, hnt⟩ =>
      ⟨_, hi, nt, rfl, hnt⟩

theorem asks_utf8 (text : String) : Asks (Interning.utf8 text) (utf8 text).Needs :=
  (asks_intern _).imp fun _ _ hc => Means.needs hc

theorem asks_cls (name : String) : Asks (Interning.cls name) (cls name).Needs :=
  ((asks_utf8 name).imp fun _ _ => Needs.of_part (by simp [parts])).bind (gives_utf8 name)
    Pool.Extends.utf8 fun u => (asks_intern _).imp fun _ _ hc hu => Means.needs ⟨u, hc, hu⟩

theorem asks_nameAndType (name descriptor : String) :
    Asks (Interning.nameAndType name descriptor) (nameAndType name descriptor).Needs :=
  ((asks_utf8 name).imp fun _ _ => Needs.of_part (by simp [parts])).bind (gives_utf8 name)
    Pool.Extends.utf8 fun u =>
      ((asks_utf8 descriptor).imp fun _ _ h _ => Needs.of_part (by simp [parts]) h).bind
        (gives_utf8 descriptor) Pool.Extends.utf8 fun v =>
          (asks_intern _).imp fun _ _ hc hv hu => Means.needs ⟨u, v, hc, hu, hv⟩

/-- Fields and methods are asked for by their class and by their name and type. -/
theorem asks_member {m : MemberRef} {f : PoolIndex → PoolIndex → Constant}
    (hcls : (cls m.owner) :: (cls m.owner).parts ⊆ r :: r.parts)
    (hnt : (nameAndType m.name m.descriptor) :: (nameAndType m.name m.descriptor).parts ⊆
      r :: r.parts)
    (hmeans : ∀ {q owner nt}, q.member owner nt = .ok m → r.Means q (f owner nt)) :
    Asks (do
      let owner ← Interning.cls m.owner
      let nt ← Interning.nameAndType m.name m.descriptor
      intern (f owner nt)) r.Needs := by
  refine ((asks_cls m.owner).imp fun _ _ => Needs.of_part hcls).bind (gives_cls m.owner)
    Pool.Extends.className fun owner => ?_
  refine Asks.bind ((asks_nameAndType _ _).imp fun _ _ h _ => Needs.of_part hnt h)
    (gives_nameAndType _ _) Pool.Extends.nameAndType fun nt => ?_
  refine (asks_intern _).imp fun q c hc hnt howner => ?_
  rw [hc]
  exact (hmeans (bind_eq_ok.mpr ⟨_, howner, bind_eq_ok.mpr ⟨_, hnt, rfl⟩⟩)).needs

theorem asks_ask (r : ConstantRequest) : Asks r.ask r.Needs := by
  cases r with
  | utf8 | integer | float | long | double | methodHandle =>
    exact (asks_intern _).imp fun _ _ hc => Means.needs hc
  | cls name => exact asks_cls name
  | string text | methodType text =>
    exact ((asks_utf8 text).imp fun _ _ => Needs.of_part (by simp [parts])).bind (gives_utf8 text)
      Pool.Extends.utf8 fun u => (asks_intern _).imp fun _ _ hc hu => Means.needs ⟨u, hc, hu⟩
  | nameAndType name descriptor => exact asks_nameAndType name descriptor
  | fieldRef m | methodRef m =>
    exact asks_member (by simp [parts]) (by simp [parts]) fun hm => ⟨_, _, rfl, hm⟩
  | invokeDynamic bootstrap name descriptor =>
    exact ((asks_nameAndType name descriptor).imp fun _ _ => Needs.of_part (by simp [parts])).bind
      (gives_nameAndType name descriptor) Pool.Extends.nameAndType fun nt =>
        (asks_intern _).imp fun _ _ hc hnt => Means.needs ⟨nt, hc, hnt⟩

/-- How a pool answers a request. -/
structure Answered (r : ConstantRequest) (p : Pool) : Prop where
  /-- Every index goes on standing for its constant, even if the request fails. -/
  kept : ∀ {j c}, p.get j = .ok c → (r.ask.on p).2.get j = .ok c
  /-- The index stands for what was asked for. Asking again gives it again and changes nothing,
  then and later on. -/
  given : ∀ {i q}, r.ask.on p = (.ok i, q) →
    (∃ c, q.get i = .ok c ∧ r.Means q c) ∧ r.Found q i ∧
      ∀ later, q.Extends later → r.ask.on later = (.ok i, later)
  /-- A constant that is needed is not there, and there is no place for it. -/
  refused : ∀ {e q}, r.ask.on p = (.error e, q) →
    ∃ c, r.Needs q c ∧ e = .poolOverflow c q.count ∧ Lacks q c

theorem answered (r : ConstantRequest) (hp : p.Reachable) : r.Answered p where
  kept := (grows_ask r p).get
  given {i q} hrun := by
    obtain ⟨c, hi, hmeans⟩ := (gives_ask r p i q hp hrun).2
    refine ⟨⟨c, hi, hmeans⟩, hmeans.found hi, ?_⟩
    rcases asks_ask r p hp with ⟨a, s, hrun', -, hagain⟩ | ⟨c, s, hrun', -, -, -⟩
    · obtain ⟨ha, rfl⟩ := Prod.mk.inj (hrun.symm.trans hrun')
      obtain rfl := Except.ok.inj ha
      exact hagain
    · cases hrun.symm.trans hrun'
  refused {e q} hrun := by
    rcases asks_ask r p hp with ⟨a, s, hrun', -, -⟩ | ⟨c, s, hrun', -, hneeds, hlacks⟩
    · cases hrun.symm.trans hrun'
    · obtain ⟨he, rfl⟩ := Prod.mk.inj (hrun.symm.trans hrun')
      exact ⟨c, hneeds, Except.error.inj he, hlacks⟩

end ConstantRequest

namespace Pool

variable {p : Pool}

/-- A pool that comes about by asking for constants only. -/
inductive Requested : Pool → Prop
  | empty : Requested .empty
  | asked {p : Pool} (hp : Requested p) (r : ConstantRequest) : Requested (r.ask.on p).2

theorem Requested.built (hp : p.Requested) : p.Built := by
  induction hp with
  | empty => exact .empty
  | asked _ r ih => exact ih.asked r

theorem Requested.distinct (hp : p.Requested) : p.Distinct := by
  induction hp with
  | empty => exact fun _ _ _ h => absurd h get_empty
  | @asked p hp r ih =>
    have hreach := hp.built.reachable
    rcases r.asks_ask p hreach with ⟨_, q, hrun, hfills, -⟩ | ⟨_, q, hrun, hfills, -, -⟩
    · rw [hrun]
      exact hfills.distinct hreach ih
    · rw [hrun]
      exact hfills.distinct hreach ih

/-- **Asking for constants is stable.** However a pool came about, its count is that of the places
its constants take and stays within bounds, and every request is answered for good or for the one
reason that a constant has no place. Requests alone never put a constant into a pool twice. -/
theorem asking_stable (hp : p.Built) :
    p.count = 1 + (p.constants.values.map Constant.slots).sum ∧ p.count ≤ 65535 ∧
      (∀ r : ConstantRequest, r.Answered p) ∧ (p.Requested → p.Distinct) :=
  ⟨hp.reachable.count_eq, hp.reachable.sound.room, fun r => r.answered hp.reachable,
    Requested.distinct⟩

/-- A pool that was asked for one wide number. -/
def longPool : Pool := ((ConstantRequest.long 7).ask.on .empty).2

theorem on_long_empty : (ConstantRequest.long 7).ask.on .empty = (.ok 1, longPool) := by
  have hindex : empty.index[Constant.long 7]? = none := by simp [empty]
  have hrun : (ConstantRequest.long 7).ask.on .empty = (.ok 1, (empty.add (.long 7)).2) :=
    Interning.on_intern hindex (by decide)
  rw [longPool, hrun]

theorem asking_stable_long :
    Built .empty ∧ longPool.Requested ∧ longPool.loadable 1 = .ok (.long 7) ∧
      (ConstantRequest.long 7).ask.on longPool = (.ok 1, longPool) ∧ longPool.Distinct := by
  have hlong : longPool.Requested := Requested.empty.asked _
  obtain ⟨-, -, hanswered, -⟩ := asking_stable .empty
  obtain ⟨-, hfound, hagain⟩ := (hanswered (.long 7)).given on_long_empty
  obtain ⟨-, -, -, hdistinct⟩ := asking_stable hlong.built
  exact ⟨.empty, hlong, hfound, hagain longPool .refl, hdistinct hlong⟩

end Pool
end ClassWeave
