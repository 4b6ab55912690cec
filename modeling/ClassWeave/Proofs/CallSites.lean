import ClassWeave.Code.Decode
import ClassWeave.Constant.Link
import ClassWeave.Proofs.PoolInterning

/-!
# Call sites that were linked

Linking adds bootstrap methods behind those of a class, so an entry of that table keeps its place.
A call site that was linked is read back from the constant that was given for it.
-/

namespace ClassWeave

/-- Constants and bootstrap methods are only added behind those that are there. -/
structure Links.Extends (s t : Links) : Prop where
  pool : s.pool.Extends t.pool
  bootstraps : s.bootstraps.toList <+: t.bootstraps.toList

namespace Links

variable {s t u : Links}

theorem Extends.refl (s : Links) : s.Extends s := ⟨.refl, List.prefix_refl _⟩

theorem Extends.trans (hst : s.Extends t) (htu : t.Extends u) : s.Extends u :=
  ⟨hst.pool.trans htu.pool, hst.bootstraps.trans htu.bootstraps⟩

theorem Extends.bootstrap {entry : BootstrapMethod} {i : Nat} (h : s.Extends t)
    (hi : s.bootstraps[i]? = some entry) : t.bootstraps[i]? = some entry := by
  rw [← Array.getElem?_toList] at hi ⊢
  obtain ⟨rest, hrest⟩ := h.bootstraps
  obtain ⟨hlt, _⟩ := List.getElem?_eq_some_iff.mp hi
  rw [← hrest, List.getElem?_append_left hlt, hi]

end Links

/-- The bootstrap methods may be any; only the pool has to be a reachable one. -/
instance : Growth Links where
  Reached s := s.pool.Reachable
  Extends := Links.Extends
  refl := Links.Extends.refl
  trans := Links.Extends.trans
  reached hs h := hs.extends h.pool

/-- What code is decoded with. -/
def Links.context (s : Links) : Code.Context := ⟨s.pool, s.bootstraps⟩

/-- A call site that can be told from its constant. -/
structure CallSite.Plain (p : Pool) (site : CallSite) : Prop where
  bootstrap : site.bootstrap.Plain
  arguments : ∀ c ∈ site.arguments, c.Plain p

/-- The index was given for the call site. -/
def CallSite.At (s : Links) (i : PoolIndex) (site : CallSite) : Prop :=
  ∃ bootstrap nt handle arguments, s.pool.get i = .ok (.invokeDynamic bootstrap nt) ∧
    s.pool.nameAndType nt = .ok (site.name, site.descriptor) ∧
    s.bootstraps[bootstrap.toNat]? = some ⟨handle, arguments⟩ ∧
    (site.bootstrap.Plain → s.pool.handle handle = .ok site.bootstrap) ∧
    List.Forall₂ (fun c j => Loadable.At s.pool j c) site.arguments arguments

namespace CallSite

variable {s t : Links} {i : PoolIndex} {site : CallSite}

theorem At.extends (h : s.Extends t) (hsite : site.At s i) : site.At t i := by
  obtain ⟨bootstrap, nt, handle, arguments, hget, hnt, hentry, hhandle, harguments⟩ := hsite
  exact ⟨bootstrap, nt, handle, arguments, h.pool.get hget, h.pool.nameAndType hnt,
    h.bootstrap hentry, fun hplain => h.pool.handle (hhandle hplain),
    harguments.imp fun _ _ => Loadable.At.extends h.pool⟩

theorem At.callSite (hsite : site.At s i) (hplain : site.Plain s.pool) :
    Code.callSite s.context i = .ok site := by
  obtain ⟨bootstrap, nt, handle, arguments, hget, hnt, hentry, hhandle, harguments⟩ := hsite
  have hargs : arguments.mapM s.pool.loadable = .ok site.arguments := by
    refine mapM_eq_ok.mpr (List.Forall₂.flip ?_)
    rw [List.forall₂_iff_get] at harguments ⊢
    obtain ⟨hlen, hall⟩ := harguments
    exact ⟨hlen, fun j h1 h2 => (hall j h1 h2).loadable (hplain.arguments _ (List.get_mem _ _))⟩
  refine bind_eq_ok.mpr ⟨_, hget, bind_eq_ok.mpr ⟨_, hnt, ?_⟩⟩
  simp only [Links.context, hentry]
  exact bind_eq_ok.mpr ⟨_, hargs, bind_eq_ok.mpr ⟨_, hhandle hplain.bootstrap, rfl⟩⟩

end CallSite

namespace Linking

variable {α : Type}

theorem gives_ofInterning {x : Interning α} {P : Pool → α → Prop} (hx : Gives x P) :
    Gives (ofInterning x) fun s a => P s.pool a := by
  intro s a t hs hrun
  obtain ⟨hresult, ht⟩ := Prod.mk.inj hrun
  obtain ⟨hext, ha⟩ := hx s.pool a (x.on s.pool).2 hs (Prod.ext hresult rfl)
  obtain rfl : (⟨(x.on s.pool).2, s.bootstraps⟩ : Links) = t := ht
  exact ⟨⟨hext, List.prefix_refl _⟩, ha⟩

theorem gives_ofResult (x : ClassResult α) : Gives (ofResult x) fun _ a => x = .ok a := by
  intro s a t _ hrun
  obtain ⟨hx, rfl⟩ := Prod.mk.inj hrun
  exact ⟨Links.Extends.refl s, hx⟩

theorem gives_optionalClass (name : Option String) :
    Gives (optionalClass name) fun s i => s.pool.optionalClass i = .ok name := by
  cases name with
  | none => exact .pure fun _ _ => rfl
  | some name => exact gives_ofInterning (Interning.gives_optional_cls name)

theorem gives_bootstrapPosition (entry : BootstrapMethod) :
    Gives (bootstrapPosition entry) fun s i => s.bootstraps[i]? = some entry := by
  intro s i t _ hrun
  simp only [bootstrapPosition, ExceptT.run, ExceptT.mk, StateT.run] at hrun
  cases hfind : s.bootstraps.findIdx? (· == entry) with
  | some j =>
    rw [hfind] at hrun
    obtain ⟨hi, rfl⟩ := Prod.mk.inj hrun
    obtain rfl := Except.ok.inj hi
    obtain ⟨hlt, hentry, -⟩ := Array.findIdx?_eq_some_iff_getElem.mp hfind
    refine ⟨Links.Extends.refl _, ?_⟩
    show s.bootstraps[j]? = some entry
    rw [Array.getElem?_eq_getElem hlt, eq_of_beq hentry]
  | none =>
    rw [hfind] at hrun
    obtain ⟨hi, rfl⟩ := Prod.mk.inj hrun
    obtain rfl := Except.ok.inj hi
    refine ⟨⟨.refl, ?_⟩, ?_⟩
    · rw [Array.toList_push]
      exact List.prefix_append _ _
    · exact Array.getElem?_push_size

theorem gives_callSite (site : CallSite) : Gives (callSite site) fun s i => site.At s i := by
  refine (gives_ofInterning (Interning.gives_handle site.bootstrap)).bind
    (fun hst hh hplain => hst.pool.handle (hh hplain)) fun handle => ?_
  have harguments : Gives (site.arguments.mapM Interning.loadable) fun p is =>
      List.Forall₂ (fun c i => Loadable.At p i c) site.arguments is :=
    .mapM Loadable.At.extends fun c _ => Interning.gives_loadable c
  refine (gives_ofInterning harguments).bind
    (fun hst h => h.imp fun _ _ => Loadable.At.extends hst.pool) fun arguments => ?_
  refine (gives_bootstrapPosition _).bind Links.Extends.bootstrap fun position => ?_
  by_cases hposition : position ≤ 65535
  · rw [if_pos hposition]
    refine (gives_ofInterning (Interning.gives_invokeDynamic _ _ _)).imp ?_
    rintro s i - ⟨nt, hget, hnt⟩ hentry hargs hhandle
    refine ⟨_, nt, handle, arguments, hget, hnt, ?_, hhandle, hargs⟩
    rw [UInt16.toNat_ofNat', Nat.mod_eq_of_lt (by omega)]
    exact hentry
  · rw [if_neg hposition]
    exact .throw

end Linking
end ClassWeave
