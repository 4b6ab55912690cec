import ClassWeave.Proofs.PoolRequests
import ClassWeave.Proofs.Writing

/-!
# Asking again for what was given

A constant that was asked for is found when it is asked for again, and so is an entry of the table
of bootstrap methods. So every part of writing a class is `Lasting`: in the state that it leaves
behind, and in every state that comes from this one, it gives the same again and adds nothing.
-/

namespace ClassWeave

/-- The computation gives a result in this state and in every later one, and adds nothing there. -/
def Lasts {σ α : Type} [Growth σ] (x : Growing σ α) (s : σ) (a : α) : Prop :=
  ∀ t, Growth.Extends s t → x.run.run t = (.ok a, t)

/-- What the computation gives it gives again, then and later on. -/
def Lasting {σ α : Type} [Growth σ] (x : Growing σ α) : Prop := Gives x (Lasts x)

section lasts

variable {σ α : Type} [Growth σ] {x : Growing σ α} {s t : σ} {a : α}

theorem Lasts.extends (h : Growth.Extends s t) (hx : Lasts x s a) : Lasts x t a :=
  fun u hu => hx u (Growth.trans h hu)

theorem Lasts.run (hx : Lasts x s a) : x.run.run s = (.ok a, s) := hx s (Growth.refl s)

/-- What is known about the results of a computation is known about one that lasts. -/
theorem Lasts.gives {P : σ → α → Prop} (hx : Lasts x s a) (hs : Growth.Reached s)
    (hgives : Gives x P) : P s a :=
  (hgives s a s hs hx.run).2

end lasts

namespace Lasting

variable {σ α β : Type} [Growth σ]

theorem pure (a : α) : Lasting (Pure.pure a : Growing σ α) :=
  Gives.pure fun _ _ _ _ => rfl

theorem throw (e : ClassError) : Lasting (MonadExcept.throw e : Growing σ α) :=
  Gives.throw

theorem bind {x : Growing σ α} {f : α → Growing σ β} (hx : Lasting x) (hf : ∀ a, Lasting (f a)) :
    Lasting (x >>= f) := by
  refine Gives.bind hx Lasts.extends fun a => ?_
  exact (hf a).imp fun _ hb ha u hu => Growing.run_bind.mpr ⟨a, u, ha u hu, hb u hu⟩

theorem mapM {f : α → Growing σ β} (hf : ∀ a, Lasting (f a)) (l : List α) :
    Lasting (l.mapM f) := by
  induction l with
  | nil =>
    rw [List.mapM_nil]
    exact .pure []
  | cons a l ih =>
    rw [List.mapM_cons]
    exact (hf a).bind fun b => ih.bind fun bs => .pure (b :: bs)

theorem foldlM {f : β → α → Growing σ β} (hf : ∀ b a, Lasting (f b a)) (b : β) (l : List α) :
    Lasting (l.foldlM f b) := by
  induction l generalizing b with
  | nil =>
    rw [List.foldlM_nil]
    exact .pure b
  | cons a l ih =>
    rw [List.foldlM_cons]
    exact (hf b a).bind ih

end Lasting

/-! ## Constants -/

namespace Interning

variable {α : Type}

/-- What was asked for is found again. -/
theorem Asks.lasting {x : Interning α} {needs : Pool → Constant → Prop} (hx : Asks x needs) :
    Lasting x := by
  intro p a q hp hrun
  rcases hx p hp with ⟨b, r, hrun', hfills, hagain⟩ | ⟨_, _, hrun', -⟩
  · obtain ⟨hb, rfl⟩ := Prod.mk.inj (hrun.symm.trans hrun')
    obtain rfl := Except.ok.inj hb
    exact ⟨hfills.extends, hagain⟩
  · cases hrun.symm.trans hrun'

/-- What can be read off a pool can be read off a pool that has grown. -/
theorem lasting_ofPool {f : Pool → ClassResult α}
    (hf : ∀ {p q a}, p.Extends q → f p = .ok a → f q = .ok a) : Lasting (ofPool f) :=
  (gives_ofPool f).imp fun _ ha _ hq => Prod.ext (hf hq ha) rfl

theorem lasting_utf8 (text : String) : Lasting (utf8 text) := (asks_intern _).lasting

theorem lasting_cls (name : String) : Lasting (cls name) := (ConstantRequest.asks_cls name).lasting

theorem lasting_handle (h : Handle) : Lasting (handle h) := by
  have hhandle : ∀ member, Lasting (methodHandle h.kind member) := fun _ => (asks_intern _).lasting
  unfold handle
  split
  · exact (ConstantRequest.fieldRef h.member).asks_ask.lasting.bind hhandle
  · exact (ConstantRequest.methodRef h.member h.isInterface).asks_ask.lasting.bind hhandle

theorem lasting_loadable (c : Loadable) : Lasting (loadable c) := by
  cases c with
  | int n => exact (ConstantRequest.integer n).asks_ask.lasting
  | float bits => exact (ConstantRequest.float bits).asks_ask.lasting
  | long n => exact (ConstantRequest.long n).asks_ask.lasting
  | double bits => exact (ConstantRequest.double bits).asks_ask.lasting
  | string text => exact (ConstantRequest.string text).asks_ask.lasting
  | cls name => exact lasting_cls name
  | methodType descriptor => exact (ConstantRequest.methodType descriptor).asks_ask.lasting
  | handle h => exact lasting_handle h
  | pooled i =>
    exact (lasting_ofPool fun h hg => h.get hg).bind fun _ => .pure i

theorem lasting_attribute (name : String) (info : Except FormatError (List UInt8)) :
    Lasting (Interning.attribute name info) :=
  (lasting_utf8 name).bind fun i => by
    cases info with
    | ok bytes => exact .pure _
    | error e => exact .throw _

end Interning

theorem Pool.Extends.isWide {p q : Pool} {c : Loadable} {wide : Bool} (h : p.Extends q)
    (hc : p.isWide c = .ok wide) : q.isWide c = .ok wide := by
  cases c with
  | pooled i =>
    obtain ⟨constant, hget, hc⟩ := bind_eq_ok.mp hc
    refine bind_eq_ok.mpr ⟨constant, h.get hget, ?_⟩
    cases constant with
    | dynamic _ nt =>
      obtain ⟨pair, hpair, hc⟩ := bind_eq_ok.mp hc
      exact bind_eq_ok.mpr ⟨pair, h.nameAndType hpair, hc⟩
    | _ => exact hc
  | _ => exact hc

/-! ## Call sites -/

namespace Linking

variable {α β : Type}

theorem lasting_ofInterning {x : Interning α} (hx : Lasting x) : Lasting (ofInterning x) := by
  intro s a t hs hrun
  obtain ⟨hresult, ht⟩ := Prod.mk.inj hrun
  obtain ⟨hext, hagain⟩ := hx s.pool a (x.on s.pool).2 hs (Prod.ext hresult rfl)
  obtain rfl : (⟨(x.on s.pool).2, s.bootstraps⟩ : Links) = t := ht
  refine ⟨⟨hext, List.prefix_refl _⟩, fun u hu => ?_⟩
  have hrun' : x.run.run u.pool = (.ok a, u.pool) := hagain u.pool hu.pool
  show ((x.run.run u.pool).1, (⟨(x.run.run u.pool).2, u.bootstraps⟩ : Links)) = _
  rw [hrun']

theorem lasting_ofResult (x : ClassResult α) : Lasting (ofResult x) :=
  (gives_ofResult x).imp fun _ hx _ _ => Prod.ext hx rfl

theorem lasting_optionalClass (name : Option String) : Lasting (optionalClass name) := by
  cases name with
  | none => exact .pure 0
  | some name => exact lasting_ofInterning (Interning.lasting_cls name)

/-- An entry is found at its first place. -/
theorem findIdx?_of_extends {s t : Links} {entry : BootstrapMethod} {i : Nat} (h : s.Extends t)
    (hi : s.bootstraps.findIdx? (· == entry) = some i) :
    t.bootstraps.findIdx? (· == entry) = some i := by
  obtain ⟨rest, hrest⟩ := h.bootstraps
  have htable : t.bootstraps = s.bootstraps ++ rest.toArray :=
    Array.toList_inj.mp (by rw [Array.toList_append, hrest])
  rw [htable, Array.findIdx?_append, hi, Option.some_or]

theorem lasting_bootstrapPosition (entry : BootstrapMethod) :
    Lasting (bootstrapPosition entry) := by
  intro s i t hs hrun
  refine ⟨(gives_bootstrapPosition entry s i t hs hrun).1, fun u hu => ?_⟩
  have hknown : u.bootstraps.findIdx? (· == entry) = some i := by
    refine findIdx?_of_extends hu ?_
    simp only [bootstrapPosition, ExceptT.run, ExceptT.mk, StateT.run] at hrun
    cases hfind : s.bootstraps.findIdx? (· == entry) with
    | some j =>
      rw [hfind] at hrun
      obtain ⟨hi, rfl⟩ := Prod.mk.inj hrun
      obtain rfl := Except.ok.inj hi
      exact hfind
    | none =>
      rw [hfind] at hrun
      obtain ⟨hi, rfl⟩ := Prod.mk.inj hrun
      obtain rfl := Except.ok.inj hi
      rw [Array.findIdx?_push, hfind, Option.none_or, if_pos BEq.rfl]
  simp only [bootstrapPosition, ExceptT.run, ExceptT.mk, StateT.run]
  rw [hknown]

theorem lasting_callSite (site : CallSite) : Lasting (callSite site) := by
  refine (lasting_ofInterning (Interning.lasting_handle site.bootstrap)).bind fun handle => ?_
  refine (lasting_ofInterning (Lasting.mapM Interning.lasting_loadable site.arguments)).bind
    fun arguments => ?_
  refine (lasting_bootstrapPosition _).bind fun position => ?_
  split
  · exact lasting_ofInterning (ConstantRequest.invokeDynamic _ _ _).asks_ask.lasting
  · exact .throw _

end Linking

/-! ## Code -/

namespace Code

open Linking

theorem Piece.lasting_ofInstr (i : Instr Label) : Lasting (Piece.ofInstr i) := by
  have hcls : ∀ (name : String) (f : PoolIndex → Piece),
      Lasting (ofInterning (.cls name) >>= fun j => pure (f j)) := fun name f =>
    (lasting_ofInterning (Interning.lasting_cls name)).bind fun j => .pure (f j)
  cases i with
  | plain | var | increment | jump | lookupSwitch => exact .pure _
  | int op n => exact lasting_ofResult _
  | type op name => exact hcls name _
  | newMultiArray name n => exact hcls name _
  | field op m =>
    exact (lasting_ofInterning (ConstantRequest.fieldRef m).asks_ask.lasting).bind
      fun j => .pure _
  | method op m isInterface =>
    exact (lasting_ofInterning (ConstantRequest.methodRef m isInterface).asks_ask.lasting).bind
      fun j => (lasting_ofResult _).bind fun tail => .pure _
  | load c =>
    exact (lasting_ofInterning (Interning.lasting_loadable c)).bind fun j =>
      (lasting_ofInterning (Interning.lasting_ofPool fun h hc => h.isWide hc)).bind
        fun wide => .pure _
  | tableSwitch low high d ts =>
    rw [Piece.ofInstr]
    split
    · exact .pure _
    · exact .throw _
  | invokeDynamic site => exact (lasting_callSite site).bind fun j => .pure _

theorem Piece.lasting_ofNode (n : Node) : Lasting (Piece.ofNode n) := by
  cases n with
  | instr i => exact Piece.lasting_ofInstr i
  | label | line => exact .pure _

theorem lasting_encodeWithin (range : JumpRange) (nodes : List Node) (count : Nat) :
    Lasting (encodeWithin range nodes count) := by
  refine (Lasting.mapM Piece.lasting_ofNode nodes).bind fun pieces => ?_
  split
  · exact .throw _
  · split
    · exact lasting_ofResult _
    · exact .throw _

end Code

namespace WriteContext

open Linking

variable {ctx : WriteContext}

theorem lasting_analysis (l : InstrList) : Lasting (ctx.analysis l) :=
  (gives_analysis l).imp fun _ ha _ ht => Prod.ext (analyze_extends ht.pool ha) rfl

theorem lasting_prune (l : InstrList) : Lasting (ctx.prune l) := by
  refine (lasting_analysis l).bind fun a => ?_
  simp only
  split
  · exact (lasting_analysis _).bind fun a' => .pure _
  · exact .pure _

theorem lasting_handlerEntry (e : Code.Encoded) (b : TryBlock) : Lasting (handlerEntry e b) := by
  refine (lasting_ofResult _).bind fun start => (lasting_ofResult _).bind fun stop => ?_
  split
  · exact .pure none
  · exact (lasting_optionalClass _).bind fun i => (lasting_ofResult _).bind fun o => .pure _

theorem lasting_namedAttribute (name : String) (info : Except FormatError (List UInt8)) :
    Lasting (namedAttribute name info) :=
  lasting_ofInterning (Interning.lasting_attribute name info)

theorem lasting_lineTable (lines : List LineEntry) : Lasting (lineTable lines) := by
  unfold lineTable
  split
  · exact .pure []
  · exact (lasting_namedAttribute _ _).bind fun stored => .pure [stored]

theorem lasting_intern (offset? : Nat → Option Nat) (c : NamedFrame) :
    Lasting (c.intern offset?) := by
  have htype : ∀ t : NamedType, Lasting (CompactFrame.internType offset? t) := by
    intro t
    cases t with
    | object name => exact (Interning.lasting_cls name).bind fun i => .pure _
    | fresh site =>
      have hoffset : Lasting (Interning.ofPool fun _ =>
          (CompactFrame.freshOffset offset? site).map UInt16.ofNat) :=
        Interning.lasting_ofPool fun _ h => h
      exact hoffset.bind fun o => .pure (VType.fresh o)
    | _ => exact .pure _
  exact (Lasting.mapM htype c.locals).bind fun locals =>
    (Lasting.mapM htype c.stack).bind fun stack => .pure (CompactFrame.mk locals stack)

end WriteContext
end ClassWeave
