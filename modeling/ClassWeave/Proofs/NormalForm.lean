import ClassWeave.Proofs.RepeatedCode

/-!
# What is written is a normal form

A class that was written is read back and written once more. Its members ask for the constants that
are there, its code is stored as before, and the bootstrap methods have not changed. So the class
file is the same, byte for byte, although the lists of instructions got other labels and lost what is
never reached.
-/

namespace ClassWeave

open Code Linking WriteContext

/-! ## Parts that stay -/

/-- The code passes its checks. What is left of it is encoded without detours, with constants that
are there in the end, and has an instruction behind every line. -/
structure MethodBody.Steady (ctx : WriteContext) (p : Pool) (later : Links) (b : MethodBody)
    (a : Analysis) : Prop where
  checked : analyze ctx.method b.list p ctx.hierarchy .strict = .ok a
  narrow : ∀ e t, (Code.encode (a.live b.list) b.list.labelCount).run.run later = (.ok e, t) →
    e.wideFallthroughs = []
  lines : ¬ TrailingLine (a.live b.list)

theorem MethodBody.Steady.extends {ctx : WriteContext} {p q : Pool} {later : Links} {b : MethodBody}
    {a : Analysis} (hpq : p.Extends q) (hb : b.Steady ctx p later a) : b.Steady ctx q later a :=
  { hb with checked := analyze_extends hpq hb.checked }

namespace ClassModel

/-- All flags of the class and its members have a meaning, and all code stays as it is. -/
structure Steady (c : ClassModel) (h : Hierarchy) : Prop where
  access : Access.ofClass c.access = c.access
  fields : ∀ f ∈ c.fields, Access.ofField f.access = f.access
  methods : ∀ m ∈ c.methods, Access.ofMethod m.access = m.access
  bodies : ∀ m ∈ c.methods, ∀ body, m.body = some body →
    ∃ a, body.Steady (c.writeContext h m) c.links.pool (c.linksAfter h) a

variable {c : ClassModel} {h : Hierarchy} {s : Links}

/-! ## Members -/

theorem FieldSteps.again {f : FieldModel} {info : MemberInfo} (hf : FieldSteps s f info) :
    (writeField f).run.run s = (.ok info, s) := by
  refine Growing.run_bind.mpr ⟨_, s, hf.name.run, ?_⟩
  refine Growing.run_bind.mpr ⟨_, s, hf.descriptor.run, Growing.run_pure.mpr ⟨?_, rfl⟩⟩
  rw [← hf.access, ← hf.attributes]

/-- The code of a method is written as some attributes, and nothing has to be added for that. -/
def WrittenAgain (ctx : WriteContext) (s : Links) (as : List Attribute) : Option MethodBody → Prop
  | none => as = []
  | some body => ∃ stored code, as = [stored] ∧ (ctx.code body).run.run s = (.ok code, s) ∧
    (namedAttribute CodeAttribute.name (.ok code.encode)).run.run s = (.ok stored, s)

/-- What steady code is cut down to is encoded without detours and does not end in a line. -/
theorem steady_of_steps {ctx : WriteContext} {body : MethodBody} {code : CodeAttribute}
    {l : InstrList} {a a' : Analysis} {e : Encoded} {entries : List (Option HandlerEntry × Label)}
    (hs : s.pool.Reachable) (hsteps : Steps ctx body s code l a' e entries)
    (hsteady : body.Steady ctx s.pool s a) :
    e.wideFallthroughs = [] ∧ ¬ TrailingLine l.nodes.toList := by
  obtain ⟨a₀, hpruned⟩ := hsteps.prune.gives hs (gives_prune body.list)
  obtain rfl : a₀ = a :=
    Except.ok.inj (hpruned.analysis.symm.trans (analyze_lenient hsteady.checked))
  have hencode := hsteps.encode.run
  rw [hpruned.nodes, hpruned.labelCount_eq] at hencode
  rw [hpruned.nodes]
  exact ⟨hsteady.narrow e s hencode, hsteady.lines⟩

/-- The attributes of a method are told apart again, and its code is written as before. -/
theorem BodySteps.again {ctx : WriteContext} {as rest : List Attribute} {body : Option MethodBody}
    (hs : s.pool.Reachable) (hb : BodySteps ctx s as body) (hh : ctx.hierarchy.Sound)
    (hbody : ∀ b, body = some b → b.Plain s.pool ∧ b.Fits ∧ ∃ a, b.Steady ctx s.pool s a)
    (hraw : ∀ a ∈ rest, ∃ name, a.Named s.pool name ∧ name ≠ CodeAttribute.name)
    (hall : Attribute.AllFit (as ++ rest)) :
    ∃ body', MethodModel.sortAttributesOnto s none [] (as ++ rest) = .ok (body', rest) ∧
      WrittenAgain ctx s as body' := by
  cases body with
  | none =>
    obtain rfl : as = [] := hb
    exact ⟨none, MethodModel.sortAttributesOnto_raw hraw, rfl⟩
  | some body =>
    obtain ⟨hplain, hfits, a, hsteady⟩ := hbody body rfl
    obtain ⟨stored, code, rfl, hstored, l, a', e, entries, hsteps⟩ := hb
    obtain ⟨hnarrow, hlines⟩ := steady_of_steps hs hsteps hsteady
    obtain ⟨body', hread, hwrite⟩ :=
      hsteps.again hs hplain hfits hh hsteady.checked hnarrow hlines
    obtain ⟨_, _, _, hw, -⟩ := hsteps.exists_wrote hs
    obtain ⟨hnamed, hinfo⟩ := hstored.gives hs (gives_namedAttribute _ _)
    have hinfo : stored.info = code.encode := (Except.ok.inj hinfo).symm
    have hcode := hw.fits_of_stored hplain.documented hfits hinfo
      (List.mem_append_left rest List.mem_cons_self) hall
    exact ⟨some body', MethodModel.sortAttributesOnto_code hnamed hinfo hcode hread hraw, stored,
      code, rfl, hwrite, hstored.run⟩

/-- If the parts of a method are there, writing it adds nothing. -/
theorem run_writeMethod {m : MethodModel} {info : MemberInfo} {as : List Attribute}
    (haccess : info.access = m.access)
    (hname : (ofInterning (.utf8 m.name)).run.run s = (.ok info.name, s))
    (hdescriptor : (ofInterning (.utf8 m.descriptor)).run.run s = (.ok info.descriptor, s))
    (hattributes : info.attributes = as ++ m.attributes)
    (hbody : WrittenAgain (c.writeContext h m) s as m.body) :
    (c.writeMethod h m).run.run s = (.ok info, s) := by
  obtain ⟨access, name, descriptor, attributes⟩ := info
  obtain rfl : access = m.access := haccess
  obtain rfl : attributes = as ++ m.attributes := hattributes
  refine Growing.run_bind.mpr ⟨name, s, hname, ?_⟩
  refine Growing.run_bind.mpr ⟨descriptor, s, hdescriptor, ?_⟩
  cases hsome : m.body with
  | none =>
    rw [hsome] at hbody
    obtain rfl : as = [] := hbody
    rfl
  | some body =>
    rw [hsome] at hbody
    obtain ⟨stored, code, rfl, hcode, hstored⟩ := hbody
    exact Growing.run_bind.mpr ⟨code, s, hcode, Growing.run_bind.mpr ⟨stored, s, hstored, rfl⟩⟩

/-- **A method that was written and read is written in the same way**, in any class with the same
name and version. -/
theorem MethodSteps.again {m : MethodModel} {info : MemberInfo} (hs : s.pool.Reachable)
    (hm : c.MethodSteps h s m info) (hh : h.Sound)
    (hplain : m.Plain s.pool) (haccess : Access.ofMethod m.access = m.access)
    (hbody : ∀ body, m.body = some body → body.Fits ∧
      ∃ a, body.Steady (c.writeContext h m) s.pool s a)
    (hfits : Attribute.AllFit info.attributes) :
    ∃ m', MethodModel.ofInfo s (info.masked Access.ofMethod) = .ok m' ∧
      ∀ c' : ClassModel, c'.name = c.name → c'.version = c.version →
        (c'.writeMethod h m').run.run s = (.ok info, s) := by
  obtain ⟨as, hattributes, hsteps⟩ := hm.attributes
  rw [hattributes] at hfits
  obtain ⟨body', hsort, hagain⟩ := hsteps.again hs hh
    (fun b hb => ⟨hplain.body b hb, hbody b hb⟩) hplain.attributes hfits
  rw [← hattributes] at hsort
  have hname := hm.name.gives hs (gives_ofInterning (Interning.gives_utf8 _))
  have hdescriptor := hm.descriptor.gives hs (gives_ofInterning (Interning.gives_utf8 _))
  refine ⟨_, MethodModel.ofInfo_eq hname hdescriptor hsort, fun c' hname hversion => ?_⟩
  rw [hm.access, haccess]
  refine run_writeMethod hm.access hm.name.run hm.descriptor.run hattributes ?_
  rw [writeContext, context, hname, hversion]
  exact hagain

/-! ## Classes -/

theorem run_mapM_of_forall₂ {α β : Type} {f : α → Linking β} {as : List α} {bs : List β}
    (h : List.Forall₂ (fun a b => (f a).run.run s = (.ok b, s)) as bs) :
    (as.mapM f).run.run s = (.ok bs, s) := by
  induction h with
  | nil => rfl
  | @cons a b as bs hab _ ih =>
    rw [List.mapM_cons]
    exact Growing.run_bind.mpr ⟨b, s, hab, Growing.run_bind.mpr ⟨bs, s, ih, rfl⟩⟩

/-- If its methods are written in the same way, so is the class. -/
theorem ClassSteps.run_write {file : ClassFile} (hc : c.ClassSteps h s file)
    {ms : List MethodModel} (hms : List.Forall₂ (fun m info =>
      ((ClassModel.writeMethod h { c with methods := ms, links := s } m).run.run s = (.ok info, s)))
        ms file.methods) :
    (ClassModel.write h { c with methods := ms, links := s }).run.run s = (.ok file, s) := by
  obtain ⟨table, hattributes, htable⟩ := hc.attributes
  refine Growing.run_bind.mpr ⟨_, s, hc.this.run, ?_⟩
  refine Growing.run_bind.mpr ⟨_, s, hc.super.run, ?_⟩
  refine Growing.run_bind.mpr ⟨_, s, hc.interfaces.run, ?_⟩
  refine Growing.run_bind.mpr ⟨_, s, run_mapM_of_forall₂ (hc.fields.imp fun _ _ hf => hf.again), ?_⟩
  refine Growing.run_bind.mpr ⟨_, s, run_mapM_of_forall₂ hms, ?_⟩
  refine Growing.run_bind.mpr ⟨table, s, htable, Growing.run_pure.mpr ⟨?_, rfl⟩⟩
  rw [← hattributes, ← hc.version, ← hc.access, ← hc.pool]

/-- What was written is read as a class that is written in the same way. -/
theorem ClassSteps.again {file : ClassFile} (hs : s.pool.Reachable) (hc : c.ClassSteps h s file)
    (hw : c.Written h s file) (hh : h.Sound)
    (hattributes : ∀ a ∈ c.attributes, ∃ name, a.Named s.pool name ∧
      name ≠ BootstrapMethod.tableName) (hplain : ∀ m ∈ c.methods, m.Plain s.pool)
    (hbodies : ∀ m ∈ c.methods, ∀ body, m.body = some body → body.Fits ∧
      ∃ a, body.Steady (c.writeContext h m) s.pool s a) (hsteady : c.Steady h)
    (htable : BootstrapMethod.AllFit s.bootstraps.toList)
    (hfits : ClassFile.Fits { file with pool := s.pool }) :
    ∃ c', ofClassFile (ClassFile.masked { file with pool := s.pool }) = .ok c' ∧ c'.links = s ∧
      (c'.write h).run.run s = (.ok file, s) := by
  have hmethods : ∀ info ∈ file.methods, ∃ m',
      MethodModel.ofInfo s (info.masked Access.ofMethod) = .ok m' ∧ ∀ c' : ClassModel,
        c'.name = c.name → c'.version = c.version →
          (c'.writeMethod h m').run.run s = (.ok info, s) := by
    intro info hinfo
    obtain ⟨m, hm, hsteps⟩ := exists_of_forall₂ hc.methods.flip hinfo
    exact hsteps.again hs hh (hplain m hm) (hsteady.methods m hm) (hbodies m hm)
      (hfits.methodAttributes info hinfo)
  obtain ⟨ms, hms⟩ := exists_forall₂ hmethods
  have hread : (file.methods.map (MemberInfo.masked Access.ofMethod)).mapM (MethodModel.ofInfo s) =
      .ok ms := by
    rw [mapM_eq_ok, List.forall₂_map_left_iff]
    exact hms.imp fun _ _ hm => hm.1
  have hfields : (c.fields.map fun f => { f with access := Access.ofField f.access }) = c.fields := by
    refine (List.map_congr_left fun f hf => ?_).trans (List.map_id _)
    rw [hsteady.fields f hf]
    rfl
  refine ⟨_, hw.ofClassFile_eq hattributes htable hread, rfl, ?_⟩
  rw [hfields, hw.access, hsteady.access, hw.version]
  exact hc.run_write (hms.flip.imp fun _ _ hm => hm.2 _ rfl rfl)

/-- **What is written is a normal form.** Whatever class is written: if its code comes in the forms
that it is decoded to and passes its checks, no conditional jump becomes a detour, an instruction is
left behind every line, its raw attributes are not those that depend on the layout, and everything
that is written fits into the fields in front of it, then the bytes can be read, and the class that
is read adds no constant and is written as the same bytes. -/
theorem toBytes_parse_toBytes {bytes : List UInt8} (hpool : c.links.pool.Reachable) (hh : h.Sound)
    (hplain : c.Plain) (hsteady : c.Steady h) (hfits : c.Fits h)
    (hbytes : c.toBytes h = .ok bytes) :
    ∃ c', parse bytes = .ok c' ∧ c'.toBytes h = .ok bytes ∧ c'.linksAfter h = c'.links := by
  obtain ⟨file, hfile, hencode⟩ := bind_eq_ok.mp hbytes
  obtain rfl := pure_eq_ok.mp hencode
  have hfile_fits := hfits.file file hfile
  obtain ⟨raw, s, hrun, rfl⟩ := toClassFile_eq_ok hfile
  obtain ⟨hextends, hwritten⟩ := gives_write c.links raw s hpool hrun
  obtain ⟨-, hsteps⟩ := steps_write c.links raw s hpool hrun
  have hlinks : c.linksAfter h = s := congrArg Prod.snd hrun
  have htable := hfits.bootstraps
  have hbodies := hsteady.bodies
  rw [hlinks] at htable hbodies
  have hreach : s.pool.Reachable := hpool.extends hextends.pool
  have hattributes : ∀ a ∈ c.attributes, ∃ name, a.Named s.pool name ∧
      name ≠ BootstrapMethod.tableName := by
    intro a ha
    obtain ⟨name, hname, hne⟩ := hplain.attributes a ha
    exact ⟨name, hname.extends hextends.pool, hne⟩
  obtain ⟨c', hread, hsame, hwrite⟩ := hsteps.again hreach hwritten hh hattributes
    (fun m hm => (hplain.methods m hm).extends hextends.pool)
    (fun m hm body hbody => ⟨hfits.bodies m hm body hbody, (hbodies m hm body hbody).imp
      fun _ ha => ha.extends hextends.pool⟩) hsteady htable hfile_fits
  rw [← hsame] at hwrite
  have hon : (c'.write h).on c'.links = (.ok raw, c'.links) := hwrite
  refine ⟨c', bind_eq_ok.mpr ⟨_, ClassFile.parse_encode _ hreach hfile_fits, hread⟩,
    bind_eq_ok.mpr ⟨_, ?_, rfl⟩, congrArg Prod.snd hon⟩
  rw [toClassFile, hon, hsame]

/-! ### Code with an early return -/

/-- Code that returns at once, with more code behind it. -/
def returnsAtOnce : InstrList :=
  ⟨#[.line 3, .instr (.plain 177), .instr (.plain 3), .instr (.plain 87)], #[], []⟩

/-- What is left of it. -/
def returnLeft : InstrList := ⟨#[.line 3, .instr (.plain 177)], #[], []⟩

/-- The frames of the code. -/
def returnFrames : Analysis := ⟨#[some ⟨[], []⟩, some ⟨[], []⟩, none, none], 0, 0⟩

theorem analyze_returnsAtOnce (p : Pool) :
    analyze ((voidClass returnsAtOnce).context (voidMethod returnsAtOnce)) returnsAtOnce p .unknown
      .strict = .ok returnFrames := by
  have hrun : Work.run ⟨⟨(voidClass returnsAtOnce).context (voidMethod returnsAtOnce),
      returnsAtOnce.nodes, p, .unknown, .strict, none⟩, #[], []⟩ (.start 4 ⟨[], []⟩) =
        some (.ok ⟨returnFrames.frames, #[false, false, false, false], [], 0, 0⟩) :=
    (Work.run_of_visit rfl rfl).trans
      ((Work.run_of_visit rfl rfl).trans (Work.run_of_pending_nil rfl))
  exact Analysis.analyze_of_run (t := ⟨[], none⟩) (by decide +kernel) rfl rfl
    (by decide +kernel) rfl hrun

theorem run_encode_returnLeft (s : Links) :
    (Code.encode returnLeft.nodes.toList returnLeft.labelCount).run.run s =
      (.ok ⟨[177], #[0, 0], #[], [⟨0, 3⟩], []⟩, s) :=
  encodeWithin_eq_ok rfl rfl (by decide +kernel) (by decide +kernel)

theorem analyze_returnLeft (p : Pool) :
    analyze ((voidClass returnsAtOnce).context (voidMethod returnsAtOnce)) returnLeft p .unknown
      .lenient = .ok ⟨#[some ⟨[], []⟩, some ⟨[], []⟩], 0, 0⟩ := by
  have hrun : Work.run ⟨⟨(voidClass returnsAtOnce).context (voidMethod returnsAtOnce),
      returnLeft.nodes, p, .unknown, .lenient, none⟩, #[], []⟩ (.start 2 ⟨[], []⟩) =
        some (.ok ⟨#[some ⟨[], []⟩, some ⟨[], []⟩], #[false, false], [], 0, 0⟩) :=
    (Work.run_of_visit rfl rfl).trans
      ((Work.run_of_visit rfl rfl).trans (Work.run_of_pending_nil rfl))
  exact Analysis.analyze_of_run (t := ⟨[], none⟩) (by decide +kernel) rfl rfl
    (by decide +kernel) rfl hrun

theorem run_prune_returnsAtOnce (s : Links) :
    (((voidClass returnsAtOnce).writeContext .unknown (voidMethod returnsAtOnce)).prune
      returnsAtOnce).run.run s = (.ok (returnLeft, ⟨#[some ⟨[], []⟩, some ⟨[], []⟩], 0, 0⟩), s) := by
  have hfirst := analyze_lenient (analyze_returnsAtOnce s.pool)
  refine Growing.run_bind.mpr ⟨_, s, congrArg (·, s) hfirst, ?_⟩
  exact Growing.run_bind.mpr ⟨_, s, congrArg (·, s) (analyze_returnLeft s.pool), rfl⟩

theorem toClassFile_returnsAtOnce : ∃ file,
    (voidClass returnsAtOnce).toClassFile .unknown = .ok file ∧ file.Fits ∧
      ((voidClass returnsAtOnce).linksAfter .unknown).Fits :=
  toClassFile_voidClass run_prune_returnsAtOnce run_encode_returnLeft rfl rfl (Nat.zero_le _)
    (Nat.zero_le _) (by decide)

theorem steady_returnsAtOnce : (voidClass returnsAtOnce).Steady .unknown where
  access := by decide
  fields _ hf := absurd hf List.not_mem_nil
  methods m hm := by
    rw [List.mem_singleton.mp hm]
    show Access.ofMethod 9 = 9
    decide
  bodies m hm body hbody := by
    rw [List.mem_singleton.mp hm] at hbody ⊢
    obtain rfl := Option.some.inj hbody
    refine ⟨returnFrames, analyze_returnsAtOnce _, fun e t hrun => ?_, ?_⟩
    · obtain ⟨he, -⟩ := Prod.mk.inj (hrun.symm.trans (run_encode_returnLeft _))
      rw [Except.ok.inj he]
    · -- the only line is in front of the return
      rintro ⟨before, n, after, hsplit, hreal⟩
      have hleft : [Node.line 3, .instr (.plain 177)] = before ++ .line n :: after := hsplit
      cases before with
      | nil =>
        obtain ⟨-, rfl⟩ := List.cons.inj hleft
        cases hreal
      | cons m before =>
        obtain ⟨-, hrest⟩ := List.cons.inj hleft
        rcases List.singleton_eq_append_iff.mp hrest with ⟨-, h⟩ | ⟨-, h⟩ <;> cases h

/-- The class that is left once the code behind the return is gone is written as the same bytes. -/
theorem toBytes_parse_returnsAtOnce : ∃ bytes c',
    (voidClass returnsAtOnce).toBytes .unknown = .ok bytes ∧ parse bytes = .ok c' ∧
      c'.toBytes .unknown = .ok bytes ∧ c'.linksAfter .unknown = c'.links := by
  have hdoc : ∀ p, Documented p returnsAtOnce.nodes.toList := fun p i hi =>
    documented_returnsEarly p i ((by decide : returnsAtOnce.nodes.toList ⊆ returnsEarly.nodes.toList) hi)
  obtain ⟨hfits, bytes, hbytes⟩ := toBytes_voidClass (l := returnsAtOnce) (by decide) (by decide)
    toClassFile_returnsAtOnce
  obtain ⟨c', hparse, hagain⟩ := toBytes_parse_toBytes (c := voidClass returnsAtOnce)
    (h := .unknown) .refl trivial (plain_voidClass hdoc)
    steady_returnsAtOnce hfits hbytes
  exact ⟨bytes, c', hbytes, hparse, hagain⟩

end ClassModel
end ClassWeave
