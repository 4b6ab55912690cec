import ClassWeave.Proofs.FrameChecks

/-!
# What is written is accepted

A class that passed its checks is written, and verifying the bytes finds nothing wrong. Every
method is decoded and analysed anew: the analysis accepts the code, the declared room suffices,
every frame that is needed was stored, and every frame that was stored accepts what the code
brings. This holds for any hierarchy whose table is sound, also for code that was cut down and for
jumps that became wide.
-/

namespace ClassWeave

open Verify

theorem Verify.Others.extends {p q : Pool} {name : String} {as : List Attribute}
    (h : p.Extends q) (ho : Others p name as) : Others q name as := by
  intro a ha
  obtain ⟨other, hother, hne⟩ := ho a ha
  exact ⟨other, hother.extends h, hne⟩

/-! ## The code of a method -/

/-- The code comes in the forms that it is decoded to, passes its checks, and stores no frames of
its own. -/
structure MethodBody.Checked (m : MethodContext) (p : Pool) (h : Hierarchy) (b : MethodBody) :
    Prop where
  documented : Code.Documented p b.list.nodes.toList
  analysis : ∃ a, analyze m b.list p h .strict = .ok a
  attributes : Others p StackMapFrame.tableName b.attributes

theorem MethodBody.Checked.extends {m : MethodContext} {p q : Pool} {h : Hierarchy}
    {b : MethodBody} (hpq : p.Extends q) (hb : b.Checked m p h) : b.Checked m q h where
  documented i hi := (hb.documented i hi).extends hpq
  analysis := by
    obtain ⟨a, ha⟩ := hb.analysis
    exact ⟨a, analyze_extends hpq ha⟩
  attributes := hb.attributes.extends hpq

namespace WriteContext

variable {ctx : WriteContext} {body : MethodBody} {s : Links} {code : CodeAttribute}
  {a a' : Analysis} {l : InstrList} {e : Code.Encoded} {slots : List Code.Slot}
  {entries : List (Option HandlerEntry × Label)} {file : ClassFile}

/-- Lines are not frames. -/
theorem LinesAt.others {p : Pool} {lines : List LineEntry} {as : List Attribute}
    (h : LinesAt p lines as) : Others p StackMapFrame.tableName as := by
  rcases h with ⟨-, rfl⟩ | ⟨stored, rfl, hnamed, -⟩
  · exact fun a ha => absurd ha List.not_mem_nil
  · intro a ha
    rw [List.mem_singleton.mp ha]
    exact ⟨_, hnamed, by decide⟩

/-- **Checking finds nothing wrong with code that was written.** -/
theorem Wrote.checkCode (hw : Wrote ctx body s code a l a' e slots entries)
    (hh : ctx.hierarchy.Sound) (hbody : body.Checked ctx.method s.pool ctx.hierarchy)
    (hpool : file.pool = s.pool) (hmaps : file.version.hasStackMaps = ctx.hasStackMaps) :
    Verify.checkCode file ctx.hierarchy s.bootstraps ctx.method code = .ok [] := by
  have hdoc := hbody.documented
  obtain ⟨b₀, hb₀⟩ := hbody.analysis
  obtain ⟨g, entry, w, hs⟩ := Analysis.searched_of_analyze (hw.pruned.checked hb₀)
  obtain ⟨d, ns, b, hdecode, hr⟩ := hw.rechecked hdoc hh hs
  have hstack : ¬ code.maxStack.toNat < b.maxStack := by
    rw [hw.maxStack]
    exact Nat.not_lt.mpr hr.stack
  have hlocals : ¬ code.maxLocals.toNat < b.maxLocals := by
    rw [hw.maxLocals]
    exact Nat.not_lt.mpr hr.locals
  unfold Verify.checkCode
  rw [hpool]
  refine bind_eq_ok.mpr ⟨(d, ns.map Prod.snd), hdecode, ?_⟩
  simp only [hr.analysis, if_neg hstack, if_neg hlocals]
  obtain ⟨lines, frames, hattributes, hlines, hframes⟩ := hw.attributes
  rcases hframes with ⟨hnone, -⟩ | ⟨hsome, hframes⟩
  · rw [hmaps, hnone]
    rfl
  · obtain ⟨read, named, recorded, points, hread, hentry, htable, hpoints, hrec⟩ :=
      hw.read_frames hdoc hh hs hframes hlines.others hbody.attributes
    have hstored : Verify.storedFrames file ctx.hierarchy ctx.method code d (ns.map Prod.snd) b =
        .ok [] := by
      unfold Verify.storedFrames
      rw [hpool, hattributes]
      refine bind_eq_ok.mpr ⟨read, hread, ?_⟩
      have hrecorded : (do
          let entry ← FlowGraph.failure 0 (Frame.entry ctx.method)
          CompactFrame.ofTable s.pool (← entry.compact.relocate fun _ => none) (read.getD [])) =
            .ok recorded :=
        bind_eq_ok.mpr ⟨entry, mapError_eq_ok.mpr hs.start, bind_eq_ok.mpr ⟨named, hentry, htable⟩⟩
      rw [hrecorded]
      exact congrArg Except.ok (hw.check_recorded hdoc hh hs hr hpoints hrec)
    rw [hmaps, hsome]
    exact bind_eq_ok.mpr ⟨[], hstored, rfl⟩

end WriteContext

/-! ## Classes -/

theorem Access.isStatic_ofMethod (bits : UInt16) :
    Access.isStatic (Access.ofMethod bits) = Access.isStatic bits := by
  have hmask : (0x1dff : UInt16) &&& 0x0008 = 0x0008 := by decide
  rw [Access.isStatic, Access.isStatic, Access.ofMethod, UInt16.and_assoc, hmask]

namespace ClassModel

variable {c : ClassModel} {h : Hierarchy} {s : Links}

/-- All code of the class passes its checks, and its raw attributes are not those that checking
reads. -/
structure Checked (c : ClassModel) (h : Hierarchy) : Prop where
  attributes : Others c.links.pool BootstrapMethod.tableName c.attributes
  methods : ∀ m ∈ c.methods, Others c.links.pool CodeAttribute.name m.attributes
  bodies : ∀ m ∈ c.methods, ∀ body, m.body = some body →
    body.Checked (c.context m) c.links.pool h

theorem MethodAt.checkMethod {m : MethodModel} {info : MemberInfo} {file : ClassFile}
    (hm : c.MethodAt h s m info) (hh : h.Sound)
    (hothers : Others s.pool CodeAttribute.name m.attributes)
    (hbody : ∀ body, m.body = some body → body.Checked (c.context m) s.pool h ∧ body.Fits)
    (hfits : Attribute.AllFit info.attributes) (hpool : file.pool = s.pool)
    (hversion : file.version = c.version) :
    Verify.checkMethod file h c.name s.bootstraps (info.masked Access.ofMethod) = .ok [] := by
  obtain ⟨as, hattributes, hcode⟩ := hm.attributes
  unfold Verify.checkMethod
  rw [hpool]
  cases hsome : m.body with
  | none =>
    rw [hsome] at hcode
    obtain rfl : as = [] := hcode
    refine bind_eq_ok.mpr ⟨none, ?_, rfl⟩
    rw [MemberInfo.masked, hattributes, List.nil_append]
    exact readAttribute_others hothers
  | some body =>
    rw [hsome] at hcode
    obtain ⟨stored, code, rfl, hnamed, hinfo, a, l, a', e, slots, entries, hw⟩ := hcode
    obtain ⟨hchecked, hbodyFits⟩ := hbody body hsome
    have hlength : code.encode.length < 2 ^ 32 := by
      rw [← hinfo]
      exact hfits.each stored (by simp [hattributes])
    have hread := (code.reads (hw.fits hchecked.documented hbodyFits hlength)).read
    refine bind_eq_ok.mpr ⟨some code, ?_, ?_⟩
    · have hfirst : Others s.pool CodeAttribute.name [] := fun a ha => absurd ha List.not_mem_nil
      rw [MemberInfo.masked, hattributes]
      refine readAttribute_one hfirst hothers hnamed ?_
      rw [ClassError.reading, hinfo, hread]
      rfl
    · refine bind_eq_ok.mpr ⟨m.name, hm.name, bind_eq_ok.mpr ⟨m.descriptor, hm.descriptor, ?_⟩⟩
      have hcontext : (⟨c.name, m.name, m.descriptor,
          Access.isStatic (info.masked Access.ofMethod).access⟩ : MethodContext) = c.context m := by
        rw [MemberInfo.masked, Access.isStatic_ofMethod, hm.access]
        rfl
      rw [hcontext]
      have hmaps : file.version.hasStackMaps = (c.writeContext h m).hasStackMaps := by
        rw [hversion]
        rfl
      have hnone : Verify.checkCode file h s.bootstraps (c.context m) code = .ok [] :=
        hw.checkCode hh hchecked hpool hmaps
      exact bind_eq_ok.mpr ⟨[], hnone, rfl⟩

/-- The bootstrap methods are read as they were written. -/
theorem TableAt.read {as table : List Attribute} (htable : TableAt s table)
    (hfits : BootstrapMethod.AllFit s.bootstraps.toList)
    (has : Others s.pool BootstrapMethod.tableName as) : ∃ read,
      readAttribute s.pool BootstrapMethod.tableName BootstrapMethod.tableReader (as ++ table) =
        .ok read ∧ (read.getD []).toArray = s.bootstraps := by
  rcases htable with ⟨hnone, rfl⟩ | ⟨stored, rfl, hnamed, hinfo⟩
  · refine ⟨none, ?_, ?_⟩
    · rw [List.append_nil]
      exact readAttribute_others has
    · rw [Option.getD_none, ← hnone]
  · refine ⟨some s.bootstraps.toList, ?_, rfl⟩
    refine readAttribute_one has (fun a ha => absurd ha List.not_mem_nil) hnamed ?_
    rw [ClassError.reading, hinfo, hfits.reads.read]
    rfl

/-- Nothing is wrong with what was written. -/
theorem Written.verified {raw : ClassFile} (hw : c.Written h s raw) (hh : h.Sound)
    (hattributes : Others s.pool BootstrapMethod.tableName c.attributes)
    (hmethods : ∀ m ∈ c.methods, Others s.pool CodeAttribute.name m.attributes)
    (hbodies : ∀ m ∈ c.methods, ∀ body, m.body = some body →
      body.Checked (c.context m) s.pool h ∧ body.Fits)
    (htable : BootstrapMethod.AllFit s.bootstraps.toList) (hreach : s.pool.Reachable)
    (hfits : ClassFile.Fits { raw with pool := s.pool }) :
    verifyClass (ClassFile.encode { raw with pool := s.pool }) h = .ok [] := by
  refine bind_eq_ok.mpr ⟨_, ClassFile.parse_encode _ hreach hfits, ?_⟩
  refine bind_eq_ok.mpr ⟨c.name, hw.this, ?_⟩
  obtain ⟨table, hall, htableAt⟩ := hw.attributes
  obtain ⟨read, hread, hbootstraps⟩ := htableAt.read htable hattributes
  refine bind_eq_ok.mpr ⟨read, ?_, ?_⟩
  · rw [← hall] at hread
    exact hread
  rw [hbootstraps]
  refine bind_eq_ok.mpr ⟨raw.methods.map fun _ => [], mapM_eq_ok.mpr ?_, ?_⟩
  · show List.Forall₂ _ (raw.methods.map (MemberInfo.masked Access.ofMethod)) _
    rw [List.forall₂_map_left_iff, List.forall₂_map_right_iff, List.forall₂_same]
    intro info hinfo
    obtain ⟨m, hm, hat⟩ := exists_of_forall₂ hw.methods.flip hinfo
    exact hat.checkMethod hh (hmethods m hm) (hbodies m hm) (hfits.methodAttributes info hinfo) rfl
      hw.version
  · rw [pure_eq_ok, List.flatten_eq_nil_iff]
    intro findings hmem
    obtain ⟨-, -, rfl⟩ := List.mem_map.mp hmem
    rfl

/-- **What is written is accepted.** Whatever class is written: if its code comes in the forms that
it is decoded to and passes its checks, its raw attributes are not those that checking reads, and
everything that is written fits into the fields in front of it, then verifying the bytes finds
nothing wrong. -/
theorem verify_toBytes {bytes : List UInt8} (hpool : c.links.pool.Reachable) (hh : h.Sound)
    (hchecked : c.Checked h) (hfits : c.Fits h) (hbytes : c.toBytes h = .ok bytes) :
    verifyClass bytes h = .ok [] := by
  obtain ⟨file, hfile, hencode⟩ := bind_eq_ok.mp hbytes
  obtain rfl := pure_eq_ok.mp hencode
  have hfile_fits := hfits.file file hfile
  obtain ⟨raw, s, hrun, rfl⟩ := toClassFile_eq_ok hfile
  obtain ⟨hextends, hwritten⟩ := gives_write c.links raw s hpool hrun
  have htable := hfits.bootstraps
  have hlinks : c.linksAfter h = s := congrArg Prod.snd hrun
  rw [hlinks] at htable
  exact hwritten.verified hh (hchecked.attributes.extends hextends.pool)
    (fun m hm => (hchecked.methods m hm).extends hextends.pool)
    (fun m hm body hbody =>
      ⟨(hchecked.bodies m hm body hbody).extends hextends.pool, hfits.bodies m hm body hbody⟩)
    htable (hpool.extends hextends.pool) hfile_fits

/-- Nothing is wrong with a class whose only method returns early. -/
theorem verify_earlyClass : ∃ bytes, earlyClass.toBytes .unknown = .ok bytes ∧
    verifyClass bytes .unknown = .ok [] := by
  obtain ⟨hfits, bytes, hbytes⟩ := toBytes_earlyClass
  have hchecked : earlyClass.Checked .unknown := by
    refine ⟨fun a ha => absurd ha List.not_mem_nil, fun m hm => ?_, fun m hm body hbody => ?_⟩
    · rw [List.mem_singleton.mp hm]
      exact fun a ha => absurd ha List.not_mem_nil
    · have hplain := (plain_earlyClass.methods m hm).body body hbody
      rw [List.mem_singleton.mp hm] at hbody ⊢
      obtain rfl := Option.some.inj hbody
      exact ⟨hplain.documented, ⟨_, analyze_returnsEarly_strict _⟩,
        fun a ha => absurd ha List.not_mem_nil⟩
  exact ⟨bytes, hbytes, verify_toBytes (c := earlyClass) .refl trivial hchecked hfits hbytes⟩

end ClassModel
end ClassWeave
