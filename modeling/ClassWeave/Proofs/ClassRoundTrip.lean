import ClassWeave.Proofs.LineNumbers
import ClassWeave.Proofs.MethodRoundTrip

/-!
# Classes that are written and read back

A class that is written and read again has the same members and the same raw attributes. The code
of a method is what its analysis reached; everything else about a class comes back as it was, as
long as every text and every list that is written fits into the field in front of it.
-/

namespace ClassWeave

open Code Listing

/-! ## The code of a method -/

namespace WriteContext

variable {ctx : WriteContext} {body : MethodBody} {s : Links} {code : CodeAttribute}
  {a a' : Analysis} {l : InstrList} {e : Encoded} {slots : List Code.Slot}
  {entries : List (Option HandlerEntry × Label)}
  (hw : Wrote ctx body s code a l a' e slots entries)

include hw

/-- What was encoded is what the analysis reached. -/
theorem Wrote.encoding_live :
    Encoding s .short (a.live body.list) body.list.labelCount e slots := by
  rw [← hw.pruned.nodes, ← hw.pruned.labelCount_eq]
  exact hw.encoding

theorem Wrote.closed (hdoc : Documented s.pool body.list.nodes.toList) :
    Closed (a.live body.list) e.wideFallthroughs :=
  (Analysis.spreads hw.pruned.analysis).closed hw.encoding_live (Analysis.documented_live hdoc)

/-- Code of which something is reached is not empty. -/
theorem Wrote.bytes_ne_nil (hdoc : Documented s.pool body.list.nodes.toList) : e.bytes ≠ [] := by
  have hlive := Analysis.documented_live (a := a) hdoc
  have hclosed := hw.closed hdoc
  have hreal : reals (spelling (a.live body.list) body.list.labelCount slots) ≠ [] := by
    refine reals_spelledFrom_ne_nil hw.encoding_live.settled_zip ?_
    rw [hw.encoding_live.map_fst]
    exact (Analysis.spreads hw.pruned.analysis).live_any
  intro hnil
  have hlength := (hw.encoding_live.scanned hlive hclosed fun _ h => h).1
  rw [hnil, List.length_nil] at hlength
  obtain ⟨r, rest, hr⟩ := List.exists_cons_of_ne_nil hreal
  have hstart : r.1 ∈ starts (spelling (a.live body.list) body.list.labelCount slots) := by
    rw [starts, hr]
    exact List.mem_cons_self
  have := hw.encoding_live.starts_lt hlive hstart
  omega

/-- The attributes of the code are told apart again. -/
theorem Wrote.sortAttributes (hplain : body.Plain s.pool) (hlines : e.lines.length ≤ 65535) :
    MethodBody.sortAttributesOnto s.pool [] [] code.attributes = .ok (e.lines, body.attributes) := by
  obtain ⟨lines, frames, hattributes, hline, hframe⟩ := hw.attributes
  have hbody : ∀ {found : List LineEntry},
      MethodBody.sortAttributesOnto s.pool found [] body.attributes =
        .ok (found, body.attributes) := by
    intro found
    have happend : MethodBody.sortAttributesOnto s.pool found [] (body.attributes ++ []) =
        MethodBody.sortAttributesOnto s.pool found (body.attributes.reverse ++ []) [] :=
      MethodBody.sortAttributesOnto_append hplain.attributes
    rw [List.append_nil, List.append_nil] at happend
    rw [happend, MethodBody.sortAttributesOnto, List.reverse_reverse]
  -- frames are made anew
  have hframes : ∀ {found : List LineEntry},
      MethodBody.sortAttributesOnto s.pool found [] (frames ++ body.attributes) =
        .ok (found, body.attributes) := by
    intro found
    have hskip : frames = [] ∨ ∃ stored, frames = [stored] ∧
        stored.Named s.pool StackMapFrame.tableName := by
      rcases hframe with ⟨-, hnone⟩ | ⟨-, points, table, -, -, ⟨-, hnone⟩ | ⟨stored, hone, hat⟩⟩
      · exact .inl hnone
      · exact .inl hnone
      · exact .inr ⟨stored, hone, hat.named⟩
    rcases hskip with rfl | ⟨stored, rfl, hnamed⟩
    · exact hbody
    · rw [List.singleton_append, MethodBody.sortAttributesOnto,
        show s.pool.utf8 stored.name = .ok _ from hnamed]
      exact hbody
  rw [hattributes, List.append_assoc]
  rcases hline with ⟨hnone, rfl⟩ | ⟨stored, rfl, hnamed, hinfo⟩
  · rw [hnone]
    exact hframes
  · rw [List.singleton_append, MethodBody.sortAttributesOnto,
      show s.pool.utf8 stored.name = .ok _ from hnamed]
    have hread : ClassError.reading LineEntry.tableReader stored.info = .ok e.lines := by
      rw [ClassError.reading, hinfo, (LineEntry.reads_table hlines).read]
      rfl
    show (ClassError.reading LineEntry.tableReader stored.info >>= _) = _
    rw [hread]
    exact hframes

/-- Every line that is stored comes from a line of the code. -/
theorem Wrote.length_lines_le (hfits : body.Fits) : e.lines.length ≤ 65535 := by
  rw [hw.encoding_live.lines]
  refine Nat.le_trans (Code.length_lines_le hw.encoding_live.settled) (Nat.le_trans ?_ hfits.lines)
  exact (keptFrom_sublist _ _ _).countP_le

/-- **The code of a method is read back as what its analysis reached.** -/
theorem Wrote.read (hplain : body.Plain s.pool) (hfits : body.Fits) :
    ∃ body', MethodBody.ofAttribute s code = .ok body' ∧
      body.Keeps a e.wideFallthroughs body' := by
  have hdoc := Analysis.documented_live (a := a) hplain.documented
  have he := hw.encoding_live
  have hclosed := hw.closed hplain.documented
  have hblocks := hw.blocks
  rw [hw.pruned.blocks] at hblocks
  obtain ⟨hhandlers, bs, hbs, hspans⟩ := blocks_of_entries he hdoc hclosed hblocks e.lines
  obtain ⟨list, offsets, hdecode, hlist, hnodes, hprogram⟩ :=
    he.decode hdoc hclosed (fun _ h => h) hhandlers hbs
  refine ⟨⟨list, code.maxStack, code.maxLocals, body.attributes⟩, ?_, ?_⟩
  · refine bind_eq_ok.mpr ⟨_, hw.sortAttributes hplain (hw.length_lines_le hfits), ?_⟩
    simp only [he.sorted_lines]
    refine bind_eq_ok.mpr ⟨(list, offsets), ?_, rfl⟩
    rw [hw.bytes, hw.handlers]
    exact hdecode
  · refine ⟨fun i hi => he.detour_spec hdoc hi, hprogram, ?_, rfl⟩
    show list.blocks.map (TryBlock.span list.nodes.toList) = _
    rw [hlist, hnodes, hspans, he.map_fst_spelling]
    rfl

/-- Code that is stored can be read if its lists fit. -/
theorem Wrote.fits (hdoc : Documented s.pool body.list.nodes.toList) (hfits : body.Fits)
    (hlength : code.encode.length < 2 ^ 32) : code.Fits where
  nonempty := by
    rw [hw.bytes]
    exact hw.bytes_ne_nil hdoc
  code := by
    rw [hw.bytes, (hw.encoding_live.scanned (Analysis.documented_live hdoc) (hw.closed hdoc)
      fun _ h => h).1]
    exact hw.encoding_live.length
  handlers := by
    have hblocks := hw.blocks.length_eq
    rw [hw.pruned.blocks] at hblocks
    have hkept : (keptEntries entries).length ≤ entries.length := List.length_filterMap_le _ _
    have := hfits.blocks
    rw [hw.handlers, List.length_map]
    omega
  attributes := by
    obtain ⟨lines, frames, hattributes, hline, hframe⟩ := hw.attributes
    have hlines : lines.length ≤ 1 := by
      rcases hline with ⟨-, rfl⟩ | ⟨stored, rfl, -⟩ <;> simp
    have hframes : frames.length ≤ 1 := by
      rcases hframe with ⟨-, rfl⟩ | ⟨-, points, table, -, -, ⟨-, rfl⟩ | ⟨stored, rfl, -⟩⟩ <;> simp
    constructor
    · have := hfits.attributes
      rw [hattributes, List.length_append, List.length_append]
      omega
    · intro raw hmem
      -- an attribute is no longer than the code that it is part of
      obtain ⟨before, after, hsplit⟩ := List.append_of_mem hmem
      have hle : raw.info.length ≤ code.encode.length := by
        simp only [CodeAttribute.encode, Bytes.counted, hsplit, List.flatMap_append,
          List.flatMap_cons, Attribute.encode, Bytes.longBlock, List.length_append]
        omega
      exact Nat.lt_of_le_of_lt hle hlength

theorem Wrote.fits_of_stored (hdoc : Documented s.pool body.list.nodes.toList) (hfits : body.Fits)
    {stored : Attribute} {as : List Attribute} (hinfo : stored.info = code.encode)
    (hmem : stored ∈ as) (has : Attribute.AllFit as) : code.Fits := by
  refine hw.fits hdoc hfits ?_
  rw [← hinfo]
  exact has.each stored hmem

end WriteContext

/-! ## Members -/

theorem FieldModel.At.read {f : FieldModel} {p : Pool} {info : MemberInfo} (hf : f.At p info) :
    FieldModel.ofInfo p (info.masked Access.ofField) =
      .ok { f with access := Access.ofField f.access } := by
  refine bind_eq_ok.mpr ⟨f.name, hf.name, bind_eq_ok.mpr ⟨f.descriptor, hf.descriptor, ?_⟩⟩
  rw [MemberInfo.masked, hf.access, hf.attributes]
  rfl

/-- Some code is read back as what is left of other code. -/
def MethodBody.ReadAs (ctx : WriteContext) (p : Pool) (body body' : MethodBody) : Prop :=
  ∃ a behind, analyze ctx.method body.list p ctx.hierarchy .lenient = .ok a ∧
    body.Keeps a behind body'

namespace MethodModel

/-- A method is read back: everything as it was but for its code, which is what is left of it, and
flags without a meaning. -/
structure ReadAs (ctx : WriteContext) (p : Pool) (m m' : MethodModel) : Prop where
  access : m'.access = Access.ofMethod m.access
  name : m'.name = m.name
  descriptor : m'.descriptor = m.descriptor
  body : Option.Rel (MethodBody.ReadAs ctx p) m.body m'.body
  attributes : m'.attributes = m.attributes

theorem sortAttributesOnto_raw {links : Links} {body : Option MethodBody} {kept as : List Attribute}
    (h : ∀ a ∈ as, ∃ name, a.Named links.pool name ∧ name ≠ CodeAttribute.name) :
    sortAttributesOnto links body kept as = .ok (body, kept.reverse ++ as) := by
  induction as generalizing kept with
  | nil => rw [sortAttributesOnto, List.append_nil]
  | cons a as ih =>
    obtain ⟨name, hname, hne⟩ := h a List.mem_cons_self
    rw [sortAttributesOnto, show links.pool.utf8 a.name = .ok name from hname]
    show (if name = CodeAttribute.name then _ else _) = _
    rw [if_neg hne, ih fun b hb => h b (List.mem_cons_of_mem _ hb), List.reverse_cons,
      List.append_assoc]
    rfl

/-- The code of a method is found in front of its raw attributes. -/
theorem sortAttributesOnto_code {links : Links} {stored : Attribute} {code : CodeAttribute}
    {body : MethodBody} {as : List Attribute}
    (hnamed : stored.Named links.pool CodeAttribute.name) (hinfo : stored.info = code.encode)
    (hfits : code.Fits) (hbody : MethodBody.ofAttribute links code = .ok body)
    (has : ∀ a ∈ as, ∃ name, a.Named links.pool name ∧ name ≠ CodeAttribute.name) :
    sortAttributesOnto links none [] (stored :: as) = .ok (some body, as) := by
  have hreading : ClassError.reading CodeAttribute.reader stored.info = .ok code := by
    rw [ClassError.reading, hinfo, (code.reads hfits).read]
    rfl
  rw [sortAttributesOnto, show links.pool.utf8 stored.name = .ok _ from hnamed]
  show (ClassError.reading CodeAttribute.reader stored.info >>= _) = _
  rw [hreading]
  show (MethodBody.ofAttribute links code >>= _) = _
  rw [hbody]
  exact sortAttributesOnto_raw has

/-- A method is read once its code is told from its raw attributes. -/
theorem ofInfo_eq {links : Links} {info : MemberInfo} {name descriptor : String}
    {body : Option MethodBody} {as : List Attribute} (hname : links.pool.utf8 info.name = .ok name)
    (hdescriptor : links.pool.utf8 info.descriptor = .ok descriptor)
    (hsort : sortAttributesOnto links none [] info.attributes = .ok (body, as)) :
    ofInfo links (info.masked Access.ofMethod) =
      .ok ⟨Access.ofMethod info.access, name, descriptor, body, as⟩ :=
  bind_eq_ok.mpr ⟨name, hname, bind_eq_ok.mpr ⟨descriptor, hdescriptor,
    bind_eq_ok.mpr ⟨(body, as), hsort, rfl⟩⟩⟩

/-- Raw attributes of a method do not hold code, and its code comes in the forms that it is decoded
to. -/
structure Plain (p : Pool) (m : MethodModel) : Prop where
  attributes : ∀ a ∈ m.attributes, ∃ name, a.Named p name ∧ name ≠ CodeAttribute.name
  body : ∀ body, m.body = some body → body.Plain p

end MethodModel

theorem MethodBody.Plain.extends {p q : Pool} {b : MethodBody} (h : p.Extends q) (hb : b.Plain p) :
    b.Plain q where
  documented i hi := (hb.documented i hi).extends h
  attributes a ha := by
    obtain ⟨name, hname, hnot⟩ := hb.attributes a ha
    exact ⟨name, hname.extends h, hnot⟩

theorem MethodModel.Plain.extends {p q : Pool} {m : MethodModel} (h : p.Extends q)
    (hm : m.Plain p) : m.Plain q where
  attributes a ha := by
    obtain ⟨name, hname, hnot⟩ := hm.attributes a ha
    exact ⟨name, hname.extends h, hnot⟩
  body b hb := (hm.body b hb).extends h

namespace ClassModel

variable {c : ClassModel} {h : Hierarchy} {s : Links}

theorem MethodAt.read {m : MethodModel} {info : MemberInfo} (hm : c.MethodAt h s m info)
    (hplain : m.Plain s.pool) (hbody : ∀ body, m.body = some body → body.Fits)
    (hfits : Attribute.AllFit info.attributes) :
    ∃ m', MethodModel.ofInfo s (info.masked Access.ofMethod) = .ok m' ∧
      m.ReadAs (c.writeContext h m) s.pool m' := by
  obtain ⟨as, hattributes, hcode⟩ := hm.attributes
  have hread : ∃ body', MethodModel.sortAttributesOnto s none [] info.attributes =
      .ok (body', m.attributes) ∧
        Option.Rel (MethodBody.ReadAs (c.writeContext h m) s.pool) m.body body' := by
    cases hsome : m.body with
    | none =>
      rw [hsome] at hcode
      obtain rfl : as = [] := hcode
      refine ⟨none, ?_, .none⟩
      rw [hattributes, List.nil_append]
      exact MethodModel.sortAttributesOnto_raw hplain.attributes
    | some body =>
      rw [hsome] at hcode
      obtain ⟨stored, code, rfl, hnamed, hinfo, a, l, a', e, slots, entries, hw⟩ := hcode
      have hb := hplain.body body hsome
      have hcodes := hw.fits_of_stored hb.documented (hbody body hsome) hinfo
        (by simp [hattributes]) hfits
      obtain ⟨body', hbody', hkeeps⟩ := hw.read hb (hbody body hsome)
      refine ⟨some body', ?_, .some ⟨a, e.wideFallthroughs, hw.pruned.analysis, hkeeps⟩⟩
      rw [hattributes]
      exact MethodModel.sortAttributesOnto_code hnamed hinfo hcodes hbody' hplain.attributes
  obtain ⟨body', hsort, hrel⟩ := hread
  exact ⟨_, MethodModel.ofInfo_eq hm.name hm.descriptor hsort, congrArg Access.ofMethod hm.access, rfl, rfl, hrel, rfl⟩

/-! ## Classes -/

/-- Raw attributes of a class do not hold bootstrap methods, and its methods are plain. -/
structure Plain (c : ClassModel) : Prop where
  attributes : ∀ a ∈ c.attributes, ∃ name,
    a.Named c.links.pool name ∧ name ≠ BootstrapMethod.tableName
  methods : ∀ m ∈ c.methods, m.Plain c.links.pool

/-- Every text and every list that is written fits into the field in front of it. -/
structure Fits (c : ClassModel) (h : Hierarchy) : Prop where
  file : ∀ file, c.toClassFile h = .ok file → file.Fits
  bootstraps : BootstrapMethod.AllFit (c.linksAfter h).bootstraps.toList
  bodies : ∀ m ∈ c.methods, ∀ body, m.body = some body → body.Fits

/-- A class is read back: everything as it was but for code that is never reached and flags without
a meaning. It comes with the constants and bootstrap methods that were written. -/
structure ReadAs (c : ClassModel) (h : Hierarchy) (s : Links) (c' : ClassModel) : Prop where
  version : c'.version = c.version
  access : c'.access = Access.ofClass c.access
  name : c'.name = c.name
  super : c'.super = c.super
  interfaces : c'.interfaces = c.interfaces
  fields : c'.fields = c.fields.map fun f => { f with access := Access.ofField f.access }
  methods : List.Forall₂ (fun m m' => m.ReadAs (c.writeContext h m) s.pool m') c.methods c'.methods
  attributes : c'.attributes = c.attributes
  links : c'.links = s

theorem sortAttributesOnto_raw {p : Pool} {found : List BootstrapMethod} {kept as rest : List Attribute}
    (h : ∀ a ∈ as, ∃ name, a.Named p name ∧ name ≠ BootstrapMethod.tableName) :
    sortAttributesOnto p found kept (as ++ rest) =
      sortAttributesOnto p found (as.reverse ++ kept) rest := by
  induction as generalizing kept with
  | nil => rfl
  | cons a as ih =>
    obtain ⟨name, hname, hne⟩ := h a List.mem_cons_self
    rw [List.cons_append, sortAttributesOnto, show p.utf8 a.name = .ok name from hname]
    show (if name = BootstrapMethod.tableName then _ else _) = _
    rw [if_neg hne, ih fun b hb => h b (List.mem_cons_of_mem _ hb), List.reverse_cons,
      List.append_assoc]
    rfl

theorem sortAttributesOnto_of_table {as table : List Attribute} (htable : TableAt s table)
    (hfits : BootstrapMethod.AllFit s.bootstraps.toList)
    (has : ∀ a ∈ as, ∃ name, a.Named s.pool name ∧ name ≠ BootstrapMethod.tableName) :
    sortAttributesOnto s.pool [] [] (as ++ table) = .ok (s.bootstraps.toList, as) := by
  rw [sortAttributesOnto_raw has, List.append_nil]
  rcases htable with ⟨hnone, rfl⟩ | ⟨stored, rfl, hnamed, hinfo⟩
  · rw [sortAttributesOnto, List.reverse_reverse, hnone]
  · have hread : ClassError.reading BootstrapMethod.tableReader stored.info =
        .ok s.bootstraps.toList := by
      rw [ClassError.reading, hinfo, hfits.reads.read]
      rfl
    rw [sortAttributesOnto, show s.pool.utf8 stored.name = .ok _ from hnamed]
    show (ClassError.reading BootstrapMethod.tableReader stored.info >>= _) = _
    rw [hread]
    show sortAttributesOnto s.pool s.bootstraps.toList as.reverse [] = _
    rw [sortAttributesOnto, List.reverse_reverse]

/-- A class is read once its methods are. -/
theorem Written.ofClassFile_eq {raw : ClassFile} (hw : c.Written h s raw)
    (hattributes : ∀ a ∈ c.attributes, ∃ name, a.Named s.pool name ∧
      name ≠ BootstrapMethod.tableName)
    (htable : BootstrapMethod.AllFit s.bootstraps.toList) {ms : List MethodModel}
    (hms : (raw.methods.map (MemberInfo.masked Access.ofMethod)).mapM (MethodModel.ofInfo s) =
      .ok ms) :
    ofClassFile (ClassFile.masked { raw with pool := s.pool }) =
      .ok ⟨raw.version, Access.ofClass raw.access, c.name, c.super, c.interfaces,
        c.fields.map fun f => { f with access := Access.ofField f.access }, ms, c.attributes, s⟩ := by
  obtain ⟨table, hall, htableAt⟩ := hw.attributes
  have hinterfaces : raw.interfaces.mapM s.pool.className = .ok c.interfaces :=
    mapM_eq_ok.mpr hw.interfaces.flip
  have hfields : (raw.fields.map (MemberInfo.masked Access.ofField)).mapM
      (FieldModel.ofInfo s.pool) =
        .ok (c.fields.map fun f => { f with access := Access.ofField f.access }) := by
    rw [mapM_eq_ok, List.forall₂_map_left_iff, List.forall₂_map_right_iff]
    exact (hw.fields.imp fun f info hf => hf.read).flip
  refine bind_eq_ok.mpr ⟨c.name, hw.this, bind_eq_ok.mpr ⟨c.super, hw.super,
    bind_eq_ok.mpr ⟨c.interfaces, hinterfaces, ?_⟩⟩⟩
  refine bind_eq_ok.mpr ⟨(s.bootstraps.toList, c.attributes), ?_, ?_⟩
  · show sortAttributesOnto s.pool [] [] raw.attributes = _
    rw [hall]
    exact sortAttributesOnto_of_table htableAt htable hattributes
  · exact bind_eq_ok.mpr ⟨_, hfields, bind_eq_ok.mpr ⟨ms, hms, rfl⟩⟩

/-- What was written is read. -/
theorem Written.read {raw : ClassFile} (hw : c.Written h s raw)
    (hattributes : ∀ a ∈ c.attributes, ∃ name, a.Named s.pool name ∧
      name ≠ BootstrapMethod.tableName) (hplain : ∀ m ∈ c.methods, m.Plain s.pool)
    (hbodies : ∀ m ∈ c.methods, ∀ body, m.body = some body → body.Fits)
    (htable : BootstrapMethod.AllFit s.bootstraps.toList)
    (hfits : ClassFile.Fits { raw with pool := s.pool }) :
    ∃ c', ofClassFile (ClassFile.masked { raw with pool := s.pool }) = .ok c' ∧
      c.ReadAs h s c' := by
  have hpaired : List.Forall₂ (fun m info => ∃ raw, info = raw.masked Access.ofMethod ∧
      c.MethodAt h s m raw ∧ Attribute.AllFit raw.attributes) c.methods
        (raw.methods.map (MemberInfo.masked Access.ofMethod)) := by
    rw [List.forall₂_map_right_iff, List.forall₂_iff_zip]
    refine ⟨hw.methods.length_eq, fun {m info} hmem => ⟨info, rfl, ?_, ?_⟩⟩
    · exact (List.forall₂_iff_zip.mp hw.methods).2 hmem
    · exact hfits.methodAttributes info (List.of_mem_zip hmem).2
  obtain ⟨ms, hms, hread⟩ := mapM_of_forall₂ (f := MethodModel.ofInfo s) hpaired
    fun m hm info _ ⟨raw, hinfo, hat, hfit⟩ =>
      hinfo ▸ hat.read (hplain m hm) (hbodies m hm) hfit
  exact ⟨_, hw.ofClassFile_eq hattributes htable hms, hw.version,
    congrArg Access.ofClass hw.access, rfl, rfl, rfl, rfl, hread, rfl, rfl⟩

/-- **A class that is written and read again has lost nothing but what is never reached.** Whatever
class is written: if its code comes in the forms that it is decoded to, its raw attributes are not
those that depend on the layout, and all texts and lists that are written fit into the fields in
front of them, then what is written can be read, and the class that is read is the one that was
written up to code that the analysis does not reach. -/
theorem parse_toBytes {bytes : List UInt8} (hpool : c.links.pool.Reachable) (hplain : c.Plain)
    (hfits : c.Fits h) (hbytes : c.toBytes h = .ok bytes) :
    ∃ c', parse bytes = .ok c' ∧ c.ReadAs h (c.linksAfter h) c' := by
  obtain ⟨file, hfile, hencode⟩ := bind_eq_ok.mp hbytes
  obtain rfl := pure_eq_ok.mp hencode
  have hfile_fits := hfits.file file hfile
  obtain ⟨raw, s, hrun, rfl⟩ := toClassFile_eq_ok hfile
  obtain ⟨hextends, hwritten⟩ := gives_write c.links raw s hpool hrun
  have hlinks : c.linksAfter h = s := congrArg Prod.snd hrun
  have htable := hfits.bootstraps
  rw [hlinks] at htable ⊢
  have hattributes : ∀ a ∈ c.attributes, ∃ name, a.Named s.pool name ∧
      name ≠ BootstrapMethod.tableName := by
    intro a ha
    obtain ⟨name, hname, hne⟩ := hplain.attributes a ha
    exact ⟨name, hname.extends hextends.pool, hne⟩
  obtain ⟨c', hc', hread⟩ := hwritten.read hattributes
    (fun m hm => (hplain.methods m hm).extends hextends.pool) hfits.bodies htable hfile_fits
  have hreach : s.pool.Reachable := hpool.extends hextends.pool
  exact ⟨c', bind_eq_ok.mpr ⟨_, ClassFile.parse_encode _ hreach hfile_fits, hc'⟩, hread⟩

theorem plain_voidClass {l : InstrList} (hdoc : ∀ p, Documented p l.nodes.toList) :
    (voidClass l).Plain where
  attributes _ ha := absurd ha List.not_mem_nil
  methods m hm := by
    rw [List.mem_singleton.mp hm]
    refine ⟨fun _ ha => absurd ha List.not_mem_nil, fun body hbody => ?_⟩
    obtain rfl := Option.some.inj hbody
    exact ⟨hdoc _, fun _ ha => absurd ha List.not_mem_nil⟩

theorem toBytes_voidClass {l : InstrList} (hblocks : l.blocks.length ≤ 65535)
    (hlines : l.nodes.toList.countP Node.isLine ≤ 65535)
    (h : ∃ file, (voidClass l).toClassFile .unknown = .ok file ∧ file.Fits ∧
      ((voidClass l).linksAfter .unknown).Fits) :
    (voidClass l).Fits .unknown ∧ ∃ bytes, (voidClass l).toBytes .unknown = .ok bytes := by
  obtain ⟨file, hfile, hfits, hlinks⟩ := h
  refine ⟨⟨fun file' hfile' => ?_, hlinks.bootstraps, fun m hm body hbody => ?_⟩, file.encode,
    bind_eq_ok.mpr ⟨file, hfile, rfl⟩⟩
  · rwa [← Except.ok.inj (hfile.symm.trans hfile')]
  · rw [List.mem_singleton.mp hm] at hbody
    obtain rfl := Option.some.inj hbody
    exact ⟨hblocks, hlines, show 0 + 2 ≤ 65535 by omega⟩

theorem documented_returnsEarly (p : Pool) : Documented p returnsEarly.nodes.toList := by
  intro i hi
  simp only [returnsEarly, List.mem_cons, List.not_mem_nil, or_false, reduceCtorEq,
    Node.instr.injEq, false_or] at hi
  rcases hi with rfl | rfl | rfl
  all_goals
    show Opcode.isPlain _ = true
    decide

theorem plain_earlyClass : earlyClass.Plain := plain_voidClass documented_returnsEarly

theorem toBytes_earlyClass :
    earlyClass.Fits .unknown ∧ ∃ bytes, earlyClass.toBytes .unknown = .ok bytes :=
  toBytes_voidClass (l := returnsEarly) (by decide) (by decide) toClassFile_earlyClass

/-- Of a class whose only method returns early, everything up to the return is read back. -/
theorem parse_earlyClass : ∃ bytes c', earlyClass.toBytes .unknown = .ok bytes ∧
    parse bytes = .ok c' ∧ earlyClass.ReadAs .unknown (earlyClass.linksAfter .unknown) c' := by
  obtain ⟨hfits, bytes, hbytes⟩ := toBytes_earlyClass
  obtain ⟨c', hparse, hread⟩ := parse_toBytes (c := earlyClass) .refl plain_earlyClass hfits hbytes
  exact ⟨bytes, c', hbytes, hparse, hread⟩

end ClassModel
end ClassWeave
