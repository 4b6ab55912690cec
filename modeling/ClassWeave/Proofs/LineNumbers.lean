import ClassWeave.Proofs.CodeRoundTrip
import ClassWeave.Proofs.Room
import ClassWeave.Proofs.WritingSteps

/-!
# Where line numbers point to

A line number is stored with the offset of what stands behind its marker. Cutting code down takes
instructions away and leaves the markers, so a marker may be left with nothing behind it. Its line
number then points to the end of the code, where no instruction starts. All other line numbers point
to instructions.
-/

namespace ClassWeave
namespace Code

/-! ## Entries and their bytes -/

/-- Entries, each with the bytes that it is written down as. -/
abbrev Parts := List (Node × List UInt8)

namespace Parts

/-- The code that some entries make up. -/
def bytes (parts : Parts) : List UInt8 := parts.flatMap Prod.snd

/-- The line numbers of some entries, the first of which starts at an offset. -/
def lines (o : Nat) : Parts → List LineEntry
  | [] => []
  | (.line n, bs) :: rest => ⟨UInt16.ofNat o, n⟩ :: lines (o + bs.length) rest
  | (.instr _, bs) :: rest | (.label _, bs) :: rest => lines (o + bs.length) rest

/-- An instruction starts at the offset. -/
def StartsAt (parts : Parts) (o : Nat) : Prop :=
  ∃ (before after : Parts) (i : Instr Label) (bs : List UInt8),
    parts = before ++ (.instr i, bs) :: after ∧ o = before.bytes.length

/-- Instructions take up bytes and markers take up none. -/
def Sized (parts : Parts) : Prop := ∀ p ∈ parts, p.2 = [] ↔ p.1.isReal = false

end Parts

/-- A line marker has no instruction behind it. -/
def TrailingLine (nodes : List Node) : Prop :=
  ∃ before n after, nodes = before ++ .line n :: after ∧ after.any Node.isReal = false

namespace Parts

variable {parts before after : Parts} {o : Nat} {p : Node × List UInt8} {entry : LineEntry}

theorem bytes_append (before after : Parts) :
    bytes (before ++ after) = before.bytes ++ after.bytes :=
  List.flatMap_append

theorem bytes_cons (p : Node × List UInt8) (rest : Parts) :
    bytes (p :: rest) = p.2 ++ rest.bytes :=
  List.flatMap_cons

theorem Sized.tail (h : Sized (p :: parts)) : Sized parts :=
  fun q hq => h q (List.mem_cons_of_mem _ hq)

/-- A line number comes from a marker and has the offset that the marker is at. -/
theorem mem_lines : entry ∈ lines o parts ↔ ∃ (before after : Parts) (n : UInt16)
    (bs : List UInt8), parts = before ++ (.line n, bs) :: after ∧
      entry = ⟨UInt16.ofNat (o + before.bytes.length), n⟩ := by
  constructor
  · intro h
    induction parts generalizing o with
    | nil => cases h
    | cons p parts ih =>
      obtain ⟨n, bs⟩ := p
      have hlater : entry ∈ lines (o + bs.length) parts → ∃ (before after : Parts) (m : UInt16)
          (cs : List UInt8), (n, bs) :: parts = before ++ (.line m, cs) :: after ∧
            entry = ⟨UInt16.ofNat (o + before.bytes.length), m⟩ := by
        intro h
        obtain ⟨before, after, m, cs, rfl, rfl⟩ := ih h
        refine ⟨(n, bs) :: before, after, m, cs, rfl, ?_⟩
        rw [bytes_cons, List.length_append, Nat.add_assoc]
      cases n with
      | instr | label => exact hlater h
      | line n =>
        rcases List.mem_cons.mp h with rfl | h
        · exact ⟨[], parts, n, bs, rfl, rfl⟩
        · exact hlater h
  · rintro ⟨before, after, n, bs, rfl, rfl⟩
    induction before generalizing o with
    | nil => exact List.mem_cons_self
    | cons q before ih =>
      obtain ⟨m, cs⟩ := q
      have hmem := ih (o := o + cs.length)
      rw [bytes_cons, List.length_append, ← Nat.add_assoc]
      cases m with
      | instr | label => exact hmem
      | line => exact List.mem_cons_of_mem _ hmem

/-- The first instruction among some entries starts where they start. -/
theorem startsAt_zero (hsized : parts.Sized) (hreal : (parts.map Prod.fst).any Node.isReal = true) :
    parts.StartsAt 0 := by
  induction parts with
  | nil => cases hreal
  | cons p parts ih =>
    obtain ⟨n, bs⟩ := p
    cases n with
    | instr i => exact ⟨[], parts, i, bs, rfl, rfl⟩
    | label | line =>
      obtain ⟨before, after, i, cs, rfl, hzero⟩ := ih hsized.tail hreal
      have hempty : bs = [] := (hsized _ List.mem_cons_self).mpr rfl
      refine ⟨(_, bs) :: before, after, i, cs, rfl, ?_⟩
      rw [bytes_cons, hempty, List.nil_append]
      exact hzero

theorem StartsAt.append (h : after.StartsAt o) :
    StartsAt (before ++ after) (before.bytes.length + o) := by
  obtain ⟨front, back, i, bs, rfl, rfl⟩ := h
  refine ⟨before ++ front, back, i, bs, (List.append_assoc _ _ _).symm, ?_⟩
  rw [bytes_append, List.length_append]

/-- Behind every start of an instruction there is code. -/
theorem StartsAt.lt (hsized : parts.Sized) (h : parts.StartsAt o) : o < parts.bytes.length := by
  obtain ⟨before, after, i, bs, rfl, rfl⟩ := h
  have hbytes : bs ≠ [] := by
    intro hempty
    have hmark := (hsized (.instr i, bs) (by simp)).mp hempty
    cases hmark
  have hpos := List.length_pos_of_ne_nil hbytes
  rw [bytes_append, bytes_cons, List.length_append, List.length_append]
  show before.bytes.length < before.bytes.length + (bs.length + after.bytes.length)
  omega

/-- Without instructions there are no bytes. -/
theorem bytes_of_marks (hsized : parts.Sized)
    (hreal : (parts.map Prod.fst).any Node.isReal = false) : parts.bytes = [] := by
  induction parts with
  | nil => rfl
  | cons p parts ih =>
    rw [List.map_cons, List.any_cons, Bool.or_eq_false_iff] at hreal
    rw [bytes_cons, (hsized p List.mem_cons_self).mpr hreal.1, ih hsized.tail hreal.2]
    rfl

/-- A marker with an instruction behind it gives the line number of that instruction. -/
theorem startsAt_of_mem_lines (hsized : parts.Sized) (hlength : parts.bytes.length ≤ 65535)
    (htrailing : ¬ TrailingLine (parts.map Prod.fst)) (h : entry ∈ parts.lines 0) :
    parts.StartsAt entry.start.toNat := by
  obtain ⟨before, after, n, bs, rfl, rfl⟩ := mem_lines.mp h
  have hsized' : Parts.Sized ((.line n, bs) :: after) :=
    fun q hq => hsized q (List.mem_append_right _ hq)
  have hreal : (after.map Prod.fst).any Node.isReal = true := by
    by_contra hnone
    refine htrailing ⟨before.map Prod.fst, n, after.map Prod.fst, by simp, ?_⟩
    simpa using hnone
  have hstart : Parts.StartsAt ((.line n, bs) :: after) 0 := startsAt_zero hsized' hreal
  have happ : StartsAt (before ++ (.line n, bs) :: after) before.bytes.length := hstart.append
  have hlt := happ.lt hsized
  show StartsAt _ (UInt16.ofNat (0 + before.bytes.length)).toNat
  rw [Nat.zero_add, Reader.toNat_ofNat_u16 (by omega)]
  exact happ

/-- A marker without an instruction behind it gives a line number at the end of the code. -/
theorem line_at_end (hsized : parts.Sized) (hlength : parts.bytes.length ≤ 65535)
    (htrailing : TrailingLine (parts.map Prod.fst)) :
    ∃ entry ∈ parts.lines 0, entry.start.toNat = parts.bytes.length := by
  obtain ⟨front, n, back, hnodes, hmarks⟩ := htrailing
  obtain ⟨before, rest, rfl, -, hrest⟩ := List.map_eq_append_iff.mp hnodes
  obtain ⟨⟨m, bs⟩, after, rfl, hm, rfl⟩ := List.map_eq_cons_iff.mp hrest
  obtain rfl : m = .line n := hm
  have hback : bytes ((.line n, bs) :: after) = [] := by
    refine bytes_of_marks (fun q hq => hsized q (List.mem_append_right _ hq)) ?_
    rw [List.map_cons, List.any_cons, hmarks]
    rfl
  have hend : bytes (before ++ (.line n, bs) :: after) = bytes before := by
    rw [bytes_append, hback, List.append_nil]
  refine ⟨_, mem_lines.mpr ⟨before, after, n, bs, rfl, rfl⟩, ?_⟩
  rw [hend] at hlength ⊢
  show (UInt16.ofNat (0 + (bytes before).length)).toNat = _
  rw [Nat.zero_add, Reader.toNat_ofNat_u16 hlength]

end Parts

/-! ## What encoding writes down -/

variable {links : Links} {nodes : List Node} {slots : List Slot} {lay : Layout} {o : Nat}
  {bs : List UInt8}

/-- The bytes of an instruction without targets. -/
theorem ne_nil_of_settled {i : Instr Label} (hi : i.Settled links (.bytes bs)) : bs ≠ [] := by
  cases i with
  | plain op =>
    obtain rfl := Piece.bytes.inj hi
    exact List.cons_ne_nil _ _
  | int op n =>
    simp only [Instr.Settled, Piece.ofInt] at hi
    split at hi
    · split at hi
      · obtain rfl := Piece.bytes.inj (Except.ok.inj hi)
        exact List.cons_ne_nil _ _
      · cases hi
    · split at hi
      · split at hi
        · obtain rfl := Piece.bytes.inj (Except.ok.inj hi)
          exact List.cons_ne_nil _ _
        · cases hi
      · split at hi
        · obtain rfl := Piece.bytes.inj (Except.ok.inj hi)
          exact List.cons_ne_nil _ _
        · cases hi
  | var op j =>
    simp only [Instr.Settled, Piece.ofVar] at hi
    split at hi
    · obtain rfl := Piece.bytes.inj hi
      exact List.cons_ne_nil _ _
    · split at hi
      · obtain rfl := Piece.bytes.inj hi
        exact List.cons_ne_nil _ _
      · obtain rfl := Piece.bytes.inj hi
        exact List.cons_ne_nil _ _
  | increment j n =>
    simp only [Instr.Settled, Piece.ofIncrement] at hi
    split at hi
    · obtain rfl := Piece.bytes.inj hi
      exact List.cons_ne_nil _ _
    · obtain rfl := Piece.bytes.inj hi
      exact List.cons_ne_nil _ _
  | type | field | newMultiArray | invokeDynamic =>
    obtain ⟨j, hpiece, -⟩ := hi
    obtain rfl := Piece.bytes.inj hpiece
    exact List.cons_ne_nil _ _
  | method =>
    obtain ⟨j, tail, hpiece, -⟩ := hi
    obtain rfl := Piece.bytes.inj hpiece
    exact List.cons_ne_nil _ _
  | load =>
    obtain ⟨isWide, j, hpiece, -⟩ := hi
    simp only [Piece.ofLoad] at hpiece
    split at hpiece
    · obtain rfl := Piece.bytes.inj hpiece
      exact List.cons_ne_nil _ _
    · split at hpiece
      · obtain rfl := Piece.bytes.inj hpiece
        exact List.cons_ne_nil _ _
      · obtain rfl := Piece.bytes.inj hpiece
        exact List.cons_ne_nil _ _
  | jump | lookupSwitch => cases hi
  | tableSwitch => cases hi.1

/-- An entry takes up bytes if it is an instruction. -/
theorem emit_eq_nil {n : Node} {s : Slot} (hn : n.Settled links s.piece)
    (hemit : emit lay s o = .ok bs) : bs = [] ↔ n.isReal = false := by
  have hlength := length_of_emit hemit
  cases n with
  | label | line => simp [width_mark hn rfl, Node.isReal] at hlength ⊢; exact hlength
  | instr i =>
    obtain ⟨piece, wide⟩ := s
    simp only [Node.isReal, Bool.true_eq_false, iff_false]
    cases Instr.Settled.shape hn with
    | bytes htargets hbytes =>
      obtain rfl := Except.ok.inj hemit
      exact ne_nil_of_settled hbytes
    | jump op t =>
      have hpos : 0 < Slot.width o ⟨.jump op t, wide⟩ := by
        simp only [Slot.width]
        split
        · split <;> decide
        · decide
      rintro rfl
      rw [← hlength] at hpos
      cases hpos
    | tableSwitch | lookupSwitch =>
      rintro rfl
      simp only [Slot.width, List.length_nil] at hlength
      omega

/-- The entries of some code and the bytes that they were written down as. -/
theorem exists_parts {bss : List (List UInt8)}
    (hsettled : List.Forall₂ (fun n s => n.Settled links s.piece) nodes slots)
    (hemit : List.Forall₂ (fun p bs => emit lay p.1 p.2 = .ok bs) (slots.zip (offsetsFrom o slots))
      bss) :
    ∃ parts : Parts, parts.map Prod.fst = nodes ∧ parts.bytes = bss.flatten ∧ parts.Sized ∧
      ((slots.zip (offsetsFrom o slots)).filterMap fun (s, o) => lineAt s o) = parts.lines o ∧
      o + parts.bytes.length = endFrom o slots := by
  induction hsettled generalizing o bss with
  | nil =>
    cases hemit
    exact ⟨[], rfl, rfl, fun p hp => absurd hp List.not_mem_nil, rfl, rfl⟩
  | @cons n s nodes slots hn _ ih =>
    rw [offsetsFrom, List.zip_cons_cons] at hemit ⊢
    obtain ⟨bs, bss, hbs, hrest, rfl⟩ := List.forall₂_cons_left_iff.mp hemit
    obtain ⟨parts, rfl, hbytes, hsized, hlines, hend⟩ := ih hrest
    refine ⟨(n, bs) :: parts, rfl, ?_, fun p hp => ?_, ?_, ?_⟩
    · rw [Parts.bytes_cons, hbytes, List.flatten_cons]
    · rcases List.mem_cons.mp hp with rfl | hp
      · exact emit_eq_nil hn hbs
      · exact hsized p hp
    · rw [← length_of_emit hbs] at hlines
      have hline := lineAt_of_settled hn o
      rw [← length_of_emit hbs, List.filterMap_cons]
      cases n with
      | line m => simp only [hline, hlines, Parts.lines]
      | label | instr => simp only [hline, hlines, Parts.lines]
    · rw [Parts.bytes_cons, List.length_append, length_of_emit hbs, endFrom, ← hend, Nat.add_assoc]

/-- What the bytes and the line numbers of some code are made of. -/
theorem Encoding.exists_parts {range : JumpRange} {count : Nat} {e : Encoded}
    (he : Encoding links range nodes count e slots) :
    ∃ parts : Parts, parts.map Prod.fst = nodes ∧ e.bytes = parts.bytes ∧ parts.Sized ∧
      e.lines = parts.lines 0 ∧ parts.bytes.length ≤ 65535 := by
  obtain ⟨bss, hemit, hbytes⟩ := he.bytes
  obtain ⟨parts, hnodes, hparts, hsized, hlines, hend⟩ := Code.exists_parts he.settled hemit
  have hlength := he.length
  exact ⟨parts, hnodes, hbytes.trans hparts.symm, hsized, he.lines.trans hlines, by omega⟩

end Code

/-! ## Classes -/

open Code

/-- The code of a method, written down as the entries that the analysis reached. -/
structure MethodBody.WrittenAs (body : MethodBody) (ctx : WriteContext) (p : Pool)
    (code : CodeAttribute) (parts : Parts) : Prop where
  live : ∃ a, analyze ctx.method body.list p ctx.hierarchy .lenient = .ok a ∧
    parts.map Prod.fst = a.live body.list
  bytes : code.code = parts.bytes
  sized : parts.Sized
  length : parts.bytes.length ≤ 65535
  lines : ∃ table frames, code.attributes = table ++ frames ++ body.attributes ∧
    WriteContext.LinesAt p (parts.lines 0) table

namespace ClassModel

variable {c : ClassModel} {h : Hierarchy} {file : ClassFile}

theorem exists_writtenAs {ctx : WriteContext} {body : MethodBody} {s : Links}
    {code : CodeAttribute} {a a' : Analysis} {l : InstrList} {e : Encoded} {slots : List Code.Slot}
    {entries : List (Option HandlerEntry × Label)}
    (hw : WriteContext.Wrote ctx body s code a l a' e slots entries) :
    ∃ parts, body.WrittenAs ctx s.pool code parts := by
  obtain ⟨parts, hnodes, hbytes, hsized, hlines, hlength⟩ := hw.encoding.exists_parts
  obtain ⟨table, frames, hattributes, htable, -⟩ := hw.attributes
  rw [hlines] at htable
  exact ⟨parts, ⟨a, hw.pruned.analysis, hnodes.trans hw.pruned.nodes⟩, hw.bytes.trans hbytes,
    hsized, hlength, table, frames, hattributes, htable⟩

/-- The code of every method is stored as what is left of it. -/
theorem written_of_toClassFile (hpool : c.links.pool.Reachable)
    (hfile : c.toClassFile h = .ok file) :
    List.Forall₂ (fun m info => ∀ body, m.body = some body → ∃ stored code parts,
      info.attributes = stored :: m.attributes ∧ stored.Named file.pool CodeAttribute.name ∧
        stored.info = code.encode ∧
        body.WrittenAs (c.writeContext h m) file.pool code parts) c.methods file.methods := by
  obtain ⟨raw, s, hrun, rfl⟩ := toClassFile_eq_ok hfile
  refine (gives_write c.links raw s hpool hrun).2.methods.imp fun m info hm body hbody => ?_
  obtain ⟨as, hattributes, hcode⟩ := hm.attributes
  rw [hbody] at hcode
  obtain ⟨stored, code, rfl, hnamed, hinfo, a, l, a', e, slots, entries, hw⟩ := hcode
  obtain ⟨parts, hparts⟩ := exists_writtenAs hw
  exact ⟨stored, code, parts, hattributes, hnamed, hinfo, hparts⟩

/-- **Line numbers point to instructions as long as no marker is left behind the last of them.** For
every class that is written: all line numbers of a method lie inside its code and point to the start
of an instruction if and only if the entries that the analysis reached hold no line marker without
an instruction behind it. -/
theorem lines_start_instructions_iff (hpool : c.links.pool.Reachable)
    (hfile : c.toClassFile h = .ok file) :
    List.Forall₂ (fun m info => ∀ body, m.body = some body → ∃ stored code parts,
      info.attributes = stored :: m.attributes ∧ stored.Named file.pool CodeAttribute.name ∧
        stored.info = code.encode ∧ body.WrittenAs (c.writeContext h m) file.pool code parts ∧
        ((∀ entry ∈ parts.lines 0, entry.start.toNat < code.code.length ∧
          parts.StartsAt entry.start.toNat) ↔ ¬ TrailingLine (parts.map Prod.fst)))
      c.methods file.methods := by
  refine (written_of_toClassFile hpool hfile).imp fun m info hm body hbody => ?_
  obtain ⟨stored, code, parts, hattributes, hnamed, hinfo, hw⟩ := hm body hbody
  refine ⟨stored, code, parts, hattributes, hnamed, hinfo, hw, ?_⟩
  rw [hw.bytes]
  constructor
  · intro hall htrailing
    obtain ⟨entry, hentry, hend⟩ := Parts.line_at_end hw.sized hw.length htrailing
    exact Nat.ne_of_lt (hall entry hentry).1 hend
  · intro htrailing entry hentry
    have hstart := Parts.startsAt_of_mem_lines hw.sized hw.length htrailing hentry
    exact ⟨hstart.lt hw.sized, hstart⟩

/-! ## Classes with one method -/

/-- A static method that has some code and takes no arguments. -/
def voidMethod (l : InstrList) : MethodModel := ⟨9, "run", "()V", some ⟨l, 0, 0, []⟩, []⟩

/-- The class of the method. -/
def voidClass (l : InstrList) : ClassModel :=
  ⟨.java8, Access.publicSuper, "A", none, [], [], [voidMethod l], [], default⟩

theorem fits_default : (default : Links).Fits where
  pool := fun _ hc => absurd hc List.not_mem_nil
  bootstraps := ⟨Nat.zero_le _, fun _ hb => absurd hb List.not_mem_nil⟩
  table := by decide

/-- The class is written if its code needs neither constants nor handlers nor frames. -/
theorem toClassFile_voidClass {l left : InstrList} {a : Analysis} {e : Encoded}
    (hprune : ∀ s, (((voidClass l).writeContext .unknown (voidMethod l)).prune l).run.run s =
      (.ok (left, a), s))
    (hencode : ∀ s, (Code.encode left.nodes.toList left.labelCount).run.run s = (.ok e, s))
    (hblocks : left.blocks = []) (hpoints : WriteContext.framePoints left e [] = .ok [])
    (hstack : a.maxStack ≤ 65535) (hlocals : a.maxLocals ≤ 65535)
    (hsize : 20 + e.bytes.length + 4 * e.lines.length < 2 ^ 32) :
    ∃ file, (voidClass l).toClassFile .unknown = .ok file ∧ file.Fits ∧
      ((voidClass l).linksAfter .unknown).Fits := by
  have hcode : Needs (((voidClass l).writeContext .unknown (voidMethod l)).code ⟨l, 0, 0, []⟩) 1
      fun code => code.encode.length ≤ 20 + e.bytes.length + 4 * e.lines.length :=
    WriteContext.needs_code hprune hencode hblocks hpoints hstack hlocals rfl
  have hname : (Constant.utf8 "run").Fits := by decide +kernel
  have hdescriptor : (Constant.utf8 "()V").Fits := by decide +kernel
  have hclass : (Constant.utf8 "A").Fits := by decide +kernel
  have hmethod := needs_writeMethod (m := voidMethod l) rfl rfl hname hdescriptor hsize hcode
  have hmethods : Needs ([voidMethod l].mapM ((voidClass l).writeMethod .unknown)) (4 + (0 + 0))
      fun infos => infos.length ≤ 65535 ∧ ∀ info ∈ infos, Attribute.AllFit info.attributes := by
    rw [List.mapM_cons, List.mapM_nil]
    refine hmethod.bind fun info hinfo => Needs.bind (P := fun infos => infos = []) (.pure rfl) ?_
    rintro _ rfl
    exact .pure ⟨show 1 ≤ 65535 by omega, List.forall_mem_singleton.mpr hinfo⟩
  exact toClassFile_of_needs (needs_write hclass rfl rfl rfl
    (show 0 + 1 ≤ 65535 by omega) (fun _ ha => absurd ha List.not_mem_nil) hmethods) fits_default
    (show (default : Links).pool.count + 7 ≤ 65535 by decide)

/-! ## A method that returns early -/

/-- Code that returns at once, with a line number and more code behind it. -/
def returnsEarly : InstrList :=
  ⟨#[.line 3, .instr (.plain 177), .line 7, .instr (.plain 3), .instr (.plain 87)], #[], []⟩

/-- What is left of it. -/
def returnsOnly : InstrList := ⟨#[.line 3, .instr (.plain 177), .line 7], #[], []⟩

/-- The method of the code. -/
def earlyMethod : MethodModel := ⟨9, "run", "()V", some ⟨returnsEarly, 0, 0, []⟩, []⟩

/-- The class of the method. -/
def earlyClass : ClassModel :=
  ⟨.java8, Access.publicSuper, "A", none, [], [], [earlyMethod], [], default⟩

theorem analyze_returnsEarly_strict (p : Pool) :
    analyze (earlyClass.context earlyMethod) returnsEarly p .unknown .strict =
      .ok ⟨#[some ⟨[], []⟩, some ⟨[], []⟩, none, none, none], 0, 0⟩ := by
  have hrun : Work.run ⟨⟨earlyClass.context earlyMethod, returnsEarly.nodes, p, .unknown, .strict,
      none⟩, #[], []⟩ (.start 5 ⟨[], []⟩) =
        some (.ok ⟨#[some ⟨[], []⟩, some ⟨[], []⟩, none, none, none],
          #[false, false, false, false, false], [], 0, 0⟩) :=
    (Work.run_of_visit rfl rfl).trans
      ((Work.run_of_visit rfl rfl).trans (Work.run_of_pending_nil rfl))
  exact Analysis.analyze_of_run (t := ⟨[], none⟩) (by decide +kernel) rfl rfl
    (by decide +kernel) rfl hrun

theorem analyze_returnsEarly (p : Pool) :
    analyze (earlyClass.context earlyMethod) returnsEarly p .unknown .lenient =
      .ok ⟨#[some ⟨[], []⟩, some ⟨[], []⟩, none, none, none], 0, 0⟩ :=
  analyze_lenient (analyze_returnsEarly_strict p)

theorem analyze_returnsOnly (p : Pool) :
    analyze (earlyClass.context earlyMethod) returnsOnly p .unknown .lenient =
      .ok ⟨#[some ⟨[], []⟩, some ⟨[], []⟩, none], 0, 0⟩ := by
  have hrun : Work.run ⟨⟨earlyClass.context earlyMethod, returnsOnly.nodes, p, .unknown, .lenient,
      none⟩, #[], []⟩ (.start 3 ⟨[], []⟩) =
        some (.ok ⟨#[some ⟨[], []⟩, some ⟨[], []⟩, none], #[false, false, false], [], 0, 0⟩) :=
    (Work.run_of_visit rfl rfl).trans
      ((Work.run_of_visit rfl rfl).trans (Work.run_of_pending_nil rfl))
  exact Analysis.analyze_of_run (t := ⟨[], none⟩) (by decide +kernel) rfl rfl
    (by decide +kernel) rfl hrun

theorem run_prune_returnsEarly (s : Links) :
    ((earlyClass.writeContext .unknown earlyMethod).prune returnsEarly).run.run s =
      (.ok (returnsOnly, ⟨#[some ⟨[], []⟩, some ⟨[], []⟩, none], 0, 0⟩), s) := by
  refine Growing.run_bind.mpr ⟨_, s, congrArg (·, s) (analyze_returnsEarly s.pool), ?_⟩
  refine Growing.run_bind.mpr ⟨_, s, congrArg (·, s) (analyze_returnsOnly s.pool), rfl⟩

theorem run_encode_returnsOnly (s : Links) :
    (Code.encode returnsOnly.nodes.toList returnsOnly.labelCount).run.run s =
      (.ok ⟨[177], #[0, 0, 1], #[], [⟨0, 3⟩, ⟨1, 7⟩], []⟩, s) :=
  encodeWithin_eq_ok rfl rfl (by decide +kernel) (by decide +kernel)

theorem toClassFile_earlyClass : ∃ file, earlyClass.toClassFile .unknown = .ok file ∧ file.Fits ∧
    (earlyClass.linksAfter .unknown).Fits :=
  toClassFile_voidClass (l := returnsEarly) run_prune_returnsEarly run_encode_returnsOnly rfl rfl
    (Nat.zero_le _) (Nat.zero_le _) (by decide)

theorem earlyClass_lines : ∃ file, earlyClass.toClassFile .unknown = .ok file ∧
    List.Forall₂ (fun m info => ∀ body, m.body = some body → ∃ stored code parts,
      info.attributes = stored :: m.attributes ∧ stored.Named file.pool CodeAttribute.name ∧
        stored.info = code.encode ∧
        body.WrittenAs (earlyClass.writeContext .unknown m) file.pool code parts ∧
        ((∀ entry ∈ parts.lines 0, entry.start.toNat < code.code.length ∧
          parts.StartsAt entry.start.toNat) ↔ ¬ TrailingLine (parts.map Prod.fst)))
      earlyClass.methods file.methods := by
  obtain ⟨file, hfile, -, -⟩ := toClassFile_earlyClass
  exact ⟨file, hfile, lines_start_instructions_iff .refl hfile⟩

/-- The line number behind the early return points to the end of the code, not into it. -/
theorem earlyClass_line_at_end : ∃ file info stored code parts,
    earlyClass.toClassFile .unknown = .ok file ∧ file.methods = [info] ∧
      info.attributes = [stored] ∧ stored.Named file.pool CodeAttribute.name ∧
      stored.info = code.encode ∧
      MethodBody.WrittenAs ⟨returnsEarly, 0, 0, []⟩ (earlyClass.writeContext .unknown earlyMethod)
        file.pool code parts ∧
      ∃ entry ∈ parts.lines 0, ¬ entry.start.toNat < code.code.length := by
  obtain ⟨file, hfile, -, -⟩ := toClassFile_earlyClass
  obtain ⟨info, infos, hmethod, hnone, hinfos⟩ :=
    List.forall₂_cons_left_iff.mp (written_of_toClassFile (c := earlyClass) .refl hfile)
  obtain rfl := List.forall₂_nil_left_iff.mp hnone
  obtain ⟨stored, code, parts, hattributes, hnamed, hinfo, hw⟩ := hmethod _ rfl
  obtain ⟨a, ha, hparts⟩ := hw.live
  obtain rfl := Except.ok.inj (ha.symm.trans (analyze_returnsEarly file.pool))
  have htrailing : TrailingLine (parts.map Prod.fst) := by
    rw [hparts]
    exact ⟨[.line 3, .instr (.plain 177)], 7, [], rfl, rfl⟩
  obtain ⟨entry, hentry, hend⟩ := Parts.line_at_end hw.sized hw.length htrailing
  refine ⟨file, info, stored, code, parts, hfile, hinfos, hattributes, hnamed, hinfo, hw, entry,
    hentry, ?_⟩
  rw [hw.bytes, hend]
  exact Nat.lt_irrefl _

end ClassModel
end ClassWeave
