import Mathlib.Data.List.Basic
import ClassWeave.Proofs.Results
import ClassWeave.Transform.Pipeline

/-!
# Where exported classes go

A path is followed component by component. The name of a class is accepted exactly if each of its
segments is one component that names something, so that the path of its file goes on from the
directory by these names and never leads up or back to the root. Different classes have different
paths. A name that is not accepted is refused before anything is done.
-/

namespace ClassWeave

namespace Path

/-- What a path leads through. -/
inductive Component where
  /-- The root directory, which only a slash in front leads to. -/
  | root
  /-- The directory that the path starts from, where a dot in front names it. -/
  | here
  /-- The directory above. -/
  | above
  | name (text : String)
deriving Repr, DecidableEq

/-- The component that a segment stands for; an empty segment and a dot lead nowhere. -/
def Component.ofSegment? (s : String) : Option Component :=
  if s = "" ∨ s = "." then none else if s = ".." then some above else some (name s)

/-- What stands in front of all that segments stand for. -/
def lead (path : String) : List Component :=
  if path.toList.head? = some '/' then [.root]
  else if (segments path).head? = some "." then [.here]
  else []

/-- What a path leads through, in order. -/
def components (path : String) : List Component :=
  lead path ++ (segments path).filterMap Component.ofSegment?

/-! ## Segments -/

theorem split_ne_nil (cs : List Char) : split cs ≠ [] := by
  cases cs with
  | nil => exact List.cons_ne_nil _ _
  | cons c cs =>
    unfold split
    split
    · exact List.cons_ne_nil _ _
    · split <;> exact List.cons_ne_nil _ _

/-- A character that is no slash belongs to the first segment. -/
theorem split_cons {c : Char} (hc : c ≠ '/') (cs : List Char) :
    ∃ s rest, split cs = s :: rest ∧ split (c :: cs) = (c :: s) :: rest := by
  cases hcs : split cs with
  | nil => exact absurd hcs (split_ne_nil cs)
  | cons s rest =>
    refine ⟨s, rest, rfl, ?_⟩
    rw [split, if_neg hc, hcs]

theorem split_slash (xs ys : List Char) : split (xs ++ '/' :: ys) = split xs ++ split ys := by
  induction xs with
  | nil => rfl
  | cons c xs ih =>
    by_cases hc : c = '/'
    · rw [List.cons_append, split, if_pos hc, split, if_pos hc, ih, List.cons_append]
    · obtain ⟨s, rest, hxs, hcons⟩ := split_cons hc xs
      rw [hxs] at ih
      rw [List.cons_append, split, if_neg hc, ih, hcons]
      rfl

/-- What holds no slash goes to the last segment. -/
theorem split_append {ys : List Char} (hys : '/' ∉ ys) (xs : List Char) :
    ∃ front last, split xs = front ++ [last] ∧ split (xs ++ ys) = front ++ [last ++ ys] := by
  have hsingle : split ys = [ys] := by
    induction ys with
    | nil => rfl
    | cons c ys ih =>
      rw [List.mem_cons, not_or] at hys
      rw [split, if_neg (Ne.symm hys.1), ih hys.2]
  induction xs with
  | nil => exact ⟨[], [], rfl, hsingle⟩
  | cons c xs ih =>
    obtain ⟨front, last, hxs, happ⟩ := ih
    by_cases hc : c = '/'
    · refine ⟨[] :: front, last, ?_, ?_⟩
      · rw [split, if_pos hc, hxs, List.cons_append]
      · rw [List.cons_append, split, if_pos hc, happ, List.cons_append]
    · rw [List.cons_append, split, split, if_neg hc, if_neg hc, hxs, happ]
      cases front with
      | nil => exact ⟨[], c :: last, rfl, rfl⟩
      | cons s front => exact ⟨(c :: s) :: front, last, rfl, rfl⟩

theorem not_mem_of_mem_split {cs s : List Char} (hs : s ∈ split cs) : '/' ∉ s := by
  induction cs generalizing s with
  | nil =>
    obtain rfl := List.mem_singleton.mp hs
    exact List.not_mem_nil
  | cons c cs ih =>
    by_cases hc : c = '/'
    · rw [split, if_pos hc, List.mem_cons] at hs
      rcases hs with rfl | hs
      · exact List.not_mem_nil
      · exact ih hs
    · obtain ⟨first, rest, hcs, hcons⟩ := split_cons hc cs
      rw [hcons, List.mem_cons] at hs
      rw [hcs] at ih
      rcases hs with rfl | hs
      · rw [List.mem_cons, not_or]
        exact ⟨Ne.symm hc, ih List.mem_cons_self⟩
      · exact ih (List.mem_cons_of_mem _ hs)

/-- A text is known by its segments. -/
theorem split_injective : Function.Injective split := by
  have hback : ∀ cs, ['/'].intercalate (split cs) = cs := by
    intro cs
    induction cs with
    | nil => rfl
    | cons c cs ih =>
      by_cases hc : c = '/'
      · rw [split, if_pos hc, hc]
        cases hcs : split cs with
        | nil => exact absurd hcs (split_ne_nil cs)
        | cons s rest =>
          rw [hcs] at ih
          rw [← ih]
          rfl
      · obtain ⟨s, rest, hcs, hcons⟩ := split_cons hc cs
        rw [hcs] at ih
        rw [hcons, ← ih]
        cases rest <;> rfl
  exact Function.LeftInverse.injective hback

theorem segments_injective : Function.Injective segments := by
  intro a b hab
  have hsplit := List.map_injective_iff.mpr (fun _ _ => String.ofList_inj.mp) hab
  exact String.toList_inj.mp (split_injective hsplit)

theorem segments_append {suffix : String} (hsuffix : '/' ∉ suffix.toList) (path : String) :
    ∃ front last, segments path = front ++ [last] ∧
      segments (path ++ suffix) = front ++ [last ++ suffix] := by
  obtain ⟨front, last, hpath, happ⟩ := split_append hsuffix path.toList
  refine ⟨front.map String.ofList, String.ofList last, ?_, ?_⟩
  · rw [segments, hpath, List.map_append]
    rfl
  · rw [segments, String.toList_append, happ, List.map_append, List.map_singleton,
      String.ofList_append, String.ofList_toList]

/-- A segment holds no slash, so it leads through one component at most. -/
theorem components_segment {path s : String} (hs : s ∈ segments path) :
    components s = if s = "." then [.here] else (Component.ofSegment? s).toList := by
  obtain ⟨cs, hcs, rfl⟩ := List.mem_map.mp hs
  have hslash : '/' ∉ cs := not_mem_of_mem_split hcs
  obtain ⟨front, last, hnil, happ⟩ := split_append hslash []
  obtain ⟨rfl, rfl⟩ : front = [] ∧ last = [] := by
    cases front with
    | nil => exact ⟨rfl, (List.cons.inj hnil).1.symm⟩
    | cons x front => cases front <;> cases hnil
  have hsingle : segments (String.ofList cs) = [String.ofList cs] := by
    rw [segments, String.toList_ofList, show split cs = [cs] from happ]
    rfl
  have hhead : cs.head? ≠ some '/' := fun hc => hslash (List.mem_of_head? hc)
  rw [components, lead, hsingle, String.toList_ofList, if_neg hhead]
  simp only [List.head?_cons, Option.some.injEq, List.filterMap_cons, List.filterMap_nil]
  by_cases hdot : String.ofList cs = "."
  · rw [if_pos hdot, if_pos hdot, hdot]
    rfl
  · rw [if_neg hdot, if_neg hdot]
    cases Component.ofSegment? (String.ofList cs) <;> rfl

theorem isName_iff {s : String} : isName s ↔ s ≠ "" ∧ s ≠ "." ∧ s ≠ ".." := by
  simp [isName, and_assoc]

theorem ofSegment?_of_isName {s : String} (hs : isName s) :
    Component.ofSegment? s = some (.name s) := by
  obtain ⟨hempty, hdot, hdots⟩ := isName_iff.mp hs
  rw [Component.ofSegment?, if_neg (not_or.mpr ⟨hempty, hdot⟩), if_neg hdots]

/-- **A segment is one component with a name exactly if it is the name of something.** -/
theorem isName_iff_components {path s : String} (hs : s ∈ segments path) :
    isName s ↔ ∃ n, components s = [.name n] := by
  rw [components_segment hs]
  constructor
  · intro hname
    refine ⟨s, ?_⟩
    rw [if_neg (isName_iff.mp hname).2.1, ofSegment?_of_isName hname]
    rfl
  · rintro ⟨n, hn⟩
    have hnot : ∀ s' ∈ ["", ".", ".."], ∀ n,
        (if s' = "." then [.here] else (Component.ofSegment? s').toList) ≠ [.name n] := by
      simp [Component.ofSegment?]
    rw [isName_iff]
    refine ⟨?_, ?_, ?_⟩ <;> rintro rfl <;> exact hnot _ (by simp) n hn

/-! ## Paths below a directory -/

theorem join_empty (path : String) : join "" path = path := by
  rw [join, if_pos (.inl rfl), String.empty_append]

theorem exists_join_eq (directory path : String) :
    ∃ rest, join directory path = directory ++ rest := by
  unfold join
  split
  · exact ⟨path, rfl⟩
  · exact ⟨"/" ++ path, String.append_assoc⟩

theorem head?_join {directory : String} (hne : directory ≠ "") (path : String) :
    (join directory path).toList.head? = directory.toList.head? := by
  obtain ⟨rest, hrest⟩ := exists_join_eq directory path
  rw [hrest, String.toList_append]
  cases hdirectory : directory.toList with
  | nil => exact absurd (String.toList_inj.mp hdirectory) hne
  | cons => rfl

/-- The segments of a path come behind those of the directory, of which an empty one at the end is
left out. -/
theorem segments_join {directory : String} (hne : directory ≠ "") (path : String) :
    ∃ front ending, front ≠ [] ∧ (ending = [] ∨ ending = [""]) ∧
      segments directory = front ++ ending ∧
      segments (join directory path) = front ++ segments path := by
  have hfront : ∀ xs, (split xs).map String.ofList ≠ [] := fun xs h =>
    split_ne_nil xs (List.map_eq_nil_iff.mp h)
  by_cases hslash : directory.toList.getLast? = some '/'
  · obtain ⟨xs, hxs⟩ := List.getLast?_eq_some_iff.mp hslash
    refine ⟨_, [""], hfront xs, .inr rfl, ?_, ?_⟩
    · rw [segments, hxs, split_slash, List.map_append]
      rfl
    · rw [segments, join, if_pos (.inr hslash), String.toList_append, hxs, List.append_assoc,
        List.singleton_append, split_slash, List.map_append]
      rfl
  · refine ⟨_, [], hfront directory.toList, .inl rfl, (List.append_nil _).symm, ?_⟩
    have hchars : (directory ++ "/" ++ path).toList = directory.toList ++ '/' :: path.toList := by
      rw [String.toList_append, String.toList_append, List.append_assoc]
      rfl
    rw [segments, join, if_neg (not_or.mpr ⟨hne, hslash⟩), hchars, split_slash, List.map_append]
    rfl

/-- **What names something goes on from the directory.** -/
theorem components_join {path : String} (hnames : ∀ s ∈ segments path, isName s)
    (directory : String) :
    components (join directory path) =
      components directory ++ (segments path).map Component.name := by
  have hpath : (segments path).filterMap Component.ofSegment? =
      (segments path).map Component.name := by
    rw [← List.filterMap_eq_map]
    exact List.filterMap_congr fun s hs => ofSegment?_of_isName (hnames s hs)
  by_cases hne : directory = ""
  · -- there is no directory, and the path has nothing in front of its names
    have hlead : lead path = [] := by
      cases hparts : segments path with
      | nil => exact absurd (List.map_eq_nil_iff.mp hparts) (split_ne_nil _)
      | cons first rest =>
        have hfirst := isName_iff.mp (hnames first (hparts ▸ List.mem_cons_self))
        have hslash : path.toList.head? ≠ some '/' := by
          intro hhead
          obtain ⟨cs, hcs⟩ := List.head?_eq_some_iff.mp hhead
          rw [segments, hcs, split, if_pos rfl, List.map_cons, List.cons.injEq] at hparts
          exact hfirst.1 hparts.1.symm
        rw [lead, if_neg hslash, hparts, List.head?_cons, if_neg]
        exact fun hdot => hfirst.2.1 (Option.some.inj hdot)
    rw [hne, join_empty, components, hlead, hpath]
    rfl
  · obtain ⟨front, ending, hfront, hending, hsegments, hjoin⟩ := segments_join hne path
    have hlead : lead (join directory path) = lead directory := by
      rw [lead, lead, head?_join hne, hjoin, hsegments]
      cases front with
      | nil => exact absurd rfl hfront
      | cons => rfl
    have hnothing : ending.filterMap Component.ofSegment? = [] := by
      rcases hending with rfl | rfl <;> rfl
    rw [components, components, hlead, hsegments, hjoin, List.filterMap_append,
      List.filterMap_append, hpath, hnothing, List.append_nil, List.append_assoc]

end Path

namespace FileTree

open ClassWeave.Path

variable {t : FileTree} {p q r : Place}

/-- A path that goes on leads through a directory. -/
theorem follow_cons_eq_ok {x : String} {xs : List String} (hxs : xs ≠ []) :
    t.follow p (x :: xs) = .ok r ↔
      ∃ q, step p x = .ok q ∧ t.isDirectory q ∧ t.follow q xs = .ok r := by
  obtain ⟨y, ys, rfl⟩ := List.exists_cons_of_ne_nil hxs
  simp only [follow, bind_eq_ok]
  refine exists_congr fun q => and_congr_right fun _ => ?_
  by_cases hq : t.isDirectory q
  · simp [hq]
  · rw [if_neg hq]
    constructor
    · intro h
      split at h <;> exact absurd h throw_ne_ok
    · exact fun h => absurd h.1 hq

theorem follow_append_eq_ok {xs ys : List String} (hxs : xs ≠ []) (hys : ys ≠ []) :
    t.follow p (xs ++ ys) = .ok r ↔
      ∃ q, t.follow p xs = .ok q ∧ t.isDirectory q ∧ t.follow q ys = .ok r := by
  induction xs generalizing p with
  | nil => exact absurd rfl hxs
  | cons x xs ih =>
    by_cases hrest : xs = []
    · subst hrest
      exact follow_cons_eq_ok hys
    · rw [List.cons_append, follow_cons_eq_ok (List.append_ne_nil_of_left_ne_nil hrest ys)]
      simp only [follow_cons_eq_ok hrest, ih hrest]
      constructor
      · rintro ⟨o, hstep, ho, q, hq, hys⟩
        exact ⟨q, ⟨o, hstep, ho, hq⟩, hys⟩
      · rintro ⟨q, ⟨o, hstep, ho, hq⟩, hys⟩
        exact ⟨o, hstep, ho, q, hq, hys⟩

/-- Names lead down, one after the other. -/
theorem follow_names {names : List String} (hnames : ∀ s ∈ names, isName s)
    (h : t.follow p names = .ok r) : r = p ++ names := by
  have hstep : ∀ {p q : Place} {s : String}, isName s → step p s = .ok q → q = p ++ [s] := by
    intro p q s hs hq
    obtain ⟨hempty, hdot, hdots⟩ := isName_iff.mp hs
    rw [step, if_neg (not_or.mpr ⟨hempty, hdot⟩), if_neg hdots] at hq
    split at hq
    · cases hq
    · exact (Except.ok.inj hq).symm
  induction names generalizing p with
  | nil =>
    rw [List.append_nil]
    exact (Except.ok.inj h).symm
  | cons s names ih =>
    by_cases hrest : names = []
    · subst hrest
      exact hstep (hnames s List.mem_cons_self) h
    · obtain ⟨q, hq, -, h⟩ := (follow_cons_eq_ok hrest).mp h
      rw [ih (fun s' hs' => hnames s' (List.mem_cons_of_mem _ hs')) h,
        hstep (hnames s List.mem_cons_self) hq, List.append_assoc]
      rfl

theorem start_eq_ok {path : String} : start path = .ok p ↔
    '\x00' ∉ path.toList ∧ path ≠ "" ∧ path.utf8ByteSize < 4096 ∧
      p = if path.toList.head? = some '/' then ["/"] else [] := by
  unfold start
  simp only [List.contains_iff_mem]
  by_cases hnul : '\x00' ∈ path.toList
  · simp [hnul]
  by_cases hempty : path = ""
  · simp [hempty]
  by_cases hlong : 4096 ≤ path.utf8ByteSize
  · simp [hnul, hempty, hlong, Nat.not_lt.mpr hlong]
  · rw [if_neg hnul, if_neg hempty, if_neg hlong]
    have hshort := Nat.lt_of_not_le hlong
    by_cases hslash : path.toList.head? = some '/'
    · simp [hslash, hnul, hempty, hshort, eq_comm]
    · simp [hslash, hnul, hempty, hshort, eq_comm]

/-- **A path that names something leads to a place below its directory**, where the names say. -/
theorem locate_join {directory path : String} (hne : directory ≠ "")
    (hnames : ∀ s ∈ segments path, isName s) (h : t.locate (join directory path) = .ok r) :
    ∃ base, t.locate directory = .ok base ∧ r = base ++ segments path := by
  obtain ⟨p, hstart, hfollow⟩ := bind_eq_ok.mp h
  obtain ⟨front, ending, hfront, hending, hsegments, hjoin⟩ := segments_join hne path
  have hpath : segments path ≠ [] := fun hnil => split_ne_nil _ (List.map_eq_nil_iff.mp hnil)
  rw [hjoin, follow_append_eq_ok hfront hpath] at hfollow
  obtain ⟨base, hbase, hdirectory, hnamed⟩ := hfollow
  refine ⟨base, bind_eq_ok.mpr ⟨p, ?_, ?_⟩, follow_names hnames hnamed⟩
  · rw [start_eq_ok, head?_join hne] at hstart
    obtain ⟨hnul, -, hsize, hp⟩ := hstart
    obtain ⟨rest, hrest⟩ := exists_join_eq directory path
    rw [hrest, String.toList_append, List.mem_append, not_or] at hnul
    rw [hrest, String.utf8ByteSize_append] at hsize
    exact start_eq_ok.mpr ⟨hnul.1, hne, by omega, hp⟩
  · rw [hsegments]
    rcases hending with rfl | rfl
    · rwa [List.append_nil]
    · exact (follow_append_eq_ok hfront (List.cons_ne_nil _ _)).mpr ⟨base, hbase, hdirectory, rfl⟩

end FileTree

namespace Export

open ClassWeave.Path

variable {directory cls path : String}

theorem classPath_eq_ok : classPath directory cls = .ok path ↔
    (∀ s ∈ segments cls, isName s) ∧ path = join directory (cls ++ ".class") := by
  unfold classPath
  simp only [List.all_eq_true]
  by_cases hnames : ∀ s ∈ segments cls, isName s
  · rw [if_pos hnames, Except.ok.injEq]
    exact ⟨fun h => ⟨hnames, h.symm⟩, fun h => h.2.symm⟩
  · rw [if_neg hnames]
    exact ⟨fun h => (nomatch h), fun h => absurd h.1 hnames⟩

theorem classPath_eq_error {e : FileError} (h : classPath directory cls = .error e) :
    e = .badClassName cls := by
  unfold classPath at h
  split at h
  · cases h
  · exact (Except.error.inj h).symm

/-- The names that lead to the file of a class. -/
theorem segments_classFile (hnames : ∀ s ∈ segments cls, isName s) :
    ∃ front last, segments cls = front ++ [last] ∧
      segments (cls ++ ".class") = front ++ [last ++ ".class"] ∧
      ∀ s ∈ segments (cls ++ ".class"), isName s := by
  have hsuffix : '/' ∉ ".class".toList := by decide
  obtain ⟨front, last, hcls, hfile⟩ := segments_append hsuffix cls
  refine ⟨front, last, hcls, hfile, fun s hs => ?_⟩
  rw [hfile, List.mem_append, List.mem_singleton] at hs
  rcases hs with hs | rfl
  · exact hnames s (hcls ▸ List.mem_append_left _ hs)
  · -- a text that ends like this is longer than all that name nothing
    have hlong : 6 ≤ (last ++ ".class").length := by
      rw [String.length_append]
      exact Nat.le_add_left _ _
    refine isName_iff.mpr ⟨?_, ?_, ?_⟩ <;> intro hs <;> rw [hs] at hlong <;> revert hlong <;> decide

/-- **Exported classes stay below the directory and never collide.** A name is accepted exactly if
each of its segments is one component with a name. The path then goes on from the directory by these
names, and leads to a place below that of the directory, wherever that is; the paths of different
classes differ in their components. A name that is refused leaves everything as it was. -/
theorem exports_below (directory cls : String) :
    ((∃ path, classPath directory cls = .ok path) ↔
      ∀ s ∈ segments cls, ∃ n, components s = [.name n]) ∧
    (∀ path, classPath directory cls = .ok path → ∃ front last, segments cls = front ++ [last] ∧
      components path =
        components directory ++ (front ++ [last ++ ".class"]).map Component.name ∧
      ∀ (t : FileTree) place, directory ≠ "" → t.locate path = .ok place →
        ∃ base, t.locate directory = .ok base ∧ place = base ++ (front ++ [last ++ ".class"])) ∧
    (∀ other path path', classPath directory cls = .ok path →
      classPath directory other = .ok path' → cls ≠ other → components path ≠ components path') ∧
    ∀ e, classPath directory cls = .error e → e = .badClassName cls ∧
      ∀ bytes s, (Pipeline.writeExport directory cls bytes).run.run s = (.error e, s) := by
  refine ⟨?_, fun path hpath => ?_, fun other path path' hpath hpath' hne heq => ?_,
    fun e he => ⟨classPath_eq_error he, fun bytes s => ?_⟩⟩
  · simp only [classPath_eq_ok, exists_and_left, exists_eq, and_true]
    exact forall₂_congr fun s hs => isName_iff_components hs
  · obtain ⟨hnames, rfl⟩ := classPath_eq_ok.mp hpath
    obtain ⟨front, last, hcls, hfile, hnamed⟩ := segments_classFile hnames
    refine ⟨front, last, hcls, ?_, fun t place hne hplace => ?_⟩
    · rw [components_join hnamed, hfile]
    · rw [← hfile]
      exact FileTree.locate_join hne hnamed hplace
  · obtain ⟨hnames, rfl⟩ := classPath_eq_ok.mp hpath
    obtain ⟨hnames', rfl⟩ := classPath_eq_ok.mp hpath'
    obtain ⟨-, -, -, -, hnamed⟩ := segments_classFile hnames
    obtain ⟨-, -, -, -, hnamed'⟩ := segments_classFile hnames'
    rw [components_join hnamed, components_join hnamed'] at heq
    have hinj : Function.Injective Component.name := fun _ _ => Component.name.inj
    have hfiles := segments_injective (List.map_injective_iff.mpr hinj (List.append_cancel_left heq))
    exact hne (String.append_left_inj _ |>.mp hfiles)
  · rw [Pipeline.writeExport, he]
    rfl

end Export
end ClassWeave
