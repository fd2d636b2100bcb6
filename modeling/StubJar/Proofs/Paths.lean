import Mathlib.Data.List.DropRight
import StubJar.Settings

/-!
# Paths beside an input

Two paths are the same where their parts are: the root, and the segments that name something
(`components`). An output stands in the directory of its input, under another name
(`components_output`); it is the input itself just where the input has the extension already
(`output_eq_input_iff`). So the container of a run is written neither over the input nor over
the archive, and the archive over the input only where that is named like an archive
(`outputs_apart`).
-/

namespace StubJar.Path

/-! ## Segments -/

/-- The empty path is one empty segment. -/
theorem segments_nil : segments (String.ofList []) = [[]] := by
  rw [segments, String.toList_ofList]
  rfl

/-- A slash ends a segment. -/
theorem segments_slash (cs : List Char) :
    segments (String.ofList ('/' :: cs)) = [] :: segments (String.ofList cs) := by
  rw [segments, segments, String.toList_ofList, String.toList_ofList, List.foldr_cons]
  rfl

/-- Any other character belongs to the first segment. -/
theorem segments_cons {c : Char} (other : c ≠ '/') {cs s : List Char} {found : List (List Char)}
    (rest : segments (String.ofList cs) = s :: found) :
    segments (String.ofList (c :: cs)) = (c :: s) :: found := by
  rw [segments, String.toList_ofList] at rest ⊢
  rw [List.foldr_cons, rest]
  split
  · exact absurd rfl other
  · rename_i same
    cases same
    rfl
  · rename_i same
    cases same

/-- Every path has a segment. -/
theorem segments_ne_nil (cs : List Char) : segments (String.ofList cs) ≠ [] := by
  induction cs with
  | nil => rw [segments_nil]; nofun
  | cons c cs ih =>
    by_cases slash : c = '/'
    · rw [slash, segments_slash]
      nofun
    · obtain ⟨s, found, rest⟩ := List.exists_cons_of_ne_nil ih
      rw [segments_cons slash rest]
      nofun

/-- At a slash, a path falls into the segments of both sides. -/
theorem segments_append (cs ds : List Char) : segments (String.ofList (cs ++ '/' :: ds)) =
    segments (String.ofList cs) ++ segments (String.ofList ds) := by
  induction cs with
  | nil =>
    rw [List.nil_append, segments_slash, segments_nil]
    rfl
  | cons c cs ih =>
    by_cases slash : c = '/'
    · rw [slash, List.cons_append, segments_slash, segments_slash, ih]
      rfl
    · obtain ⟨s, found, rest⟩ := List.exists_cons_of_ne_nil (segments_ne_nil cs)
      rw [rest] at ih
      rw [segments_cons slash rest, List.cons_append, segments_cons slash ih]
      rfl

/-- Without a slash, a path is one segment. -/
theorem segments_slashless {cs : List Char} (slashless : '/' ∉ cs) :
    segments (String.ofList cs) = [cs] := by
  induction cs with
  | nil => exact segments_nil
  | cons c cs ih =>
    rw [List.mem_cons, not_or] at slashless
    exact segments_cons (Ne.symm slashless.1) (ih slashless.2)

/-- No segment has a slash. -/
theorem slashless_of_mem {cs s : List Char} (mem : s ∈ segments (String.ofList cs)) : '/' ∉ s := by
  induction cs generalizing s with
  | nil =>
    rw [segments_nil, List.mem_singleton] at mem
    rw [mem]
    nofun
  | cons c cs ih =>
    by_cases slash : c = '/'
    · rw [slash, segments_slash] at mem
      rcases List.mem_cons.mp mem with rfl | mem
      · nofun
      · exact ih mem
    · obtain ⟨t, found, rest⟩ := List.exists_cons_of_ne_nil (segments_ne_nil cs)
      rw [segments_cons slash rest] at mem
      rw [rest] at ih
      rcases List.mem_cons.mp mem with rfl | mem
      · exact List.not_mem_cons_of_ne_of_not_mem (Ne.symm slash) (ih List.mem_cons_self)
      · exact ih (List.mem_cons_of_mem _ mem)

/-- Segments are read back from the path in which they stand. -/
theorem segments_intercalate {found : List (List Char)} (nonempty : found ≠ [])
    (slashless : ∀ s ∈ found, '/' ∉ s) :
    segments (String.ofList (['/'].intercalate found)) = found := by
  induction found with
  | nil => exact absurd rfl nonempty
  | cons s found ih =>
    obtain ⟨first, others⟩ := List.forall_mem_cons.mp slashless
    cases found with
    | nil =>
      rw [List.intercalate_singleton]
      exact segments_slashless first
    | cons t found =>
      rw [List.intercalate_cons_cons, List.append_assoc, List.singleton_append, segments_append,
        segments_slashless first, ih nofun others]
      rfl

/-! ## What a path names -/

/-- The root, which no segment can be mistaken for. -/
def root : List Char := ['/']

/-- What the first of the segments stands for: the root if it is empty and others follow. -/
def lead (first : List Char) (isAlone : Bool) : List (List Char) :=
  if first ≠ [] then [first] else if isAlone then [] else [root]

/-- The parts of a path that count, of its segments: a segment that names nothing counts in
front of all others alone. -/
def parts : List (List Char) → List (List Char)
  | [] => []
  | first :: rest => lead first rest.isEmpty ++ rest.filter (!isIdle ·)

/-- The parts of a path that count. Two paths are the same if they have the same parts. -/
def components (path : String) : List (List Char) := parts (segments path)

/-- A first segment that is not empty leads the path. -/
theorem lead_of_ne_nil {first : List Char} (nonempty : first ≠ []) (isAlone : Bool) :
    lead first isAlone = [first] := if_pos nonempty

/-- A segment that says something is kept. -/
theorem filter_singleton {s : List Char} (busy : isIdle s = false) :
    [s].filter (!isIdle ·) = [s] := by
  rw [List.filter_cons, busy]
  rfl

/-- The last segment of a path is one of its parts, if it says something. -/
theorem parts_concat (first s : List Char) (rest : List (List Char)) :
    parts (first :: rest ++ [s]) =
      lead first false ++ rest.filter (!isIdle ·) ++ [s].filter (!isIdle ·) := by
  have more : (rest ++ [s]).isEmpty = false := by
    cases rest <;> rfl
  rw [List.cons_append, parts, more, List.filter_append, List.append_assoc]

/-- Only the empty path is one empty segment. -/
theorem eq_nil_of_segments {cs : List Char} (empty : segments (String.ofList cs) = [[]]) :
    cs = [] := by
  cases cs with
  | nil => rfl
  | cons c cs =>
    by_cases slash : c = '/'
    · rw [slash, segments_slash, List.cons.injEq] at empty
      exact absurd empty.2 (segments_ne_nil cs)
    · obtain ⟨s, found, rest⟩ := List.exists_cons_of_ne_nil (segments_ne_nil cs)
      rw [segments_cons slash rest] at empty
      cases empty

/-- A name behind a directory is a further part. -/
theorem components_join (directory : List Char) {name : List Char} (slashless : '/' ∉ name)
    (busy : isIdle name = false) : components (String.ofList (join directory name)) =
      components (String.ofList directory) ++ [name] := by
  have nonempty : name ≠ [] := by
    rintro rfl
    cases busy
  rw [components, components, join]
  split
  · rename_i none
    rw [List.getLast?_eq_none_iff] at none
    rw [none, segments_nil, segments_slashless slashless, parts, lead_of_ne_nil nonempty]
    rfl
  · rename_i closed
    obtain ⟨front, rfl⟩ := List.getLast?_eq_some_iff.mp closed
    obtain ⟨first, rest, same⟩ := List.exists_cons_of_ne_nil (segments_ne_nil front)
    rw [List.append_assoc, List.singleton_append, segments_append, segments_append,
      segments_slashless slashless, segments_nil, same, parts_concat, parts_concat,
      filter_singleton busy]
    exact congrArg (· ++ [name]) (List.append_nil _).symm
  · rename_i last _ found
    obtain ⟨first, rest, same⟩ := List.exists_cons_of_ne_nil (segments_ne_nil directory)
    rw [segments_append, segments_slashless slashless, same, parts_concat, parts,
      filter_singleton busy]
    cases rest with
    | nil =>
      have busy_first : first ≠ [] := by
        rintro rfl
        rw [eq_nil_of_segments same] at found
        cases found
      rw [lead_of_ne_nil busy_first, lead_of_ne_nil busy_first]
    | cons s rest => rfl

/-! ## The file that a path names -/

/-- Idle segments can be dropped before those that say something are kept. -/
theorem filter_dropWhile (found : List (List Char)) :
    (found.dropWhile isIdle).filter (!isIdle ·) = found.filter (!isIdle ·) := by
  induction found with
  | nil => rfl
  | cons s found ih =>
    rw [List.dropWhile_cons, List.filter_cons]
    cases idle : isIdle s with
    | true => exact ih
    | false =>
      simp only [Bool.false_eq_true, if_false]
      rw [List.filter_cons, idle]

/-- Trimming leaves the first segment where it is. -/
theorem trimmed_cons (first : List Char) (rest : List (List Char)) :
    trimmed (first :: rest) = first :: rest.rdropWhile isIdle := rfl

/-- Segments at the end that name nothing do not count. -/
theorem filter_rdropWhile (rest : List (List Char)) :
    (rest.rdropWhile isIdle).filter (!isIdle ·) = rest.filter (!isIdle ·) := by
  rw [List.rdropWhile, List.filter_reverse, filter_dropWhile, List.filter_reverse,
    List.reverse_reverse]

/-- No segment that is left has a slash. -/
theorem slashless_rdropWhile {first : List Char} {rest : List (List Char)}
    (slashless : ∀ s ∈ first :: rest, '/' ∉ s) :
    ∀ s ∈ first :: rest.rdropWhile isIdle, '/' ∉ s := by
  refine List.forall_mem_cons.mpr ⟨slashless first List.mem_cons_self, fun s mem => ?_⟩
  exact slashless s (List.mem_cons_of_mem _ ((List.rdropWhile_prefix isIdle rest).subset mem))

/-- The components of segments that are put together are the first and those that say
something. -/
theorem components_intercalate {first : List Char} {rest : List (List Char)}
    (slashless : ∀ s ∈ first :: rest, '/' ∉ s) :
    components (String.ofList (['/'].intercalate (first :: rest))) =
      lead first rest.isEmpty ++ rest.filter (!isIdle ·) := by
  rw [components, segments_intercalate (List.cons_ne_nil _ _) slashless, parts]

/-- The parent has the parts in front of the name of the file. -/
theorem components_parent {path : String} {first : List Char} {rest : List (List Char)}
    (front : (trimmed (segments path)).dropLast = first :: rest)
    (slashless : ∀ s ∈ first :: rest, '/' ∉ s) :
    components (String.ofList (parent path)) = lead first false ++ rest.filter (!isIdle ·) := by
  have within := slashless_rdropWhile slashless
  rw [parent, front, trimmed_cons, ← filter_rdropWhile]
  generalize rest.rdropWhile isIdle = kept at within
  cases kept with
  | nil =>
    cases first with
    | nil => rfl
    | cons c first =>
      dsimp only
      rw [components_intercalate within, lead_of_ne_nil (List.cons_ne_nil _ _),
        lead_of_ne_nil (List.cons_ne_nil _ _)]
  | cons s kept =>
    cases first with
    | nil | cons c first => exact components_intercalate within

/-- A path that names a file is the file in its parent. -/
theorem components_of_fileName? {path : String} {n : List Char} (named : fileName? path = some n) :
    '/' ∉ n ∧ isIdle n = false ∧ n ≠ ['.', '.']
      ∧ components path = components (String.ofList (parent path)) ++ [n] := by
  obtain ⟨cs, rfl⟩ : ∃ cs, path = String.ofList cs := ⟨path.toList, String.ofList_toList.symm⟩
  have slashless := fun s (mem : s ∈ segments (String.ofList cs)) => slashless_of_mem mem
  obtain ⟨first, rest, same⟩ := List.exists_cons_of_ne_nil (segments_ne_nil cs)
  rw [same] at slashless
  have front : trimmed (segments (String.ofList cs)) = first :: rest.rdropWhile isIdle := by
    rw [same, trimmed_cons]
  rw [fileName?, front] at named
  have last : (first :: rest.rdropWhile isIdle).getLast? = some n
      ∧ isIdle n = false ∧ n ≠ ['.', '.'] := by
    split at named
    · split at named
      · cases named
      · rename_i found busy
        cases named
        rw [Bool.or_eq_true, not_or, Bool.not_eq_true, beq_iff_eq] at busy
        exact ⟨found, busy⟩
    · cases named
  obtain ⟨found, busy, down⟩ := last
  have within := slashless_rdropWhile slashless
  refine ⟨within n (List.mem_of_getLast? found), busy, down, ?_⟩
  rw [components, same, parts, ← filter_rdropWhile rest]
  rcases List.eq_nil_or_concat' (rest.rdropWhile isIdle) with none | ⟨before, x, behind⟩
  · rw [none] at front found ⊢
    cases found
    have nonempty : first ≠ [] := by
      rintro rfl
      cases busy
    rw [parent, front, lead_of_ne_nil nonempty]
    rfl
  · rw [behind] at front found within ⊢
    obtain rfl : x = n :=
      Option.some.inj ((List.getLast?_concat (l := first :: before)).symm.trans found)
    have before_last : (trimmed (segments (String.ofList cs))).dropLast = first :: before := by
      rw [front, ← List.cons_append, List.dropLast_concat]
    have more : rest.isEmpty = false := by
      cases rest with
      | nil =>
        exact absurd behind (List.append_ne_nil_of_right_ne_nil _ (List.cons_ne_nil _ _)).symm
      | cons s rest => rfl
    have within_front (s : List Char) (mem : s ∈ first :: before) : '/' ∉ s :=
      within s (List.mem_append_left [x] mem)
    rw [components_parent before_last within_front, more, List.filter_append,
      filter_singleton busy, List.append_assoc]

/-! ## Names of outputs -/

/-- The name that an output has, given the stem of its input. -/
def outputName (stem : List Char) (extension : String) : List Char :=
  stem ++ '.' :: extension.toList

/-- The stem ends in front of the last dot. -/
theorem stem_append {s extension : List Char} (nonempty : s ≠ []) (plain : '.' ∉ extension) :
    stem (s ++ '.' :: extension) = s := by
  have skipped : ∀ c ∈ extension.reverse, (c != '.') = true := by
    intro c mem
    refine bne_iff_ne.mpr ?_
    rintro rfl
    exact plain (List.mem_reverse.mp mem)
  have found : (s ++ '.' :: extension).reverse.dropWhile (· != '.') = '.' :: s.reverse := by
    rw [List.reverse_append, List.reverse_cons, List.append_assoc,
      List.dropWhile_append_of_pos skipped, List.singleton_append, List.dropWhile_cons]
    rfl
  rw [stem, found]
  dsimp only
  rw [if_neg (by simpa using nonempty), List.reverse_reverse]

/-- A name is its own stem, or its stem, a dot and an extension without one. -/
theorem stem_cases (n : List Char) : stem n = n
    ∨ stem n ≠ [] ∧ ∃ extension, '.' ∉ extension ∧ n = stem n ++ '.' :: extension := by
  have whole := List.takeWhile_append_dropWhile (p := (· != '.')) (l := n.reverse)
  have stops := List.head?_dropWhile_not (· != '.') n.reverse
  rw [stem]
  split
  · rename_i dot before found
    rw [found] at whole stops
    obtain rfl : dot = '.' := by simpa using stops
    split
    · exact .inl rfl
    · rename_i nonempty
      refine .inr ⟨by simpa using nonempty, (n.reverse.takeWhile (· != '.')).reverse, ?_, ?_⟩
      · intro mem
        have other := List.mem_takeWhile_imp (List.mem_reverse.mp mem)
        cases other
      · apply List.reverse_inj.mp
        rw [List.reverse_append, List.reverse_cons, List.reverse_reverse, List.reverse_reverse,
          List.append_assoc, List.singleton_append, whole]
  · exact .inl rfl

/-- A file has the name of an output beside it if the extension is its own. -/
theorem outputName_stem_iff {n : List Char} {extension : String} :
    outputName (stem n) extension = n ↔
      '.' ∉ extension.toList ∧ ∃ s, s ≠ [] ∧ n = outputName s extension := by
  constructor
  · intro same
    rcases stem_cases n with whole | ⟨nonempty, own, plain, whole⟩
    · rw [whole, outputName] at same
      have longer := congrArg List.length same
      simp at longer
    · rw [outputName] at same
      have extension_own := List.append_cancel_left (same.trans whole)
      rw [List.cons.injEq] at extension_own
      rw [← extension_own.2] at plain
      exact ⟨plain, stem n, nonempty, same.symm⟩
  · rintro ⟨plain, s, nonempty, rfl⟩
    rw [outputName, outputName, stem_append nonempty plain]

/-- Outputs of the same stem with different extensions have different names. -/
theorem outputName_injective {stem : List Char} {e e' : String}
    (same : outputName stem e = outputName stem e') : e = e' := by
  rw [outputName, outputName] at same
  exact String.toList_inj.mp (List.cons.inj (List.append_cancel_left same)).2

/-- The stem of a name is not empty. -/
theorem stem_ne_nil {n : List Char} (nonempty : n ≠ []) : stem n ≠ [] := by
  rcases stem_cases n with whole | ⟨stem_some, _⟩
  · rwa [whole]
  · exact stem_some

/-- The stem has no characters but those of the name. -/
theorem mem_of_mem_stem {n : List Char} {c : Char} (mem : c ∈ stem n) : c ∈ n := by
  rcases stem_cases n with whole | ⟨_, extension, _, whole⟩
  · rwa [whole] at mem
  · rw [whole]
    exact List.mem_append_left _ mem

/-- The name of an output says something. -/
theorem isIdle_outputName {stem : List Char} (nonempty : stem ≠ []) (extension : String) :
    isIdle (outputName stem extension) = false := by
  cases stem with
  | nil => exact absurd rfl nonempty
  | cons c stem =>
    rw [isIdle, Bool.or_eq_false_iff, beq_eq_false_iff_ne, beq_eq_false_iff_ne, outputName]
    refine ⟨List.cons_ne_nil _ _, fun same => ?_⟩
    exact List.append_ne_nil_of_right_ne_nil stem (List.cons_ne_nil _ _) (List.cons.inj same).2

/-- It has no slash, if neither of its pieces has one. -/
theorem slashless_outputName {stem : List Char} {extension : String} (front : '/' ∉ stem)
    (behind : '/' ∉ extension.toList) : '/' ∉ outputName stem extension := by
  rw [outputName, List.mem_append, List.mem_cons, not_or, not_or]
  exact ⟨front, by decide, behind⟩

/-! ## Outputs -/

/-- An output stands where its input does, under a name made of the stem of the input. An input
that names no file is the directory of its outputs. -/
theorem components_output (input : String) : ∃ front name, name ≠ []
    ∧ (∀ extension : String, '/' ∉ extension.toList →
      components (output input extension) = front ++ [outputName name extension])
    ∧ ((∃ n, fileName? input = some n ∧ name = stem n ∧ components input = front ++ [n])
      ∨ fileName? input = none ∧ components input = front) := by
  cases named : fileName? input with
  | some n =>
    obtain ⟨plain, busy, _, whole⟩ := components_of_fileName? named
    have nonempty : n ≠ [] := by
      rintro rfl
      cases busy
    refine ⟨_, stem n, stem_ne_nil nonempty, fun extension slashless => ?_,
      .inl ⟨n, rfl, rfl, whole⟩⟩
    rw [output, withFileName, named]
    exact components_join _ (slashless_outputName (mt mem_of_mem_stem plain) slashless)
      (isIdle_outputName (stem_ne_nil nonempty) extension)
  | none =>
    refine ⟨_, defaultStem, by decide, fun extension slashless => ?_, .inr ⟨rfl, rfl⟩⟩
    have joined := components_join input.toList
      (slashless_outputName (show '/' ∉ defaultStem by decide) slashless)
      (isIdle_outputName (show defaultStem ≠ [] by decide) extension)
    rw [String.ofList_toList] at joined
    rw [output, withFileName, named]
    exact joined

/-- An output is its input where the input has the extension of the output. -/
theorem output_eq_input_iff {input extension : String} (slashless : '/' ∉ extension.toList) :
    components (output input extension) = components input ↔ '.' ∉ extension.toList
      ∧ ∃ s, s ≠ [] ∧ fileName? input = some (outputName s extension) := by
  obtain ⟨front, name, _, beside, ⟨n, named, rfl, whole⟩ | ⟨none, whole⟩⟩ :=
    components_output input
  · rw [beside extension slashless, whole, List.append_right_inj, List.cons.injEq,
      and_iff_left rfl, outputName_stem_iff, named]
    simp only [Option.some.injEq]
  · rw [beside extension slashless, whole, none, List.append_right_eq_self]
    constructor
    · nofun
    · rintro ⟨_, s, _, same⟩
      cases same

/-- Outputs with different extensions are different. -/
theorem output_injective {input e e' : String} (slashless : '/' ∉ e.toList)
    (slashless' : '/' ∉ e'.toList)
    (same : components (output input e) = components (output input e')) : e = e' := by
  obtain ⟨front, name, _, beside, _⟩ := components_output input
  rw [beside e slashless, beside e' slashless', List.append_right_inj, List.cons.injEq] at same
  exact outputName_injective same.1

end StubJar.Path

namespace StubJar.Settings

open StubJar.Path

/-- Where nothing is said about outputs, the container is written neither over the input nor
over the archive, and the archive over the input only if that is named like an archive. -/
theorem outputs_apart (s : Settings) (unsaid : s.output = none) :
    components s.containerPath ≠ components s.input
    ∧ components s.containerPath ≠ components s.archivePath
    ∧ (components s.archivePath = components s.input ↔
      ∃ stem, stem ≠ [] ∧ fileName? s.input = some (outputName stem "jar")) := by
  rw [archivePath, unsaid, containerPath, Option.getD_none]
  refine ⟨fun same => ?_, fun same => ?_, ?_⟩
  · have plain := ((output_eq_input_iff (by decide)).mp same).1
    exact absurd (by decide : '.' ∈ "stub.dex".toList) plain
  · have collides := output_injective (by decide) (by decide) same
    revert collides
    decide
  · rw [output_eq_input_iff (by decide)]
    exact and_iff_right (by decide)

/-- The archive of an input that is named like one. -/
example : (ofInput "dir//app.jar").archivePath = "dir/app.jar"
    ∧ components "dir/app.jar" = components "dir//app.jar" := by decide

end StubJar.Settings
