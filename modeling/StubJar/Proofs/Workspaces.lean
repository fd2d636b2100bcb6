import StubJar.Proofs.Paths
import StubJar.Proofs.Success
import StubJar.Workspace

/-!
# What a run does to its input

A run of the program writes the container and the archive and leaves all other files as they
are (`writeAll_other`). Where nothing is said about outputs, its input is among the others
(`run_keeps_input`) unless it is named like an archive; then a run that succeeds has put the
archive in its place (`run_replaces_input`).

A path that is found leads to a place that its parts alone decide, however the directories are
looked up (`locate?_eq_some`). So what is known of the parts of outputs is known of their places.
-/

namespace StubJar.Workspace

open StubJar.Path

/-! ## Places -/

/-- Where a segment leads from a directory. -/
def step (here : List String) (segment : String) : Option (List String) :=
  if segment == "" || segment == "." then some here
  else if segment == ".." then if here.isEmpty then none else some here.dropLast
  else some (here ++ [segment])

/-- Where segments lead from a directory, whatever directories exist. -/
def walk? (here : List String) (found : List (List Char)) : Option (List String) :=
  (found.map String.ofList).foldlM step here

/-- Where a path leads, its segments do step by step. -/
theorem walk_of_follow? {w : Workspace} {here there : List String} {found : List String}
    (led : w.follow? here found = some there) : found.foldlM step here = some there := by
  induction found generalizing here with
  | nil => exact led
  | cons segment rest ih =>
    rw [List.foldlM_cons, step]
    rw [follow?] at led
    split at led
    · cases led
    · split at led
      · rename_i idle
        rw [if_pos idle]
        exact ih led
      · rename_i busy
        rw [if_neg busy]
        split at led
        · rename_i up
          rw [if_pos up]
          split at led
          · cases led
          · rename_i inside
            rw [if_neg inside]
            exact ih led
        · rename_i down
          rw [if_neg down]
          exact ih led

/-- A segment is idle if it is empty or a dot. -/
theorem isIdle_iff {s : List Char} : isIdle s = true ↔ s = [] ∨ s = ['.'] := by
  rw [isIdle, Bool.or_eq_true, beq_iff_eq, beq_iff_eq]

/-- Characters are those of a text. -/
theorem ofList_eq_iff {s : List Char} {t : String} : String.ofList s = t ↔ s = t.toList := by
  rw [← String.toList_inj, String.toList_ofList]

/-- An idle segment leads nowhere else. -/
theorem step_idle {s : List Char} (idle : isIdle s = true) (here : List String) :
    step here (String.ofList s) = some here := by
  rw [step, if_pos]
  rw [Bool.or_eq_true, beq_iff_eq, beq_iff_eq, ofList_eq_iff, ofList_eq_iff]
  exact isIdle_iff.mp idle

/-- Any other segment but two dots leads down. -/
theorem step_busy {s : List Char} (busy : isIdle s = false) (down : s ≠ ['.', '.'])
    (here : List String) : step here (String.ofList s) = some (here ++ [String.ofList s]) := by
  rw [step, if_neg, if_neg]
  · rw [beq_iff_eq, ofList_eq_iff]
    exact down
  · rw [Bool.or_eq_true, beq_iff_eq, beq_iff_eq, ofList_eq_iff, ofList_eq_iff]
    exact fun idle => Bool.false_ne_true (busy.symm.trans (isIdle_iff.mpr idle))

/-- Idle segments make no difference to a walk. -/
theorem walk?_filter (here : List String) (found : List (List Char)) :
    walk? here (found.filter (!isIdle ·)) = walk? here found := by
  induction found generalizing here with
  | nil => rfl
  | cons s found ih =>
    rw [List.filter_cons]
    cases idle : isIdle s with
    | true =>
      refine (ih here).trans ?_
      rw [walk?, walk?, List.map_cons, List.foldlM_cons, step_idle idle]
      rfl
    | false => exact bind_congr fun next => ih next

/-- The first segment of a relative path is not empty. -/
theorem segments_of_relative {path : String} (nonempty : path.isEmpty = false)
    (relative : path.startsWith "/" = false) :
    ∃ first rest, segments path = first :: rest ∧ first ≠ [] := by
  obtain ⟨cs, rfl⟩ : ∃ cs, path = String.ofList cs := ⟨path.toList, String.ofList_toList.symm⟩
  rw [String.startsWith_string_eq_false_iff, String.toList_ofList] at relative
  cases cs with
  | nil => cases nonempty
  | cons c cs =>
    have slash : c ≠ '/' := by
      rintro rfl
      exact relative ⟨cs, String.toList_ofList.symm⟩
    obtain ⟨s, found, rest⟩ := List.exists_cons_of_ne_nil (segments_ne_nil cs)
    exact ⟨c :: s, found, segments_cons slash rest, List.cons_ne_nil _ _⟩

/-- A path that is found leads where its parts lead. -/
theorem locate?_eq_some {w : Workspace} {path p : String} (located : w.locate? path = some p) :
    ∃ there, walk? [] (components path) = some there ∧ p = place there := by
  obtain ⟨_, relative, located⟩ := Option.bind_eq_some_iff.mp located
  obtain ⟨there, led, located⟩ := Option.bind_eq_some_iff.mp located
  obtain ⟨_, _, located⟩ := Option.bind_eq_some_iff.mp located
  cases located
  have form : path.isEmpty = false ∧ path.startsWith "/" = false := by
    rw [guard] at relative
    split at relative
    · rename_i form
      rwa [Bool.and_eq_true, Bool.not_eq_true', Bool.not_eq_true'] at form
    · cases relative
  obtain ⟨first, rest, same, nonempty⟩ := segments_of_relative form.1 form.2
  have walked := walk_of_follow? led
  refine ⟨there, ?_, rfl⟩
  rw [components, same, parts, lead_of_ne_nil nonempty]
  rw [same] at walked
  rw [walk?, List.singleton_append, List.map_cons, List.foldlM_cons]
  rw [List.map_cons, List.foldlM_cons] at walked
  exact (bind_congr fun next => walk?_filter next rest).trans walked

/-! ## Files of one directory -/

/-- Lists that are put together are the same only if their last pieces are. -/
theorem intercalate_concat_injective {α : Type} {between : List α} {before : List (List α)}
    {a b : List α}
    (same : between.intercalate (before ++ [a]) = between.intercalate (before ++ [b])) : a = b := by
  induction before with
  | nil => rwa [List.nil_append, List.nil_append, List.intercalate_singleton,
      List.intercalate_singleton] at same
  | cons x before ih =>
    obtain ⟨y, more, front⟩ := List.exists_cons_of_ne_nil
      (List.append_ne_nil_of_right_ne_nil before (List.cons_ne_nil a []))
    obtain ⟨z, more', front'⟩ := List.exists_cons_of_ne_nil
      (List.append_ne_nil_of_right_ne_nil before (List.cons_ne_nil b []))
    rw [List.cons_append, List.cons_append, front, front', List.intercalate_cons_cons,
      List.intercalate_cons_cons, ← front, ← front'] at same
    exact ih (List.append_cancel_left same)

/-- A last piece makes a difference. -/
theorem intercalate_concat_ne {α : Type} {between : List α} {before : List (List α)} {a : List α}
    (nonempty : a ≠ []) : between.intercalate (before ++ [a]) ≠ between.intercalate before := by
  induction before with
  | nil =>
    rw [List.nil_append, List.intercalate_singleton]
    exact nonempty
  | cons x before ih =>
    intro same
    cases before with
    | nil =>
      rw [List.cons_append, List.nil_append, List.intercalate_cons_cons,
        List.intercalate_singleton, List.intercalate_singleton, List.append_assoc,
        List.append_right_eq_self, List.append_eq_nil_iff] at same
      exact nonempty same.2
    | cons y before =>
      rw [List.cons_append, List.cons_append, List.intercalate_cons_cons,
        List.intercalate_cons_cons] at same
      exact ih (List.append_cancel_left same)

/-- A place is not the one above it. -/
theorem place_concat_ne {here : List String} {a : List Char} (nonempty : a ≠ []) :
    place (here ++ [String.ofList a]) ≠ place here := by
  intro same
  rw [place, place, ← String.toList_inj, String.toList_intercalate, String.toList_intercalate,
    List.map_append] at same
  exact intercalate_concat_ne (by rwa [String.toList_ofList]) same

/-- Places side by side have different last segments. -/
theorem place_concat_injective {here : List String} {a b : List Char}
    (same : place (here ++ [String.ofList a]) = place (here ++ [String.ofList b])) : a = b := by
  rw [place, place, ← String.toList_inj, String.toList_intercalate, String.toList_intercalate,
    List.map_append, List.map_append] at same
  have names := intercalate_concat_injective same
  rwa [String.toList_ofList, String.toList_ofList] at names

/-- A walk that ends with a name leads down from where it was before. -/
theorem walk?_concat {front : List (List Char)} {s : List Char} {there : List String}
    (busy : isIdle s = false) (down : s ≠ ['.', '.'])
    (walked : walk? [] (front ++ [s]) = some there) :
    ∃ here, walk? [] front = some here ∧ there = here ++ [String.ofList s] := by
  rw [walk?, List.map_append, List.foldlM_append] at walked
  obtain ⟨here, led, walked⟩ := Option.bind_eq_some_iff.mp walked
  rw [List.map_singleton, List.foldlM_cons, step_busy busy down] at walked
  cases walked
  exact ⟨here, led, rfl⟩

/-- Paths of two files in one directory lead to two places. -/
theorem places_apart {v w : Workspace} {path path' p p' : String} {front : List (List Char)}
    {s s' : List Char} (whole : components path = front ++ [s])
    (whole' : components path' = front ++ [s'])
    (busy : isIdle s = false ∧ s ≠ ['.', '.']) (busy' : isIdle s' = false ∧ s' ≠ ['.', '.'])
    (other : s ≠ s') (located : v.locate? path = some p) (located' : w.locate? path' = some p') :
    p ≠ p' := by
  obtain ⟨there, walked, rfl⟩ := locate?_eq_some located
  obtain ⟨there', walked', rfl⟩ := locate?_eq_some located'
  rw [whole] at walked
  rw [whole'] at walked'
  obtain ⟨here, led, rfl⟩ := walk?_concat busy.1 busy.2 walked
  obtain ⟨here', led', rfl⟩ := walk?_concat busy'.1 busy'.2 walked'
  obtain rfl := Option.some.inj (led.symm.trans led')
  exact fun same => other (place_concat_injective same)

/-! ## Writes -/

/-- What is written stands at the place that the path leads to. -/
theorem write?_eq_some {w v : Workspace} {path : String} {a : Artifact}
    (written : w.write? path a = some v) :
    ∃ p, w.locate? path = some p ∧ v = ⟨w.files.insert p a⟩ := by
  obtain ⟨p, located, made⟩ := Option.bind_eq_some_iff.mp written
  cases made
  exact ⟨p, located, rfl⟩

/-- A file is found where it was put. -/
theorem getElem?_insert_self (files : Std.TreeMap String Artifact) (p : String) (a : Artifact) :
    (files.insert p a)[p]? = some a := by
  rw [Std.TreeMap.getElem?_insert, if_pos (Std.LawfulEqCmp.compare_eq_iff_eq.mpr rfl)]

/-- All others are where they were. -/
theorem getElem?_insert_ne (files : Std.TreeMap String Artifact) {p q : String} (a : Artifact)
    (other : q ≠ p) : (files.insert q a)[p]? = files[p]? := by
  rw [Std.TreeMap.getElem?_insert, if_neg (mt Std.LawfulEqCmp.compare_eq_iff_eq.mp other)]

/-- Files to which no path leads stay as they are. -/
theorem writeAll_other (w : Workspace) {p : String} {artifacts : List (String × Artifact)}
    (elsewhere : ∀ x ∈ artifacts, ∀ v : Workspace, v.locate? x.1 ≠ some p) :
    (w.writeAll artifacts).2.files[p]? = w.files[p]? := by
  induction artifacts generalizing w with
  | nil => rfl
  | cons x artifacts ih =>
    obtain ⟨first, later⟩ := List.forall_mem_cons.mp elsewhere
    rw [writeAll]
    split
    · rename_i v written
      obtain ⟨q, located, rfl⟩ := write?_eq_some written
      have apart : q ≠ p := by
        rintro rfl
        exact first w located
      rw [ih _ later]
      exact getElem?_insert_ne w.files x.2 apart
    · rfl

/-- The last file that is written stands where its path leads. -/
theorem writeAll_last (w : Workspace) {path : String} {a : Artifact}
    {artifacts : List (String × Artifact)} {w' : Workspace}
    (written : w.writeAll (artifacts ++ [(path, a)]) = (.success, w')) :
    ∃ (v : Workspace) (p : String), v.locate? path = some p ∧ w'.files[p]? = some a := by
  induction artifacts generalizing w with
  | nil =>
    rw [List.nil_append, writeAll] at written
    split at written
    · rename_i v made
      obtain ⟨p, located, rfl⟩ := write?_eq_some made
      cases written
      exact ⟨w, p, located, getElem?_insert_self _ _ _⟩
    · cases written
  | cons x artifacts ih =>
    rw [List.cons_append, writeAll] at written
    split at written
    · exact ih _ written
    · cases written

/-! ## The input of a run -/

/-- A run writes the container and the archive, or nothing. -/
theorem run_eq {w : Workspace} {arguments : List String} {s : Settings}
    (asked : Request.ofArguments arguments = .run s) :
    (∃ output, w.run arguments = w.writeAll (s.artifacts output))
    ∨ w.run arguments = (.failure, w) := by
  rw [run, asked]
  dsimp only
  split
  · exact .inr rfl
  · rename_i input _
    split
    · rename_i artifacts made
      obtain ⟨output, _, same⟩ := bind_eq_ok.mp made
      cases same
      exact .inl ⟨output, rfl⟩
    · exact .inr rfl

/-- The name of an output is not that of the directory above. -/
theorem outputName_ne_up {stem : List Char} {extension : String} (nonempty : stem ≠ [])
    (named : extension ≠ "") : outputName stem extension ≠ ['.', '.'] := by
  intro same
  have length := congrArg List.length same
  have front := List.length_pos_iff.mpr nonempty
  have behind := List.length_pos_iff.mpr (mt String.toList_eq_nil_iff.mp named)
  rw [outputName, List.length_append, List.length_cons] at length
  simp only [List.length_cons, List.length_nil] at length
  omega

/-- An output that is not its input leads to another place. -/
theorem output_elsewhere {v w : Workspace} {input extension p : String}
    (slashless : '/' ∉ extension.toList) (named : extension ≠ "")
    (apart : components (output input extension) ≠ components input)
    (stands : w.locate? input = some p) : v.locate? (output input extension) ≠ some p := by
  intro located
  obtain ⟨front, name, nonempty, beside, input_parts⟩ := components_output input
  have busy := isIdle_outputName nonempty extension
  have down := outputName_ne_up nonempty named
  have beside := beside extension slashless
  rcases input_parts with ⟨n, found, rfl, whole⟩ | ⟨_, whole⟩
  · obtain ⟨_, busy_n, down_n, _⟩ := components_of_fileName? found
    have other : outputName (stem n) extension ≠ n := by
      intro same
      rw [beside, whole, same] at apart
      exact apart rfl
    exact places_apart beside whole ⟨busy, down⟩ ⟨busy_n, down_n⟩ other located stands rfl
  · obtain ⟨there, walked, rfl⟩ := locate?_eq_some stands
    obtain ⟨there', walked', same⟩ := locate?_eq_some located
    rw [beside] at walked'
    rw [whole] at walked
    obtain ⟨here, led, rfl⟩ := walk?_concat busy down walked'
    obtain rfl := Option.some.inj (led.symm.trans walked)
    have long : outputName name extension ≠ [] := by
      intro none
      rw [none] at busy
      cases busy
    exact place_concat_ne long same.symm

/-- A run leaves its input as it was where nothing is said about outputs and the input is not
named like an archive. -/
theorem run_keeps_input {w : Workspace} {arguments : List String} {s : Settings} {p : String}
    (asked : Request.ofArguments arguments = .run s) (unsaid : s.output = none)
    (stands : w.locate? s.input = some p)
    (other : ∀ stem, stem ≠ [] → fileName? s.input ≠ some (outputName stem "jar")) :
    (w.run arguments).2.files[p]? = w.files[p]? := by
  obtain ⟨container_apart, _, archive_over⟩ := s.outputs_apart unsaid
  rcases run_eq (w := w) asked with ⟨output, written⟩ | failed
  · rw [written]
    refine writeAll_other w fun x mem v => ?_
    have path : x.1 = s.containerPath ∨ x.1 = s.archivePath := by
      rw [Settings.artifacts, List.mem_append, List.mem_singleton] at mem
      rcases mem with mem | rfl
      · split at mem
        · rw [List.mem_singleton.mp mem]
          exact .inl rfl
        · cases mem
      · exact .inr rfl
    rcases path with path | path
    · rw [path]
      exact output_elsewhere (by decide) (by decide) container_apart stands
    · have archive_apart : components s.archivePath ≠ components s.input := by
        intro same
        obtain ⟨stem, nonempty, named⟩ := archive_over.mp same
        exact other stem nonempty named
      rw [Settings.archivePath, unsaid, Option.getD_none] at archive_apart path
      rw [path]
      exact output_elsewhere (by decide) (by decide) archive_apart stands
  · rw [failed]

/-- A run on an input that is named like an archive puts the archive in its place if it
succeeds. -/
theorem run_replaces_input {w : Workspace} {arguments : List String} {s : Settings} {p : String}
    {stem : List Char} (asked : Request.ofArguments arguments = .run s) (unsaid : s.output = none)
    (stands : w.locate? s.input = some p) (nonempty : stem ≠ [])
    (named : fileName? s.input = some (outputName stem "jar"))
    (succeeds : (w.run arguments).1 = .success) :
    ∃ a, (w.run arguments).2.files[p]? = some (.archive a) := by
  have same := (s.outputs_apart unsaid).2.2.mpr ⟨stem, nonempty, named⟩
  rcases run_eq (w := w) asked with ⟨output, written⟩ | failed
  · rw [written] at succeeds ⊢
    obtain ⟨v, q, located, stored⟩ := writeAll_last w (Prod.ext succeeds rfl)
    obtain ⟨there, walked, rfl⟩ := locate?_eq_some located
    obtain ⟨there', walked', rfl⟩ := locate?_eq_some stands
    rw [same] at walked
    obtain rfl := Option.some.inj (walked.symm.trans walked')
    exact ⟨_, stored⟩
  · rw [failed] at succeeds
    cases succeeds

end StubJar.Workspace
