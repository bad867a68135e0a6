import Metalanguage.CommandLine.Run
import Metalanguage.Proofs.Lines
import Metalanguage.Proofs.Reader.HypertextLiterals
import Metalanguage.Proofs.Sequencing

/-!
# Proofs/Report/Check — every line of every file is checked

The lines of some files, in the order of the files and of the lines, are numbered apart from any
expressions in them (`FileLine.all`). What a check reads, counts and reports is picked out of this list
(`CheckReport.placed_eq`), so no line that fails is in the way of those after it, and none is reported
under the number of another (`Command.every_line_checked`).
-/

namespace Metalanguage

open List (Forall₂)

/-- A line counts if it is neither blank nor a comment. -/
def Lines.Counts (line : List Char) : Prop := trim line ≠ [] ∧ (trim line).head? ≠ some '#'

instance : DecidablePred Lines.Counts := fun _ => inferInstanceAs (Decidable (_ ∧ _))

/-- **A line of one of several files**, with the numbers of the file and the line, from zero. -/
structure FileLine where
  file : ℕ
  index : ℕ
  name : String
  text : List Char

namespace FileLine

variable {files : List (String × String)}

/-- The line is one of these files, given by name and content. -/
def IsIn (l : FileLine) (files : List (String × String)) : Prop :=
  ∃ content, files[l.file]? = some (l.name, content) ∧
    (Lines.ofText content.toList)[l.index]? = some l.text

/-- The order of files, and of lines in a file. -/
def Before (l m : FileLine) : Prop := l.file < m.file ∨ l.file = m.file ∧ l.index < m.index

/-- Where the line is: the name of the file, and the number of the line, which counts from one. -/
def location (l : FileLine) : String := l.name ++ ":" ++ toString (l.index + 1)

/-- What is read of the line. -/
def expression (l : FileLine) : String := String.ofList (Lines.trim l.text)

/-! ## All lines in order -/

/-- The lines of a file with its number. -/
def ofFile (file : (String × String) × ℕ) : List FileLine :=
  (Lines.ofText file.1.2.toList).zipIdx.map fun line => ⟨file.2, line.2, file.1.1, line.1⟩

/-- The lines of some files. -/
def all (files : List (String × String)) : List FileLine := files.zipIdx.flatMap ofFile

theorem mem_all {l : FileLine} : l ∈ all files ↔ l.IsIn files := by
  simp only [all, ofFile, List.mem_flatMap, List.mem_map, List.mem_zipIdx_iff_getElem?]
  constructor
  · rintro ⟨⟨⟨name, content⟩, i⟩, hfile, ⟨line, n⟩, hline, rfl⟩
    exact ⟨content, hfile, hline⟩
  · rintro ⟨content, hfile, hline⟩
    exact ⟨((l.name, content), l.file), hfile, (l.text, l.index), hline, rfl⟩

/-- They are listed in order, which is never that of equals. -/
theorem pairwise_all (files : List (String × String)) : (all files).Pairwise Before := by
  have hnumbers : ∀ {A : Type} (l : List A), l.zipIdx.Pairwise fun x y => x.2 < y.2 := by
    intro A l
    rw [← List.pairwise_map (f := Prod.snd), List.zipIdx_map_snd]
    exact List.pairwise_lt_range'
  refine List.pairwise_flatMap.2 ⟨fun file _ => ?_, (hnumbers files).imp fun hlt => ?_⟩
  · exact List.pairwise_map.2 ((hnumbers _).imp fun hlt => .inr ⟨rfl, hlt⟩)
  · simp only [ofFile, List.forall_mem_map]
    exact fun _ _ _ _ => .inl hlt

/-- Lines in order are known by which they are. -/
theorem eq_of_mem_iff {ls ms : List FileLine} (hls : ls.Pairwise Before) (hms : ms.Pairwise Before)
    (h : ∀ l, l ∈ ls ↔ l ∈ ms) : ls = ms := by
  have hasymm : ∀ {l m : FileLine}, l.Before m → ¬ m.Before l := fun hlm hml => by
    rw [Before] at hlm hml
    omega
  have hnodup : ∀ {ls : List FileLine}, ls.Pairwise Before → ls.Nodup := fun hls =>
    List.Pairwise.imp (fun {l m} hlm (heq : l = m) => hasymm hlm (heq ▸ hlm)) hls
  exact List.Perm.eq_of_pairwise (fun l m _ _ hlm hml => absurd hml (hasymm hlm)) hls hms
    ((List.perm_ext_iff_of_nodup (hnodup hls) (hnodup hms)).2 h)

end FileLine

namespace CheckReport

variable {r : Reader} {files : List (String × String)}

/-! ## What is picked out of the lines -/

/-- A trimmed line holds an expression unless it is empty or begins like a comment. -/
theorem holdsExpression_eq_true_iff {cs : List Char} :
    holdsExpression cs = true ↔ cs ≠ [] ∧ cs.head? ≠ some '#' := by
  cases cs <;> simp [holdsExpression]

/-- What is read of a line that counts, and its place. -/
def placed? (l : FileLine) : Option (String × String) :=
  if Lines.Counts l.text then some (l.location, l.expression) else none

/-- The expressions of a file, at their places, are those of its lines. -/
theorem placedExpressions_eq (file : (String × String) × ℕ) :
    placedExpressions file.1 = (FileLine.ofFile file).filterMap placed? := by
  let pick (line : List Char) (n : ℕ) : Option (String × String) :=
    if holdsExpression line then some (locate file.1.1 n, String.ofList line) else none
  have hcut : placedExpressions file.1 = ((Lines.cut '\n' file.1.2.toList).zipIdx 1).filterMap
      fun x => pick (Lines.trim x.1) x.2 := by
    rw [placedExpressions, expressionsOf, List.map_filterMap]
    refine congrArg (List.filterMap · _) (funext fun x => ?_)
    simp only [pick]
    split <;> rfl
  rw [hcut, (Lines.sameLines_cut _).filterMap_zipIdx pick (fun _ => rfl),
    List.zipIdx_succ, List.filterMap_map, FileLine.ofFile, List.filterMap_map]
  refine congrArg (List.filterMap · _) (funext fun x => ?_)
  exact if_congr holdsExpression_eq_true_iff rfl rfl

/-- **All expressions**, at their places, are picked out of all lines. -/
theorem placed_eq (files : List (String × String)) :
    files.flatMap placedExpressions = (FileLine.all files).filterMap placed? := by
  have hnumbered : files.flatMap placedExpressions =
      files.zipIdx.flatMap fun file => placedExpressions file.1 := by
    conv_lhs => rw [← List.zipIdx_map_fst 0 files, List.flatMap_map]
  rw [hnumbered, FileLine.all, List.filterMap_flatMap]
  exact List.flatMap_congr fun file _ => placedExpressions_eq file

/-! ## The report -/

/-- A failure to read a line. -/
structure IsDueTo (failure : CheckFailure) (r : Reader) (l : FileLine) : Prop where
  location : failure.location = l.location
  error : r.parse l.location l.expression = .error failure.error

/-- A failure is kept with the place that it was read under. -/
theorem failure?_eq_some_iff {l : FileLine} {failure : CheckFailure} :
    failure? r (l.location, l.expression) = some failure ↔ IsDueTo failure r l := by
  rw [failure?]
  constructor
  · intro h
    split at h
    · cases h
    · next e he =>
      cases h
      exact ⟨rfl, he⟩
  · rintro ⟨hlocation, herror⟩
    rw [herror, ← hlocation]

/-- The failure to read a line, if it counts and cannot be read. -/
def failureAt? (r : Reader) (l : FileLine) : Option CheckFailure := (placed? l).bind (failure? r)

/-- A line fails if it counts and cannot be read ... -/
theorem failureAt?_eq_some_iff {l : FileLine} {failure : CheckFailure} :
    failureAt? r l = some failure ↔ Lines.Counts l.text ∧ IsDueTo failure r l := by
  rw [failureAt?, placed?]
  split
  · next hcounts => exact failure?_eq_some_iff.trans (and_iff_right hcounts).symm
  · next hskipped => simp [hskipped]

theorem isSome_failureAt?_iff {l : FileLine} : (failureAt? r l).isSome ↔
    Lines.Counts l.text ∧ ∃ e, r.parse l.location l.expression = .error e := by
  simp only [Option.isSome_iff_exists, failureAt?_eq_some_iff]
  constructor
  · rintro ⟨failure, hcounts, hdue⟩
    exact ⟨hcounts, failure.error, hdue.error⟩
  · rintro ⟨hcounts, e, he⟩
    exact ⟨⟨l.location, e⟩, hcounts, rfl, he⟩

/-- **The failures** are those of the lines, one after the other. -/
theorem failures_ofFiles (r : Reader) (files : List (String × String)) :
    (ofFiles r files).failures = (FileLine.all files).filterMap (failureAt? r) := by
  rw [ofFiles, placed_eq, List.filterMap_filterMap]
  rfl

/-- So each failure is that of a line, and each such line has its failure. -/
theorem mem_failures_ofFiles {failure : CheckFailure} : failure ∈ (ofFiles r files).failures ↔
    ∃ l : FileLine, l.IsIn files ∧ Lines.Counts l.text ∧ IsDueTo failure r l := by
  simp only [failures_ofFiles, List.mem_filterMap, FileLine.mem_all, failureAt?_eq_some_iff]

/-- **What a report must cover**: all files, all lines that count, and, in order and once each, those
of them that cannot be read. -/
structure Covers (report : CheckReport) (r : Reader) (files : List (String × String)) : Prop where
  fileCount : report.files = files.length
  checked : report.checked =
    (files.map fun file => (Lines.ofText file.2.toList).countP (Lines.Counts ·)).sum
  failures : ∃ refused : List FileLine, refused.Pairwise FileLine.Before ∧
    (∀ l, l ∈ refused ↔ l.IsIn files ∧ Lines.Counts l.text ∧
      ∃ e, r.parse l.location l.expression = .error e) ∧
    Forall₂ (fun l failure => IsDueTo failure r l) refused report.failures

/-- **As many expressions are checked as lines count**, file by file ... -/
theorem length_placedExpressions (file : String × String) :
    (placedExpressions file).length =
      (Lines.ofText file.2.toList).countP (Lines.Counts ·) := by
  have hsome : ∀ l : FileLine, (placed? l).isSome ↔ Lines.Counts l.text := by
    intro l
    rw [placed?]
    split <;> simp [*]
  rw [placedExpressions_eq (file, 0), List.length_filterMap_eq_countP, FileLine.ofFile,
    List.countP_map]
  conv_rhs => rw [← List.zipIdx_map_fst 0 (Lines.ofText file.2.toList), List.countP_map]
  exact List.countP_congr fun x _ => by simp [hsome]

theorem checked_ofFiles (r : Reader) (files : List (String × String)) :
    (ofFiles r files).checked =
      (files.map fun file => (Lines.ofText file.2.toList).countP (Lines.Counts ·)).sum := by
  rw [ofFiles, List.length_flatMap]
  exact congrArg List.sum (List.map_congr_left fun file _ => length_placedExpressions file)

/-- **A report covers its files.** -/
theorem covers_ofFiles (r : Reader) (files : List (String × String)) :
    (ofFiles r files).Covers r files where
  fileCount := rfl
  checked := checked_ofFiles r files
  failures := by
    refine ⟨(FileLine.all files).filter fun l => (failureAt? r l).isSome,
      (FileLine.pairwise_all files).filter _, fun l => ?_, ?_⟩
    · rw [List.mem_filter, FileLine.mem_all, isSome_failureAt?_iff]
    · rw [failures_ofFiles]
      exact (forall₂_filterMap (failureAt? r) _).imp fun _ _ h => (failureAt?_eq_some_iff.1 h).2

/-- **Where the failures are** is settled by the lines. -/
theorem Covers.locations_eq {report : CheckReport} (h : report.Covers r files) :
    report.failures.map (·.location) =
      ((FileLine.all files).filter fun l => (failureAt? r l).isSome).map FileLine.location := by
  obtain ⟨refused, hsorted, hmem, hdue⟩ := h.failures
  have hrefused : refused = (FileLine.all files).filter fun l => (failureAt? r l).isSome :=
    FileLine.eq_of_mem_iff hsorted ((FileLine.pairwise_all files).filter _) fun l => by
      rw [hmem, List.mem_filter, FileLine.mem_all, isSome_failureAt?_iff]
  rw [← hrefused, ← List.forall₂_eq_eq_eq, List.forall₂_map_left_iff, List.forall₂_map_right_iff]
  exact hdue.flip.imp fun _ _ hdue => hdue.location

/-- There is nothing to report exactly if all lines that count can be read. -/
theorem Covers.failures_eq_nil_iff {report : CheckReport} (h : report.Covers r files) :
    report.failures = [] ↔ ∀ l : FileLine, l.IsIn files → Lines.Counts l.text →
      ∃ x, r.parse l.location l.expression = .ok x := by
  obtain ⟨refused, -, hmem, hdue⟩ := h.failures
  have hnil : report.failures = [] ↔ refused = [] := by
    rw [← List.length_eq_zero_iff, ← hdue.length_eq, List.length_eq_zero_iff]
  rw [hnil, List.eq_nil_iff_forall_not_mem]
  refine forall_congr' fun l => ?_
  cases hread : r.parse l.location l.expression <;> simp [hmem, hread]

end CheckReport

/-! ## The command -/

/-- **What a check shows** of a report: a line for the place of each failure, and one for the counts.
If nothing fails this is all, and the check succeeds. Else it does not, and tells of each failure, in
order: its place, then its error, and whatever is drawn below that; at the end there is their number.
-/
structure Outcome.Shows (o : Outcome) (report : CheckReport) : Prop where
  stdout : o.stdout = String.join (report.failures.map fun f => "✗ " ++ f.location ++ "\n") ++
    ("Checked " ++ toString report.checked ++ " expression(s) in " ++ toString report.files ++
      " file(s), " ++ toString report.failures.length ++ " failed\n")
  succeeds : report.failures = [] → o.exitCode = 0 ∧ o.stderr = ""
  fails : report.failures ≠ [] → o.exitCode = 1 ∧ ∃ told : List String,
    Forall₂ (fun f text => ∃ below, text = f.location ++ ": " ++ f.error.report ++ below)
      report.failures told ∧
    o.stderr = String.join told ++
      ("Error: " ++ toString report.failures.length ++ " expression(s) failed validation\n")

/-- The last line of a check that fails has the number of failures. -/
theorem CommandFailure.message_failedExpressions (count : ℕ) :
    (failedExpressions count).message ++ "\n" =
      "Error: " ++ toString count ++ " expression(s) failed validation\n" := by
  have hmessage : (failedExpressions count).message =
      "Error: " ++ toString count ++ " expression(s) failed validation" := rfl
  simp only [hmessage, String.append_assoc, String.reduceAppend]

/-- **What a check says is what it found**, on either output and by its exit code. -/
theorem Outcome.shows_ofReport (report : CheckReport) : (ofReport report).Shows report := by
  obtain ⟨files, checked, failures⟩ := report
  have htext : (CheckReport.mk files checked failures).text =
      String.join (failures.map fun f => "✗ " ++ f.location ++ "\n") ++
        ("Checked " ++ toString checked ++ " expression(s) in " ++ toString files ++
          " file(s), " ++ toString failures.length ++ " failed\n") := by
    simp only [CheckReport.text, String.append_assoc]
  cases failures with
  | nil => exact ⟨htext, fun _ => ⟨rfl, rfl⟩, fun h => absurd rfl h⟩
  | cons failure failures =>
    refine ⟨htext, nofun, fun _ => ⟨rfl, _, List.forall₂_map_right_iff.2
      (List.forall₂_same.2 fun f _ => ⟨"\n", rfl⟩), ?_⟩⟩
    rw [← CommandFailure.message_failedExpressions, ← String.append_assoc]
    rfl

namespace Command

variable {m : Type → Type} [Monad m] [LawfulMonad m] {access : FileAccess m}

/-- Files that can all be read are read in order, each with its name. -/
theorem readFiles_eq : ∀ {files : List (String × String)},
    (∀ file ∈ files, access.read? file.1 = pure (some file.2)) →
      readFiles access (files.map Prod.fst) = pure (.ok files)
  | [], _ => rfl
  | file :: files, h => by
    obtain ⟨hfile, hfiles⟩ := List.forall_mem_cons.1 h
    rw [List.map_cons, readFiles, hfile, pure_bind]
    simp only [readFiles_eq hfiles, pure_bind]
    rfl

/-- **Every line is checked.** Whatever files a path stands for and whatever is in them, a check
covers all of their lines, each without the white space at its ends, shows what it finds, and succeeds
exactly if each line that counts can be read. -/
theorem every_line_checked {path : String} {files : List (String × String)}
    (hcollect : access.collect path = pure (files.map Prod.fst))
    (hread : ∀ file ∈ files, access.read? file.1 = pure (some file.2)) (r : Reader) :
    (∀ line, Lines.Trims line (Lines.trim line)) ∧
    ∃ report outcome, (check path).perform access r = pure outcome ∧ report.Covers r files ∧
      outcome.Shows report ∧
      (outcome.exitCode = 0 ↔ ∀ l : FileLine, l.IsIn files → Lines.Counts l.text →
        ∃ x, r.parse l.location l.expression = .ok x) := by
  have hcovers := CheckReport.covers_ofFiles r files
  have hshows := Outcome.shows_ofReport (.ofFiles r files)
  refine ⟨Lines.trims_trim, _, _, ?_, hcovers, hshows, ?_⟩
  · rw [perform, hcollect, pure_bind, readFiles_eq hread, pure_bind]
  · rw [← hcovers.failures_eq_nil_iff]
    refine ⟨fun hzero => ?_, fun hnil => (hshows.succeeds hnil).1⟩
    by_contra hfailed
    exact absurd ((hshows.fails hfailed).1.symm.trans hzero) Nat.one_ne_zero

end Command

namespace Sample

/-- Two files with a comment, an empty line and two lines that cannot be read. -/
def mixedFiles : List (String × String) :=
  [("d/a.ieml", "# words\r\n[([a.])]\r\n\r\n  [([zz.])]"),
    ("d/b/c.ieml", "([a.]\n\t[([b.])]<#>\n")]

/-- The files in their directories, with a file that is not for expressions. -/
def directory : FileSet := .ofList (("d/notes.txt", "(") :: mixedFiles)

end Sample

/-- Four lines count. The last line of the first file cannot be read, nor the first one of the second,
and both are shown by their numbers. -/
theorem Command.every_line_checked_mixed : ∃ report outcome,
    (check "d").perform Sample.directory.access Sample.reader = (pure outcome : Id Outcome) ∧
      report.Covers Sample.reader Sample.mixedFiles ∧ outcome.Shows report ∧
        report.checked = 4 ∧ report.failures.map (·.location) = ["d/a.ieml:4", "d/b/c.ieml:1"] ∧
        outcome.stdout = "✗ d/a.ieml:4\n✗ d/b/c.ieml:1\n" ++
          "Checked 4 expression(s) in 2 file(s), 2 failed\n" ∧ outcome.exitCode = 1 := by
  have hcollect : Sample.directory.access.collect "d" =
      (pure (Sample.mixedFiles.map Prod.fst) : Id (List String)) := rfl
  have hread : ∀ file ∈ Sample.mixedFiles,
      Sample.directory.access.read? file.1 = (pure (some file.2) : Id (Option String)) := by
    simp only [Sample.mixedFiles, List.forall_mem_cons]
    exact ⟨rfl, rfl, nofun⟩
  obtain ⟨-, report, outcome, hperform, hcovers, hshows, -⟩ :=
    every_line_checked hcollect hread Sample.reader
  have hchecked : report.checked = 4 := hcovers.checked.trans (by decide)
  have hlocations : report.failures.map (·.location) = ["d/a.ieml:4", "d/b/c.ieml:1"] :=
    hcovers.locations_eq.trans (by decide +kernel)
  have hlength : report.failures.length = 2 := by
    simpa using congrArg List.length hlocations
  have hlines : report.failures.map (fun f => "✗ " ++ f.location ++ "\n") =
      ["✗ d/a.ieml:4\n", "✗ d/b/c.ieml:1\n"] := by
    have hmap := congrArg (List.map fun location => "✗ " ++ location ++ "\n") hlocations
    rw [List.map_map] at hmap
    exact hmap
  refine ⟨report, outcome, hperform, hcovers, hshows, hchecked, hlocations, ?_, ?_⟩
  · rw [hshows.stdout, hlines, hchecked, hcovers.fileCount, hlength]
    decide +kernel
  · refine (hshows.fails fun hnil => ?_).1
    rw [hnil] at hlength
    cases hlength

end Metalanguage
