import DecodeTables.Proofs.Session.Growth
import DecodeTables.Proofs.Source.Files

/-!
# Diagnostics that are shown again

The line that shows a diagnostic depends on the path of its file, `Diagnostic.text_eq`, which a
session does not change once it has given the number of the file, `path_of_answer`. So what is shown
of the diagnostics of a session comes first in what is shown of them later, `print_grows`.
-/

namespace DecodeTables

/-- A diagnostic is shown by the same line where its file has the same path. -/
theorem Diagnostic.text_eq {files later : SourceFiles} {diagnostic : Diagnostic}
    (h : later.path? diagnostic.loc.file = files.path? diagnostic.loc.file) :
    diagnostic.text (some later) = diagnostic.text (some files) := by
  rw [text, text]
  simp only [Option.map_some, Option.getD_some, place, h]

/-- The lines of diagnostics that are added come after those of the others, if these are shown as
they were. -/
theorem Log.text_eq_append {log later : Log} {added : List Diagnostic}
    (h : later.entries = log.entries ++ added) {files? others? : Option SourceFiles}
    (hsame : ∀ diagnostic ∈ log.entries, diagnostic.text others? = diagnostic.text files?) :
    later.text others? = log.text files? ++ String.join (added.map (Diagnostic.text others?)) := by
  rw [text, h, List.map_append, String.join_append, List.map_congr_left hsame, text]

namespace Session

variable {session : Session} {id : Nat}

/-- Once the number of a file is given, the file has a path. -/
theorem path_of_answer_step {command : Command}
    (h : (session.step command).answer = .file id) :
    ∃ path, (session.step command).session.files.path? id = some path := by
  cases command with
  | addFile path =>
      cases h
      exact ⟨_, SourceFiles.path_add_self session.files path⟩
  | add | addAll | finish =>
      rw [step, elaborating_eq] at h
      cases h
  | _ => cases h

/-- This stays so for the rest of a run. -/
theorem path_of_answer (h : session.catalog.Indexed) {commands : List Command} {reply : Reply}
    (hreply : reply ∈ (session.run commands).2) (hid : reply.answer = .file id) :
    ∃ path, (session.run commands).1.files.path? id = some path := by
  induction commands generalizing session with
  | nil => cases hreply
  | cons command commands ih =>
      have hstep := indexed_step h command
      rcases List.mem_cons.1 hreply with rfl | hreply
      · obtain ⟨path, hpath⟩ := path_of_answer_step hid
        exact ⟨path, (grows_run hstep commands).files id path hpath⟩
      · exact ih hstep hreply

/-- Whatever a session is told, the lines that show its diagnostics come first among those that show
its diagnostics later, and those of the diagnostics that were added come after them. If places are
shown, this is so where each diagnostic has no file or one whose number the session has given. -/
theorem print_grows (rootName : String) (traceAll : Bool) (commands others : List Command) :
    let first := begin rootName traceAll
    let session := (first.run commands).1
    let later := (session.run others).1
    ∃ added, later.log.entries = session.log.entries ++ added ∧
      later.log.text none =
        session.log.text none ++ String.join (added.map (Diagnostic.text none)) ∧
      ((∀ diagnostic ∈ session.log.entries, diagnostic.loc.file = 0 ∨
          ∃ reply ∈ (first.run commands).2, reply.answer = .file diagnostic.loc.file) →
        later.log.text (some later.files) = session.log.text (some session.files) ++
          String.join (added.map (Diagnostic.text (some later.files)))) := by
  intro first session later
  have hbegun : first.catalog.Indexed := indexed_run rootName traceAll []
  have hindexed : session.catalog.Indexed := indexed_run rootName traceAll commands
  have hgrows : session.GrowsInto later := grows_run hindexed others
  obtain ⟨added, hadded⟩ := hgrows.diagnostics
  refine ⟨added, hadded.symm, Log.text_eq_append hadded.symm fun _ _ => rfl, ?_⟩
  intro hgiven
  refine Log.text_eq_append hadded.symm fun diagnostic hmem => Diagnostic.text_eq ?_
  rcases hgiven diagnostic hmem with hunknown | ⟨reply, hreply, hid⟩
  · rw [hunknown]
    rfl
  · obtain ⟨path, hpath⟩ := path_of_answer hbegun hreply hid
    rw [hpath]
    exact hgrows.files _ path hpath

/-- What is shown once another file is known, and a diagnostic in it and one at no place are
added. -/
theorem print_grows_two_files :
    let commands : List Command := [.addFile "x86.spec",
      .report { severity := .error, message := "odd", loc := { file := 1, line := 2 } },
      .report { severity := .note, message := "see above" }]
    let others : List Command := [.addFile "lib//a.spec",
      .report { severity := .warning, message := "old", loc := { file := 2 } }, .finish]
    let session := ((begin "instruction" false).run commands).1
    let later := (session.run others).1
    let added := "warning: old\nerror: root table 'instruction' has no constructors\n"
    later.log.text none = session.log.text none ++ added ∧
      later.log.text (some later.files) =
        session.log.text (some session.files) ++ ("lib/a.spec: " ++ added) := by
  intro commands others session later added
  obtain ⟨more, hentries, hplain, hplaces⟩ := print_grows "instruction" false commands others
  obtain rfl : more = later.log.entries.drop 2 := by
    rw [hentries]
    rfl
  have hgiven : ∀ diagnostic ∈ session.log.entries, diagnostic.loc.file = 0 ∨
      ∃ reply ∈ ((begin "instruction" false).run commands).2,
        reply.answer = .file diagnostic.loc.file := by
    intro diagnostic hmem
    have hfile : diagnostic.loc.file = 1 ∨ diagnostic.loc.file = 0 := by
      revert diagnostic
      decide
    rcases hfile with hfile | hfile
    · rw [hfile]
      exact .inr ⟨_, List.mem_cons_self, rfl⟩
    · exact .inl hfile
  exact ⟨hplain.trans (congrArg _ (by decide)), (hplaces hgiven).trans (congrArg _ (by decide))⟩

/-- A diagnostic whose file becomes known only later is not shown as it was. -/
example :
    let session := ((begin "instruction" false).run
      [.report { severity := .error, message := "odd", loc := { file := 1 } }]).1
    let later := (session.run [.addFile "x86.spec"]).1
    session.log.text (some session.files) = "error: odd\n" ∧
      later.log.text (some later.files) = "x86.spec: error: odd\n" := by
  decide

end Session

end DecodeTables
