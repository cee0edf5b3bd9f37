import Mathlib.Data.List.Basic
import DecodeTables.Rejection
import DecodeTables.Proofs.Export.LeastCover
import DecodeTables.Proofs.Text

/-!
# What the text of an export tells

The text of an export names its kind and its width, and no other export has it: `text_inj`. The
message that reports a mismatch puts two such texts between words, so it tells which two exports it
is about, `message_inj`. `text_identifies` says this of the mismatches that are found: their message
never has the same text twice.
-/

namespace DecodeTables

theorem Width.text_inj {first second : Width} : first.text = second.text ↔ first = second := by
  rw [text, text, text_of_number_inj]
  cases first
  cases second
  simp

namespace Export

theorem Kind.text_inj {first second : Kind} : first.text = second.text ↔ first = second := by
  cases first <;> cases second <;> simp [text]

/-- The parts of the text of an export. -/
def parts : Export → List String
  | none => ["none"]
  | sized kind width => [kind.text, width.text]

theorem text_eq (exported : Export) :
    exported.text = (String.singleton ':').intercalate exported.parts := by
  cases exported with
  | none => rfl
  | sized kind width => simp [text, parts, toString]

theorem parts_inj {first second : Export} : first.parts = second.parts ↔ first = second := by
  cases first <;> cases second <;> simp [parts, Kind.text_inj, Width.text_inj]

/-- Kinds and widths are told by letters and digits. -/
theorem is_alphanum_of_mem_part {exported : Export} {part : String} (hpart : part ∈ exported.parts)
    {char : Char} (hchar : char ∈ part.toList) : char.isAlphanum = true := by
  cases exported with
  | none =>
      have hword : "none".toList.all Char.isAlphanum = true := by decide
      rw [List.mem_singleton.1 hpart] at hchar
      exact List.all_eq_true.1 hword char hchar
  | sized kind width =>
      rcases List.mem_pair.1 hpart with rfl | rfl
      · have hword : kind.text.toList.all Char.isAlphanum = true := by cases kind <;> decide
        exact List.all_eq_true.1 hword char hchar
      · rw [Char.isAlphanum, is_digit_of_mem_text hchar, Bool.or_true]

theorem separable_parts (exported : Export) : Separable ':' exported.parts where
  ne_nil := by cases exported <;> exact List.cons_ne_nil _ _
  free part hpart hcolon := by cases is_alphanum_of_mem_part hpart hcolon

/-- Exports have the same text only if they are the same. -/
theorem text_inj {first second : Export} : first.text = second.text ↔ first = second := by
  rw [text_eq, text_eq, intercalate_inj (separable_parts first) (separable_parts second), parts_inj]

/-- The text of an export is one word. -/
theorem blank_not_mem_text (exported : Export) : ' ' ∉ exported.text.toList := by
  intro hmem
  rw [text_eq] at hmem
  obtain hcolon | ⟨part, hpart, hblank⟩ := mem_of_mem_intercalate hmem
  · exact absurd hcolon (by decide)
  · cases is_alphanum_of_mem_part hpart hblank

/-- The words of the message that reports a mismatch. -/
def Mismatch.words (mismatch : Mismatch) : List String :=
  ["constructor", "export", mismatch.found.text, "does", "not", "match", "table", "export",
    mismatch.expected.text]

theorem message_eq (mismatch : Mismatch) :
    (Rejection.Cause.exportMismatch mismatch).message =
      (String.singleton ' ').intercalate mismatch.words := by
  have hbefore : "constructor export " = "constructor" ++ " " ++ "export" ++ " " := by decide
  have hbetween :
      " does not match table export " =
        " " ++ "does" ++ " " ++ "not" ++ " " ++ "match" ++ " " ++ "table" ++ " " ++ "export" ++
          " " := by
    decide
  have hblank : String.singleton ' ' = " " := by decide
  show "constructor export " ++ mismatch.found.text ++ " does not match table export " ++
    mismatch.expected.text = _
  rw [hbefore, hbetween, hblank]
  simp only [Mismatch.words, String.intercalate_cons_cons, String.intercalate_singleton,
    String.append_assoc]

theorem separable_words (mismatch : Mismatch) : Separable ' ' mismatch.words where
  ne_nil := List.cons_ne_nil _ _
  free := by simp [Mismatch.words, blank_not_mem_text]

/-- The message that reports a mismatch tells which exports were expected and found. -/
theorem message_inj {first second : Mismatch} :
    (Rejection.Cause.exportMismatch first).message =
        (Rejection.Cause.exportMismatch second).message ↔
      first = second := by
  rw [message_eq, message_eq, intercalate_inj (separable_words first) (separable_words second)]
  cases first
  cases second
  simp [Mismatch.words, text_inj, and_comm]

/-- Exports that do not fit together are different. -/
theorem ne_of_unify_eq_error {current incoming : Export} {mismatch : Mismatch}
    (h : unify current incoming = .error mismatch) : incoming ≠ current := by
  rintro rfl
  rw [unify_eq, if_pos rfl] at h
  cases h

/-- Different exports have different texts. So when an export does not fit an established one, the
message of the rejection has two different texts for them, and it is the message of no mismatch of
an export with itself. -/
theorem text_identifies :
    (∀ first second : Export, first.text = second.text ↔ first = second) ∧
      ∀ current incoming mismatch, extend true current incoming = .error mismatch →
        incoming.text ≠ current.text ∧
          ∀ loc,
            let message := (Rejection.mk loc (.exportMismatch mismatch)).message
            let wording (found expected : Export) :=
              s!"constructor export {found.text} does not match table export {expected.text}"
            message = wording incoming current ∧
              ∀ exported, message ≠ wording exported exported := by
  refine ⟨fun _ _ => text_inj, ?_⟩
  intro current incoming mismatch h
  have hne : incoming ≠ current := ne_of_unify_eq_error h
  obtain ⟨-, rfl⟩ := unify_eq_error_iff.1 h
  refine ⟨mt text_inj.1 hne, fun loc => ⟨rfl, ?_⟩⟩
  intro exported hsame
  have hself : Mismatch.mk current incoming = ⟨exported, exported⟩ := message_inj.1 hsame
  cases hself
  exact hne rfl

/-- A table whose constructors export nothing takes in no constant. -/
theorem text_identifies_none_const :
    let mismatch : Mismatch := ⟨.none, .sized .const ⟨4, by decide⟩⟩
    extend true mismatch.expected mismatch.found = .error mismatch ∧
      mismatch.found.text ≠ mismatch.expected.text ∧
      (Rejection.mk .unknown (.exportMismatch mismatch)).message =
        "constructor export const:4 does not match table export none" := by
  intro mismatch
  have h : extend true mismatch.expected mismatch.found = .error mismatch := by decide
  obtain ⟨hne, hmessage⟩ := text_identifies.2 _ _ mismatch h
  refine ⟨h, hne, ?_⟩
  rw [(hmessage .unknown).1]
  decide

end Export

end DecodeTables
