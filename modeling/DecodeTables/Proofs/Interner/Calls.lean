import Mathlib.Data.List.Basic
import DecodeTables.Proofs.Interner.Lookup

/-!
# Runs of calls to an interner

Interning is the only call that changes an interner, and all it does is to list a text that is new,
`texts_call`. So after any run of calls the interner knows the texts that were interned, in order of
first interning, and the symbol of a text is its place in that list, `find_eq_some_iff_get`. What is
said in one state of the run holds in all later ones, `lookup_call_all`. `call_all_numbers` puts
together what this means for a run that begins without texts.
-/

namespace DecodeTables.Interner

/-- What an interner can be asked to do. -/
inductive Call where
  /-- Intern a text. -/
  | intern (text : String)
  /-- Find the symbol of a text. -/
  | find (text : String)
  /-- Look up the text of a symbol. -/
  | lookup (symbol : Symbol)
deriving DecidableEq, Repr

/-- What an interner answers to a call. -/
inductive Answer where
  | symbol (symbol? : Option Symbol)
  | text (text? : Option String)
deriving DecidableEq, Repr

/-- The text that a call interns. -/
def Call.interned? : Call → Option String
  | intern text => some text
  | find _ => none
  | lookup _ => none

/-- Carries out a call. -/
def call (interner : Interner) : Call → Interner × Answer
  | .intern text => (interner.insert text, .symbol (some (interner.intern text).2))
  | .find text => (interner, .symbol (interner.find? text))
  | .lookup symbol => (interner, .text (interner.lookup? symbol))

/-- Carries out calls in order. Gives the interner afterwards, and all answers. -/
def callAll (interner : Interner) : List Call → Interner × List Answer
  | [] => (interner, [])
  | call :: calls =>
      let (next, answer) := interner.call call
      let (last, answers) := next.callAll calls
      (last, answer :: answers)

variable {interner : Interner} {text : String} {symbol : Symbol} {calls : List Call}

/-- The symbol of a text is its place among the interned texts, counted from one. -/
theorem find_eq_some_iff_get :
    interner.find? text = some symbol ↔
      ∃ index, interner.texts[index]? = some text ∧ symbol = ⟨index + 1⟩ := by
  rw [find_eq_some_iff, lookup?]
  obtain ⟨id⟩ := symbol
  cases id with
  | zero => simp [Symbol.text?]
  | succ index => simp [Symbol.text?]

/-- So an interned text is found under its place. -/
theorem find_of_mem (h : text ∈ interner.texts) :
    interner.find? text = some ⟨interner.texts.idxOf text + 1⟩ :=
  find_eq_some_iff_get.2 ⟨_, List.getElem?_idxOf h, rfl⟩

/-- A call can only add to the interned texts, at the end. -/
theorem texts_call (interner : Interner) (call : Call) :
    (interner.call call).1.texts = call.interned?.toList.foldl addNew interner.texts := by
  cases call with
  | intern text => exact texts_insert interner text
  | find | lookup => rfl

/-- So do calls. -/
theorem texts_call_all (interner : Interner) (calls : List Call) :
    (interner.callAll calls).1.texts =
      (calls.filterMap Call.interned?).foldl addNew interner.texts := by
  induction calls generalizing interner with
  | nil => rfl
  | cons call calls ih =>
      show ((interner.call call).1.callAll calls).1.texts = _
      rw [ih, texts_call, List.filterMap_cons]
      cases call.interned? <;> rfl

/-- What a symbol stands for does not change with any call. -/
theorem lookup_call (h : interner.lookup? symbol = some text) (call : Call) :
    (interner.call call).1.lookup? symbol = some text := by
  cases call with
  | intern other => exact lookup_insert h other
  | find | lookup => exact h

/-- Nor does it change with several calls. -/
theorem lookup_call_all (h : interner.lookup? symbol = some text) (calls : List Call) :
    (interner.callAll calls).1.lookup? symbol = some text := by
  induction calls generalizing interner with
  | nil => exact h
  | cons call calls ih => exact ih (lookup_call h call)

/-- So the symbol of a text does not change either. -/
theorem find_call_all (h : interner.find? text = some symbol) (calls : List Call) :
    (interner.callAll calls).1.find? text = some symbol :=
  find_eq_some_iff.2 (lookup_call_all (find_eq_some_iff.1 h) calls)

/-- Wherever in a run a text is interned, the answer is the symbol that it has in the end. -/
theorem answer_intern {place : Nat} (h : calls[place]? = some (.intern text)) :
    ∃ symbol, (interner.callAll calls).2[place]? = some (.symbol (some symbol)) ∧
      (interner.callAll calls).1.find? text = some symbol := by
  induction calls generalizing interner place with
  | nil => cases h
  | cons call calls ih =>
      cases place with
      | zero =>
          obtain rfl : call = .intern text := Option.some.inj h
          exact ⟨_, rfl, find_call_all (find_insert_self interner text) calls⟩
      | succ place => exact @ih (interner.call call).1 place h

/-- Every symbol in the answers of a run stands for a text in the end. -/
theorem lookup_of_answer (h : .symbol (some symbol) ∈ (interner.callAll calls).2) :
    ∃ text, (interner.callAll calls).1.lookup? symbol = some text := by
  induction calls generalizing interner with
  | nil => cases h
  | cons call calls ih =>
      rcases List.mem_cons.1 h with hfirst | hrest
      · have hknown : ∃ text, (interner.call call).1.find? text = some symbol := by
          cases call with
          | intern text =>
              cases hfirst
              exact ⟨text, find_insert_self interner text⟩
          | find text => exact ⟨text, (Answer.symbol.inj hfirst).symm⟩
          | lookup => cases hfirst
        obtain ⟨text, hfind⟩ := hknown
        exact ⟨text, lookup_call_all (find_eq_some_iff.1 hfind) calls⟩
      · exact ih hrest

theorem mem_interned_iff : text ∈ calls.filterMap Call.interned? ↔ .intern text ∈ calls := by
  rw [List.mem_filterMap]
  constructor
  · intro hthere
    obtain ⟨call, hmem, hcall⟩ := hthere
    cases call with
    | intern other => rwa [← Option.some.inj hcall]
    | find | lookup => cases hcall
  · intro hmem
    exact ⟨.intern text, hmem, rfl⟩

/-- The interned texts of a run that begins without any are those of its calls. -/
theorem mem_texts_call_all :
    text ∈ (({} : Interner).callAll calls).1.texts ↔ .intern text ∈ calls := by
  rw [texts_call_all, ← mem_interned_iff]
  exact mem_first_uses

/-- In such a run the symbols that stand for a text in the end are those among the answers. -/
theorem mem_answers_iff :
    .symbol (some symbol) ∈ (({} : Interner).callAll calls).2 ↔
      ∃ text, (({} : Interner).callAll calls).1.lookup? symbol = some text := by
  refine ⟨lookup_of_answer, ?_⟩
  rintro ⟨text, hlookup⟩
  -- the symbol was the answer when the text was interned
  have hfind := find_eq_some_iff.2 hlookup
  have hknown := find_is_some_iff.1 (Option.isSome_of_eq_some hfind)
  obtain ⟨place, hplace⟩ := List.mem_iff_getElem?.1 (mem_texts_call_all.1 hknown)
  obtain ⟨given, hanswer, hgiven⟩ := @answer_intern {} text calls place hplace
  obtain rfl : symbol = given := Option.some.inj (hfind.symm.trans hgiven)
  exact List.mem_of_getElem? hanswer

/-- An interner numbers the texts that it is given 1, 2, 3, … in order of first interning, and
answers with these numbers, all of which have 32 bits if there are not too many texts. Different
texts have different numbers, the text of a number stays the same for good, and what was not
interned is not found. Nothing has the number zero or one that was never given as an answer. -/
theorem call_all_numbers (calls later : List Call)
    (hfew : (firstUses (calls.filterMap Call.interned?)).length < UInt32.size) :
    let texts := firstUses (calls.filterMap Call.interned?)
    let interner := (({} : Interner).callAll calls).1
    let answers := (({} : Interner).callAll calls).2
    let after := (interner.callAll later).1
    interner.size = texts.length ∧
      (∀ (index : Nat) (text : String), texts[index]? = some text →
        interner.find? text = some ⟨index + 1⟩ ∧ index + 1 < UInt32.size) ∧
      (∀ (place : Nat) (text : String), calls[place]? = some (.intern text) →
        ∃ symbol, answers[place]? = some (.symbol (some symbol)) ∧
          interner.find? text = some symbol) ∧
      (∀ text ∈ texts, ∀ other ∈ texts,
        interner.find? text = interner.find? other ↔ text = other) ∧
      (∀ text symbol, interner.find? text = some symbol →
        interner.lookup? symbol = some text ∧ after.lookup? symbol = some text ∧
          after.find? text = some symbol) ∧
      (∀ text, (interner.find? text = none ↔ Call.intern text ∉ calls) ∧
        interner.call (.find text) = (interner, .symbol (interner.find? text))) ∧
      interner.lookup? ⟨0⟩ = none ∧
      ∀ symbol, interner.lookup? symbol = none ↔ Answer.symbol (some symbol) ∉ answers := by
  intro texts interner answers after
  have htexts : interner.texts = texts := texts_call_all {} calls
  have hfind {text : String} {index : Nat} (h : texts[index]? = some text) :
      interner.find? text = some ⟨index + 1⟩ := by
    rw [← htexts] at h
    exact find_eq_some_iff_get.2 ⟨index, h, rfl⟩
  refine ⟨congrArg List.length htexts, ?_, fun _ _ => answer_intern, ?_, ?_, ?_, rfl, ?_⟩
  · intro index text hget
    obtain ⟨hlt, -⟩ := List.getElem?_eq_some_iff.1 hget
    exact ⟨hfind hget, Nat.lt_of_le_of_lt hlt hfew⟩
  · intro text htext other _
    obtain ⟨index, hget⟩ := List.mem_iff_getElem?.1 htext
    refine ⟨fun hsame => ?_, congrArg interner.find?⟩
    rw [hfind hget] at hsame
    exact find_injective (hfind hget) hsame.symm
  · intro text symbol hsymbol
    have hlookup := find_eq_some_iff.1 hsymbol
    exact ⟨hlookup, lookup_call_all hlookup later, find_call_all hsymbol later⟩
  · intro text
    refine ⟨?_, rfl⟩
    rw [← mem_texts_call_all, ← find_is_some_iff, Bool.not_eq_true, Option.isSome_eq_false_iff,
      Option.isNone_iff_eq_none]
  · intro symbol
    rw [mem_answers_iff, not_exists, Option.eq_none_iff_forall_ne_some]

/-- The empty text and a text with a null character are texts like any other. The second one is
interned again, found and looked up after a third text was only asked for. -/
theorem call_all_numbers_null :
    let calls : List Call :=
      [.intern "", .intern "r\x00", .find "r", .intern "r\x00", .lookup ⟨2⟩]
    let interner := (({} : Interner).callAll calls).1
    let after := (interner.callAll [.intern "r"]).1
    (firstUses (calls.filterMap Call.interned?)).length < UInt32.size ∧
      interner.size = 2 ∧ interner.find? "" = some ⟨1⟩ ∧ interner.find? "r\x00" = some ⟨2⟩ ∧
      interner.find? "r" = none ∧ interner.lookup? ⟨3⟩ = none ∧
      after.lookup? ⟨2⟩ = some "r\x00" ∧ after.find? "r" = some ⟨3⟩ := by
  intro calls interner after
  have hfew : (firstUses (calls.filterMap Call.interned?)).length < UInt32.size := by decide
  obtain ⟨hsize, hfind, -, -, hstays, hnone, -, hnever⟩ :=
    call_all_numbers calls [.intern "r"] hfew
  have hsecond : interner.find? "r\x00" = some ⟨2⟩ := (hfind 1 "r\x00" (by decide)).1
  exact ⟨hfew, hsize, (hfind 0 "" (by decide)).1, hsecond, (hnone "r").1.2 (by decide),
    (hnever ⟨3⟩).2 (by decide), (hstays "r\x00" ⟨2⟩ hsecond).2.1, by decide⟩

end DecodeTables.Interner
