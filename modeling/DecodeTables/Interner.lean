import DecodeTables.FirstUse

/-!
# Interned texts

An `Interner` numbers distinct texts 1, 2, 3, … in the order in which they were first interned.
The number of a text is its `Symbol`. Interning a text again gives the symbol it already has, and
nothing is ever removed, so a symbol stands for the same text for good.
-/

namespace DecodeTables

/-- The number of an interned text. No text has the number zero. Numbers have no bound here. They
agree with numbers that are kept in 32 bits as long as there are fewer than `2 ^ 32` texts, as the
results on interners and on files assume. -/
structure Symbol where
  id : Nat
deriving DecidableEq, Repr

namespace Symbol

/-- The text that a symbol stands for, if `texts` are those interned so far. -/
def text? (texts : List String) (symbol : Symbol) : Option String :=
  match symbol.id with
  | 0 => none
  | index + 1 => texts[index]?

/-- As long as there are no texts, no text has a symbol. -/
theorem lookup_nil (text : String) (symbol : Symbol) :
    List.lookup text [] = some symbol ↔ symbol.text? [] = some text := by
  obtain ⟨_ | _⟩ := symbol <;> simp [text?]

/-- One more text changes nothing but that the next symbol stands for it. -/
theorem text_append {texts : List String} {text other : String} {symbol : Symbol} :
    symbol.text? (texts ++ [text]) = some other ↔
      symbol.text? texts = some other ∨ symbol = ⟨texts.length + 1⟩ ∧ text = other := by
  obtain ⟨id⟩ := symbol
  cases id with
  | zero => simp [text?]
  | succ index =>
    simp only [text?, mk.injEq, Nat.add_right_cancel_iff]
    rcases Nat.lt_trichotomy index texts.length with hlt | rfl | hgt
    · simp [List.getElem?_append_left hlt, Nat.ne_of_lt hlt]
    · simp
    · have hlong : (texts ++ [text]).length ≤ index := by
        rw [List.length_append]
        exact hgt
      simp [List.getElem?_eq_none hlong, List.getElem?_eq_none (Nat.le_of_lt hgt),
        Nat.ne_of_gt hgt]

end Symbol

/-- The distinct texts interned so far, oldest first, and the symbol of each. -/
structure Interner where
  texts : List String := []
  symbols : List (String × Symbol) := []
  inverse : ∀ text symbol,
    symbols.lookup text = some symbol ↔ symbol.text? texts = some text := by
      exact Symbol.lookup_nil

namespace Interner

/-- The number of distinct texts. -/
def size (interner : Interner) : Nat :=
  interner.texts.length

/-- The symbol of `text`, if it has been interned. -/
def find? (interner : Interner) (text : String) : Option Symbol :=
  interner.symbols.lookup text

/-- The text whose symbol is `symbol`, if there is one. -/
def lookup? (interner : Interner) (symbol : Symbol) : Option String :=
  symbol.text? interner.texts

/-- The interner with one more text, which gets the next symbol. -/
def extend (interner : Interner) (text : String) (hnew : interner.find? text = none) :
    Interner where
  texts := interner.texts ++ [text]
  symbols := interner.symbols ++ [(text, ⟨interner.size + 1⟩)]
  inverse other symbol := by
    rw [Symbol.text_append, ← interner.inverse, List.lookup_append, Option.or_eq_some_iff]
    refine or_congr_right ?_
    by_cases hsame : other = text
    · subst hsame
      rw [find?] at hnew
      simp [hnew, size, eq_comm]
    · simp [List.lookup_cons, beq_false_of_ne hsame, Ne.symm hsame]

/-- `intern interner text` gives the interner that knows `text`, and the symbol of `text`: the one
it had before, or else the next number. -/
def intern (interner : Interner) (text : String) : Interner × Symbol :=
  match hfind : interner.find? text with
  | some symbol => (interner, symbol)
  | none => (interner.extend text hfind, ⟨interner.size + 1⟩)

/-- The interner once `text` has been interned. -/
def insert (interner : Interner) (text : String) : Interner :=
  (interner.intern text).1

end Interner

end DecodeTables
