import DecodeTables.Interner

/-!
# Symbols and the texts they stand for

`find_eq_some_iff` says that finding the symbol of a text and looking up the text of a symbol are
inverse to each other. As texts are only ever added at the end, what is found or looked up stays so,
`find_insert` and `lookup_insert`.
-/

namespace DecodeTables.Interner

variable {interner : Interner} {text : String} {symbol : Symbol}

/-- A text is found under a symbol exactly if it is what the symbol stands for. -/
theorem find_eq_some_iff :
    interner.find? text = some symbol ↔ interner.lookup? symbol = some text :=
  interner.inverse text symbol

/-- Two texts have the same symbol only if they are the same. -/
theorem find_injective {other : String} (htext : interner.find? text = some symbol)
    (hother : interner.find? other = some symbol) : text = other :=
  Option.some.inj ((find_eq_some_iff.1 htext).symm.trans (find_eq_some_iff.1 hother))

/-- A text has a symbol exactly if it was interned. -/
theorem find_is_some_iff : (interner.find? text).isSome = true ↔ text ∈ interner.texts := by
  rw [Option.isSome_iff_exists, List.mem_iff_getElem?]
  constructor
  · intro hfound
    obtain ⟨⟨id⟩, hsymbol⟩ := hfound
    rw [find_eq_some_iff] at hsymbol
    cases id with
    | zero => cases hsymbol
    | succ index => exact ⟨index, hsymbol⟩
  · intro hthere
    obtain ⟨index, hget⟩ := hthere
    exact ⟨⟨index + 1⟩, find_eq_some_iff.2 hget⟩

/-- Interning a text again changes nothing. -/
theorem intern_of_find (h : interner.find? text = some symbol) :
    interner.intern text = (interner, symbol) := by
  unfold intern
  split
  · next other hother =>
    rw [h] at hother
    rw [Option.some.inj hother]
  · next hnone =>
    rw [h] at hnone
    cases hnone

/-- Interning a new text adds it at the end. -/
theorem intern_of_new (h : interner.find? text = none) :
    interner.intern text = (interner.extend text h, ⟨interner.size + 1⟩) := by
  unfold intern
  split
  · next symbol hsymbol =>
    rw [h] at hsymbol
    cases hsymbol
  · rfl

/-- What a symbol stands for does not change. -/
theorem lookup_insert (h : interner.lookup? symbol = some text) (other : String) :
    (interner.insert other).lookup? symbol = some text := by
  rw [insert]
  cases hother : interner.find? other with
  | some known => rw [intern_of_find hother, h]
  | none =>
      rw [intern_of_new hother]
      exact Symbol.text_append.2 (Or.inl h)

/-- The symbol of a text does not change. -/
theorem find_insert (h : interner.find? text = some symbol) (other : String) :
    (interner.insert other).find? text = some symbol :=
  find_eq_some_iff.2 (lookup_insert (find_eq_some_iff.1 h) other)

/-- Interning a text gives the symbol that it is found under from then on. -/
theorem find_insert_self (interner : Interner) (text : String) :
    (interner.insert text).find? text = some (interner.intern text).2 := by
  rw [insert]
  cases hfind : interner.find? text with
  | some symbol => rw [intern_of_find hfind, hfind]
  | none =>
      rw [intern_of_new hfind, find_eq_some_iff]
      exact Symbol.text_append.2 (Or.inr ⟨rfl, rfl⟩)

/-- Interning a text lists it, if it is new. -/
theorem texts_insert (interner : Interner) (text : String) :
    (interner.insert text).texts = addNew interner.texts text := by
  rw [insert, addNew]
  cases hfind : interner.find? text with
  | some symbol => rw [intern_of_find hfind, if_pos (find_is_some_iff.1 (by rw [hfind]; rfl))]
  | none =>
      rw [intern_of_new hfind, if_neg fun hmem => by simpa [hfind] using find_is_some_iff.2 hmem]
      rfl

end DecodeTables.Interner
