/-!
Optional texts that count only when they hold something.
-/

namespace IndentedText.Text

/-- An empty text says no more than an absent one. -/
def given (text : Option String) : Option String :=
  text.filter (· ≠ "")

@[simp] theorem given_none : given none = none := rfl

@[simp] theorem given_empty : given (some "") = none := by
  simp [given]

theorem given_of_ne_empty {text : String} (h : text ≠ "") : given (some text) = some text := by
  simp [given, h]

theorem given_eq_none {text : Option String} : given text = none ↔ text = none ∨ text = some "" := by
  cases text <;> simp [given]

theorem eq_some_of_given {text : Option String} {held : String} (h : given text = some held) :
    text = some held :=
  (Option.filter_eq_some_iff.1 h).1

theorem getD_given (text : Option String) : (given text).getD "" = text.getD "" := by
  cases text with
  | none => rfl
  | some text =>
    by_cases h : text = ""
    · rw [h, given_empty]
      rfl
    · rw [given_of_ne_empty h]

theorem given_some_getD (text : Option String) : given (some (text.getD "")) = given text := by
  cases text with
  | none => exact given_empty
  | some text => rfl

theorem given_eq_given {text other : Option String} :
    given text = given other ↔ text.getD "" = other.getD "" := by
  constructor
  · intro same
    rw [← getD_given text, same, getD_given]
  · intro same
    rw [← given_some_getD text, same, given_some_getD]

end IndentedText.Text
