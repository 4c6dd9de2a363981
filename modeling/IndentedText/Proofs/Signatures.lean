import IndentedText.Code.Signature

/-!
Parameters read back from a signature. The name goes up to the first colon or equals sign and the
annotation up to the first equals sign after it, so a signature tells its parameter but for one thing: an
empty annotation and none at all are both left out.
-/

namespace IndentedText.Code

namespace Parameter

/-- What separates the parts of the parameter stands neither in its name nor in its annotation. -/
structure Separable (p : Parameter) : Prop where
  colonless : ':' ∉ p.name.toList
  equalsless : '=' ∉ p.name.toList
  annotation : ∀ annotation ∈ p.annotation, '=' ∉ annotation.toList

theorem separable_iff {p : Parameter} : p.Separable ↔ ':' ∉ p.name.toList ∧ '=' ∉ p.name.toList ∧
    ∀ annotation ∈ p.annotation, '=' ∉ annotation.toList :=
  ⟨fun ⟨colonless, equalsless, typed⟩ => ⟨colonless, equalsless, typed⟩,
    fun ⟨colonless, equalsless, typed⟩ => ⟨colonless, equalsless, typed⟩⟩

instance (p : Parameter) : Decidable p.Separable :=
  decidable_of_iff' _ separable_iff

def breakAt (stops : Char → Bool) (chars : List Char) : List Char × List Char :=
  (chars.takeWhile fun c => !stops c, chars.dropWhile fun c => !stops c)

theorem breakAt_append {stops : Char → Bool} {word rest : List Char}
    (inside : ∀ c ∈ word, stops c = false) (boundary : ∀ c ∈ rest.head?, stops c = true) :
    breakAt stops (word ++ rest) = (word, rest) := by
  have kept : ∀ c ∈ word, (!stops c) = true := fun c member => by rw [inside c member]; rfl
  rw [breakAt, List.takeWhile_append_of_pos kept, List.dropWhile_append_of_pos kept]
  cases rest with
  | nil => simp
  | cons c rest => simp [boundary c rfl]

def isSeparator (c : Char) : Bool :=
  c == ':' || c == '='

def read (signature : String) : Parameter :=
  match breakAt isSeparator signature.toList with
  | (name, ':' :: ' ' :: rest) =>
    match breakAt (· == '=') rest with
    -- The annotation has a space between itself and the equals sign.
    | (hint, '=' :: ' ' :: initial) =>
      { name := .ofList name, annotation := some (.ofList hint.dropLast)
        initial := some (.ofList initial) }
    | (hint, _) => { name := .ofList name, annotation := some (.ofList hint) }
  | (name, '=' :: initial) => { name := .ofList name, initial := some (.ofList initial) }
  | (name, _) => { name := .ofList name }

example : read "x: T = a: b = c" = { name := "x", annotation := some "T", initial := some "a: b = c" } :=
  rfl

section Separable

variable {name : String} { annotation initial : Option String}
  (separable : Separable { name, annotation, initial })
include separable

theorem Separable.breakAt_name {rest : List Char} (boundary : ∀ c ∈ rest.head?, isSeparator c = true) :
    breakAt isSeparator (name.toList ++ rest) = (name.toList, rest) := by
  refine breakAt_append (fun c member => ?_) boundary
  have colon : c ≠ ':' := fun same => separable.colonless (same ▸ member)
  have equals : c ≠ '=' := fun same => separable.equalsless (same ▸ member)
  simp [isSeparator, colon, equals]

theorem Separable.equalsless_hint {hint : String} (shown : Text.given annotation = some hint) :
    ∀ c ∈ hint.toList, (c == '=') = false := by
  intro c member
  have absent := separable.annotation hint (Text.eq_some_of_given shown)
  exact beq_eq_false_iff_ne.2 fun same => absent (same ▸ member)

end Separable

theorem read_signature {p : Parameter} (separable : p.Separable) :
    read p.signature = { p with annotation := Text.given p.annotation } := by
  obtain ⟨name, annotation, initial⟩ := p
  cases shown : Text.given annotation with
  | none =>
    cases initial with
    | none =>
      have chars : (signature { name, annotation }).toList = name.toList ++ [] := by
        simp [signature, shown]
      rw [read, chars, separable.breakAt_name (by simp)]
      simp
    | some initial =>
      have chars : (signature { name, annotation, initial := some initial }).toList =
          name.toList ++ '=' :: initial.toList := by
        simp [signature, shown]
      rw [read, chars, separable.breakAt_name (by simp [isSeparator])]
      simp
  | some hint =>
    have equalsless := separable.equalsless_hint shown
    cases initial with
    | none =>
      have chars : (signature { name, annotation }).toList =
          name.toList ++ ':' :: ' ' :: (hint.toList ++ []) := by
        simp [signature, shown]
      have cut := breakAt_append equalsless (by simp : ∀ c ∈ [].head?, (c == '=') = true)
      rw [read, chars, separable.breakAt_name (by simp [isSeparator])]
      simp only [cut, String.ofList_toList]
    | some initial =>
      have chars : (signature { name, annotation, initial := some initial }).toList =
          name.toList ++ ':' :: ' ' :: (hint.toList ++ [' '] ++ '=' :: ' ' :: initial.toList) := by
        simp [signature, shown]
      have spaced : ∀ c ∈ hint.toList ++ [' '], (c == '=') = false := by
        simpa [or_imp, forall_and] using equalsless
      have cut := breakAt_append spaced
        (by simp : ∀ c ∈ ('=' :: ' ' :: initial.toList).head?, (c == '=') = true)
      rw [read, chars, separable.breakAt_name (by simp [isSeparator])]
      simp only [cut, List.dropLast_concat, String.ofList_toList]

/-- Two parameters have the same signature just if they have the same name, the same annotation, where an
empty one is as good as none, and the same initial value, where it is not. -/
theorem signature_eq_iff {p q : Parameter} (separable : p.Separable) (other : q.Separable) :
    p.signature = q.signature ↔
      p.name = q.name ∧ p.annotation.getD "" = q.annotation.getD "" ∧ p.initial = q.initial := by
  rw [← Text.given_eq_given]
  constructor
  · intro same
    have back : ({ p with annotation := Text.given p.annotation } : Parameter) =
        { q with annotation := Text.given q.annotation } := by
      rw [← read_signature separable, same, read_signature other]
    simpa using back
  · rintro ⟨name, annotation, initial⟩
    rw [signature, signature, name, annotation, initial]

/-- Two parameters that differ only in that one has an empty annotation and the other none, and two
of which the annotation of one goes on where the initial value of the other does. -/
theorem signature_eq_iff_lookalike :
    let bare : Parameter := { name := "x", initial := some ": T = a" }
    let empty : Parameter := { name := "x", annotation := some "", initial := some ": T = a" }
    let short : Parameter := { name := "x", annotation := some "T", initial := some "a: b = c" }
    let long : Parameter := { name := "x", annotation := some "T: a", initial := some "b = c" }
    (bare.Separable ∧ empty.Separable ∧ bare.signature = empty.signature) ∧
      short.Separable ∧ long.Separable ∧ short.signature ≠ long.signature := by
  intro bare empty short long
  have bareSeparable : bare.Separable := by decide
  have emptySeparable : empty.Separable := by decide
  have shortSeparable : short.Separable := by decide
  have longSeparable : long.Separable := by decide
  refine ⟨⟨bareSeparable, emptySeparable, ?_⟩, shortSeparable, longSeparable, ?_⟩
  · exact (signature_eq_iff bareSeparable emptySeparable).2 (by decide)
  · exact mt (signature_eq_iff shortSeparable longSeparable).1 (by decide)

end Parameter

end IndentedText.Code
