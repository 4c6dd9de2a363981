import IndentedText.Proofs.Rendering

/-!
Sections that print nothing. Such a section leaves no trace: without its place everything renders the
same, and not even a blank line is missing.
-/

namespace IndentedText

def Section.withoutPlace (child : Nat) (s : Section) : Section :=
  { s with fragments := s.fragments.filter (· ≠ .nested child) }

theorem Section.content_withoutPlace (child : Nat) (s : Section) :
    (s.withoutPlace child).content = s.content.filter (· ≠ .nested child) := by
  have rows : s.rowLines.filter (· ≠ .nested child) = s.rowLines :=
    List.filter_eq_self.2 fun fragment inside => by
      obtain ⟨text, -, rfl⟩ := List.mem_map.1 inside
      rfl
  have raw : s.rawLines.filter (· ≠ .nested child) = s.rawLines := by
    unfold rawLines
    split <;> rfl
  rw [content, content, List.filter_append, List.filter_append, rows, raw]
  rfl

namespace Document

/-- The document with the place of section `child` taken out of every section that has it. -/
def withoutPlace (child : Nat) (d : Document) : Document :=
  { sections := d.sections.map (Section.withoutPlace child) }

theorem size_withoutPlace (child : Nat) (d : Document) : (d.withoutPlace child).size = d.size :=
  List.length_map _

theorem get_withoutPlace (child : Nat) (d : Document) (b : Nat) :
    (d.withoutPlace child).get b = (d.get b).withoutPlace child := by
  simp only [get, withoutPlace, List.getD_eq_getElem?_getD, List.getElem?_map]
  cases d.sections[b]? <;> rfl

theorem lines_withoutPlace {d : Document} {child : Nat} (silent : d.lines child = []) (b : Nat) :
    (d.withoutPlace child).lines b = d.lines b := by
  rw [Document.lines, Document.lines, get_withoutPlace, size_withoutPlace, Section.content_withoutPlace]
  refine if_congr Iff.rfl ?_ rfl
  induction (d.get b).content with
  | nil => rfl
  | cons fragment rest ih =>
    rw [List.filter_cons, List.flatMap_cons]
    cases fragment with
    | line l => simpa using ih
    | nested x =>
      by_cases gone : x = child
      · subst gone
        simpa [silent] using ih
      · have below : b < x ∧ x < d.size → (d.withoutPlace child).lines x = d.lines x :=
          fun _ => lines_withoutPlace silent x
        simpa +contextual [gone, below] using ih
termination_by d.size - b

theorem unit_withoutPlace (child : Nat) (d : Document) : (d.withoutPlace child).unit = d.unit := by
  rw [unit, unit, get_withoutPlace]
  rfl

theorem Orderly.withoutPlace {d : Document} (orderly : d.Orderly) (child : Nat) :
    (d.withoutPlace child).Orderly := by
  refine ⟨fun b => ?_, fun b x held => ?_, fun b inside => ?_⟩
  · rw [get_withoutPlace]
    exact ⟨(orderly.settled b).raw, (orderly.settled b).rows⟩
  · rw [get_withoutPlace] at held
    rw [size_withoutPlace]
    exact orderly.order b x (List.mem_of_mem_filter held)
  · rw [size_withoutPlace] at inside
    rw [unit_withoutPlace, get_withoutPlace]
    exact orderly.unit b inside

theorem Orderly.prints_withoutPlace {d : Document} (orderly : d.Orderly) {child : Nat}
    (silent : d.lines child = []) (b : Nat) (ambient : Int) :
    ∃ text, d.Prints b ambient text ∧ (d.withoutPlace child).Prints b ambient text :=
  ⟨_, orderly.prints_lines rfl rfl ambient, (orderly.withoutPlace child).prints_lines
    (unit_withoutPlace child d) (lines_withoutPlace silent b) ambient⟩

theorem lines_of_hidden {d : Document} {b : Nat} (hidden : (d.get b).visible = false) :
    d.lines b = [] := by
  rw [Document.lines, hidden]
  rfl

theorem walk_of_hidden {d : Document} {b : Nat} (hidden : (d.get b).visible = false) :
    d.walk b = [b] := by
  rw [walk, hidden]
  rfl

theorem Orderly.prints_nothing {d : Document} (orderly : d.Orderly) {b : Nat}
    (silent : d.lines b = []) (ambient : Int) : d.Prints b ambient "" :=
  orderly.prints_lines rfl silent ambient

end Document

end IndentedText
