import IndentedText.Proofs.Layout
import IndentedText.Text.Trimmed

/-!
Documentation texts. What is written of one is a block of lines between quotes, without the blanks around
it. Blanks decide nothing but whether there is a documentation at all, so two that differ only in the
blanks around them can take each other's place.
-/

namespace IndentedText

namespace Section

theorem Settled.laid_eq {s : Section} (settled : s.Settled) (clean : s.pending = false)
    (lines : List Line) :
    s.laid lines =
      { s with written := s.written + lines.length, fragments := s.fragments ++ lines.map .line } := by
  cases lines with
  | nil => simp
  | cons first rest =>
    have raw := settled.raw clean
    have rows := settled.rows clean
    simp [Section.laid, rowLines, Table.align, clean, raw, rows]

end Section

namespace Code

section Same

variable {doc other : String} (given : doc ≠ "") (otherGiven : other ≠ "")
  (same : Text.trim other = Text.trim doc)
include given otherGiven same

theorem emitDoc_congr : emitDoc other = emitDoc doc := by
  rw [emitDoc, emitDoc, if_neg given, if_neg otherGiven, same]

omit same in
theorem beq_empty_congr : (other == "") = (doc == "") := by
  rw [beq_eq_false_iff_ne.2 given, beq_eq_false_iff_ne.2 otherGiven]

theorem FunctionDef.emit_congr (f : FunctionDef) :
    ({ f with doc := other } : FunctionDef).emit = ({ f with doc := doc } : FunctionDef).emit := by
  simp only [emit, emitDoc_congr given otherGiven same, beq_empty_congr given otherGiven]
  rfl

theorem ClassDef.emit_congr (c : ClassDef) :
    ({ c with doc := other } : ClassDef).emit = ({ c with doc := doc } : ClassDef).emit := by
  simp only [emit, emitDoc_congr given otherGiven same, beq_empty_congr given otherGiven]
  rfl

end Same

namespace ClassDef

theorem emitMethods_congr {method other : FunctionDef} (same : other.emit = method.emit)
    (first : Bool) (before after : List FunctionDef) :
    emitMethods first (before ++ other :: after) = emitMethods first (before ++ method :: after) := by
  induction before generalizing first with
  | nil => rw [List.nil_append, List.nil_append, emitMethods, emitMethods, same]
  | cons m rest ih => rw [List.cons_append, List.cons_append, emitMethods, emitMethods, ih]

theorem emit_method_congr {method other : FunctionDef} (same : other.emit = method.emit)
    (c : ClassDef) (before after : List FunctionDef) :
    ({ c with methods := before ++ other :: after } : ClassDef).emit =
      ({ c with methods := before ++ method :: after } : ClassDef).emit := by
  have some (m : FunctionDef) : (before ++ m :: after).isEmpty = false := by simp
  simp only [emit, some, emitMethods_congr same]
  rfl

end ClassDef

end Code

namespace Document

open Code

/-- To a section in which nothing waits a documentation is written as quotes, the lines of the text without
the blanks around it, and quotes again, and an empty one is not written. Of blanks alone nothing is left
between the quotes; otherwise the first line there begins and the last ends with something that is not
blank. No line has a line break in it. Documentations that are equal but for the blanks around them are
written in the same way, and so is a function or a class that has the one in place of the other. -/
theorem doc_block {d : Document} (reached : d.Reachable) {b : Nat} (clean : (d.get b).pending = false)
    (doc : String) :
    let s := d.get b
    let lines := Text.lines (Text.trim doc)
    let block := ["\"\"\""] ++ lines ++ ["\"\"\""]
    (doc = "" → inSection b (emitDoc doc) d = .ok () d) ∧
    (doc ≠ "" → inSection b (emitDoc doc) d = .ok () (d.put b
      { s with
        written := s.written + block.length
        fragments := s.fragments ++ block.map fun text => .line ⟨s.depth, text⟩ })) ∧
    (∃ before after, doc = before ++ Text.trim doc ++ after ∧
      ∀ c ∈ (before ++ after).toList, Text.isBlank c = true) ∧
    (lines = [] ↔ ∀ c ∈ doc.toList, Text.isBlank c = true) ∧
    (lines ≠ [] → (∃ first, lines.head? = some first ∧ Text.BeginsFilled first) ∧
      ∃ last, lines.getLast? = some last ∧ Text.EndsFilled last) ∧
    (∀ line ∈ block, Text.Unbroken line) ∧
    ∀ other, doc ≠ "" → other ≠ "" → Text.trim other = Text.trim doc →
      emitDoc other = emitDoc doc ∧
      (∀ f : FunctionDef,
        ({ f with doc := other } : FunctionDef).emit = ({ f with doc := doc } : FunctionDef).emit) ∧
      ∀ c : ClassDef,
        ({ c with doc := other } : ClassDef).emit = ({ c with doc := doc } : ClassDef).emit ∧
        ∀ (before after : List FunctionDef) (f : FunctionDef),
          ({ c with methods := before ++ { f with doc := other } :: after } : ClassDef).emit =
            ({ c with methods := before ++ { f with doc := doc } :: after } : ClassDef).emit := by
  intro s lines block
  have settled := reached.orderly.settled b
  have written := inSection_of_ok (run_emitDoc doc s)
  refine ⟨?_, fun given => ?_, Text.exists_eq_append_trim doc, Text.lines_trim_eq_nil, fun filled => ?_,
    fun line member => ?_, fun other given otherGiven same => ?_⟩
  · rintro rfl
    rwa [docLayout, if_pos rfl, Section.laid_nil, put_get] at written
  · have layout : docLayout doc s.depth = linesAt s.depth block := if_neg given
    rw [written, settled.laid_eq clean, layout, linesAt, List.length_map, List.map_map]
    rfl
  · exact ⟨Text.first_line_trim filled, Text.last_line_trim filled⟩
  · have quotes : Text.Unbroken "\"\"\"" := by decide
    rcases List.mem_append.1 member with above | last
    · rcases List.mem_append.1 above with first | inside
      · rwa [List.mem_singleton.1 first]
      · exact Text.unbroken_of_mem_lines inside
    · rwa [List.mem_singleton.1 last]
  · have methods (f : FunctionDef) := f.emit_congr given otherGiven same
    exact ⟨emitDoc_congr given otherGiven same, methods, fun c => ⟨c.emit_congr given otherGiven same,
      fun before after f => c.emit_method_congr (methods f) before after⟩⟩

theorem doc_block_nested :
    let d := (Step.runAll [.act 0 (.command .indent), .act 0 (.command (.writeLine "x")), .act 0 .nest,
      .act 1 (.command .indent)] (.new none)).2
    let doc := "\u3000\n\ta \r\n\u2028 b\r"
    let other := "a \r\n\u2028 b"
    d.Reachable ∧ (d.get 1).pending = false ∧ doc ≠ "" ∧ other ≠ "" ∧
      Text.trim other = Text.trim doc ∧
      inSection 1 (emitDoc doc) d = .ok () (d.put 1
        { d.get 1 with
          written := 5
          fragments := ["\"\"\"", "a ", "", " b", "\"\"\""].map fun text => .line ⟨2, text⟩ }) ∧
      (∃ first, (Text.lines (Text.trim doc)).head? = some first ∧ Text.BeginsFilled first) ∧
      ∀ f : FunctionDef,
        ({ f with doc := other } : FunctionDef).emit = ({ f with doc := doc } : FunctionDef).emit := by
  intro d doc other
  have reached : d.Reachable := ⟨none, _, rfl⟩
  have clean : (d.get 1).pending = false := by decide
  have given : doc ≠ "" := by decide
  have otherGiven : other ≠ "" := by decide
  have trimmed : Text.trim doc = other := by decide +kernel
  have same : Text.trim other = Text.trim doc := by
    rw [trimmed]
    decide +kernel
  have lines : Text.lines (Text.trim doc) = ["a ", "", " b"] := by decide +kernel
  have filled : Text.lines (Text.trim doc) ≠ [] := by simp [lines]
  obtain ⟨-, written, -, -, ends, -, alike⟩ := doc_block reached clean doc
  have block := written given
  rw [lines] at block
  exact ⟨reached, clean, given, otherGiven, same, block, (ends filled).1,
    (alike other given otherGiven same).2.1⟩

end Document

end IndentedText
