import IndentedText.Proofs.Layout

/-!
Emission that comes to an abstract statement. What stands before it in the code is written as it would be
without it, and nothing behind it is.
-/

namespace IndentedText

open Code

namespace Code

open Draft

theorem Draft.cut_of_around? {draft : Draft} {around : Nat} (h : around? draft = some around) :
    ∃ depth rest, draft = (before draft).map .line ++ .gap depth around :: rest := by
  induction draft with
  | nil => cases h
  | cons item rest ih =>
    cases item with
    | line l =>
      obtain ⟨depth, behind, cut⟩ := ih h
      refine ⟨depth, behind, ?_⟩
      exact congrArg (DraftLine.line l :: ·) cut
    | gap depth other =>
      cases h
      exact ⟨depth, rest, rfl⟩

theorem Node.cut_of_not_concrete {node : Node} (abstract : node.isConcrete = false) (depth : Nat) :
    ∃ level around rest,
      node.draft depth = (before (node.draft depth)).map .line ++ .gap level around :: rest ∧
        node.course.Lays 0 around fun base => before (node.draft base) := by
  obtain ⟨gap, same, fault, lays⟩ := node.drafts_course
  rw [node.fault_course, abstract] at fault
  cases gap with
  | none => cases fault
  | some around =>
    obtain ⟨level, rest, cut⟩ := cut_of_around? (same depth)
    exact ⟨level, around, rest, cut, lays⟩

end Code

namespace Document

/-- Code that is not concrete is refused at its first abstract statement. The lines before it are
written as they would be if other code stood there and where the later ones are: below the rows that
waited, with the raw text that waited at the beginning of the first. If there are none, all that
waited still waits. The section is left deeper by as many levels as there are branches, functions and
classes around the statement. -/
theorem emit_interrupted {node : Node} (abstract : node.isConcrete = false) (d : Document) {b : Nat}
    (inside : b < d.size) :
    let s := d.get b
    ∃ (before : List Line) (level around : Nat) (rest : Draft) (t : Section),
      node.draft s.depth = before.map .line ++ .gap level around :: rest ∧
      (Step.act b (.command (.emit node))).run d =
        (.act t.status (.error .abstractStatement), d.put b t) ∧
      (before = [] → t = { s with depth := s.depth + around }) ∧
      (∀ first others, before = first :: others → t =
        { s with
          depth := s.depth + around
          written := s.written + (others.length + 1)
          fragments := s.fragments ++ s.rows.align.map (fun row => .line ⟨s.depth, row⟩) ++
            .line ⟨first.depth, String.join s.raw ++ first.text⟩ :: others.map .line
          rows := []
          raw := []
          pending := false }) ∧
      ∀ filler : Statement, filler.isConcrete = true →
        let u := s.laid (before ++ filler.layout level ++ rest.flatMap (DraftLine.plug filler.layout))
        (Step.act b (.command (.emit (node.fill filler)))).run d =
          (.act u.status (.ok .none), d.put b u) := by
  intro s
  obtain ⟨level, around, rest, cut, lays⟩ := Node.cut_of_not_concrete abstract s.depth
  have refused := node.fault_course
  rw [abstract] at refused
  have stopped : node.emit s = .error .abstractStatement
      { s.laid (Draft.before (node.draft s.depth)) with depth := s.depth + around } := by
    rw [(node.takes_emit s).error _ refused, lays s.depth s rfl]
  generalize Draft.before (node.draft s.depth) = before at cut stopped
  refine ⟨before, level, around, rest, { s.laid before with depth := s.depth + around }, cut, ?_, ?_, ?_,
    fun filler concrete => ?_⟩
  · have run : (Command.emit node).run s = .error .abstractStatement _ := bind_of_error stopped
    simp only [Step.run, Action.answer, Action.run, inSection_of_error run, status, get_put_self inside]
  · intro none
    rw [none]
    rfl
  · intro first others some
    rw [some]
    rfl
  · have whole := Node.isConcrete_fill concrete node
    have done := (node.fill filler).fault_course.trans (refusal_eq_none.2 whole)
    have taken := ((node.fill filler).takes_emit s).run_lays done (Node.lays_course whole)
    have lines : (node.fill filler).layout s.depth =
        before ++ filler.layout level ++ rest.flatMap (DraftLine.plug filler.layout) := by
      rw [← node.plug_draft filler, cut, List.flatMap_append, DraftLine.flatMap_plug_lines,
        List.flatMap_cons, List.append_assoc]
      rfl
    rw [lines] at taken
    have run : (Command.emit (node.fill filler)).run s = .ok .none _ := bind_of_ok taken
    simp only [Step.run, Action.answer, Action.run, inSection_of_ok run, status, get_put_self inside]

/-- A branch in a loop in a method, and fields before it, to a section where a row and a text wait. Of
the four levels around the statement the loop alone is closed. -/
theorem emit_interrupted_waiting :
    let d := (Step.runAll [.act 0 (.command .indent), .act 0 (.command (.write "a")),
      .act 0 (.command (.queueRow (.each [some "b", none])))] (.new none)).2
    let node : Node := .classDef
      { name := "C", fields := [{ name := "x", annotation := "int", initial := some "0" }]
        methods := [{ name := "f", body := [.loop "i" "r" [.branch "c" [.pass] [.abstract]], .pass] }] }
    node.isConcrete = false ∧ 0 < d.size ∧
      ∃ (before : List Line) (level around : Nat) (rest : Draft) (t : Section),
        node.draft (d.get 0).depth = before.map .line ++ .gap level around :: rest ∧
          (Step.act 0 (.command (.emit node))).run d =
            (.act t.status (.error .abstractStatement), d.put 0 t) ∧ t.depth = (d.get 0).depth + 3 := by
  intro d node
  have abstract : node.isConcrete = false := by decide
  have inside : 0 < d.size := by decide
  obtain ⟨before, level, around, rest, t, cut, run, -⟩ := emit_interrupted abstract d inside
  have depth : (((Step.act 0 (.command (.emit node))).run d).2.get 0).depth = (d.get 0).depth + 3 := by
    decide +kernel
  rw [run, get_put_self inside] at depth
  exact ⟨abstract, inside, before, level, around, rest, t, cut, run, depth⟩

end Document

end IndentedText
