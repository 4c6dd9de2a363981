import IndentedText.Proofs.Drafting

/-!
Emission writes the layout of its code. All that waits in the section comes before it: the rows in
lines of their own, the raw text at the beginning of its first line.
-/

namespace IndentedText

open Code

namespace Code

theorem Statement.lays_bodyCourse {body : List Statement} (concrete : allConcrete body = true) :
    (bodyCourse body).Lays 0 0 (layoutBody body) :=
  ((drafts_bodyCourse body).congr (draftBody_of_allConcrete concrete)).lays

theorem Statement.lays_allCourse {body : List Statement} (concrete : allConcrete body = true) :
    (allCourse body).Lays 0 0 (layoutAll body) :=
  ((drafts_allCourse body).congr (draftAll_of_allConcrete concrete)).lays

theorem FunctionDef.lays_course {f : FunctionDef} (concrete : f.isConcrete = true) :
    f.course.Lays 0 0 f.layout :=
  (f.drafts_course.congr (draft_of_isConcrete concrete)).lays

theorem ClassDef.lays_course {c : ClassDef} (concrete : c.isConcrete = true) :
    c.course.Lays 0 0 c.layout :=
  (c.drafts_course.congr (draft_of_isConcrete concrete)).lays

namespace Node

theorem lays_course {node : Node} (concrete : node.isConcrete = true) :
    node.course.Lays 0 0 node.layout :=
  (node.drafts_course.congr (draft_of_isConcrete concrete)).lays

theorem exists_layout_eq_cons {node : Node} (concrete : node.isConcrete = true) (depth : Nat) :
    ∃ text rest, node.layout depth = ⟨depth, text⟩ :: rest := by
  cases node with
  | statement s =>
    cases s with
    | abstract => cases concrete
    | _ => simp [layout, Statement.layout]
  | function f =>
    cases h : f.decorators <;> simp [layout, FunctionDef.layout, linesAt, h]
  | classDef c =>
    cases h : c.decorators <;> simp [layout, ClassDef.layout, linesAt, h]

end Node

end Code

namespace Document

/-- Code that is concrete is never refused. What is emitted is the layout of the code, below the
rows that waited, with the raw text that waited at its beginning, and after it nothing waits. -/
theorem emit_layout {node : Node} (concrete : node.isConcrete = true) (d : Document) {b : Nat}
    (inside : b < d.size) :
    let s := d.get b
    ∃ text rest, node.layout s.depth = ⟨s.depth, text⟩ :: rest ∧
      let t : Section :=
        { s with
          written := s.written + (rest.length + 1)
          fragments := s.fragments ++ s.rows.align.map (fun row => .line ⟨s.depth, row⟩) ++
            .line ⟨s.depth, String.join s.raw ++ text⟩ :: rest.map .line
          rows := []
          raw := []
          pending := false }
      (Step.act b (.command (.emit node))).run d = (.act t.status (.ok .none), d.put b t) := by
  intro s
  obtain ⟨text, rest, layout⟩ := node.exists_layout_eq_cons concrete s.depth
  refine ⟨text, rest, layout, ?_⟩
  have done := node.fault_course.trans (refusal_eq_none.2 concrete)
  have taken := (node.takes_emit s).run_lays done (Node.lays_course concrete)
  rw [layout] at taken
  have run : (Command.emit node).run s = .ok .none _ := bind_of_ok taken
  simp only [Step.run, Action.answer, Action.run, inSection_of_ok run, status, get_put_self inside]
  rfl

theorem emit_layout_waiting :
    let d := (Step.runAll [.act 0 (.command .indent), .act 0 (.command (.write "a")),
      .act 0 (.command (.queueRow (.each [some "b", none])))] (.new none)).2
    let node : Node := .classDef
      { name := "C", fields := [{ name := "x", annotation := "int", initial := some "0" }]
        methods := [{ name := "f", body := [.branch "c" [] [.loop "i" "r" [.pass]]] }] }
    node.isConcrete = true ∧ 0 < d.size ∧ ∃ text rest t,
      node.layout (d.get 0).depth = ⟨(d.get 0).depth, text⟩ :: rest ∧
        t.fragments = (d.get 0).fragments ++
          (d.get 0).rows.align.map (fun row => .line ⟨(d.get 0).depth, row⟩) ++
            .line ⟨(d.get 0).depth, String.join (d.get 0).raw ++ text⟩ :: rest.map .line ∧
        (Step.act 0 (.command (.emit node))).run d = (.act t.status (.ok .none), d.put 0 t) := by
  intro d node
  have concrete : node.isConcrete = true := by decide
  have inside : 0 < d.size := by decide
  obtain ⟨text, rest, layout, run⟩ := emit_layout concrete d inside
  exact ⟨concrete, inside, text, rest, _, layout, rfl, run⟩

end Document

end IndentedText
