import IndentedText.Proofs.Run

/-!
What a render prints and what it changes. The text is that of the lines of the section, with all that
waits counted in; the document only gets what waits committed where the render has been. So nothing
that merely looks or commits can change a later render.
-/

namespace IndentedText

def Action.isSilent : Action → Bool
  | .command .commit | .command .commitRows | .command .describe | .command .fragments => true
  | .render _ | .text | .statuses => true
  | _ => false

namespace Document

def Prints (d : Document) (b : Nat) (ambient : Int) (text : String) : Prop :=
  ∃ e, render b ambient d = .ok text e

theorem Orderly.prints_lines {d : Document} (orderly : d.Orderly) {b : Nat} {unit : String}
    {lines : List Line} (sameUnit : d.unit = unit) (sameLines : d.lines b = lines) (ambient : Int) :
    d.Prints b ambient (Line.renderAll unit ambient lines) :=
  ⟨_, by rw [orderly.render_eq, sameUnit, sameLines]⟩

theorem sameContent_commitRows (d : Document) (b : Nat) :
    SameContent d ((Move.change b .commitRows).apply d) :=
  sameContent_change (Section.content_commitRows _) rfl

theorem sameContent_silent {action : Action} (silent : action.isSilent = true) (b : Nat)
    {d : Document} (orderly : d.Orderly) : SameContent d (action.answer b d).2 := by
  rw [(action.answer_eq b orderly).1]
  cases action with
  | command c =>
    cases c with
    | commit =>
      simp only [Action.moves, Command.course, on]
      split
      · exact sameContent_commit d b
      · exact .refl d
    | commitRows =>
      simp only [Action.moves, Command.course, on]
      split
      · exact sameContent_commitRows d b
      · exact .refl d
    | describe | fragments =>
      simp only [Action.moves, Command.course, on, Course.stay]
      split <;> exact .refl d
    | _ => cases silent
  | nest => cases silent
  | render ambient => exact sameContent_commits d _
  | text => exact sameContent_commits d _
  | statuses => exact .refl d

theorem sameContent_runAll {steps : List (Nat × Action)}
    (silent : ∀ step ∈ steps, step.2.isSilent = true) {d : Document} (orderly : d.Orderly) :
    SameContent d (Step.runAll (steps.map fun step => .act step.1 step.2) d).2 := by
  induction steps generalizing d with
  | nil => exact .refl d
  | cons step rest ih =>
    exact (sameContent_silent (silent step (by simp)) step.1 orderly).trans
      (ih (fun other inside => silent other (by simp [inside])) (orderly.answer step.1 step.2))

/-- Looking and committing go unnoticed: a section renders as it would have without them. -/
theorem prints_after_silent {d : Document} (reached : d.Reachable) {steps : List (Nat × Action)}
    (silent : ∀ step ∈ steps, step.2.isSilent = true) (b : Nat) (ambient : Int) :
    ∃ text, d.Prints b ambient text ∧
      (Step.runAll (steps.map fun step => .act step.1 step.2) d).2.Prints b ambient text := by
  have orderly := reached.orderly
  have same := sameContent_runAll silent orderly
  exact ⟨_, orderly.prints_lines rfl rfl ambient,
    (orderly.runAll _).prints_lines same.unit (same.lines b) ambient⟩

theorem prints_after_child_and_rows :
    let d := (Step.runAll [.act 0 .nest, .act 1 (.command .indent), .act 1 (.command (.write "b")),
      .act 0 (.command (.queueRow (.each [some "a"])))] (.new (some "  "))).2
    let steps : List (Nat × Action) := [(1, .render 3), (0, .command .commitRows)]
    d.Reachable ∧ (∀ step ∈ steps, step.2.isSilent = true) ∧
      ∃ text, d.Prints 0 0 text ∧
        (Step.runAll (steps.map fun step => .act step.1 step.2) d).2.Prints 0 0 text := by
  intro d steps
  have reached : d.Reachable := ⟨some "  ", _, rfl⟩
  exact ⟨reached, by decide, prints_after_silent reached (by decide) 0 0⟩

theorem renderAll_eq_join (unit : String) (ambient : Int) (lines : List Line) :
    Line.renderAll unit ambient lines =
      String.join (lines.map fun line =>
        String.join (List.replicate (ambient + line.depth).toNat unit) ++ line.text ++ "\n") := by
  refine congrArg String.join (List.map_congr_left fun line _ => ?_)
  rw [Line.render, indentation_eq_join]

theorem Orderly.renderAll_unit {d : Document} (orderly : d.Orderly) (b : Nat) (ambient : Int) :
    Line.renderAll d.unit ambient (d.lines b) =
      Line.renderAll (d.get b).unit ambient (d.lines b) := by
  by_cases inside : b < d.size
  · rw [orderly.unit b inside]
  · rw [orderly.lines_eq, get_of_size_le (Nat.le_of_not_lt inside)]
    rfl

/-- A render prints the lines of its section, one below the other, and commits the sections it comes
to. It comes to an end because only later sections stand in a section. The lines of a section are its
fragments, those of the waiting rows and that of the waiting text if anything is pending, with the
lines of other sections at their places. -/
theorem render_reachable {d : Document} (reached : d.Reachable) (b : Nat) (ambient : Int) :
    let committed (s : Section) : List Fragment :=
      s.fragments ++ s.rows.align.map (fun text => .line ⟨s.depth, text⟩) ++
        if s.pending then [.line ⟨s.depth, String.join s.raw⟩] else []
    (∀ x child, .nested child ∈ (d.get x).fragments → x < child ∧ child < d.size) ∧
      (∀ x, d.lines x = if (d.get x).visible then
        (committed (d.get x)).flatMap (Fragment.lines d.lines) else []) ∧
      ∃ e, render b ambient d =
          .ok (String.join ((d.lines b).map fun line =>
            String.join (List.replicate (ambient + line.depth).toNat (d.get b).unit) ++
              line.text ++ "\n")) e ∧
        e.size = d.size ∧
        (∀ x, d.Reaches b x → e.get x =
          { d.get x with
            fragments := committed (d.get x), rows := [], raw := [], pending := false }) ∧
        ∀ x, ¬ d.Reaches b x → e.get x = d.get x := by
  intro committed
  have orderly := reached.orderly
  have same := sameContent_commits d (d.walk b)
  refine ⟨orderly.order, orderly.lines_eq, _, ?_, same.size, ?_, ?_⟩
  · rw [orderly.render_eq, orderly.renderAll_unit, renderAll_eq_join]
  · intro x reaches
    rw [get_commits, if_pos (orderly.mem_walk.2 reaches), (orderly.settled x).commit_eq]
    rfl
  · intro x apart
    rw [get_commits, if_neg (mt orderly.mem_walk.1 apart)]

theorem render_reachable_hidden :
    let d := (Step.runAll [.act 0 (.command (.write "a")), .act 0 .nest, .act 1 .nest,
      .act 2 (.command (.writeLine "b")), .act 1 (.command (.setVisible false)),
      .act 0 (.command (.queueRow (.each [some "c", none]))), .act 0 (.command (.write "d"))] (.new none)).2
    d.Reachable ∧ (d.get 0).rows = [[some "c", none]] ∧ ∃ e, render 0 (-1) d =
      .ok (String.join ((d.lines 0).map fun line =>
        String.join (List.replicate (-1 + line.depth : Int).toNat (d.get 0).unit) ++
          line.text ++ "\n")) e ∧
      (e.get 0).fragments =
        [.line ⟨0, "a"⟩, .nested 1, .line ⟨0, "c"⟩, .line ⟨0, "d"⟩] := by
  intro d
  have reached : d.Reachable := ⟨none, _, rfl⟩
  obtain ⟨-, -, e, printed, -, kept, -⟩ := render_reachable reached 0 (-1)
  refine ⟨reached, by decide +kernel, e, printed, ?_⟩
  rw [kept 0 .here]
  decide +kernel

end Document

end IndentedText
