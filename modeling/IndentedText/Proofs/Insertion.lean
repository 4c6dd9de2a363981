import IndentedText.Proofs.Rendering
import IndentedText.Proofs.Split

/-!
A reserved place cuts its section in two. What is written to the section from then on may as well be
written to a second place, reserved right after the first: the text comes out the same and the same
writes are refused.
-/

namespace IndentedText

open Section (Change)

mutual

def Step.retarget (f : Nat → Nat) : Step → Step
  | .act b action => .act (f b) action
  | .indented b steps => .indented (f b) (Step.retargetAll f steps)

def Step.retargetAll (f : Nat → Nat) : List Step → List Step
  | [] => []
  | step :: rest => step.retarget f :: Step.retargetAll f rest

end

def Action.keepsOpen : Action → Bool
  | .command (.setVisible _) | .render _ | .text => false
  | _ => true

mutual

/-- Steps on section `p`, which they keep open, and on sections from `c` on. -/
def Step.Continues (p c : Nat) : Step → Prop
  | .act b action => c ≤ b ∨ b = p ∧ action.keepsOpen = true
  | .indented b steps => (c ≤ b ∨ b = p) ∧ Step.AllContinue p c steps

def Step.AllContinue (p c : Nat) : List Step → Prop
  | [] => True
  | step :: rest => step.Continues p c ∧ Step.AllContinue p c rest

end

inductive Faults where
  | mk (fault : Option Fault) (inside : List Faults)

mutual

def Answer.faults : Answer → Faults
  | .act status outcome => .mk (Answer.act status outcome).fault []
  | .indented _ answers fault => .mk fault (Answer.allFaults answers)

def Answer.allFaults : List Answer → List Faults
  | [] => []
  | answer :: rest => answer.faults :: Answer.allFaults rest

end

theorem Answer.fault_eq {answer other : Answer} (h : answer.faults = other.faults) :
    answer.fault = other.fault := by
  cases answer <;> cases other <;> simp_all [faults, fault]

theorem Action.faults_answer (b : Nat) (action : Action) {d : Document} (orderly : d.Orderly) :
    (action.answer b d).1.faults = .mk (action.fault b d) [] := by
  rw [← (action.answer_eq b orderly).2, answer]
  split <;> rfl

namespace Document

namespace Split

variable {p : Nat} {start d e : Document}

theorem changes (split : Split p start d e) {b : Nat} (later : start.size ≤ b ∨ b = p)
    (list : List Change)
    (keeps : b = p → ∀ c ∈ list, ∀ s : Section, (c.apply s).visible = s.visible) :
    Split p start (d.after (d.on b list)) (e.after (e.on (redirect p start.size b) list)) := by
  have run : Split p start (d.after (list.map (.change b)))
      (e.after (list.map (.change (redirect p start.size b)))) := by
    induction list generalizing d e with
    | nil => exact split
    | cons c rest ih =>
      exact ih (split.change later c fun h => keeps h c (by simp) _)
        fun h other inside => keeps h other (by simp [inside])
  unfold on
  by_cases inside : b < d.size
  · rwa [if_pos inside, if_pos ((split.redirect_lt b).2 inside)]
  · rwa [if_neg inside, if_neg (mt (split.redirect_lt b).1 inside)]

theorem commits (split : Split p start d e) (sections : List Nat)
    (later : ∀ b ∈ sections, start.size ≤ b) :
    Split p start (d.after (Document.commits sections))
      (e.after (Document.commits (sections.map (shift start.size)))) := by
  induction sections generalizing d e with
  | nil => exact split
  | cons b rest ih =>
    have here := later b (by simp)
    have before := split.before
    have apart : redirect p start.size b = shift start.size b := if_neg (by omega)
    have next := split.change (.inl here) .commit fun _ => Section.commit_visible _
    rw [apart] at next
    exact ih next fun other inside => later other (by simp [inside])

theorem render (split : Split p start d e) {b : Nat} (later : start.size ≤ b) :
    Split p start (d.after (Document.commits (d.walk b)))
      (e.after (Document.commits (e.walk (redirect p start.size b)))) := by
  have before := split.before
  have apart : redirect p start.size b = shift start.size b := if_neg (by omega)
  rw [apart, split.walk_shift (by omega)]
  exact split.commits _ fun x inside =>
    Nat.le_trans later (split.first.le_of_reaches (split.first.mem_walk.1 inside))

theorem action (split : Split p start d e) {b : Nat} {action : Action}
    (continues : start.size ≤ b ∨ b = p ∧ action.keepsOpen = true) :
    Split p start (d.after (action.moves b d))
        (e.after (action.moves (redirect p start.size b) e)) ∧
      action.fault b d = action.fault (redirect p start.size b) e := by
  obtain ⟨kept, target⟩ := split.target b
  have either : start.size ≤ b ∨ b = p := continues.imp_right And.left
  have before := split.before
  cases action with
  | command c =>
    simp only [Action.moves, Action.fault, target.depth, and_true]
    refine split.changes either _ fun same change inside s => ?_
    refine Section.visible_apply change (c.course_visible (fun value shows => ?_) _ change inside) s
    subst same shows
    simp [Action.keepsOpen] at continues
    omega
  | nest =>
    refine ⟨?_, rfl⟩
    simp only [Action.moves]
    by_cases inside : b < d.size
    · rw [if_pos inside, if_pos ((split.redirect_lt b).2 inside)]
      exact (split.change either .commit fun _ => Section.commit_visible _).nest either
    · rw [if_neg inside, if_neg (mt (split.redirect_lt b).1 inside)]
      exact split
  | render ambient =>
    refine ⟨split.render ?_, rfl⟩
    simpa [Action.keepsOpen] using continues
  | text =>
    refine ⟨split.render ?_, rfl⟩
    simpa [Action.keepsOpen] using continues
  | statuses => exact ⟨split, rfl⟩

theorem leave (split : Split p start d e) {b : Nat} (either : start.size ≤ b ∨ b = p)
    (fault : Option Fault) :
    Split p start (Step.leaveBlock b fault d).2
        (Step.leaveBlock (redirect p start.size b) fault e).2 ∧
      (Step.leaveBlock b fault d).1 = (Step.leaveBlock (redirect p start.size b) fault e).1 := by
  obtain ⟨kept, target⟩ := split.target b
  simp only [Step.leaveBlock_eq, target.depth, and_true]
  refine split.changes either _ fun _ change inside s => Section.visible_apply change ?_ s
  cases hd : (d.get b).depth <;> rw [hd] at inside <;> simp [Course.outdent] at inside
  simp [inside]

mutual

theorem step : ∀ {d e : Document}, Split p start d e → ∀ step : Step, step.Continues p start.size →
    Split p start (step.run d).2 ((step.retarget (redirect p start.size)).run e).2 ∧
      (step.run d).1.faults = ((step.retarget (redirect p start.size)).run e).1.faults
  | d, e, split, .act b action, continues => by
    obtain ⟨next, fault⟩ := split.action continues
    simp only [Step.run, Step.retarget, (action.answer_eq _ split.first).1,
      (action.answer_eq _ split.second).1, action.faults_answer _ split.first,
      action.faults_answer _ split.second, fault, and_true]
    exact next
  | d, e, split, .indented b steps, continues => by
    have enter := split.changes continues.1 [.indent] (by simp [Change.apply, Section.indent])
    simp only [after_on, Section.after_cons, Section.after_nil, Change.apply] at enter
    obtain ⟨inside, answers, fault⟩ := enter.block steps continues.2
    obtain ⟨left, exit⟩ := inside.leave continues.1 (Step.runBlock steps (d.put b (d.get b).indent)).2.1
    simp only [Step.run, Step.retarget, Answer.faults, answers, ← fault, exit, and_true]
    exact left

theorem block : ∀ {d e : Document}, Split p start d e → ∀ steps : List Step,
    Step.AllContinue p start.size steps →
    Split p start (Step.runBlock steps d).2.2
        (Step.runBlock (Step.retargetAll (redirect p start.size) steps) e).2.2 ∧
      Answer.allFaults (Step.runBlock steps d).1 =
        Answer.allFaults (Step.runBlock (Step.retargetAll (redirect p start.size) steps) e).1 ∧
      (Step.runBlock steps d).2.1 =
        (Step.runBlock (Step.retargetAll (redirect p start.size) steps) e).2.1
  | d, e, split, [], _ => ⟨split, rfl, rfl⟩
  | d, e, split, first :: rest, continues => by
    obtain ⟨next, faults⟩ := split.step first continues.1
    have fault := Answer.fault_eq faults
    obtain ⟨last, others, ended⟩ := next.block rest continues.2
    rw [Step.retargetAll]
    cases h : (first.run d).1.fault with
    | none =>
      rw [Step.runBlock_of_ok h, Step.runBlock_of_ok (fault.symm.trans h)]
      exact ⟨last, by simp only [Answer.allFaults, faults, others], ended⟩
    | some refused =>
      rw [Step.runBlock_of_fault h, Step.runBlock_of_fault (fault.symm.trans h)]
      exact ⟨next, by simp only [Answer.allFaults, faults], rfl⟩

end

theorem all (split : Split p start d e) {steps : List Step}
    (continues : Step.AllContinue p start.size steps) :
    Split p start (Step.runAll steps d).2
        (Step.runAll (Step.retargetAll (redirect p start.size) steps) e).2 ∧
      Answer.allFaults (Step.runAll steps d).1 =
        Answer.allFaults (Step.runAll (Step.retargetAll (redirect p start.size) steps) e).1 := by
  induction steps generalizing d e with
  | nil => exact ⟨split, rfl⟩
  | cons first rest ih =>
    obtain ⟨next, faults⟩ := split.step first continues.1
    obtain ⟨last, others⟩ := ih next continues.2
    refine ⟨last, ?_⟩
    rw [Step.retargetAll]
    simp only [Step.runAll, Answer.allFaults, faults, others]

end Split

/-- A place cuts its section in two. What is rendered is what was there before, what stands at the
place, and what was written after it; and that is what a second place would hold if it had been
reserved right after the first and been written to instead. -/
theorem render_cut {start : Document} (reached : start.Reachable) {p : Nat} (inside : p < start.size)
    (visible : (start.get p).visible = true) {steps : List Step}
    (continues : Step.AllContinue p start.size steps) :
    ∃ d e, nest p start = .ok start.size d ∧ nest p d = .ok (start.size + 1) e ∧
      let one := Step.runAll steps d
      let two := Step.runAll (Step.retargetAll (redirect p start.size) steps) e
      Answer.allFaults one.1 = Answer.allFaults two.1 ∧
        ∀ ambient, ∃ before place after, start.Prints p ambient before ∧
          one.2.Prints start.size ambient place ∧ two.2.Prints start.size ambient place ∧
          two.2.Prints (start.size + 1) ambient after ∧
          one.2.Prints p ambient (before ++ place ++ after) ∧
          two.2.Prints p ambient (before ++ place ++ after) := by
  have orderly := reached.orderly
  have size := size_reserve inside
  have held : p < (start.reserve p).size := by omega
  have first : nest p start = .ok start.size (start.reserve p) := by
    rw [nest_eq, if_pos inside]
    rfl
  have second : nest p (start.reserve p) = .ok (start.size + 1) ((start.reserve p).reserve p) := by
    rw [nest_eq, if_pos held, size]
    rfl
  obtain ⟨split, faults⟩ := (split_reserve orderly inside visible).all continues
  refine ⟨_, _, first, second, faults, fun ambient => ?_⟩
  have place := split.lines_shift inside
  rw [shift_of_le (Nat.le_refl _)] at place
  have whole := split.lines_parent orderly visible
  have unit := split.unit.2.trans split.unit.1
  refine ⟨_, _, _, orderly.prints_lines rfl rfl ambient,
    split.first.prints_lines split.unit.1 rfl ambient, split.second.prints_lines unit place ambient,
    split.second.prints_lines unit rfl ambient, ?_, ?_⟩ <;>
    simp only [← Line.renderAll_append, ← whole]
  · exact split.first.prints_lines split.unit.1 rfl ambient
  · exact split.second.prints_lines unit (split.lines_closed orderly visible) ambient

theorem render_cut_refused :
    let start := (Step.runAll [.act 0 (.command .indent), .act 0 .nest,
      .act 1 (.command (.write "a"))] (.new none)).2
    let steps : List Step := [.act 1 (.command (.writeLine "b")),
      .act 2 (.command (.queueRow (.each [some "c"]))),
      .indented 1 [.act 1 .nest, .act 3 (.command (.writeLine "d")), .act 1 (.command .outdent)],
      .act 1 (.command .outdent)]
    start.Reachable ∧ 1 < start.size ∧ (start.get 1).visible = true ∧
      Step.AllContinue 1 start.size steps ∧
      ∃ d e, nest 1 start = .ok start.size d ∧ nest 1 d = .ok (start.size + 1) e ∧
        Answer.allFaults (Step.runAll steps d).1 =
          Answer.allFaults (Step.runAll (Step.retargetAll (redirect 1 start.size) steps) e).1 := by
  intro start steps
  have reached : start.Reachable := ⟨none, _, rfl⟩
  have inside : 1 < start.size := by decide
  have continues : Step.AllContinue 1 start.size steps := by
    have size : start.size = 2 := rfl
    simp [steps, size, Step.AllContinue, Step.Continues, Action.keepsOpen]
  obtain ⟨d, e, first, second, faults, -⟩ := render_cut reached inside rfl continues
  exact ⟨reached, inside, rfl, continues, d, e, first, second, faults⟩

end Document

end IndentedText
