import IndentedText.Proofs.Emission
import IndentedText.Proofs.Walk
import IndentedText.Script

/-!
A script as a run of moves. Every document that a script comes to is reached by moves, so what each
move keeps is kept by scripts, whatever their steps and wherever a fault ends a block.
-/

namespace IndentedText

open SectionM
open Section (Change)

/-- What a command does to its section, which hangs on nothing but the depth there. -/
def Command.course : Command → Nat → Course
  | write text, _ => ⟨[.write text], none⟩
  | writeLine text, _ => .line text
  | writeLines text, _ => .all ((Text.lines text).map .line)
  | queueRow columns, _ => ⟨[.queueRow columns], none⟩
  | openBlock text, _ => .openBlock text
  | closeBlock text, depth => .closeBlock text depth
  | turnBlock text, depth => .turnBlock text depth
  | indent, _ => ⟨[.indent], none⟩
  | outdent, depth => .outdent depth
  | commit, _ => ⟨[.commit], none⟩
  | commitRows, _ => ⟨[.commitRows], none⟩
  | setVisible value, _ => ⟨[.setVisible value], none⟩
  | setVisibleIfEmpty value, _ => ⟨[.setVisibleIfEmpty value], none⟩
  | describe, _ | fragments, _ => .stay
  | emit node, _ => node.course
  | fail message, _ => ⟨[], some (.raised message)⟩

theorem SectionM.Takes.map_pure {x : SectionM α} {s : Section} {course : Course} (h : Takes x s course)
    (value : β) : Takes (x >>= fun _ => pure value) s course := by
  have done := h.bind fun _ _ => takes_pure value _
  rwa [Course.andThen_stay] at done

theorem Command.takes_run (c : Command) (s : Section) : Takes c.run s (c.course s.depth) := by
  cases c with
  | write | queueRow | commit | commitRows | indent => exact .of_ok rfl
  | setVisible | setVisibleIfEmpty | describe | fragments => exact .of_ok rfl
  | writeLine text => exact (takes_writeLine text s).map_pure _
  | writeLines text => exact (takes_writeLines text s).map_pure _
  | openBlock text => exact (takes_openBlock text s).map_pure _
  | closeBlock text => exact (takes_closeBlock text s).map_pure _
  | turnBlock text => exact (takes_turnBlock text s).map_pure _
  | outdent => exact (takes_outdent s).map_pure _
  | emit node => exact (node.takes_emit s).map_pure _
  | fail message => exact .of_error rfl

theorem Command.course_plain {c : Command} (visible : ∀ value, c ≠ .setVisible value)
    (ifEmpty : ∀ value, c ≠ .setVisibleIfEmpty value) (depth : Nat) :
    ∀ change ∈ (c.course depth).changes, change.isPlain = true := by
  have outs (d : Nat) : ∀ change ∈ (Course.outdent d).changes, change.isPlain = true := by
    cases d <;> simp [Course.outdent, Change.isPlain]
  cases c with
  | setVisible value => exact absurd rfl (visible value)
  | setVisibleIfEmpty value => exact absurd rfl (ifEmpty value)
  | writeLine text => exact (Course.climbs_line text).plain
  | writeLines text => exact (Course.climbs_lines _ (Text.lines text)).plain
  | openBlock text => exact (Course.climbs_openBlock text).plain
  | emit node => exact node.climbs_course.plain
  | outdent => exact outs depth
  | closeBlock text =>
    cases depth with
    | zero => simp [Command.course, Course.closeBlock, Course.andThen, Course.outdent, Change.isPlain]
    | succ depth => exact (Course.climbs_closeBlock text 0).plain
  | turnBlock text =>
    cases depth with
    | zero =>
      simp [Command.course, Course.turnBlock, Course.closeBlock, Course.andThen, Course.outdent,
        Change.isPlain]
    | succ depth => exact (Course.climbs_turnBlock text 0).plain
  | _ => simp [Command.course, Course.stay, Change.isPlain]

theorem Command.course_visible {c : Command} (h : ∀ value, c ≠ .setVisible value) (depth : Nat) :
    ∀ change ∈ (c.course depth).changes, ∀ value, change ≠ .setVisible value := by
  intro change inside value same
  by_cases ifEmpty : ∃ value, c = .setVisibleIfEmpty value
  · obtain ⟨other, rfl⟩ := ifEmpty
    simp [course, same] at inside
  · have plain := course_plain h (fun value same => ifEmpty ⟨value, same⟩) depth change inside
    simp [same, Change.isPlain] at plain

namespace Document

/-- The changes as moves in section `b`, of which there are none where that number is not given out. -/
def on (d : Document) (b : Nat) (changes : List Change) : List Move :=
  if b < d.size then changes.map (.change b) else []

theorem after_on (d : Document) (b : Nat) (changes : List Change) :
    d.after (d.on b changes) = d.put b ((d.get b).after changes) := by
  unfold on
  by_cases inside : b < d.size
  · rw [if_pos inside]
    induction changes generalizing d with
    | nil => simp
    | cons c rest ih =>
      have size : b < ((Move.change b c).apply d).size := by simpa using inside
      rw [List.map_cons, after_cons, ih _ size]
      simp [Move.apply, get_put_self inside]
  · rw [if_neg inside, put_of_size_le (Nat.le_of_not_lt inside)]
    rfl

theorem put_indent (d : Document) (b : Nat) :
    d.put b (d.get b).indent = d.after (d.on b [.indent]) :=
  (after_on d b [.indent]).symm

theorem inSection_of_ok {x : SectionM α} {b : Nat} {d : Document} {value : α} {s : Section}
    (h : x (d.get b) = .ok value s) : inSection b x d = .ok value (d.put b s) := by
  simp [inSection, h]

theorem inSection_of_error {x : SectionM α} {b : Nat} {d : Document} {fault : Fault} {s : Section}
    (h : x (d.get b) = .error fault s) : inSection b x d = .error fault (d.put b s) := by
  simp [inSection, h]

theorem nest_eq (b : Nat) (d : Document) :
    nest b d = .ok d.size
      (d.after (if b < d.size then [.change b .commit, .nest b] else [])) := by
  unfold nest
  by_cases inside : b < d.size
  · simp [inside, Move.apply, get_put_self inside, Section.reserve_eq, Change.apply, add]
  · simp [inside]

theorem Orderly.render_eq {d : Document} (orderly : d.Orderly) (b : Nat) (ambient : Int) :
    render b ambient d =
      .ok (Line.renderAll d.unit ambient (d.lines b)) (d.after (commits (d.walk b))) := by
  change EStateM.Result.ok (renderBelow d.size ambient b d).1 (renderBelow d.size ambient b d).2 = _
  rw [renderBelow_eq d ambient b d (.refl d) orderly]

end Document

namespace Action

open Document

def moves (b : Nat) : Action → Document → List Move
  | command c, d => d.on b (c.course (d.get b).depth).changes
  | nest, d => if b < d.size then [.change b .commit, .nest b] else []
  | render _, d | text, d => commits (d.walk b)
  | statuses, _ => []

def fault (b : Nat) : Action → Document → Option Fault
  | command c, d => (c.course (d.get b).depth).fault
  | _, _ => none

theorem answer_of_ok {b : Nat} {action : Action} {d e : Document}
    (h : ∃ reply, action.run b d = .ok reply e) :
    (action.answer b d).2 = e ∧ (action.answer b d).1.fault = none := by
  obtain ⟨reply, run⟩ := h
  rw [answer, run]
  exact ⟨rfl, rfl⟩

theorem answer_of_error {b : Nat} {action : Action} {d e : Document} {fault : Fault}
    (h : action.run b d = .error fault e) :
    (action.answer b d).2 = e ∧ (action.answer b d).1.fault = some fault := by
  rw [answer, h]
  exact ⟨rfl, rfl⟩

theorem answer_command_eq (b : Nat) (c : Command) (d : Document) :
    ((command c).answer b d).2 = d.after ((command c).moves b d) ∧
      ((command c).answer b d).1.fault = (command c).fault b d := by
  simp only [moves, fault, after_on]
  have taken := c.takes_run (d.get b)
  cases hf : (c.course (d.get b).depth).fault with
  | none =>
    obtain ⟨reply, run⟩ := taken.ok hf
    exact answer_of_ok ⟨reply, inSection_of_ok run⟩
  | some fault => exact answer_of_error (inSection_of_error (taken.error fault hf))

/-- An action makes its moves. Where something waits unmarked a render would not commit it. -/
theorem answer_eq (b : Nat) (action : Action) {d : Document} (orderly : d.Orderly) :
    (action.answer b d).2 = d.after (action.moves b d) ∧
      (action.answer b d).1.fault = action.fault b d := by
  cases action with
  | command c => exact answer_command_eq b c d
  | nest =>
    refine answer_of_ok ?_
    simp only [run, bind, EStateM.bind, nest_eq]
    exact ⟨_, rfl⟩
  | render ambient =>
    refine answer_of_ok ?_
    simp only [run, bind, EStateM.bind, orderly.render_eq]
    exact ⟨_, rfl⟩
  | text =>
    refine answer_of_ok ?_
    simp only [run, Document.text, bind, EStateM.bind, orderly.render_eq]
    exact ⟨_, rfl⟩
  | statuses => exact ⟨rfl, rfl⟩

end Action

namespace Step

open Document

theorem leaveBlock_eq (b : Nat) (fault : Option Fault) (d : Document) :
    leaveBlock b fault d =
      ((Course.outdent (d.get b).depth).fault.or fault,
        d.after (d.on b (Course.outdent (d.get b).depth).changes)) := by
  have taken := takes_outdent (d.get b)
  rw [after_on]
  cases hf : (Course.outdent (d.get b).depth).fault with
  | none =>
    obtain ⟨value, run⟩ := taken.ok hf
    simp [leaveBlock, inSection_of_ok run]
  | some exit =>
    simp [leaveBlock, inSection_of_error (taken.error exit hf)]

mutual

def moves : Step → Document → List Move
  | act b action, d => action.moves b d
  | indented b steps, d =>
    let inside := d.on b [.indent] ++ blockMoves steps (d.after (d.on b [.indent]))
    let e := d.after inside
    inside ++ e.on b (Course.outdent (e.get b).depth).changes

def blockMoves : List Step → Document → List Move
  | [], _ => []
  | step :: rest, d =>
    step.moves d ++
      if (step.run d).1.fault.isSome then [] else blockMoves rest (d.after (step.moves d))

end

theorem runBlock_of_ok {step : Step} {d : Document} (h : (step.run d).1.fault = none)
    (rest : List Step) :
    runBlock (step :: rest) d =
      ((step.run d).1 :: (runBlock rest (step.run d).2).1, (runBlock rest (step.run d).2).2) := by
  simp [runBlock, h]

theorem runBlock_of_fault {step : Step} {d : Document} {fault : Fault}
    (h : (step.run d).1.fault = some fault) (rest : List Step) :
    runBlock (step :: rest) d = ([(step.run d).1], some fault, (step.run d).2) := by
  simp [runBlock, h]

def allMoves : List Step → Document → List Move
  | [], _ => []
  | step :: rest, d => step.moves d ++ allMoves rest (d.after (step.moves d))

mutual

theorem run_eq : ∀ (step : Step) {d : Document}, d.Orderly → (step.run d).2 = d.after (step.moves d)
  | act b action, d, orderly => by
    rw [run, moves]
    exact (action.answer_eq b orderly).1
  | indented b steps, d, orderly => by
    simp only [run, moves, put_indent, leaveBlock_eq, runBlock_eq steps (orderly.after _), after_append]

theorem runBlock_eq : ∀ (steps : List Step) {d : Document}, d.Orderly →
    (runBlock steps d).2.2 = d.after (blockMoves steps d)
  | [], d, _ => rfl
  | step :: rest, d, orderly => by
    rw [blockMoves]
    cases hf : (step.run d).1.fault with
    | none => simp [runBlock_of_ok hf, run_eq step orderly, runBlock_eq rest (orderly.after _)]
    | some fault => simp [runBlock_of_fault hf, run_eq step orderly]

end

theorem runAll_append (steps others : List Step) (d : Document) :
    (runAll (steps ++ others) d).2 = (runAll others (runAll steps d).2).2 := by
  induction steps generalizing d with
  | nil => rfl
  | cons step rest ih => exact ih (step.run d).2

theorem allMoves_append (steps others : List Step) (d : Document) :
    allMoves (steps ++ others) d = allMoves steps d ++ allMoves others (d.after (allMoves steps d)) := by
  induction steps generalizing d with
  | nil => rfl
  | cons step rest ih => simp [allMoves, ih]

theorem runAll_eq (steps : List Step) {d : Document} (orderly : d.Orderly) :
    (runAll steps d).2 = d.after (allMoves steps d) := by
  induction steps generalizing d with
  | nil => rfl
  | cons step rest ih =>
    rw [runAll, allMoves, after_append]
    simp only [step.run_eq orderly, ih (orderly.after _)]

end Step

namespace Document

theorem Orderly.answer {d : Document} (orderly : d.Orderly) (b : Nat) (action : Action) :
    (action.answer b d).2.Orderly := by
  rw [(action.answer_eq b orderly).1]
  exact orderly.after _

theorem Orderly.run {d : Document} (orderly : d.Orderly) (step : Step) : (step.run d).2.Orderly := by
  rw [step.run_eq orderly]
  exact orderly.after _

theorem Orderly.runAll {d : Document} (orderly : d.Orderly) (steps : List Step) :
    (Step.runAll steps d).2.Orderly := by
  rw [Step.runAll_eq steps orderly]
  exact orderly.after _

end Document

/-- A document that some script comes to, begun with some indent unit. -/
def Document.Reachable (d : Document) : Prop :=
  ∃ (unit : Option String) (steps : List Step), (Step.runAll steps (.new unit)).2 = d

theorem Document.Reachable.orderly {d : Document} (reached : d.Reachable) : d.Orderly := by
  obtain ⟨unit, steps, rfl⟩ := reached
  exact (orderly_new unit).runAll steps

end IndentedText
