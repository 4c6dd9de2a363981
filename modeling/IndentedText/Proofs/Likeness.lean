import IndentedText.Proofs.Reply

/-!
Two documents that a script cannot tell apart, or only by what it is replied. If every move keeps them
so, the script makes the same moves in both, and is answered alike to its end. If some actions change a
document only into one that is related to what it was, the script may leave them out.
-/

namespace IndentedText

open Document

/-- Answers with the same statuses and faults, whose replies are related. -/
inductive Answer.Alike (R : Reply → Reply → Prop) : Answer → Answer → Prop
  | reply {reply other : Reply} (status : Status) (related : R reply other) :
      Alike R (.act status (.ok reply)) (.act status (.ok other))
  | refused (status : Status) (fault : Fault) :
      Alike R (.act status (.error fault)) (.act status (.error fault))
  | indented {answers others : List Answer} (status : Status) (fault : Option Fault)
      (inside : List.Forall₂ (Alike R) answers others) :
      Alike R (.indented status answers fault) (.indented status others fault)

theorem Answer.Alike.fault_eq {R : Reply → Reply → Prop} {answer other : Answer}
    (alike : Answer.Alike R answer other) : answer.fault = other.fault := by
  cases alike <;> rfl

mutual

theorem Answer.Alike.eq : ∀ {answer other : Answer}, Answer.Alike Eq answer other → answer = other
  | .act .., _, .reply _ rfl => rfl
  | .act .., _, .refused _ _ => rfl
  | .indented .., _, .indented _ _ inside => congrArg (Answer.indented _ · _) (eq_of_alike inside)

theorem Answer.eq_of_alike : ∀ {answers others : List Answer},
    List.Forall₂ (Answer.Alike Eq) answers others → answers = others
  | [], _, .nil => rfl
  | _ :: _, _, .cons alike rest => List.cons_eq_cons.2 ⟨alike.eq, eq_of_alike rest⟩

end

theorem Action.moves_congr {d e : Document} (size : e.size = d.size)
    (depth : ∀ b, (e.get b).depth = (d.get b).depth) (walk : ∀ b, e.walk b = d.walk b) (b : Nat)
    (action : Action) : action.moves b e = action.moves b d := by
  cases action with
  | command c => simp only [Action.moves, on, size, depth]
  | nest => simp only [Action.moves, size]
  | render | text => simp only [Action.moves, walk]
  | statuses => rfl

theorem Document.after_of_apply {S : Document → Document → Prop}
    (apply : ∀ {d e}, S d e → ∀ move : Move, S (move.apply d) (move.apply e)) {d e : Document}
    (same : S d e) (moves : List Move) : S (d.after moves) (e.after moves) := by
  induction moves generalizing d e with
  | nil => exact same
  | cons move rest ih => exact ih (apply same move)

/-- Related documents look the same but for their replies, and every move leads to related ones. -/
structure Likeness (S : Document → Document → Prop) (R : Reply → Reply → Prop) : Prop where
  first : ∀ {d e}, S d e → d.Orderly
  second : ∀ {d e}, S d e → e.Orderly
  size : ∀ {d e}, S d e → e.size = d.size
  status : ∀ {d e}, S d e → ∀ b, e.status b = d.status b
  walk : ∀ {d e}, S d e → ∀ b, e.walk b = d.walk b
  reply : ∀ {d e}, S d e → ∀ b (action : Action), R (action.reply b d) (action.reply b e)
  apply : ∀ {d e}, S d e → ∀ move : Move, S (move.apply d) (move.apply e)

namespace Likeness

variable {S : Document → Document → Prop} {R : Reply → Reply → Prop} (like : Likeness S R)
include like

theorem after {d e : Document} (same : S d e) (moves : List Move) : S (d.after moves) (e.after moves) :=
  after_of_apply like.apply same moves

theorem depth {d e : Document} (same : S d e) (b : Nat) : (e.get b).depth = (d.get b).depth :=
  congrArg Status.depth (like.status same b)

theorem moves {d e : Document} (same : S d e) (b : Nat) (action : Action) :
    action.moves b e = action.moves b d :=
  action.moves_congr (like.size same) (like.depth same) (like.walk same) b

theorem fault {d e : Document} (same : S d e) (b : Nat) (action : Action) :
    action.fault b e = action.fault b d := by
  cases action <;> simp only [Action.fault, like.depth same]

theorem on {d e : Document} (same : S d e) (b : Nat) (changes : List Section.Change) :
    e.on b changes = d.on b changes := by
  rw [Document.on, Document.on, like.size same]

theorem answer {d e : Document} (same : S d e) (b : Nat) (action : Action) :
    Answer.Alike R (action.answer b d).1 (action.answer b e).1 := by
  rw [action.answer_eq_act b (like.first same), action.answer_eq_act b (like.second same), like.moves same, like.fault same,
    like.status (like.after same _)]
  cases action.fault b d with
  | none => exact .reply _ (like.reply same b action)
  | some fault => exact .refused _ fault

theorem leave {d e : Document} (same : S d e) (b : Nat) (fault : Option Fault) :
    S (Step.leaveBlock b fault d).2 (Step.leaveBlock b fault e).2 ∧
      (Step.leaveBlock b fault e).1 = (Step.leaveBlock b fault d).1 := by
  simp only [Step.leaveBlock_eq, like.depth same, like.on same, and_true]
  exact like.after same _

mutual

theorem step : ∀ (step : Step) {d e : Document}, S d e →
    step.moves e = step.moves d ∧ Answer.Alike R (step.run d).1 (step.run e).1
  | .act b action, d, e, same => ⟨like.moves same b action, like.answer same b action⟩
  | .indented b steps, d, e, same => by
    have entered : S (d.after (d.on b [.indent])) (e.after (d.on b [.indent])) := like.after same _
    obtain ⟨moves, answers, fault⟩ := block steps entered
    have inside := like.after entered (Step.blockMoves steps (d.after (d.on b [.indent])))
    have left := like.leave inside b (Step.runBlock steps (d.after (d.on b [.indent]))).2.1
    refine ⟨?_, ?_⟩
    · simp only [Step.moves, like.on same, moves, after_append, like.depth inside, like.on inside]
    · simp only [Step.run, put_indent, like.on same, Step.runBlock_eq steps (like.first entered),
        Step.runBlock_eq steps (like.second entered), moves, fault, left.2, like.status left.1]
      exact .indented _ _ answers

theorem block : ∀ (steps : List Step) {d e : Document}, S d e →
    Step.blockMoves steps e = Step.blockMoves steps d ∧
      List.Forall₂ (Answer.Alike R) (Step.runBlock steps d).1 (Step.runBlock steps e).1 ∧
      (Step.runBlock steps e).2.1 = (Step.runBlock steps d).2.1
  | [], d, e, _ => ⟨rfl, .nil, rfl⟩
  | first :: rest, d, e, same => by
    obtain ⟨moves, alike⟩ := step first same
    have next : S (d.after (first.moves d)) (e.after (first.moves e)) := by
      rw [moves]
      exact like.after same _
    obtain ⟨others, answers, fault⟩ := block rest next
    rw [← first.run_eq (like.first same), ← first.run_eq (like.second same)] at answers fault
    rw [Step.blockMoves, Step.blockMoves, moves]
    rw [moves] at others
    cases done : (first.run d).1.fault with
    | none =>
      have also := alike.fault_eq.symm.trans done
      rw [Step.runBlock_of_ok done, Step.runBlock_of_ok also, also, others]
      exact ⟨rfl, .cons alike answers, fault⟩
    | some refused =>
      have also := alike.fault_eq.symm.trans done
      rw [Step.runBlock_of_fault done, Step.runBlock_of_fault also, also]
      exact ⟨rfl, .cons alike .nil, rfl⟩

end

theorem all (steps : List Step) {d e : Document} (same : S d e) :
    Step.allMoves steps e = Step.allMoves steps d ∧
      List.Forall₂ (Answer.Alike R) (Step.runAll steps d).1 (Step.runAll steps e).1 := by
  induction steps generalizing d e with
  | nil => exact ⟨rfl, .nil⟩
  | cons first rest ih =>
    obtain ⟨moves, alike⟩ := like.step first same
    obtain ⟨others, answers⟩ := ih (like.after same (first.moves d))
    refine ⟨?_, ?_⟩
    · rw [Step.allMoves, Step.allMoves, moves, others]
    · rw [Step.runAll, Step.runAll]
      simp only [first.run_eq (like.first same), first.run_eq (like.second same), moves]
      exact .cons alike answers

theorem runAll (steps : List Step) {d e : Document} (same : S d e) :
    S (Step.runAll steps d).2 (Step.runAll steps e).2 := by
  rw [Step.runAll_eq steps (like.first same), Step.runAll_eq steps (like.second same),
    (like.all steps same).1]
  exact like.after same _

end Likeness

section Without

variable (drops : Action → Bool)

def Step.isDropped : Step → Bool
  | act _ action => drops action
  | indented _ _ => false

mutual

def Step.without : Step → Step
  | act b action => act b action
  | indented b steps => indented b (allWithout steps)

def Step.allWithout : List Step → List Step
  | [] => []
  | step :: rest => if step.isDropped drops then allWithout rest else step.without :: allWithout rest

end

mutual

def Answer.without : Step → Answer → Answer
  | .indented _ steps, indented status answers fault => indented status (allWithout steps answers) fault
  | _, answer => answer

/-- In a block a fault may leave steps without an answer. -/
def Answer.allWithout : List Step → List Answer → List Answer
  | step :: steps, answer :: answers =>
    if step.isDropped drops then allWithout steps answers
    else without step answer :: allWithout steps answers
  | [], _ | _, [] => []

end

theorem Answer.fault_without (step : Step) (answer : Answer) :
    (answer.without drops step).fault = answer.fault := by
  cases step <;> cases answer <;> rfl

/-- The dropped actions are never refused, and lead to documents that are related to the same ones. -/
structure LikenessWithout (S : Document → Document → Prop) (R : Reply → Reply → Prop) : Prop
    extends Likeness S R where
  skip : ∀ {d e}, S d e → ∀ b action, drops action = true →
    action.fault b d = none ∧ S (d.after (action.moves b d)) e

namespace LikenessWithout

variable {drops} {S : Document → Document → Prop} {R : Reply → Reply → Prop}
  (like : LikenessWithout drops S R)
include like

theorem dropped {step : Step} (gone : step.isDropped drops = true) {d e : Document} (same : S d e) :
    (step.run d).1.fault = none ∧ S (step.run d).2 e := by
  cases step with
  | act b action =>
    have run := action.answer_eq b (like.first same)
    rw [Step.run, run.1, run.2]
    exact like.skip same b action gone
  | indented b steps => cases gone

mutual

theorem step_without : ∀ (step : Step) {d e : Document}, S d e →
    S (step.run d).2 ((step.without drops).run e).2 ∧
      Answer.Alike R ((step.run d).1.without drops step) ((step.without drops).run e).1
  | .act b action, d, e, same => by
    rw [Step.without, Step.run_eq _ (like.first same), Step.run_eq _ (like.second same),
      (like.toLikeness.step _ same).1]
    exact ⟨like.after same _, like.answer same b action⟩
  | .indented b steps, d, e, same => by
    have entered : S (d.after (d.on b [.indent])) (e.after (e.on b [.indent])) := by
      rw [like.on same]
      exact like.after same _
    obtain ⟨inside, answers, fault⟩ := block_without steps entered
    have left := like.leave inside b (Step.runBlock steps (d.after (d.on b [.indent]))).2.1
    simp only [Step.without, Step.run, Answer.without, put_indent, fault, left.2, like.status left.1]
    exact ⟨left.1, .indented _ _ answers⟩

theorem block_without : ∀ (steps : List Step) {d e : Document}, S d e →
    S (Step.runBlock steps d).2.2 (Step.runBlock (Step.allWithout drops steps) e).2.2 ∧
      List.Forall₂ (Answer.Alike R) (Answer.allWithout drops steps (Step.runBlock steps d).1)
        (Step.runBlock (Step.allWithout drops steps) e).1 ∧
      (Step.runBlock (Step.allWithout drops steps) e).2.1 = (Step.runBlock steps d).2.1
  | [], d, e, same => ⟨same, .nil, rfl⟩
  | first :: rest, d, e, same => by
    rw [Step.allWithout]
    split
    · rename_i gone
      obtain ⟨done, next⟩ := like.dropped gone same
      rw [Step.runBlock_of_ok done, Answer.allWithout, if_pos gone]
      exact block_without rest next
    · rename_i kept
      obtain ⟨next, alike⟩ := step_without first same
      have fault := alike.fault_eq.symm.trans ((first.run d).1.fault_without drops first)
      cases done : (first.run d).1.fault with
      | none =>
        obtain ⟨states, answers, ended⟩ := block_without rest next
        rw [Step.runBlock_of_ok done, Step.runBlock_of_ok (fault.trans done), Answer.allWithout,
          if_neg kept]
        exact ⟨states, .cons alike answers, ended⟩
      | some refused =>
        rw [Step.runBlock_of_fault done, Step.runBlock_of_fault (fault.trans done), Answer.allWithout,
          if_neg kept]
        have none : Answer.allWithout drops rest [] = [] := by cases rest <;> rfl
        rw [none]
        exact ⟨next, .cons alike .nil, rfl⟩

end

theorem all_without (steps : List Step) {d e : Document} (same : S d e) :
    S (Step.runAll steps d).2 (Step.runAll (Step.allWithout drops steps) e).2 ∧
      List.Forall₂ (Answer.Alike R) (Answer.allWithout drops steps (Step.runAll steps d).1)
        (Step.runAll (Step.allWithout drops steps) e).1 := by
  induction steps generalizing d e with
  | nil => exact ⟨same, .nil⟩
  | cons first rest ih =>
    rw [Step.allWithout, Step.runAll, Answer.allWithout]
    by_cases gone : first.isDropped drops = true
    · rw [if_pos gone, if_pos gone]
      exact ih (like.dropped gone same).2
    · rw [if_neg gone, if_neg gone]
      obtain ⟨next, alike⟩ := like.step_without first same
      obtain ⟨states, answers⟩ := ih next
      exact ⟨states, .cons alike answers⟩

end LikenessWithout

end Without

end IndentedText
