import IndentedText.Proofs.Depth
import IndentedText.Proofs.Layout

/-!
Indented blocks give back the depth they took. Whatever is written inside, and whatever fault ends it,
the sections come out at the depth they went in with, unless the steps inside have used up the level
that the block has to give back.
-/

namespace IndentedText

open Document

/-- The commands that leave the depth of their section as it was, even where they are refused. -/
def Command.keepsDepth : Command → Bool
  | indent | outdent | openBlock _ | closeBlock _ => false
  | emit node => node.isConcrete
  | _ => true

def Action.keepsDepth : Action → Bool
  | command c => c.keepsDepth
  | _ => true

mutual

def Step.keepsDepth : Step → Bool
  | .act _ action => action.keepsDepth
  | .indented _ steps => Step.allKeepDepth steps

def Step.allKeepDepth : List Step → Bool
  | [] => true
  | step :: rest => step.keepsDepth && Step.allKeepDepth rest

end

mutual

/-- Every block that is entered is one of a section that is there by then. -/
def Step.isGrounded : Step → Document → Bool
  | .act _ _, _ => true
  | .indented b steps, d => decide (b < d.size) && Step.allGrounded steps (d.put b (d.get b).indent)

def Step.allGrounded : List Step → Document → Bool
  | [], _ => true
  | step :: rest, d =>
    step.isGrounded d && ((step.run d).1.fault.isSome || Step.allGrounded rest (step.run d).2)

end

mutual

/-- The faults of the actions taken, in their order, without those of the blocks around them. -/
def Answer.leafFaults : Answer → List Fault
  | .act status outcome => (Answer.act status outcome).fault.toList
  | .indented _ answers _ => Answer.allLeafFaults answers

def Answer.allLeafFaults : List Answer → List Fault
  | [] => []
  | answer :: rest => answer.leafFaults ++ Answer.allLeafFaults rest

end

theorem Command.depth_of_keepsDepth {c : Command} (keeps : c.keepsDepth = true) (s : Section) :
    (s.after (c.course s.depth).changes).depth = s.depth := by
  cases c with
  | emit node =>
    have done := node.fault_course.trans (Code.refusal_eq_none.2 keeps)
    exact node.climbs_course.depth_eq done s
  | fail message => rfl
  | indent | outdent | openBlock | closeBlock => cases keeps
  | turnBlock text =>
    rw [((turnBlock text).follow_turns rfl s).2]
    cases s.depth <;> rfl
  | _ => exact (follow_turns rfl s).2

structure Document.SameDepths (d e : Document) : Prop where
  size : d.size ≤ e.size
  depth : ∀ x, x < d.size → (e.get x).depth = (d.get x).depth

namespace Document.SameDepths

variable {d e f : Document} {b : Nat}

theorem refl (d : Document) : SameDepths d d :=
  ⟨Nat.le_refl _, fun _ _ => rfl⟩

theorem trans (first : SameDepths d e) (second : SameDepths e f) : SameDepths d f :=
  ⟨Nat.le_trans first.size second.size, fun x inside =>
    (second.depth x (Nat.lt_of_lt_of_le inside first.size)).trans (first.depth x inside)⟩

theorem answer (orderly : d.Orderly) {action : Action} (keeps : action.keepsDepth = true) (b : Nat) :
    SameDepths d (action.answer b d).2 := by
  refine ⟨Action.size_le_answer orderly action b, fun x inside => ?_⟩
  rw [Action.depth_answer orderly inside]
  cases action with
  | command c =>
    by_cases here : b = x
    · simpa [here] using Command.depth_of_keepsDepth keeps (d.get x)
    · simp [here]
  | _ => rfl

section Block

variable (inside : b < d.size) (same : SameDepths (d.put b (d.get b).indent) e)
include inside same

theorem depth_block : (e.get b).depth = (d.get b).depth + 1 := by
  rw [same.depth b (by simpa using inside), get_put_self inside]
  rfl

theorem leave : SameDepths d (e.put b { e.get b with depth := (e.get b).depth - 1 }) := by
  have size : d.size ≤ e.size := by simpa using same.size
  refine ⟨by simpa using size, fun x held => ?_⟩
  by_cases here : b = x
  · subst here
    simp [get_put_self (Nat.lt_of_lt_of_le inside size), same.depth_block inside]
  · rw [get_put_of_ne here, same.depth x (by simpa using held), get_put_of_ne here]

end Block

end Document.SameDepths

namespace Step

variable {b : Nat} {d : Document}

theorem leaveBlock_of_top (top : (d.get b).depth = 0) (fault : Option Fault) :
    leaveBlock b fault d = (some (.belowZero 0), d) := by
  simp [leaveBlock_eq, after_on, top, Course.outdent]

theorem leaveBlock_of_deep (deep : 0 < (d.get b).depth) (fault : Option Fault) :
    leaveBlock b fault d = (fault, d.put b { d.get b with depth := (d.get b).depth - 1 }) := by
  obtain ⟨depth, level⟩ := Nat.exists_eq_add_one.2 deep
  simp [leaveBlock_eq, after_on, level, Course.outdent, Section.Change.apply]

theorem exit_refused_iff (b : Nat) (d : Document) :
    (∃ fault e, inSection b SectionM.outdent d = .error fault e) ↔ (d.get b).depth = 0 := by
  have taken := SectionM.takes_outdent (d.get b)
  cases level : (d.get b).depth with
  | zero =>
    rw [level] at taken
    simp [inSection_of_error (taken.error _ rfl)]
  | succ depth =>
    rw [level] at taken
    obtain ⟨value, left⟩ := taken.ok rfl
    simp [inSection_of_ok left]

mutual

theorem restores : ∀ (step : Step) {d : Document}, d.Orderly → step.keepsDepth = true →
    step.isGrounded d = true →
    SameDepths d (step.run d).2 ∧ (step.run d).1.leafFaults = (step.run d).1.fault.toList
  | act b action, d, orderly, keeps, _ => by
    refine ⟨.answer orderly keeps b, ?_⟩
    simp only [run, Action.answer]
    split <;> rfl
  | indented b steps, d, orderly, keeps, grounded => by
    rw [isGrounded, Bool.and_eq_true, decide_eq_true_eq] at grounded
    obtain ⟨inside, grounded⟩ := grounded
    have entered : (d.put b (d.get b).indent).Orderly := put_indent d b ▸ orderly.after _
    obtain ⟨same, faults⟩ := runBlock_restores steps entered keeps grounded
    have deep : 0 < ((runBlock steps (d.put b (d.get b).indent)).2.2.get b).depth := by
      rw [same.depth_block inside]
      exact Nat.succ_pos _
    simp only [run, leaveBlock_of_deep deep]
    exact ⟨same.leave inside, faults⟩

theorem runBlock_restores : ∀ (steps : List Step) {d : Document}, d.Orderly →
    allKeepDepth steps = true → allGrounded steps d = true → SameDepths d (runBlock steps d).2.2 ∧
      Answer.allLeafFaults (runBlock steps d).1 = (runBlock steps d).2.1.toList
  | [], d, _, _, _ => ⟨.refl d, rfl⟩
  | step :: rest, d, orderly, keeps, grounded => by
    rw [allKeepDepth, Bool.and_eq_true] at keeps
    rw [allGrounded, Bool.and_eq_true] at grounded
    obtain ⟨same, faults⟩ := restores step orderly keeps.1 grounded.1
    cases done : (step.run d).1.fault with
    | none =>
      have further : allGrounded rest (step.run d).2 = true := by simpa [done] using grounded.2
      obtain ⟨later, others⟩ := runBlock_restores rest (orderly.run step) keeps.2 further
      rw [runBlock_of_ok done]
      refine ⟨same.trans later, ?_⟩
      simpa [Answer.allLeafFaults, faults, done] using others
    | some fault =>
      rw [runBlock_of_fault done]
      refine ⟨same, ?_⟩
      simp [Answer.allLeafFaults, faults, done]

end

/-- Blocks in blocks whose actions keep the depth leave every section at the depth they found it at,
and the one fault that comes out of them, if any, is that of the one action that was refused. A block
whatever its steps cannot be left just if they brought its section to depth zero. That fault counts
then, whatever ended the steps, and the section stays at depth zero. -/
theorem indented_restores (d : Document) :
    (d.Reachable → ∀ step : Step, step.keepsDepth = true → step.isGrounded d = true →
      let answer := (step.run d).1
      let e := (step.run d).2
      (∀ x, x < d.size → x < e.size ∧ (e.get x).depth = (d.get x).depth) ∧
        answer.leafFaults = answer.fault.toList) ∧
    ∀ (b : Nat) (steps : List Step),
      let block := runBlock steps (d.put b (d.get b).indent)
      let e := block.2.2
      ((∃ fault f, inSection b SectionM.outdent e = .error fault f) ↔ (e.get b).depth = 0) ∧
      ((e.get b).depth = 0 → (indented b steps).run d =
        (.indented (e.status b) block.1 (some (.belowZero 0)), e)) ∧
      (0 < (e.get b).depth →
        let left := e.put b { e.get b with depth := (e.get b).depth - 1 }
        (indented b steps).run d = (.indented (left.status b) block.1 block.2.1, left)) := by
  refine ⟨fun reached step keeps grounded => ?_, fun b steps => ⟨exit_refused_iff b _, ?_, ?_⟩⟩
  · obtain ⟨same, faults⟩ := restores step reached.orderly keeps grounded
    exact ⟨fun x inside => ⟨Nat.lt_of_lt_of_le inside same.size, same.depth x inside⟩, faults⟩
  · intro top
    simp only [run, leaveBlock_of_top top]
  · intro deep
    simp only [run, leaveBlock_of_deep deep]

/-- A caller gives up in a block of the root, in one of a section that was begun inside. In other blocks
the steps use up the level, or all but that. -/
theorem indented_restores_raised :
    let d := (Step.runAll [.act 0 .nest, .act 0 (.command .indent)] (.new none)).2
    let nested : Step := .indented 0 [.act 0 .nest, .act 0 (.command (.turnBlock "a")),
      .indented 2 [.act 2 (.command (.emit (.statement (.loop "i" "r" [])))),
        .indented 0 [.act 1 (.render 1), .act 2 (.command (.turnBlock "b")),
          .act 1 (.command (.fail "c")), .act 1 (.command (.turnBlock "d"))]]]
    let spent : List Step :=
      [.act 0 (.command .outdent), .act 0 (.command .outdent), .act 0 (.command (.fail "e"))]
    let spared : List Step := [.act 0 (.command .outdent), .act 0 (.command (.fail "e"))]
    nested.keepsDepth = true ∧ nested.isGrounded d = true ∧
      (∀ x, x < d.size → ((nested.run d).2.get x).depth = (d.get x).depth) ∧
      (nested.run d).1.fault = some (.raised "c") ∧
      ((indented 0 spent).run d).1.fault = some (.belowZero 0) ∧
      ((indented 0 spared).run d).1.fault = some (.raised "e") := by
  intro d nested spent spared
  have keeps : nested.keepsDepth = true := by decide
  have grounded : nested.isGrounded d = true := by decide +kernel
  obtain ⟨trees, blocks⟩ := indented_restores d
  obtain ⟨depths, faults⟩ := trees ⟨none, _, rfl⟩ nested keeps grounded
  obtain ⟨-, stuck, -⟩ := blocks 0 spent
  obtain ⟨-, -, left⟩ := blocks 0 spared
  have raised : (nested.run d).1.leafFaults = [.raised "c"] := by decide +kernel
  rw [raised] at faults
  refine ⟨keeps, grounded, fun x inside => (depths x inside).2, ?_, ?_, ?_⟩
  · exact Option.toList_eq_singleton_iff.1 faults.symm
  · rw [stuck (by decide)]
    rfl
  · rw [left (by decide)]
    rfl

end Step

end IndentedText
