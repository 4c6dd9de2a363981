import IndentedText.Proofs.Ledger
import IndentedText.Proofs.Run

/-!
Nothing is lost, doubled or moved. Every section keeps the books of all that the calls of a run gave
it, at every point of the run.
-/

namespace IndentedText

open Section (Event Record Input Change)

namespace Document

def Move.events (b : Nat) : Move → Document → List Event
  | change x c, d => if x = b ∧ x < d.size then [.change c] else []
  | nest x, d =>
    if x < d.size then
      if b = d.size then [.birth (d.get x).unit (d.get x).depth] else if x = b then [.place d.size] else []
    else []

def history (b : Nat) : List Move → Document → List Event
  | [], _ => []
  | move :: rest, d => move.events b d ++ history b rest (move.apply d)

theorem history_append (b : Nat) (moves others : List Move) (d : Document) :
    history b (moves ++ others) d = history b moves d ++ history b others (d.after moves) := by
  induction moves generalizing d with
  | nil => rfl
  | cons move rest ih => simp [history, ih]

theorem get_apply (b : Nat) (move : Move) (d : Document) :
    (move.apply d).get b = (d.get b).replay (move.events b d) := by
  cases move with
  | change x c =>
    rw [get_change, Move.events]
    split
    · rename_i same
      rw [same.1]
      rfl
    · rfl
  | nest x =>
    by_cases inside : x < d.size
    · rw [get_nest inside, Move.events, if_pos inside]
      split
      · rename_i new
        rw [get_of_size_le (Nat.le_of_eq new.symm)]
        rfl
      · split
        · rename_i same
          rw [same]
          rfl
        · rfl
    · rw [Move.apply_nest_of_size_le (Nat.le_of_not_lt inside), Move.events, if_neg inside]
      rfl

theorem get_after (b : Nat) (moves : List Move) (d : Document) :
    (d.after moves).get b = (d.get b).replay (history b moves d) := by
  induction moves generalizing d with
  | nil => rfl
  | cons move rest ih => simp [history, ih, get_apply]

theorem fragments_prefix {b : Nat} {earlier moves : List Move} (d : Document)
    (before : earlier <+: moves) :
    ((d.after earlier).get b).fragments <+: ((d.after moves).get b).fragments := by
  obtain ⟨later, rfl⟩ := before
  rw [after_append, get_after b later, Section.fragments_replay]
  exact List.prefix_append ..

end Document

/-- What a call gives to its section at some depth. Refused for lack of depth, it gives nothing. -/
def Command.inputs : Command → Nat → List Input
  | write text, _ | writeLine text, _ | openBlock text, _ => [.text text]
  | writeLines text, _ => (Text.lines text).map .text
  | queueRow columns, _ => [.row columns]
  | closeBlock text, depth | turnBlock text, depth => if depth = 0 then [] else [.text text]
  | emit node, _ => node.course.changes.flatMap Change.inputs
  | _, _ => []

def Action.inputs (x : Nat) : Action → Document → List Input
  | command c, d => c.inputs (d.get x).depth
  | _, _ => []

namespace Step

mutual

def inputs (b : Nat) : Step → Document → List Input
  | act x action, d => if x = b ∧ x < d.size then action.inputs x d else []
  | indented x steps, d => blockInputs b steps (d.put x (d.get x).indent)

def blockInputs (b : Nat) : List Step → Document → List Input
  | [], _ => []
  | step :: rest, d =>
    step.inputs b d ++
      if (step.run d).1.fault.isSome then [] else blockInputs b rest (step.run d).2

end

def allInputs (b : Nat) : List Step → Document → List Input
  | [], _ => []
  | step :: rest, d => step.inputs b d ++ allInputs b rest (step.run d).2

end Step

theorem Command.inputs_course (c : Command) (depth : Nat) :
    (c.course depth).changes.flatMap Change.inputs = c.inputs depth := by
  have lines (texts : List String) :
      (Course.all (texts.map .line)).changes.flatMap Change.inputs = texts.map .text := by
    induction texts with
    | nil => rfl
    | cons text rest ih =>
      rw [List.map_cons, List.map_cons, ← ih]
      rfl
  cases c with
  | writeLines text => exact lines (Text.lines text)
  | outdent => cases depth <;> rfl
  | closeBlock text => cases depth <;> rfl
  | turnBlock text => cases depth <;> rfl
  | _ => rfl

namespace Document

theorem inputs_change (b x : Nat) (c : Change) (d : Document) :
    ((Move.change x c).events b d).flatMap Event.inputs =
      if x = b ∧ x < d.size then c.inputs else [] := by
  rw [Move.events]
  split
  · exact List.append_nil _
  · rfl

theorem inputs_nest (b x : Nat) (d : Document) :
    ((Move.nest x).events b d).flatMap Event.inputs = [] := by
  rw [Move.events]
  repeat' split
  all_goals rfl

theorem inputs_on (b x : Nat) (changes : List Change) (d : Document) :
    (history b (d.on x changes) d).flatMap Event.inputs =
      if x = b ∧ x < d.size then changes.flatMap Change.inputs else [] := by
  unfold on
  by_cases inside : x < d.size
  · rw [if_pos inside]
    induction changes generalizing d with
    | nil => simp [history]
    | cons c rest ih =>
      have next : x < ((Move.change x c).apply d).size := by simpa using inside
      rw [List.map_cons, history, List.flatMap_append, ih _ next, inputs_change, size_change]
      by_cases same : x = b ∧ x < d.size
      · rw [if_pos same, if_pos same, if_pos same, List.flatMap_cons]
      · rw [if_neg same, if_neg same, if_neg same]
        rfl
  · simp [inside, history]

theorem inputs_commits (b : Nat) (sections : List Nat) (d : Document) :
    (history b (commits sections) d).flatMap Event.inputs = [] := by
  induction sections generalizing d with
  | nil => rfl
  | cons x rest ih =>
    change (Move.events b _ d ++ history b (commits rest) _).flatMap Event.inputs = []
    rw [List.flatMap_append, ih, inputs_change, List.append_nil]
    exact ite_self _

theorem inputs_action (b x : Nat) (action : Action) (d : Document) :
    (history b (action.moves x d) d).flatMap Event.inputs =
      if x = b ∧ x < d.size then action.inputs x d else [] := by
  cases action with
  | command c => rw [Action.moves, inputs_on, c.inputs_course, Action.inputs]
  | nest =>
    simp only [Action.moves, Action.inputs, ite_self]
    split
    · rw [history, history, history, List.append_nil, List.flatMap_append, inputs_change, inputs_nest,
        List.append_nil]
      exact ite_self _
    · rfl
  | render ambient => exact (inputs_commits b _ d).trans (ite_self _).symm
  | text => exact (inputs_commits b _ d).trans (ite_self _).symm
  | statuses => exact (ite_self _).symm

end Document

namespace Step

open Document

mutual

theorem inputs_moves (b : Nat) : ∀ (step : Step) {d : Document}, d.Orderly →
    (history b (step.moves d) d).flatMap Event.inputs = step.inputs b d
  | act x action, d, _ => by
    rw [moves, inputs]
    exact inputs_action b x action d
  | indented x steps, d, orderly => by
    have level (changes : List Change) (silent : changes.flatMap Change.inputs = []) (e : Document) :
        (history b (e.on x changes) e).flatMap Event.inputs = [] := by
      rw [inputs_on, silent]
      exact ite_self _
    have leave (depth : Nat) : (Course.outdent depth).changes.flatMap Change.inputs = [] := by
      cases depth <;> rfl
    have entered : (d.put x (d.get x).indent).Orderly := by
      rw [put_indent]
      exact orderly.after _
    rw [moves, inputs]
    simp only [history_append, List.flatMap_append, ← put_indent, inputs_blockMoves b steps entered,
      level [.indent] rfl, level _ (leave _), List.nil_append, List.append_nil]

theorem inputs_blockMoves (b : Nat) : ∀ (steps : List Step) {d : Document}, d.Orderly →
    (history b (blockMoves steps d) d).flatMap Event.inputs = blockInputs b steps d
  | [], d, _ => rfl
  | step :: rest, d, orderly => by
    rw [blockMoves, blockInputs, history_append, List.flatMap_append, inputs_moves b step orderly,
      step.run_eq orderly]
    split
    · rfl
    · rw [inputs_blockMoves b rest (orderly.after _)]

end

theorem inputs_allMoves (b : Nat) (steps : List Step) {d : Document} (orderly : d.Orderly) :
    (history b (allMoves steps d) d).flatMap Event.inputs = allInputs b steps d := by
  induction steps generalizing d with
  | nil => rfl
  | cons step rest ih =>
    rw [allMoves, allInputs, history_append, List.flatMap_append, inputs_moves b step orderly,
      ih (orderly.after _), step.run_eq orderly]

end Step

namespace Document

def records (d : Document) (b : Nat) (moves : List Move) : List Record :=
  (d.get b).records (history b moves d)

theorem records_concat (d : Document) (b : Nat) (moves : List Move) (move : Move) :
    d.records b (moves ++ [move]) =
      d.records b moves ++ ((d.after moves).get b).records (move.events b (d.after moves)) := by
  rw [records, history_append, Section.records_append, ← get_after, history, history, List.append_nil]
  rfl

theorem records_events (s : Section) {b : Nat} {move : Move} (d : Document)
    (commit : move ≠ .change b .commit) (rows : move ≠ .change b .commitRows) :
    s.records (move.events b d) = [] ∨ ∃ child, s.records (move.events b d) = [.place child] := by
  cases move with
  | change x c =>
    rw [Move.events]
    split
    · rename_i same
      left
      cases c with
      | commit => exact absurd (congrArg (Move.change · .commit) same.1) commit
      | commitRows => exact absurd (congrArg (Move.change · .commitRows) same.1) rows
      | _ => rfl
    · exact .inl rfl
  | nest x =>
    rw [Move.events]
    split
    · split
      · exact .inl rfl
      · split
        · exact .inr ⟨_, rfl⟩
        · exact .inl rfl
    · exact .inl rfl

/-- At every point of a run a section has committed, in order, what the calls gave it before, but for
what waits. Each commit turns the waiting rows into lines of its own depth, aligned with one another,
and then the waiting text into one line if anything is pending. Nothing committed is touched again. -/
theorem conserved (unit : Option String) (steps : List Step) (b : Nat) :
    let start := new unit
    let run := Step.allMoves steps start
    (Step.runAll steps start).2 = start.after run ∧
      (history b run start).flatMap Event.inputs = Step.allInputs b steps start ∧
      ∀ moves, moves <+: run →
        let s := (start.after moves).get b
        let inputs := (history b moves start).flatMap Event.inputs
        (∀ earlier, earlier <+: moves → ((start.after earlier).get b).fragments <+: s.fragments) ∧
          s.fragments = (start.records b moves).flatMap Record.fragments ∧
          String.join ((start.records b moves).filterMap Record.text) ++ String.join s.raw =
            String.join (inputs.filterMap Input.asText) ∧
          (start.records b moves).flatMap Record.rows ++ s.rows = inputs.filterMap Input.asRow ∧
          (s.pending = false → s.raw = [] ∧ s.rows = []) ∧
          ∀ earlier move, earlier ++ [move] <+: moves →
            let d := start.after earlier
            let before := d.get b
            ∃ new, start.records b (earlier ++ [move]) = start.records b earlier ++ new ∧
              (move = .change b .commit → b < d.size →
                new = [.lines before.depth before.rows
                  (if before.pending then some (String.join before.raw) else none)]) ∧
              (move = .change b .commitRows → b < d.size →
                new = [.lines before.depth before.rows none]) ∧
              (move ≠ .change b .commit → move ≠ .change b .commitRows →
                new = [] ∨ ∃ child, new = [.place child]) := by
  intro start run
  have orderly : start.Orderly := orderly_new unit
  obtain ⟨held, empty⟩ : ∃ held, start.get b = { unit := held } := get_new unit b
  refine ⟨Step.runAll_eq steps orderly, Step.inputs_allMoves b steps orderly, fun moves _ => ?_⟩
  intro s inputs
  have replayed : s = Section.replay { unit := held } (history b moves start) := by
    rw [← empty]
    exact get_after b moves start
  have settled : s.Settled := (orderly.after moves).settled b
  refine ⟨fun _ => fragments_prefix start, ?_, ?_, ?_, fun h => ⟨settled.raw h, settled.rows h⟩, ?_⟩
  · rw [replayed, Section.fragments_replay, records, empty]
    rfl
  · rw [replayed, records, empty, Section.raw_replay]
    exact String.empty_append
  · rw [replayed, records, empty, Section.rows_replay]
    rfl
  · intro earlier move _ d before
    refine ⟨_, records_concat start b earlier move, ?_, ?_, records_events before d⟩
    · rintro rfl inside
      rw [Move.events, if_pos ⟨rfl, inside⟩]
      rfl
    · rintro rfl inside
      rw [Move.events, if_pos ⟨rfl, inside⟩]
      rfl

theorem conserved_refused :
    let steps : List Step := [.act 0 (.command (.write "a")),
      .act 0 (.command (.queueRow (.sequence [some "b", none]))),
      .act 0 (.command (.closeBlock "c")), .act 0 .nest, .act 1 (.command (.writeLines "d\ne")),
      .indented 0 [.act 0 (.command (.write "f"))], .act 0 .text]
    let start := new none
    let moves := (Step.allMoves steps start).take 5
    moves <+: Step.allMoves steps start ∧ moves.take 2 <+: moves ∧
      ((start.after (moves.take 2)).get 0).fragments <+: ((start.after moves).get 0).fragments ∧
      ((start.after moves).get 0).fragments = (start.records 0 moves).flatMap Record.fragments := by
  intro steps start moves
  have point : moves <+: Step.allMoves steps start := List.take_prefix 5 _
  have earlier : moves.take 2 <+: moves := List.take_prefix 2 _
  obtain ⟨grown, kept, -⟩ := (conserved none steps 0).2.2 moves point
  exact ⟨point, earlier, grown _ earlier, kept⟩

end Document

end IndentedText
