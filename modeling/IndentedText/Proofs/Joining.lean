import IndentedText.Proofs.Rendering
import IndentedText.Proofs.Sectionwise

/-!
Raw texts and rows given between two commits. All that is left of them is the one text they make, the
rows in their order, and that something was given at all. How the text was cut and where among the rows
it came is never seen again.
-/

namespace IndentedText

open Document

namespace Section

def Input.change : Input → Change
  | text t => .write t
  | row columns => .queueRow columns

def Input.command : Input → Command
  | text t => .write t
  | row columns => .queueRow columns

theorem Input.course_command (input : Input) (depth : Nat) :
    input.command.course depth = ⟨[input.change], none⟩ := by
  cases input <;> rfl

theorem after_inputs (s : Section) (inputs : List Input) :
    s.after (inputs.map Input.change) =
      { s with
        written := s.written + inputs.length
        raw := s.raw ++ inputs.filterMap Input.asText
        rows := s.rows ++ inputs.filterMap Input.asRow
        pending := s.pending || !inputs.isEmpty } := by
  induction inputs generalizing s with
  | nil => simp
  | cons input rest ih =>
    have count : s.written + 1 + rest.length = s.written + (rest.length + 1) := by omega
    rw [List.map_cons, after_cons, ih]
    cases input with
    | text t =>
      simp [Input.change, Change.apply, write, Input.asText, List.filterMap_cons, count]
    | row columns =>
      simp [Input.change, Change.apply, queueRow, Input.asText, List.filterMap_cons, count]

/-- The sections differ at most in their counts of writes and in the pieces of their waiting text. Both or
neither have received any writes, and the pieces make the same text. -/
def Recounted (s t : Section) : Prop :=
  ∃ count pieces, t = { s with written := count, raw := pieces } ∧ (count = 0 ↔ s.written = 0) ∧
    String.join pieces = String.join s.raw

theorem Recounted.change {s t : Section} (same : Recounted s t) (c : Change) :
    Recounted (c.apply s) (c.apply t) := by
  obtain ⟨count, pieces, rfl, some, joined⟩ := same
  cases c with
  | write text =>
    refine ⟨count + 1, pieces ++ [text], rfl, by simp [Change.apply, write], ?_⟩
    simp [Change.apply, write, joined]
  | queueRow columns => exact ⟨count + 1, pieces, rfl, by simp [Change.apply, queueRow], joined⟩
  | commit =>
    cases pending : s.pending with
    | true =>
      refine ⟨count, [], ?_, by rwa [Change.apply, commit_written], ?_⟩
      · simp [Change.apply, commit, commitRows, pending, joined]
      · simp [Change.apply, commit_raw, pending]
    | false =>
      refine ⟨count, pieces, ?_, by rwa [Change.apply, commit_written], ?_⟩
      · simp [Change.apply, commit, commitRows, pending]
      · simpa [Change.apply, commit_raw, pending] using joined
  | _ => exact ⟨count, pieces, rfl, some, joined⟩

theorem Recounted.apply {s t : Section} (same : Recounted s t) (event : Event) :
    Recounted (event.apply s) (event.apply t) := by
  cases event with
  | change c => exact same.change c
  | birth unit depth =>
    obtain ⟨count, pieces, rfl, some, joined⟩ := same
    exact ⟨count, pieces, rfl, some, joined⟩
  | place child =>
    obtain ⟨count, pieces, rfl, some, joined⟩ := same
    exact ⟨count + 1, pieces, rfl, by simp [Event.apply, place], joined⟩

theorem Recounted.status {s t : Section} (same : Recounted s t) : t.status = s.status := by
  obtain ⟨count, pieces, rfl, some, joined⟩ := same
  have empty : (count == 0) = (s.written == 0) := by
    rw [Bool.eq_iff_iff, beq_iff_eq, beq_iff_eq, some]
  simp only [Section.status, Section.isEmpty, Section.isBodyEmpty, empty, joined]

/-- The count is asked for nowhere but in whether a section is empty, and of the pieces only the text. -/
theorem congruence_recounted : Congruence Recounted where
  refl s := ⟨s.written, s.raw, rfl, Iff.rfl, rfl⟩
  unit same := by
    obtain ⟨count, pieces, rfl, -⟩ := same
    rfl
  status same := same.status
  content same := by
    obtain ⟨count, pieces, rfl, -, joined⟩ := same
    simp only [content, rowLines, rawLines, joined]
  visible same := by
    obtain ⟨count, pieces, rfl, -⟩ := same
    rfl
  apply same event := same.apply event
  reply {s t} same c := by
    obtain ⟨count, pieces, left, -⟩ :=
      after_of_apply Recounted.change same (c.course s.depth).changes
    rw [left]
    cases c <;> rfl

end Section

namespace Document

open Section (Input)

def give (b : Nat) (inputs : List Input) : List Step :=
  inputs.map fun input => .act b (.command input.command)

theorem on_cons (d : Document) (b : Nat) (c : Section.Change) (rest : List Section.Change) :
    d.on b (c :: rest) = d.on b [c] ++ (d.after (d.on b [c])).on b rest := by
  by_cases inside : b < d.size <;> simp [on, inside]

theorem runAll_give (b : Nat) (inputs : List Input) (d : Document) :
    (Step.runAll (give b inputs) d).2 = d.put b ((d.get b).after (inputs.map Input.change)) := by
  rw [← after_on]
  induction inputs generalizing d with
  | nil => simp [give, Step.runAll, on]
  | cons input rest ih =>
    have first : (Action.answer b (.command input.command) d).2 = d.after (d.on b [input.change]) := by
      rw [(Action.answer_command_eq b _ d).1, Action.moves, input.course_command]
    rw [List.map_cons, on_cons, after_append, ← ih, ← first]
    rfl

theorem Orderly.writeLine_eq {d : Document} (orderly : d.Orderly) (b : Nat) (text : String) :
    (Step.runAll [.act b (.command (.writeLine text))] d).2 =
      (Step.runAll [.act b (.command (.write text)), .act b (.command .commit)] d).2 := by
  rw [Step.runAll_eq _ orderly, Step.runAll_eq _ orderly]
  simp only [Step.allMoves, Step.moves, Action.moves, Command.course, Course.line, List.append_nil]
  rw [on_cons]

/-- A window of raw texts and rows between two commits leaves their text joined, the rows in their order
and that something waits if anything was given. So after windows that make the same text and have the same
rows, and in both or neither of which something is given, no script tells the documents apart: each later
step is answered the same, and sections hold the same but for their counts of writes and the pieces of what
waits. A line does what its raw text and a commit do. -/
theorem windows_joined {d : Document} (reached : d.Reachable) (b : Nat) {window other : List Input}
    (given : window = [] ↔ other = [])
    (texts : String.join (window.filterMap Input.asText) = String.join (other.filterMap Input.asText))
    (rows : window.filterMap Input.asRow = other.filterMap Input.asRow) :
    (Step.runAll (give b window) d).2 = d.put b
        { d.get b with
          written := (d.get b).written + window.length
          raw := (d.get b).raw ++ window.filterMap Input.asText
          rows := (d.get b).rows ++ window.filterMap Input.asRow
          pending := (d.get b).pending || !window.isEmpty } ∧
      (∀ steps,
        let first := Step.runAll steps (Step.runAll (give b window) d).2
        let second := Step.runAll steps (Step.runAll (give b other) d).2
        first.1 = second.1 ∧
          (∀ x, first.2.status x = second.2.status x ∧
            ∃ count pieces, second.2.get x = { first.2.get x with written := count, raw := pieces } ∧
              String.join pieces = String.join (first.2.get x).raw) ∧
          ∀ x ambient, ∃ text, first.2.Prints x ambient text ∧ second.2.Prints x ambient text) ∧
      ∀ text, (Step.runAll [.act b (.command (.writeLine text))] d).2 =
        (Step.runAll [.act b (.command (.write text)), .act b (.command .commit)] d).2 := by
  have congruence := Section.congruence_recounted
  have orderly := reached.orderly
  have recounted : Section.Recounted ((d.get b).after (window.map Input.change))
      ((d.get b).after (other.map Input.change)) := by
    have waits : window.isEmpty = other.isEmpty := by
      rw [Bool.eq_iff_iff, List.isEmpty_iff, List.isEmpty_iff, given]
    refine ⟨(d.get b).written + other.length, (d.get b).raw ++ other.filterMap Input.asText, ?_, ?_, ?_⟩
    · simp only [Section.after_inputs, rows, waits]
    · simp only [Section.after_inputs, Nat.add_eq_zero_iff, List.length_eq_zero_iff, given]
    · simp only [Section.after_inputs, String.join_append, texts]
  have same : Sectionwise Section.Recounted (Step.runAll (give b window) d).2
      (Step.runAll (give b other) d).2 := by
    refine ⟨orderly.runAll _, orderly.runAll _, by simp [runAll_give], fun x => ?_⟩
    rw [runAll_give, runAll_give, get_put, get_put]
    split
    · exact recounted
    · exact congruence.refl _
  refine ⟨?_, fun steps => ?_, orderly.writeLine_eq b⟩
  · rw [runAll_give, Section.after_inputs]
  · intro first second
    have answers := (congruence.likeness.all steps same).2
    have later : Sectionwise Section.Recounted first.2 second.2 := congruence.likeness.runAll steps same
    refine ⟨Answer.eq_of_alike answers, fun x => ?_, fun x ambient => ?_⟩
    · obtain ⟨count, pieces, held, -, joined⟩ := later.sections x
      exact ⟨(congruence.document_status later x).symm, count, pieces, held, joined⟩
    · exact ⟨_, later.first.prints_lines rfl rfl ambient,
        later.second.prints_lines (congruence.document_unit later) (congruence.lines later x) ambient⟩

/-- An empty text before the row, and one behind it, in a section that stands in another. In a block of
the other it can still be asked what waits, until a step out is refused. -/
theorem windows_joined_blank :
    let d := (Step.runAll [.act 0 .nest] (new none)).2
    let window : List Input := [.text "", .row (.each [some "a", none]), .text ""]
    let other : List Input := [.row (.sequence [some "a", none]), .text ""]
    let steps : List Step := [.indented 0 [.act 1 (.command .describe), .act 0 .text,
      .act 1 (.command .outdent), .act 1 (.command .fragments)], .act 0 .statuses]
    let first := (Step.runAll (give 1 window) d).2
    let second := (Step.runAll (give 1 other) d).2
    d.Reachable ∧ ((window = [] ↔ other = []) ∧
      String.join (window.filterMap Input.asText) = String.join (other.filterMap Input.asText) ∧
      window.filterMap Input.asRow = other.filterMap Input.asRow) ∧
      (Step.runAll steps first).1 = (Step.runAll steps second).1 ∧
      second.lines 0 = [⟨0, "a"⟩, ⟨0, ""⟩] ∧ first ≠ second ∧
      ∃ text, first.Prints 0 2 text ∧ second.Prints 0 2 text := by
  intro d window other steps first second
  have given : window = [] ↔ other = [] := by simp [window, other]
  have texts : String.join (window.filterMap Input.asText) = String.join (other.filterMap Input.asText) := rfl
  have rows : window.filterMap Input.asRow = other.filterMap Input.asRow := rfl
  have reached : d.Reachable := ⟨none, _, rfl⟩
  obtain ⟨-, joined, -⟩ := windows_joined reached 1 given texts rows
  exact ⟨reached, ⟨given, texts, rows⟩, (joined steps).1, by decide +kernel, by decide +kernel, (joined []).2.2 0 2⟩

end Document

end IndentedText
