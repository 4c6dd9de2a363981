import IndentedText.Proofs.Move

/-!
The books of a section. All that happens to it is a list of events, which say what is given to the
section and what it commits. The two sides are balanced by what waits.
-/

namespace IndentedText

namespace Section

inductive Input where
  | text (text : String)
  | row (columns : Columns)

def Input.asText : Input → Option String
  | text t => some t
  | row _ => none

def Input.asRow : Input → Option Row
  | text _ => none
  | row (.each cells) | row (.sequence cells) => some cells

@[simp] theorem Input.asRow_text (t : String) : (text t).asRow = none := rfl

@[simp] theorem Input.asRow_row (columns : Columns) : (row columns).asRow = some columns.row := by
  cases columns <;> rfl

def Change.inputs : Change → List Input
  | write text => [.text text]
  | queueRow columns => [.row columns]
  | _ => []

inductive Event where
  | birth (unit : String) (depth : Nat)
  | change (c : Change)
  | place (child : Nat)

def Event.apply : Event → Section → Section
  | birth unit depth, s => { s with unit, depth }
  | change c, s => c.apply s
  | place child, s => s.place child

def Event.inputs : Event → List Input
  | change c => c.inputs
  | _ => []

/-- What is committed at once. -/
inductive Record where
  /-- Rows that are aligned with one another, and the text below them if any waited. -/
  | lines (depth : Nat) (rows : Table) (text : Option String)
  | place (child : Nat)

def Record.fragments : Record → List Fragment
  | lines depth rows text => (rows.align ++ text.toList).map fun text => .line ⟨depth, text⟩
  | place child => [.nested child]

def Record.text : Record → Option String
  | lines _ _ text => text
  | place _ => none

def Record.rows : Record → Table
  | lines _ rows _ => rows
  | place _ => []

def Event.records : Event → Section → List Record
  | change .commitRows, s => [.lines s.depth s.rows none]
  | change .commit, s => [.lines s.depth s.rows (if s.pending then some (String.join s.raw) else none)]
  | place child, _ => [.place child]
  | _, _ => []

def replay (s : Section) (events : List Event) : Section :=
  events.foldl (fun s event => event.apply s) s

def records (s : Section) : List Event → List Record
  | [] => []
  | event :: rest => event.records s ++ (event.apply s).records rest

@[simp] theorem replay_nil (s : Section) : s.replay [] = s := rfl

@[simp] theorem replay_cons (s : Section) (event : Event) (rest : List Event) :
    s.replay (event :: rest) = (event.apply s).replay rest := rfl

@[simp] theorem replay_append (s : Section) (events others : List Event) :
    s.replay (events ++ others) = (s.replay events).replay others :=
  List.foldl_append ..

theorem records_append (s : Section) (events others : List Event) :
    s.records (events ++ others) = s.records events ++ (s.replay events).records others := by
  induction events generalizing s with
  | nil => rfl
  | cons event rest ih => simp [records, ih]

theorem Event.fragments_apply (event : Event) (s : Section) :
    (event.apply s).fragments = s.fragments ++ (event.records s).flatMap Record.fragments := by
  cases event with
  | birth unit depth => simp [Event.apply, Event.records]
  | place child => simp [Event.apply, Event.records, Record.fragments, Section.place]
  | change c =>
    rw [Event.apply, Section.fragments_apply]
    cases c with
    | commit =>
      cases h : s.pending <;>
        simp [Event.records, Change.added, Record.fragments, rowLines, rawLines, h]
    | commitRows => simp [Event.records, Change.added, Record.fragments, rowLines]
    | _ => simp [Event.records, Change.added]

theorem Event.raw_apply (event : Event) (s : Section) :
    String.join ((event.records s).filterMap Record.text) ++ String.join (event.apply s).raw =
      String.join s.raw ++ String.join (event.inputs.filterMap Input.asText) := by
  cases event with
  | birth unit depth => simp [Event.apply, Event.records, Event.inputs]
  | place child =>
    simp [Event.apply, Event.records, Record.text, Event.inputs, Section.place, List.filterMap_cons]
  | change c =>
    cases c with
    | commit =>
      cases h : s.pending <;>
        simp [Event.apply, Event.records, Record.text, Event.inputs, Change.apply, Change.inputs,
          commit_raw, h, List.filterMap_cons]
    | _ => simp [Event.apply, Event.records, Record.text, Event.inputs, Change.apply, Change.inputs,
        Input.asText, write, queueRow, commitRows, indent, List.filterMap_cons]

theorem Event.rows_apply (event : Event) (s : Section) :
    (event.records s).flatMap Record.rows ++ (event.apply s).rows =
      s.rows ++ event.inputs.filterMap Input.asRow := by
  cases event with
  | birth unit depth => simp [Event.apply, Event.records, Event.inputs]
  | place child => simp [Event.apply, Event.records, Record.rows, Event.inputs, Section.place]
  | change c =>
    cases c <;>
      simp [Event.apply, Event.records, Record.rows, Event.inputs, Change.apply, Change.inputs,
        write, queueRow, commitRows, indent, List.filterMap_cons]

theorem fragments_replay (s : Section) (events : List Event) :
    (s.replay events).fragments = s.fragments ++ (s.records events).flatMap Record.fragments := by
  induction events generalizing s with
  | nil => simp [records]
  | cons event rest ih => simp [records, ih, event.fragments_apply]

theorem raw_replay (s : Section) (events : List Event) :
    String.join ((s.records events).filterMap Record.text) ++ String.join (s.replay events).raw =
      String.join s.raw ++ String.join ((events.flatMap Event.inputs).filterMap Input.asText) := by
  induction events generalizing s with
  | nil => simp [records]
  | cons event rest ih =>
    simp only [records, replay_cons, List.filterMap_append, String.join_append, List.flatMap_cons]
    rw [String.append_assoc, ih, ← String.append_assoc, event.raw_apply, String.append_assoc]

theorem rows_replay (s : Section) (events : List Event) :
    (s.records events).flatMap Record.rows ++ (s.replay events).rows =
      s.rows ++ (events.flatMap Event.inputs).filterMap Input.asRow := by
  induction events generalizing s with
  | nil => simp [records]
  | cons event rest ih =>
    simp only [records, replay_cons, List.flatMap_append, List.filterMap_append, List.flatMap_cons]
    rw [List.append_assoc, ih, ← List.append_assoc, event.rows_apply, List.append_assoc]

end Section

end IndentedText
