import IndentedText.Document.Render
import IndentedText.Script.Command

/-!
Scripts that write a document step by step. Every step is answered, with the status of its section
after it. A fault does not end a script, but it ends the indented blocks that it happens in.
-/

namespace IndentedText

inductive Action where
  | command (c : Command)
  | nest
  | render (ambient : Int)
  | text
  | statuses

inductive Step where
  | act (b : Nat) (action : Action)
  /-- Steps taken while section `b` is one level deeper. -/
  | indented (b : Nat) (steps : List Step)

inductive Answer where
  | act (status : Status) (outcome : Except Fault Reply)
  | indented (status : Status) (answers : List Answer) (fault : Option Fault)

def Answer.fault : Answer → Option Fault
  | .act _ (.ok _) => none
  | .act _ (.error fault) => some fault
  | .indented _ _ fault => fault

def Action.run (b : Nat) : Action → DocumentM Reply
  | .command c => Document.inSection b c.run
  | .nest => do
    let child ← Document.nest b
    let d ← get
    return .nested child (d.get child).unit (d.status child)
  | .render ambient => return .text (← Document.render b ambient)
  | .text => return .text (← Document.text b)
  | .statuses => return .statuses ((← get).sections.map Section.status)

def Action.answer (b : Nat) (action : Action) (d : Document) : Answer × Document :=
  match action.run b d with
  | .ok reply d => (.act (d.status b) (.ok reply), d)
  | .error fault d => (.act (d.status b) (.error fault), d)

/-- Leaves an indented block of section `b`, which `fault` may have ended. If the section has no depth
left to give back, that is the fault that counts. -/
def Step.leaveBlock (b : Nat) (fault : Option Fault) (d : Document) : Option Fault × Document :=
  match Document.inSection b SectionM.outdent d with
  | .ok _ d => (fault, d)
  | .error exitFault d => (some exitFault, d)

namespace Step

mutual

def run : Step → Document → Answer × Document
  | act b action, d => action.answer b d
  | indented b steps, d =>
    let (answers, inside, d) := runBlock steps (d.put b (d.get b).indent)
    let (fault, d) := leaveBlock b inside d
    (.indented (d.status b) answers fault, d)

/-- Takes the steps of a block, up to the first that ends with a fault. -/
def runBlock : List Step → Document → List Answer × Option Fault × Document
  | [], d => ([], none, d)
  | step :: rest, d =>
    let (answer, d) := step.run d
    match answer.fault with
    | some fault => ([answer], some fault, d)
    | none =>
      let (answers, fault, d) := runBlock rest d
      (answer :: answers, fault, d)

end

def runAll : List Step → Document → List Answer × Document
  | [], d => ([], d)
  | step :: rest, d =>
    let (answer, d) := step.run d
    let (answers, d) := runAll rest d
    (answer :: answers, d)

end Step

end IndentedText
