import IndentedText.Code.Definition

/-!
Commands to a single section, and what they answer. They neither see nor touch another section.
-/

namespace IndentedText

inductive Command where
  | write (text : String)
  | writeLine (text : String)
  | writeLines (text : String)
  | queueRow (columns : Columns)
  | openBlock (text : String)
  | closeBlock (text : String)
  | turnBlock (text : String)
  | indent
  | outdent
  | commit
  | commitRows
  | setVisible (value : Bool)
  | setVisibleIfEmpty (value : Bool)
  | describe
  | fragments
  | emit (node : Code.Node)
  | fail (message : String)

inductive Reply where
  | none
  | taken
  | flag (value : Bool)
  | text (text : String)
  | fragments (fragments : List Fragment)
  | nested (child : Nat) (unit : String) (status : Status)
  | statuses (statuses : List Status)
  deriving DecidableEq

def Command.run : Command → SectionM Reply
  | write text => do SectionM.write text; pure .taken
  | writeLine text => do SectionM.writeLine text; pure .taken
  | writeLines text => do SectionM.writeLines text; pure .taken
  | queueRow columns => do SectionM.queueRow columns; pure .taken
  | openBlock text => do SectionM.openBlock text; pure .taken
  | closeBlock text => do SectionM.closeBlock text; pure .taken
  | turnBlock text => do SectionM.turnBlock text; pure .taken
  | indent => do SectionM.indent; pure .none
  | outdent => do SectionM.outdent; pure .none
  | commit => do SectionM.commit; pure .none
  | commitRows => do SectionM.commitRows; pure .none
  | setVisible value => do
    modify fun s => { s with visible := value }
    return .flag (← get).visible
  | setVisibleIfEmpty value => do
    modify fun s => { s with visibleIfEmpty := value }
    return .flag (← get).visibleIfEmpty
  | describe => return .text (← get).describe
  | fragments => return .fragments (← get).fragments
  | emit node => do node.emit; pure .none
  | fail message => throw (.raised message)

end IndentedText
