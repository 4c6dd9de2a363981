import IndentedText.Section

/-!
Writing that can be refused. A refused write keeps what was done to the section before the fault.
-/

namespace IndentedText

abbrev SectionM := EStateM Fault Section

namespace SectionM

def write (text : String) : SectionM Unit :=
  modify (Section.write text)

def writeLine (text : String) : SectionM Unit :=
  modify (Section.writeLine text)

def writeLines (text : String) : SectionM Unit :=
  modify (Section.writeLines text)

def queueRow (columns : Columns) : SectionM Unit :=
  modify (Section.queueRow columns)

def commit : SectionM Unit :=
  modify Section.commit

def commitRows : SectionM Unit :=
  modify Section.commitRows

def indent : SectionM Unit :=
  modify Section.indent

/-- Steps one level out. At depth zero this is a fault and the section stays as it is. -/
def outdent : SectionM Unit := fun s =>
  match s.depth with
  | 0 => .error (.belowZero s.depth) s
  | depth + 1 => .ok () { s with depth := depth }

def openBlock (text : String) : SectionM Unit :=
  modify (Section.openBlock text)

/-- Steps out of a block and writes the line that closes it. Rows that wait belong to the block, so
they are committed before the step. -/
def closeBlock (text : String) : SectionM Unit := do
  commitRows
  outdent
  writeLine text

def turnBlock (text : String) : SectionM Unit := do
  closeBlock text
  indent

/-- Does `inner` one level deeper and steps out again, whether `inner` is refused or not. A fault of
that last step takes the place of an earlier one. -/
def indented (inner : SectionM α) : SectionM α := do
  indent
  try inner finally outdent

end SectionM

end IndentedText
