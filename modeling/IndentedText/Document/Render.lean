import IndentedText.Document

/-!
Rendering a document. The walk commits every section in which something is pending when it comes to
it, so a render also changes the document; a hidden section is committed too, but the walk goes no
further down.
-/

namespace IndentedText.Document

/-- Writes fragments behind the text `written`. At the place of a section `below` gives the text to
put there, and the document as it is after that. -/
def writeFragments (unit : String) (ambient : Int) (below : Nat → Document → String × Document) :
    List Fragment → String → Document → String × Document
  | [], written, d => (written, d)
  | .line line :: rest, written, d =>
    writeFragments unit ambient below rest (written ++ line.render unit ambient) d
  | .nested child :: rest, written, d =>
    writeFragments unit ambient below rest (written ++ (below child d).1) (below child d).2

/-- Walks through section `b` and the sections below it, all numbered under `limit`. A place is
always reserved for a later section than the one it is in, so the numbers grow along the walk. -/
def renderBelow (limit : Nat) (ambient : Int) (b : Nat) (d : Document) : String × Document :=
  let d := if (d.get b).pending then d.put b (d.get b).commit else d
  if (d.get b).isOmitted then ("", d)
  else
    writeFragments (d.get b).unit ambient
      (fun child d =>
        if _ : b < child ∧ child < limit then renderBelow limit ambient child d else ("", d))
      (d.get b).fragments "" d
termination_by limit - b

/-- The text of section `b`, with `ambient` levels added to every depth. -/
def render (b : Nat) (ambient : Int) : DocumentM String :=
  modifyGet fun d => renderBelow d.size ambient b d

def text (b : Nat) : DocumentM String :=
  render b 0

end IndentedText.Document
