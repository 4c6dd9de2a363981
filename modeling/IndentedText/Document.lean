import IndentedText.Section.Writing

/-!
A document: sections numbered in the order of their creation, the root being number zero.
-/

namespace IndentedText

structure Document where
  sections : List Section
  deriving DecidableEq

/-- A write to a document. What was done before a fault is kept. -/
abbrev DocumentM := EStateM Fault Document

namespace Document

def new (unit : Option String) : Document where
  sections := [{ unit := unit.getD Section.standardUnit }]

def size (d : Document) : Nat :=
  d.sections.length

/-- The section numbered `b`; a number not given out yet reads as an empty section. -/
def get (d : Document) (b : Nat) : Section :=
  d.sections.getD b {}

def unit (d : Document) : String :=
  (d.get 0).unit

/-- Puts `s` in the place of section `b`. A number not given out yet has no place. -/
def put (d : Document) (b : Nat) (s : Section) : Document where
  sections := d.sections.set b s

@[simp] theorem size_put (d : Document) (b : Nat) (s : Section) : (d.put b s).size = d.size := by
  simp [size, put]

theorem get_put (d : Document) (b c : Nat) (s : Section) :
    (d.put b s).get c = if b = c ∧ b < d.size then s else d.get c := by
  simp only [get, put, size, List.getD_eq_getElem?_getD, List.getElem?_set]
  by_cases h : b = c
  · subst h
    by_cases inside : b < d.sections.length <;> simp [inside]
  · simp [h]

def status (d : Document) (b : Nat) : Status :=
  (d.get b).status

def nest (b : Nat) : DocumentM Nat := fun d =>
  let child := d.size
  if b < d.size then
    let held := d.put b ((d.get b).reserve child)
    .ok child { sections := held.sections ++ [(d.get b).child] }
  else .ok child d

def inSection (b : Nat) (write : SectionM α) : DocumentM α := fun d =>
  match write (d.get b) with
  | .ok value s => .ok value (d.put b s)
  | .error fault s => .error fault (d.put b s)

end Document

end IndentedText
