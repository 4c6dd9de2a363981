import IndentedText.Code.Layout

/-!
Drafts: the layout of code in which some statements have no form of their own yet. There is a gap at the
place of each, and code that is put there fills it.
-/

namespace IndentedText.Code

inductive DraftLine where
  | line (line : Line)
  /-- The place of an abstract statement, and how many branches, functions and classes stand around it.
  Loops do not count, because they step out again whatever happens inside. -/
  | gap (depth around : Nat)

abbrev Draft := List DraftLine

namespace DraftLine

def enclose : DraftLine → DraftLine
  | line l => line l
  | gap depth around => gap depth (around + 1)

/-- The lines that come to stand there once `filler` is written into the gaps. -/
def plug (filler : Nat → List Line) : DraftLine → List Line
  | line l => [l]
  | gap depth _ => filler depth

variable (filler : Nat → List Line)

@[simp] theorem plug_comp_enclose : plug filler ∘ enclose = plug filler := by
  funext item
  cases item <;> rfl

theorem map_enclose_lines (lines : List Line) : (lines.map line).map enclose = lines.map line := by
  rw [List.map_map]
  rfl

theorem flatMap_plug_lines (lines : List Line) : (lines.map line).flatMap (plug filler) = lines := by
  rw [List.flatMap_map]
  exact List.flatMap_singleton' lines

theorem flatMap_plug_enclose (draft : Draft) :
    (draft.map enclose).flatMap (plug filler) = draft.flatMap (plug filler) := by
  rw [List.flatMap_map]
  exact congrArg (List.flatMap · draft) (plug_comp_enclose filler)

end DraftLine

open DraftLine

namespace Statement

mutual

def draft : Statement → Nat → Draft
  | abstract, depth => [.gap depth 0]
  | branch condition body orElse, depth =>
    .line ⟨depth, branchLine condition⟩ :: (draftBody body (depth + 1)).map enclose ++
      if orElse.isEmpty then []
      else .line ⟨depth, "else:"⟩ :: (draftBody orElse (depth + 1)).map enclose
  | loop target iterable body, depth =>
    .line ⟨depth, loopLine target iterable⟩ :: draftBody body (depth + 1)
  | statement, depth => (statement.layout depth).map .line

def draftBody : List Statement → Nat → Draft
  | [], depth => [.line ⟨depth, "pass"⟩]
  | statement :: rest, depth => statement.draft depth ++ draftAll rest depth

def draftAll : List Statement → Nat → Draft
  | [], _ => []
  | statement :: rest, depth => statement.draft depth ++ draftAll rest depth

end

mutual

theorem draft_of_isConcrete : ∀ {statement : Statement}, statement.isConcrete = true →
    ∀ depth, statement.draft depth = (statement.layout depth).map .line
  | pass, _, depth | assign .., _, depth | ret .., _, depth | call .., _, depth => by
    simp only [draft]
  | branch condition body orElse, concrete, depth => by
    rw [isConcrete, Bool.and_eq_true] at concrete
    rw [draft, layout, draftBody_of_allConcrete concrete.1, draftBody_of_allConcrete concrete.2,
      map_enclose_lines, map_enclose_lines]
    split <;> simp
  | loop target iterable body, concrete, depth => by
    rw [isConcrete] at concrete
    rw [draft, layout, draftBody_of_allConcrete concrete]
    rfl

theorem draftBody_of_allConcrete : ∀ {body : List Statement}, allConcrete body = true →
    ∀ depth, draftBody body depth = (layoutBody body depth).map .line
  | [], _, depth => rfl
  | statement :: rest, concrete, depth => by
    rw [allConcrete, Bool.and_eq_true] at concrete
    rw [draftBody, layoutBody, List.map_append, draft_of_isConcrete concrete.1,
      draftAll_of_allConcrete concrete.2]

theorem draftAll_of_allConcrete : ∀ {body : List Statement}, allConcrete body = true →
    ∀ depth, draftAll body depth = (layoutAll body depth).map .line
  | [], _, depth => rfl
  | statement :: rest, concrete, depth => by
    rw [allConcrete, Bool.and_eq_true] at concrete
    rw [draftAll, layoutAll, List.map_append, draft_of_isConcrete concrete.1,
      draftAll_of_allConcrete concrete.2]

end

mutual

def fill (filler : Statement) : Statement → Statement
  | abstract => filler
  | branch condition body orElse =>
    branch condition (fillAll filler body) (fillAll filler orElse)
  | loop target iterable body => loop target iterable (fillAll filler body)
  | statement => statement

def fillAll (filler : Statement) : List Statement → List Statement
  | [] => []
  | statement :: rest => fill filler statement :: fillAll filler rest

end

@[simp] theorem isEmpty_fillAll (filler : Statement) (body : List Statement) :
    (fillAll filler body).isEmpty = body.isEmpty := by
  cases body <;> rfl

section Fill

variable {filler : Statement}

mutual

theorem isConcrete_fill (concrete : filler.isConcrete = true) : ∀ statement : Statement,
    (fill filler statement).isConcrete = true
  | pass | assign .. | ret .. | call .. => by
    simp only [fill, isConcrete]
  | abstract => by
    rw [fill]
    exact concrete
  | branch condition body orElse => by
    rw [fill, isConcrete, allConcrete_fillAll concrete body, allConcrete_fillAll concrete orElse]
    rfl
  | loop target iterable body => by
    rw [fill, isConcrete]
    exact allConcrete_fillAll concrete body

theorem allConcrete_fillAll (concrete : filler.isConcrete = true) : ∀ body : List Statement,
    allConcrete (fillAll filler body) = true
  | [] => by
    rw [fillAll, allConcrete]
  | statement :: rest => by
    rw [fillAll, allConcrete, isConcrete_fill concrete statement,
      allConcrete_fillAll concrete rest]
    rfl

end

mutual

theorem plug_draft (filler : Statement) : ∀ (statement : Statement) (depth : Nat),
    (statement.draft depth).flatMap (plug filler.layout) = (fill filler statement).layout depth
  | pass, depth | assign .., depth | ret .., depth | call .., depth => by
    simp only [draft, fill, flatMap_plug_lines]
  | abstract, depth => by
    rw [draft, fill, List.flatMap_singleton, plug]
  | branch condition body orElse, depth => by
    rw [draft, fill, layout, isEmpty_fillAll, List.flatMap_append, List.flatMap_cons,
      flatMap_plug_enclose, plug_draftBody filler body]
    split
    · rfl
    · rw [List.flatMap_cons, flatMap_plug_enclose, plug_draftBody filler orElse]
      rfl
  | loop target iterable body, depth => by
    rw [draft, fill, layout, List.flatMap_cons, plug_draftBody filler body]
    rfl

theorem plug_draftBody (filler : Statement) : ∀ (body : List Statement) (depth : Nat),
    (draftBody body depth).flatMap (plug filler.layout) = layoutBody (fillAll filler body) depth
  | [], depth => rfl
  | statement :: rest, depth => by
    rw [draftBody, fillAll, layoutBody, List.flatMap_append, plug_draft filler statement,
      plug_draftAll filler rest]

theorem plug_draftAll (filler : Statement) : ∀ (body : List Statement) (depth : Nat),
    (draftAll body depth).flatMap (plug filler.layout) = layoutAll (fillAll filler body) depth
  | [], depth => rfl
  | statement :: rest, depth => by
    rw [draftAll, fillAll, layoutAll, List.flatMap_append, plug_draft filler statement,
      plug_draftAll filler rest]

end

end Fill

end Statement

namespace FunctionDef

def draft (f : FunctionDef) (depth : Nat) : Draft :=
  (linesAt depth (f.decorators.map ("@" ++ ·) ++ [f.headLine]) ++
      docLayout f.doc (depth + 1)).map .line ++
    if f.body = [] ∧ f.doc ≠ "" then [] else (Statement.draftBody f.body (depth + 1)).map enclose

theorem draft_of_isConcrete {f : FunctionDef} (concrete : f.isConcrete = true) (depth : Nat) :
    f.draft depth = (f.layout depth).map .line := by
  unfold draft layout
  rw [Statement.draftBody_of_allConcrete concrete, map_enclose_lines]
  split <;> simp

def fill (filler : Statement) (f : FunctionDef) : FunctionDef :=
  { f with body := Statement.fillAll filler f.body }

theorem isConcrete_fill {filler : Statement} (concrete : filler.isConcrete = true) (f : FunctionDef) :
    (f.fill filler).isConcrete = true :=
  Statement.allConcrete_fillAll concrete f.body

theorem plug_draft (filler : Statement) (f : FunctionDef) (depth : Nat) :
    (f.draft depth).flatMap (plug filler.layout) = (f.fill filler).layout depth := by
  have bare : (f.fill filler).body = [] ↔ f.body = [] := by
    rw [← List.isEmpty_iff, ← List.isEmpty_iff, fill, Statement.isEmpty_fillAll]
  have doc : (f.fill filler).doc = f.doc := rfl
  unfold draft layout
  rw [List.flatMap_append, flatMap_plug_lines, doc]
  simp only [bare]
  split
  · rfl
  · rw [flatMap_plug_enclose, Statement.plug_draftBody]
    rfl

end FunctionDef

namespace ClassDef

def draftMethods (first : Bool) : List FunctionDef → Nat → Draft
  | [], _ => []
  | method :: rest, depth =>
    (linesAt depth (if first then [] else [""])).map .line ++ method.draft depth ++
      draftMethods false rest depth

def draft (c : ClassDef) (depth : Nat) : Draft :=
  (linesAt depth (c.decorators.map ("@" ++ ·) ++ [c.headLine]) ++ docLayout c.doc (depth + 1) ++
      linesAt (depth + 1) (Table.align (c.fields.map ClassField.row))).map .line ++
    (draftMethods (c.doc == "" && c.fields.isEmpty) c.methods (depth + 1)).map enclose ++
    (linesAt (depth + 1)
        (if c.doc = "" ∧ c.fields = [] ∧ c.methods = [] then ["pass"] else []) ++
      linesAt depth [""]).map .line

theorem draftMethods_of_isConcrete (first : Bool) {methods : List FunctionDef}
    (concrete : methods.all FunctionDef.isConcrete = true) (depth : Nat) :
    draftMethods first methods depth = (layoutMethods first methods depth).map .line := by
  induction methods generalizing first with
  | nil => rfl
  | cons method rest ih =>
    rw [List.all_cons, Bool.and_eq_true] at concrete
    rw [draftMethods, layoutMethods, List.map_append, List.map_append,
      FunctionDef.draft_of_isConcrete concrete.1, ih false concrete.2]

theorem draft_of_isConcrete {c : ClassDef} (concrete : c.isConcrete = true) (depth : Nat) :
    c.draft depth = (c.layout depth).map .line := by
  unfold draft layout
  rw [draftMethods_of_isConcrete _ concrete, map_enclose_lines]
  simp

def fill (filler : Statement) (c : ClassDef) : ClassDef :=
  { c with methods := c.methods.map (FunctionDef.fill filler) }

theorem isConcrete_fill {filler : Statement} (concrete : filler.isConcrete = true) (c : ClassDef) :
    (c.fill filler).isConcrete = true := by
  simp [isConcrete, fill, FunctionDef.isConcrete_fill concrete]

theorem plug_draftMethods (filler : Statement) (first : Bool) (methods : List FunctionDef)
    (depth : Nat) :
    (draftMethods first methods depth).flatMap (plug filler.layout) =
      layoutMethods first (methods.map (FunctionDef.fill filler)) depth := by
  induction methods generalizing first with
  | nil => rfl
  | cons method rest ih =>
    rw [draftMethods, List.map_cons, layoutMethods, List.flatMap_append, List.flatMap_append,
      flatMap_plug_lines, method.plug_draft, ih]

theorem plug_draft (filler : Statement) (c : ClassDef) (depth : Nat) :
    (c.draft depth).flatMap (plug filler.layout) = (c.fill filler).layout depth := by
  unfold draft layout
  rw [List.flatMap_append, List.flatMap_append, flatMap_plug_lines, flatMap_plug_enclose,
    flatMap_plug_lines, plug_draftMethods]
  simp [fill, headLine]

end ClassDef

namespace Node

def draft : Node → Nat → Draft
  | .statement s => s.draft
  | .function f => f.draft
  | .classDef c => c.draft

theorem draft_of_isConcrete : ∀ {node : Node}, node.isConcrete = true →
    ∀ depth, node.draft depth = (node.layout depth).map .line
  | .statement _, concrete => Statement.draft_of_isConcrete concrete
  | .function _, concrete => FunctionDef.draft_of_isConcrete concrete
  | .classDef _, concrete => ClassDef.draft_of_isConcrete concrete

def fill (filler : Statement) : Node → Node
  | .statement s => .statement (Statement.fill filler s)
  | .function f => .function (f.fill filler)
  | .classDef c => .classDef (c.fill filler)

theorem isConcrete_fill {filler : Statement} (concrete : filler.isConcrete = true) :
    ∀ node : Node, (node.fill filler).isConcrete = true
  | .statement s => Statement.isConcrete_fill concrete s
  | .function f => f.isConcrete_fill concrete
  | .classDef c => c.isConcrete_fill concrete

theorem plug_draft (filler : Statement) : ∀ (node : Node) (depth : Nat),
    (node.draft depth).flatMap (plug filler.layout) = (node.fill filler).layout depth
  | .statement s => Statement.plug_draft filler s
  | .function f => f.plug_draft filler
  | .classDef c => c.plug_draft filler

end Node

end IndentedText.Code
