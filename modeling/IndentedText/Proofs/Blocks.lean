import Mathlib.Data.List.Chain
import IndentedText.Code.Outline
import IndentedText.Proofs.SourceFile

/-!
The blocks of generated code. Its lines follow a grammar in which a block is a line that opens it and
lines one level deeper, of which there is at least one with text. Depth can only step as the grammar
lets it.
-/

namespace IndentedText.Code

open OutlineLine

def Filled (lines : List OutlineLine) : Prop :=
  ∃ first rest, lines = first :: rest ∧ first.line.text ≠ ""

theorem Filled.append {lines : List OutlineLine} (filled : Filled lines) (others : List OutlineLine) :
    Filled (lines ++ others) := by
  obtain ⟨first, rest, rfl, text⟩ := filled
  exact ⟨first, rest ++ others, rfl, text⟩

theorem filled_plain {text : String} (h : text ≠ "") (depth : Nat) (rest : List OutlineLine) :
    Filled (plain ⟨depth, text⟩ :: rest) :=
  ⟨_, rest, rfl, h⟩

theorem filled_opening {head : String} (h : head ≠ "") (depth : Nat) (rest : List OutlineLine) :
    Filled (opening depth head :: rest) :=
  ⟨_, rest, rfl, h⟩

/-- Whole blocks, one after another, at some depth. -/
inductive Blocks : Nat → List OutlineLine → Prop where
  | none {depth : Nat} : Blocks depth []
  | line {depth : Nat} {rest : List OutlineLine} (text : String) (after : Blocks depth rest) :
      Blocks depth (plain ⟨depth, text⟩ :: rest)
  | block {depth : Nat} {body rest : List OutlineLine} (head : String) (filled : Filled body)
      (inside : Blocks (depth + 1) body) (after : Blocks depth rest) :
      Blocks depth (opening depth head :: (body ++ rest))

theorem Blocks.append {depth : Nat} {lines others : List OutlineLine} (blocks : Blocks depth lines)
    (more : Blocks depth others) : Blocks depth (lines ++ others) := by
  induction blocks with
  | none => exact more
  | line text _ ih => exact .line text (ih more)
  | block head filled inside _ _ ih =>
    rw [List.cons_append, List.append_assoc]
    exact .block head filled inside (ih more)

theorem Blocks.single {depth : Nat} {body : List OutlineLine} (head : String) (filled : Filled body)
    (inside : Blocks (depth + 1) body) : Blocks depth (opening depth head :: body) := by
  simpa using Blocks.block head filled inside .none

theorem blocks_linesAt (depth : Nat) (texts : List String) :
    Blocks depth ((linesAt depth texts).map plain) := by
  induction texts with
  | nil => exact .none
  | cons text rest ih => exact .line text ih

theorem blocks_flatMap {depth : Nat} {lines : α → List OutlineLine} (items : List α)
    (h : ∀ item ∈ items, Blocks depth (lines item)) : Blocks depth (items.flatMap lines) := by
  induction items with
  | nil => exact .none
  | cons item rest ih =>
    exact (h item (by simp)).append (ih fun other member => h other (by simp [member]))

/-- What may stand right below a line. -/
def Below (upper lower : OutlineLine) : Prop :=
  if upper.opens then lower.line.depth = upper.line.depth + 1 ∧ lower.line.text ≠ ""
  else lower.line.depth ≤ upper.line.depth

structure Stepped (depth : Nat) (lines : List OutlineLine) : Prop where
  first : ∀ item ∈ lines.head?, item.line.depth = depth
  deep : ∀ item ∈ lines, depth ≤ item.line.depth
  chain : lines.IsChain Below
  last : ∀ item ∈ lines.getLast?, item.opens = false

theorem Stepped.behind {depth : Nat} {upper : OutlineLine} {lines : List OutlineLine}
    (stepped : Stepped depth lines) (opens : upper.opens = false) (deep : depth ≤ upper.line.depth) :
    ∀ item ∈ lines.head?, Below upper item := by
  intro item head
  have level := stepped.first item head
  simp only [Below, opens, Bool.false_eq_true, if_false]
  omega

theorem Blocks.stepped {depth : Nat} {lines : List OutlineLine} (blocks : Blocks depth lines) :
    Stepped depth lines := by
  induction blocks with
  | none => exact ⟨by simp, by simp, .nil, by simp⟩
  | @line depth rest text _ ih =>
    refine ⟨by simp, by simpa using ih.deep, ?_, fun item last => ?_⟩
    · exact List.isChain_cons.2 ⟨ih.behind rfl (Nat.le_refl depth), ih.chain⟩
    · rw [List.getLast?_cons, Option.mem_some_iff] at last
      cases below : rest.getLast? with
      | none => simp [← last, below]
      | some other => simpa [← last, below] using ih.last other below
  | @block depth body rest head filled _ _ inside ih =>
    obtain ⟨first, others, rfl, text⟩ := filled
    refine ⟨by simp, fun item member => ?_, ?_, fun item last => ?_⟩
    · simp only [List.mem_cons, List.mem_append] at member
      rcases member with rfl | (rfl | member) | member
      · exact Nat.le_refl depth
      · exact Nat.le_of_succ_le (inside.deep _ (by simp))
      · exact Nat.le_of_succ_le (inside.deep _ (by simp [member]))
      · exact ih.deep item member
    · -- The line above the ones behind the block is the last of its body, which opens nothing.
      refine List.isChain_cons_cons.2 ⟨⟨inside.first first rfl, text⟩, ?_⟩
      refine List.isChain_append.2 ⟨inside.chain, ih.chain, fun upper last item behind => ?_⟩
      refine ih.behind (inside.last upper last) ?_ item behind
      exact Nat.le_of_succ_le (inside.deep upper (List.mem_of_getLast? last))
    · rw [List.cons_append, List.getLast?_cons_cons, ← List.cons_append, List.getLast?_append] at last
      cases below : rest.getLast? with
      | none => exact inside.last item (by simpa [below] using last)
      | some other => exact ih.last item (by simpa [below] using last)

theorem Stepped.below {depth i : Nat} {lines : List OutlineLine} {upper lower : OutlineLine}
    (stepped : Stepped depth lines) (here : lines[i]? = some upper)
    (next : lines[i + 1]? = some lower) : Below upper lower := by
  obtain ⟨inside, rfl⟩ := List.getElem?_eq_some_iff.1 next
  obtain ⟨-, rfl⟩ := List.getElem?_eq_some_iff.1 here
  exact stepped.chain.getElem i inside

theorem Stepped.exists_below {depth i : Nat} {lines : List OutlineLine} {upper : OutlineLine}
    (stepped : Stepped depth lines) (here : lines[i]? = some upper) (opens : upper.opens = true) :
    ∃ lower, lines[i + 1]? = some lower := by
  by_contra none
  have inside := (List.getElem?_eq_some_iff.1 here).1
  have beyond : lines.length ≤ i + 1 :=
    List.getElem?_eq_none_iff.1 (Option.eq_none_iff_forall_ne_some.2 fun lower h => none ⟨lower, h⟩)
  have last : lines.getLast? = some upper := by
    rw [List.getLast?_eq_getElem?, ← here]
    congr 1
    omega
  simp [stepped.last upper last] at opens

theorem blocks_docLayout (doc : String) (depth : Nat) :
    Blocks depth ((docLayout doc depth).map plain) := by
  unfold docLayout
  split
  · exact .none
  · exact blocks_linesAt depth _

theorem filled_docLayout {doc : String} (h : doc ≠ "") (depth : Nat) :
    Filled ((docLayout doc depth).map plain) := by
  rw [docLayout, if_neg h]
  exact filled_plain (by decide) depth _

namespace Statement

theorem filled_outline {statement : Statement} (concrete : statement.isConcrete = true) (depth : Nat) :
    Filled (statement.outline depth) := by
  cases statement with
  | abstract => cases concrete
  | pass => exact filled_plain (by decide) depth _
  | assign target value => exact filled_plain (by simp [assignLine]) depth _
  | ret value => exact filled_plain (by cases value <;> simp [returnLine]) depth _
  | call function arguments keywords => exact filled_plain (by simp [callLine]) depth _
  | branch condition body orElse =>
    rw [outline]
    exact filled_opening (by simp [branchLine]) depth _
  | loop target iterable body =>
    rw [outline]
    exact filled_opening (by simp [loopLine]) depth _

theorem filled_outlineBody {body : List Statement} (concrete : allConcrete body = true) (depth : Nat) :
    Filled (outlineBody body depth) := by
  cases body with
  | nil => exact filled_plain (by decide) depth _
  | cons statement rest =>
    rw [allConcrete, Bool.and_eq_true] at concrete
    rw [outlineBody]
    exact (filled_outline concrete.1 depth).append _

mutual

theorem blocks_outline : ∀ {statement : Statement}, statement.isConcrete = true → ∀ depth,
    Blocks depth (statement.outline depth)
  | pass, _, depth | assign .., _, depth | ret .., _, depth | call .., _, depth => by
    simp only [outline, layout]
    exact .line _ .none
  | branch condition body orElse, concrete, depth => by
    rw [isConcrete, Bool.and_eq_true] at concrete
    have inside := blocks_outlineBody concrete.1 (depth + 1)
    rw [outline, List.cons_append]
    refine .block _ (filled_outlineBody concrete.1 _) inside ?_
    split
    · exact .none
    · exact .single _ (filled_outlineBody concrete.2 _) (blocks_outlineBody concrete.2 (depth + 1))
  | loop target iterable body, concrete, depth => by
    rw [isConcrete] at concrete
    rw [outline]
    exact .single _ (filled_outlineBody concrete _) (blocks_outlineBody concrete (depth + 1))

theorem blocks_outlineBody : ∀ {body : List Statement}, allConcrete body = true → ∀ depth,
    Blocks depth (outlineBody body depth)
  | [], _, depth => .line _ .none
  | statement :: rest, concrete, depth => by
    rw [allConcrete, Bool.and_eq_true] at concrete
    rw [outlineBody]
    exact (blocks_outline concrete.1 depth).append (blocks_outlineAll concrete.2 depth)

theorem blocks_outlineAll : ∀ {body : List Statement}, allConcrete body = true → ∀ depth,
    Blocks depth (outlineAll body depth)
  | [], _, _ => .none
  | statement :: rest, concrete, depth => by
    rw [allConcrete, Bool.and_eq_true] at concrete
    rw [outlineAll]
    exact (blocks_outline concrete.1 depth).append (blocks_outlineAll concrete.2 depth)

end

end Statement

theorem filled_decorated (decorators : List String) (depth : Nat) {head : String} (text : head ≠ "")
    (body : List OutlineLine) :
    Filled ((linesAt depth (decorators.map ("@" ++ ·))).map plain ++ opening depth head :: body) := by
  cases decorators with
  | nil => exact filled_opening text depth body
  | cons decorator rest => exact (filled_plain (by simp []) depth _).append _

namespace FunctionDef

theorem blocks_outline {f : FunctionDef} (concrete : f.isConcrete = true) (depth : Nat) :
    Blocks depth (f.outline depth) := by
  have doc := blocks_docLayout f.doc (depth + 1)
  refine (blocks_linesAt depth _).append (.single _ ?_ (doc.append ?_))
  · by_cases documented : f.doc = ""
    · simpa [docLayout, documented] using Statement.filled_outlineBody concrete (depth + 1)
    · exact (filled_docLayout documented _).append _
  · split
    · exact .none
    · exact Statement.blocks_outlineBody concrete (depth + 1)

theorem filled_outline (f : FunctionDef) (depth : Nat) : Filled (f.outline depth) :=
  filled_decorated _ depth (by simp [headLine]) _

end FunctionDef

namespace ClassDef

theorem blocks_outlineMethods (first : Bool) {methods : List FunctionDef}
    (concrete : methods.all FunctionDef.isConcrete = true) (depth : Nat) :
    Blocks depth (outlineMethods first methods depth) := by
  induction methods generalizing first with
  | nil => exact .none
  | cons method rest ih =>
    rw [List.all_cons, Bool.and_eq_true] at concrete
    exact ((blocks_linesAt depth _).append (method.blocks_outline concrete.1 depth)).append
      (ih false concrete.2)

/-- A row of a field has text, because its name has a colon behind it. -/
theorem filled_fields {fields : List ClassField} (h : fields ≠ []) (depth : Nat) :
    Filled ((linesAt depth (Table.align (fields.map ClassField.row))).map plain) := by
  obtain ⟨field, rest, rfl⟩ := List.exists_cons_of_ne_nil h
  have first : field.row ∈ (field :: rest).map ClassField.row := by simp
  have columns := Table.length_le_length_widths first
  refine filled_plain ?_ depth _
  cases initial : field.initial <;> simp only [ClassField.row, initial] at columns ⊢ <;>
    exact Table.alignRow_ne_empty columns (by simp [cellText])

theorem filled_outlineBody (c : ClassDef) (depth : Nat) : Filled (c.outlineBody depth) := by
  unfold outlineBody
  by_cases documented : c.doc = ""
  · by_cases fields : c.fields = []
    · cases methods : c.methods with
      | nil =>
        simpa [docLayout, documented, fields, methods, outlineMethods, linesAt, Table.align] using
          filled_plain (by decide : "pass" ≠ "") depth []
      | cons method rest =>
        simpa [docLayout, documented, fields, methods, outlineMethods, linesAt, Table.align] using
          (method.filled_outline depth).append (outlineMethods false rest depth)
    · simp only [docLayout, documented, if_true, List.map_nil, List.nil_append, List.append_assoc]
      exact (filled_fields fields depth).append _
  · simp only [List.append_assoc]
    exact (filled_docLayout documented depth).append _

theorem blocks_outline {c : ClassDef} (concrete : c.isConcrete = true) (depth : Nat) :
    Blocks depth (c.outline depth) := by
  have inside : Blocks (depth + 1) (c.outlineBody (depth + 1)) :=
    (((blocks_docLayout c.doc _).append (blocks_linesAt _ _)).append
      (blocks_outlineMethods _ concrete _)).append (blocks_linesAt _ _)
  refine (blocks_linesAt depth _).append ?_
  rw [List.cons_append]
  exact .block _ (c.filled_outlineBody _) inside (.line "" .none)

end ClassDef

namespace SourceFile

theorem blocks_outline {file : SourceFile} (concrete : file.isConcrete = true) (imports : List String) :
    Blocks 0 (file.outline imports) := by
  simp only [isConcrete, Bool.and_eq_true] at concrete
  obtain ⟨⟨classes, functions⟩, trailer⟩ := concrete
  have importLines : Blocks 0 ((importLayout imports).map plain) := by
    unfold importLayout
    split
    · exact .none
    · exact blocks_linesAt 0 _
  unfold outline
  rw [List.map_append]
  refine Blocks.append (.append (((blocks_docLayout file.doc 0).append importLines).append ?_) ?_) ?_
  · exact blocks_flatMap _ fun c member =>
      ClassDef.blocks_outline (List.all_eq_true.1 classes c member) 0
  · exact blocks_flatMap _ fun f member =>
      (FunctionDef.blocks_outline (List.all_eq_true.1 functions f member) 0).append (.line "" .none)
  · exact Statement.blocks_outlineAll trailer 0

theorem imports_of_accepted {file : SourceFile} {unit : Option String} {text : String}
    (accepted : file.code unit = .ok text) :
    file.isConcrete = true ∧ ∃ lines, file.allImports.map Import.line = lines.map .ok ∧
      text = Line.renderAll (unit.getD "   ") 0 (file.layout lines) := by
  rw [code_eq] at accepted
  split at accepted
  · rename_i concrete
    have valid : ∀ i ∈ file.allImports, ¬ i.Targetless := by
      intro i member targetless
      rw [Import.mapM_line_of_targetless ⟨i, member, targetless⟩] at accepted
      cases accepted
    obtain ⟨lines, asked, each⟩ := Import.mapM_line valid
    rw [asked] at accepted
    cases accepted
    exact ⟨concrete, lines, each, rfl⟩
  · cases accepted

/-- In the document of a file that has a code, the lines step in and out with the blocks. The first
one is at depth zero, every line that opens a block has one with text right below it and one level
deeper, and below all others there are only lines that are not deeper. -/
theorem code_blocks {file : SourceFile} {unit : Option String} {text : String}
    (accepted : file.code unit = .ok text) :
    ∃ (imports : List String) (d : Document),
      file.allImports.map Import.line = imports.map .ok ∧
      file.write (Document.new unit) = .ok () d ∧ text = Line.renderAll d.unit 0 (d.lines 0) ∧
      let outline := file.outline imports
      d.lines 0 = outline.map line ∧
        (∀ first, outline[0]? = some first → first.line.depth = 0) ∧
        ∀ i upper, outline[i]? = some upper →
          (upper.opens = true → ∃ lower, outline[i + 1]? = some lower ∧
            lower.line.depth = upper.line.depth + 1 ∧ lower.line.text ≠ "") ∧
          (upper.opens = false → ∀ lower, outline[i + 1]? = some lower →
            lower.line.depth ≤ upper.line.depth) := by
  obtain ⟨concrete, imports, each, printed⟩ := imports_of_accepted accepted
  obtain ⟨d, written, sameUnit, sameLines⟩ := write_of_ok concrete each unit
  have stepped := (blocks_outline concrete imports).stepped
  refine ⟨imports, d, each, written, by rw [printed, sameUnit, sameLines], ?_, ?_, ?_⟩
  · rw [sameLines, map_line_outline]
  · intro first here
    exact stepped.first first (by rw [List.head?_eq_getElem?]; exact here)
  · intro i upper here
    refine ⟨fun opens => ?_, fun opens lower next => ?_⟩
    · obtain ⟨lower, next⟩ := stepped.exists_below here opens
      have below := stepped.below here next
      simp only [Below, opens, if_true] at below
      exact ⟨lower, next, below⟩
    · simpa [Below, opens] using stepped.below here next

theorem code_blocks_empty_bodies :
    let file : SourceFile :=
      { imports := [{ target := some "os" }]
        classes := [{ name := "A", fields := [{ name := "x", annotation := "int" }] },
          { name := "B", methods := [{ name := "f", doc := " ", decorators := ["g"] }] },
          { name := "C" }]
        functions := [{ name := "h", body := [.loop "i" "r" [.branch "c" [] [.pass]]] }] }
    ∃ text, file.code none = .ok text ∧ ∃ imports d, file.write (Document.new none) = .ok () d ∧
      text = Line.renderAll d.unit 0 (d.lines 0) ∧ d.lines 0 = (file.outline imports).map line := by
  intro file
  have accepted : file.code none = .ok _ := (file.code_eq none).trans rfl
  obtain ⟨imports, d, -, written, text, lines, -⟩ := code_blocks accepted
  exact ⟨_, accepted, imports, d, written, text, lines⟩

end SourceFile

end IndentedText.Code
