import IndentedText.Code.Skeleton
import IndentedText.Proofs.Blocks

/-!
The nesting of emitted statements can be read back from their lines. No line but the one between the two
bodies of a branch is an `else:`, every block has a line, and no line of a block is as far out as its
head, so each line can be put where it was emitted for.
-/

namespace IndentedText.Code

open Skeleton

namespace Statement

theorem ne_else {text : String} (c : Char) (inside : c ∈ text.toList)
    (other : c ∉ "else:".toList) : text ≠ "else:" := by
  intro same
  rw [same] at inside
  exact other inside

theorem exists_layout_eq_cons {statement : Statement} (concrete : statement.isConcrete = true)
    (depth : Nat) :
    ∃ text rest, statement.layout depth = ⟨depth, text⟩ :: rest ∧ text ≠ "else:" := by
  cases statement with
  | abstract => cases concrete
  | pass => exact ⟨_, _, rfl, by decide⟩
  | assign target value => exact ⟨_, _, rfl, ne_else ' ' (by simp [assignLine]) (by decide)⟩
  | ret value =>
    refine ⟨_, _, rfl, ?_⟩
    cases value with
    | none => decide
    | some value => exact ne_else ' ' (by simp [returnLine]) (by decide)
  | call function arguments keywords =>
    exact ⟨_, _, rfl, ne_else '(' (by simp [callLine]) (by decide)⟩
  | branch condition body orElse =>
    exact ⟨_, _, rfl, ne_else ' ' (by simp [branchLine]) (by decide)⟩
  | loop target iterable body =>
    exact ⟨_, _, rfl, ne_else ' ' (by simp [loopLine]) (by decide)⟩

section Body

variable {body : List Statement} (concrete : allConcrete body = true) (depth : Nat)
include concrete

theorem layoutBody_ne_nil : layoutBody body depth ≠ [] := by
  obtain ⟨first, rest, lines, -⟩ := filled_outlineBody concrete depth
  rw [← map_line_outlineBody, lines, List.map_cons]
  exact List.cons_ne_nil _ _

theorem le_depth_of_mem_layoutBody : ∀ line ∈ layoutBody body depth, depth ≤ line.depth := by
  intro line member
  rw [← map_line_outlineBody] at member
  obtain ⟨item, inside, rfl⟩ := List.mem_map.1 member
  exact (blocks_outlineBody concrete depth).stepped.deep item inside

theorem outside_layoutAll : Outside depth (layoutAll body depth) ∧
    (layoutAll body depth).head? ≠ some ⟨depth, "else:"⟩ := by
  cases body with
  | nil =>
    rw [layoutAll]
    exact ⟨outside_nil depth, nofun⟩
  | cons statement rest =>
    rw [allConcrete, Bool.and_eq_true] at concrete
    obtain ⟨text, others, lines, other⟩ := exists_layout_eq_cons concrete.1 depth
    rw [layoutAll, lines, List.cons_append, List.head?_cons]
    constructor
    · intro line first
      cases first
      exact Nat.le_refl depth
    · intro same
      cases same
      exact other rfl

end Body

mutual

theorem read_layout_append : ∀ {statement : Statement}, statement.isConcrete = true →
    ∀ (depth : Nat) {rest : List Line}, Outside depth rest → rest.head? ≠ some ⟨depth, "else:"⟩ →
      read (statement.layout depth ++ rest) = statement.skeleton :: read rest
  | pass, _, depth, rest, outside, _ | assign .., _, depth, rest, outside, _
  | ret .., _, depth, rest, outside, _ | call .., _, depth, rest, outside, _ => by
    simp only [layout, skeleton]
    exact read_leaf _ outside
  | branch condition body [], concrete, depth, rest, outside, other => by
    rw [isConcrete, Bool.and_eq_true] at concrete
    rw [layout, skeleton, skeletonAll, ← read_layoutBody concrete.1 (depth + 1)]
    simp only [List.isEmpty_nil, if_true, List.append_nil, List.cons_append]
    exact read_block _ (layoutBody_ne_nil concrete.1 _) (le_depth_of_mem_layoutBody concrete.1 _)
      outside other
  | branch condition body (first :: others), concrete, depth, rest, outside, other => by
    rw [isConcrete, Bool.and_eq_true] at concrete
    have orElse : skeletonAll (first :: others) = read (layoutBody (first :: others) (depth + 1)) := by
      rw [read_layoutBody concrete.2 (depth + 1)]
      rfl
    rw [layout, skeleton, orElse, ← read_layoutBody concrete.1 (depth + 1)]
    simp only [List.isEmpty_cons, Bool.false_eq_true, if_false, List.cons_append, List.append_assoc]
    exact read_block_else _ (layoutBody_ne_nil concrete.1 _)
      (le_depth_of_mem_layoutBody concrete.1 _) (le_depth_of_mem_layoutBody concrete.2 _) outside
  | loop target iterable body, concrete, depth, rest, outside, other => by
    rw [isConcrete] at concrete
    rw [layout, skeleton, ← read_layoutBody concrete (depth + 1)]
    exact read_block _ (layoutBody_ne_nil concrete _) (le_depth_of_mem_layoutBody concrete _)
      outside other

theorem read_layoutBody : ∀ {body : List Statement}, allConcrete body = true → ∀ depth : Nat,
    read (layoutBody body depth) = skeletonBody body
  | [], _, depth => by
    rw [layoutBody, skeletonBody, read_leaf "pass" (outside_nil depth), read_nil]
  | statement :: rest, concrete, depth => by
    rw [allConcrete, Bool.and_eq_true] at concrete
    obtain ⟨outside, other⟩ := outside_layoutAll concrete.2 depth
    rw [layoutBody, skeletonBody, read_layout_append concrete.1 depth outside other,
      read_layoutAll concrete.2 depth]

theorem read_layoutAll : ∀ {body : List Statement}, allConcrete body = true → ∀ depth : Nat,
    read (layoutAll body depth) = skeletonAll body
  | [], _, depth => by
    rw [layoutAll, skeletonAll, read_nil]
  | statement :: rest, concrete, depth => by
    rw [allConcrete, Bool.and_eq_true] at concrete
    obtain ⟨outside, other⟩ := outside_layoutAll concrete.2 depth
    rw [layoutAll, skeletonAll, read_layout_append concrete.1 depth outside other,
      read_layoutAll concrete.2 depth]

end

/-- As the body of a block, the statements are emitted as these lines in every section of that depth
in which neither rows nor raw text wait. -/
def EmittedAs (body : List Statement) (depth : Nat) (lines : List Line) : Prop :=
  ∀ s : Section, s.depth = depth → s.rows = [] → String.join s.raw = "" →
    ∃ t, emitBody body s = .ok () t ∧ t.fragments = s.fragments ++ lines.map .line

theorem emittedAs_layoutBody {body : List Statement} (concrete : allConcrete body = true)
    (depth : Nat) : EmittedAs body depth (layoutBody body depth) := by
  intro s level rows raw
  have done := (fault_bodyCourse body).trans (refusal_eq_none.2 concrete)
  have run := (takes_emitBody body s).run_lays done (lays_bodyCourse concrete)
  refine ⟨_, run, ?_⟩
  rw [level]
  cases layoutBody body depth with
  | nil => simp
  | cons first rest => simp [Section.laid, rows, raw]

/-- The lines of emitted statements say how they were nested: they are read by how deep they are, and
the reading is the skeleton of the statements, in which each `else:` is where it was emitted. So
statements that are emitted as the same lines have the same skeleton, whatever the texts in them. -/
theorem nesting_read_back {body others : List Statement} (concrete : allConcrete body = true)
    (also : allConcrete others = true) (depth : Nat) :
    ∃ lines more : List Line, EmittedAs body depth lines ∧ EmittedAs others depth more ∧
      read lines = skeletonBody body ∧ read more = skeletonBody others ∧
      (lines = more → skeletonBody body = skeletonBody others) := by
  have first := read_layoutBody concrete depth
  have second := read_layoutBody also depth
  refine ⟨_, _, emittedAs_layoutBody concrete depth, emittedAs_layoutBody also depth, first, second, ?_⟩
  intro same
  rw [← first, ← second, same]

/-- An assignment that looks like the head of a branch, next to a branch that has an `else:`, and the
same lines from a body that is empty and one that is not. -/
theorem nesting_read_back_lookalike :
    let body : List Statement :=
      [.assign "if a" "b:", .branch "a = b" [.loop "x" "y" [.branch "c" [] []]] [.ret none]]
    let others : List Statement :=
      [.assign "if a" "b:", .branch "a = b" [.loop "x" "y" [.branch "c" [.pass] []]] [.ret none]]
    allConcrete body = true ∧ allConcrete others = true ∧
      ∃ lines more : List Line, EmittedAs body 1 lines ∧ EmittedAs others 1 more ∧
        read lines = skeletonBody body ∧ read more = skeletonBody others := by
  intro body others
  have concrete : allConcrete body = true := by decide
  have also : allConcrete others = true := by decide
  obtain ⟨lines, more, emitted, another, first, second, -⟩ := nesting_read_back concrete also 1
  exact ⟨concrete, also, lines, more, emitted, another, first, second⟩

end Statement

end IndentedText.Code
