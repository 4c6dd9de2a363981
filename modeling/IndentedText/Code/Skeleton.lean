import IndentedText.Code.Layout

/-!
The skeleton of statements: their lines, and which of them stand in which. It can be told from the
lines alone, because a block is as long as the lines go on deeper than its head.
-/

namespace IndentedText.Code

inductive Skeleton where
  | leaf (text : String)
  /-- A line with a block below it, and the block after an `else:` if it has one. -/
  | block (head : String) (body orElse : List Skeleton)

namespace Statement

mutual

/-- An abstract statement has no line, and an empty text stands for it. -/
def skeleton : Statement → Skeleton
  | pass => .leaf "pass"
  | abstract => .leaf ""
  | assign target value => .leaf (assignLine target value)
  | ret value => .leaf (returnLine value)
  | call function arguments keywords => .leaf (callLine function arguments keywords)
  | branch condition body orElse =>
    .block (branchLine condition) (skeletonBody body) (skeletonAll orElse)
  | loop target iterable body => .block (loopLine target iterable) (skeletonBody body) []

def skeletonBody : List Statement → List Skeleton
  | [] => [.leaf "pass"]
  | statement :: rest => statement.skeleton :: skeletonAll rest

def skeletonAll : List Statement → List Skeleton
  | [] => []
  | statement :: rest => statement.skeleton :: skeletonAll rest

end

end Statement

namespace Skeleton

def within (depth : Nat) (lines : List Line) : List Line :=
  lines.takeWhile fun line => decide (depth < line.depth)

def behind (depth : Nat) (lines : List Line) : List Line :=
  lines.dropWhile fun line => decide (depth < line.depth)

theorem length_within_le (depth : Nat) (lines : List Line) :
    (within depth lines).length ≤ lines.length :=
  (List.takeWhile_sublist _).length_le

theorem length_behind_le (depth : Nat) (lines : List Line) :
    (behind depth lines).length ≤ lines.length :=
  (List.dropWhile_sublist _).length_le

/-- Reads the blocks off the lines. An `else:` belongs to the block that ends right above it, if the head
of that is at the depth of the `else:`. -/
def read : List Line → List Skeleton
  | [] => []
  | ⟨depth, text⟩ :: rest =>
    if within depth rest = [] then leaf text :: read rest
    else if (behind depth rest).head? = some ⟨depth, "else:"⟩ then
      block text (read (within depth rest)) (read (within depth (behind depth rest).tail)) ::
        read (behind depth (behind depth rest).tail)
    else block text (read (within depth rest)) [] :: read (behind depth rest)
termination_by lines => lines.length
decreasing_by
  all_goals
    have inside := length_within_le depth rest
    have outside := length_behind_le depth rest
    have last := length_within_le depth (behind depth rest).tail
    have further := length_behind_le depth (behind depth rest).tail
    simp only [List.length_tail, List.length_cons] at *
    omega

@[simp] theorem read_nil : read [] = [] := by
  rw [read]

variable {depth : Nat} {body orElse rest : List Line}

/-- Nothing of what follows stands in a block whose head is at `depth`. -/
def Outside (depth : Nat) (lines : List Line) : Prop :=
  ∀ line ∈ lines.head?, line.depth ≤ depth

theorem outside_nil (depth : Nat) : Outside depth [] := by
  intro line first
  cases first

theorem within_append (deep : ∀ line ∈ body, depth < line.depth) (outside : Outside depth rest) :
    within depth (body ++ rest) = body := by
  unfold within
  rw [List.takeWhile_append_of_pos (by simpa using deep)]
  cases rest with
  | nil => simp
  | cons line others =>
    have level : line.depth ≤ depth := outside line rfl
    rw [List.takeWhile_cons_of_neg (by simpa using level), List.append_nil]

theorem behind_append (deep : ∀ line ∈ body, depth < line.depth) (outside : Outside depth rest) :
    behind depth (body ++ rest) = rest := by
  unfold behind
  rw [List.dropWhile_append_of_pos (by simpa using deep)]
  cases rest with
  | nil => rfl
  | cons line others =>
    have level : line.depth ≤ depth := outside line rfl
    rw [List.dropWhile_cons_of_neg (by simpa using level)]

theorem read_leaf (text : String) (outside : Outside depth rest) :
    read (⟨depth, text⟩ :: rest) = leaf text :: read rest := by
  have none : within depth ([] ++ rest) = [] := within_append (by simp) outside
  rw [read, if_pos]
  exact none

theorem read_block (head : String) (filled : body ≠ []) (deep : ∀ line ∈ body, depth < line.depth)
    (outside : Outside depth rest) (other : rest.head? ≠ some ⟨depth, "else:"⟩) :
    read (⟨depth, head⟩ :: (body ++ rest)) = block head (read body) [] :: read rest := by
  rw [read, within_append deep outside, behind_append deep outside, if_neg filled, if_neg other]

theorem read_block_else (head : String) (filled : body ≠ [])
    (deep : ∀ line ∈ body, depth < line.depth) (deeper : ∀ line ∈ orElse, depth < line.depth)
    (outside : Outside depth rest) :
    read (⟨depth, head⟩ :: (body ++ ⟨depth, "else:"⟩ :: (orElse ++ rest))) =
      block head (read body) (read orElse) :: read rest := by
  have level : Outside depth (⟨depth, "else:"⟩ :: (orElse ++ rest)) := by
    intro line first
    cases first
    exact Nat.le_refl depth
  rw [read, within_append deep level, behind_append deep level, if_neg filled,
    if_pos (List.head?_cons ..), List.tail_cons, within_append deeper outside, behind_append deeper outside]

end Skeleton

end IndentedText.Code
