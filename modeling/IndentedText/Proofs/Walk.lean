import Mathlib.Data.List.Basic
import IndentedText.Document.Lines
import IndentedText.Document.Render
import IndentedText.Proofs.Move

/-!
Rendering as a walk. A render prints the lines that were there before it, and all it does to the
document is to commit the sections it comes to. Both follow from one induction, because a commit
leaves the content of every section as it was.
-/

namespace IndentedText

def Fragment.stops (below : Nat → List Nat) : Fragment → List Nat
  | .line _ => []
  | .nested child => below child

namespace Document

/-- The sections that a render of section `b` comes to, in its order. -/
def walk (d : Document) (b : Nat) : List Nat :=
  b :: if (d.get b).visible then
    (d.get b).content.flatMap
      (Fragment.stops fun child => if _ : b < child ∧ child < d.size then d.walk child else [])
  else []
termination_by d.size - b

inductive Reaches (d : Document) : Nat → Nat → Prop
  | here : Reaches d b b
  | through : (d.get b).visible = true → .nested child ∈ (d.get b).fragments → Reaches d child x →
      Reaches d b x

def commits (sections : List Nat) : List Move :=
  sections.map fun b => .change b .commit

theorem commits_append (sections others : List Nat) :
    commits (sections ++ others) = commits sections ++ commits others :=
  List.map_append

theorem lines_of_content {d : Document} {b : Nat} (visible : (d.get b).visible = true)
    {lines : List Line} (content : (d.get b).content = lines.map .line) : d.lines b = lines := by
  rw [Document.lines, if_pos visible, content, List.flatMap_map]
  simp

section Congr

variable {d e : Document} (size : e.size = d.size)
  (content : ∀ b, (e.get b).content = (d.get b).content)
  (visible : ∀ b, (e.get b).visible = (d.get b).visible)
include size content visible

theorem lines_congr (b : Nat) : e.lines b = d.lines b := by
  rw [Document.lines, Document.lines, visible, content, size]
  have below : ∀ child, b < child ∧ child < d.size → e.lines child = d.lines child :=
    fun child _ => lines_congr child
  simp +contextual [below]
termination_by d.size - b

theorem walk_congr (b : Nat) : e.walk b = d.walk b := by
  rw [walk, walk, visible, content, size]
  have below : ∀ child, b < child ∧ child < d.size → e.walk child = d.walk child :=
    fun child _ => walk_congr child
  simp +contextual [below]
termination_by d.size - b

end Congr

/-- The documents differ at most in how much of their content is committed. -/
structure SameContent (d e : Document) : Prop where
  unit : e.unit = d.unit
  size : e.size = d.size
  content : ∀ b, (e.get b).content = (d.get b).content
  visible : ∀ b, (e.get b).visible = (d.get b).visible

theorem SameContent.refl (d : Document) : SameContent d d :=
  ⟨rfl, rfl, fun _ => rfl, fun _ => rfl⟩

theorem SameContent.trans {d e f : Document} (h : SameContent d e) (k : SameContent e f) :
    SameContent d f :=
  ⟨k.unit.trans h.unit, k.size.trans h.size, fun b => (k.content b).trans (h.content b),
    fun b => (k.visible b).trans (h.visible b)⟩

theorem sameContent_change {c : Section.Change} {d : Document} {b : Nat}
    (content : (c.apply (d.get b)).content = (d.get b).content)
    (visible : (c.apply (d.get b)).visible = (d.get b).visible) :
    SameContent d ((Move.change b c).apply d) := by
  refine ⟨unit_change .., size_change .., fun x => ?_, fun x => ?_⟩ <;> rw [get_change] <;> split
  · rename_i same
    rw [content, same.1]
  · rfl
  · rename_i same
    rw [visible, same.1]
  · rfl

theorem sameContent_commit (d : Document) (b : Nat) :
    SameContent d ((Move.change b .commit).apply d) :=
  sameContent_change (Section.content_commit _) (Section.commit_visible _)

theorem sameContent_commits (d : Document) (sections : List Nat) :
    SameContent d (d.after (commits sections)) := by
  induction sections generalizing d with
  | nil => exact .refl d
  | cons b rest ih => exact (sameContent_commit d b).trans (ih _)

theorem SameContent.lines {d e : Document} (same : SameContent d e) (b : Nat) :
    e.lines b = d.lines b :=
  lines_congr same.size same.content same.visible b

/-- A walk that prints `lines child` and commits `stops child` at the place of every section prints
and commits these in the order of the places. -/
theorem writeFragments_eq {d : Document} {unit : String} {ambient : Int}
    {below : Nat → Document → String × Document} {lines : Nat → List Line} {stops : Nat → List Nat}
    (h : ∀ child e, SameContent d e → e.Orderly → below child e =
      (Line.renderAll unit ambient (lines child), e.after (commits (stops child))))
    (fragments : List Fragment) (written : String) (e : Document) (same : SameContent d e)
    (orderly : e.Orderly) :
    writeFragments unit ambient below fragments written e =
      (written ++ Line.renderAll unit ambient (fragments.flatMap (Fragment.lines lines)),
        e.after (commits (fragments.flatMap (Fragment.stops stops)))) := by
  induction fragments generalizing written e with
  | nil => simp [writeFragments, commits]
  | cons fragment rest ih =>
    cases fragment with
    | line line =>
      simp [writeFragments, ih _ e same orderly, Fragment.stops, String.append_assoc]
    | nested child =>
      have next := same.trans (sameContent_commits e (stops child))
      simp [writeFragments, h child e same orderly, ih _ _ next (orderly.after _), Fragment.stops,
        String.append_assoc, commits_append]

theorem fragments_get_commit (d : Document) (b : Nat) :
    (((Move.change b .commit).apply d).get b).fragments = (d.get b).content := by
  rw [get_change]
  split
  · exact Section.commit_fragments _
  · rename_i outside
    rw [get_of_size_le (Nat.le_of_not_lt fun inside => outside ⟨rfl, inside⟩)]
    rfl

theorem fragments_eq_nil_of_isOmitted {s : Section} (omitted : s.isOmitted = true)
    (visible : s.visible = true) : s.fragments = [] := by
  simp [Section.isOmitted, visible, Section.isBodyEmpty] at omitted
  exact omitted.2.1

theorem visible_of_not_isOmitted {s : Section} (printed : ¬ s.isOmitted = true) : s.visible = true := by
  by_contra hidden
  exact printed (by simp [Section.isOmitted, hidden])

/-- All sections print in the unit of the root. One that is not there has nothing to print. -/
theorem Orderly.writeFragments_unit {d : Document} (orderly : d.Orderly) (ambient : Int) (b : Nat)
    (below : Nat → Document → String × Document) (e : Document) :
    writeFragments (d.get b).unit ambient below (d.get b).fragments "" e =
      writeFragments d.unit ambient below (d.get b).fragments "" e := by
  by_cases inside : b < d.size
  · rw [orderly.unit b inside]
  · rw [get_of_size_le (Nat.le_of_not_lt inside)]
    rfl

theorem Orderly.put_if_pending {d : Document} (orderly : d.Orderly) (b : Nat) :
    (if (d.get b).pending then d.put b (d.get b).commit else d) = (Move.change b .commit).apply d := by
  change _ = d.put b (d.get b).commit
  rw [← (orderly.settled b).commit_if_pending]
  split
  · rfl
  · rw [put_get]

theorem renderBelow_eq (d : Document) (ambient : Int) (b : Nat) (e : Document)
    (same : SameContent d e) (orderly : e.Orderly) :
    renderBelow d.size ambient b e =
      (Line.renderAll d.unit ambient (d.lines b), e.after (commits (d.walk b))) := by
  have start := same.trans (sameContent_commit e b)
  have committed := (fragments_get_commit e b).trans (same.content b)
  rw [renderBelow, Document.lines, Document.walk]
  simp only [orderly.put_if_pending]
  split
  · rename_i omitted
    split
    -- A visible section is passed over only where it has nothing to print.
    · rename_i visible
      have empty := fragments_eq_nil_of_isOmitted omitted ((start.visible b).trans visible)
      rw [← committed, empty]
      rfl
    · rfl
  · rename_i printed
    have visible := (start.visible b).symm.trans (visible_of_not_isOmitted printed)
    have below : ∀ child f, SameContent d f → f.Orderly →
        (if _ : b < child ∧ child < d.size then renderBelow d.size ambient child f else ("", f)) =
          (Line.renderAll d.unit ambient (if _ : b < child ∧ child < d.size then d.lines child else []),
            f.after (commits (if _ : b < child ∧ child < d.size then d.walk child else []))) := by
      intro child f held later
      split
      · exact renderBelow_eq d ambient child f held later
      · simp [commits]
    have after := orderly.change b .commit
    rw [if_pos visible, if_pos visible, after.writeFragments_unit, start.unit, committed,
      writeFragments_eq below _ _ _ start after]
    simp [commits]
termination_by d.size - b

/-- Only later sections stand in a section, so a guard that asks for one never turns a walk back. -/
theorem Orderly.flatMap_content {d : Document} (orderly : d.Orderly) (b : Nat) (f g : Fragment → List α)
    (line : ∀ l, f (.line l) = g (.line l))
    (nested : ∀ child, b < child ∧ child < d.size → f (.nested child) = g (.nested child)) :
    (d.get b).content.flatMap f = (d.get b).content.flatMap g := by
  refine List.flatMap_congr fun fragment inside => ?_
  cases fragment with
  | line l => exact line l
  | nested child => exact nested child (orderly.order b child (Section.nested_mem_content.1 inside))

theorem Orderly.lines_eq {d : Document} (orderly : d.Orderly) (b : Nat) :
    d.lines b =
      if (d.get b).visible then (d.get b).content.flatMap (Fragment.lines d.lines) else [] := by
  rw [Document.lines]
  split
  · exact orderly.flatMap_content b _ _ (fun _ => rfl) fun child later => by simp [later]
  · rfl

theorem Orderly.walk_eq {d : Document} (orderly : d.Orderly) (b : Nat) :
    d.walk b =
      b :: if (d.get b).visible then (d.get b).content.flatMap (Fragment.stops d.walk) else [] := by
  rw [Document.walk]
  split
  · exact congrArg (b :: ·)
      (orderly.flatMap_content b _ _ (fun _ => rfl) fun child later => by
        simp [Fragment.stops, later])
  · rfl

theorem Orderly.mem_walk {d : Document} (orderly : d.Orderly) {b x : Nat} :
    x ∈ d.walk b ↔ d.Reaches b x := by
  constructor
  · intro inside
    rw [orderly.walk_eq, List.mem_cons] at inside
    rcases inside with rfl | inside
    · exact .here
    · split at inside
      · rename_i visible
        obtain ⟨fragment, held, inside⟩ := List.mem_flatMap.1 inside
        cases fragment with
        | line l => simp [Fragment.stops] at inside
        | nested child =>
          rw [Section.nested_mem_content] at held
          have later := orderly.order b child held
          exact .through visible held (orderly.mem_walk.1 inside)
      · simp at inside
  · intro reaches
    induction reaches with
    | here =>
      rw [orderly.walk_eq]
      exact List.mem_cons_self
    | through visible held _ ih =>
      rw [orderly.walk_eq, if_pos visible]
      exact List.mem_cons_of_mem _
        (List.mem_flatMap.2 ⟨_, Section.nested_mem_content.2 held, ih⟩)
termination_by d.size - b

theorem Orderly.le_of_reaches {d : Document} (orderly : d.Orderly) {b x : Nat}
    (reaches : d.Reaches b x) : b ≤ x := by
  induction reaches with
  | here => exact Nat.le_refl _
  | through _ held _ ih => exact Nat.le_trans (Nat.le_of_lt (orderly.order _ _ held).1) ih

theorem get_commits (d : Document) (sections : List Nat) (x : Nat) :
    (d.after (commits sections)).get x = if x ∈ sections then (d.get x).commit else d.get x := by
  induction sections generalizing d with
  | nil => rfl
  | cons b rest ih =>
    have first : ((Move.change b .commit).apply d).get x =
        if b = x then (d.get x).commit else d.get x := by
      rw [get_change]
      by_cases h : b = x
      · subst h
        by_cases inside : b < d.size
        · simp [inside, Section.Change.apply]
        · simp only [inside, get_of_size_le (Nat.le_of_not_lt inside), and_false, if_false, if_true]
          rfl
      · simp [h]
    change (((Move.change b .commit).apply d).after (commits rest)).get x = _
    rw [ih, first]
    by_cases h : b = x
    · simp [h]
    · simp [h, Ne.symm h]

end Document

end IndentedText
