import Mathlib.Data.List.Nodup
import Mathlib.Data.List.Perm.Basic
import Mathlib.Logic.Relation
import IndentedText.Proofs.Interleaving
import IndentedText.Proofs.Rendering

/-!
Sections form a tree. Each but the root stands in one place of one earlier section, so a render comes
to no section twice, and writes every line that is committed to a section once or, where a section on
the way to it is hidden, not at all.
-/

namespace IndentedText

def Fragment.child? : Fragment → Option Nat
  | .line _ => none
  | .nested child => some child

def Fragment.line? : Fragment → Option Line
  | .line l => some l
  | .nested _ => none

namespace Section

open Fragment

def children (s : Section) : List Nat :=
  s.content.filterMap child?

theorem flatMap_stops (s : Section) (below : Nat → List Nat) :
    s.content.flatMap (stops below) = s.children.flatMap below := by
  unfold children
  induction s.content with
  | nil => rfl
  | cons fragment rest ih => cases fragment <;> simp [List.filterMap_cons, stops, child?, ih]

theorem count_nested_apply (change : Change) (s : Section) (child : Nat) :
    (change.apply s).fragments.count (.nested child) = s.fragments.count (.nested child) := by
  rw [fragments_apply, List.count_append, List.count_eq_zero.2 (nested_notMem_added change s child),
    Nat.add_zero]

theorem count_nested_place (s : Section) (child other : Nat) :
    (s.place other).fragments.count (.nested child) =
      s.fragments.count (.nested child) + if other = child then 1 else 0 := by
  by_cases h : other = child <;> simp [place, h]

theorem count_children (s : Section) (child : Nat) :
    s.children.count child = s.fragments.count (.nested child) := by
  rw [← count_nested_apply .commit]
  change _ = s.commit.fragments.count _
  rw [commit_fragments, children]
  induction s.content with
  | nil => rfl
  | cons fragment rest ih => cases fragment <;> simp [List.filterMap_cons, child?, List.count_cons, ih]

theorem mem_children {s : Section} {child : Nat} :
    child ∈ s.children ↔ .nested child ∈ s.fragments := by
  rw [← List.count_pos_iff, count_children, List.count_pos_iff]

end Section

namespace Document

def Holds (d : Document) (b child : Nat) : Prop :=
  .nested child ∈ (d.get b).fragments

/-- Every section but the root stands in one place of one section. -/
structure Forest (d : Document) : Prop where
  place : ∀ child, 0 < child → child < d.size →
    ∃ b, (d.get b).fragments.count (.nested child) = 1 ∧ ∀ x, d.Holds x child → x = b

theorem forest_new (unit : Option String) : (new unit).Forest := by
  refine ⟨fun child later inside => ?_⟩
  have size : (new unit).size = 1 := rfl
  omega

theorem Forest.apply {d : Document} (forest : d.Forest) (orderly : d.Orderly) (move : Move) :
    (move.apply d).Forest := by
  refine ⟨fun child later inside => ?_⟩
  cases move with
  | change b c =>
    have same (x : Nat) : (((Move.change b c).apply d).get x).fragments.count (.nested child) =
        (d.get x).fragments.count (.nested child) := by
      rw [get_change]
      split
      · rename_i here
        rw [← here.1, Section.count_nested_apply]
      · rfl
    obtain ⟨holder, once, only⟩ := forest.place child later (by simpa using inside)
    refine ⟨holder, by rw [same, once], fun x held => only x ?_⟩
    rwa [Holds, ← List.count_pos_iff, same, List.count_pos_iff] at held
  | nest b =>
    by_cases there : b < d.size
    · -- In the new document section `b` has one place more, that of the new section.
      have same (x : Nat) : (((Move.nest b).apply d).get x).fragments.count (.nested child) =
          (d.get x).fragments.count (.nested child) + if x = b ∧ d.size = child then 1 else 0 := by
        rw [get_nest there]
        by_cases new : x = d.size
        · simp [new, get_of_size_le, Nat.ne_of_gt there]
        · by_cases here : b = x
          · simp [new, here, Section.count_nested_place]
          · simp [new, here, Ne.symm here]
      rw [size_nest there] at inside
      by_cases fresh : d.size = child
      · have before (x : Nat) : (d.get x).fragments.count (.nested child) = 0 := by
          refine List.count_eq_zero.2 fun held => ?_
          have := (orderly.order x child held).2
          omega
        refine ⟨b, by simp [same, before, fresh], fun x held => ?_⟩
        rw [Holds, ← List.count_pos_iff, same, before] at held
        by_contra apart
        simp [apart] at held
      · obtain ⟨holder, once, only⟩ := forest.place child later (by omega)
        refine ⟨holder, by simp [same, once, fresh], fun x held => only x ?_⟩
        rw [Holds, ← List.count_pos_iff, same] at held
        rw [Holds, ← List.count_pos_iff]
        simpa [fresh] using held
    · rw [Move.apply_nest_of_size_le (Nat.le_of_not_lt there)] at inside ⊢
      exact forest.place child later inside

theorem Forest.after {d : Document} (forest : d.Forest) (orderly : d.Orderly) (moves : List Move) :
    (d.after moves).Forest := by
  induction moves generalizing d with
  | nil => exact forest
  | cons move rest ih => exact ih (forest.apply orderly move) (orderly.apply move)

theorem Reachable.forest {d : Document} (reached : d.Reachable) : d.Forest := by
  obtain ⟨unit, steps, rfl⟩ := reached
  rw [Step.runAll_eq steps (orderly_new unit)]
  exact (forest_new unit).after (orderly_new unit) _

/-- Section `x` is section `b`, or stands in it at some depth. -/
def Above (d : Document) : Nat → Nat → Prop :=
  Relation.ReflTransGen d.Holds

/-- The section and all that it stands in are visible. -/
def Shown (d : Document) (x : Nat) : Prop :=
  ∀ b, d.Above b x → (d.get b).visible = true

theorem Reaches.above {d : Document} {b x : Nat} (reaches : d.Reaches b x) : d.Above b x := by
  induction reaches with
  | here => exact .refl
  | through _ held _ ih => exact .head held ih

theorem Reaches.tail {d : Document} {b x : Nat} (reaches : d.Reaches b x) :
    b = x ∨ ∃ p, d.Reaches b p ∧ (d.get p).visible = true ∧ d.Holds p x := by
  induction reaches with
  | here => exact .inl rfl
  | @through b c x visible held _ ih =>
    obtain rfl | ⟨p, reaches, shown, holds⟩ := ih
    · exact .inr ⟨b, .here, visible, held⟩
    · exact .inr ⟨p, .through visible held reaches, shown, holds⟩

section Tree

variable {d : Document} (orderly : d.Orderly) (forest : d.Forest)
include orderly

theorem Orderly.le_of_above {b x : Nat} (above : d.Above b x) : b ≤ x := by
  induction above with
  | refl => exact Nat.le_refl b
  | tail _ held ih => exact Nat.le_trans ih (Nat.le_of_lt (orderly.order _ _ held).1)

theorem Orderly.walk_eq_children (b : Nat) :
    d.walk b = b :: if (d.get b).visible then (d.get b).children.flatMap d.walk else [] := by
  rw [orderly.walk_eq, Section.flatMap_stops]

include forest

theorem Forest.holder_unique {b c x : Nat} (left : d.Holds b x) (right : d.Holds c x) : b = c := by
  obtain ⟨later, inside⟩ := orderly.order b x left
  obtain ⟨holder, -, only⟩ := forest.place x (Nat.zero_lt_of_lt later) inside
  rw [only b left, only c right]

theorem Forest.above_total {b c x : Nat} (left : d.Above b x) (right : d.Above c x) :
    d.Above b c ∨ d.Above c b := by
  have unique : Relator.RightUnique (Function.swap d.Holds) := fun _ _ _ left right =>
    forest.holder_unique orderly left right
  have total := Relation.ReflTransGen.total_of_right_unique unique
    (Relation.reflTransGen_swap.2 left) (Relation.reflTransGen_swap.2 right)
  exact total.symm.imp Relation.reflTransGen_swap.1 Relation.reflTransGen_swap.1

theorem Forest.eq_of_above {b c e : Nat} (left : d.Holds b c) (right : d.Holds b e)
    (above : d.Above c e) : c = e := by
  obtain rfl | ⟨holder, above, held⟩ := above.cases_tail
  · rfl
  · obtain rfl := forest.holder_unique orderly held right
    have := orderly.le_of_above above
    have := (orderly.order _ _ left).1
    omega

theorem Forest.above_root {x : Nat} (inside : x < d.size) : d.Above 0 x := by
  induction x using Nat.strongRecOn with
  | ind x ih =>
    obtain rfl | later := Nat.eq_zero_or_pos x
    · exact .refl
    · obtain ⟨b, once, -⟩ := forest.place x later inside
      have held : d.Holds b x := List.count_pos_iff.1 (by omega)
      have before := (orderly.order b x held).1
      exact (ih b before (Nat.lt_trans before inside)).tail held

theorem Forest.nodup_children (b : Nat) : (d.get b).children.Nodup := by
  refine List.nodup_iff_count_le_one.2 fun child => ?_
  rw [Section.count_children]
  by_cases held : d.Holds b child
  · obtain ⟨later, inside⟩ := orderly.order b child held
    obtain ⟨holder, once, only⟩ := forest.place child (Nat.zero_lt_of_lt later) inside
    rw [only b held]
    exact Nat.le_of_eq once
  · rw [List.count_eq_zero.2 held]
    exact Nat.zero_le 1

theorem Forest.nodup_walk (b : Nat) : (d.walk b).Nodup := by
  rw [orderly.walk_eq_children]
  split
  · have later (child : Nat) (held : child ∈ (d.get b).children) : b < child ∧ child < d.size :=
      orderly.order b child (Section.mem_children.1 held)
    refine List.nodup_cons.2 ⟨fun back => ?_, List.nodup_flatMap.2 ⟨fun child held => ?_, ?_⟩⟩
    · obtain ⟨child, held, inside⟩ := List.mem_flatMap.1 back
      have := orderly.le_of_reaches (orderly.mem_walk.1 inside)
      have := later child held
      omega
    · have := later child held
      exact Forest.nodup_walk child
    · refine (forest.nodup_children orderly b).pairwise_of_forall_ne fun c left e right apart x => ?_
      -- What stands in both of two sections makes one of them stand in the other.
      intro inLeft inRight
      have left := Section.mem_children.1 left
      have right := Section.mem_children.1 right
      obtain above | above := forest.above_total orderly
        (orderly.mem_walk.1 inLeft).above
        (orderly.mem_walk.1 inRight).above
      · exact apart (forest.eq_of_above orderly left right above)
      · exact apart (forest.eq_of_above orderly right left above).symm
  · exact List.nodup_singleton b
termination_by d.size - b

theorem Forest.shown_iff {x : Nat} (inside : x < d.size) :
    d.Shown x ↔ d.Reaches 0 x ∧ (d.get x).visible = true := by
  constructor
  · intro shown
    have way (b : Nat) (above : d.Above b x) : d.Reaches b x := by
      induction above using Relation.ReflTransGen.head_induction_on with
      | refl => exact .here
      | head held above ih => exact .through (shown _ (.head held above)) held ih
    exact ⟨way 0 (forest.above_root orderly inside), shown x .refl⟩
  · rintro ⟨reaches, visible⟩ b above
    induction above with
    | refl => exact visible
    | @tail p x above held ih =>
      have later := (orderly.order p x held).1
      obtain rfl | ⟨q, reaches, shown, holds⟩ := reaches.tail
      · omega
      · obtain rfl := forest.holder_unique orderly held holds
        exact ih (Nat.lt_trans later inside) reaches shown

end Tree

/-- A line, the section that it is a fragment of, and its index there. -/
structure Placed where
  owner : Nat
  index : Nat
  line : Line
  deriving DecidableEq

/-- The lines of a fragment, as `Fragment.lines` has them. -/
def Placed.ofFragment (b index : Nat) (below : Nat → List Placed) : Fragment → List Placed
  | .line l => [⟨b, index, l⟩]
  | .nested child => below child

def placed (d : Document) (b : Nat) : List Placed :=
  if (d.get b).visible then
    (d.get b).content.zipIdx.flatMap fun (fragment, index) =>
      Placed.ofFragment b index
        (fun child => if _ : b < child ∧ child < d.size then d.placed child else []) fragment
  else []
termination_by d.size - b

theorem flatMap_zipIdx (lines : α → List β) (items : List α) :
    (items.zipIdx.flatMap fun p => lines p.1) = items.flatMap lines := by
  rw [← List.flatMap_map Prod.fst, List.zipIdx_map_fst]

theorem map_line_placed (d : Document) (b : Nat) : (d.placed b).map Placed.line = d.lines b := by
  rw [placed, Document.lines]
  split
  · have each (p : Fragment × Nat) : (Placed.ofFragment b p.2
        (fun child => if _ : b < child ∧ child < d.size then d.placed child else []) p.1).map
          Placed.line = p.1.lines
            (fun child => if _ : b < child ∧ child < d.size then d.lines child else []) := by
      obtain ⟨fragment, index⟩ := p
      cases fragment with
      | line l => rfl
      | nested child =>
        simp only [Placed.ofFragment, Fragment.lines_nested]
        split
        · exact map_line_placed d child
        · rfl
    rw [List.map_flatMap]
    simp only [each]
    exact flatMap_zipIdx ..
  · rfl
termination_by d.size - b

def ownLines (d : Document) (x : Nat) : List Placed :=
  if (d.get x).visible then
    (d.get x).content.zipIdx.filterMap fun (fragment, index) =>
      fragment.line?.map fun l => ⟨x, index, l⟩
  else []

theorem mem_ownLines {d : Document} {x : Nat} {item : Placed} :
    item ∈ d.ownLines x ↔ item.owner = x ∧ (d.get x).visible = true ∧
      (d.get x).content[item.index]? = some (.line item.line) := by
  obtain ⟨owner, index, l⟩ := item
  unfold ownLines
  split
  · rename_i visible
    simp only [List.mem_filterMap, Prod.exists, List.mk_mem_zipIdx_iff_getElem?, visible, true_and]
    constructor
    · rintro ⟨fragment, i, here, found⟩
      cases fragment <;> simp [Fragment.line?] at found
      obtain ⟨rfl, rfl, rfl⟩ := found
      exact ⟨rfl, here⟩
    · rintro ⟨rfl, here⟩
      exact ⟨_, index, here, rfl⟩
  · simp_all

theorem nodup_ownLines (d : Document) (x : Nat) : (d.ownLines x).Nodup := by
  unfold ownLines
  split
  · have places : (d.get x).content.zipIdx.Nodup :=
      .of_map Prod.snd (by rw [List.zipIdx_map_snd]; exact List.nodup_range' 1)
    refine places.filterMap fun p q item left right => ?_
    obtain ⟨fragment, i⟩ := p
    obtain ⟨other, j⟩ := q
    cases fragment <;> cases other <;> simp [Fragment.line?] at left right
    cases left
    simp_all
  · exact List.nodup_nil

section Lines

variable {d : Document} (orderly : d.Orderly)
include orderly

theorem Orderly.placed_eq (b : Nat) : d.placed b =
    if (d.get b).visible then
      (d.get b).content.zipIdx.flatMap fun p => Placed.ofFragment b p.2 d.placed p.1
    else [] := by
  rw [placed]
  split
  · refine List.flatMap_congr fun p inside => ?_
    obtain ⟨fragment, index⟩ := p
    cases fragment with
    | line l => rfl
    | nested child =>
      have held := List.mem_of_getElem? (List.mk_mem_zipIdx_iff_getElem?.1 inside)
      exact dif_pos (orderly.order b child (Section.nested_mem_content.1 held))
  · rfl

/-- The lines of a section are those of its own and those of the sections in it, in some order. -/
theorem Orderly.placed_perm {b : Nat} (visible : (d.get b).visible = true) :
    (d.placed b).Perm (d.ownLines b ++ (d.get b).children.flatMap d.placed) := by
  have parts (p : Fragment × Nat) : Placed.ofFragment b p.2 d.placed p.1 =
      (p.1.line?.map fun l => (⟨b, p.2, l⟩ : Placed)).toList ++
        p.1.child?.toList.flatMap d.placed := by
    obtain ⟨fragment, index⟩ := p
    cases fragment <;> simp [Placed.ofFragment, Fragment.line?, Fragment.child?]
  have nested : ((d.get b).content.zipIdx.flatMap fun p => p.1.child?.toList.flatMap d.placed) =
      (d.get b).children.flatMap d.placed := by
    rw [Section.children, List.filterMap_eq_flatMap_toList, List.flatMap_assoc]
    exact flatMap_zipIdx (fun fragment : Fragment => fragment.child?.toList.flatMap d.placed) _
  rw [orderly.placed_eq, if_pos visible, ownLines, if_pos visible, List.filterMap_eq_flatMap_toList,
    ← nested]
  simp only [parts]
  exact (List.flatMap_append_perm ..).symm

theorem Orderly.placed_perm_walk (b : Nat) :
    (d.placed b).Perm ((d.walk b).flatMap d.ownLines) := by
  rw [orderly.walk_eq_children, List.flatMap_cons]
  by_cases visible : (d.get b).visible = true
  · rw [if_pos visible, List.flatMap_assoc]
    refine (orderly.placed_perm visible).trans (.append_left _ (.flatMap_left _ fun child held => ?_))
    have := orderly.order b child (Section.mem_children.1 held)
    exact Orderly.placed_perm_walk child
  · simp [placed, ownLines, visible]
termination_by d.size - b

theorem Orderly.mem_placed {b : Nat} {item : Placed} :
    item ∈ d.placed b ↔ d.Reaches b item.owner ∧ (d.get item.owner).visible = true ∧
      (d.get item.owner).content[item.index]? = some (.line item.line) := by
  rw [(orderly.placed_perm_walk b).mem_iff, List.mem_flatMap]
  constructor
  · rintro ⟨x, inside, member⟩
    obtain ⟨rfl, visible, here⟩ := mem_ownLines.1 member
    exact ⟨orderly.mem_walk.1 inside, visible, here⟩
  · rintro ⟨reaches, visible, here⟩
    exact ⟨_, orderly.mem_walk.2 reaches, mem_ownLines.2 ⟨rfl, visible, here⟩⟩

theorem Forest.nodup_placed (forest : d.Forest) (b : Nat) : (d.placed b).Nodup := by
  rw [(orderly.placed_perm_walk b).nodup_iff, List.nodup_flatMap]
  refine ⟨fun x _ => nodup_ownLines d x, (forest.nodup_walk orderly b).imp ?_⟩
  intro x y apart item left right
  exact apart ((mem_ownLines.1 left).1.symm.trans (mem_ownLines.1 right).1)

end Lines

theorem unit_after (d : Document) (moves : List Move) : (d.after moves).unit = d.unit := by
  induction moves generalizing d with
  | nil => rfl
  | cons move rest ih => rw [after_cons, ih, unit_apply]

theorem lt_size_of_fragment {d : Document} {x i : Nat} {fragment : Fragment}
    (here : (d.get x).fragments[i]? = some fragment) : x < d.size := by
  by_contra beyond
  simp [get_of_size_le (Nat.le_of_not_lt beyond)] at here

end Document

end IndentedText
