import IndentedText.Document
import IndentedText.Proofs.Change

/-!
The moves that change a document: one change to one section, or the birth of a section. The invariant
that every move keeps is all that the other proofs know about documents in general.
-/

namespace IndentedText

def Section.place (child : Nat) (s : Section) : Section :=
  { s with written := s.written + 1, fragments := s.fragments ++ [.nested child] }

theorem Section.reserve_eq (child : Nat) (s : Section) : s.reserve child = s.commit.place child := rfl

namespace Document

def add (d : Document) (s : Section) : Document where
  sections := d.sections ++ [s]

inductive Move where
  | change (b : Nat) (change : Section.Change)
  /-- A new section comes to stand in section `b`. -/
  | nest (b : Nat)

def Move.apply : Move → Document → Document
  | change b c, d => d.put b (c.apply (d.get b))
  | nest b, d =>
    if b < d.size then (d.put b ((d.get b).place d.size)).add (d.get b).child else d

def after (d : Document) (moves : List Move) : Document :=
  moves.foldl (fun d move => move.apply d) d

@[simp] theorem after_nil (d : Document) : d.after [] = d := rfl

@[simp] theorem after_cons (d : Document) (move : Move) (rest : List Move) :
    d.after (move :: rest) = (move.apply d).after rest := rfl

@[simp] theorem after_append (d : Document) (moves others : List Move) :
    d.after (moves ++ others) = (d.after moves).after others :=
  List.foldl_append ..

theorem getElem_sections {d : Document} {b : Nat} (inside : b < d.sections.length) :
    d.sections[b] = d.get b := by
  simp [get, List.getD_eq_getElem?_getD, List.getElem?_eq_getElem inside]

theorem get_of_size_le {d : Document} {b : Nat} (h : d.size ≤ b) : d.get b = {} := by
  simp [get, List.getD_eq_getElem?_getD, List.getElem?_eq_none (show d.sections.length ≤ b from h)]

theorem get_new (unit : Option String) (b : Nat) :
    ∃ held, (new unit).get b = { unit := held } := by
  cases b with
  | zero => exact ⟨_, rfl⟩
  | succ b => exact ⟨_, rfl⟩

@[simp] theorem put_put (d : Document) (b : Nat) (s t : Section) : (d.put b s).put b t = d.put b t := by
  simp [put]

theorem put_comm {b c : Nat} (apart : b ≠ c) (d : Document) (s t : Section) :
    (d.put b s).put c t = (d.put c t).put b s := by
  simp [put, List.set_comm _ _ apart]

theorem get_put_self {d : Document} {b : Nat} (inside : b < d.size) (s : Section) :
    (d.put b s).get b = s := by
  simp [get_put, inside]

theorem get_put_of_ne {d : Document} {b c : Nat} (h : b ≠ c) (s : Section) :
    (d.put b s).get c = d.get c := by
  simp [get_put, h]

theorem put_of_size_le {d : Document} {b : Nat} (h : d.size ≤ b) (s : Section) : d.put b s = d := by
  simp [put, List.set_eq_of_length_le h]

@[simp] theorem put_get (d : Document) (b : Nat) : d.put b (d.get b) = d := by
  by_cases h : b < d.size
  · have held : b < d.sections.length := h
    simp [put, get, List.getD_eq_getElem?_getD, List.getElem?_eq_getElem held]
  · exact put_of_size_le (Nat.le_of_not_lt h) _

@[simp] theorem size_add (d : Document) (s : Section) : (d.add s).size = d.size + 1 := by
  simp [add, size]

theorem get_add (d : Document) (s : Section) (x : Nat) :
    (d.add s).get x = if x = d.size then s else d.get x := by
  simp only [get, add, size, List.getD_eq_getElem?_getD, List.getElem?_append]
  by_cases inside : x < d.sections.length
  · simp [inside, Nat.ne_of_lt inside]
  · by_cases h : x = d.sections.length
    · simp [h]
    · have beyond : ¬ x - d.sections.length = 0 := by omega
      simp [inside, h, beyond]

theorem put_add {d : Document} {b : Nat} (inside : b < d.size) (s t : Section) :
    (d.add t).put b s = (d.put b s).add t := by
  simp [put, add, List.set_append_left _ _ (show b < d.sections.length from inside)]

theorem Move.apply_nest {d : Document} {b : Nat} (inside : b < d.size) :
    (Move.nest b).apply d =
      (d.put b ((d.get b).place d.size)).add (d.get b).child :=
  if_pos inside

theorem Move.apply_nest_of_size_le {d : Document} {b : Nat} (h : d.size ≤ b) :
    (Move.nest b).apply d = d :=
  if_neg (Nat.not_lt.2 h)

@[simp] theorem size_change (b : Nat) (c : Section.Change) (d : Document) :
    ((Move.change b c).apply d).size = d.size :=
  size_put ..

theorem size_nest {d : Document} {b : Nat} (inside : b < d.size) :
    ((Move.nest b).apply d).size = d.size + 1 := by
  simp [Move.apply_nest inside]

theorem size_le_apply (move : Move) (d : Document) : d.size ≤ (move.apply d).size := by
  cases move with
  | change b c => exact Nat.le_of_eq (size_change b c d).symm
  | nest b =>
    by_cases inside : b < d.size
    · rw [size_nest inside]
      exact Nat.le_succ _
    · exact Nat.le_of_eq (by rw [Move.apply_nest_of_size_le (Nat.le_of_not_lt inside)])

theorem size_le_after (d : Document) (moves : List Move) : d.size ≤ (d.after moves).size := by
  induction moves generalizing d with
  | nil => exact Nat.le_refl _
  | cons move rest ih => exact Nat.le_trans (size_le_apply move d) (ih _)

theorem get_change (b : Nat) (c : Section.Change) (d : Document) (x : Nat) :
    ((Move.change b c).apply d).get x = if b = x ∧ b < d.size then c.apply (d.get b) else d.get x :=
  get_put ..

theorem get_change_self {d : Document} {b : Nat} (inside : b < d.size) (c : Section.Change) :
    ((Move.change b c).apply d).get b = c.apply (d.get b) :=
  get_put_self inside _

theorem get_change_of_ne {b x : Nat} (h : b ≠ x) (c : Section.Change) (d : Document) :
    ((Move.change b c).apply d).get x = d.get x :=
  get_put_of_ne h _

theorem Move.apply_change_of_size_le {d : Document} {b : Nat} (h : d.size ≤ b) (c : Section.Change) :
    (Move.change b c).apply d = d :=
  put_of_size_le h _

theorem get_nest {d : Document} {b : Nat} (inside : b < d.size) (x : Nat) :
    ((Move.nest b).apply d).get x =
      if x = d.size then (d.get b).child
      else if b = x then (d.get b).place d.size
      else d.get x := by
  simp [Move.apply_nest inside, get_add, get_put, inside]

theorem get_nest_self {d : Document} {b : Nat} (inside : b < d.size) :
    ((Move.nest b).apply d).get b = (d.get b).place d.size := by
  simp [get_nest inside, Nat.ne_of_lt inside]

theorem get_nest_new {d : Document} {b : Nat} (inside : b < d.size) :
    ((Move.nest b).apply d).get d.size = (d.get b).child := by
  simp [get_nest inside]

theorem get_nest_of_ne {d : Document} {b x : Nat} (inside : b < d.size) (h : b ≠ x)
    (old : x ≠ d.size) : ((Move.nest b).apply d).get x = d.get x := by
  simp [get_nest inside, h, old]

def reserve (b : Nat) (d : Document) : Document :=
  d.after [.change b .commit, .nest b]

section Reserve

variable {d : Document} {b : Nat} (inside : b < d.size)
include inside

theorem size_reserve : (d.reserve b).size = d.size + 1 := by
  simpa [reserve] using size_nest (d := (Move.change b .commit).apply d) (by simpa using inside)

theorem get_reserve_self : (d.reserve b).get b = (d.get b).commit.place d.size := by
  have held : b < ((Move.change b .commit).apply d).size := by simpa using inside
  simp [reserve, get_nest_self held, get_change_self inside, Section.Change.apply]

theorem get_reserve_new : (d.reserve b).get d.size = (d.get b).child := by
  have held : b < ((Move.change b .commit).apply d).size := by simpa using inside
  have new := get_nest_new held
  rw [size_change, get_change_self inside] at new
  simpa [reserve, Section.Change.apply, Section.child] using new

theorem get_reserve_of_ne {x : Nat} (h : b ≠ x) (old : x ≠ d.size) :
    (d.reserve b).get x = d.get x := by
  have held : b < ((Move.change b .commit).apply d).size := by simpa using inside
  simp only [reserve, after_cons, after_nil]
  rw [get_nest_of_ne held h (by simpa using old), get_change_of_ne h]

theorem reserve_eq_add : d.reserve b =
    (d.put b ((d.get b).reserve d.size)).add (d.get b).child := by
  have held : b < ((Move.change b .commit).apply d).size := by simpa using inside
  simp only [reserve, after_cons, after_nil, Move.apply_nest held, get_change_self inside, size_change]
  simp [Move.apply, Section.Change.apply, Section.reserve_eq, Section.child]

theorem reserve_put {c : Nat} (apart : c ≠ b) (held : c < d.size) (s : Section) :
    (d.put c s).reserve b = (d.reserve b).put c s := by
  rw [reserve_eq_add inside, reserve_eq_add (by simpa using inside), put_add (by simpa using held),
    get_put_of_ne apart, size_put, put_comm apart]

end Reserve

/-- Nothing waits unseen, a section holds only sections that came after it, and all have the indent
unit of the root. -/
structure Orderly (d : Document) : Prop where
  settled : ∀ b, (d.get b).Settled
  order : ∀ b child, .nested child ∈ (d.get b).fragments → b < child ∧ child < d.size
  unit : ∀ b, b < d.size → (d.get b).unit = d.unit

theorem orderly_new (unit : Option String) : (new unit).Orderly := by
  refine ⟨fun b => ?_, fun b child inside => ?_, fun b inside => ?_⟩
  · obtain ⟨held, new⟩ := get_new unit b
    rw [new]
    exact Section.settled_new held 0
  · obtain ⟨held, new⟩ := get_new unit b
    simp [new] at inside
  · obtain rfl : b = 0 := Nat.lt_one_iff.1 inside
    rfl

@[simp] theorem unit_change (b : Nat) (c : Section.Change) (d : Document) :
    ((Move.change b c).apply d).unit = d.unit := by
  rw [unit, unit, get_change]
  split
  · rename_i top
    rw [Section.unit_apply, top.1]
  · rfl

@[simp] theorem unit_nest (b : Nat) (d : Document) : ((Move.nest b).apply d).unit = d.unit := by
  by_cases inside : b < d.size
  · have root : 0 ≠ d.size := by omega
    rw [unit, unit, get_nest inside, if_neg root]
    split
    · rename_i top
      rw [top]
      rfl
    · rfl
  · rw [Move.apply_nest_of_size_le (Nat.le_of_not_lt inside)]

theorem unit_apply (move : Move) (d : Document) : (move.apply d).unit = d.unit := by
  cases move with
  | change b c => exact unit_change b c d
  | nest b => exact unit_nest b d

theorem Orderly.change {d : Document} (orderly : d.Orderly) (b : Nat) (c : Section.Change) :
    ((Move.change b c).apply d).Orderly := by
  refine ⟨fun x => ?_, fun x child inside => ?_, fun x inside => ?_⟩
  · rw [get_change]
    split
    · exact (orderly.settled b).apply c
    · exact orderly.settled x
  · rw [size_change]
    rw [get_change] at inside
    split at inside
    · rename_i same
      rw [← same.1]
      exact orderly.order b child ((Section.nested_mem_apply c).1 inside)
    · exact orderly.order x child inside
  · rw [size_change] at inside
    rw [unit_change, get_change, ← orderly.unit x inside]
    split
    · rename_i same
      rw [Section.unit_apply, same.1]
    · rfl

theorem Orderly.nest {d : Document} (orderly : d.Orderly) {b : Nat} (held : b < d.size) :
    ((Move.nest b).apply d).Orderly := by
  refine ⟨fun x => ?_, fun x child inside => ?_, fun x inside => ?_⟩
  · rw [get_nest held]
    split
    · exact Section.settled_new _ _
    · split
      · exact ⟨(orderly.settled b).raw, (orderly.settled b).rows⟩
      · exact orderly.settled x
  · rw [size_nest held]
    rw [get_nest held] at inside
    split at inside
    · cases inside
    · split at inside
      · rename_i same
        subst same
        simp only [Section.place, List.mem_append, List.mem_singleton, Fragment.nested.injEq]
          at inside
        rcases inside with inside | rfl
        · have := orderly.order b child inside
          omega
        · omega
      · have := orderly.order x child inside
        omega
  · rw [size_nest held] at inside
    rw [unit_nest, get_nest held]
    split
    · exact orderly.unit b held
    · split
      · exact orderly.unit b held
      · exact orderly.unit x (by omega)

theorem Orderly.apply {d : Document} (orderly : d.Orderly) (move : Move) :
    (move.apply d).Orderly := by
  cases move with
  | change b c => exact orderly.change b c
  | nest b =>
    by_cases held : b < d.size
    · exact orderly.nest held
    · rwa [Move.apply_nest_of_size_le (Nat.le_of_not_lt held)]

theorem Orderly.after {d : Document} (orderly : d.Orderly) (moves : List Move) :
    (d.after moves).Orderly := by
  induction moves generalizing d with
  | nil => exact orderly
  | cons move rest ih => exact ih (orderly.apply move)

end Document

end IndentedText
