import IndentedText.Proofs.Conservation
import IndentedText.Proofs.Likeness

/-!
Documents that are related section by section. If related sections show the same and stay related
whatever happens to them, no script can tell such documents apart.
-/

namespace IndentedText

open Document

theorem Section.after_of_apply {R : Section → Section → Prop}
    (apply : ∀ {s t}, R s t → ∀ c : Change, R (c.apply s) (c.apply t)) {s t : Section} (related : R s t)
    (changes : List Change) : R (s.after changes) (t.after changes) := by
  induction changes generalizing s t with
  | nil => exact related
  | cons c rest ih => exact ih (apply related c)

/-- Related sections show the same whatever they are asked, and stay related at every event. -/
structure Section.Congruence (R : Section → Section → Prop) : Prop where
  refl : ∀ s, R s s
  unit : ∀ {s t}, R s t → t.unit = s.unit
  status : ∀ {s t}, R s t → t.status = s.status
  content : ∀ {s t}, R s t → t.content = s.content
  visible : ∀ {s t}, R s t → t.visible = s.visible
  apply : ∀ {s t}, R s t → ∀ event : Event, R (event.apply s) (event.apply t)
  reply : ∀ {s t}, R s t → ∀ c : Command,
    c.reply (t.after (c.course s.depth).changes) = c.reply (s.after (c.course s.depth).changes)

namespace Document

theorem map_status (d : Document) : d.sections.map Section.status = (List.range d.size).map d.status := by
  refine List.ext_getElem (by simp [size]) fun i _ _ => ?_
  simp [status, getElem_sections]

structure Sectionwise (R : Section → Section → Prop) (d e : Document) : Prop where
  first : d.Orderly
  second : e.Orderly
  size : e.size = d.size
  sections : ∀ b, R (d.get b) (e.get b)

end Document

namespace Section.Congruence

variable {R : Section → Section → Prop} (congruence : Congruence R)
include congruence

theorem replay {s t : Section} (related : R s t) (events : List Event) :
    R (s.replay events) (t.replay events) := by
  induction events generalizing s t with
  | nil => exact related
  | cons event rest ih => exact ih (congruence.apply related event)

theorem sectionwise_refl {d : Document} (orderly : d.Orderly) : Sectionwise R d d :=
  ⟨orderly, orderly, rfl, fun _ => congruence.refl _⟩

variable {d e : Document} (same : Sectionwise R d e)
include same

theorem document_unit : e.unit = d.unit :=
  congruence.unit (same.sections 0)

theorem document_status (b : Nat) : e.status b = d.status b :=
  congruence.status (same.sections b)

theorem depth (b : Nat) : (e.get b).depth = (d.get b).depth :=
  congrArg Status.depth (congruence.document_status same b)

theorem lines (b : Nat) : e.lines b = d.lines b :=
  lines_congr same.size (fun x => congruence.content (same.sections x))
    (fun x => congruence.visible (same.sections x)) b

theorem walk (b : Nat) : e.walk b = d.walk b :=
  walk_congr same.size (fun x => congruence.content (same.sections x))
    (fun x => congruence.visible (same.sections x)) b

theorem events (b : Nat) (move : Move) : move.events b e = move.events b d := by
  cases move <;>
    simp only [Move.events, same.size, congruence.depth same, congruence.unit (same.sections _)]

theorem move (move : Move) : Sectionwise R (move.apply d) (move.apply e) := by
  refine ⟨same.first.apply move, same.second.apply move, ?_, fun b => ?_⟩
  · cases move with
    | change b c => simp [same.size]
    | nest b =>
      simp only [Move.apply, same.size]
      split
      · simp [same.size]
      · exact same.size
  · rw [get_apply, get_apply, congruence.events same]
    exact congruence.replay (same.sections b) _

theorem action_reply (b : Nat) (action : Action) : action.reply b d = action.reply b e := by
  cases action with
  | command c =>
    simp only [Action.reply, congruence.depth same]
    exact (congruence.reply (same.sections b) c).symm
  | nest =>
    have later := Document.after_of_apply congruence.move same (Action.nest.moves b d)
    simp only [Action.reply, same.size, congruence.document_status later,
      Action.moves_congr same.size (congruence.depth same) (congruence.walk same),
      congruence.unit (later.sections _)]
  | render | text => simp only [Action.reply, congruence.document_unit same, congruence.lines same]
  | statuses => simp only [Action.reply, map_status, same.size, funext (congruence.document_status same)]

omit same in
theorem likeness : Likeness (Sectionwise R) Eq where
  first same := same.first
  second same := same.second
  size same := same.size
  status same := congruence.document_status same
  walk same := congruence.walk same
  reply same := congruence.action_reply same
  apply same := congruence.move same

end Section.Congruence

end IndentedText
