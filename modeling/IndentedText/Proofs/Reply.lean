import IndentedText.Proofs.Run

/-!
What an action answers, said by its moves: why it is refused, or a reply that is read off the document
before them and the section after them. Documents that look alike in these answer alike.
-/

namespace IndentedText

open SectionM

/-- What a command replies once it has left its section as `s`. -/
def Command.reply : Command → Section → Reply
  | write _, _ | writeLine _, _ | writeLines _, _ | queueRow _, _ => .taken
  | openBlock _, _ | closeBlock _, _ | turnBlock _, _ => .taken
  | setVisible _, s => .flag s.visible
  | setVisibleIfEmpty _, s => .flag s.visibleIfEmpty
  | describe, s => .text s.describe
  | fragments, s => .fragments s.fragments
  | _, _ => .none

theorem Command.run_eq (c : Command) (s : Section) :
    let course := c.course s.depth
    let t := s.after course.changes
    c.run s = match course.fault with
      | none => .ok (c.reply t) t
      | some fault => .error fault t := by
  intro course t
  have replied {x : SectionM Unit} (taken : Takes x s course) (reply : Reply) :
      (x >>= fun _ => pure reply : SectionM Reply) s = match course.fault with
        | none => .ok reply t
        | some fault => .error fault t := by
    cases h : course.fault with
    | none =>
      obtain ⟨value, run⟩ := taken.ok h
      exact bind_of_ok run
    | some fault => exact bind_of_error (taken.error fault h)
  cases c with
  | writeLine text => exact replied (takes_writeLine text s) .taken
  | writeLines text => exact replied (takes_writeLines text s) .taken
  | openBlock text => exact replied (takes_openBlock text s) .taken
  | closeBlock text => exact replied (takes_closeBlock text s) .taken
  | turnBlock text => exact replied (takes_turnBlock text s) .taken
  | outdent => exact replied (takes_outdent s) .none
  | emit node => exact replied (node.takes_emit s) .none
  | _ => rfl

namespace Action

open Document

/-- What an action replies in document `d` if it is not refused. -/
def reply (b : Nat) : Action → Document → Reply
  | command c, d => c.reply ((d.get b).after (c.course (d.get b).depth).changes)
  | nest, d =>
    let e := d.after (nest.moves b d)
    .nested d.size (e.get d.size).unit (e.status d.size)
  | render ambient, d => .text (Line.renderAll d.unit ambient (d.lines b))
  | text, d => .text (Line.renderAll d.unit 0 (d.lines b))
  | statuses, d => .statuses (d.sections.map Section.status)

theorem answer_eq_act (b : Nat) (action : Action) {d : Document} (orderly : d.Orderly) :
    (action.answer b d).1 = .act ((d.after (action.moves b d)).status b)
      (match action.fault b d with
        | none => .ok (action.reply b d)
        | some fault => .error fault) := by
  cases action with
  | command c =>
    have run := c.run_eq (d.get b)
    simp only [moves, fault, reply, after_on]
    cases refused : (c.course (d.get b).depth).fault with
    | none =>
      simp only [refused] at run
      simp only [answer, Action.run, inSection_of_ok run]
    | some fault =>
      simp only [refused] at run
      simp only [answer, Action.run, inSection_of_error run]
  | nest =>
    have reserved : Document.nest b d = .ok d.size (d.after (nest.moves b d)) := nest_eq b d
    have run : nest.run b d = .ok (nest.reply b d) (d.after (nest.moves b d)) :=
      bind_of_ok reserved
    simp only [answer, run, fault]
  | render ambient =>
    have run : (render ambient).run b d = .ok ((render ambient).reply b d)
        (d.after ((render ambient).moves b d)) := bind_of_ok (orderly.render_eq b ambient)
    simp only [answer, run, fault]
  | text =>
    have run : text.run b d = .ok (text.reply b d) (d.after (text.moves b d)) :=
      bind_of_ok (orderly.render_eq b 0)
    simp only [answer, run, fault]
  | statuses => rfl

end Action

end IndentedText
