import IndentedText.Proofs.Conservation

/-!
What a section says of itself is true. Where nothing is pending nothing waits, an empty section is one
that holds nothing and waits for nothing, and a section that was written to once is never empty again.
-/

namespace IndentedText

namespace Section

/-- The count of writes and the mark for what is pending agree with what the section holds. -/
structure Truthful (s : Section) : Prop extends s.Settled where
  counted : s.written = 0 ↔ s.fragments = [] ∧ s.pending = false

theorem truthful_new (unit : String) (depth : Nat) : Truthful { unit, depth } :=
  ⟨settled_new unit depth, by simp⟩

theorem Truthful.change {s : Section} (truthful : s.Truthful) (c : Change) : (c.apply s).Truthful := by
  refine ⟨truthful.toSettled.apply c, ?_⟩
  obtain ⟨settled, counted⟩ := truthful
  cases c with
  | write text => simp [Change.apply, write]
  | queueRow columns => simp [Change.apply, queueRow]
  | commitRows =>
    -- Rows that wait are written and pending, so without them the commit finds nothing to do.
    change s.written = 0 ↔ s.fragments ++ s.rowLines = [] ∧ s.pending = false
    rw [counted, List.append_eq_nil_iff]
    constructor
    · rintro ⟨none, still⟩
      exact ⟨⟨none, rowLines_of_rows_eq_nil (settled.rows still)⟩, still⟩
    · rintro ⟨⟨none, -⟩, still⟩
      exact ⟨none, still⟩
  | commit =>
    simp only [Change.apply, commit_written, commit_fragments, commit_pending, and_true, counted]
    constructor
    · rintro ⟨none, still⟩
      rw [content_of_not_pending still (settled.rows still), none]
    · intro none
      rw [content, List.append_eq_nil_iff, List.append_eq_nil_iff] at none
      obtain ⟨⟨none, -⟩, raw⟩ := none
      cases pending : s.pending
      · exact ⟨none, rfl⟩
      · simp [rawLines, pending] at raw
  | _ => exact counted

theorem Truthful.apply {s : Section} (truthful : s.Truthful) (event : Event) :
    (event.apply s).Truthful := by
  cases event with
  | birth unit depth => exact ⟨⟨truthful.raw, truthful.rows⟩, truthful.counted⟩
  | change c => exact truthful.change c
  | place child => exact ⟨⟨truthful.raw, truthful.rows⟩, by simp [Event.apply, place]⟩

theorem Truthful.replay {s : Section} (truthful : s.Truthful) (events : List Event) :
    (s.replay events).Truthful := by
  induction events generalizing s with
  | nil => exact truthful
  | cons event rest ih => exact ih (truthful.apply event)

theorem Truthful.isEmpty_iff {s : Section} (truthful : s.Truthful) :
    s.isEmpty = true ↔ s.fragments = [] ∧ s.pending = false := by
  rw [isEmpty, beq_iff_eq, truthful.counted]

theorem Truthful.isBodyEmpty_eq {s : Section} (truthful : s.Truthful) (still : s.pending = false) :
    s.isBodyEmpty = s.isEmpty := by
  rw [Bool.eq_iff_iff, truthful.isEmpty_iff]
  simp [isBodyEmpty, truthful.raw still, still]

theorem Event.written_le_apply (event : Event) (s : Section) : s.written ≤ (event.apply s).written := by
  cases event with
  | birth unit depth => exact Nat.le_refl _
  | place child => exact Nat.le_succ _
  | change c =>
    cases c with
    | write text => exact Nat.le_succ _
    | queueRow columns => exact Nat.le_succ _
    | commit => exact Nat.le_of_eq (commit_written s).symm
    | _ => exact Nat.le_refl _

theorem written_le_replay (s : Section) (events : List Event) : s.written ≤ (s.replay events).written := by
  induction events generalizing s with
  | nil => exact Nat.le_refl _
  | cons event rest ih => exact Nat.le_trans (event.written_le_apply s) (ih _)

theorem isEmpty_replay {s : Section} (filled : s.isEmpty = false) (events : List Event) :
    (s.replay events).isEmpty = false := by
  have grown := written_le_replay s events
  simp only [isEmpty, beq_eq_false_iff_ne] at filled ⊢
  omega

end Section

namespace Document

theorem truthful_after (unit : Option String) (moves : List Move) (b : Nat) :
    (((new unit).after moves).get b).Truthful := by
  obtain ⟨held, begun⟩ := get_new unit b
  rw [get_after, begun]
  exact (Section.truthful_new held 0).replay _

theorem isEmpty_after {d : Document} {b : Nat} {earlier moves : List Move} (before : earlier <+: moves)
    (filled : ((d.after earlier).get b).isEmpty = false) : ((d.after moves).get b).isEmpty = false := by
  obtain ⟨later, rfl⟩ := before
  rw [after_append, get_after b later]
  exact Section.isEmpty_replay filled _

end Document

def Action.settles : Action → Bool
  | .command .commit | .command (.writeLine _) => true
  | .command (.writeLines written) => !(Text.lines written).isEmpty
  | .nest | .render _ | .text => true
  | _ => false

theorem Section.pending_after_lines {lines : List String} {s : Section}
    (h : lines ≠ [] ∨ s.pending = false) :
    (s.after (Course.all (lines.map .line)).changes).pending = false := by
  induction lines generalizing s with
  | nil => exact h.resolve_left fun some => some rfl
  | cons line rest ih => exact ih (s := s.writeLine line) (.inr (commit_pending _))

theorem Command.pending_of_settles {c : Command} (settles : (Action.command c).settles = true)
    (s : Section) : (s.after (c.course s.depth).changes).pending = false := by
  cases c with
  | commit => exact Section.commit_pending s
  | writeLine text => exact Section.commit_pending (s.write text)
  | writeLines text =>
    refine Section.pending_after_lines (.inl fun none => ?_)
    simp [Action.settles, none] at settles
  | _ => cases settles

theorem Action.pending_of_settles {action : Action} (settles : action.settles = true) (b : Nat)
    {d : Document} (orderly : d.Orderly) : ((action.answer b d).2.get b).pending = false := by
  rw [(action.answer_eq b orderly).1]
  cases action with
  | command c =>
    rw [moves, Document.after_on, Document.get_put]
    split
    · exact c.pending_of_settles settles (d.get b)
    · rename_i beyond
      rw [Document.get_of_size_le (by simpa using beyond)]
  | nest =>
    rw [moves]
    split
    · rename_i inside
      change ((d.reserve b).get b).pending = false
      rw [Document.get_reserve_self inside]
      exact Section.commit_pending _
    · rename_i beyond
      rw [Document.after_nil, Document.get_of_size_le (Nat.le_of_not_lt beyond)]
  | render | text =>
    have come : b ∈ d.walk b := by
      rw [Document.walk]
      exact List.mem_cons_self
    rw [moves, Document.get_commits, if_pos come]
    exact Section.commit_pending _
  | statuses => cases settles

namespace Document

/-- At every point of a run the queries of a section tell the truth. Where nothing is pending neither
rows nor text wait; the section is empty just if nothing is committed and nothing pending, and then its
body is empty too; and once it is not empty it stays so. Committing all, writing a line, reserving a
place and rendering leave nothing pending. -/
theorem queries_truthful (unit : Option String) (steps : List Step) (b : Nat) :
    let start := new unit
    let run := Step.allMoves steps start
    (∀ front, front <+: steps → Step.allMoves front start <+: run ∧
      (Step.runAll front start).2 = start.after (Step.allMoves front start)) ∧
    (∀ moves, moves <+: run →
      let s := (start.after moves).get b
      (s.pending = false → s.rows = [] ∧ s.raw = []) ∧
        (s.isEmpty = true ↔ s.fragments = [] ∧ s.pending = false) ∧
        (s.isEmpty = true → s.isBodyEmpty = true) ∧
        (s.pending = false → s.isBodyEmpty = s.isEmpty) ∧
        ∀ earlier, earlier <+: moves → ((start.after earlier).get b).isEmpty = false →
          s.isEmpty = false) ∧
    ∀ moves, moves <+: run → ∀ action : Action, action.settles = true →
      ((action.answer b (start.after moves)).2.get b).pending = false := by
  intro start run
  have orderly := orderly_new unit
  refine ⟨fun front before => ⟨?_, Step.runAll_eq front orderly⟩, fun moves _ => ?_,
    fun moves _ action settles => action.pending_of_settles settles b (orderly.after moves)⟩
  · obtain ⟨back, rfl⟩ := before
    exact ⟨_, (Step.allMoves_append front back start).symm⟩
  · intro s
    have truthful : s.Truthful := truthful_after unit moves b
    refine ⟨fun still => ⟨truthful.rows still, truthful.raw still⟩, truthful.isEmpty_iff, fun empty => ?_,
      truthful.isBodyEmpty_eq, fun earlier before filled => isEmpty_after before filled⟩
    rw [truthful.isBodyEmpty_eq (truthful.isEmpty_iff.1 empty).2, empty]

theorem queries_truthful_rows :
    let steps : List Step := [.act 0 .nest, .act 1 (.command (.queueRow (.sequence [some "a"]))),
      .indented 0 [.act 1 (.command .commitRows), .act 0 (.command (.writeLines "")), .act 1 (.render 2)]]
    let start := new none
    let run := Step.allMoves steps start
    let waiting := run.take 5
    let empty := waiting.take 2
    waiting <+: run ∧ empty <+: waiting ∧
      (((start.after empty).get 1).isEmpty = true ↔
        ((start.after empty).get 1).fragments = [] ∧ ((start.after empty).get 1).pending = false) ∧
      ((start.after waiting).get 1).pending = true ∧ ((start.after waiting).get 1).rows = [] ∧
      ((start.after run).get 1).isEmpty = false ∧
      ((Action.answer 1 (.render 2) (start.after waiting)).2.get 1).pending = false := by
  intro steps start run waiting empty
  have point : waiting <+: run := List.take_prefix 5 _
  have early : empty <+: waiting := List.take_prefix 2 _
  obtain ⟨-, truthful, settles⟩ := queries_truthful none steps 1
  have filled : ((start.after waiting).get 1).isEmpty = false := by decide +kernel
  refine ⟨point, early, (truthful _ (early.trans point)).2.1, by decide +kernel, by decide +kernel,
    (truthful run List.prefix_rfl).2.2.2.2 waiting point filled, settles waiting point (.render 2) rfl⟩

end Document

end IndentedText
