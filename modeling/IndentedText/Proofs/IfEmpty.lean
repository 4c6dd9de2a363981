import IndentedText.Proofs.Omission
import IndentedText.Proofs.Queries
import IndentedText.Proofs.Sectionwise
import IndentedText.Proofs.SourceFile

/-!
Whether a section is shown when it is empty makes no difference to what is printed. When a render asks,
the section has just been committed, so an empty body has no line to print. The mark is kept and
answered, and nothing else is ever told by it.
-/

namespace IndentedText

open Document

def Action.setsIfEmpty : Action → Bool
  | .command (.setVisibleIfEmpty _) => true
  | _ => false

theorem Command.reply_marked {c : Command} (h : ∀ value, c ≠ .setVisibleIfEmpty value) (s : Section)
    (value : Bool) : c.reply { s with visibleIfEmpty := value } = c.reply s := by
  cases c with
  | setVisibleIfEmpty kept => exact absurd rfl (h kept)
  | _ => rfl

namespace Section

def Remarked (s t : Section) : Prop :=
  ∃ value, t = { s with visibleIfEmpty := value }

theorem Remarked.change {s t : Section} (same : Remarked s t) (c : Change) :
    Remarked (c.apply s) (c.apply t) := by
  obtain ⟨value, rfl⟩ := same
  cases c with
  | setVisibleIfEmpty kept => exact ⟨kept, rfl⟩
  | commit =>
    refine ⟨value, ?_⟩
    cases pending : s.pending <;> simp [Change.apply, commit, commitRows, pending]
  | _ => exact ⟨value, rfl⟩

theorem congruence_remarked : Congruence Remarked where
  refl s := ⟨s.visibleIfEmpty, rfl⟩
  unit := by
    rintro s t ⟨value, rfl⟩
    rfl
  status := by
    rintro s t ⟨value, rfl⟩
    rfl
  content := by
    rintro s t ⟨value, rfl⟩
    rfl
  visible := by
    rintro s t ⟨value, rfl⟩
    rfl
  apply := by
    rintro s t ⟨value, rfl⟩ event
    cases event with
    | change c => exact Remarked.change ⟨value, rfl⟩ c
    | birth unit depth => exact ⟨value, rfl⟩
    | place child => exact ⟨value, rfl⟩
  reply := by
    intro s t same c
    by_cases sets : ∃ kept, c = .setVisibleIfEmpty kept
    · obtain ⟨kept, rfl⟩ := sets
      rfl
    · obtain ⟨value, left⟩ := after_of_apply Remarked.change same (c.course s.depth).changes
      rw [left, Command.reply_marked fun kept here => sets ⟨kept, here⟩]

end Section

namespace Document

theorem like_remarked :
    LikenessWithout Action.setsIfEmpty (Sectionwise Section.Remarked) Eq where
  toLikeness := Section.congruence_remarked.likeness
  skip {d e} same b action sets := by
    cases action with
    | command c =>
      cases c with
      | setVisibleIfEmpty value =>
        refine ⟨rfl, ?_⟩
        refine ⟨same.first.after _, same.second, ?_, fun x => ?_⟩ <;> rw [Action.moves, after_on]
        · rw [size_put, same.size]
        obtain ⟨other, marked⟩ := same.sections x
        refine ⟨other, ?_⟩
        rw [marked, get_put]
        split
        · rename_i here
          rw [← here.1]
          rfl
        · rfl
      | _ => cases sets
    | _ => cases sets

end Document

namespace Code.SourceFile

/-- Writes a file as `write` does, but for the mark on the section of its imports. -/
def writeUnmarked (file : SourceFile) : DocumentM Unit := do
  inSection 0 (emitDoc file.doc)
  let top ← nest 0
  let body ← nest 0
  let imports ← inSection body file.emitBody
  inSection top (emitImports imports)

theorem writeUnmarked_eq (file : SourceFile) (unit : Option String) :
    let held := unit.getD "   "
    file.writeUnmarked (new unit) =
      file.fill (file.document held { unit := held } { unit := held }) := by
  intro held
  obtain ⟨first, imports⟩ := file.write_opening unit
  unfold writeUnmarked
  rw [bind_of_ok first, bind_of_ok imports, bind_of_ok (file.write_places held _)]
  rfl

theorem text_writeUnmarked (file : SourceFile) (unit : Option String) :
    textOf file.writeUnmarked unit = file.code unit := by
  rw [code_eq]
  exact text_of_fill _ true (file.writeUnmarked_eq unit)

end Code.SourceFile

namespace Document

theorem lines_of_isEmpty {d : Document} {b : Nat} (truthful : (d.get b).Truthful)
    (empty : (d.get b).isEmpty = true) : d.lines b = [] := by
  obtain ⟨none, still⟩ := truthful.isEmpty_iff.1 empty
  rw [Document.lines, Section.content_of_not_pending still (truthful.rows still), none]
  exact ite_self _

/-- Scripts that differ in nothing but where and how they say that sections are shown when empty get the
same answers to all their other steps, and come to documents that print the same. An empty section
prints nothing, and whatever is said of it all others print as if it had no place. The code of a file
would be the same if nothing were said of its imports. -/
theorem ifEmpty_unobservable (unit : Option String) (steps others : List Step)
    (same : Step.allWithout Action.setsIfEmpty steps = Step.allWithout Action.setsIfEmpty others) :
    let first := Step.runAll steps (new unit)
    let second := Step.runAll others (new unit)
    Answer.allWithout Action.setsIfEmpty steps first.1 =
        Answer.allWithout Action.setsIfEmpty others second.1 ∧
      (∀ b ambient, ∃ text, first.2.Prints b ambient text ∧ second.2.Prints b ambient text) ∧
      (∀ b, (first.2.get b).isEmpty = true → ∀ value ambient,
        let marked := (Action.answer b (.command (.setVisibleIfEmpty value)) first.2).2
        marked.Prints b ambient "" ∧
          ∀ x, ∃ text, marked.Prints x ambient text ∧ (marked.withoutPlace b).Prints x ambient text) ∧
      ∀ (file : Code.SourceFile) (unit : Option String),
        Code.SourceFile.textOf file.writeUnmarked unit = file.code unit := by
  intro first second
  have like := like_remarked
  have congruence := Section.congruence_remarked
  have start := congruence.sectionwise_refl (orderly_new unit)
  obtain ⟨left, answers⟩ := like.all_without steps start
  obtain ⟨right, replies⟩ := like.all_without others start
  rw [← same] at right replies
  refine ⟨?_, fun b ambient => ?_, ?_, Code.SourceFile.text_writeUnmarked⟩
  · exact (Answer.eq_of_alike answers).trans (Answer.eq_of_alike replies).symm
  · exact ⟨_, left.first.prints_lines (congruence.document_unit left).symm
        (congruence.lines left b).symm ambient,
      right.first.prints_lines (congruence.document_unit right).symm
        (congruence.lines right b).symm ambient⟩
  · intro b empty value ambient marked
    have truthful : (first.2.get b).Truthful := by
      change ((Step.runAll steps (new unit)).2.get b).Truthful
      rw [Step.runAll_eq steps (orderly_new unit)]
      exact truthful_after unit _ b
    have silent : marked.lines b = [] := by
      have same := congruence.sectionwise_refl left.first
      have changed := (like.skip same b (.command (.setVisibleIfEmpty value)) rfl).2
      rw [← (Action.answer_eq b _ left.first).1] at changed
      rw [← congruence.lines changed]
      exact lines_of_isEmpty truthful empty
    have orderly : marked.Orderly := left.first.answer b _
    exact ⟨orderly.prints_nothing silent ambient, fun x => orderly.prints_withoutPlace silent x ambient⟩

theorem ifEmpty_unobservable_blocks :
    let steps : List Step := [.act 0 .nest, .act 0 .nest,
      .indented 0 [.act 1 (.command (.setVisibleIfEmpty false)), .act 2 (.command (.write "a")),
        .act 1 (.command .outdent), .act 2 (.command (.setVisibleIfEmpty false))],
      .act 0 .text]
    let others : List Step := [.act 0 .nest, .act 0 .nest, .act 2 (.command (.setVisibleIfEmpty false)),
      .indented 0 [.act 2 (.command (.write "a")), .act 1 (.command .outdent)], .act 0 .text]
    let first := Step.runAll steps (new none)
    let second := Step.runAll others (new none)
    Step.allWithout Action.setsIfEmpty steps = Step.allWithout Action.setsIfEmpty others ∧
      Answer.allWithout Action.setsIfEmpty steps first.1 =
        Answer.allWithout Action.setsIfEmpty others second.1 ∧
      (first.2.get 1).isEmpty = true ∧
      (Action.answer 1 (.command (.setVisibleIfEmpty true)) first.2).2.Prints 1 2 "" := by
  intro steps others first second
  have same : Step.allWithout Action.setsIfEmpty steps = Step.allWithout Action.setsIfEmpty others := rfl
  obtain ⟨answers, -, empty, -⟩ := ifEmpty_unobservable none steps others same
  have untouched : (first.2.get 1).isEmpty = true := by decide +kernel
  exact ⟨same, answers, untouched, (empty 1 untouched true 2).1⟩

end Document

end IndentedText
