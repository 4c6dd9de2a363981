import IndentedText.Proofs.Interleaving
import IndentedText.Proofs.Refusal

/-!
The depth of sections along a run. Only a step out of depth zero is refused, and it leaves next to
nothing behind, so a run goes on as if the refused steps had not been in it.
-/

namespace IndentedText

open Section (Change)

inductive Turn where
  | inward
  | outward
  deriving DecidableEq

namespace Turn

/-- The depth that the turns lead to, if none of them leads below zero. -/
def follow : List Turn → Nat → Option Nat
  | [], depth => some depth
  | inward :: rest, depth => follow rest (depth + 1)
  | outward :: _, 0 => none
  | outward :: rest, depth + 1 => follow rest depth

theorem follow_append (turns others : List Turn) (depth : Nat) :
    follow (turns ++ others) depth = (follow turns depth).bind (follow others) := by
  induction turns generalizing depth with
  | nil => rfl
  | cons turn rest ih =>
    cases turn with
    | inward => exact ih (depth + 1)
    | outward =>
      cases depth with
      | zero => rfl
      | succ depth => exact ih depth

theorem count_of_follow {turns : List Turn} {depth stop : Nat} (h : follow turns depth = some stop) :
    stop + turns.count outward = depth + turns.count inward := by
  induction turns generalizing depth with
  | nil => simpa [follow] using h.symm
  | cons turn rest ih =>
    cases turn with
    | inward =>
      have := ih h
      simp only [List.count_cons, beq_iff_eq, reduceCtorEq, if_false, if_true]
      omega
    | outward =>
      cases depth with
      | zero => cases h
      | succ depth =>
        have := ih h
        simp only [List.count_cons, beq_iff_eq, reduceCtorEq, if_false, if_true]
        omega

theorem isSome_follow_of_prefixes {turns : List Turn} {depth : Nat}
    (h : ∀ front, front <+: turns → front.count outward ≤ depth + front.count inward) :
    (follow turns depth).isSome = true := by
  induction turns generalizing depth with
  | nil => rfl
  | cons turn rest ih =>
    cases turn with
    | inward =>
      refine ih fun front before => ?_
      have := h (inward :: front) (List.cons_prefix_cons.2 ⟨rfl, before⟩)
      simp only [List.count_cons, beq_iff_eq, reduceCtorEq, if_false, if_true] at this
      omega
    | outward =>
      cases depth with
      | zero => simpa using h [outward] (List.prefix_append [outward] rest)
      | succ depth =>
        refine ih fun front before => ?_
        have := h (outward :: front) (List.cons_prefix_cons.2 ⟨rfl, before⟩)
        simp only [List.count_cons, beq_iff_eq, reduceCtorEq, if_false, if_true] at this
        omega

/-- There is always a way out if at no point more turns have led out than there were levels. -/
theorem isSome_follow_iff {turns : List Turn} {depth : Nat} : (follow turns depth).isSome = true ↔
    ∀ front, front <+: turns → front.count outward ≤ depth + front.count inward := by
  refine ⟨fun done front before => ?_, isSome_follow_of_prefixes⟩
  obtain ⟨back, rfl⟩ := before
  rw [follow_append] at done
  cases first : follow front depth with
  | none => simp [first] at done
  | some stop =>
    have := count_of_follow first
    omega

end Turn

def Command.turns : Command → List Turn
  | indent | openBlock _ => [.inward]
  | outdent | closeBlock _ => [.outward]
  | turnBlock _ => [.outward, .inward]
  | _ => []

/-- Code that is emitted turns as it needs to, and a caller that gives up has a reason of its own. All
other commands are direct. -/
def Command.isDirect : Command → Bool
  | emit _ | fail _ => false
  | _ => true

def Action.turns : Action → List Turn
  | command c => c.turns
  | _ => []

def Action.isDirect : Action → Bool
  | command c => c.isDirect
  | _ => true

def Action.stepsOut : Action → Bool
  | command .outdent | command (.closeBlock _) | command (.turnBlock _) => true
  | _ => false

theorem Command.follow_turns {c : Command} (direct : c.isDirect = true) (s : Section) :
    (c.course s.depth).fault = (if (Turn.follow c.turns s.depth).isSome then none
      else some (.belowZero 0)) ∧
    (s.after (c.course s.depth).changes).depth = (Turn.follow c.turns s.depth).getD s.depth := by
  cases c with
  | emit node => cases direct
  | fail message => cases direct
  | writeLine text => exact ⟨rfl, (Course.climbs_line text).depth_eq rfl s⟩
  | writeLines text =>
    have done := Course.fault_lines id (Text.lines text)
    exact ⟨done, (Course.climbs_lines id (Text.lines text)).depth_eq done s⟩
  | openBlock text => exact ⟨rfl, (Course.climbs_openBlock text).level rfl s.depth s rfl⟩
  | outdent =>
    cases level : s.depth with
    | zero => exact ⟨rfl, level⟩
    | succ depth => exact ⟨rfl, (Course.climbs_outdent 0).level rfl depth s level⟩
  | closeBlock text =>
    cases level : s.depth with
    | zero => exact ⟨rfl, level⟩
    | succ depth => exact ⟨rfl, (Course.climbs_closeBlock text 0).level rfl depth s level⟩
  | turnBlock text =>
    cases level : s.depth with
    | zero => exact ⟨rfl, level⟩
    | succ depth => exact ⟨rfl, (Course.climbs_turnBlock text 0).level rfl depth s level⟩
  | commit => exact ⟨rfl, Section.commit_depth s⟩
  | _ => exact ⟨rfl, rfl⟩

namespace Document

variable {d : Document} {b x : Nat}

theorem depth_commits (d : Document) (sections : List Nat) (x : Nat) :
    ((d.after (commits sections)).get x).depth = (d.get x).depth := by
  rw [get_commits]
  split
  · exact Section.commit_depth _
  · rfl

theorem depth_reserve (held : b < d.size) (inside : x < d.size) :
    ((d.reserve b).get x).depth = (d.get x).depth := by
  by_cases here : b = x
  · subst here
    rw [get_reserve_self held]
    exact Section.commit_depth _
  · rw [get_reserve_of_ne held here (Nat.ne_of_lt inside)]

end Document

namespace Action

open Document

variable {action : Action} {b x : Nat} {d : Document} (orderly : d.Orderly)
include orderly

theorem depth_answer (inside : x < d.size) : ((action.answer b d).2.get x).depth =
    match action with
    | command c => if b = x then ((d.get b).after (c.course (d.get b).depth).changes).depth
        else (d.get x).depth
    | _ => (d.get x).depth := by
  rw [(action.answer_eq b orderly).1]
  cases action with
  | command c =>
    simp only [moves, after_on, get_put]
    by_cases here : b = x
    · simp [here, inside]
    · simp [here]
  | nest =>
    simp only [moves]
    split
    · rename_i held
      exact depth_reserve held inside
    · rfl
  | render | text => exact depth_commits d _ x
  | statuses => rfl

theorem depth_answer_of_ne (action : Action) (inside : x < d.size) (apart : b ≠ x) :
    ((action.answer b d).2.get x).depth = (d.get x).depth := by
  rw [depth_answer orderly inside]
  cases action <;> simp [apart]

theorem size_le_answer (action : Action) (b : Nat) : d.size ≤ (action.answer b d).2.size := by
  rw [(action.answer_eq b orderly).1]
  exact size_le_after d _

section Direct

variable (direct : action.isDirect = true)
include direct

theorem fault_of_direct : (action.answer b d).1.fault =
    if (Turn.follow action.turns (d.get b).depth).isSome then none else some (.belowZero 0) := by
  rw [(action.answer_eq b orderly).2]
  cases action with
  | command c => exact (c.follow_turns direct (d.get b)).1
  | _ => rfl

theorem depth_of_direct (inside : b < d.size) : ((action.answer b d).2.get b).depth =
    (Turn.follow action.turns (d.get b).depth).getD (d.get b).depth := by
  rw [depth_answer orderly inside]
  cases action with
  | command c => exact (if_pos rfl).trans (c.follow_turns direct (d.get b)).2
  | _ => rfl

theorem turned_or_refused (inside : b < d.size) :
    let e := (action.answer b d).2
    (Turn.follow action.turns (d.get b).depth = some (e.get b).depth ∧
        (action.answer b d).1.fault = none) ∨
      (Turn.follow action.turns (d.get b).depth = none ∧ (e.get b).depth = (d.get b).depth ∧
        (action.answer b d).1.fault ≠ none) := by
  intro e
  have fault := fault_of_direct (b := b) orderly direct
  have level : (e.get b).depth = _ := depth_of_direct orderly direct inside
  cases turned : Turn.follow action.turns (d.get b).depth with
  | some depth => exact .inl ⟨by simp [level, turned], by simp [fault, turned]⟩
  | none => exact .inr ⟨rfl, by simp [level, turned], by simp [fault, turned]⟩

theorem refused_iff_of_direct : (action.answer b d).1.fault ≠ none ↔
    action.stepsOut = true ∧ (d.get b).depth = 0 := by
  rw [fault_of_direct orderly direct]
  cases action with
  | command c =>
    cases c <;> cases (d.get b).depth <;>
      simp [turns, Command.turns, stepsOut, Turn.follow]
  | _ => simp [turns, stepsOut, Turn.follow]

theorem fault_eq_of_direct {fault : Fault} (refused : (action.answer b d).1.fault = some fault) :
    fault = .belowZero 0 := by
  rw [fault_of_direct orderly direct] at refused
  split at refused
  · cases refused
  · exact (Option.some.inj refused).symm

/-- What a refused action has done is to commit the rows, if it did anything. -/
theorem answer_of_refused (refused : (action.answer b d).1.fault ≠ none) :
    (action = .command .outdent → (action.answer b d).2 = d) ∧
      (action ≠ .command .outdent → (action.answer b d).2 = d.put b (d.get b).commitRows) := by
  obtain ⟨out, top⟩ := (refused_iff_of_direct orderly direct).1 refused
  have done : (action.answer b d).2 = d.after (action.moves b d) := (action.answer_eq b orderly).1
  cases action with
  | command c =>
    rw [moves, top, after_on] at done
    cases c with
    | outdent => exact ⟨fun _ => done.trans (put_get d b), fun other => absurd rfl other⟩
    | closeBlock text => exact ⟨fun same => (by cases same), fun _ => done⟩
    | turnBlock text => exact ⟨fun same => (by cases same), fun _ => done⟩
    | _ => cases out
  | _ => cases out

theorem sameContent_of_refused (refused : (action.answer b d).1.fault ≠ none) :
    SameContent d (action.answer b d).2 := by
  obtain ⟨out, row⟩ := answer_of_refused orderly direct refused
  by_cases plain : action = .command .outdent
  · rw [out plain]
    exact .refl d
  · rw [row plain]
    exact sameContent_commitRows d b

end Direct

omit orderly in
theorem depth_nest (inside : b < d.size) : d.size < (nest.answer b d).2.size ∧
    ((nest.answer b d).2.get d.size).depth = (d.get b).depth := by
  rw [answer_nest inside, get_reserve_new inside, size_reserve inside]
  exact ⟨Nat.lt_succ_self _, rfl⟩

end Action

namespace Work

open Document

def substitute : Action → Option Action
  | .command .outdent => none
  | _ => some (.command .commitRows)

/-- The work without the actions that are refused in it. Some leave another action in their place; a
mark shows all that were there before. -/
def mended : Work → Document → List ((Nat × Action) × Bool)
  | [], _ => []
  | (b, action) :: rest, d =>
    (if (action.answer b d).1.fault.isSome then
        (substitute action).toList.map fun other => ((b, other), false)
      else [((b, action), true)]) ++ mended rest (action.answer b d).2

def turnsTaken (x : Nat) (work : Work) (d : Document) : List Turn :=
  (((work.actions x).zip (work.answers x d)).filter fun (_, answer) => answer.fault.isNone).flatMap
    fun (action, _) => action.turns

theorem turnsTaken_cons (x b : Nat) (action : Action) (work : Work) (d : Document) :
    turnsTaken x ((b, action) :: work) d =
      (if b = x ∧ (action.answer b d).1.fault = none then action.turns else []) ++
        turnsTaken x work (action.answer b d).2 := by
  simp only [turnsTaken, actions_cons, answers_cons]
  by_cases here : b = x
  · subst here
    cases done : (action.answer b d).1.fault <;> simp [done]
  · simp [here]

section Direct

variable {work : Work} (direct : ∀ step ∈ work, step.2.isDirect = true)
include direct

theorem depth_run {x : Nat} {d : Document} (orderly : d.Orderly) (inside : x < d.size) :
    ((Step.runAll work.steps d).2.get x).depth + (turnsTaken x work d).count .outward =
      (d.get x).depth + (turnsTaken x work d).count .inward := by
  induction work generalizing d with
  | nil => rfl
  | cons step work ih =>
    obtain ⟨b, action⟩ := step
    have first : action.isDirect = true := direct (b, action) (by simp)
    have rest := ih (fun other member => direct other (by simp [member])) (orderly.answer b action)
      (Nat.lt_of_lt_of_le inside (Action.size_le_answer orderly action b))
    rw [runAll_cons, turnsTaken_cons, List.count_append, List.count_append]
    by_cases here : b = x
    · subst here
      rcases Action.turned_or_refused orderly first inside with ⟨turned, done⟩ | ⟨-, level, refused⟩
      · have := Turn.count_of_follow turned
        simp only [done, and_self, if_true]
        omega
      · simpa [refused, level] using rest
    · have level := Action.depth_answer_of_ne orderly action inside here
      simpa [here, level] using rest

theorem answered_iff_follow {x : Nat} {d : Document} (orderly : d.Orderly) (inside : x < d.size) :
    (∀ answer ∈ work.answers x d, answer.fault = none) ↔
      (Turn.follow ((work.actions x).flatMap Action.turns) (d.get x).depth).isSome = true := by
  induction work generalizing d with
  | nil => simp [answers, actions, Turn.follow]
  | cons step work ih =>
    obtain ⟨b, action⟩ := step
    have first : action.isDirect = true := direct (b, action) (by simp)
    have rest := ih (fun other member => direct other (by simp [member])) (orderly.answer b action)
      (Nat.lt_of_lt_of_le inside (Action.size_le_answer orderly action b))
    rw [answers_cons, actions_cons]
    by_cases here : b = x
    · subst here
      rw [if_pos rfl, if_pos rfl, List.flatMap_append, List.flatMap_singleton, Turn.follow_append]
      rcases Action.turned_or_refused orderly first inside with ⟨turned, done⟩ | ⟨turned, -, refused⟩
      · simpa [turned, done] using rest
      · simp [turned, refused]
    · have level := Action.depth_answer_of_ne orderly action inside here
      simpa [here, level] using rest

theorem answered_iff {x : Nat} {d : Document} (orderly : d.Orderly) (inside : x < d.size) :
    (∀ answer ∈ work.answers x d, answer.fault = none) ↔
      ∀ front, front <+: (work.actions x).flatMap Action.turns →
        front.count .outward ≤ (d.get x).depth + front.count .inward := by
  rw [answered_iff_follow direct orderly inside, Turn.isSome_follow_iff]

end Direct

/-- Work that is not refused, comes to the same document as the other work, and where it is marked is
answered as the other is where it is not refused. -/
structure Mends (mended : List ((Nat × Action) × Bool)) (work : Work) (d : Document) : Prop where
  final : (Step.runAll (steps (mended.map Prod.fst)) d).2 = (Step.runAll work.steps d).2
  taken : ∀ answer ∈ (Step.runAll (steps (mended.map Prod.fst)) d).1, answer.fault = none
  answers : Code.marked ((Step.runAll (steps (mended.map Prod.fst)) d).1.zip (mended.map Prod.snd)) =
    (Step.runAll work.steps d).1.filter (·.fault.isNone)

namespace Mends

variable {mended : List ((Nat × Action) × Bool)} {work : Work} {d : Document} {b : Nat}
  {action other : Action}

theorem keep (done : (action.answer b d).1.fault = none)
    (mends : Mends mended work (action.answer b d).2) :
    Mends (((b, action), true) :: mended) ((b, action) :: work) d := by
  refine ⟨mends.final, ?_, ?_⟩
  · simpa [runAll_cons, done] using mends.taken
  · simpa [runAll_cons, done] using mends.answers

theorem drop (refused : (action.answer b d).1.fault ≠ none) (same : (action.answer b d).2 = d)
    (mends : Mends mended work d) : Mends mended ((b, action) :: work) d := by
  refine ⟨?_, mends.taken, ?_⟩
  · rw [runAll_cons, same]
    exact mends.final
  · simpa [runAll_cons, same, refused] using mends.answers

theorem replace (refused : (action.answer b d).1.fault ≠ none) (done : (other.answer b d).1.fault = none)
    (same : (other.answer b d).2 = (action.answer b d).2)
    (mends : Mends mended work (action.answer b d).2) :
    Mends (((b, other), false) :: mended) ((b, action) :: work) d := by
  refine ⟨?_, ?_, ?_⟩
  · rw [List.map_cons, runAll_cons, same]
    exact mends.final
  · simpa [runAll_cons, done, same] using mends.taken
  · simpa [runAll_cons, refused, same] using mends.answers

end Mends

theorem mends_mended {work : Work} (direct : ∀ step ∈ work, step.2.isDirect = true) {d : Document}
    (orderly : d.Orderly) : Mends (work.mended d) work d := by
  induction work generalizing d with
  | nil => exact ⟨rfl, nofun, rfl⟩
  | cons step work ih =>
    obtain ⟨b, action⟩ := step
    have first : action.isDirect = true := direct (b, action) (by simp)
    have rest := ih (fun other member => direct other (by simp [member])) (orderly.answer b action)
    unfold mended
    by_cases done : (action.answer b d).1.fault = none
    · simpa [done] using rest.keep done
    · obtain ⟨out, row⟩ := Action.answer_of_refused orderly first done
      rw [if_pos (Option.isSome_iff_ne_none.2 done)]
      by_cases plain : action = .command .outdent
      · rw [out plain] at rest ⊢
        simpa [substitute, plain] using rest.drop done (out plain)
      · have other : substitute action = some (.command .commitRows) := by
          unfold substitute
          split
          · exact absurd rfl plain
          · rfl
        rw [other]
        exact rest.replace done rfl (row plain).symm

/-- Only a step out of depth zero is refused. A refused step leaves the document as it was, or with
waiting rows committed, and no render tells the difference. The depth of a section is the one it was
begun at, that of its parent then, with all turns taken since. Without the refused steps, or with the
rows committed in their place, a run comes to the same, and no step in a section is refused just if at
no point more turns have led out than the depth at the beginning and the turns inward allow. -/
theorem depth_discipline {d : Document} (reached : d.Reachable) :
    (∀ unit, (Document.new unit).size = 1 ∧ ((Document.new unit).get 0).depth = 0) ∧
    (∀ (b : Nat) (action : Action), action.isDirect = true →
      ((action.answer b d).1.fault ≠ none ↔ action.stepsOut = true ∧ (d.get b).depth = 0) ∧
      ∀ fault, (action.answer b d).1.fault = some fault →
        let s := d.get b
        let e := (action.answer b d).2
        fault = .belowZero 0 ∧ (action = .command .outdent → e = d) ∧
          (action ≠ .command .outdent → e = d.put b
            { s with
              fragments := s.fragments ++ s.rows.align.map (fun row => .line ⟨0, row⟩)
              rows := [] }) ∧
          ∀ x ambient, ∃ text, d.Prints x ambient text ∧ e.Prints x ambient text) ∧
    ∀ work : Work, (∀ step ∈ work, step.2.isDirect = true) →
      let run := Step.runAll work.steps d
      let mended := work.mended d
      let mendedRun := Step.runAll (steps (mended.map Prod.fst)) d
      (∀ x, x < d.size →
        (run.2.get x).depth + (work.turnsTaken x d).count .outward =
          (d.get x).depth + (work.turnsTaken x d).count .inward) ∧
      (∀ (before after : Work) (p : Nat), work = before ++ (p, .nest) :: after →
        let m := (Step.runAll before.steps d).2
        let e := (Action.nest.answer p m).2
        p < m.size →
          (run.2.get m.size).depth + (after.turnsTaken m.size e).count .outward =
            (m.get p).depth + (after.turnsTaken m.size e).count .inward ∧
          ((∀ answer ∈ after.answers m.size e, answer.fault = none) ↔
            ∀ front, front <+: (after.actions m.size).flatMap Action.turns →
              front.count .outward ≤ (m.get p).depth + front.count .inward)) ∧
      (mendedRun.2 = run.2 ∧ (∀ answer ∈ mendedRun.1, answer.fault = none) ∧
        Code.marked (mendedRun.1.zip (mended.map Prod.snd)) = run.1.filter (·.fault.isNone)) ∧
      ∀ x, x < d.size →
        ((∀ answer ∈ work.answers x d, answer.fault = none) ↔
          ∀ front, front <+: (work.actions x).flatMap Action.turns →
            front.count .outward ≤ (d.get x).depth + front.count .inward) := by
  have orderly := reached.orderly
  refine ⟨fun unit => ⟨rfl, rfl⟩, fun b action direct => ⟨Action.refused_iff_of_direct orderly direct, ?_⟩,
    fun work direct => ⟨fun x inside => depth_run direct orderly inside, ?_, ?_,
      fun x inside => answered_iff direct orderly inside⟩⟩
  · intro fault refused s e
    have failed : (action.answer b d).1.fault ≠ none := by simp [refused]
    obtain ⟨-, top⟩ := (Action.refused_iff_of_direct orderly direct).1 failed
    obtain ⟨out, row⟩ := Action.answer_of_refused orderly direct failed
    have same := Action.sameContent_of_refused orderly direct failed
    refine ⟨Action.fault_eq_of_direct orderly direct refused, out, fun other => ?_, fun x ambient => ?_⟩
    · rw [← top]
      exact row other
    · exact ⟨_, orderly.prints_lines rfl rfl ambient,
        (orderly.answer b action).prints_lines same.unit (same.lines x) ambient⟩
  · rintro before after p rfl m e inside
    have later : ∀ step ∈ after, step.2.isDirect = true :=
      fun step member => direct step (by simp [member])
    have whole : steps (before ++ (p, .nest) :: after) = before.steps ++ .act p .nest :: after.steps := by
      simp [steps]
    obtain ⟨there, start⟩ := Action.depth_nest inside
    rw [whole, Step.runAll_append, ← start]
    have begun : e.Orderly := (orderly.runAll before.steps).answer p .nest
    exact ⟨depth_run later begun there, answered_iff later begun there⟩
  · have mends := mends_mended direct orderly
    exact ⟨mends.final, mends.taken, mends.answers⟩

theorem depth_discipline_refused :
    let d := Document.new none
    let before : Work := [(0, .command (.queueRow (.each [some "a"]))), (0, .command (.closeBlock "b")),
      (0, .command .outdent), (0, .command (.openBlock "c"))]
    let after : Work := [(1, .command (.turnBlock "d")), (1, .command .outdent),
      (1, .command (.turnBlock "e")), (0, .render 0)]
    let work := before ++ (0, .nest) :: after
    let m := (Step.runAll before.steps d).2
    let e := (Action.nest.answer 0 m).2
    let waiting := d.put 0 ((d.get 0).queueRow (.each [some "a"]))
    waiting.Reachable ∧ ((Action.command (.closeBlock "b")).answer 0 waiting).2 =
        waiting.put 0 { waiting.get 0 with fragments := [.line ⟨0, "a"⟩], rows := [] } ∧
      (∀ step ∈ work, step.2.isDirect = true) ∧
      (Step.runAll (steps ((work.mended d).map Prod.fst)) d).2 = (Step.runAll work.steps d).2 ∧
      ¬ (∀ answer ∈ work.answers 0 d, answer.fault = none) ∧
      ((Step.runAll work.steps d).2.get m.size).depth + (after.turnsTaken m.size e).count .outward =
        (m.get 0).depth + (after.turnsTaken m.size e).count .inward := by
  intro d before after work m e waiting
  have reached : waiting.Reachable := ⟨none, [.act 0 (.command (.queueRow (.each [some "a"])))], rfl⟩
  have start : d.Reachable := ⟨none, [], rfl⟩
  obtain ⟨-, refusals, -⟩ := depth_discipline reached
  obtain ⟨-, -, row, -⟩ := (refusals 0 (.command (.closeBlock "b")) rfl).2 (.belowZero 0) rfl
  have direct : ∀ step ∈ work, step.2.isDirect = true := by decide
  have held : 0 < m.size := by decide
  have early : ([.outward] : List Turn) <+: (work.actions 0).flatMap Action.turns := by decide
  obtain ⟨-, -, runs⟩ := depth_discipline start
  obtain ⟨-, begun, mends, raised⟩ := runs work direct
  refine ⟨reached, row (by simp), direct, mends.1, fun taken => ?_, (begun before after 0 rfl held).1⟩
  have beyond := (raised 0 (by decide)).1 taken _ early
  exact absurd beyond (by decide)

end Work

end IndentedText
