import IndentedText.Proofs.Run

/-!
Work on different sections in any order. A command hangs on its own section alone, and a reserved place
on its section and on how many sections there are. So the steps of a run may be interleaved in any
other way that keeps the order within each section and the order of the new sections.
-/

namespace IndentedText

open Document

namespace Action

/-- The actions that look at no section but the one they are about. -/
def isLocal : Action → Bool
  | command _ | nest => true
  | render _ | text | statuses => false

def isNest : Action → Bool
  | nest => true
  | _ => false

def grow (action : Action) (size : Nat) : Nat :=
  if action.isNest then size + 1 else size

theorem answer_command (c : Command) (s : Section) :
    ∃ outcome t, ∀ b d, b < d.size → d.get b = s →
      (command c).answer b d = (.act t.status outcome, d.put b t) := by
  cases taken : c.run s with
  | ok reply t =>
    refine ⟨.ok reply, t, fun b d inside here => ?_⟩
    simp [answer, run, inSection_of_ok (here ▸ taken), status, get_put_self inside]
  | error fault t =>
    refine ⟨.error fault, t, fun b d inside here => ?_⟩
    simp [answer, run, inSection_of_error (here ▸ taken), status, get_put_self inside]

theorem answer_nest {b : Nat} {d : Document} (inside : b < d.size) :
    nest.answer b d =
      (.act ((d.get b).reserve d.size).status
        (.ok (.nested d.size (d.get b).unit (d.get b).child.status)), d.reserve b) := by
  have reserved : Document.nest b d = .ok d.size (d.reserve b) := by
    rw [nest_eq, if_pos inside]
    rfl
  have taken : nest.run b d =
      .ok (.nested d.size ((d.reserve b).get d.size).unit ((d.reserve b).status d.size))
        (d.reserve b) := by
    simp only [run, bind, EStateM.bind, reserved]
    rfl
  simp only [answer, taken, status, get_reserve_self inside, get_reserve_new inside,
    Section.reserve_eq]
  rfl

theorem size_answer {action : Action} (isLocal : action.isLocal = true) {b : Nat} {d : Document}
    (inside : b < d.size) : (action.answer b d).2.size = action.grow d.size := by
  cases action with
  | command c =>
    obtain ⟨outcome, t, taken⟩ := answer_command c (d.get b)
    simp [taken b d inside rfl, grow, isNest]
  | nest => simp [answer_nest inside, size_reserve inside, grow, isNest]
  | _ => cases isLocal

/-- Two actions in different sections may change places: each gets its answer either way, and the
document comes out the same. -/
structure Swap (b : Nat) (s : Action) (c : Nat) (t : Action) (d : Document) : Prop where
  first : (s.answer b (t.answer c d).2).1 = (s.answer b d).1
  second : (t.answer c (s.answer b d).2).1 = (t.answer c d).1
  final : (t.answer c (s.answer b d).2).2 = (s.answer b (t.answer c d).2).2

theorem Swap.symm {b c : Nat} {s t : Action} {d : Document} (swap : Swap b s c t d) :
    Swap c t b s d :=
  ⟨swap.second, swap.first, swap.final.symm⟩

section Swap

variable {b c : Nat} {d : Document} (apart : b ≠ c) (left : b < d.size) (right : c < d.size)
include apart left right

theorem swap_commands (first second : Command) : Swap b (command first) c (command second) d := by
  obtain ⟨x, s, taken⟩ := answer_command first (d.get b)
  obtain ⟨y, t, also⟩ := answer_command second (d.get c)
  have before := taken b d left rfl
  have alone := also c d right rfl
  have after := taken b (d.put c t) (by simpa using left) (get_put_of_ne apart.symm t)
  have behind := also c (d.put b s) (by simpa using right) (get_put_of_ne apart s)
  refine ⟨?_, ?_, ?_⟩ <;> simp only [before, alone, after, behind]
  exact put_comm apart d s t

theorem swap_nest (first : Command) : Swap b (command first) c nest d := by
  obtain ⟨x, s, taken⟩ := answer_command first (d.get b)
  have before := taken b d left rfl
  have kept : (d.reserve c).get b = d.get b :=
    get_reserve_of_ne right apart.symm (Nat.ne_of_lt left)
  have after := taken b (d.reserve c) (by rw [size_reserve right]; omega) kept
  have alone := answer_nest right
  have behind := answer_nest (d := d.put b s) (b := c) (by simpa using right)
  rw [get_put_of_ne apart, size_put] at behind
  refine ⟨?_, ?_, ?_⟩ <;> simp only [before, alone, after, behind]
  exact reserve_put right apart left s

/-- Local actions in different sections may change places, unless both ask for the next number. -/
theorem swap_local {s t : Action} (localLeft : s.isLocal = true) (localRight : t.isLocal = true)
    (once : ¬ (s.isNest = true ∧ t.isNest = true)) : Swap b s c t d := by
  cases s with
  | command first =>
    cases t with
    | command second => exact swap_commands apart left right first second
    | nest => exact swap_nest apart left right first
    | _ => cases localRight
  | nest =>
    cases t with
    | command second => exact (swap_nest apart.symm right left second).symm
    | nest => exact absurd ⟨rfl, rfl⟩ once
    | _ => cases localRight
  | _ => cases localLeft

end Swap

end Action

abbrev Work := List (Nat × Action)

namespace Work

def steps (work : Work) : List Step :=
  work.map fun (b, action) => .act b action

/-- All actions are local, and the section of each is there by then. -/
def Local : Nat → Work → Prop
  | _, [] => True
  | size, (b, action) :: rest => action.isLocal = true ∧ b < size ∧ Local (action.grow size) rest

def actions (x : Nat) (work : Work) : List Action :=
  (work.filter (·.1 == x)).map Prod.snd

def hosts (work : Work) : List Nat :=
  (work.filter (·.2.isNest)).map Prod.fst

/-- The same work is done in every section, and new sections are begun in the same order. -/
structure Reordered (work other : Work) : Prop where
  actions : ∀ x, work.actions x = other.actions x
  hosts : work.hosts = other.hosts

def answers (x : Nat) (work : Work) (d : Document) : List Answer :=
  ((work.zip (Step.runAll work.steps d).1).filter (·.1.1 == x)).map Prod.snd

structure Agree (d : Document) (work other : Work) : Prop where
  final : (Step.runAll work.steps d).2 = (Step.runAll other.steps d).2
  answers : ∀ x, work.answers x d = other.answers x d

variable {work other rest front : Work} {b c : Nat} {action s t : Action} {d : Document}

theorem actions_cons (x : Nat) : actions x ((b, action) :: work) =
    (if b = x then [action] else []) ++ actions x work := by
  by_cases h : b = x <;> simp [actions, h]

theorem actions_append (x : Nat) : actions x (work ++ other) = actions x work ++ actions x other := by
  simp [actions]

theorem actions_eq_nil {x : Nat} (apart : ∀ step ∈ work, step.1 ≠ x) : actions x work = [] := by
  simpa [actions] using apart

theorem hosts_cons : hosts ((b, action) :: work) =
    (if action.isNest then [b] else []) ++ hosts work := by
  cases h : action.isNest <;> simp [hosts, h]

theorem hosts_append : hosts (work ++ other) = hosts work ++ hosts other := by
  simp [hosts]

theorem hosts_eq_nil : hosts work = [] ↔ ∀ step ∈ work, step.2.isNest = false := by
  simp [hosts]

theorem runAll_cons : Step.runAll (steps ((b, action) :: work)) d =
    ((action.answer b d).1 :: (Step.runAll work.steps (action.answer b d).2).1,
      (Step.runAll work.steps (action.answer b d).2).2) := rfl

theorem answers_cons (x : Nat) : answers x ((b, action) :: work) d =
    (if b = x then [(action.answer b d).1] else []) ++ work.answers x (action.answer b d).2 := by
  by_cases h : b = x <;> simp [answers, runAll_cons, h]

theorem Agree.refl : Agree d work work :=
  ⟨rfl, fun _ => rfl⟩

theorem Agree.symm (agree : Agree d work other) : Agree d other work :=
  ⟨agree.final.symm, fun x => (agree.answers x).symm⟩

theorem Agree.trans (first : Agree d work other) (second : Agree d other rest) : Agree d work rest :=
  ⟨first.final.trans second.final, fun x => (first.answers x).trans (second.answers x)⟩

theorem Agree.cons (agree : Agree (action.answer b d).2 work other) :
    Agree d ((b, action) :: work) ((b, action) :: other) := by
  refine ⟨agree.final, fun x => ?_⟩
  rw [answers_cons, answers_cons, agree.answers x]

theorem Agree.swap (swap : Action.Swap b s c t d) (apart : b ≠ c) :
    Agree d ((b, s) :: (c, t) :: work) ((c, t) :: (b, s) :: work) := by
  refine ⟨?_, fun x => ?_⟩
  · simp only [runAll_cons, swap.final]
  · simp only [answers_cons, swap.first, swap.second, swap.final]
    -- At most one of the two answers is for section `x`.
    by_cases here : b = x
    · simp [here, show c ≠ x from fun there => apart (here.trans there.symm)]
    · simp [here]

theorem grow_comm (size : Nat) : s.grow (t.grow size) = t.grow (s.grow size) := by
  unfold Action.grow
  split <;> split <;> rfl

theorem le_grow (action : Action) (size : Nat) : size ≤ action.grow size := by
  unfold Action.grow
  split <;> omega

theorem Local.ahead {size : Nat} (possible : Local size (front ++ (b, action) :: rest)) :
    Local (action.grow size) (front ++ rest) := by
  induction front generalizing size with
  | nil => exact possible.2.2
  | cons step front ih =>
    obtain ⟨isLocal, inside, later⟩ := possible
    refine ⟨isLocal, Nat.lt_of_lt_of_le inside (le_grow action size), ?_⟩
    rw [grow_comm]
    exact ih later

/-- An action may come before all work in other sections, if it is no second request for a number. -/
theorem agree_ahead (apart : ∀ step ∈ front, step.1 ≠ b)
    (once : action.isNest = true → ∀ step ∈ front, step.2.isNest = false)
    (isLocal : action.isLocal = true) (inside : b < d.size)
    (possible : Local d.size (front ++ (b, action) :: rest)) :
    Agree d (front ++ (b, action) :: rest) ((b, action) :: (front ++ rest)) := by
  induction front generalizing d with
  | nil => exact .refl
  | cons step front ih =>
    obtain ⟨c, t⟩ := step
    obtain ⟨also, held, later⟩ := possible
    have size := Action.size_answer also held
    have next := ih (fun other member => apart other (by simp [member]))
      (fun nest other member => once nest other (by simp [member]))
      (d := (t.answer c d).2) (by rw [size]; exact Nat.lt_of_lt_of_le inside (le_grow t d.size))
      (by rwa [size])
    have other : c ≠ b := apart (c, t) (by simp)
    refine next.cons.trans (.swap (Action.swap_local other held inside also isLocal ?_) other)
    rintro ⟨first, second⟩
    simp [once second (c, t) (by simp)] at first

/-- The first action of all is the first in its section in the other order, too, and what comes before
it there begins no section ahead of it. -/
theorem Reordered.split (reordered : Reordered ((b, action) :: work) other) :
    ∃ front rest : Work, other = front ++ (b, action) :: rest ∧ (∀ step ∈ front, step.1 ≠ b) ∧
      (action.isNest = true → ∀ step ∈ front, step.2.isNest = false) ∧
      Reordered work (front ++ rest) := by
  have here := (reordered.actions b).symm
  rw [actions_cons, if_pos rfl] at here
  obtain ⟨step, later, found, rfl, -⟩ := List.map_eq_cons_iff.1 here
  obtain ⟨front, rest, rfl, before, same, -⟩ := List.filter_eq_cons_iff.1 found
  obtain ⟨c, action⟩ := step
  obtain rfl : c = b := by simpa using same
  have apart : ∀ step ∈ front, step.1 ≠ c := fun step member => by simpa using before step member
  have order := reordered.hosts
  rw [hosts_cons, hosts_append, hosts_cons] at order
  have once : action.isNest = true → Work.hosts front = [] := by
    intro nest
    rw [if_pos nest] at order
    cases hosted : Work.hosts front with
    | nil => rfl
    | cons host later =>
      rw [hosted] at order
      obtain rfl : c = host := (List.cons.inj order).1
      have member : c ∈ Work.hosts front := by simp [hosted]
      obtain ⟨other, member, same⟩ := List.mem_map.1 member
      exact absurd same (apart other (List.mem_filter.1 member).1)
  refine ⟨front, rest, rfl, apart, fun nest => hosts_eq_nil.1 (once nest), fun x => ?_, ?_⟩
  · have all := reordered.actions x
    rw [actions_cons, actions_append, actions_cons] at all
    rw [actions_append]
    by_cases h : c = x
    · subst h
      simpa [actions_eq_nil apart] using all
    · simpa [h] using all
  · rw [hosts_append]
    by_cases nest : action.isNest = true
    · simpa [nest, once nest] using order
    · simpa [nest] using order

theorem agree_of_reordered (possible : Local d.size work) (also : Local d.size other)
    (reordered : Reordered work other) : Agree d work other := by
  induction work generalizing d other with
  | nil =>
    cases other with
    | nil => exact .refl
    | cons step rest =>
      have actions := reordered.actions step.1
      simp [Work.actions] at actions
  | cons step work ih =>
    obtain ⟨b, action⟩ := step
    obtain ⟨isLocal, inside, later⟩ := possible
    obtain ⟨front, rest, rfl, apart, once, moved⟩ := reordered.split
    have size := Action.size_answer isLocal inside
    have same := ih (d := (action.answer b d).2) (by rwa [size]) (by rw [size]; exact also.ahead) moved
    exact same.cons.trans (agree_ahead apart once isLocal inside also).symm

/-- Writing in one section and writing in another may be done in either order, be they refused midway
or not: each gets its answer, and the document comes out the same. So a run may be interleaved in any
way that keeps the order in every section and the order of the new ones. -/
theorem interleaved (d : Document) :
    (∀ (b c : Nat) (s t : Action), b ≠ c → b < d.size → c < d.size →
      s.isLocal = true → t.isLocal = true → ¬ (s.isNest = true ∧ t.isNest = true) →
        let first := Step.act b s
        let second := Step.act c t
        (second.run (first.run d).2).2 = (first.run (second.run d).2).2 ∧
          (first.run (second.run d).2).1 = (first.run d).1 ∧
          (second.run (first.run d).2).1 = (second.run d).1) ∧
      ∀ work other : Work, Local d.size work → Local d.size other → Reordered work other →
        (Step.runAll work.steps d).2 = (Step.runAll other.steps d).2 ∧
          ∀ x, work.answers x d = other.answers x d := by
  refine ⟨fun b c s t apart left right localLeft localRight once => ?_,
    fun work other possible also reordered => ?_⟩
  · have swap := Action.swap_local apart left right localLeft localRight once
    exact ⟨swap.final, swap.first, swap.second⟩
  · have agree := agree_of_reordered possible also reordered
    exact ⟨agree.final, agree.answers⟩

theorem interleaved_refused :
    let d := (Step.runAll [.act 0 .nest, .act 0 (.command (.write "a"))] (.new none)).2
    let emit : Action := .command (.emit (.statement (.loop "i" "r" [.pass, .abstract])))
    let work : Work := [(0, emit), (1, .nest), (2, .command (.writeLine "b")), (1, .command .outdent)]
    let other : Work := [(1, .nest), (1, .command .outdent), (2, .command (.writeLine "b")), (0, emit)]
    ((Step.act 1 .nest).run ((Step.act 0 emit).run d).2).2 =
        ((Step.act 0 emit).run ((Step.act 1 .nest).run d).2).2 ∧
      Local d.size work ∧ Local d.size other ∧ Reordered work other ∧
        (Step.runAll work.steps d).2 = (Step.runAll other.steps d).2 := by
  intro d emit work other
  have size : d.size = 2 := rfl
  have possible : Local d.size work := by
    simp [size, work, emit, Local, Action.isLocal, Action.grow, Action.isNest]
  have also : Local d.size other := by
    simp [size, other, emit, Local, Action.isLocal, Action.grow, Action.isNest]
  have reordered : Reordered work other := by
    refine ⟨fun x => ?_, rfl⟩
    by_cases zero : 0 = x <;> by_cases one : 1 = x <;> by_cases two : 2 = x <;>
      simp [work, other, actions_cons, zero, one, two] <;> omega
  obtain ⟨swapped, interleaving⟩ := interleaved d
  have once : ¬ (emit.isNest = true ∧ Action.nest.isNest = true) := by simp [emit, Action.isNest]
  have swap := swapped 0 1 emit .nest (by decide) (by decide) (by decide) rfl rfl once
  exact ⟨swap.1, possible, also, reordered, (interleaving work other possible also reordered).1⟩

end Work

end IndentedText
