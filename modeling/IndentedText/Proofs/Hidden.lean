import IndentedText.Proofs.Branch
import IndentedText.Proofs.Omission
import IndentedText.Proofs.Reply
import IndentedText.Proofs.Split

/-!
A hidden section keeps to itself what is done in it and in the sections it holds. Outside of it, all
goes on as if none of that had been done, but for the numbers of the sections begun there.
-/

namespace IndentedText

open Document

def Section.renumber (f : Nat → Nat) (s : Section) : Section :=
  { s with fragments := s.fragments.map (.renumber f) }

namespace Section

variable (f : Nat → Nat) (s : Section)

theorem content_renumber : (s.renumber f).content = s.content.map (.renumber f) := by
  rw [content, content, List.map_append, List.map_append, rowLines_renumber, rawLines_renumber]
  rfl

theorem apply_renumber (change : Change) :
    change.apply (s.renumber f) = (change.apply s).renumber f := by
  cases change with
  | commitRows => simp [Change.apply, commitRows, renumber, Fragment.renumber]
  | commit =>
    cases pending : s.pending <;>
      simp [Change.apply, commit, commitRows, renumber, pending, Fragment.renumber]
  | _ => rfl

theorem place_renumber (child : Nat) :
    (s.renumber f).place (f child) = (s.place child).renumber f := by
  simp [place, renumber, Fragment.renumber]

theorem status_renumber : (s.renumber f).status = s.status := by
  simp [status, renumber, isEmpty, isBodyEmpty]

theorem describe_renumber : (s.renumber f).describe = s.describe := by
  have fragments : (s.renumber f).fragments.length = s.fragments.length := List.length_map _
  unfold describe
  rw [fragments]
  rfl

variable {f s}

theorem renumber_congr {g : Nat → Nat} (same : ∀ child, .nested child ∈ s.fragments → f child = g child) :
    s.renumber f = s.renumber g := by
  refine congrArg (fun fragments => { s with fragments }) (List.map_congr_left fun fragment inside => ?_)
  cases fragment with
  | line l => rfl
  | nested child => exact congrArg Fragment.nested (same child inside)

theorem renumber_self (same : ∀ child, .nested child ∈ s.fragments → f child = child) :
    s.renumber f = s := by
  have each : ∀ fragment ∈ s.fragments, fragment.renumber f = fragment := fun fragment inside => by
    cases fragment with
    | line l => rfl
    | nested child => exact congrArg Fragment.nested (same child inside)
  have all : s.fragments.map (.renumber f) = s.fragments :=
    (List.map_congr_left each).trans (List.map_id' _)
  rw [renumber, all]

end Section

def Reply.renumber (f : Nat → Nat) : Reply → Reply
  | fragments all => fragments (all.map (.renumber f))
  | nested child unit status => nested (f child) unit status
  | reply => reply

theorem Command.reply_renumber (c : Command) (f : Nat → Nat) (s : Section) :
    c.reply (s.renumber f) = (c.reply s).renumber f := by
  cases c with
  | describe => exact congrArg Reply.text (s.describe_renumber f)
  | _ => rfl

mutual

def Answer.renumber (f : Nat → Nat) : Answer → Answer
  | act status outcome => act status (outcome.map (Reply.renumber f))
  | indented status answers fault => indented status (renumberAll f answers) fault

def Answer.renumberAll (f : Nat → Nat) : List Answer → List Answer
  | [] => []
  | answer :: rest => answer.renumber f :: renumberAll f rest

end

namespace Document

/-- What document `d` would be if nothing had been done in section `c`, which is hidden, since there were
`first` sections: `e` has the same sections outside of it, in the numbers that they would have. -/
structure Shadow (c first : Nat) (d e : Document) : Prop where
  unit : e.unit = d.unit
  size : e.size = d.rank c first d.size
  begun : first ≤ d.size
  inside : c < first
  hidden : (d.get c).visible = false ∧ (e.get c).visible = false
  orderly : d.Orderly ∧ e.Orderly
  forest : d.Forest
  sections : ∀ b, d.Outside c b → e.get (d.rank c first b) = (d.get b).renumber (d.rank c first)

namespace Shadow

variable {c first : Nat} {d e : Document} (shadow : Shadow c first d e)
include shadow

theorem lt_size : c < d.size :=
  Nat.lt_of_lt_of_le shadow.inside shadow.begun

theorem rank_self : d.rank c first c = c :=
  rank_of_le (Nat.le_of_lt shadow.inside)

section Outside

variable {b : Nat} (outside : d.Outside c b)
include outside

theorem ne_self : c ≠ b :=
  shadow.orderly.1.ne_of_outside .refl outside

theorem self_ne_rank : c ≠ d.rank c first b := fun same =>
  shadow.ne_self outside
    (rank_inj (.inl shadow.inside) (.inr outside) (shadow.rank_self.trans same))

theorem rank_lt_size : d.rank c first b < e.size := by
  rw [shadow.size]
  exact rank_lt (.inr outside) outside.1

theorem status : e.status (d.rank c first b) = d.status b := by
  rw [Document.status, Document.status, shadow.sections b outside, Section.status_renumber]

theorem depth : (e.get (d.rank c first b)).depth = (d.get b).depth :=
  congrArg Status.depth (shadow.status outside)

end Outside

/-! What is done in the hidden section has no counterpart. -/

theorem inner_change {b : Nat} (above : d.Above c b) (change : Section.Change)
    (keeps : b = c → ∀ value, change ≠ .setVisible value) :
    Shadow c first ((Move.change b change).apply d) e where
  unit := by rw [unit_apply, shadow.unit]
  size := by rw [rank_change shadow.orderly.1, size_change, shadow.size]
  begun := by rw [size_change]; exact shadow.begun
  inside := shadow.inside
  hidden := by
    refine ⟨?_, shadow.hidden.2⟩
    rw [get_change]
    split
    · rename_i here
      rw [Section.visible_apply change (keeps here.1), here.1, shadow.hidden.1]
    · exact shadow.hidden.1
  orderly := ⟨shadow.orderly.1.apply _, shadow.orderly.2⟩
  forest := shadow.forest.apply shadow.orderly.1 _
  sections x outside := by
    rw [outside_change shadow.orderly.1] at outside
    have apart := shadow.orderly.1.ne_of_outside above outside
    rw [rank_change shadow.orderly.1, get_change_of_ne apart, shadow.sections x outside]

theorem inner_changes {moves : List Move}
    (inner : ∀ move ∈ moves, ∃ b change, move = .change b change ∧ d.Above c b ∧
      (b = c → ∀ value, change ≠ .setVisible value)) :
    Shadow c first (d.after moves) e := by
  induction moves generalizing d with
  | nil => exact shadow
  | cons move rest ih =>
    obtain ⟨b, change, rfl, above, keeps⟩ := inner _ List.mem_cons_self
    refine ih (shadow.inner_change above change keeps) fun other member => ?_
    rw [above_change]
    exact inner other (List.mem_cons_of_mem _ member)

theorem renumber_nest {b : Nat} (x : Nat) :
    (d.get x).renumber (((Move.nest b).apply d).rank c first) =
      (d.get x).renumber (d.rank c first) :=
  Section.renumber_congr fun child held =>
    rank_after shadow.orderly.1 [.nest b] (Nat.le_of_lt (shadow.orderly.1.order x child held).2)

theorem inner_nest {b : Nat} (there : b < d.size) (above : d.Above c b) :
    Shadow c first ((Move.nest b).apply d) e where
  unit := by rw [unit_apply, shadow.unit]
  size := by
    -- The new section is one of the branch, so it takes no number from those outside.
    have new : ¬ ((Move.nest b).apply d).Outside c d.size := by
      rw [outside_nest_new there shadow.orderly.1 shadow.lt_size]
      exact shadow.orderly.1.not_outside above
    have begun := shadow.begun
    rw [size_nest there, rank_succ, if_neg (by simp [new, begun]), shadow.size]
    exact (rank_after shadow.orderly.1 [.nest b] (Nat.le_refl _)).symm
  begun := Nat.le_trans shadow.begun (size_le_apply _ d)
  inside := shadow.inside
  hidden := by
    refine ⟨?_, shadow.hidden.2⟩
    rw [get_nest there, if_neg (Nat.ne_of_lt shadow.lt_size)]
    split
    · rename_i here
      rw [here]
      exact shadow.hidden.1
    · exact shadow.hidden.1
  orderly := ⟨shadow.orderly.1.apply _, shadow.orderly.2⟩
  forest := shadow.forest.apply shadow.orderly.1 _
  sections x outside := by
    have old : x < d.size := by
      have held := outside.1
      rw [size_nest there] at held
      refine Nat.lt_of_le_of_ne (Nat.le_of_lt_succ held) fun new => ?_
      rw [new, outside_nest_new there shadow.orderly.1 shadow.lt_size] at outside
      exact shadow.orderly.1.not_outside above outside
    rw [outside_nest there shadow.orderly.1 old] at outside
    have apart := shadow.orderly.1.ne_of_outside above outside
    have sameRank : ((Move.nest b).apply d).rank c first x = d.rank c first x :=
      rank_after shadow.orderly.1 [.nest b] (Nat.le_of_lt old)
    rw [sameRank, get_nest_of_ne there apart (Nat.ne_of_lt old), shadow.renumber_nest,
      shadow.sections x outside]

/-! What is done outside is done in both documents. -/

theorem outer_change {b : Nat} (outside : d.Outside c b) (change : Section.Change) :
    Shadow c first ((Move.change b change).apply d)
      ((Move.change (d.rank c first b) change).apply e) where
  unit := by rw [unit_apply, unit_apply, shadow.unit]
  size := by rw [rank_change shadow.orderly.1, size_change, size_change, shadow.size]
  begun := by rw [size_change]; exact shadow.begun
  inside := shadow.inside
  hidden := by
    rw [get_change_of_ne (shadow.ne_self outside).symm,
      get_change_of_ne (shadow.self_ne_rank outside).symm]
    exact shadow.hidden
  orderly := ⟨shadow.orderly.1.apply _, shadow.orderly.2.apply _⟩
  forest := shadow.forest.apply shadow.orderly.1 _
  sections x also := by
    rw [outside_change shadow.orderly.1] at also
    rw [rank_change shadow.orderly.1]
    by_cases here : b = x
    · subst here
      rw [get_change_self outside.1, get_change_self (shadow.rank_lt_size outside),
        shadow.sections b outside, Section.apply_renumber]
    · rw [get_change_of_ne here, get_change_of_ne (rank_ne outside also here), shadow.sections x also]

theorem outer_nest {b : Nat} (outside : d.Outside c b) :
    Shadow c first ((Move.nest b).apply d) ((Move.nest (d.rank c first b)).apply e) := by
  have there := outside.1
  have also := shadow.rank_lt_size outside
  have kept {x : Nat} (old : x ≤ d.size) :
      ((Move.nest b).apply d).rank c first x = d.rank c first x :=
    rank_after shadow.orderly.1 [.nest b] old
  -- The new section has the last number in either document, and the two numbers belong together.
  have new : ((Move.nest b).apply d).rank c first d.size = e.size :=
    (kept (Nat.le_refl _)).trans shadow.size.symm
  refine ⟨by rw [unit_apply, unit_apply, shadow.unit], ?_,
    Nat.le_trans shadow.begun (size_le_apply _ d), shadow.inside, ?_,
    ⟨shadow.orderly.1.apply _, shadow.orderly.2.apply _⟩,
    shadow.forest.apply shadow.orderly.1 _, fun x beyond => ?_⟩
  · have counts := (outside_nest_new there shadow.orderly.1 shadow.lt_size).2 outside
    rw [size_nest there, size_nest also, rank_succ, if_pos (.inr counts), new]
  · have before : c < e.size := by
      have counted : d.rank c first c < d.rank c first d.size :=
        rank_lt (.inl shadow.inside) shadow.lt_size
      rwa [shadow.rank_self, ← shadow.size] at counted
    rw [get_nest_of_ne there (shadow.ne_self outside).symm (Nat.ne_of_lt shadow.lt_size),
      get_nest_of_ne also (shadow.self_ne_rank outside).symm (Nat.ne_of_lt before)]
    exact shadow.hidden
  · have held := beyond.1
    rw [size_nest there] at held
    obtain old | rfl := Nat.lt_or_eq_of_le (Nat.le_of_lt_succ held)
    · rw [outside_nest there shadow.orderly.1 old] at beyond
      rw [kept (Nat.le_of_lt old)]
      by_cases here : b = x
      · subst here
        rw [get_nest_self there, get_nest_self also, shadow.sections b outside,
          ← Section.place_renumber, shadow.renumber_nest, new]
      · rw [get_nest_of_ne there here (Nat.ne_of_lt old), get_nest_of_ne also
            (rank_ne outside beyond here) (Nat.ne_of_lt (shadow.rank_lt_size beyond)),
          shadow.renumber_nest, shadow.sections x beyond]
    · rw [new, get_nest_new there, get_nest_new also, shadow.sections b outside]
      rfl

theorem outer_changes {b : Nat} (outside : d.Outside c b) (changes : List Section.Change) :
    Shadow c first (d.after (changes.map (.change b)))
      (e.after (changes.map (.change (d.rank c first b)))) := by
  induction changes generalizing d e with
  | nil => exact shadow
  | cons change rest ih =>
    have next := ih (shadow.outer_change outside change)
      ((outside_change shadow.orderly.1 b change c b).2 outside)
    rwa [rank_change shadow.orderly.1] at next

theorem commit_self : Shadow c first ((Move.change c .commit).apply d) ((Move.change c .commit).apply e) := by
  have one := shadow.inner_change .refl .commit fun _ => nofun
  refine { one with unit := by rw [unit_apply, one.unit], hidden := ⟨one.hidden.1, ?_⟩, orderly := ⟨one.orderly.1, one.orderly.2.apply _⟩,
                    size := by rw [size_change, one.size], sections := fun x outside => ?_ }
  · rw [get_change]
    split
    · exact (Section.commit_visible _).trans one.hidden.2
    · exact one.hidden.2
  · rw [get_change_of_ne (one.self_ne_rank outside), one.sections x outside]

theorem outer_commits {sections : List Nat} (outer : ∀ x ∈ sections, x = c ∨ d.Outside c x) :
    Shadow c first (d.after (commits sections))
      (e.after (commits (sections.map (d.rank c first)))) := by
  induction sections generalizing d e with
  | nil => exact shadow
  | cons x rest ih =>
    have next : Shadow c first ((Move.change x .commit).apply d)
        ((Move.change (d.rank c first x) .commit).apply e) := by
      obtain rfl | outside := outer x List.mem_cons_self
      · rw [shadow.rank_self]
        exact shadow.commit_self
      · exact shadow.outer_change outside .commit
    have later := ih next fun y member => by
      rw [outside_change shadow.orderly.1]
      exact outer y (List.mem_cons_of_mem _ member)
    rwa [rank_change shadow.orderly.1] at later

/-! A render outside prints the same, and comes to the same sections. -/

theorem lines_rank {b : Nat} (outside : d.Outside c b) : e.lines (d.rank c first b) = d.lines b := by
  rw [shadow.orderly.1.lines_eq, shadow.orderly.2.lines_eq, shadow.sections b outside,
    Section.content_renumber, List.flatMap_map]
  refine if_congr Iff.rfl (List.flatMap_congr fun fragment inside => ?_) rfl
  cases fragment with
  | line l => rfl
  | nested child =>
    have held : d.Holds b child := Section.nested_mem_content.1 inside
    have later := shadow.orderly.1.order b child held
    obtain rfl | below := shadow.forest.outside_child shadow.orderly.1 outside held
    · change e.lines (d.rank child first child) = d.lines child
      rw [shadow.rank_self, lines_of_hidden shadow.hidden.1, lines_of_hidden shadow.hidden.2]
    · exact lines_rank below
termination_by d.size - b

theorem walk_rank {b : Nat} (outside : d.Outside c b) :
    e.walk (d.rank c first b) = (d.walk b).map (d.rank c first) := by
  rw [shadow.orderly.1.walk_eq, shadow.orderly.2.walk_eq, shadow.sections b outside,
    Section.content_renumber, List.flatMap_map, List.map_cons, apply_ite (List.map _), List.map_flatMap]
  refine congrArg _ (if_congr Iff.rfl (List.flatMap_congr fun fragment inside => ?_) rfl)
  cases fragment with
  | line l => rfl
  | nested child =>
    have held : d.Holds b child := Section.nested_mem_content.1 inside
    have later := shadow.orderly.1.order b child held
    obtain rfl | below := shadow.forest.outside_child shadow.orderly.1 outside held
    · change e.walk (d.rank child first child) = (d.walk child).map (d.rank child first)
      rw [shadow.rank_self, walk_of_hidden shadow.hidden.1, walk_of_hidden shadow.hidden.2]
      exact congrArg (fun x => [x]) shadow.rank_self.symm
    · exact walk_rank below
termination_by d.size - b

theorem mem_walk {b x : Nat} (outside : d.Outside c b) (inside : x ∈ d.walk b) :
    x = c ∨ d.Outside c x := by
  have reaches := shadow.orderly.1.mem_walk.1 inside
  induction reaches with
  | here => exact .inr outside
  | @through b child x visible held reaches ih =>
    obtain rfl | below := shadow.forest.outside_child shadow.orderly.1 outside held
    · -- The render comes to the hidden section, but no further.
      cases reaches with
      | here => exact .inl rfl
      | through visible => exact absurd visible (by simp [shadow.hidden.1])
    · exact ih below (shadow.orderly.1.mem_walk.2 reaches)

theorem inner {b : Nat} (above : d.Above c b) {action : Action}
    (keeps : b = c → ∀ value, action ≠ .command (.setVisible value)) :
    Shadow c first (d.after (action.moves b d)) e := by
  have commits : Shadow c first (d.after (commits (d.walk b))) e := by
    refine shadow.inner_changes fun move member => ?_
    obtain ⟨x, inside, rfl⟩ := List.mem_map.1 member
    exact ⟨x, .commit, rfl, above.trans (shadow.orderly.1.mem_walk.1 inside).above, fun _ => nofun⟩
  cases action with
  | command command =>
    refine shadow.inner_changes fun move member => ?_
    rw [Action.moves, on] at member
    split at member
    · obtain ⟨change, inside, rfl⟩ := List.mem_map.1 member
      exact ⟨b, change, rfl, above, fun here => Command.course_visible
        (fun value shows => keeps here value (congrArg Action.command shows)) _ change inside⟩
    · cases member
  | nest =>
    rw [Action.moves]
    split
    · rename_i there
      have committed := shadow.inner_change above .commit fun _ => nofun
      exact committed.inner_nest (by rwa [size_change]) (by rwa [above_change])
    · exact shadow
  | render ambient => exact commits
  | text => exact commits
  | statuses => exact shadow

section Outer

variable {b : Nat} (outside : d.Outside c b)
include outside

theorem outer (action : Action) :
    Shadow c first (d.after (action.moves b d))
      (e.after (action.moves (d.rank c first b) e)) := by
  have commits : Shadow c first (d.after (commits (d.walk b)))
      (e.after (commits (e.walk (d.rank c first b)))) := by
    rw [shadow.walk_rank outside]
    exact shadow.outer_commits fun x inside => shadow.mem_walk outside inside
  cases action with
  | command command =>
    rw [Action.moves, Action.moves, on, on, if_pos outside.1, if_pos (shadow.rank_lt_size outside),
      shadow.depth outside]
    exact shadow.outer_changes outside _
  | nest =>
    rw [Action.moves, Action.moves, if_pos outside.1, if_pos (shadow.rank_lt_size outside)]
    have committed := shadow.outer_change outside .commit
    have next := committed.outer_nest ((outside_change shadow.orderly.1 b .commit c b).2 outside)
    rwa [rank_change shadow.orderly.1] at next
  | render ambient => exact commits
  | text => exact commits
  | statuses => exact shadow

theorem fault (action : Action) : action.fault (d.rank c first b) e = action.fault b d := by
  cases action <;> simp only [Action.fault, shadow.depth outside]

theorem reply {action : Action} (one : action ≠ .statuses) :
    action.reply (d.rank c first b) e =
      (action.reply b d).renumber ((d.after (action.moves b d)).rank c first) := by
  have next := shadow.outer outside action
  have kept {x : Nat} (old : x ≤ d.size) :
      (d.after (action.moves b d)).rank c first x = d.rank c first x :=
    rank_after shadow.orderly.1 _ old
  cases action with
  | command command =>
    have left := (outside_after shadow.orderly.1 ((Action.command command).moves b d) outside.1).2 outside
    -- The reply is read off the section as it is after the command, which `next` compares.
    have same := next.sections b left
    rw [kept (Nat.le_of_lt outside.1), Action.moves, Action.moves, after_on, after_on,
      get_put_self outside.1, get_put_self (shadow.rank_lt_size outside)] at same
    rw [Action.reply, Action.reply, same, Command.reply_renumber, Action.moves, after_on]
  | nest =>
    have there : b < ((Move.change b .commit).apply d).size := by rw [size_change]; exact outside.1
    have new : (d.after (Action.nest.moves b d)).Outside c d.size := by
      have counts := outside_nest_new there (shadow.orderly.1.apply _)
        (c := c) (by rw [size_change]; exact shadow.lt_size)
      rw [size_change, outside_change shadow.orderly.1] at counts
      rw [Action.moves, if_pos outside.1]
      exact counts.2 outside
    have same := next.sections d.size new
    rw [kept (Nat.le_refl _), ← shadow.size] at same
    simp only [Action.reply, Reply.renumber, kept (Nat.le_refl _), ← shadow.size, Document.status, same,
      Section.status_renumber]
    rfl
  | render ambient => rw [Action.reply, Action.reply, shadow.unit, shadow.lines_rank outside]; rfl
  | text => rw [Action.reply, Action.reply, shadow.unit, shadow.lines_rank outside]; rfl
  | statuses => exact absurd rfl one

theorem answer {action : Action} (one : action ≠ .statuses) :
    (action.answer (d.rank c first b) e).1 =
      (action.answer b d).1.renumber ((action.answer b d).2.rank c first) := by
  have left := (outside_after shadow.orderly.1 (action.moves b d) outside.1).2 outside
  have status := (shadow.outer outside action).status left
  rw [rank_after shadow.orderly.1 _ (Nat.le_of_lt outside.1)] at status
  rw [(action.answer_eq b shadow.orderly.1).1, action.answer_eq_act _ shadow.orderly.1,
    action.answer_eq_act _ shadow.orderly.2, shadow.fault outside, status, Answer.renumber]
  cases action.fault b d with
  | none => exact congrArg (Answer.act _ <| .ok ·) (shadow.reply outside one)
  | some fault => rfl

end Outer

end Shadow

end Document

namespace Work

/-- No action lists the statuses of all sections, none shows or hides section `c`, and the section of
each is there by then. -/
def Discreet (c : Nat) : Nat → Work → Prop
  | _, [] => True
  | size, (b, action) :: rest =>
    b < size ∧ action ≠ .statuses ∧ (b = c → ∀ value, action ≠ .command (.setVisible value)) ∧
      Discreet c (action.grow size) rest

/-- The work outside section `c`, for the numbers that the sections would have without those begun in
`c` since there were `first`. -/
def outside (c first : Nat) : Document → Work → Work
  | _, [] => []
  | d, (b, action) :: rest =>
    let later := outside c first (action.answer b d).2 rest
    if d.Outside c b then (d.rank c first b, action) :: later else later

def answersOutside (c first : Nat) : Document → Work → List Answer
  | _, [] => []
  | d, (b, action) :: rest =>
    let next := action.answer b d
    let later := answersOutside c first next.2 rest
    if d.Outside c b then next.1.renumber (next.2.rank c first) :: later else later

section

variable {c first b : Nat} {d : Document} (action : Action) (rest : Work)

theorem outside_of_outside (there : d.Outside c b) {x : Nat} (ranked : d.rank c first b = x) :
    outside c first d ((b, action) :: rest) =
      (x, action) :: outside c first (action.answer b d).2 rest := by
  rw [outside, if_pos there, ranked]

theorem outside_of_inside (there : ¬ d.Outside c b) :
    outside c first d ((b, action) :: rest) = outside c first (action.answer b d).2 rest := by
  rw [outside, if_neg there]

end

end Work

namespace Document

theorem Orderly.size_answer {d : Document} (orderly : d.Orderly) (action : Action) {b : Nat}
    (inside : b < d.size) : (action.answer b d).2.size = action.grow d.size := by
  cases action with
  | command | nest => exact Action.size_answer rfl inside
  | render | text =>
    rw [(Action.answer_eq b _ orderly).1]
    exact (sameContent_commits d _).size
  | statuses => rfl

theorem Shadow.run {c first : Nat} {d e : Document} (shadow : Shadow c first d e) {work : Work}
    (discreet : work.Discreet c d.size) :
    Shadow c first (Step.runAll work.steps d).2 (Step.runAll (work.outside c first d).steps e).2 ∧
      (Step.runAll (work.outside c first d).steps e).1 = work.answersOutside c first d := by
  induction work generalizing d e with
  | nil => exact ⟨shadow, rfl⟩
  | cons step rest ih =>
    obtain ⟨b, action⟩ := step
    obtain ⟨there, one, keeps, later⟩ := discreet
    rw [← shadow.orderly.1.size_answer action there] at later
    rw [Work.runAll_cons, Work.answersOutside]
    by_cases outside : d.Outside c b
    · have next : Shadow c first (action.answer b d).2 (action.answer (d.rank c first b) e).2 := by
        rw [(action.answer_eq b shadow.orderly.1).1, (action.answer_eq _ shadow.orderly.2).1]
        exact shadow.outer outside action
      obtain ⟨final, answers⟩ := ih next later
      rw [Work.outside_of_outside _ _ outside rfl, if_pos outside, Work.runAll_cons]
      exact ⟨final, List.cons_eq_cons.2 ⟨shadow.answer outside one, answers⟩⟩
    · have above : d.Above c b := by
        by_contra apart
        exact outside (shadow.orderly.1.outside_iff.2 ⟨there, apart⟩)
      have next : Shadow c first (action.answer b d).2 e := by
        rw [(action.answer_eq b shadow.orderly.1).1]
        exact shadow.inner above keeps
      rw [Work.outside_of_inside _ _ outside, if_neg outside]
      exact ih next later

theorem Reachable.shadow {start : Document} (reached : start.Reachable) {c : Nat}
    (hidden : (start.get c).visible = false) : Shadow c start.size start start := by
  have inside : c < start.size := by
    by_contra beyond
    rw [get_of_size_le (Nat.le_of_not_lt beyond)] at hidden
    cases hidden
  have same {b : Nat} (old : b ≤ start.size) : start.rank c start.size b = b := rank_of_le old
  refine ⟨rfl, (same (Nat.le_refl _)).symm, Nat.le_refl _, inside, ⟨hidden, hidden⟩,
    ⟨reached.orderly, reached.orderly⟩, reached.forest, fun b outside => ?_⟩
  rw [same (Nat.le_of_lt outside.1), Section.renumber_self]
  exact fun child held => same (Nat.le_of_lt (reached.orderly.order b child held).2)

/-- Sections that were there in the beginning are outside in both runs or in neither, and later ones
have their counterparts by the numbers without the branch. -/
theorem exists_counterpart {start e : Document} (orderly : start.Orderly) {c : Nat}
    {moves others : List Move} (one : Shadow c start.size (start.after moves) e)
    (two : Shadow c start.size (start.after others) e) {b : Nat}
    (outside : (start.after moves).Outside c b) :
    ∃ other, (start.after others).Outside c other ∧
      (start.after others).rank c start.size other = (start.after moves).rank c start.size b := by
  by_cases old : b < start.size
  · rw [outside_after orderly moves old] at outside
    refine ⟨b, (outside_after orderly others old).2 outside, ?_⟩
    rw [rank_of_le (Nat.le_of_lt old), rank_of_le (Nat.le_of_lt old)]
  · have below := one.rank_lt_size outside
    rw [two.size] at below
    obtain ⟨other, -, early | also, same⟩ := exists_rank below
    · -- An old number is none of a later section.
      have least : start.size ≤ (start.after moves).rank c start.size b := by
        have mono : (start.after moves).rank c start.size start.size ≤
            (start.after moves).rank c start.size b := rank_mono (Nat.le_of_not_lt old)
        rwa [rank_of_le (Nat.le_refl _)] at mono
      rw [rank_of_le (Nat.le_of_lt early)] at same
      omega
    · exact ⟨other, also, same⟩

/-- Two lists of work that are the same outside a hidden section are answered the same outside of it,
and leave what prints the same there; all up to the numbers of the new sections. What is printed would
be the same if the hidden section had no place. -/
theorem hidden_unobservable {start : Document} (reached : start.Reachable) {c : Nat}
    (hidden : (start.get c).visible = false) {work other : Work}
    (discreet : work.Discreet c start.size) (also : other.Discreet c start.size)
    (same : work.outside c start.size start = other.outside c start.size start) :
    let first := (Step.runAll work.steps start).2
    let second := (Step.runAll other.steps start).2
    work.answersOutside c start.size start = other.answersOutside c start.size start ∧
      (∀ b, first.Outside c b → ∃ x, second.Outside c x ∧
        second.rank c start.size x = first.rank c start.size b) ∧
      ∀ b x, first.Outside c b → second.Outside c x →
        second.rank c start.size x = first.rank c start.size b →
          ∀ ambient, ∃ text, first.Prints b ambient text ∧ second.Prints x ambient text ∧
            (first.withoutPlace c).Prints b ambient text ∧
            (second.withoutPlace c).Prints x ambient text := by
  intro first second
  obtain ⟨one, answers⟩ := (reached.shadow hidden).run discreet
  obtain ⟨two, replies⟩ := (reached.shadow hidden).run also
  rw [← same] at two replies
  refine ⟨answers.symm.trans replies, fun b outside => ?_, fun b x outside beyond ranked ambient => ?_⟩
  · have orderly := reached.orderly
    rw [Step.runAll_eq _ orderly] at one two
    have found := exists_counterpart orderly one two (b := b)
    rw [← Step.runAll_eq _ orderly, ← Step.runAll_eq _ orderly] at found
    exact found outside
  · have unit : second.unit = first.unit := two.unit.symm.trans one.unit
    have lines : second.lines x = first.lines b := by
      rw [← two.lines_rank beyond, ← one.lines_rank outside, ranked]
    have leftOut {d : Document} (silent : (d.get c).visible = false) (y : Nat) :
        (d.withoutPlace c).lines y = d.lines y := lines_withoutPlace (lines_of_hidden silent) y
    have left := one.orderly.1
    have right := two.orderly.1
    exact ⟨_, left.prints_lines rfl rfl ambient, right.prints_lines unit lines ambient,
      (left.withoutPlace c).prints_lines (unit_withoutPlace c first) (leftOut one.hidden.1 b) ambient,
      (right.withoutPlace c).prints_lines ((unit_withoutPlace c second).trans unit)
        ((leftOut two.hidden.1 x).trans lines) ambient⟩

/-- One run begins a section in the hidden one, writes there, is refused and renders; the other does less
there, and later. The section begun outside has number 4 in the one and 3 in the other. -/
theorem hidden_unobservable_nested :
    let start := (Step.runAll [.act 0 .nest, .act 0 (.command (.writeLine "a")),
      .act 1 (.command (.setVisible false)), .act 0 .nest] (.new none)).2
    let work : Work := [(1, .nest), (3, .command (.writeLine "b")), (0, .nest),
      (1, .command .outdent), (4, .command (.write "c")), (1, .render 2), (0, .command .fragments)]
    let other : Work := [(0, .nest), (3, .command (.write "c")), (1, .command (.queueRow (.each [none]))),
      (0, .command .fragments), (1, .nest)]
    let first := (Step.runAll work.steps start).2
    let second := (Step.runAll other.steps start).2
    start.Reachable ∧ (start.get 1).visible = false ∧ work.Discreet 1 start.size ∧
      other.Discreet 1 start.size ∧ work.outside 1 start.size start = other.outside 1 start.size start ∧
      work.answersOutside 1 start.size start = other.answersOutside 1 start.size start ∧
      first.Outside 1 4 ∧ second.Outside 1 3 ∧
      second.rank 1 start.size 3 = first.rank 1 start.size 4 ∧
      ∃ text, first.Prints 4 1 text ∧ second.Prints 3 1 text ∧ (first.withoutPlace 1).Prints 4 1 text := by
  intro start work other first second
  have reached : start.Reachable := ⟨none, _, rfl⟩
  have size : start.size = 3 := rfl
  have discreet : work.Discreet 1 start.size := by
    simp [size, work, Work.Discreet, Action.grow, Action.isNest]
  have also : other.Discreet 1 start.size := by
    simp [size, other, Work.Discreet, Action.grow, Action.isNest]
  let both : Work := [(0, .nest), (3, .command (.write "c")), (0, .command .fragments)]
  have one : work.outside 1 start.size start = both := by
    rw [Work.outside_of_inside _ _ (by decide +kernel), Work.outside_of_inside _ _ (by decide +kernel),
      Work.outside_of_outside (x := 0) _ _ (by decide +kernel) (by decide +kernel),
      Work.outside_of_inside _ _ (by decide +kernel),
      Work.outside_of_outside (x := 3) _ _ (by decide +kernel) (by decide +kernel),
      Work.outside_of_inside _ _ (by decide +kernel),
      Work.outside_of_outside (x := 0) _ _ (by decide +kernel) (by decide +kernel), Work.outside]
  have two : other.outside 1 start.size start = both := by
    rw [Work.outside_of_outside (x := 0) _ _ (by decide +kernel) (by decide +kernel),
      Work.outside_of_outside (x := 3) _ _ (by decide +kernel) (by decide +kernel),
      Work.outside_of_inside _ _ (by decide +kernel),
      Work.outside_of_outside (x := 0) _ _ (by decide +kernel) (by decide +kernel),
      Work.outside_of_inside _ _ (by decide +kernel), Work.outside]
  have same := one.trans two.symm
  have left : first.Outside 1 4 := by decide +kernel
  have right : second.Outside 1 3 := by decide +kernel
  have ranked : second.rank 1 start.size 3 = first.rank 1 start.size 4 := by decide +kernel
  obtain ⟨answers, -, prints⟩ := hidden_unobservable reached rfl discreet also same
  obtain ⟨text, here, there, without, -⟩ := prints 4 3 left right ranked 1
  exact ⟨reached, rfl, discreet, also, same, answers, left, right, ranked, text, here, there, without⟩

end Document

end IndentedText
