import IndentedText.Proofs.Rendering
import IndentedText.Proofs.Sectionwise

/-!
The indent unit is a matter of print alone. A script does the same whatever the unit, and what it prints
are the same texts at the same levels. A render some levels deeper has each of its lines that much deeper.
-/

namespace IndentedText

def printedIn (unit : String) (items : List (Nat × String)) : String :=
  String.join (items.map fun (n, text) => String.join (List.replicate n unit) ++ text ++ "\n")

def Line.item (ambient : Int) (line : Line) : Nat × String :=
  ((ambient + line.depth).toNat, line.text)

theorem Line.renderAll_eq_printedIn (unit : String) (ambient : Int) (lines : List Line) :
    Line.renderAll unit ambient lines = printedIn unit (lines.map (Line.item ambient)) := by
  rw [Document.renderAll_eq_join, printedIn, List.map_map]
  rfl

theorem Line.item_add {ambient : Int} (level : 0 ≤ ambient) (k : Nat) (line : Line) :
    line.item (ambient + k) = ((line.item ambient).1 + k, (line.item ambient).2) := by
  simp only [Line.item, Prod.mk.injEq, and_true]
  omega

/-- Replies that differ only in the unit: the same lines are printed with either, or it is named. -/
inductive Reply.Reprinted (u v : String) : Reply → Reply → Prop
  | same (reply : Reply) : Reprinted u v reply reply
  | printed (items : List (Nat × String)) :
      Reprinted u v (.text (printedIn u items)) (.text (printedIn v items))
  | named (child : Nat) (status : Status) : Reprinted u v (.nested child u status) (.nested child v status)

namespace Section

variable (s : Section) (unit : String)

theorem apply_withUnit (change : Change) :
    change.apply { s with unit } = { change.apply s with unit } := by
  cases change with
  | commit => cases pending : s.pending <;> simp [Change.apply, commit, commitRows, pending]
  | _ => rfl

theorem after_withUnit (changes : List Change) :
    ({ s with unit } : Section).after changes = { s.after changes with unit } := by
  induction changes generalizing s with
  | nil => rfl
  | cons change rest ih => rw [after_cons, apply_withUnit, ih, after_cons]

end Section

theorem Command.reply_withUnit (c : Command) (s : Section) (unit : String) :
    c.reply { s with unit } = c.reply s := by
  cases c <;> rfl

namespace Document

/-- The documents have the one unit and the other, and are the same but for that. -/
structure InUnits (u v : String) (d e : Document) : Prop where
  first : d.Orderly ∧ d.unit = u
  second : e.Orderly ∧ e.unit = v
  size : e.size = d.size
  sections : ∀ b, ∃ unit, e.get b = { d.get b with unit }

namespace InUnits

variable {u v : String} {d e : Document} (same : InUnits u v d e)
include same

theorem status (b : Nat) : e.status b = d.status b := by
  obtain ⟨unit, held⟩ := same.sections b
  rw [Document.status, held]
  rfl

theorem depth (b : Nat) : (e.get b).depth = (d.get b).depth :=
  congrArg Status.depth (same.status b)

theorem content (b : Nat) : (e.get b).content = (d.get b).content := by
  obtain ⟨unit, held⟩ := same.sections b
  rw [held]
  rfl

theorem visible (b : Nat) : (e.get b).visible = (d.get b).visible := by
  obtain ⟨unit, held⟩ := same.sections b
  rw [held]

theorem lines (b : Nat) : e.lines b = d.lines b :=
  lines_congr same.size same.content same.visible b

theorem walk (b : Nat) : e.walk b = d.walk b :=
  walk_congr same.size same.content same.visible b

theorem map_sections : e.sections = d.sections.map fun s => { s with unit := v } := by
  refine List.ext_getElem (by simpa [Document.size] using same.size) fun b inside held => ?_
  obtain ⟨unit, here⟩ := same.sections b
  have named := (same.second.1.unit b inside).trans same.second.2
  rw [here] at named
  rw [List.getElem_map, getElem_sections, getElem_sections, here, ← named]

theorem apply (move : Move) : InUnits u v (move.apply d) (move.apply e) := by
  refine ⟨⟨same.first.1.apply move, (unit_apply move d).trans same.first.2⟩,
    ⟨same.second.1.apply move, (unit_apply move e).trans same.second.2⟩, ?_, fun x => ?_⟩
  · cases move with
    | change b c => simp [same.size]
    | nest b =>
      by_cases inside : b < d.size
      · rw [size_nest inside, size_nest (by rwa [same.size]), same.size]
      · rw [Move.apply_nest_of_size_le (Nat.le_of_not_lt inside),
          Move.apply_nest_of_size_le (by rw [same.size]; exact Nat.le_of_not_lt inside), same.size]
  · cases move with
    | change b c =>
      rw [get_change, get_change, same.size]
      split
      · obtain ⟨unit, held⟩ := same.sections b
        exact ⟨unit, by rw [held, Section.apply_withUnit]⟩
      · exact same.sections x
    | nest b =>
      by_cases inside : b < d.size
      · rw [get_nest inside, get_nest (by rwa [same.size]), same.size]
        obtain ⟨unit, held⟩ := same.sections b
        split
        · exact ⟨unit, by rw [held]; rfl⟩
        · split
          · exact ⟨unit, by rw [held]; rfl⟩
          · exact same.sections x
      · rw [Move.apply_nest_of_size_le (Nat.le_of_not_lt inside),
          Move.apply_nest_of_size_le (by rw [same.size]; exact Nat.le_of_not_lt inside)]
        exact same.sections x

theorem reply_nest (b : Nat) :
    Reply.Reprinted u v (Action.nest.reply b d) (Action.nest.reply b e) := by
  by_cases inside : b < d.size
  · have there : b < e.size := by rwa [same.size]
    have reserved {f : Document} (held : b < f.size) :
        Action.nest.reply b f = .nested f.size (f.get b).unit (f.get b).child.status := by
      have new := get_reserve_new held
      simp only [Action.reply, Action.moves, if_pos held]
      simp only [reserve] at new
      simp only [Document.status, new, Section.child_unit]
    have child : (e.get b).child.status = (d.get b).child.status := by
      obtain ⟨unit, held⟩ := same.sections b
      rw [held]
      rfl
    rw [reserved inside, reserved there, same.size, child, same.first.1.unit b inside, same.first.2,
      same.second.1.unit b there, same.second.2]
    exact .named _ _
  -- No section is begun where there is none to hold it.
  · have none {f : Document} (beyond : ¬ b < f.size) :
        Action.nest.reply b f = .nested f.size ({} : Section).unit ({} : Section).status := by
      simp only [Action.reply, Action.moves, if_neg beyond, after_nil, Document.status,
        get_of_size_le (Nat.le_refl _)]
    rw [none inside, none (by rwa [same.size]), same.size]
    exact .same _

theorem reply (b : Nat) (action : Action) :
    Reply.Reprinted u v (action.reply b d) (action.reply b e) := by
  have printed (ambient : Int) :
      Reply.Reprinted u v (.text (Line.renderAll d.unit ambient (d.lines b)))
        (.text (Line.renderAll e.unit ambient (e.lines b))) := by
    simp only [Line.renderAll_eq_printedIn, same.lines, same.first.2, same.second.2]
    exact .printed _
  cases action with
  | command c =>
    obtain ⟨unit, held⟩ := same.sections b
    simp only [Action.reply, held, Section.after_withUnit, Command.reply_withUnit]
    exact .same _
  | nest => exact same.reply_nest b
  | render ambient => exact printed ambient
  | text => exact printed 0
  | statuses =>
    simp only [Action.reply, map_status, same.size, funext same.status]
    exact .same _

end InUnits

theorem likeness_inUnits (u v : String) : Likeness (InUnits u v) (Reply.Reprinted u v) where
  first same := same.first.1
  second same := same.second.1
  size same := same.size
  status same := same.status
  walk same := same.walk
  reply same := same.reply
  apply same := same.apply

/-- With any two units a script makes the same moves, with the same sections at each point of the run, and
is answered the same, but that either prints with its own. What is printed of a section are the same
texts at the same levels, and if the render is asked for some levels deeper, at levels that much deeper. -/
theorem unit_only_printed (u v : Option String) (steps : List Step) :
    let first := Step.runAll steps (new u)
    let second := Step.runAll steps (new v)
    let moves := Step.allMoves steps (new u)
    let unit := u.getD "   "
    let other := v.getD "   "
    (∀ front, front <+: steps → Step.allMoves front (new u) <+: moves ∧
      (Step.runAll front (new u)).2 = (new u).after (Step.allMoves front (new u)) ∧
      (Step.runAll front (new v)).2 = (new v).after (Step.allMoves front (new u))) ∧
    (∀ front, front <+: moves → ((new v).after front).sections =
      ((new u).after front).sections.map fun s => { s with unit := other }) ∧
    List.Forall₂ (Answer.Alike (Reply.Reprinted unit other)) first.1 second.1 ∧
    ∀ (b : Nat) (ambient : Int), ∃ items : List (Nat × String),
      first.2.Prints b ambient (printedIn unit items) ∧
      second.2.Prints b ambient (printedIn other items) ∧
      (0 ≤ ambient → ∀ k : Nat,
        let deeper := items.map fun (n, text) => (n + k, text)
        first.2.Prints b (ambient + k) (printedIn unit deeper) ∧
          second.2.Prints b (ambient + k) (printedIn other deeper)) := by
  intro first second moves unit other
  have like := likeness_inUnits unit other
  have start : InUnits unit other (new u) (new v) := by
    refine ⟨⟨orderly_new u, rfl⟩, ⟨orderly_new v, rfl⟩, rfl, fun b => ?_⟩
    cases b <;> exact ⟨_, rfl⟩
  have runs (front : List Step) :
      (Step.runAll front (new u)).2 = (new u).after (Step.allMoves front (new u)) ∧
        (Step.runAll front (new v)).2 = (new v).after (Step.allMoves front (new u)) :=
    ⟨Step.runAll_eq front (orderly_new u), by
      rw [Step.runAll_eq front (orderly_new v), (like.all front start).1]⟩
  have same : InUnits unit other first.2 second.2 := by
    rw [(runs steps).1, (runs steps).2]
    exact like.after start moves
  refine ⟨fun front before => ⟨?_, runs front⟩, fun front _ => (like.after start front).map_sections,
    (like.all steps start).2, fun b ambient => ?_⟩
  · obtain ⟨back, rfl⟩ := before
    exact ⟨_, (Step.allMoves_append front back (new u)).symm⟩
  have prints (ambient : Int) :
      first.2.Prints b ambient (printedIn unit ((first.2.lines b).map (Line.item ambient))) ∧
        second.2.Prints b ambient (printedIn other ((first.2.lines b).map (Line.item ambient))) := by
    simp only [← Line.renderAll_eq_printedIn]
    exact ⟨same.first.1.prints_lines same.first.2 rfl ambient,
      same.second.1.prints_lines same.second.2 (same.lines b) ambient⟩
  refine ⟨_, (prints ambient).1, (prints ambient).2, fun level k => ?_⟩
  have deeper : (first.2.lines b).map (Line.item (ambient + k)) =
      ((first.2.lines b).map (Line.item ambient)).map fun (n, text) => (n + k, text) := by
    rw [List.map_map]
    exact List.map_congr_left fun line _ => line.item_add level k
  simp only [← deeper]
  exact prints (ambient + k)

theorem unit_only_printed_empty :
    let steps : List Step := [.indented 0 [.act 0 .nest, .act 1 (.command (.openBlock "a")), .act 0 .text,
      .act 0 (.command (.write "b"))], .act 0 (.command .outdent), .act 1 (.command (.writeLine "c"))]
    let first := Step.runAll steps (new (some ""))
    let second := Step.runAll steps (new none)
    let moves := Step.allMoves steps (new (some ""))
    let front := moves.take 6
    (steps.take 2 <+: steps ∧ Step.allMoves (steps.take 2) (new (some "")) <+: moves) ∧
      (front <+: moves ∧ ((new none).after front).sections =
        ((new (some "")).after front).sections.map fun s => { s with unit := "   " }) ∧
      (0 : Int) ≤ 1 ∧ ∃ items : List (Nat × String),
        second.2.Prints 0 1 (printedIn "   " items) ∧
          first.2.Prints 0 (1 + (2 : Nat)) (printedIn "" (items.map fun (n, text) => (n + 2, text))) := by
  intro steps first second moves front
  obtain ⟨runs, points, -, prints⟩ := unit_only_printed (some "") none steps
  have before : steps.take 2 <+: steps := List.take_prefix 2 _
  have point : front <+: moves := List.take_prefix 6 _
  obtain ⟨items, -, printed, deeper⟩ := prints 0 1
  exact ⟨⟨before, (runs _ before).1⟩, ⟨point, points front point⟩, by decide, items, printed,
    (deeper (by decide) 2).1⟩

end Document

end IndentedText
