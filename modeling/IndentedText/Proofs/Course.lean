import IndentedText.Proofs.Change
import IndentedText.Section.Writing

/-!
A course says which changes a write makes to its section and the fault that ends it, so a write is
known by its course and nobody looks inside it again.
-/

namespace IndentedText

/-- What a write does to its section: its changes in their order, and the fault that ended it. -/
structure Course where
  changes : List Section.Change
  fault : Option Fault := none

namespace Course

open Section

def andThen (course next : Course) : Course :=
  match course.fault with
  | none => ⟨course.changes ++ next.changes, next.fault⟩
  | some fault => ⟨course.changes, some fault⟩

/-- One level deeper, and out again whatever happens there. -/
def within (course : Course) : Course :=
  ⟨.indent :: course.changes ++ [.outdent], course.fault⟩

def stay : Course :=
  ⟨[], none⟩

def all (courses : List Course) : Course :=
  courses.foldr andThen stay

@[simp] theorem andThen_stay (course : Course) : course.andThen stay = course := by
  rcases course with ⟨_, _ | _⟩ <;> simp [andThen, stay]

theorem andThen_assoc (first second third : Course) :
    (first.andThen second).andThen third = first.andThen (second.andThen third) := by
  rcases first with ⟨_, _ | _⟩ <;> rcases second with ⟨_, _ | _⟩ <;> simp [andThen]

def line (text : String) : Course :=
  ⟨[.write text, .commit], none⟩

def openBlock (text : String) : Course :=
  (line text).andThen ⟨[.indent], none⟩

def outdent : Nat → Course
  | 0 => ⟨[], some (.belowZero 0)⟩
  | _ + 1 => ⟨[.outdent], none⟩

/-- The rows are committed even where the block cannot be closed. -/
def closeBlock (text : String) (depth : Nat) : Course :=
  andThen ⟨[.commitRows], none⟩ ((outdent depth).andThen (line text))

def turnBlock (text : String) (depth : Nat) : Course :=
  (closeBlock text depth).andThen ⟨[.indent], none⟩

end Course

theorem bind_of_ok {x : EStateM Fault σ α} {y : α → EStateM Fault σ β} {s t : σ} {value : α}
    (h : x s = .ok value t) : (x >>= y) s = y value t := by
  change EStateM.bind x y s = y value t
  simp [EStateM.bind, h]

theorem bind_of_error {x : EStateM Fault σ α} {y : α → EStateM Fault σ β} {s t : σ} {fault : Fault}
    (h : x s = .error fault t) : (x >>= y) s = .error fault t := by
  change EStateM.bind x y s = .error fault t
  simp [EStateM.bind, h]

theorem bind_eq_ok {x : EStateM Fault σ α} {y : α → EStateM Fault σ β} {s t : σ} {result : β}
    (h : (x >>= y) s = .ok result t) : ∃ value u, x s = .ok value u ∧ y value u = .ok result t := by
  cases run : x s with
  | ok value u => exact ⟨value, u, rfl, (bind_of_ok run).symm.trans h⟩
  | error fault u => cases (bind_of_error run).symm.trans h

namespace SectionM

open Section

/-- In section `s` the write takes the given course. -/
structure Takes (x : SectionM α) (s : Section) (course : Course) : Prop where
  ok : course.fault = none → ∃ value, x s = .ok value (s.after course.changes)
  error : ∀ fault, course.fault = some fault → x s = .error fault (s.after course.changes)

theorem Takes.of_ok {x : SectionM α} {s : Section} {value : α} {changes : List Change}
    (h : x s = .ok value (s.after changes)) : Takes x s ⟨changes, none⟩ :=
  ⟨fun _ => ⟨value, h⟩, nofun⟩

theorem Takes.of_error {x : SectionM α} {s : Section} {fault : Fault} {changes : List Change}
    (h : x s = .error fault (s.after changes)) : Takes x s ⟨changes, some fault⟩ :=
  ⟨nofun, fun _ same => by cases same; exact h⟩

theorem Takes.bind {x : SectionM α} {y : α → SectionM β} {s : Section} {first next : Course}
    (hx : Takes x s first)
    (hy : first.fault = none → ∀ value, Takes (y value) (s.after first.changes) next) :
    Takes (x >>= y) s (first.andThen next) := by
  unfold Course.andThen
  cases hf : first.fault with
  | none =>
    obtain ⟨value, run⟩ := hx.ok hf
    constructor
    · intro hnext
      simpa only [bind_of_ok run, after_append] using (hy hf value).ok hnext
    · intro fault hnext
      simpa only [bind_of_ok run, after_append] using (hy hf value).error fault hnext
  | some fault =>
    refine ⟨nofun, fun other h => ?_⟩
    cases h
    exact bind_of_error (hx.error fault hf)

theorem takes_pure (value : α) (s : Section) : Takes (pure value : SectionM α) s .stay :=
  .of_ok rfl

theorem takes_writeLine (text : String) (s : Section) : Takes (writeLine text) s (.line text) :=
  .of_ok rfl

theorem takes_queueRow (columns : Columns) (s : Section) :
    Takes (queueRow columns) s ⟨[.queueRow columns], none⟩ :=
  .of_ok rfl

theorem takes_forM (write : β → SectionM PUnit) (course : β → Course) (items : List β)
    (h : ∀ item s, Takes (write item) s (course item)) (s : Section) :
    Takes (items.forM write) s (.all (items.map course)) := by
  induction items generalizing s with
  | nil => exact takes_pure _ s
  | cons item rest ih => exact (h item s).bind fun _ _ => ih _

theorem takes_foldlM (write : γ → β → SectionM γ) (course : β → Course) (items : List β)
    (h : ∀ value item s, Takes (write value item) s (course item)) (value : γ) (s : Section) :
    Takes (items.foldlM write value) s (.all (items.map course)) := by
  induction items generalizing value s with
  | nil => exact takes_pure value s
  | cons item rest ih =>
    rw [List.foldlM_cons]
    exact (h value item s).bind fun _ next => ih next _

/-- Where each item adds what it gives, a loop returns what all of them give, in their order. -/
theorem value_of_foldlM (write : List γ → β → SectionM (List γ)) (gives : β → List γ)
    (h : ∀ known item s value t, write known item s = .ok value t → value = known ++ gives item)
    {items : List β} {known value : List γ} {s t : Section}
    (run : items.foldlM write known s = .ok value t) : value = known ++ items.flatMap gives := by
  induction items generalizing known s with
  | nil =>
    cases run
    simp
  | cons item rest ih =>
    rw [List.foldlM_cons] at run
    obtain ⟨next, u, first, later⟩ := bind_eq_ok run
    rw [ih later, h _ _ _ _ _ first, List.flatMap_cons, List.append_assoc]

theorem takes_writeLines (text : String) (s : Section) :
    Takes (writeLines text) s (.all ((Text.lines text).map .line)) := by
  have h (lines : List String) (s : Section) :
      (Course.all (lines.map .line)).fault = none ∧
        lines.foldl (fun s line => s.writeLine line) s =
          s.after (Course.all (lines.map .line)).changes := by
    induction lines generalizing s with
    | nil => exact ⟨rfl, rfl⟩
    | cons line rest ih => exact ⟨(ih s).1, (ih (s.writeLine line)).2⟩
  refine ⟨fun _ => ⟨(), ?_⟩, fun fault hf => ?_⟩
  · rw [← (h (Text.lines text) s).2]
    rfl
  · rw [(h (Text.lines text) s).1] at hf
    cases hf

theorem takes_openBlock (text : String) (s : Section) : Takes (openBlock text) s (.openBlock text) :=
  .of_ok rfl

theorem takes_outdent (s : Section) : Takes outdent s (.outdent s.depth) := by
  cases hs : s.depth with
  | zero =>
    refine .of_error ?_
    simp [outdent, hs]
  | succ depth =>
    have run : outdent s = .ok () (Change.outdent.apply s) := by
      simp [outdent, hs, Change.apply]
    exact .of_ok run

theorem takes_closeBlock (text : String) (s : Section) :
    Takes (closeBlock text) s (.closeBlock text s.depth) := by
  have rows : Takes commitRows s ⟨[.commitRows], none⟩ := .of_ok rfl
  exact rows.bind fun _ _ => (takes_outdent _).bind fun _ _ => takes_writeLine text _

theorem takes_turnBlock (text : String) (s : Section) :
    Takes (turnBlock text) s (.turnBlock text s.depth) :=
  (takes_closeBlock text s).bind fun _ _ => .of_ok rfl

theorem takes_outdent_inside {s : Section} (deep : 0 < s.depth) : Takes outdent s (.outdent 1) := by
  obtain ⟨depth, h⟩ := Nat.exists_eq_add_one.2 deep
  simpa [h, Course.outdent] using takes_outdent s

theorem takes_closeBlock_inside (text : String) {s : Section} (deep : 0 < s.depth) :
    Takes (closeBlock text) s (.closeBlock text 1) := by
  obtain ⟨depth, h⟩ := Nat.exists_eq_add_one.2 deep
  simpa [h, Course.closeBlock, Course.outdent] using takes_closeBlock text s

theorem takes_turnBlock_inside (text : String) {s : Section} (deep : 0 < s.depth) :
    Takes (turnBlock text) s (.turnBlock text 1) :=
  (takes_closeBlock_inside text deep).bind fun _ _ => .of_ok rfl

theorem outdent_of_deep {s : Section} (deep : 0 < s.depth) :
    outdent s = .ok () (Change.outdent.apply s) := by
  obtain ⟨depth, h⟩ := Nat.exists_eq_add_one.2 deep
  simp [outdent, Change.apply, h]

theorem indented_of_ok {x : SectionM α} {s t : Section} {value : α}
    (h : x s.indent = .ok value t) (deep : 0 < t.depth) :
    indented x s = .ok value (Change.outdent.apply t) := by
  change (Prod.fst <$> tryFinally' x fun _ => outdent : SectionM α) s.indent = _
  simp [tryFinally', Functor.map, EStateM.map, h, outdent_of_deep deep]

theorem indented_of_error {x : SectionM α} {s t : Section} {fault : Fault}
    (h : x s.indent = .error fault t) (deep : 0 < t.depth) :
    indented x s = .error fault (Change.outdent.apply t) := by
  change (Prod.fst <$> tryFinally' x fun _ => outdent : SectionM α) s.indent = _
  simp [tryFinally', Functor.map, EStateM.map, h, outdent_of_deep deep]

theorem takes_indented {x : SectionM α} {s : Section} {inner : Course}
    (hx : Takes x s.indent inner) (deep : 0 < (s.indent.after inner.changes).depth) :
    Takes (indented x) s inner.within := by
  have course : s.after inner.within.changes =
      Change.outdent.apply (s.indent.after inner.changes) := by
    simp [Course.within, Change.apply]
  constructor
  · intro hf
    obtain ⟨value, run⟩ := hx.ok hf
    exact ⟨value, course ▸ indented_of_ok run deep⟩
  · intro fault hf
    exact course ▸ indented_of_error (hx.error fault hf) deep

end SectionM

end IndentedText
