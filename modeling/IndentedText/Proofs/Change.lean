import IndentedText.Document.Lines

/-!
The changes that all writing comes down to, what each of them adds to a section, and what none of them
can do: nothing ever waits unless it is said to.
-/

namespace IndentedText

namespace Section

/-- The smallest changes to a section. Text is written and committed in two changes, because a line
has the depth that holds when it is committed. -/
inductive Change where
  | write (text : String)
  | queueRow (columns : Columns)
  | commitRows
  | commit
  | indent
  | outdent
  | setVisible (value : Bool)
  | setVisibleIfEmpty (value : Bool)
  deriving DecidableEq

def Change.apply : Change → Section → Section
  | write text, s => s.write text
  | queueRow columns, s => s.queueRow columns
  | commitRows, s => s.commitRows
  | commit, s => s.commit
  | indent, s => s.indent
  | outdent, s => { s with depth := s.depth - 1 }
  | setVisible value, s => { s with visible := value }
  | setVisibleIfEmpty value, s => { s with visibleIfEmpty := value }

def after (s : Section) (changes : List Change) : Section :=
  changes.foldl (fun s change => change.apply s) s

@[simp] theorem after_nil (s : Section) : s.after [] = s := rfl

@[simp] theorem after_cons (s : Section) (change : Change) (rest : List Change) :
    s.after (change :: rest) = (change.apply s).after rest := rfl

@[simp] theorem after_append (s : Section) (changes others : List Change) :
    s.after (changes ++ others) = (s.after changes).after others :=
  List.foldl_append ..

def Change.isPlain : Change → Bool
  | setVisible _ | setVisibleIfEmpty _ => false
  | _ => true

theorem visible_apply (change : Change) (h : ∀ value, change ≠ .setVisible value) (s : Section) :
    (change.apply s).visible = s.visible := by
  cases change with
  | commit => cases hp : s.pending <;> simp [Change.apply, commit, commitRows, hp]
  | setVisible value => exact absurd rfl (h value)
  | _ => rfl

@[simp] theorem unit_apply (change : Change) (s : Section) : (change.apply s).unit = s.unit := by
  cases change with
  | commit => cases h : s.pending <;> simp [Change.apply, commit, commitRows, h]
  | _ => rfl

/-- The fragments that a change adds to the committed ones. No change takes any away. -/
def Change.added : Change → Section → List Fragment
  | commitRows, s => s.rowLines
  | commit, s => s.rowLines ++ s.rawLines
  | _, _ => []

theorem fragments_apply (change : Change) (s : Section) :
    (change.apply s).fragments = s.fragments ++ change.added s := by
  cases change with
  | commit => simp [Change.apply, Change.added, content]
  | commitRows => rfl
  | _ => simp [Change.apply, Change.added, write, queueRow, indent]

theorem nested_notMem_added (change : Change) (s : Section) (child : Nat) :
    .nested child ∉ change.added s := by
  cases change <;> simp [Change.added, rowLines, rawLines]

theorem nested_mem_apply (change : Change) {s : Section} {child : Nat} :
    .nested child ∈ (change.apply s).fragments ↔ .nested child ∈ s.fragments := by
  simp [fragments_apply, nested_notMem_added]

theorem nested_mem_content {s : Section} {child : Nat} :
    .nested child ∈ s.content ↔ .nested child ∈ s.fragments := by
  rw [← commit_fragments]
  exact nested_mem_apply .commit

@[simp] theorem commit_depth (s : Section) : s.commit.depth = s.depth := by
  cases h : s.pending <;> simp [commit, commitRows, h]

@[simp] theorem commit_unit (s : Section) : s.commit.unit = s.unit :=
  unit_apply .commit s

@[simp] theorem commit_child (s : Section) : s.commit.child = s.child := by
  simp [child]

@[simp] theorem commit_visible (s : Section) : s.commit.visible = s.visible :=
  visible_apply .commit nofun s

@[simp] theorem commit_pending (s : Section) : s.commit.pending = false := by
  cases h : s.pending <;> simp [commit, commitRows, h]

@[simp] theorem commit_rows (s : Section) : s.commit.rows = [] := by
  cases h : s.pending <;> simp [commit, commitRows, h]

@[simp] theorem commit_written (s : Section) : s.commit.written = s.written := by
  cases h : s.pending <;> simp [commit, commitRows, h]

theorem commit_raw (s : Section) : s.commit.raw = if s.pending then [] else s.raw := by
  cases h : s.pending <;> simp [commit, commitRows, h]

@[simp] theorem rowLines_of_rows_eq_nil {s : Section} (h : s.rows = []) : s.rowLines = [] := by
  simp [rowLines, Table.align, h]

@[simp] theorem content_commitRows (s : Section) : s.commitRows.content = s.content := by
  simp [content, commitRows, rowLines, rawLines, Table.align]

@[simp] theorem content_commit (s : Section) : s.commit.content = s.content := by
  rw [← commit_fragments]
  simp [content, rawLines]

theorem commitRows_of_rows_eq_nil {s : Section} (h : s.rows = []) : s.commitRows = s := by
  cases s
  simp_all [commitRows]

theorem content_of_not_pending {s : Section} (pending : s.pending = false) (rows : s.rows = []) :
    s.content = s.fragments := by
  simp [content, rawLines, rows, pending]

theorem commit_of_not_pending {s : Section} (pending : s.pending = false) (rows : s.rows = []) :
    s.commit = s := by
  simp [commit, commitRows_of_rows_eq_nil rows, pending]

@[simp] theorem commit_commit (s : Section) : s.commit.commit = s.commit :=
  commit_of_not_pending (commit_pending s) (commit_rows s)

/-- Where nothing is pending, neither text nor rows wait. -/
structure Settled (s : Section) : Prop where
  raw : s.pending = false → s.raw = []
  rows : s.pending = false → s.rows = []

theorem settled_new (unit : String) (depth : Nat) : Settled { unit, depth } :=
  ⟨fun _ => rfl, fun _ => rfl⟩

theorem Settled.commit_eq {s : Section} (settled : s.Settled) :
    s.commit = { s with fragments := s.content, rows := [], raw := [], pending := false } := by
  cases h : s.pending
  · simp [Section.commit, commitRows, content, rowLines, rawLines, h, settled.raw h]
  · simp [Section.commit, commitRows, content, rowLines, rawLines, h]

/-- A commit where nothing is pending does nothing, so it need not be made there. -/
theorem Settled.commit_if_pending {s : Section} (settled : s.Settled) :
    (if s.pending then s.commit else s) = s.commit := by
  cases h : s.pending with
  | false => exact (commit_of_not_pending h (settled.rows h)).symm
  | true => rfl

theorem Settled.apply {s : Section} (settled : s.Settled) (change : Change) :
    (change.apply s).Settled := by
  cases change with
  | write text => exact ⟨nofun, nofun⟩
  | queueRow columns => exact ⟨nofun, nofun⟩
  | commitRows => exact ⟨settled.raw, fun _ => rfl⟩
  | commit =>
    refine ⟨fun _ => ?_, fun _ => commit_rows s⟩
    change s.commit.raw = []
    rw [commit_raw]
    cases h : s.pending
    · exact settled.raw h
    · rfl
  | indent => exact ⟨settled.raw, settled.rows⟩
  | outdent => exact ⟨settled.raw, settled.rows⟩
  | setVisible value => exact ⟨settled.raw, settled.rows⟩
  | setVisibleIfEmpty value => exact ⟨settled.raw, settled.rows⟩

end Section

end IndentedText
