import IndentedText.Proofs.Walk

/-!
Two documents side by side. In the second one a section was begun right after section `c` that the
first one lacks, every later section has a number one higher, and what the first one has behind a place
in section `p` stands in the section that it lacks.
-/

namespace IndentedText

open Section (Change)

/-- The number of section `b` where one more section was begun right after section `c`. -/
def shift (c b : Nat) : Nat :=
  if b ≤ c then b else b + 1

/-- The section that is written to in place of `b` when the writes to `p` go to the section begun
right after `c`. -/
def redirect (p c b : Nat) : Nat :=
  if b = p then c + 1 else shift c b

def Fragment.renumber (f : Nat → Nat) : Fragment → Fragment
  | .line l => .line l
  | .nested child => .nested (f child)

theorem Section.rowLines_renumber (f : Nat → Nat) (s : Section) :
    s.rowLines.map (.renumber f) = s.rowLines := by
  simp [rowLines, Fragment.renumber]

theorem Section.rawLines_renumber (f : Nat → Nat) (s : Section) :
    s.rawLines.map (.renumber f) = s.rawLines := by
  unfold rawLines
  split <;> rfl

theorem shift_of_le {c b : Nat} (h : b ≤ c) : shift c b = b :=
  if_pos h

theorem redirect_lt {p c b n : Nat} (before : p < c) (h : c < n) : redirect p c b < n + 1 ↔ b < n := by
  unfold redirect shift
  split
  · omega
  · split <;> omega

theorem redirect_eq_succ {p c b : Nat} (before : p < c) : redirect p c b = c + 1 ↔ b = p := by
  unfold redirect shift
  split
  · omega
  · split <;> omega

theorem redirect_eq_shift {p c b x : Nat} (h : x ≠ p) : redirect p c b = shift c x ↔ b = x := by
  unfold redirect shift
  split
  · split <;> omega
  · split <;> split <;> omega

theorem redirect_ne {p c : Nat} (before : p < c) (b : Nat) : redirect p c b ≠ p := by
  unfold redirect shift
  split
  · omega
  · split <;> omega

/-- Section `t` has the unit, the depth and all that waits from section `s`, and its fragments but for
the first ones, `kept`. -/
structure Section.Follows (c : Nat) (kept : List Fragment) (s t : Section) : Prop where
  unit : t.unit = s.unit
  depth : t.depth = s.depth
  raw : t.raw = s.raw
  pending : t.pending = s.pending
  rows : t.rows = s.rows
  visible : t.visible = s.visible
  fragments : ∃ rest, s.fragments = kept ++ rest ∧ t.fragments = rest.map (.renumber (shift c))

namespace Section.Follows

variable {c : Nat} {kept : List Fragment} {s t : Section}

theorem added (follows : Follows c kept s t) (change : Change) :
    change.added t = (change.added s).map (.renumber (shift c)) := by
  have rows : t.rowLines = s.rowLines.map (.renumber (shift c)) := by
    rw [rowLines_renumber, rowLines, rowLines, follows.rows, follows.depth]
  have raw : t.rawLines = s.rawLines.map (.renumber (shift c)) := by
    rw [rawLines_renumber, rawLines, rawLines, follows.pending, follows.depth, follows.raw]
  cases change <;> simp [Change.added, rows, raw]

theorem apply (follows : Follows c kept s t) (change : Change) :
    Follows c kept (change.apply s) (change.apply t) := by
  obtain ⟨rest, front, back⟩ := follows.fragments
  have fragments : ∃ rest, (change.apply s).fragments = kept ++ rest ∧
      (change.apply t).fragments = rest.map (.renumber (shift c)) := by
    refine ⟨rest ++ change.added s, ?_, ?_⟩
    · rw [fragments_apply, front, List.append_assoc]
    · rw [fragments_apply, back, follows.added, List.map_append]
  cases change with
  | write text =>
    exact { follows with raw := congrArg (· ++ [text]) follows.raw, pending := rfl, fragments }
  | queueRow columns =>
    exact { follows with rows := congrArg (· ++ [columns.row]) follows.rows, pending := rfl, fragments }
  | commitRows => exact { follows with rows := rfl, fragments }
  | commit =>
    refine ⟨?_, ?_, ?_, ?_, ?_, ?_, fragments⟩
    · simp [Change.apply, follows.unit]
    · simp [Change.apply, follows.depth]
    · simp [Change.apply, commit_raw, follows.pending, follows.raw]
    · simp [Change.apply]
    · simp [Change.apply]
    · simp [Change.apply, follows.visible]
  | indent => exact { follows with depth := congrArg (· + 1) follows.depth, fragments }
  | outdent => exact { follows with depth := congrArg (· - 1) follows.depth, fragments }
  | setVisible value => exact { follows with visible := rfl, fragments }
  | setVisibleIfEmpty value => exact { follows with fragments }

theorem place (follows : Follows c kept s t) (child : Nat) :
    Follows c kept (s.place child) (t.place (shift c child)) := by
  obtain ⟨rest, front, back⟩ := follows.fragments
  refine { follows with fragments := ⟨rest ++ [.nested child], ?_, ?_⟩ }
  · simp [Section.place, front]
  · simp [Section.place, back, Fragment.renumber]

theorem content (follows : Follows c kept s t) : ∃ rest, s.content = kept ++ rest ∧
    t.content = rest.map (.renumber (shift c)) ∧
      ∀ child, .nested child ∈ rest → .nested (shift c child) ∈ t.fragments := by
  obtain ⟨rest, front, back⟩ := (follows.apply .commit).fragments
  simp only [Change.apply, commit_fragments] at front back
  refine ⟨rest, front, back, fun child inside => ?_⟩
  rw [← nested_mem_content, back]
  exact List.mem_map_of_mem (f := Fragment.renumber (shift c)) inside

theorem refl (before : ∀ child, .nested child ∈ s.fragments → child < c) : Follows c [] s s := by
  refine ⟨rfl, rfl, rfl, rfl, rfl, rfl, s.fragments, rfl, ?_⟩
  symm
  refine (List.map_congr_left fun fragment inside => ?_).trans (List.map_id' _)
  cases fragment with
  | line l => rfl
  | nested child => simp [Fragment.renumber, shift_of_le (Nat.le_of_lt (before child inside))]

end Section.Follows

namespace Document

/-- Document `d` goes on from `start` with a place reserved in section `p`, and `e` with two places,
what is written to `p` in `d` being written to the section of the second. -/
structure Matches (p : Nat) (start d e : Document) : Prop where
  size : e.size = d.size + 1
  before : p < start.size
  begun : start.size < d.size
  parent : Section.Follows start.size ((start.get p).content ++ [.nested start.size])
    (d.get p) (e.get (start.size + 1))
  others : ∀ b, b ≠ p → Section.Follows start.size [] (d.get b) (e.get (shift start.size b))
  visible : (d.get p).visible = true
  closed : (e.get p).visible = true ∧ (e.get p).content =
    (start.get p).content ++ [.nested start.size, .nested (start.size + 1)]
  earlier : ∀ b, b < start.size → b ≠ p → d.get b = start.get b

namespace Matches

variable {p : Nat} {start d e : Document}

theorem target (same : Matches p start d e) (b : Nat) :
    ∃ kept, Section.Follows start.size kept (d.get b) (e.get (redirect p start.size b)) := by
  by_cases h : b = p
  · subst h
    exact ⟨_, by simpa [redirect] using same.parent⟩
  · exact ⟨_, by simpa [redirect, h] using same.others b h⟩

theorem redirect_lt (same : Matches p start d e) (b : Nat) :
    redirect p start.size b < e.size ↔ b < d.size := by
  rw [same.size]
  exact IndentedText.redirect_lt same.before same.begun

theorem put (same : Matches p start d e) {b : Nat} (inside : b < d.size)
    (later : start.size ≤ b ∨ b = p) {s t : Section}
    (follows : ∀ kept, Section.Follows start.size kept (d.get b) (e.get (redirect p start.size b)) →
      Section.Follows start.size kept s t)
    (keeps : b = p → s.visible = true) :
    Matches p start (d.put b s) (e.put (redirect p start.size b) t) := by
  have before := same.before
  have held := (same.redirect_lt b).2 inside
  have apart := redirect_ne before b
  -- The numbers tell the sections apart in both documents, so whatever is written in one of them is
  -- written in the other, and the closed section `p` of the second is written in neither.
  refine ⟨by simpa using same.size, before, by simpa using same.begun, ?_, fun x hx => ?_,
    ?_, ?_, fun x old hx => ?_⟩
  · by_cases h : b = p
    · subst h
      have target : redirect b start.size b = start.size + 1 := if_pos rfl
      rw [target] at held follows ⊢
      rw [get_put_self inside, get_put_self held]
      exact follows _ same.parent
    · have other : redirect p start.size b ≠ start.size + 1 := mt (redirect_eq_succ before).1 h
      rw [get_put_of_ne h, get_put_of_ne other]
      exact same.parent
  · by_cases h : b = x
    · subst h
      have target : redirect p start.size b = shift start.size b := if_neg hx
      rw [target] at held follows ⊢
      rw [get_put_self inside, get_put_self held]
      exact follows _ (same.others b hx)
    · have other : redirect p start.size b ≠ shift start.size x := mt (redirect_eq_shift hx).1 h
      rw [get_put_of_ne h, get_put_of_ne other]
      exact same.others x hx
  · by_cases h : b = p
    · rw [← h, get_put_self inside]
      exact keeps h
    · rw [get_put_of_ne h]
      exact same.visible
  · rw [get_put_of_ne apart]
    exact same.closed
  · rw [get_put_of_ne (by omega)]
    exact same.earlier x old hx

theorem add (same : Matches p start d e) (s : Section) :
    Matches p start (d.add s.child) (e.add s.child) := by
  have before := same.before
  have begun := same.begun
  have size := same.size
  have old {f : Document} {x : Nat} (h : x ≠ f.size) : (f.add s.child).get x = f.get x := by
    simp [get_add, h]
  refine ⟨by simp [size], before, by simp; omega, ?_, fun x hx => ?_, ?_, ?_,
    fun x lt hx => ?_⟩
  · rw [old (by omega), old (by omega)]
    exact same.parent
  · by_cases new : x = d.size
    · have last : shift start.size x = e.size := by
        rw [shift, if_neg (by omega), size, new]
      rw [last, new, get_add, get_add, if_pos rfl, if_pos rfl]
      exact .refl (by simp)
    · have other : shift start.size x ≠ e.size := by
        rw [shift, size]
        split <;> omega
      rw [old new, old other]
      exact same.others x hx
  · rw [old (by omega)]
    exact same.visible
  · rw [old (by omega)]
    exact same.closed
  · rw [old (by omega)]
    exact same.earlier x lt hx

end Matches

structure Split (p : Nat) (start d e : Document) : Prop extends Matches p start d e where
  unit : d.unit = start.unit ∧ e.unit = d.unit
  first : d.Orderly
  second : e.Orderly

namespace Split

variable {p : Nat} {start d e : Document}

theorem change (split : Split p start d e) {b : Nat} (later : start.size ≤ b ∨ b = p) (c : Change)
    (keeps : b = p → (c.apply (d.get p)).visible = (d.get p).visible) :
    Split p start ((Move.change b c).apply d)
      ((Move.change (redirect p start.size b) c).apply e) := by
  by_cases inside : b < d.size
  · refine ⟨split.put inside later (fun _ follows => follows.apply c) fun h => ?_,
      by simpa using split.unit, split.first.apply _, split.second.apply _⟩
    rw [h, keeps h]
    exact split.visible
  · have beyond := mt (split.redirect_lt b).1 inside
    rw [Move.apply_change_of_size_le (Nat.le_of_not_lt inside),
      Move.apply_change_of_size_le (Nat.le_of_not_lt beyond)]
    exact split

theorem nest (split : Split p start d e) {b : Nat} (later : start.size ≤ b ∨ b = p) :
    Split p start ((Move.nest b).apply d) ((Move.nest (redirect p start.size b)).apply e) := by
  by_cases inside : b < d.size
  · refine ⟨?_, by simpa using split.unit, split.first.apply _, split.second.apply _⟩
    have held := (split.redirect_lt b).2 inside
    have begun := split.begun
    have next : e.size = shift start.size d.size := by
      rw [split.size, shift, if_neg (by omega)]
    obtain ⟨kept, target⟩ := split.target b
    have child : (e.get (redirect p start.size b)).child = (d.get b).child := by
      rw [Section.child, Section.child, target.unit, target.depth]
    rw [Move.apply_nest inside, Move.apply_nest held, next, child]
    exact (split.put inside later (fun _ follows => follows.place d.size)
      fun h => h ▸ split.visible).add _
  · have beyond := mt (split.redirect_lt b).1 inside
    rw [Move.apply_nest_of_size_le (Nat.le_of_not_lt inside),
      Move.apply_nest_of_size_le (Nat.le_of_not_lt beyond)]
    exact split

theorem lines_shift (split : Split p start d e) {b : Nat} (after : p < b) :
    e.lines (shift start.size b) = d.lines b := by
  have follows := split.others b (by omega)
  obtain ⟨rest, front, back, -⟩ := follows.content
  rw [List.nil_append] at front
  rw [split.first.lines_eq, split.second.lines_eq, follows.visible, back, ← front, List.flatMap_map]
  split
  · exact split.first.flatMap_content b _ _ (fun _ => rfl) fun child deeper =>
      split.lines_shift (Nat.lt_trans after deeper.1)
  · rfl
termination_by d.size - b

theorem walk_shift (split : Split p start d e) {b : Nat} (after : p < b) :
    e.walk (shift start.size b) = (d.walk b).map (shift start.size) := by
  have follows := split.others b (by omega)
  obtain ⟨rest, front, back, -⟩ := follows.content
  rw [List.nil_append] at front
  rw [split.first.walk_eq, split.second.walk_eq, follows.visible, back, ← front, List.flatMap_map,
    List.map_cons]
  split
  · rw [List.map_flatMap]
    exact congrArg _ (split.first.flatMap_content b _ _ (fun _ => rfl) fun child deeper =>
      split.walk_shift (Nat.lt_trans after deeper.1))
  · rfl
termination_by d.size - b

theorem lines_earlier (split : Split p start d e) (orderly : start.Orderly) {b : Nat} (after : p < b)
    (old : b < start.size) : d.lines b = start.lines b := by
  rw [split.first.lines_eq, orderly.lines_eq, split.earlier b old (by omega)]
  split
  · exact orderly.flatMap_content b _ _ (fun _ => rfl) fun child deeper =>
      split.lines_earlier orderly (Nat.lt_trans after deeper.1) deeper.2
  · rfl
termination_by start.size - b

/-- The lines of `p` are those from before the place, those at the place, and those that went to the
second place where it was asked for. -/
theorem lines_parent (split : Split p start d e) (orderly : start.Orderly)
    (visible : (start.get p).visible = true) :
    d.lines p = start.lines p ++ d.lines start.size ++ e.lines (start.size + 1) := by
  obtain ⟨rest, front, back, placed⟩ := split.parent.content
  have kept : (start.get p).content.flatMap (Fragment.lines d.lines) = start.lines p := by
    rw [orderly.lines_eq, if_pos visible]
    exact orderly.flatMap_content p _ _ (fun _ => rfl) fun child deeper =>
      split.lines_earlier orderly deeper.1 deeper.2
  -- What stands behind the place was begun after it, so it has its lines in both documents.
  have moved : e.lines (start.size + 1) = rest.flatMap (Fragment.lines d.lines) := by
    rw [split.second.lines_eq, split.parent.visible, if_pos split.visible, back, List.flatMap_map]
    refine List.flatMap_congr fun fragment inside => ?_
    cases fragment with
    | line l => rfl
    | nested child =>
      have deeper := split.second.order _ _ (placed child inside)
      have before := split.before
      unfold shift at deeper
      refine split.lines_shift ?_
      split at deeper <;> omega
  rw [split.first.lines_eq, if_pos split.visible, front, moved]
  simp [kept]

theorem lines_closed (split : Split p start d e) (orderly : start.Orderly)
    (visible : (start.get p).visible = true) : e.lines p = d.lines p := by
  have same {b : Nat} (after : p < b) (old : b ≤ start.size) : e.lines b = d.lines b := by
    rw [← split.lines_shift after, shift_of_le old]
  have kept : (start.get p).content.flatMap (Fragment.lines e.lines) = start.lines p := by
    rw [orderly.lines_eq, if_pos visible]
    exact orderly.flatMap_content p _ _ (fun _ => rfl) fun child deeper =>
      (same deeper.1 (Nat.le_of_lt deeper.2)).trans
        (split.lines_earlier orderly deeper.1 deeper.2)
  rw [split.second.lines_eq, if_pos split.closed.1, split.closed.2,
    split.lines_parent orderly visible]
  simp [kept, same split.before (Nat.le_refl _)]

end Split

theorem split_reserve {start : Document} (orderly : start.Orderly) {p : Nat} (inside : p < start.size)
    (visible : (start.get p).visible = true) :
    Split p start (start.reserve p) ((start.reserve p).reserve p) := by
  have size := size_reserve inside
  have held : p < (start.reserve p).size := by omega
  have parent := get_reserve_self inside
  have again : ((start.reserve p).get p).commit = (start.reserve p).get p := by
    rw [parent]
    exact Section.commit_of_not_pending (Section.commit_pending _) (Section.commit_rows _)
  have second := get_reserve_self held
  rw [again, parent, size] at second
  have new := get_reserve_new held
  rw [size, parent] at new
  refine ⟨⟨size_reserve held, inside, by omega, ?_, fun x hx => ?_, ?_, ?_, fun x old hx => ?_⟩,
    ⟨by simp [reserve], by simp [reserve]⟩, orderly.after _, (orderly.after _).after _⟩
  · have raw : (start.get p).commit.raw = [] :=
      ((orderly.settled p).apply .commit).raw (Section.commit_pending _)
    rw [new, parent]
    exact ⟨rfl, rfl, raw.symm, by simp [Section.place, Section.child],
      by simp [Section.place, Section.child], by simp [Section.place, Section.child, visible], [],
      by simp [Section.place], rfl⟩
  · rcases Nat.lt_trichotomy x start.size with old | rfl | beyond
    · rw [shift_of_le (Nat.le_of_lt old), get_reserve_of_ne held (Ne.symm hx) (by omega),
        get_reserve_of_ne inside (Ne.symm hx) (by omega)]
      exact Section.Follows.refl fun child nested => (orderly.order x child nested).2
    · rw [shift_of_le (Nat.le_refl _), get_reserve_of_ne held (by omega) (by omega),
        get_reserve_new inside]
      exact Section.Follows.refl (by simp [Section.child])
    · have apart : shift start.size x = x + 1 := if_neg (by omega)
      rw [apart, get_of_size_le (by omega),
        get_of_size_le (b := x + 1) (by rw [size_reserve held]; omega)]
      exact Section.Follows.refl (by simp)
  · simp [parent, Section.place, visible]
  · have flat := Section.content_of_not_pending
      (s := ((start.get p).commit.place start.size).place (start.size + 1))
      (Section.commit_pending _) (Section.commit_rows _)
    rw [second, flat]
    simp [Section.place, visible]
  · exact get_reserve_of_ne inside (Ne.symm hx) (by omega)

end Document

end IndentedText
