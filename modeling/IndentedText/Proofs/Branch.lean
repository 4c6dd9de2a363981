import IndentedText.Proofs.Forest

/-!
The sections in and outside a branch of the tree, and the numbers that the ones outside would have if
none had been begun in the branch. Only the birth of a section makes a branch grow.
-/

namespace IndentedText.Document

def branchUpTo (d : Document) (c : Nat) : Nat → List Nat
  | 0 => []
  | n + 1 =>
    let inside := d.branchUpTo c n
    if n = c ∨ ∃ b ∈ inside, .nested n ∈ (d.get b).fragments then inside ++ [n] else inside

/-- Section `b` is there, and neither section `c` nor in it at any depth. -/
def Outside (d : Document) (c b : Nat) : Prop :=
  b < d.size ∧ b ∉ d.branchUpTo c d.size

instance (d : Document) (c b : Nat) : Decidable (d.Outside c b) :=
  inferInstanceAs (Decidable (_ ∧ _))

section Tree

variable {d : Document} (orderly : d.Orderly)
include orderly

theorem Orderly.mem_branchUpTo {c x n : Nat} : x ∈ d.branchUpTo c n ↔ x < n ∧ d.Above c x := by
  induction n generalizing x with
  | zero => simp [branchUpTo]
  | succ n ih =>
    -- A section stands in an earlier one, so the branch up to it says whether it is in the branch.
    have last : (n = c ∨ ∃ b ∈ d.branchUpTo c n, .nested n ∈ (d.get b).fragments) ↔ d.Above c n := by
      constructor
      · rintro (rfl | ⟨b, inside, held⟩)
        · exact .refl
        · exact (ih.1 inside).2.tail held
      · intro above
        obtain same | ⟨b, above, held⟩ := above.cases_tail
        · exact .inl same
        · exact .inr ⟨b, ih.2 ⟨(orderly.order b n held).1, above⟩, held⟩
    rw [branchUpTo, Nat.lt_succ_iff_lt_or_eq]
    by_cases above : d.Above c n
    · rw [if_pos (last.2 above), List.mem_append, ih, List.mem_singleton]
      grind
    · rw [if_neg (mt last.1 above), ih]
      grind

theorem Orderly.outside_iff {c b : Nat} : d.Outside c b ↔ b < d.size ∧ ¬ d.Above c b := by
  rw [Outside, orderly.mem_branchUpTo]
  grind

theorem Orderly.not_outside {c b : Nat} (above : d.Above c b) : ¬ d.Outside c b := fun outside =>
  (orderly.outside_iff.1 outside).2 above

theorem Orderly.ne_of_outside {c b x : Nat} (above : d.Above c b) (outside : d.Outside c x) : b ≠ x := by
  rintro rfl
  exact orderly.not_outside above outside

theorem Forest.outside_child (forest : d.Forest) {c b child : Nat} (outside : d.Outside c b)
    (held : d.Holds b child) : child = c ∨ d.Outside c child := by
  rw [orderly.outside_iff] at outside ⊢
  by_cases above : d.Above c child
  · obtain same | ⟨holder, above, also⟩ := above.cases_tail
    · exact .inl same
    · obtain rfl := forest.holder_unique orderly held also
      exact absurd above outside.2
  · exact .inr ⟨(orderly.order b child held).2, above⟩

end Tree

theorem holds_change (b : Nat) (c : Section.Change) (d : Document) :
    ((Move.change b c).apply d).Holds = d.Holds := by
  funext x child
  rw [Holds, Holds, get_change]
  split
  · rename_i here
    rw [← here.1, Section.nested_mem_apply]
  · rfl

theorem above_change (b : Nat) (c : Section.Change) (d : Document) :
    ((Move.change b c).apply d).Above = d.Above :=
  congrArg Relation.ReflTransGen (holds_change b c d)

section Nest

variable {d : Document} {b : Nat} (inside : b < d.size)
include inside

theorem holds_nest {x child : Nat} : ((Move.nest b).apply d).Holds x child ↔
    d.Holds x child ∨ x = b ∧ child = d.size := by
  rw [Holds, Holds, get_nest inside]
  by_cases new : x = d.size
  · simp [new, get_of_size_le, Nat.ne_of_gt inside]
  · by_cases here : b = x
    · simp [new, here, Section.place]
    · simp [new, here, Ne.symm here]

variable (orderly : d.Orderly)
include orderly

theorem above_nest {c x : Nat} (old : x < d.size) : ((Move.nest b).apply d).Above c x ↔ d.Above c x := by
  constructor
  · intro above
    induction above with
    | refl => exact .refl
    | @tail p x above held ih =>
      obtain held | ⟨-, rfl⟩ := (holds_nest inside).1 held
      · exact (ih (Nat.lt_trans (orderly.order p x held).1 old)).tail held
      · exact absurd old (Nat.lt_irrefl _)
  · exact Relation.ReflTransGen.mono (fun _ _ held => (holds_nest inside).2 (.inl held)) c x

theorem above_nest_new {c : Nat} (old : c < d.size) :
    ((Move.nest b).apply d).Above c d.size ↔ d.Above c b := by
  rw [← above_nest inside orderly inside]
  constructor
  · intro above
    obtain same | ⟨p, above, held⟩ := above.cases_tail
    · exact absurd old (by omega)
    · obtain held | ⟨rfl, -⟩ := (holds_nest inside).1 held
      · exact absurd (orderly.order p d.size held).2 (Nat.lt_irrefl _)
      · exact above
  · exact fun above => above.tail ((holds_nest inside).2 (.inr ⟨rfl, rfl⟩))

theorem outside_nest {c x : Nat} (old : x < d.size) :
    ((Move.nest b).apply d).Outside c x ↔ d.Outside c x := by
  rw [(orderly.apply _).outside_iff, orderly.outside_iff, above_nest inside orderly old,
    size_nest inside]
  exact and_congr_left fun _ => by omega

theorem outside_nest_new {c : Nat} (old : c < d.size) :
    ((Move.nest b).apply d).Outside c d.size ↔ d.Outside c b := by
  rw [(orderly.apply _).outside_iff, orderly.outside_iff, above_nest_new inside orderly old,
    size_nest inside]
  exact and_congr_left fun _ => by omega

end Nest

theorem outside_change {d : Document} (orderly : d.Orderly) (b : Nat) (change : Section.Change)
    (c x : Nat) : ((Move.change b change).apply d).Outside c x ↔ d.Outside c x := by
  rw [(orderly.apply _).outside_iff, orderly.outside_iff, above_change, size_change]

theorem outside_after {d : Document} (orderly : d.Orderly) (moves : List Move) {c x : Nat}
    (old : x < d.size) : (d.after moves).Outside c x ↔ d.Outside c x := by
  induction moves generalizing d with
  | nil => rfl
  | cons move rest ih =>
    refine (ih (orderly.apply move) (Nat.lt_of_lt_of_le old (size_le_apply move d))).trans ?_
    cases move with
    | change b change => exact outside_change orderly b change c x
    | nest b =>
      by_cases inside : b < d.size
      · exact outside_nest inside orderly old
      · rw [Move.apply_nest_of_size_le (Nat.le_of_not_lt inside)]

/-- The number that section `b` would have if no section had been begun in section `c` since there were
`first` sections. -/
def rank (d : Document) (c first b : Nat) : Nat :=
  (List.range b).countP fun x => x < first ∨ d.Outside c x

section Rank

variable {d e : Document} {c first : Nat}

theorem rank_succ (d : Document) (c first b : Nat) :
    d.rank c first (b + 1) = d.rank c first b + if b < first ∨ d.Outside c b then 1 else 0 := by
  rw [rank, List.range_succ, List.countP_append, List.countP_singleton]
  simp only [decide_eq_true_eq]
  rfl

theorem rank_of_le {b : Nat} (old : b ≤ first) : d.rank c first b = b := by
  induction b with
  | zero => rfl
  | succ b ih => rw [rank_succ, ih (by omega), if_pos (.inl old)]

theorem rank_congr {b : Nat} (same : ∀ x < b, e.Outside c x ↔ d.Outside c x) :
    e.rank c first b = d.rank c first b := by
  refine List.countP_congr fun x inside => ?_
  simp only [same x (List.mem_range.1 inside)]

theorem rank_mono {b x : Nat} (h : b ≤ x) : d.rank c first b ≤ d.rank c first x :=
  (List.range_sublist.2 h).countP_le

theorem rank_lt {b x : Nat} (kept : b < first ∨ d.Outside c b) (later : b < x) :
    d.rank c first b < d.rank c first x := by
  have next := rank_succ d c first b
  rw [if_pos kept] at next
  have grown : d.rank c first (b + 1) ≤ d.rank c first x := rank_mono later
  omega

theorem rank_inj {b x : Nat} (left : b < first ∨ d.Outside c b) (right : x < first ∨ d.Outside c x)
    (same : d.rank c first b = d.rank c first x) : b = x := by
  obtain before | rfl | after := Nat.lt_trichotomy b x
  · exact absurd same (Nat.ne_of_lt (rank_lt left before))
  · rfl
  · exact absurd same (Nat.ne_of_gt (rank_lt right after))

theorem rank_ne {b x : Nat} (left : d.Outside c b) (right : d.Outside c x) (apart : b ≠ x) :
    d.rank c first b ≠ d.rank c first x :=
  mt (rank_inj (.inr left) (.inr right)) apart

theorem exists_rank {n m : Nat} (below : m < d.rank c first n) :
    ∃ b < n, (b < first ∨ d.Outside c b) ∧ d.rank c first b = m := by
  induction n with
  | zero => exact absurd below (Nat.not_lt_zero m)
  | succ n ih =>
    rw [rank_succ] at below
    by_cases before : m < d.rank c first n
    · obtain ⟨b, earlier, held⟩ := ih before
      exact ⟨b, Nat.lt_succ_of_lt earlier, held⟩
    · split at below
      · rename_i kept
        exact ⟨n, Nat.lt_succ_self n, kept, by omega⟩
      · omega

theorem rank_change (orderly : d.Orderly) (b : Nat) (change : Section.Change) :
    ((Move.change b change).apply d).rank c first = d.rank c first :=
  funext fun _ => rank_congr fun y _ => outside_change orderly b change c y

theorem rank_after (orderly : d.Orderly) (moves : List Move) {x : Nat} (old : x ≤ d.size) :
    (d.after moves).rank c first x = d.rank c first x :=
  rank_congr fun _ before => outside_after orderly moves (Nat.lt_of_lt_of_le before old)

end Rank

end IndentedText.Document
