import Mathlib.Data.List.Nodup
import IndentedText.Code.Words
import IndentedText.Proofs.SourceFile

/-!
The imports at the top of a file. Lines that are equal are written once, and lines are equal only where
the imports mean the same, so no import is lost to one that means something else.
-/

namespace IndentedText.Code

open Document

namespace Import

/-- The import can be told from its line. -/
structure Readable (i : Import) : Prop where
  accepted : ∃ text, i.line = .ok text
  target : ∀ target ∈ i.target, Unseparated target
  asName : ∀ asName ∈ i.asName, Unseparated asName
  origin : ∀ origin ∈ i.origin, Unseparated origin
  names : ∀ name ∈ i.names, Unseparated name ∧ name ≠ "*"

theorem readable_iff {i : Import} :
    i.Readable ↔ ¬ i.Targetless ∧ (∀ target ∈ i.target, Unseparated target) ∧
      (∀ asName ∈ i.asName, Unseparated asName) ∧ (∀ origin ∈ i.origin, Unseparated origin) ∧
      ∀ name ∈ i.names, Unseparated name ∧ name ≠ "*" := by
  constructor
  · rintro ⟨⟨text, line⟩, target, asName, origin, names⟩
    refine ⟨fun targetless => ?_, target, asName, origin, names⟩
    rw [line_of_targetless targetless] at line
    cases line
  · rintro ⟨accepted, target, asName, origin, names⟩
    exact ⟨exists_line accepted, target, asName, origin, names⟩

instance (i : Import) : Decidable i.Readable :=
  decidable_of_iff' _ readable_iff

theorem line_eq_clause {i : Import} (target : ¬ i.Targetless) : i.line = .ok i.clause.line := by
  have absent {text : Option String} (none : Text.given text = none) : text.getD "" = "" := by
    rw [← Text.getD_given, none]
    rfl
  unfold line clause
  cases origin : Text.given i.origin with
  | some held =>
    have here := Text.eq_some_of_given origin
    have filled : held ≠ "" := fun empty => by simp [here, empty] at origin
    cases names : i.names <;> simp [here, filled, ImportClause.line]
  | none =>
    cases whole : Text.given i.target with
    | none => exact absurd ⟨Text.given_eq_none.1 whole, Text.given_eq_none.1 origin⟩ target
    | some held =>
      have here := Text.eq_some_of_given whole
      cases asName : Text.given i.asName with
      | none => simp [absent origin, here, absent asName, ImportClause.line]
      | some name =>
        have named := Text.eq_some_of_given asName
        have filled : name ≠ "" := fun empty => by simp [named, empty] at asName
        simp [absent origin, here, named, filled, ImportClause.line]

theorem Readable.line_eq {i : Import} (readable : i.Readable) : i.line = .ok i.clause.line :=
  line_eq_clause (readable_iff.1 readable).1

theorem Readable.isPlain {i : Import} (readable : i.Readable) : i.clause.IsPlain := by
  have plain {text : Option String} (each : ∀ held ∈ text, Unseparated held) :
      Unseparated (text.getD "") := by
    cases text with
    | none => exact ⟨by decide, by decide⟩
    | some held => exact each held rfl
  unfold clause
  split
  · refine ⟨plain readable.target, fun name given => ?_⟩
    split at given
    · cases given
    · exact readable.asName name given
  · exact ⟨plain readable.origin, readable.names⟩

theorem Readable.line_eq_iff {i j : Import} (readable : i.Readable) (other : j.Readable) :
    i.line = j.line ↔ i.clause = j.clause := by
  rw [readable.line_eq, other.line_eq, Except.ok.injEq]
  exact ImportClause.line_inj readable.isPlain other.isPlain

theorem mapM_line_of_readable {imports : List Import} (readable : ∀ i ∈ imports, i.Readable) :
    imports.mapM line = .ok (imports.map fun i => i.clause.line) := by
  induction imports with
  | nil => rfl
  | cons i rest ih =>
    rw [List.mapM_cons, (readable i (by simp)).line_eq, ih fun j member => readable j (by simp [member])]
    rfl

end Import

theorem FirstOccurrences.nodup {kept items : List String} (first : FirstOccurrences kept items) :
    kept.Nodup :=
  first.order.imp fun earlier same => Nat.ne_of_lt earlier (congrArg (items.idxOf ·) same)

theorem removeAll_singleton [DecidableEq α] (item : α) (items : List α) :
    [item].removeAll items = if item ∈ items then [] else [item] := by
  by_cases h : item ∈ items <;> simp [List.removeAll, h]

/-- Some of the imports, which mean all that is meant and each of it once. -/
structure Import.Representatives (kept imports : List Import) : Prop where
  asked : kept ⊆ imports
  meant : ∀ i ∈ imports, ∃ j ∈ kept, j.clause = i.clause
  once : kept.Pairwise fun i j => i.clause ≠ j.clause

theorem Import.exists_representatives {imports : List Import} (readable : ∀ i ∈ imports, i.Readable) :
    ∃ kept, Representatives kept imports ∧
      (imports.map fun i => i.clause.line).eraseDups = kept.map fun i => i.clause.line := by
  induction imports using List.reverseRecOn with
  | nil => exact ⟨[], ⟨by simp, by simp, .nil⟩, rfl⟩
  | append_singleton imports last ih =>
    obtain ⟨kept, ⟨asked, meant, once⟩, lines⟩ := ih fun i member => readable i (by simp [member])
    have seen : last.clause.line ∈ imports.map (fun i => i.clause.line) ↔
        ∃ i ∈ imports, i.clause = last.clause := by
      rw [List.mem_map]
      refine exists_congr fun i => and_congr_right fun member => ?_
      exact ImportClause.line_inj (readable i (by simp [member])).isPlain
        (readable last (by simp)).isPlain
    rw [List.map_append, List.eraseDups_append, List.map_singleton, removeAll_singleton, lines]
    by_cases before : ∃ i ∈ imports, i.clause = last.clause
    · refine ⟨kept, ⟨fun i member => by simp [asked member], fun i member => ?_, once⟩, ?_⟩
      · obtain ⟨j, earlier, same⟩ := before
        obtain member | rfl := by simpa using member
        · exact meant i member
        · rw [← same]
          exact meant j earlier
      · simp [seen.2 before]
    · refine ⟨kept ++ [last], ⟨fun i member => ?_, fun i member => ?_, ?_⟩, ?_⟩
      · obtain member | rfl := by simpa using member
        · simp [asked member]
        · simp
      · obtain member | rfl := by simpa using member
        · obtain ⟨j, held, same⟩ := meant i member
          exact ⟨j, by simp [held], same⟩
        · exact ⟨i, by simp, rfl⟩
      · refine List.pairwise_append.2 ⟨once, List.pairwise_singleton .., fun j held other here => ?_⟩
        obtain rfl : other = last := List.mem_singleton.1 here
        exact fun same => before ⟨j, asked held, same⟩
      · rw [if_neg (mt seen.1 before), List.map_append]
        rfl

namespace SourceFile

end SourceFile

end IndentedText.Code
