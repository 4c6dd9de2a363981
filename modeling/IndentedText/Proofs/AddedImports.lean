import IndentedText.Proofs.SourceFile

/-!
Imports that are added to a file one by one. A request that was made before is not added again, and the
line of one that was is not written again. The two rules go by different likenesses, of requests and of
lines, and still the code of the file is the same as if every request had been added.
-/

namespace IndentedText.Code

theorem eraseDups_append_cons_of_mem [BEq α] [LawfulBEq α] {items : List α} {item : α}
    (member : item ∈ items) (rest : List α) :
    (items ++ item :: rest).eraseDups = (items ++ rest).eraseDups := by
  rw [List.eraseDups_append, List.eraseDups_append, List.cons_removeAll]
  simp [member]

theorem eraseDups_eq_nil [BEq α] {items : List α} : items.eraseDups = [] ↔ items = [] := by
  cases items <;> simp [List.eraseDups_cons]

namespace Import

/-- The requests that are not known, each once, in the order in which they are first made. -/
structure Fresh (known asked kept : List Import) : Prop where
  mem : ∀ i, i ∈ kept ↔ i ∈ asked ∧ i ∉ known
  order : kept.Pairwise fun i j => asked.idxOf i < asked.idxOf j

variable {known asked kept : List Import} {i : Import}

theorem fresh_nil (known : List Import) : Fresh known [] [] :=
  ⟨by simp, .nil⟩

theorem Fresh.repeated (fresh : Fresh known asked kept) (seen : i ∈ known ++ kept) :
    Fresh known (asked ++ [i]) kept := by
  refine ⟨fun j => ?_, ?_⟩
  · rw [fresh.mem, List.mem_append, List.mem_singleton]
    refine and_congr_left fun new => ⟨.inl, fun made => made.elim id ?_⟩
    rintro rfl
    exact ((fresh.mem j).1 ((List.mem_append.1 seen).resolve_left new)).1
  · exact pairwise_idxOf_append (fun j member => ((fresh.mem j).1 member).1) fresh.order [i]

theorem Fresh.new (fresh : Fresh known asked kept) (unseen : i ∉ known ++ kept) :
    Fresh known (asked ++ [i]) (kept ++ [i]) := by
  obtain ⟨unknown, unkept⟩ := not_or.1 (mt List.mem_append.2 unseen)
  have unasked : i ∉ asked := fun made => unkept ((fresh.mem i).2 ⟨made, unknown⟩)
  refine ⟨fun j => ?_, ?_⟩
  · rw [List.mem_append, List.mem_append, fresh.mem, or_and_right]
    refine or_congr_right ⟨fun last => ⟨last, ?_⟩, And.left⟩
    rwa [List.mem_singleton.1 last]
  · exact pairwise_idxOf_append_new (fun j member => ((fresh.mem j).1 member).1) fresh.order unasked

theorem map_line_of_mapM {imports : List Import} {texts : List String}
    (accepted : imports.mapM line = .ok texts) : imports.map line = texts.map .ok := by
  have valid : ∀ i ∈ imports, ¬ i.Targetless := by
    intro i member targetless
    rw [mapM_line_of_targetless ⟨i, member, targetless⟩] at accepted
    cases accepted
  obtain ⟨others, again, each⟩ := mapM_line valid
  cases accepted.symm.trans again
  exact each

theorem mapM_line_repeated (member : i ∈ known) (rest : List Import) :
    ((known ++ i :: rest).mapM line).map List.eraseDups =
      ((known ++ rest).mapM line).map List.eraseDups := by
  rw [List.mapM_append, List.mapM_append, List.mapM_cons]
  cases asked : known.mapM line with
  | error fault => rfl
  | ok seen =>
    obtain ⟨text, here, same⟩ : ∃ text ∈ seen, Except.ok text = i.line := by
      rw [← List.mem_map, ← map_line_of_mapM asked]
      exact List.mem_map_of_mem member
    rw [← same]
    cases rest.mapM line with
    | error fault => rfl
    | ok lines => exact congrArg Except.ok (eraseDups_append_cons_of_mem here lines)

end Import

namespace SourceFile

variable {file : SourceFile} {i : Import}

theorem addImport_of_mem (member : i ∈ file.imports) : file.addImport i = file :=
  if_pos member

theorem addImport_of_notMem (new : i ∉ file.imports) :
    file.addImport i = { file with imports := file.imports ++ [i] } :=
  if_neg new

theorem exists_fresh (file : SourceFile) (asked : List Import) : ∃ fresh,
    Import.Fresh file.imports asked fresh ∧
      asked.foldl addImport file = { file with imports := file.imports ++ fresh } := by
  induction asked using List.reverseRecOn with
  | nil => exact ⟨[], Import.fresh_nil _, by simp⟩
  | append_singleton asked i ih =>
    obtain ⟨fresh, first, added⟩ := ih
    rw [List.foldl_append, List.foldl_cons, List.foldl_nil, added]
    by_cases seen : i ∈ file.imports ++ fresh
    · exact ⟨fresh, first.repeated seen, addImport_of_mem seen⟩
    · refine ⟨fresh ++ [i], first.new seen, ?_⟩
      rw [addImport_of_notMem seen]
      simp

theorem foldl_addImport_of_subset {again : List Import} (known : again ⊆ file.imports) :
    again.foldl addImport file = file := by
  induction again with
  | nil => rfl
  | cons i rest ih =>
    obtain ⟨first, others⟩ := List.cons_subset.1 known
    rw [List.foldl_cons, addImport_of_mem first, ih others]

theorem importLayout_congr {lines others : List String} (same : lines.eraseDups = others.eraseDups) :
    importLayout lines = importLayout others := by
  have none : lines = [] ↔ others = [] := by rw [← eraseDups_eq_nil, same, eraseDups_eq_nil]
  simp only [importLayout, List.isEmpty_iff, none, same]

theorem map_congr_of_eraseDups {asked other : Except Fault (List String)}
    (same : asked.map List.eraseDups = other.map List.eraseDups) {text : List String → String}
    (once : ∀ lines others : List String, lines.eraseDups = others.eraseDups → text lines = text others) :
    asked.map text = other.map text := by
  cases asked with
  | error fault =>
    cases other with
    | error _ => exact congrArg Except.error (Except.error.inj same)
    | ok _ => cases same
  | ok lines =>
    cases other with
    | error _ => cases same
    | ok others => exact congrArg Except.ok (once lines others (Except.ok.inj same))

/-- Two lists of imports make the same code if they have the same lines, each counted once, in front of
whatever the classes and functions ask for. -/
theorem code_congr {imports others : List Import}
    (same : ∀ rest, ((imports ++ rest).mapM Import.line).map List.eraseDups =
      ((others ++ rest).mapM Import.line).map List.eraseDups)
    (file : SourceFile) (unit : Option String) :
    ({ file with imports := imports } : SourceFile).code unit =
      ({ file with imports := others } : SourceFile).code unit := by
  have asked := same
    (file.classes.flatMap (fun c => c.requires ++ c.methods.flatMap FunctionDef.requires) ++
      file.functions.flatMap FunctionDef.requires)
  rw [← List.append_assoc, ← List.append_assoc] at asked
  rw [code_eq, code_eq]
  refine congrArg (if file.isConcrete then · else _) (map_congr_of_eraseDups asked ?_)
  intro lines others same
  rw [layout_eq, layout_eq, importLayout_congr same]

theorem code_foldl_addImport (file : SourceFile) (asked : List Import) (unit : Option String) :
    (asked.foldl addImport file).code unit =
      ({ file with imports := file.imports ++ asked } : SourceFile).code unit := by
  induction asked generalizing file with
  | nil => simp
  | cons i rest ih =>
    rw [List.foldl_cons, ih]
    by_cases seen : i ∈ file.imports
    -- Here the request is dropped at once, in the longer list its line is dropped later.
    · rw [addImport_of_mem seen]
      refine code_congr (fun others => ?_) file unit
      rw [List.append_assoc, List.append_assoc, List.cons_append]
      exact (Import.mapM_line_repeated seen (rest ++ others)).symm
    · rw [addImport_of_notMem seen, List.append_assoc]
      rfl

/-- Requests to import that are made one by one come to stand behind those that the file has, each at its
first occurrence, and only if the file does not have it; made again, in whatever order, they change
nothing. The code of the file, be it a text or a fault, is then the one that it would have if all of them
were kept. -/
theorem imports_added_once (file : SourceFile) (asked : List Import) :
    ∃ fresh, Import.Fresh file.imports asked fresh ∧
      asked.foldl addImport file = { file with imports := file.imports ++ fresh } ∧
      (∀ again ⊆ asked, again.foldl addImport (asked.foldl addImport file) = asked.foldl addImport file) ∧
      ∀ unit : Option String, (asked.foldl addImport file).code unit =
        ({ file with imports := file.imports ++ asked } : SourceFile).code unit := by
  obtain ⟨fresh, first, added⟩ := file.exists_fresh asked
  refine ⟨fresh, first, added, fun again made => ?_, file.code_foldl_addImport asked⟩
  rw [added]
  refine foldl_addImport_of_subset fun i member => List.mem_append.2 ?_
  by_cases known : i ∈ file.imports
  · exact .inl known
  · exact .inr ((first.mem i).2 ⟨made member, known⟩)

/-- A request that the file has, one that only reads the same, and one that cannot be written, the last two
made twice and then once more. -/
theorem imports_added_once_alike :
    let whole : Import := { target := some "os" }
    let alike : Import := { target := some "os", asName := some "" }
    let file : SourceFile :=
      { imports := [whole], functions := [{ name := "f", requires := [alike, { origin := some "m" }] }] }
    let asked : List Import := [alike, {}, whole, alike, {}]
    let again : List Import := [{}, alike]
    again ⊆ asked ∧ (asked.foldl addImport file).imports = [whole, alike, {}] ∧
      again.foldl addImport (asked.foldl addImport file) = asked.foldl addImport file ∧
      ∀ unit : Option String, (asked.foldl addImport file).code unit =
        ({ file with imports := file.imports ++ asked } : SourceFile).code unit := by
  intro whole alike file asked again
  have made : again ⊆ asked := by decide
  obtain ⟨-, -, -, unchanged, code⟩ := imports_added_once file asked
  exact ⟨made, by decide, unchanged again made, code⟩

end SourceFile

end IndentedText.Code
