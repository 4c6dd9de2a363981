import IndentedText.Code.Import

/-!
What a request to import means, and the words of the line that says so. The meaning can be told from the
words, as long as its names have neither the space nor the comma in them that the line puts between names.
-/

namespace IndentedText.Code

inductive ImportClause where
  | whole (target : String) (asName : Option String)
  | members (origin : String) (names : List String)
  deriving DecidableEq

/-- What a request means. A module to take names from is the one that counts, and an empty text says no
more than an absent one. -/
def Import.clause (i : Import) : ImportClause :=
  if i.origin.getD "" = "" then
    .whole (i.target.getD "") (if i.asName.getD "" = "" then none else i.asName)
  else .members (i.origin.getD "") i.names

def ImportClause.line : ImportClause → String
  | .whole target none => "import " ++ target
  | .whole target (some asName) => "import " ++ target ++ " as " ++ asName
  | .members origin [] => "from " ++ origin ++ " import *"
  | .members origin names => "from " ++ origin ++ " import " ++ ", ".intercalate names

structure Unseparated (text : String) : Prop where
  spaceless : ' ' ∉ text.toList
  commaless : ',' ∉ text.toList

instance (text : String) : Decidable (Unseparated text) :=
  decidable_of_iff (' ' ∉ text.toList ∧ ',' ∉ text.toList)
    ⟨fun h => ⟨h.1, h.2⟩, fun h => ⟨h.spaceless, h.commaless⟩⟩

namespace ImportClause

def listed : List String → List String
  | [] => []
  | [name] => [name]
  | name :: other :: rest => (name ++ ",") :: listed (other :: rest)

def words : ImportClause → List String
  | .whole target none => ["import", target]
  | .whole target (some asName) => ["import", target, "as", asName]
  | .members origin [] => ["from", origin, "import", "*"]
  | .members origin (name :: rest) => "from" :: origin :: "import" :: listed (name :: rest)

def withoutComma (word : String) : String :=
  String.ofList (word.toList.filter (· ≠ ','))

def ofWords : List String → Option ImportClause
  | ["import", target] => some (.whole target none)
  | ["import", target, "as", asName] => some (.whole target (some asName))
  | ["from", origin, "import", "*"] => some (.members origin [])
  | "from" :: origin :: "import" :: names => some (.members origin (names.map withoutComma))
  | _ => none

def read (line : String) : Option ImportClause :=
  ofWords ((line.toList.splitOn ' ').map String.ofList)

example : read "from m import a, b" = some (.members "m" ["a", "b"]) := rfl

/-- Nothing in the import could be taken for something else in its line. -/
def IsPlain : ImportClause → Prop
  | .whole target asName => Unseparated target ∧ ∀ name ∈ asName, Unseparated name
  | .members origin names => Unseparated origin ∧ ∀ name ∈ names, Unseparated name ∧ name ≠ "*"

theorem listed_ne_nil (name : String) (rest : List String) : listed (name :: rest) ≠ [] := by
  cases rest <;> simp [listed]

theorem intercalate_listed (names : List String) :
    " ".intercalate (listed names) = ", ".intercalate names := by
  induction names using listed.induct with
  | case1 => rfl
  | case2 name => rfl
  | case3 name other rest ih =>
    have comma : name ++ "," ++ " " = name ++ ", " := String.append_assoc
    rw [listed, String.intercalate_cons_of_ne_nil (listed_ne_nil other rest), ih,
      String.intercalate_cons_cons, comma]

theorem line_eq_intercalate (clause : ImportClause) : clause.line = " ".intercalate clause.words := by
  obtain ⟨target, _ | asName⟩ | ⟨origin, _ | ⟨name, rest⟩⟩ := clause
  · simp [line, words, String.intercalate_cons_cons]
  · have joint : " " ++ ("as" ++ " ") = " as " := rfl
    simp only [line, words, String.intercalate_cons_cons, String.intercalate_singleton,
      ← joint, String.append_assoc]
    rfl
  · simp [line, words, String.intercalate_cons_cons, String.append_assoc]
  · have joint : " " ++ ("import" ++ " ") = " import " := rfl
    simp only [line, words, String.intercalate_cons_cons, ← joint, String.append_assoc,
      String.intercalate_cons_of_ne_nil (listed_ne_nil name rest), intercalate_listed]
    rfl

theorem splitOn_intercalate {words : List String} (spaceless : ∀ word ∈ words, ' ' ∉ word.toList)
    (filled : words ≠ []) :
    (" ".intercalate words).toList.splitOn ' ' = words.map String.toList := by
  rw [String.toList_intercalate]
  refine List.splitOn_intercalate ' ' (fun chars member => ?_) (by simpa using filled)
  obtain ⟨word, inside, rfl⟩ := List.mem_map.1 member
  exact spaceless word inside

theorem spaceless_listed {names : List String} (spaceless : ∀ name ∈ names, ' ' ∉ name.toList) :
    ∀ word ∈ listed names, ' ' ∉ word.toList := by
  induction names using listed.induct with
  | case1 => simp [listed]
  | case2 name => simpa [listed] using spaceless
  | case3 name other rest ih =>
    intro word member
    rw [listed, List.mem_cons] at member
    rcases member with rfl | member
    · simpa using spaceless name (by simp)
    · exact ih (fun name member => spaceless name (List.mem_cons_of_mem _ member)) word member

theorem withoutComma_of_commaless {name : String} (commaless : ',' ∉ name.toList) :
    withoutComma name = name ∧ withoutComma (name ++ ",") = name := by
  have kept : name.toList.filter (· ≠ ',') = name.toList :=
    List.filter_eq_self.2 fun c member => decide_eq_true fun comma => commaless (comma ▸ member)
  have last : ",".toList.filter (· ≠ ',') = [] := by decide
  constructor
  · rw [withoutComma, kept, String.ofList_toList]
  · rw [withoutComma, String.toList_append, List.filter_append, kept, last, List.append_nil,
      String.ofList_toList]

theorem map_withoutComma_listed {names : List String} (commaless : ∀ name ∈ names, ',' ∉ name.toList) :
    (listed names).map withoutComma = names := by
  induction names using listed.induct with
  | case1 => rfl
  | case2 name => simpa [listed] using (withoutComma_of_commaless (commaless name (by simp))).1
  | case3 name other rest ih =>
    have first := (withoutComma_of_commaless (commaless name (by simp))).2
    rw [listed, List.map_cons, first, ih fun name member => commaless name (List.mem_cons_of_mem _ member)]

theorem ofWords_members (origin : String) {names : List String} (others : names ≠ ["*"]) :
    ofWords ("from" :: origin :: "import" :: names) = some (.members origin (names.map withoutComma)) := by
  unfold ofWords
  split <;> simp_all

theorem IsPlain.spaceless {clause : ImportClause} (plain : clause.IsPlain) :
    ∀ word ∈ clause.words, ' ' ∉ word.toList := by
  obtain ⟨target, _ | asName⟩ | ⟨origin, _ | ⟨name, rest⟩⟩ := clause
  · simpa [words] using plain.1.spaceless
  · simpa [words] using ⟨plain.1.spaceless, (plain.2 asName rfl).spaceless⟩
  · simpa [words] using plain.1.spaceless
  · have names := spaceless_listed fun name member => (plain.2 name member).1.spaceless
    simpa [words] using ⟨plain.1.spaceless, names⟩

theorem ofWords_words {clause : ImportClause} (plain : clause.IsPlain) :
    ofWords clause.words = some clause := by
  obtain ⟨target, _ | asName⟩ | ⟨origin, _ | ⟨name, rest⟩⟩ := clause
  · rfl
  · rfl
  · rfl
  · have others : listed (name :: rest) ≠ ["*"] := by
      cases rest with
      | nil => simpa [listed] using (plain.2 name (by simp)).2
      | cons other rest => simp [listed, listed_ne_nil]
    rw [words, ofWords_members origin others,
      map_withoutComma_listed fun name member => (plain.2 name member).1.commaless]

theorem read_line {clause : ImportClause} (plain : clause.IsPlain) : read clause.line = some clause := by
  have filled : clause.words ≠ [] := by
    obtain ⟨target, _ | asName⟩ | ⟨origin, _ | ⟨name, rest⟩⟩ := clause <;> simp [words]
  have parts := splitOn_intercalate plain.spaceless filled
  rw [read, line_eq_intercalate, parts, List.map_map, ← ofWords_words plain]
  simp [Function.comp_def]

theorem line_inj {clause other : ImportClause} (plain : clause.IsPlain) (otherPlain : other.IsPlain) :
    clause.line = other.line ↔ clause = other := by
  refine ⟨fun same => ?_, congrArg line⟩
  have back : some clause = some other := by rw [← read_line plain, same, read_line otherPlain]
  exact Option.some.inj back

end ImportClause

end IndentedText.Code
