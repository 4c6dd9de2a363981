import IndentedText.Proofs.Laying
import IndentedText.Proofs.Rendering
import IndentedText.Text.Newline

/-!
Texts that are written line by line. Each line of the text becomes one of the section, and a print of
nothing else is the plain form of the text. A print is in its plain form already, as long as no line
break is hidden in it.
-/

namespace IndentedText

open Section (Change)

theorem Line.renderAll_eq_unlines (unit : String) (ambient : Int) (lines : List Line) :
    Line.renderAll unit ambient lines =
      Text.unlines (lines.map fun line => indentation unit (ambient + line.depth) ++ line.text) := by
  rw [Line.renderAll, Text.unlines, List.map_map]
  rfl

theorem unbroken_indentation {unit : String} (plain : Text.Unbroken unit) (level : Int) :
    Text.Unbroken (indentation unit level) := by
  rw [indentation_eq_join]
  intro c inside
  rw [String.toList_join] at inside
  obtain ⟨copy, made, here⟩ := List.mem_flatMap.1 inside
  rw [(List.mem_replicate.1 made).2] at here
  exact plain c here

theorem map_text_linesAt (unit : String) (texts : List String) :
    ((Code.linesAt 0 texts).map fun line => indentation unit (0 + line.depth) ++ line.text) = texts := by
  simp [Code.linesAt, indentation_eq_join, Function.comp_def]

theorem SectionM.run_writeLines (text : String) (s : Section) :
    SectionM.writeLines text s = .ok () (s.laid (Code.linesAt s.depth (Text.lines text))) := by
  have lays := Course.lays_lines id (Text.lines text)
  rw [List.map_id] at lays
  exact (takes_writeLines text s).run_lays (Course.fault_lines id _) lays

namespace Document

theorem run_writeLines {d : Document} {b : Nat} (inside : b < d.size) (text : String) :
    let s := (d.get b).laid (Code.linesAt (d.get b).depth (Text.lines text))
    (Step.act b (.command (.writeLines text))).run d = (.act s.status (.ok .taken), d.put b s) := by
  intro s
  have run : (Command.writeLines text).run (d.get b) = .ok .taken s :=
    bind_of_ok (SectionM.run_writeLines text (d.get b))
  simp only [Step.run, Action.answer, Action.run, inSection_of_ok run, status, get_put_self inside]

/-- A new document prints `printed` when it was given `text` line by line, and nothing else. -/
def Rewrites (text printed : String) : Prop :=
  ∀ unit, (Step.runAll [.act 0 (.command (.writeLines text))] (new unit)).2.Prints 0 0 printed

theorem rewrites_normalize (text : String) : Rewrites text (Text.normalize text) := by
  intro unit
  have run := run_writeLines (d := new unit) Nat.one_pos text
  have orderly := (orderly_new unit).runAll [.act 0 (.command (.writeLines text))]
  generalize written : (Step.runAll [.act 0 (.command (.writeLines text))] (new unit)).2 = d at orderly ⊢
  have held : d = (new unit).put 0 (((new unit).get 0).laid (Code.linesAt 0 (Text.lines text))) := by
    rw [← written]
    exact congrArg Prod.snd run
  have first : d.get 0 = ((new unit).get 0).laid (Code.linesAt 0 (Text.lines text)) := by
    rw [held]
    exact get_put_self Nat.one_pos _
  have lines : d.lines 0 = Code.linesAt 0 (Text.lines text) := by
    refine lines_of_content (by rw [first]; exact Section.laid_visible ..) ?_
    rw [first]
    exact Section.content_laid rfl rfl rfl _
  have printed := orderly.prints_lines rfl lines 0
  rw [Line.renderAll_eq_unlines, map_text_linesAt] at printed
  rwa [← Text.unlines_lines]

theorem rewrites_unlines {texts : List String} (unbroken : ∀ text ∈ texts, Text.Unbroken text) :
    Rewrites (Text.unlines texts) (Text.unlines texts) := by
  have rewritten := rewrites_normalize (Text.unlines texts)
  rwa [Text.normalize_unlines unbroken] at rewritten

/-- Given line by line, a text comes to stand in the section as its lines, none of which has a line break
in it, below the rows and behind the raw text that wait there; a text without lines changes nothing. A
new document then prints the text in its plain form. Such a text is printed unchanged, and so is every
print of a section, as long as neither the unit nor a line of the section has a line break in it. -/
theorem writeLines_normalizes (d : Document) {b : Nat} (inside : b < d.size) :
    (∀ text,
      (∀ line ∈ Text.lines text, Text.Unbroken line) ∧
      (text = "" →
        (Step.act b (.command (.writeLines text))).run d = (.act (d.status b) (.ok .taken), d)) ∧
      (text ≠ "" → ∃ first rest, Text.lines text = first :: rest ∧
        let s := d.get b
        let t : Section :=
          { s with
            written := s.written + (rest.length + 1)
            fragments := s.fragments ++ s.rows.align.map (fun row => .line ⟨s.depth, row⟩) ++
              .line ⟨s.depth, String.join s.raw ++ first⟩ :: rest.map (fun line => .line ⟨s.depth, line⟩)
            rows := []
            raw := []
            pending := false }
        (Step.act b (.command (.writeLines text))).run d = (.act t.status (.ok .taken), d.put b t)) ∧
      Rewrites text (Text.normalize text) ∧
      Rewrites (Text.normalize text) (Text.normalize text)) ∧
    (d.Reachable → Text.Unbroken d.unit → (∀ line ∈ d.lines b, Text.Unbroken line.text) →
      ∀ ambient, ∃ printed, d.Prints b ambient printed ∧ Rewrites printed printed) := by
  refine ⟨fun text => ⟨fun line => Text.unbroken_of_mem_lines, ?_, ?_, rewrites_normalize text, ?_⟩, ?_⟩
  · rintro rfl
    have run := run_writeLines inside ""
    simpa [Code.linesAt, status] using run
  · intro filled
    obtain ⟨first, rest, cut⟩ := List.exists_cons_of_ne_nil (mt Text.lines_eq_nil.1 filled)
    have run := run_writeLines inside text
    rw [cut] at run
    refine ⟨first, rest, cut, run.trans ?_⟩
    simp [Section.laid, Code.linesAt, Section.rowLines, Function.comp_def]
  · have rewritten := rewrites_normalize (Text.normalize text)
    rwa [Text.normalize_normalize] at rewritten
  · intro reached plain unbroken ambient
    refine ⟨_, reached.orderly.prints_lines rfl rfl ambient, ?_⟩
    rw [Line.renderAll_eq_unlines]
    refine rewrites_unlines fun text member => ?_
    obtain ⟨line, held, rfl⟩ := List.mem_map.1 member
    exact (unbroken_indentation plain _).append (unbroken line held)

theorem writeLines_normalizes_waiting :
    let d := (Step.runAll [.act 0 .nest, .act 1 (.command (.writeLine "b")), .act 0 (.command .indent),
      .act 0 (.command (.write "a")), .act 0 (.command (.queueRow (.each [some "c", none])))]
      (new (some "\t"))).2
    let text := "d\r\n\u2028 e"
    0 < d.size ∧ text ≠ "" ∧ Text.Unbroken d.unit ∧ (∀ line ∈ d.lines 0, Text.Unbroken line.text) ∧
      ((Step.act 0 (.command (.writeLines text))).run d).2.lines 0 =
        [⟨0, "b"⟩, ⟨1, "c"⟩, ⟨1, "ad"⟩, ⟨1, ""⟩, ⟨1, " e"⟩] ∧
      Rewrites text "d\n\n e\n" ∧ ∃ printed, d.Prints 0 (-1) printed ∧ Rewrites printed printed := by
  intro d text
  have inside : 0 < d.size := by decide
  have filled : text ≠ "" := by decide
  have plain : Text.Unbroken d.unit := by decide
  have lines : d.lines 0 = [⟨0, "b"⟩, ⟨1, "c"⟩, ⟨1, "a"⟩] := by decide +kernel
  have unbroken : ∀ line ∈ d.lines 0, Text.Unbroken line.text := by
    rw [lines]
    decide
  obtain ⟨writes, prints⟩ := writeLines_normalizes d inside
  obtain ⟨-, -, written, rewritten, -⟩ := writes text
  obtain ⟨first, rest, cut, run⟩ := written filled
  have cuts : Text.lines text = ["d", "", " e"] := by decide +kernel
  have plainForm : Text.normalize text = "d\n\n e\n" := by decide +kernel
  rw [plainForm] at rewritten
  obtain ⟨rfl, rfl⟩ := List.cons.inj (cuts.symm.trans cut)
  refine ⟨inside, filled, plain, unbroken, ?_, rewritten, prints ⟨_, _, rfl⟩ plain unbroken (-1)⟩
  rw [run]
  decide +kernel

end Document

end IndentedText
