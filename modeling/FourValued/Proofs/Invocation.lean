import Mathlib.Data.List.Basic
import FourValued.CommandLine.Report
import FourValued.Text.Cut

/-!
# Dialogues and command lines

Whatever is entered in a dialogue can be given as options instead, the predicates of the dialogue before those that were
given already. The command then prints what it would have printed after the dialogue, and fails as it would have failed
(`CommandLine.reportWith_dialogue`). All options can be written on a command line (`CommandLine.readOptions_words`), so
the same holds of two command lines (`CommandLine.run_dialogue`).
-/

namespace FourValued.CommandLine

section Agreement

variable {o : Options} {e text : String} {ps : List String} {input : List UInt8}

def Options.entering (o : Options) (e : String) (ps : List String) : Options :=
  { o with expression := some e, predicates := ps ++ o.predicates }

theorem report_of_error {err : ExpressionError} (failed : Session.parse e = .error err) :
    report o e ps = ⟨"", some (.expression err)⟩ := by
  rw [report, Session.start, failed]
  rfl

theorem report_of_tooMany {t : Session} {i : Inference} (started : Session.start e ps = .ok (t, i))
    (table : o.table = true) (many : maxFree < t.valuation.freeLetters.length) :
    report o e ps = ⟨(report { o with table := false } e ps).output,
      some (.tooManyVariables ⟨t.valuation.freeLetters.length, maxFree⟩)⟩ := by
  simp [report, started, table, TruthTable.ofSession, Nat.not_le.2 many]

theorem reportWith_entered (asks : o.expression = none) (held : Dialogue.hold input = (.entered e ps, text)) :
    reportWith o input = (report o e (ps ++ o.predicates)).after text := by
  rw [reportWith, asks, held]
  rfl

theorem reportWith_entering (o : Options) (e : String) (ps : List String) (input : List UInt8) :
    reportWith (o.entering e ps) input = report o e (ps ++ o.predicates) := rfl

theorem reportWith_of_error {err : ExpressionError} (asks : o.expression = none)
    (held : Dialogue.hold input = (.entered e ps, text)) (failed : Session.parse e = .error err) :
    reportWith o input = ⟨text, some (.expression err)⟩ := by
  rw [reportWith_entered asks held, report_of_error failed, Report.after, String.append_empty]

theorem reportWith_of_tooMany {t : Session} {i : Inference} (asks : o.expression = none)
    (held : Dialogue.hold input = (.entered e ps, text)) (started : Session.start e (ps ++ o.predicates) = .ok (t, i))
    (table : o.table = true) (many : maxFree < t.valuation.freeLetters.length) :
    reportWith o input = ⟨text ++ (report { o with table := false } e (ps ++ o.predicates)).output,
      some (.tooManyVariables ⟨t.valuation.freeLetters.length, maxFree⟩)⟩ := by
  rw [reportWith_entered asks held, report_of_tooMany started table many, Report.after]

/-- After a dialogue a command prints and fails as it does when all that was entered is among its options. What the
dialogue printed comes first. Nothing follows it if the expression cannot be read, and all but the table if the table
would be too large. -/
theorem reportWith_dialogue (asks : o.expression = none) (held : Dialogue.hold input = (.entered e ps, text)) :
    (∀ other,
      (reportWith o input).output = text ++ (reportWith (o.entering e ps) other).output ∧
      (reportWith o input).exitCode = (reportWith (o.entering e ps) other).exitCode ∧
      (reportWith o input).message = (reportWith (o.entering e ps) other).message) ∧
    (∀ err, Session.parse e = .error err → reportWith o input = ⟨text, some (.expression err)⟩) ∧
    (∀ t i, Session.start e (ps ++ o.predicates) = .ok (t, i) → o.table = true →
      maxFree < t.valuation.freeLetters.length →
      reportWith o input = ⟨text ++ (report { o with table := false } e (ps ++ o.predicates)).output,
        some (.tooManyVariables ⟨t.valuation.freeLetters.length, maxFree⟩)⟩) := by
  refine ⟨fun other => ?_, fun err => reportWith_of_error asks held, fun t i => reportWith_of_tooMany asks held⟩
  rw [reportWith_entered asks held, reportWith_entering]
  exact ⟨rfl, rfl, rfl⟩

theorem reportWith_dialogue_contradictory :
    (reportWith ⟨none, ["~P"], true, true⟩ [80, 10, 80, 10]).output =
        (Dialogue.hold [80, 10, 80, 10]).2 ++ (reportWith ⟨some "P", ["P", "~P"], true, true⟩ []).output ∧
      (reportWith ⟨none, ["~P"], true, true⟩ [80, 10, 80, 10]).exitCode =
        (reportWith ⟨some "P", ["P", "~P"], true, true⟩ []).exitCode ∧
      (reportWith ⟨none, ["~P"], true, true⟩ [80, 10, 80, 10]).message =
        (reportWith ⟨some "P", ["P", "~P"], true, true⟩ []).message := by
  have held : Dialogue.hold [80, 10, 80, 10] = (.entered "P" ["P"], (Dialogue.hold [80, 10, 80, 10]).2) := by
    decide +kernel
  exact (reportWith_dialogue rfl held).1 []

end Agreement

section Spelling

def Options.items (o : Options) : List Item :=
  o.predicates.map (fun p => .setting .predicate (some p)) ++ (if o.table then [.table] else []) ++
    (if o.diagram then [] else [.noDiagram]) ++ o.expression.toList.map .expression

/-- A command line that says the options. Predicates are attached to their option, and the expression stands where no
word is an option, so that either may begin with a hyphen. -/
def Options.words (o : Options) : List String :=
  o.predicates.map ("--predicate=" ++ ·) ++ (if o.table then ["--table"] else []) ++
    (if o.diagram then [] else ["--no-tree"]) ++ o.expression.toList.flatMap fun e => ["--", e]

variable {s e text : String} {items : List Item} {o : Options} {ps : List String} {input : List UInt8}

theorem readItems_end (ss : List String) : readItems ("--" :: ss) = some (ss.map .expression) := if_pos rfl

theorem readItems_cons (notEnd : s ≠ "--") (word : readWord s = some ⟨items, none⟩) (ss : List String) :
    readItems (s :: ss) = (readItems ss).map (items ++ ·) := by
  simp [readItems, notEnd, word]

theorem predicate_ne_end (p : String) : "--predicate=" ++ p ≠ "--" := by
  intro h
  simpa using congrArg String.toList h

theorem readWord_predicate (p : String) :
    readWord ("--predicate=" ++ p) = some ⟨[.setting .predicate (some p)], none⟩ := by
  have chars : ("--predicate=" ++ p).toList = '-' :: '-' :: ("predicate".toList ++ '=' :: p.toList) := by simp
  have cut := Text.takeWhile_ne_append (show '=' ∉ "predicate".toList by decide) p.toList
  simp only [readWord, isOption, chars, cut, String.ofList_toList, readLong, if_true]

theorem readItems_predicates (ps ss : List String) :
    readItems (ps.map ("--predicate=" ++ ·) ++ ss) =
      (readItems ss).map (ps.map (fun p => .setting .predicate (some p)) ++ ·) := by
  induction ps with
  | nil => simp
  | cons p ps ih =>
    rw [List.map_cons, List.cons_append, readItems_cons (predicate_ne_end p) (readWord_predicate p), ih]
    simp [Function.comp_def]

theorem readItems_words (o : Options) : readItems o.words = some o.items := by
  have table : readWord "--table" = some ⟨[.table], none⟩ := by decide
  have noDiagram : readWord "--no-tree" = some ⟨[.noDiagram], none⟩ := by decide
  obtain ⟨e, ps, t, d⟩ := o
  simp only [Options.words, Options.items, List.append_assoc, readItems_predicates]
  cases e with
  | none => cases t <;> cases d <;> simp [readItems, table, noDiagram]
  | some e => cases t <;> cases d <;> simp [readItems_cons, readItems_end, table, noDiagram]

theorem filterMap_items {α : Type} (f : Item → Option α) (o : Options) :
    o.items.filterMap f = o.predicates.filterMap (fun p => f (.setting .predicate (some p))) ++
      ((if o.table then (f .table).toList else []) ++ ((if o.diagram then [] else (f .noDiagram).toList) ++
        o.expression.toList.filterMap fun e => f (.expression e))) := by
  obtain ⟨e, ps, t, d⟩ := o
  simp only [Options.items, List.filterMap_append, List.filterMap_map, Function.comp_def, List.append_assoc]
  cases t <;> cases d <;> simp [List.filterMap_cons] <;> cases f .table <;> cases f .noDiagram <;> rfl

theorem count_items {x : Item} (setting : ∀ p, x ≠ .setting .predicate (some p)) (expression : ∀ e, x ≠ .expression e)
    (o : Options) : o.items.count x =
      (if o.table then [Item.table] else []).count x + (if o.diagram then [] else [Item.noDiagram]).count x := by
  have predicates : x ∉ o.predicates.map fun p => Item.setting .predicate (some p) := by
    simpa [eq_comm] using fun p _ => setting p
  have expressions : x ∉ o.expression.toList.map Item.expression := by
    simpa [eq_comm] using fun e _ => expression e
  rw [Options.items, List.count_append, List.count_append, List.count_append, List.count_eq_zero.2 predicates,
    List.count_eq_zero.2 expressions, Nat.zero_add, Nat.add_zero]

theorem contains_of_count {x : Item} {b : Bool} (h : items.count x = b.toNat) : items.contains x = b := by
  cases b with
  | false => simpa using List.count_eq_zero.1 h
  | true => simpa using List.count_pos_iff.1 (h.symm ▸ Nat.zero_lt_one)

theorem ofItems_items (o : Options) : ofItems o.items = some o := by
  have expressions : o.items.filterMap Item.expression? = o.expression.toList := by
    simp [filterMap_items, Item.expression?]
  have predicates : o.items.filterMap (Item.occurrence? .predicate) = o.predicates.map some := by
    simp [filterMap_items, Item.occurrence?]
  have levels : o.items.filterMap (Item.occurrence? .logLevel) = [] := by
    simp [filterMap_items, Item.occurrence?]
  have tables : o.items.count .table = o.table.toNat := by
    rw [count_items (by simp) (by simp)]
    cases o.table <;> cases o.diagram <;> rfl
  have noDiagrams : o.items.count .noDiagram = (!o.diagram).toNat := by
    rw [count_items (by simp) (by simp)]
    cases o.table <;> cases o.diagram <;> rfl
  simp only [ofItems, expressions, predicates, levels, tables, noDiagrams, contains_of_count tables,
    contains_of_count noDiagrams]
  simp [Bool.toNat_le]

theorem readOptions_words (o : Options) : readOptions o.words = some o := by
  rw [readOptions, readItems_words, Option.bind_some, ofItems_items]

theorem run_of_readOptions {args : List String} (parsed : readOptions args = some o) (input : List UInt8) :
    run args input = reportWith o input := by
  rw [run, parsed]

/-- The same of command lines: there is one that says the options with what was entered among them, and each that says
them prints and fails as after the dialogue. -/
theorem run_dialogue {args : List String} (parsed : readOptions args = some o) (asks : o.expression = none)
    (held : Dialogue.hold input = (.entered e ps, text)) :
    (∃ words, readOptions words = some (o.entering e ps)) ∧
    (∀ words other, readOptions words = some (o.entering e ps) →
      (run args input).output = text ++ (run words other).output ∧
      (run args input).exitCode = (run words other).exitCode ∧
      (run args input).message = (run words other).message) ∧
    (∀ err, Session.parse e = .error err → run args input = ⟨text, some (.expression err)⟩) ∧
    (∀ t i, Session.start e (ps ++ o.predicates) = .ok (t, i) → o.table = true →
      maxFree < t.valuation.freeLetters.length →
      run args input = ⟨text ++ (report { o with table := false } e (ps ++ o.predicates)).output,
        some (.tooManyVariables ⟨t.valuation.freeLetters.length, maxFree⟩)⟩) := by
  rw [run_of_readOptions parsed]
  refine ⟨⟨_, readOptions_words _⟩, fun words other said => ?_, fun err => reportWith_of_error asks held,
    fun t i => reportWith_of_tooMany asks held⟩
  rw [run_of_readOptions said, reportWith_entered asks held, reportWith_entering]
  exact ⟨rfl, rfl, rfl⟩

end Spelling

end FourValued.CommandLine
