/-!
# Command-line options

The words of a command line are an expression, predicates and flags. An option's value is attached to it,
after an equals sign or, for a short option, directly, or it is the next word, unless that begins with a
hyphen. Short options can share a word. After `--` no word is an option. The expression, each flag and the
level of logging can be given once. This program writes no log; the name of the level is only checked.
-/

namespace FourValued.CommandLine

inductive Setting
  | predicate
  | logLevel
  deriving DecidableEq, Repr

inductive Item
  | expression (s : String)
  | setting (o : Setting) (value : Option String)
  | table
  | noDiagram
  deriving DecidableEq, Repr

structure Word where
  items : List Item
  awaiting : Option Setting
  deriving DecidableEq, Repr

/-- A single hyphen is a word like any other. -/
def isOption (s : String) : Bool :=
  match s.toList with
  | '-' :: _ :: _ => true
  | _ => false

def readShort : List Char → Option Word
  | [] => some ⟨[], none⟩
  | 't' :: cs => (readShort cs).map fun w => { w with items := .table :: w.items }
  | ['p'] => some ⟨[], some .predicate⟩
  | 'p' :: '=' :: cs => some ⟨[.setting .predicate (String.ofList cs)], none⟩
  | 'p' :: cs => some ⟨[.setting .predicate (String.ofList cs)], none⟩
  | _ => none

def readLong (name : String) (value : Option String) : Option Word :=
  match name, value with
  | "predicate", none => some ⟨[], some .predicate⟩
  | "log-level", none => some ⟨[], some .logLevel⟩
  | "predicate", some v => some ⟨[.setting .predicate v], none⟩
  | "log-level", some v => some ⟨[.setting .logLevel v], none⟩
  | "table", none => some ⟨[.table], none⟩
  | "no-tree", none => some ⟨[.noDiagram], none⟩
  | _, _ => none

def readWord (s : String) : Option Word :=
  if isOption s then
    match s.toList with
    | '-' :: '-' :: cs =>
      let name := String.ofList (cs.takeWhile (· != '='))
      match cs.dropWhile (· != '=') with
      | [] => readLong name none
      | _ :: value => readLong name (some (String.ofList value))
    | _ :: cs => readShort cs
    | [] => none
  else some ⟨[.expression s], none⟩

def readItems : List String → Option (List Item)
  | [] => some []
  | s :: ss =>
    if s = "--" then some (ss.map .expression)
    else
      match readWord s, ss with
      | none, _ => none
      | some ⟨items, none⟩, ss => (readItems ss).map (items ++ ·)
      | some ⟨items, some o⟩, [] => some (items ++ [.setting o none])
      | some ⟨items, some o⟩, v :: rest =>
        if isOption v then (readItems (v :: rest)).map (items ++ .setting o none :: ·)
        else (readItems rest).map (items ++ .setting o (some v) :: ·)

structure Options where
  expression : Option String
  predicates : List String
  table : Bool
  diagram : Bool
  deriving DecidableEq, Repr

def logLevels : List String := ["off", "error", "warn", "info", "debug", "trace"]

def isLogLevel (s : String) : Bool := String.ofList (s.toList.map Char.toLower) ∈ logLevels

namespace Item

def expression? : Item → Option String
  | expression s => some s
  | _ => none

def occurrence? (o : Setting) : Item → Option (Option String)
  | setting o' v => if o' = o then some v else none
  | _ => none

end Item

/-- The options that the items say, if each is given as often as it may and every setting that occurs has
some value. -/
def ofItems (items : List Item) : Option Options :=
  let expressions := items.filterMap Item.expression?
  let predicates := items.filterMap (Item.occurrence? .predicate)
  let levels := items.filterMap (Item.occurrence? .logLevel)
  let stated := predicates.filterMap id
  if expressions.length ≤ 1 ∧ (predicates = [] ∨ stated ≠ []) ∧ levels.length ≤ 1 ∧
      levels.all (fun v => v.any isLogLevel) ∧ items.count .table ≤ 1 ∧ items.count .noDiagram ≤ 1 then
    some ⟨expressions.head?, stated, items.contains .table, !items.contains .noDiagram⟩
  else none

def readOptions (args : List String) : Option Options := (readItems args).bind ofItems

end FourValued.CommandLine
