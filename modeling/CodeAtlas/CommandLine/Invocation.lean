import CodeAtlas.CommandLine.Form

/-!
What a command line asks for.
-/

namespace CodeAtlas.CommandLine

inductive Command where
  /-- Brings the store up to date with a folder. -/
  | index (folder : String) (force : Bool)
  /-- Retrieves what says most about a query; what it leaves open the settings decide. -/
  | query (text : String) (maxHops tokenBudget topK : Option Nat) (asRecord : Bool)
  /-- Measures the graph of a folder without a store, and saves it if a path is given. -/
  | graph (folder : String) (output : Option String)
  deriving DecidableEq, Repr

structure Invocation where
  settingsPath : String := ""
  command : Command
  deriving DecidableEq, Repr

inductive CommandName where
  | index
  | query
  | graph
  deriving DecidableEq, Repr

def CommandName.ofText? (s : String) : Option CommandName :=
  [("index", index), ("query", query), ("graph", graph)].lookup s

/-- The option for the settings, which may stand before the name of a command or after it. -/
def settingsOption : OptionForm :=
  { name := "config", letter := some 'c', value := some .text }

/-- What may stand before the name of a command, and the name. -/
def outerForm : Form where
  options := [settingsOption]
  words := [.text]
  isOuter := true

def CommandName.form : CommandName → Form
  | index => { options := [settingsOption, { name := "force" }], words := [.path] }
  | query => {
      options := [settingsOption, { name := "max-hops", value := some .number },
        { name := "budget", value := some .number }, { name := "top-k", value := some .number },
        { name := "json" }]
      words := [.text] }
  | graph =>
    { options := [settingsOption, { name := "out", value := some .path }], words := [.path] }

/-- The command that is meant, unless its word is missing. -/
def CommandName.command? (name : CommandName) (g : Given) : Option Command :=
  g.words.head?.map fun word =>
    match name with
    | index => .index word (g.hasFlag "force")
    | query => .query word (g.number? "max-hops") (g.number? "budget") (g.number? "top-k")
        (g.hasFlag "json")
    | graph => .graph word (g.value? "out")

/-- What `help` says to the words after it: help is there for the commands and for itself. -/
def helpHalt : List String → Halt
  | [] => .helpWanted
  | [name] =>
    if name == "help" || (CommandName.ofText? name).isSome then .helpWanted else .misused
  | _ => .misused

/-- Reads a command line. Settings named after the command count before those named ahead of it. -/
def Invocation.ofWords (words : List String) : Except Halt Invocation := do
  let (outer, rest) ← outerForm.read {} words
  match outer.words with
  | [] => throw .misused
  | word :: _ =>
    match CommandName.ofText? word with
    | none => throw (if word == "help" then helpHalt rest else .misused)
    | some name =>
      let (inner, _) ← name.form.read {} rest
      match name.command? inner with
      | none => throw .misused
      | some command =>
        let path := (inner.value? settingsOption.name).or (outer.value? settingsOption.name)
        return { settingsPath := path.getD "", command }

end CodeAtlas.CommandLine
