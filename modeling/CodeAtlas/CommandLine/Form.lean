/-!
The forms of command lines, and the reading of words by them. An option is given by its long name,
with a value after an equals sign or in the next word, or by a dash and one letter; after a lone
pair of dashes nothing is an option any more. Reading goes from left to right, and the first thing
that is out of form ends it.
-/

namespace CodeAtlas.CommandLine

/-- Why no command comes of a command line. -/
inductive Halt where
  /-- It is out of form. -/
  | misused
  | helpWanted
  | versionWanted
  deriving DecidableEq, Repr

inductive Value where
  | text
  | path
  | number
  deriving DecidableEq, Repr

/-- The number that digits write, perhaps after a plus sign, if it fits in 64 bits. -/
def number? (s : String) : Option Nat :=
  let digits :=
    match s.toList with
    | '+' :: ds => ds
    | ds => ds
  if digits.isEmpty || !digits.all Char.isDigit then none
  else
    let n := Nat.ofDigitChars 10 digits 0
    if n < UInt64.size then some n else none

/-- Whether a text can be such a value: paths are not empty, and numbers can be read. -/
def Value.accepts : Value → String → Bool
  | text, _ => true
  | path, s => s != ""
  | number, s => (number? s).isSome

/-- An option; one without a value is a flag. -/
structure OptionForm where
  name : String
  letter : Option Char := none
  value : Option Value := none
  deriving DecidableEq, Repr

/-- The form of a command line, or of the part before the name of a command. -/
structure Form where
  options : List OptionForm
  /-- What the words that are no options may be; further ones are out of form. -/
  words : List Value
  /-- Whether it ends with its first word, and has a version. -/
  isOuter : Bool := false
  deriving DecidableEq, Repr

/-- What has been read: options by name, a flag with an empty value, and words. -/
structure Given where
  options : List (String × String) := []
  words : List String := []
  deriving DecidableEq, Repr

inductive Token where
  | word (s : String)
  /-- A pair of dashes with nothing after them. -/
  | onlyWords
  | long (name : String) (value : Option String)
  /-- A dash and a letter, with what follows it in the same word. -/
  | short (letter : Char) (rest : List Char)
  deriving DecidableEq, Repr

/-- A lone dash is a word. -/
def Token.ofText (s : String) : Token :=
  match s.toList with
  | ['-', '-'] => .onlyWords
  | '-' :: '-' :: cs =>
    let name := String.ofList (cs.takeWhile (· != '='))
    match cs.dropWhile (· != '=') with
    | [] => .long name none
    | _ :: value => .long name (some (String.ofList value))
  | '-' :: c :: cs => .short c cs
  | _ => .word s

/-- The value that follows a letter in the same word, perhaps after an equals sign. -/
def attached? : List Char → Option String
  | [] => none
  | '=' :: cs => some (String.ofList cs)
  | cs => some (String.ofList cs)

/-- The value that the next word gives, unless it looks like an option. -/
def nextValue? (s : String) : Option String :=
  match Token.ofText s with
  | .word s => some s
  | _ => none

namespace Given

def addWord (f : Form) (g : Given) (s : String) : Except Halt Given :=
  match f.words[g.words.length]? with
  | some v => if v.accepts s then .ok { g with words := g.words ++ [s] } else .error .misused
  | none => .error .misused

/-- With a flag; no option is given twice. -/
def addFlag (o : OptionForm) (g : Given) : Except Halt Given :=
  if (g.options.lookup o.name).isSome then .error .misused
  else .ok { g with options := g.options ++ [(o.name, "")] }

def addValue (o : OptionForm) (v : Value) (g : Given) (s : String) : Except Halt Given :=
  if (g.options.lookup o.name).isSome || !v.accepts s then .error .misused
  else .ok { g with options := g.options ++ [(o.name, s)] }

def hasFlag (g : Given) (name : String) : Bool :=
  (g.options.lookup name).isSome

def value? (g : Given) (name : String) : Option String :=
  g.options.lookup name

def number? (g : Given) (name : String) : Option Nat :=
  (g.value? name).bind CommandLine.number?

end Given

namespace Form

/-- The option a token asks for, with the value the same word gives it. Every form has an option for
help, and an outer one has another for the version. -/
def asked (f : Form) : Token → Except Halt (OptionForm × Option String)
  | .long name value =>
    match f.options.find? fun o => o.name == name with
    | some o => .ok (o, value)
    | none =>
      if value.isSome then .error .misused
      else if name == "help" then .error .helpWanted
      else if name == "version" && f.isOuter then .error .versionWanted
      else .error .misused
  | .short c rest =>
    match f.options.find? fun o => o.letter == some c with
    | some o => .ok (o, attached? rest)
    | none =>
      if c == 'h' then .error .helpWanted
      else if c == 'V' && f.isOuter then .error .versionWanted
      else .error .misused
  | _ => .error .misused

/-- Reads words by a form; gives what is left when an outer form ends. -/
def read (f : Form) : Given → List String → Except Halt (Given × List String)
  | g, [] => .ok (g, [])
  | g, s :: ss =>
    match Token.ofText s with
    | .word s => do
      let g ← g.addWord f s
      if f.isOuter then return (g, ss) else read f g ss
    | .onlyWords =>
      if f.isOuter then if ss.isEmpty then .ok (g, []) else .error .misused
      else (ss.foldlM (Given.addWord f) g).map fun g => (g, [])
    | token => do
      let (o, here?) ← f.asked token
      match o.value, here?, ss with
      | none, none, ss => read f (← g.addFlag o) ss
      | none, some _, _ => .error .misused
      | some v, some value, ss => read f (← g.addValue o v value) ss
      | some _, none, [] => .error .misused
      | some v, none, next :: ss =>
        match nextValue? next with
        | some value => read f (← g.addValue o v value) ss
        | none => .error .misused

end Form

end CodeAtlas.CommandLine
