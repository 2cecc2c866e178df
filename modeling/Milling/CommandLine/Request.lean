import Milling.Decimal.Literal
/-!
What a command line asks for, and reading it from its arguments.

Options may stand before or after the file of a command, and the settings file also before the
command. A value follows its option as the next argument or after an equals sign; only after an
equals sign may it start with a hyphen. After two hyphens every argument is the name of a file.
-/

namespace Milling.CommandLine

inductive Source
  | file (path : String)
  | template (id : String)
deriving DecidableEq, Inhabited

inductive Task
  /-- Prints the size and the totals of a program. -/
  | stats (source : Source)
  /-- Prints the issues of a program file. -/
  | validate (path : String)
  /-- Plays a program and prints how that went. -/
  | simulate (source : Source) (speed : Option Float) (fps : Nat)
  /-- Prints the built-in programs. -/
  | templates
deriving Inhabited

/-- A task and the settings file to use. -/
structure Request where
  config : Option String
  task : Task
deriving Inhabited

inductive Stop
  /-- They ask for the version of the program. -/
  | version
  /-- They ask for help. -/
  | help
  /-- They are wrong. -/
  | misuse
deriving DecidableEq, Inhabited

/-- An option that takes a value. -/
inductive Setting
  | config
  | template
  | speed
  | fps
deriving DecidableEq, Inhabited

def Setting.name : Setting → String
  | config => "config"
  | template => "template"
  | speed => "speed"
  | fps => "fps"

inductive Verb
  | stats
  | validate
  | simulate
  | templates
deriving DecidableEq, Inhabited

namespace Verb

def name : Verb → String
  | stats => "stats"
  | validate => "validate"
  | simulate => "simulate"
  | templates => "templates"

def all : List Verb :=
  [stats, validate, simulate, templates]

def ofName? (s : String) : Option Verb :=
  all.find? (name · == s)

def settings : Verb → List Setting
  | stats => [.config, .template]
  | validate => [.config]
  | simulate => [.config, .template, .speed, .fps]
  | templates => [.config]

def takesFile : Verb → Bool
  | templates => false
  | _ => true

end Verb

/-! ### Values -/

/-- An integer with an optional sign that is a count of frames: not negative, and of 32 bits. -/
def fps? (s : String) : Option Nat :=
  let (negative, digits) := match s.toList with
    | '-' :: rest => (true, rest)
    | '+' :: rest => (false, rest)
    | rest => (false, rest)
  let n := Decimal.value digits
  if digits.isEmpty || !digits.all Char.isDigit || UInt32.size ≤ n || (negative && n != 0) then none
  else some n

/-- What arguments have told so far. -/
structure Given where
  config : Option String := none
  template : Option String := none
  speed : Option Float := none
  fps : Option Nat := none
  file : Option String := none
deriving Inhabited

namespace Given

/-- Takes a file or a settings file: it must be the only one and have a name. -/
def takeName (old : Option String) (name : String) : Option String :=
  if old.isSome || name == "" then none else some name

/-- Takes the value of an option. Fails if it is no value for it or if the option has one. -/
def take (g : Given) (value : String) : Setting → Option Given
  | .config => (takeName g.config value).map ({ g with config := some · })
  | .template => if g.template.isSome then none else some { g with template := some value }
  | .speed =>
    if g.speed.isSome then none
    else (Decimal.float? value.toList).map ({ g with speed := some · })
  | .fps => if g.fps.isSome then none else (fps? value).map ({ g with fps := some · })

/-- Takes the name of a file after a command. -/
def takeFile (g : Given) (verb : Verb) (path : String) : Option Given :=
  if verb.takesFile then (takeName g.file path).map ({ g with file := some · }) else none

/-- The source of a program: a file or a template, and not both. -/
def source? (g : Given) : Option Source :=
  match g.file, g.template with
  | some path, none => some (.file path)
  | none, some id => some (.template id)
  | _, _ => none

def defaultFps : Nat := 60

/-- The task of a command, if nothing is missing. -/
def task? (g : Given) : Verb → Option Task
  | .stats => g.source?.map .stats
  | .validate => g.file.map .validate
  | .simulate => g.source?.map (.simulate · g.speed (g.fps.getD defaultFps))
  | .templates => some .templates

end Given

/-! ### Arguments -/

/-- What the start of an argument tells. -/
inductive Lead
  /-- It is no option. -/
  | word
  /-- An option with its value. -/
  | complete (setting : Setting) (value : String)
  /-- An option whose value is the next argument. -/
  | pending (setting : Setting)
  /-- It asks for something else than a task, or is wrong. -/
  | stop (why : Stop)
deriving Inhabited

/-- What an argument after two hyphens tells, where `settings` are the options that are known and
`versioned` tells whether the version may be asked for. -/
def leadLong (settings : List Setting) (versioned : Bool) (s : List Char) : Lead :=
  let name := String.ofList (s.takeWhile (· != '='))
  match settings.find? (·.name == name), s.dropWhile (· != '=') with
  | some setting, _ :: value => .complete setting (String.ofList value)
  | some setting, [] => .pending setting
  | none, [] =>
    if name == "help" then .stop .help
    else if versioned && name == "version" then .stop .version
    else .stop .misuse
  | none, _ => .stop .misuse

/-- What an argument after one hyphen tells. -/
def leadShort (versioned : Bool) (c : Char) (rest : List Char) : Lead :=
  if c == 'c' then
    match rest with
    | [] => .pending .config
    | '=' :: value => .complete .config (String.ofList value)
    | value => .complete .config (String.ofList value)
  else if c == 'h' then .stop .help
  else if versioned && c == 'V' then .stop .version
  else .stop .misuse

def lead (settings : List Setting) (versioned : Bool) (arg : String) : Lead :=
  match arg.toList with
  | '-' :: '-' :: rest => leadLong settings versioned rest
  | '-' :: c :: rest => leadShort versioned c rest
  | _ => .word

/-- An argument can be the value of the option before it. -/
def isValue (arg : String) : Bool :=
  match arg.toList with
  | '-' :: _ :: _ => false
  | _ => true

/-- Reads the arguments after a command. Once `wordsOnly` is set, all of them are words. -/
def readArguments (verb : Verb) (wordsOnly : Bool) (g : Given) :
    List String → Except Stop Given
  | [] => .ok g
  | arg :: rest =>
    if !wordsOnly && arg == "--" then readArguments verb true g rest
    else
      match if wordsOnly then .word else lead verb.settings false arg with
      | .stop why => .error why
      | .word =>
        match g.takeFile verb arg with
        | some g => readArguments verb wordsOnly g rest
        | none => .error .misuse
      | .complete setting value =>
        match g.take value setting with
        | some g => readArguments verb wordsOnly g rest
        | none => .error .misuse
      | .pending setting =>
        match rest with
        | [] => .error .misuse
        | value :: rest =>
          match if isValue value then g.take value setting else none with
          | some g => readArguments verb wordsOnly g rest
          | none => .error .misuse

/-- Reads the arguments after the word `help`: at most the name of a command. -/
def readHelp : List String → Stop
  | [] => .help
  | [name] => if name == "help" || (Verb.ofName? name).isSome then .help else .misuse
  | _ => .misuse

/-- Reads a command line, where `g` holds the settings file given before the command. One given
after the command comes first. -/
def readRequest (g : Given) : List String → Except Stop Request
  | [] => .error .misuse
  | arg :: rest =>
    match Verb.ofName? arg with
    | some verb =>
      match readArguments verb false {} rest with
      | .error why => .error why
      | .ok given =>
        match given.task? verb with
        | some task => .ok ⟨given.config <|> g.config, task⟩
        | none => .error .misuse
    | none =>
      if arg == "help" then .error (readHelp rest)
      else
        match lead [.config] true arg with
        | .stop why => .error why
        | .word => .error .misuse
        | .complete setting value =>
          match g.take value setting with
          | some g => readRequest g rest
          | none => .error .misuse
        | .pending setting =>
          match rest with
          | [] => .error .misuse
          | value :: rest =>
            match if isValue value then g.take value setting else none with
            | some g => readRequest g rest
            | none => .error .misuse

/-- The request that a command line is. -/
def Request.ofArguments (args : List String) : Except Stop Request :=
  readRequest {} args

def Request.files (r : Request) : List String :=
  r.config.toList ++ match r.task with
    | .stats (.file path) | .validate path | .simulate (.file path) _ _ => [path]
    | _ => []

end Milling.CommandLine
