/-!
# Command lines

What a list of arguments asks for. Arguments are read from the left: options are recognised up to a
lone double dash, an option takes the rest of its argument or the next one as its value, and whatever
else does not begin with a dash is the file. The first thing that is not understood makes the whole
line a usage error.
-/
namespace RegionIR.Command

/-- An intermediate stage that can be dumped. -/
inductive Stage where
  | ast
  | ir
  deriving DecidableEq

def Stage.ofText? : String → Option Stage
  | "ast" => some .ast
  | "ir" => some .ir
  | _ => none

/-- Which help is asked for. -/
inductive Topic where
  | general
  | build
  | stats
  | help
  deriving DecidableEq

inductive Request where
  | build (file : String) (dump : Option Stage) (output : Option String)
  | stats (file : String) (json : Bool)
  | help (topic : Topic)
  | version
  deriving DecidableEq

/-- Arguments that ask for nothing. -/
inductive UsageError where
  | usage
  deriving DecidableEq

/-- What an option stands for. -/
inductive Action where
  | dump
  | output
  | json
  | help
  deriving DecidableEq

/-- Whether an option has a value. -/
def Action.takesValue : Action → Bool
  | dump | output => true
  | json | help => false

/-- The options of a command, by letter and by word. -/
structure Options where
  letter? : Char → Option Action
  word? : String → Option Action

def buildOptions : Options where
  letter?
    | 'd' => some .dump
    | 'o' => some .output
    | 'h' => some .help
    | _ => none
  word?
    | "dump" => some .dump
    | "output" => some .output
    | "help" => some .help
    | _ => none

def statsOptions : Options where
  letter?
    | 'h' => some .help
    | _ => none
  word?
    | "json" => some .json
    | "help" => some .help
    | _ => none

/-- What has been read of a command's arguments. -/
structure Seen where
  file : Option String := none
  dump : Option Stage := none
  output : Option String := none
  json : Bool := false

/-- How reading the arguments of a command ends. -/
inductive Parsed where
  | complete (seen : Seen)
  | help

/-- An argument by its form. -/
inductive Form where
  /-- A lone double dash. -/
  | divider
  | long (word : String) (value : Option String)
  | short (letters : List Char)
  | plain (text : String)

/-- The part of a list after its first equals sign, if it has one, and the part before it. -/
def splitEquals (cs : List Char) : List Char × Option (List Char) :=
  match cs.dropWhile (· != '=') with
  | [] => (cs, none)
  | _ :: value => (cs.takeWhile (· != '='), some value)

def Form.ofText (arg : String) : Form :=
  match arg.toList with
  | ['-', '-'] => .divider
  | '-' :: '-' :: rest =>
    let (word, value) := splitEquals rest
    .long (String.ofList word) (value.map String.ofList)
  | '-' :: c :: rest => .short (c :: rest)
  | _ => .plain arg

/-- Notes the file; there is only one. -/
def Seen.withFile (s : Seen) (file : String) : Except UsageError Seen :=
  if s.file.isSome then .error .usage else .ok { s with file := some file }

/-- Notes an option with its value; each may be given once. -/
def Seen.withValue (s : Seen) (action : Action) (value : String) : Except UsageError Seen :=
  match action with
  | .dump =>
    match Stage.ofText? value with
    | some stage => if s.dump.isSome then .error .usage else .ok { s with dump := some stage }
    | none => .error .usage
  | .output =>
    if s.output.isSome || value = "" then .error .usage else .ok { s with output := some value }
  | _ => .error .usage

/-- Notes a flag; it may be given once. -/
def Seen.withFlag (s : Seen) : Except UsageError Seen :=
  if s.json then .error .usage else .ok { s with json := true }

/-- What one argument amounts to. -/
inductive Effect where
  | seen (s : Seen)
  /-- The next argument is the value of an option. -/
  | awaits (action : Action)
  | help

/-- The value of an option that follows its letter, with an equals sign or without. -/
def attached : List Char → Option String
  | [] => none
  | '=' :: value => some (String.ofList value)
  | value => some (String.ofList value)

/-- Reads letters that share a dash. An option that takes a value takes all that follows it. -/
def readLetters (options : Options) (s : Seen) : List Char → Except UsageError Effect
  | [] => .ok (.seen s)
  | c :: rest =>
    match options.letter? c with
    | none => .error .usage
    | some .help => .ok .help
    | some .json => do readLetters options (← s.withFlag) rest
    | some action =>
      match attached rest with
      | none => .ok (.awaits action)
      | some value => do return .seen (← s.withValue action value)

/-- Reads an option given by a word. -/
def readWord (options : Options) (s : Seen) (word : String) (value : Option String) :
    Except UsageError Effect :=
  match options.word? word, value with
  | none, _ => .error .usage
  | some action, none =>
    match action with
    | .help => .ok .help
    | .json => do return .seen (← s.withFlag)
    | _ => .ok (.awaits action)
  | some action, some v =>
    if action.takesValue then do return .seen (← s.withValue action v) else .error .usage

/-- Reads the arguments of a command. After a divider all arguments are plain; `awaited` is the option
whose value comes next. -/
def readArguments (options : Options) (s : Seen) (divided : Bool) (awaited : Option Action) :
    List String → Except UsageError Parsed
  | [] => if awaited.isSome then .error .usage else .ok (.complete s)
  | arg :: rest =>
    match if divided then .plain arg else Form.ofText arg with
    | .plain text =>
      match awaited with
      | some action => do
        readArguments options (← s.withValue action text) divided none rest
      | none => do readArguments options (← s.withFile text) divided none rest
    | form =>
      if awaited.isSome then .error .usage
      else
        match form with
        | .divider => readArguments options s true none rest
        | .plain _ => .error .usage
        | .short letters => do
          match ← readLetters options s letters with
          | .seen s => readArguments options s divided none rest
          | .awaits action => readArguments options s divided (some action) rest
          | .help => return .help
        | .long word value => do
          match ← readWord options s word value with
          | .seen s => readArguments options s divided none rest
          | .awaits action => readArguments options s divided (some action) rest
          | .help => return .help

/-- The topic named by the arguments of the help command. -/
def helpTopic : List String → Except UsageError Request
  | [] => .ok (.help .general)
  | ["build"] => .ok (.help .build)
  | ["stats"] => .ok (.help .stats)
  | ["help"] => .ok (.help .help)
  | _ => .error .usage

def buildRequest (args : List String) : Except UsageError Request := do
  match ← readArguments buildOptions {} false none args with
  | .help => return .help .build
  | .complete s =>
    match s.file with
    | some file => return .build file s.dump s.output
    | none => .error .usage

def statsRequest (args : List String) : Except UsageError Request := do
  match ← readArguments statsOptions {} false none args with
  | .help => return .help .stats
  | .complete s =>
    match s.file with
    | some file => return .stats file s.json
    | none => .error .usage

/-- What a command line asks for. Before the command only help and the version can be. -/
def Request.ofArguments : List String → Except UsageError Request
  | [] => .error .usage
  | "build" :: args => buildRequest args
  | "stats" :: args => statsRequest args
  | "help" :: args => helpTopic args
  | arg :: _ =>
    match Form.ofText arg with
    | .long "help" none | .short ('h' :: _) => .ok (.help .general)
    | .long "version" none | .short ('V' :: _) => .ok .version
    | _ => .error .usage

end RegionIR.Command
