import ExprTree.Benchmark
/-!
# Command line

The arguments of the benchmark program and its answers. Arguments are read in
order. An option takes its value after `=` or as the next argument, which then
must not start with a dash; the value is looked at only when the next known
option or the end is reached, so an argument that is not known is reported
before a bad value in front of it.
-/

namespace ExprTree.CommandLine

inductive Opt where
  | seed
  | trees
  | depth
  | freeVars
  | report
deriving DecidableEq

inductive Flag where
  | noOptimize
  | noCodeMotion
  | progress
deriving DecidableEq

def Opt.name : Opt → String
  | seed => "seed"
  | trees => "trees"
  | depth => "depth"
  | freeVars => "free-vars"
  | report => "report"

def Flag.name : Flag → String
  | noOptimize => "no-optimize"
  | noCodeMotion => "no-code-motion"
  | progress => "progress"

def Opt.ofName? (name : String) : Option Opt :=
  [seed, trees, depth, freeVars, report].find? (·.name == name)

def Flag.ofName? (name : String) : Option Flag :=
  [noOptimize, noCodeMotion, progress].find? (·.name == name)

def Opt.text (o : Opt) : String :=
  "--" ++ o.name ++ " <" ++ o.name ++ ">"

def Flag.text (f : Flag) : String :=
  "--" ++ f.name

/-! ## Numbers -/

inductive NumberError where
  | empty
  | invalidDigit
  | tooLarge
deriving DecidableEq

def NumberError.message : NumberError → String
  | empty => "cannot parse integer from empty string"
  | invalidDigit => "invalid digit found in string"
  | tooLarge => "number too large to fit in target type"

/-- Read decimal digits onto `n`. The first character that makes the text no
number, or the number too large, decides about the error. -/
def readDigits (n : Nat) : List Char → Except NumberError Nat
  | [] => .ok n
  | c :: rest =>
      if c.isDigit then
        let n := 10 * n + (c.toNat - '0'.toNat)
        if n < wordLimit then readDigits n rest else .error .tooLarge
      else
        .error .invalidDigit

/-- Read a machine word, which may have a plus sign in front. -/
def readWord : List Char → Except NumberError Nat
  | [] => .error .empty
  | ['+'] => .error .invalidDigit
  | '+' :: rest => readDigits 0 rest
  | rest => readDigits 0 rest

/-! ## Reading of arguments -/

inductive UsageError where
  | invalidValue (opt : Opt) (value : String) (reason : NumberError)
  | missingValue (opt : Opt)
  | unexpectedArgument (arg : String)
  /-- A value was given to something that takes none. -/
  | unexpectedValue (name value : String)
  | repeated (shown : String)

def UsageError.message : UsageError → String
  | invalidValue opt value reason =>
      "invalid value '" ++ value ++ "' for '" ++ opt.text ++ "': " ++ reason.message
  | missingValue opt => "a value is required for '" ++ opt.text ++ "' but none was supplied"
  | unexpectedArgument arg => "unexpected argument '" ++ arg ++ "' found"
  | unexpectedValue name value =>
      "unexpected value '" ++ value ++ "' for '" ++ name ++ "' found; no more were expected"
  | repeated shown => "the argument '" ++ shown ++ "' cannot be used multiple times"

structure Config where
  bench : BenchConfig
  /-- Where to write the report; standard output if there is no path. -/
  report : Option String

def Config.default : Config :=
  ⟨⟨0, 100, 8, 2, .both⟩, none⟩

inductive Request where
  | run (config : Config)
  | version
  | help

structure Reading where
  config : Config
  opts : List Opt
  flags : List Flag
  /-- An option whose value has not been looked at, and its value if there is one. -/
  pending : Option (Opt × Option String)

def Reading.start : Reading :=
  ⟨.default, [], [], none⟩

def setOpt (config : Config) (opt : Opt) (value : String) : Except UsageError Config := do
  match opt with
  | .report => return { config with report := some value }
  | opt =>
      match readWord value.toList with
      | .error reason => throw (.invalidValue opt value reason)
      | .ok n =>
          let bench := config.bench
          match opt with
          | .seed => return { config with bench := { bench with seed := n } }
          | .trees => return { config with bench := { bench with trees := n } }
          | .depth => return { config with bench := { bench with depth := n } }
          | .freeVars => return { config with bench := { bench with freeVars := n } }
          | .report => return config

def setFlag (config : Config) : Flag → Config
  | .noOptimize =>
      let passes := { config.bench.passes with folding := false }
      { config with bench := { config.bench with passes } }
  | .noCodeMotion =>
      let passes := { config.bench.passes with hoisting := false }
      { config with bench := { config.bench with passes } }
  | .progress => config

namespace Reading

/-- Look at the value of the option that waits for it. -/
def settle (r : Reading) : Except UsageError Reading := do
  match r.pending with
  | none => return r
  | some (opt, none) => throw (.missingValue opt)
  | some (opt, some value) =>
      if opt ∈ r.opts then
        throw (.repeated opt.text)
      else
        let config ← setOpt r.config opt value
        return ⟨config, opt :: r.opts, r.flags, none⟩

def addFlag (r : Reading) (flag : Flag) : Except UsageError Reading := do
  let r ← r.settle
  if flag ∈ r.flags then
    throw (.repeated flag.text)
  else
    return ⟨setFlag r.config flag, r.opts, flag :: r.flags, none⟩

end Reading

inductive Step where
  | next (r : Reading)
  | stop (request : Request)
  /-- Arguments after this one are no options. -/
  | endOfOptions (r : Reading)

/-- The parts of a long option: its name, and its value after `=`. -/
def splitLong (text : List Char) : String × Option String :=
  let name := String.ofList (text.takeWhile (· ≠ '='))
  match text.dropWhile (· ≠ '=') with
  | [] => (name, none)
  | _ :: value => (name, some (String.ofList value))

def readLong (r : Reading) (text : List Char) : Except UsageError Step := do
  let (name, value) := splitLong text
  match Opt.ofName? name, Flag.ofName? name with
  | some opt, _ =>
      let r ← r.settle
      match value with
      | some value => return .next (← { r with pending := some (opt, some value) }.settle)
      | none => return .next { r with pending := some (opt, none) }
  | none, some flag =>
      match value with
      | some value => throw (.unexpectedValue flag.text value)
      | none => return .next (← r.addFlag flag)
  | none, none =>
      if name = "version" ∨ name = "help" then
        match value with
        | some value => throw (.unexpectedValue ("--" ++ name) value)
        | none =>
            let _ ← r.settle
            return .stop (if name = "version" then .version else .help)
      else
        throw (.unexpectedArgument ("--" ++ name))

def readArg (r : Reading) (arg : String) : Except UsageError Step := do
  match arg.toList with
  | ['-', '-'] => return .endOfOptions r
  | '-' :: '-' :: text => readLong r text
  | '-' :: letter :: _ =>
      if letter = 'V' then
        let _ ← r.settle
        return .stop .version
      else if letter = 'h' then
        let _ ← r.settle
        return .stop .help
      else
        throw (.unexpectedArgument (String.ofList ['-', letter]))
  | _ =>
      match r.pending with
      | some (opt, none) => return .next { r with pending := some (opt, some arg) }
      | _ => throw (.unexpectedArgument arg)

def readArgs (r : Reading) : List String → Except UsageError Request
  | [] => do
      let r ← r.settle
      return .run r.config
  | arg :: rest => do
      match ← readArg r arg with
      | .stop request => return request
      | .next r => readArgs r rest
      | .endOfOptions r =>
          match rest with
          | extra :: _ => throw (.unexpectedArgument extra)
          | [] =>
              let r ← r.settle
              return .run r.config

def parse (args : List String) : Except UsageError Request :=
  readArgs .start args

/-! ## Answers -/

structure Output where
  exit : Nat
  stdout : String
  stderr : String

/-- What is left to do once the arguments are read and the benchmark is run. -/
inductive Plan where
  | finish (output : Output)
  /-- Write the report to a file. -/
  | save (path contents : String)

def versionText : String := "arbor_bench 0.1.0"

def usageText : String :=
  "Usage: arbor_bench [OPTIONS]\n"

def Opt.about : Opt → List String
  | seed => ["Seed for the random tree generator. [default: 0]"]
  | trees => ["Number of trees to generate and transform. [default: 100]"]
  | depth => ["Maximum depth of each generated tree. [default: 8]"]
  | freeVars =>
      ["Number of free integer variables the generated trees may reference. Variable 'vN' is bound",
        "to N + 1 when checking results. [default: 2]"]
  | report => ["Write the JSON report to this path instead of stdout."]

def Flag.about : Flag → List String
  | noOptimize => ["Skip the constant folding pass."]
  | noCodeMotion => ["Skip the code motion pass."]
  | progress => ["Set whether or not to show progress"]

def helpEntry (shown : String) (about : List String) : String :=
  String.join ((shown :: about.map ("          " ++ ·)).map (· ++ "\n"))

def helpText : String :=
  let opt (o : Opt) := helpEntry ("      " ++ o.text) o.about
  let flag (f : Flag) := helpEntry ("      " ++ f.text) f.about
  "Common-subexpression hoisting and constant folding for typed embedded-DSL expression trees\n\n"
    ++ usageText ++ "\nOptions:\n"
    ++ String.join ([.seed, .trees, .depth, .freeVars].map opt)
    ++ String.join ([.noOptimize, .noCodeMotion, .progress].map flag)
    ++ opt .report
    ++ helpEntry "  -h, --help" ["Print help"]
    ++ helpEntry "  -V, --version" ["Print version"]

def failed (e : BenchError) : Output :=
  ⟨e.exitStatus, "", e.notice.text⟩

def saved : Output :=
  ⟨0, "", ""⟩

def notSaved (path reason : String) : Output :=
  failed (.notWritten path reason)

def plan (fuel : Nat) (args : List String) : Plan :=
  match parse args with
  | .error e => .finish ⟨2, "", "error: " ++ e.message ++ "\n\n" ++ usageText⟩
  | .ok .version => .finish ⟨0, versionText ++ "\n", ""⟩
  | .ok .help => .finish ⟨0, helpText, ""⟩
  | .ok (.run config) =>
      match bench fuel config.bench with
      | .error e => .finish (failed e)
      | .ok report =>
          match config.report with
          | some path => .save path report.json
          | none => .finish ⟨0, report.json, ""⟩

end ExprTree.CommandLine
