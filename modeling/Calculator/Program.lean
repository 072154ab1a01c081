import Calculator.CommandLine
import Calculator.Script
import Calculator.Session
import Calculator.Settings.File

/-!
# The program

What the program does with its arguments is a function of its surroundings: the files it can read,
its input, the settings file that holds for all its runs, and whether it writes to a terminal. The
settings file is read before anything else is done, so a fault in it comes before all others but
usage errors.
-/

namespace Calculator

structure Surroundings where
  /-- The content of a file, if it can be read. -/
  file : String → Option ByteArray
  input : ByteArray
  /-- The path and the content of the settings file that is read when no other is named. -/
  standing : Option (String × ByteArray)
  onTerminal : Bool

/-- Why the program gives up, whatever the expressions are. -/
inductive Failure where
  | unreadableScript (path : String)
  | unreadableSettings (path : String)
  | invalidSettings (path : String)
  | unreadableLine
deriving DecidableEq, Repr

def Failure.message : Failure → String
  | unreadableScript path => "Error reading file: " ++ path
  | unreadableSettings path => "Error reading config file: " ++ path
  | invalidSettings path => "Error parsing config file: " ++ path
  | unreadableLine => "Error reading line"

inductive Status where
  | success
  | failure
  | usage
deriving DecidableEq, Repr

def Status.code : Status → Nat
  | success => 0
  | failure => 1
  | usage => 2

structure Ending where
  status : Status
  output : String
  failure : Option Failure
deriving DecidableEq, Repr

namespace Ending

def ofAnswer (a : Answer) : Ending :=
  ⟨if a.succeeded then .success else .failure, a.output, none⟩

def ofFailure (output : String) (f : Failure) : Ending :=
  ⟨.failure, output, some f⟩

def usageError : Ending :=
  ⟨.usage, "", none⟩

end Ending

namespace Program

def fileText? (s : Surroundings) (path : String) : Option String :=
  (s.file path).bind String.fromUTF8?

def readSettings (path : String) (text : Option String) : Except Failure Settings :=
  match text with
  | none => .error (.unreadableSettings path)
  | some text =>
    match Settings.read? text with
    | none => .error (.invalidSettings path)
    | some settings => .ok settings

/-- The settings of the named file, else of the standing one, else the defaults. -/
def fileSettings (s : Surroundings) (named : Option String) : Except Failure Settings :=
  match named, s.standing with
  | some path, _ => readSettings path (fileText? s path)
  | none, some (path, content) => readSettings path (String.fromUTF8? content)
  | none, none => .ok {}

def presentation (s : Surroundings) (options : Options) : Except Failure Presentation :=
  (fileSettings s options.file).map fun settings =>
    (options.over settings).presentation s.onTerminal

def perform (s : Surroundings) (p : Presentation) : Task → Ending
  | .evaluate expression => .ofAnswer (Answer.give p .evaluate none expression)
  | .script mode path =>
    match fileText? s path with
    | none => .ofFailure "" (.unreadableScript path)
    | some text => .ofAnswer (Script.run p mode text)
  | .session =>
    let t := Session.transcript p s.input
    if t.broken then .ofFailure t.output .unreadableLine else ⟨.success, t.output, none⟩

/-- A request without a task is a usage error, found once the settings have been read. -/
def answer (s : Surroundings) (r : Request) : Ending :=
  match presentation s r.options with
  | .error f => .ofFailure "" f
  | .ok p =>
    match r.task with
    | none => .usageError
    | some task => perform s p task

def versionText : String :=
  "yard 0.1.0\n"

/-- A short help, in words of its own. -/
def helpText : String :=
  "Evaluate arithmetic expressions from the command line\n\n" ++
  "Usage: yard [OPTIONS] [-- <EXPRESSION>...]\n" ++
  "       yard [OPTIONS] <COMMAND>\n\n" ++
  "Commands:\n" ++
  "  run, r          Evaluate every non-blank line of a file\n" ++
  "  check, c        Check every non-blank line of a file, without evaluating\n" ++
  "  interactive, i  Start an interactive repl\n" ++
  "  help            Print this help\n\n" ++
  "Options:\n" ++
  "  -f, --format <FORMAT>        pretty or json\n" ++
  "  -e, --emit <EMIT>            value, tokens or postfix\n" ++
  "      --color <COLOR>          auto, always or never\n" ++
  "      --precision <PRECISION>  Fixed number of decimals for printed values\n" ++
  "  -c, --config <CONFIG>        Config file\n" ++
  "  -h, --help                   Print help\n" ++
  "  -V, --version                Print version\n"

def run (s : Surroundings) (args : List String) : Ending :=
  match CommandLine.read args with
  | .request r => answer s r
  | .version => ⟨.success, versionText, none⟩
  | .help => ⟨.success, helpText, none⟩
  | .usageError => .usageError

end Program

end Calculator
