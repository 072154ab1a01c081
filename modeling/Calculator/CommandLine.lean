import Calculator.Answer

/-!
# The command line

Arguments are read from left to right. Options may stand before a command and behind it, each at
most once on either side, and behind the command they win. Without a command, the words behind `--`
are the expression. Whatever else stands there is a usage error, and the first argument that asks
for help or for the version, with no error before it, is answered at once.
-/

namespace Calculator

structure Options extends PartialSettings where
  file : Option String := none
deriving DecidableEq, Repr

inductive OptionName where
  | format
  | emission
  | colour
  | places
  | file
deriving DecidableEq, Repr

namespace OptionName

def ofLong? (name : List Char) : Option OptionName :=
  match String.ofList name with
  | "format" => some format
  | "emit" => some emission
  | "color" => some colour
  | "precision" => some places
  | "config" => some file
  | _ => none

def ofShort? : Char → Option OptionName
  | 'f' => some format
  | 'e' => some emission
  | 'c' => some file
  | _ => none

end OptionName

/-- A number of places: digits, perhaps behind a plus sign. -/
def readPlaces? (value : String) : Option Nat :=
  let digits := match value.toList with
    | '+' :: rest => rest
    | cs => cs
  let n := Nat.ofDigitChars 10 digits 0
  if digits.isEmpty || !digits.all Char.isDigit || placesBound ≤ n then none else some n

namespace Options

/-- The options with one more, unless it was given before or the value is none of its own. -/
def set? (o : Options) (name : OptionName) (value : String) : Option Options :=
  match name with
  | .format =>
    if o.format.isSome then none
    else (Format.ofName? value).map fun f => { o with format := some f }
  | .emission =>
    if o.emission.isSome then none
    else (Emission.ofName? value).map fun e => { o with emission := some e }
  | .colour =>
    if o.colour.isSome then none
    else (ColourChoice.ofName? value).map fun c => { o with colour := some c }
  | .places =>
    if o.places.isSome then none
    else (readPlaces? value).map fun p => { o with places := some p }
  | .file =>
    if o.file.isSome || value.isEmpty then none
    else some { o with file := some value }

/-- The options of `o`, and those of `outer` where `o` has none. -/
def or (o outer : Options) : Options where
  format := o.format.or outer.format
  emission := o.emission.or outer.emission
  colour := o.colour.or outer.colour
  places := o.places.or outer.places
  file := o.file.or outer.file

end Options

inductive Task where
  | evaluate (expression : String)
  | script (mode : Mode) (path : String)
  | session
deriving DecidableEq, Repr

structure Request where
  options : Options
  task : Option Task
deriving DecidableEq, Repr

namespace CommandLine

inductive Reading where
  | request (r : Request)
  | version
  | help
  | usageError
deriving DecidableEq, Repr

inductive Argument where
  | separator
  | option (name : OptionName) (attached : Option String)
  | help
  | version
  | unknown
  | word (text : String)
deriving DecidableEq, Repr

namespace Argument

/-- An argument behind two hyphens: a name, perhaps with an equals sign and a value. -/
def ofLong (cs : List Char) : Argument :=
  let name := cs.takeWhile (· != '=')
  let attached := match cs.dropWhile (· != '=') with
    | _ :: value => some (String.ofList value)
    | [] => none
  match OptionName.ofLong? name, attached, String.ofList name with
  | some found, _, _ => .option found attached
  | none, none, "help" => help
  | none, none, "version" => version
  | _, _, _ => unknown

/-- An argument behind one hyphen: a letter, perhaps with a value right behind it. -/
def ofShort (letter : Char) (attached : List Char) : Argument :=
  match OptionName.ofShort? letter with
  | some found =>
    .option found <| match attached with
      | [] => none
      | '=' :: value => some (String.ofList value)
      | value => some (String.ofList value)
  | none => if letter = 'h' then help else if letter = 'V' then version else unknown

def ofString (arg : String) : Argument :=
  match arg.toList with
  | ['-', '-'] => separator
  | '-' :: '-' :: long => ofLong long
  | '-' :: letter :: attached => ofShort letter attached
  | _ => word arg

end Argument

inductive Command where
  | script (mode : Mode)
  | session
deriving DecidableEq, Repr

def Command.ofName? : String → Option Command
  | "run" | "r" => some (.script .evaluate)
  | "check" | "c" => some (.script .check)
  | "interactive" | "i" => some .session
  | _ => none

/-- The request of a command, which is complete if a script has its path. -/
def request (options : Options) (command : Command) (path : Option String) : Reading :=
  match command, path with
  | .script mode, some path => .request ⟨options, some (.script mode path)⟩
  | .script _, none => .usageError
  | .session, _ => .request ⟨options, some .session⟩

/-- Takes a word behind a command: a script has one path, and it is not empty. -/
def takePath? (command : Command) (path : Option String) (word : String) : Option String :=
  match command, path with
  | .script _, none => if word.isEmpty then none else some word
  | _, _ => none

def readWords (options : Options) (command : Command) (path : Option String) :
    List String → Reading
  | [] => request options command path
  | [word] =>
    match takePath? command path word with
    | some path => request options command (some path)
    | none => .usageError
  | _ => .usageError

/-- Reads the arguments behind a command, `outer` being the options before it. An option without a
value attached is `awaiting` the next argument. -/
def readCommand (outer : Options) (command : Command) :
    List String → Options → (awaiting : Option OptionName) → (path : Option String) → Reading
  | [], _, some _, _ => .usageError
  | [], options, none, path => request (options.or outer) command path
  | arg :: rest, options, awaiting, path =>
    match Argument.ofString arg, awaiting with
    | .word value, some name =>
      match options.set? name value with
      | some options => readCommand outer command rest options none path
      | none => .usageError
    | _, some _ => .usageError
    | .separator, none => readWords (options.or outer) command path rest
    | .option name none, none => readCommand outer command rest options (some name) path
    | .option name (some value), none =>
      match options.set? name value with
      | some options => readCommand outer command rest options none path
      | none => .usageError
    | .help, none => .help
    | .version, none => .usageError
    | .unknown, none => .usageError
    | .word word, none =>
      match takePath? command path word with
      | some path => readCommand outer command rest options none (some path)
      | none => .usageError

/-- Reads what help is wanted about: nothing, or one command. -/
def readHelp : List String → Reading
  | [] => .help
  | [topic] => if (Command.ofName? topic).isSome || topic == "help" then .help else .usageError
  | _ => .usageError

def readFrom : List String → Options → (awaiting : Option OptionName) → Reading
  | [], _, some _ => .usageError
  | [], options, none => .request ⟨options, none⟩
  | arg :: rest, options, awaiting =>
    match Argument.ofString arg, awaiting with
    | .word value, some name =>
      match options.set? name value with
      | some options => readFrom rest options none
      | none => .usageError
    | _, some _ => .usageError
    | .separator, none =>
      .request ⟨options, if rest.isEmpty then none else some (.evaluate (" ".intercalate rest))⟩
    | .option name none, none => readFrom rest options (some name)
    | .option name (some value), none =>
      match options.set? name value with
      | some options => readFrom rest options none
      | none => .usageError
    | .help, none => .help
    | .version, none => .version
    | .unknown, none => .usageError
    | .word word, none =>
      match Command.ofName? word with
      | some command => readCommand options command rest {} none none
      | none => if word = "help" then readHelp rest else .usageError

def read (args : List String) : Reading :=
  readFrom args {} none

end CommandLine

end Calculator
