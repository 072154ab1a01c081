import Calculator.Program

/-!
# The executable

Gathers the surroundings of the program, writes what it answers and ends with its status. A session
is carried on line by line, so that each answer is seen before the next line is typed; all other
requests are answered as a whole.
-/

namespace Calculator

namespace Executable

def readFile? (path : String) : IO (Option ByteArray) := do
  try
    return some (← IO.FS.readBinFile path)
  catch _ =>
    return none

/-- The path of the standing settings file, in the user's configuration directory. -/
def standingPath? : IO (Option String) := do
  let directory ← match ← IO.getEnv "XDG_CONFIG_HOME" with
    | some directory => if directory.startsWith "/" then pure (some directory) else home?
    | none => home?
  return directory.map (· ++ "/yard/config.toml")
where
  home? : IO (Option String) := do
    return (← IO.getEnv "HOME").map (· ++ "/.config")

def standing? : IO (Option (String × ByteArray)) := do
  match ← standingPath? with
  | none => return none
  | some path => return (← readFile? path).map fun content => (path, content)

def paths (r : Request) : List String :=
  r.options.file.toList ++
    match r.task with
    | some (.script _ path) => [path]
    | _ => []

/-- The surroundings of a request, with the files that it names and without input. -/
def surroundings (r : Request) : IO Surroundings := do
  let files ← (paths r).mapM fun path => return (path, ← readFile? path)
  return {
    file := fun path => (files.lookup path).join
    input := ByteArray.empty
    standing := ← standing?
    onTerminal := ← (← IO.getStdout).isTty }

/-- Reads on to the end of a line, behind the bytes of it that were read already. -/
partial def readLine (input : IO.FS.Stream) (line : ByteArray) : IO ByteArray := do
  let byte ← input.read 1
  if byte.isEmpty then return line
  if byte.toList = [10] then return line ++ byte
  readLine input (line ++ byte)

partial def converse (p : Presentation) (input output : IO.FS.Stream) : IO (Option Failure) := do
  output.putStr (Session.prompt p)
  output.flush
  let bytes ← readLine input ByteArray.empty
  if bytes.isEmpty then return none
  match String.fromUTF8? bytes with
  | none => return some .unreadableLine
  | some line =>
    match Session.reply? p line with
    | none => return none
    | some reply =>
      output.putStr reply
      output.flush
      converse p input output

def answer (r : Request) : IO Ending := do
  let s ← surroundings r
  match r.task, Program.presentation s r.options with
  | some .session, .ok p =>
    let output ← IO.getStdout
    output.putStr (Session.greeting p)
    match ← converse p (← IO.getStdin) output with
    | some f => return .ofFailure "" f
    | none => return ⟨.success, "", none⟩
  | _, _ => return Program.answer s r

def ending (args : List String) : IO Ending := do
  match CommandLine.read args with
  | .request r => answer r
  | _ => return Program.run ⟨fun _ => none, ByteArray.empty, none, false⟩ args

end Executable

end Calculator

open Calculator in
def main (args : List String) : IO UInt32 := do
  let ending ← Executable.ending args
  IO.print ending.output
  match ending.failure with
  | some f => IO.eprintln ("error: " ++ f.message)
  | none => if ending.status = .usage then IO.eprint ("error: wrong usage\n\n" ++ Program.helpText)
  return UInt32.ofNat ending.status.code
