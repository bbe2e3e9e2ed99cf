import MiniC.CommandLine.Input
import MiniC.Grammar.Program
import MiniC.Program.Outline
import MiniC.Run
import MiniC.Text.ControlSequence

/-!
# The command line

Arguments are read from left to right. An argument that begins with a dash is an option wherever it
stands, unless `--` came before it; a single dash is none. Options of one letter may share a dash,
and the value of `-b` is the rest of its argument or the argument after it. All others are the
program, of which there is one.

A value that stands in an argument of its own is checked when the next option or the program is
taken, or at the end. So an argument that nothing accepts is reported before it.
-/

namespace MiniC.CommandLine

inductive UsageFault where
  | unexpectedArgument (argument : String)
  | unexpectedValue (value option : String)
  | repeated (option : String)
  | missingValue
  | invalidInput (raw : String) (fault : InputFault)
  | missingProgram
  deriving DecidableEq, Repr

/-- A part of a report between quotes, in bold on a terminal. The bold and its end are sequences of
their own, so one that the part leaves open goes no further. -/
def quoted (part : String) : String :=
  s!"'\x1b[1m{part}\x1b[0m'"

def inputOption : String := "--bind <NAME=VALUE>"

def UsageFault.text : UsageFault → String
  | unexpectedArgument argument => s!"unexpected argument {quoted argument} found"
  | unexpectedValue value option =>
    s!"unexpected value {quoted value} for {quoted option} found; no more were expected"
  | repeated option => s!"the argument {quoted option} cannot be used multiple times"
  | missingValue => s!"a value is required for {quoted inputOption} but none was supplied"
  | invalidInput raw fault =>
    s!"invalid value {quoted raw} for {quoted inputOption}: {fault.text raw}"
  | missingProgram => "the following required arguments were not provided:\n  <CONTENTS>"

def helpOption : String := "--help"

def UsageFault.report (fault : UsageFault) : String :=
  Text.withoutControls
    s!"error: {fault.text}\n\nFor more information, try {quoted helpOption}.\n"

inductive Stop where
  | usage (fault : UsageFault)
  | version
  | help
  deriving DecidableEq, Repr

/-- The value of a `-b` that has none in its own argument. -/
inductive Pending where
  /-- There is no such option. -/
  | nothing
  /-- It may be the next argument. -/
  | awaited
  /-- It was the argument after, and has not been checked. -/
  | unchecked (raw : String)
  deriving DecidableEq, Repr

structure Reading where
  fromFile : Bool
  dump : Bool
  inputs : List (String × Value)
  contents : Option String
  pending : Pending
  /-- Whether `--` has ended the options. -/
  optionsEnded : Bool
  deriving DecidableEq, Repr

namespace Reading

def start : Reading := ⟨false, false, [], none, .nothing, false⟩

def addInput (r : Reading) (raw : String) : Except Stop Reading :=
  match readInput raw with
  | .ok input => .ok { r with inputs := r.inputs ++ [input] }
  | .error fault => .error (.usage (.invalidInput raw fault))

def settle (r : Reading) : Except Stop Reading :=
  match r.pending with
  | .nothing => .ok r
  | .awaited => .error (.usage .missingValue)
  | .unchecked raw => { r with pending := .nothing }.addInput raw

def setFile (r : Reading) : Except Stop Reading := do
  let r ← r.settle
  if r.fromFile then throw (.usage (.repeated "--file")) else return { r with fromFile := true }

def setDump (r : Reading) : Except Stop Reading := do
  let r ← r.settle
  if r.dump then throw (.usage (.repeated "--dump-ast")) else return { r with dump := true }

/-- Takes an input with the value that stands in the same argument, or waits for the next. -/
def takeInput (r : Reading) (attached : Option String) : Except Stop Reading := do
  let r ← r.settle
  match attached with
  | some raw => r.addInput raw
  | none => return { r with pending := .awaited }

def stop (r : Reading) (why : Stop) : Except Stop Reading := do
  let _ ← r.settle
  throw why

/-- Takes the letters of an argument after its dash. What follows a `b` is its value, with or
without `=` between them. -/
def letters (r : Reading) : List Char → Except Stop Reading
  | [] => .ok r
  | 'f' :: cs => do (← r.setFile).letters cs
  | 'v' :: cs => do (← r.settle).letters cs
  | 'V' :: _ => r.stop .version
  | 'h' :: _ => r.stop .help
  | ['b'] => r.takeInput none
  | 'b' :: '=' :: cs => r.takeInput (some (String.ofList cs))
  | 'b' :: cs => r.takeInput (some (String.ofList cs))
  | c :: _ => .error (.usage (.unexpectedArgument s!"-{c}"))

/-- How a report names the options that take no value. Dots follow the one that is counted. -/
def flagNames : List (String × String) :=
  [("file", "--file"), ("dump-ast", "--dump-ast"), ("verbose", "--verbose..."),
    ("version", "--version"), ("help", helpOption)]

def named (r : Reading) (name : String) (value : Option String) : Except Stop Reading :=
  match name, value with
  | "bind", value => r.takeInput value
  | "file", none => r.setFile
  | "dump-ast", none => r.setDump
  | "verbose", none => r.settle
  | "version", none => r.stop .version
  | "help", none => r.stop .help
  | name, some value =>
    match flagNames.lookup name with
    | some flag => .error (.usage (.unexpectedValue value flag))
    | none => .error (.usage (.unexpectedArgument s!"--{name}"))
  | name, none => .error (.usage (.unexpectedArgument s!"--{name}"))

def setContents (r : Reading) (argument : String) : Except Stop Reading :=
  match r.contents with
  | some _ => .error (.usage (.unexpectedArgument argument))
  | none => do return { ← r.settle with contents := some argument }

/-- Takes an argument that is no option: the value that is waited for, or the program. -/
def operand (r : Reading) (argument : String) : Except Stop Reading :=
  match r.pending with
  | .awaited =>
    if r.optionsEnded then r.setContents argument
    else .ok { r with pending := .unchecked argument }
  | _ => r.setContents argument

def argument (r : Reading) (argument : String) : Except Stop Reading :=
  if r.optionsEnded then r.operand argument
  else
    match argument.toList with
    | ['-', '-'] => .ok { r with optionsEnded := true }
    | '-' :: '-' :: text =>
      let name := text.takeWhile (· != '=')
      r.named (String.ofList name)
        (if name.length < text.length then some (String.ofList (text.drop (name.length + 1)))
        else none)
    | ['-'] => r.operand argument
    | '-' :: text => r.letters text
    | _ => r.operand argument

end Reading

inductive Source where
  | text (source : String)
  | file (path : String)
  deriving DecidableEq, Repr

structure Command where
  source : Source
  inputs : List (String × Value)
  /-- Whether the program is shown instead of run. -/
  dump : Bool
  deriving DecidableEq, Repr

def Command.ofArguments (arguments : List String) : Except Stop Command := do
  let r ← arguments.foldlM Reading.argument Reading.start
  let r ← r.settle
  match r.contents with
  | none => throw (.usage .missingProgram)
  | some contents =>
    return ⟨if r.fromFile then .file contents else .text contents, r.inputs, r.dump⟩

structure Response where
  code : UInt32
  output : ByteArray
  errors : String

def Stop.response : Stop → Response
  | usage fault => ⟨2, .empty, fault.report⟩
  | version => ⟨0, "cinder 0.1.0\n".toUTF8, ""⟩
  | help => ⟨0, "Usage: cinder [OPTIONS] <CONTENTS>\n".toUTF8, ""⟩

/-- The response to a command whose source is known. A run that does not end within the fuel has
none. -/
def Command.respondTo (command : Command) (fuel : Nat) (source : String) : Option Response :=
  match Program.ofSource source with
  | .error failure => some ⟨1, .empty, failure.message ++ "\n"⟩
  | .ok program =>
    if command.dump then some ⟨0, (program.dump ++ "\n").toUTF8, ""⟩
    else
      match program.run fuel command.inputs .unlimited with
      | .done result s => some ⟨0, s.sink.written ++ (toString result.toInt ++ "\n").toUTF8, ""⟩
      | .failed fault s => some ⟨1, s.sink.written, fault.message ++ "\n"⟩
      | .unfinished => none

def Command.respond (command : Command) (fuel : Nat) (read : Option String) : Option Response :=
  match command.source, read with
  | .text source, _ => command.respondTo fuel source
  | .file _, some source => command.respondTo fuel source
  | .file path, none =>
    some ⟨1, .empty,
      s!"Failed to read the input file '{path}'. Perhaps this file does not exist?\n"⟩

end MiniC.CommandLine
