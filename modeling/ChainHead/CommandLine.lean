import ChainHead.Error

/-! The command line. There is one option, the path of the settings, and a request for help. A wrong command
line is answered with what is wrong and where help is to be had. -/

namespace ChainHead.CommandLine

def programName : String := "beacon-client"

def defaultPath : String := "config.toml"

inductive Command where
  | help
  | follow (path : String)
deriving DecidableEq, Repr

inductive Fault where
  | unexpected (argument : String)
  | valueMissing
  | repeated
deriving DecidableEq, Repr

def usage : String := "Usage: " ++ programName ++ " [OPTIONS]\n"

def helpText : String :=
  "Follow beacon chain head events and refresh validator state\n\n" ++ usage ++
    "\nOptions:\n  -c, --config <CONFIG>  [default: " ++ defaultPath ++
    "]\n  -h, --help             Print help\n"

def Fault.message (f : Fault) : String :=
  let problem :=
    match f with
    | .unexpected argument => "unexpected argument '" ++ argument ++ "' found\n\n" ++ usage
    | .valueMissing => "a value is required for '--config <CONFIG>' but none was supplied\n"
    | .repeated => "the argument '--config <CONFIG>' cannot be used multiple times\n\n" ++ usage
  "error: " ++ problem ++ "\nFor more information, try '--help'.\n"

inductive Argument where
  | help
  | option (value : Option String)
  | other (text : String)
deriving DecidableEq, Repr

/-- Tells what an argument is. The value of the option may stand in the argument itself. -/
def Argument.ofText (text : String) : Argument :=
  match text.toList with
  | ['-', 'h'] => .help
  | ['-', 'c'] => .option none
  | '-' :: 'c' :: '=' :: value => .option (some (String.ofList value))
  | '-' :: 'c' :: value => .option (some (String.ofList value))
  | chars =>
    if text = "--help" then .help
    else if text = "--config" then .option none
    else
      let mark := "--config=".toList
      if mark.isPrefixOf chars then .option (some (String.ofList (chars.drop mark.length)))
      else .other text

/-- Whether a text can be a value that stands apart from its option. -/
def isValue (text : String) : Bool :=
  text ≠ "" && (text = "-" || text.toList.head? ≠ some '-')

/-- Reads arguments, with the path that was given before them. -/
def readFrom (given : Option String) : List String → Except Fault Command
  | [] => .ok (.follow (given.getD defaultPath))
  | argument :: rest =>
    match Argument.ofText argument with
    | .help => .ok .help
    | .other text => .error (.unexpected text)
    | .option (some value) =>
      if value = "" then .error .valueMissing
      else if given.isSome then .error .repeated
      else readFrom (some value) rest
    | .option none =>
      match rest with
      | [] => .error .valueMissing
      | value :: others =>
        if !isValue value then .error .valueMissing
        else if given.isSome then .error .repeated
        else readFrom (some value) others

def read (arguments : List String) : Except Fault Command := readFrom none arguments

def indented (text : String) : String :=
  String.intercalate "\n" ((text.splitOn "\n").map ("    " ++ ·))

/-- What is said about an error that ends the program, together with its cause if it has one of its own. -/
def errorText (e : Error) : String :=
  let cause :=
    match e with
    | .toml document fault => "\n\nCaused by:\n" ++ indented (fault.message document)
    | _ => ""
  "Error: " ++ e.message ++ cause ++ "\n"

end ChainHead.CommandLine
