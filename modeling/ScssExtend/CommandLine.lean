import ScssExtend.Extension.Resolution
import ScssExtend.FileTree
import ScssExtend.Json.Encode
import ScssExtend.Stylesheet.Parser
import ScssExtend.Stylesheet.Printer

/-!
# The command line

`Options.parse` reads the arguments and `Options.run` says what the program writes for them; reading files is
left to a function that `run` takes. The program parses a stylesheet, resolves its extensions and prints it.
-/

namespace ScssExtend.CommandLine

/-- Where the stylesheet comes from. -/
inductive Input where
  | missing
  | inline (source : String)
  | file (path : String)
  deriving DecidableEq

/-- What the arguments ask for. -/
structure Options where
  input : Input
  json : Bool
  table : Bool
  noExtend : Bool
  verbose : Bool
  deriving DecidableEq

namespace Options

/-- What holds without arguments: there is no input yet. -/
def initial : Options :=
  ⟨.missing, false, false, false, false⟩

/-- Takes the stylesheet's source in. There may be only one, and the path of a file is not empty. -/
def withInput (o : Options) (input : Input) : Option Options :=
  if o.input = .missing ∧ input ≠ .file "" then some { o with input } else none

/-- Takes in the flag for a verbose log, which may be given once. -/
def withVerbose (o : Options) : Option Options :=
  if o.verbose then none else some { o with verbose := true }

/-- Takes in a long flag, which may be given once. -/
def withFlag (o : Options) (flag : String) : Option Options :=
  match flag with
  | "--json" => if o.json then none else some { o with json := true }
  | "--table" => if o.table then none else some { o with table := true }
  | "--no-extend" => if o.noExtend then none else some { o with noExtend := true }
  | "--verbose" => o.withVerbose
  | _ => none

/-- Takes in the letters of a short flag. -/
def withShort (o : Options) : List Char → Option Options
  | [] => some o
  | 'v' :: letters => o.withVerbose.bind fun o => o.withShort letters
  | _ :: _ => none

/-- True of an argument that is written as a flag. A lone hyphen is none. -/
def isFlag (argument : String) : Bool :=
  argument.toList.head? == some '-' && argument != "-"

/-- The source that is given in one argument with its flag. -/
def inlineSource? (argument : String) : Option String :=
  let flag := "--scss=".toList
  if flag.isPrefixOf argument.toList then some (String.ofList (argument.toList.drop flag.length))
  else none

/-- Reads the arguments behind those that made `o`; `none` when they are not accepted. Behind `--` there are
only files. -/
def parseFrom (o : Options) (onlyFiles : Bool) : List String → Option Options
  | [] => some o
  | argument :: rest =>
    if onlyFiles || !isFlag argument then
      (o.withInput (.file argument)).bind fun o => o.parseFrom onlyFiles rest
    else if argument = "--" then o.parseFrom true rest
    else if argument = "--scss" then
      match rest with
      | [] => none
      | value :: rest =>
        if isFlag value then none
        else (o.withInput (.inline value)).bind fun o => o.parseFrom false rest
    else
      match inlineSource? argument with
      | some source => (o.withInput (.inline source)).bind fun o => o.parseFrom false rest
      | none =>
        let taken := match argument.toList with
          | '-' :: '-' :: _ => o.withFlag argument
          | letters => o.withShort (letters.drop 1)
        taken.bind fun o => o.parseFrom false rest

/-- Reads the arguments; `none` when they are not accepted. -/
def parse (arguments : List String) : Option Options :=
  initial.parseFrom false arguments

end Options

/-- Why the program fails. -/
inductive Failure where
  | noInput
  | unreadable (path : String) (fault : ReadFault)
  | unparsable (name : String) (error : ParseError)
  | unresolvable (name : String) (error : ExtendError)

/-- The wording of a failure: what was being done, and then the causes from the outer to the inner one. -/
def Failure.message : Failure → String
  | noInput => "no input: pass a FILE or --scss <TEXT>"
  | unreadable path fault => "failed to read " ++ path ++ ": " ++ fault.message
  | unparsable name error => "failed to parse " ++ name ++ ": " ++ error.message
  | unresolvable name error =>
    "failed to resolve @extend in " ++ name ++ ": " ++ error.message ++
      (match error.source? with
        | none => ""
        | some source => ": " ++ source.message)

/-- What the program writes and the code it exits with. -/
structure Outcome where
  code : UInt8
  stdout : String
  stderr : String

/-- The outcome of a failure: the word `error` in bold red and the failure's wording. -/
def Failure.outcome (failure : Failure) : Outcome :=
  ⟨1, "", "\x1b[1m\x1b[31merror:\x1b[39m\x1b[0m " ++ failure.message ++ "\n"⟩

namespace Options

/-- The text that the options ask for, made from the source text that messages call `name`. -/
def render (o : Options) (name source : String) : Except Failure String := do
  let sheet ← (Stylesheet.parse source).mapError (.unparsable name)
  let registry := Registry.collect .empty sheet
  let table := if o.table then registry.table.toJson.pretty ++ "\n" else ""
  let walk := sheet.resolve.walk
  let printed := fun (sheet : Stylesheet) =>
    if o.json then sheet.toJson.pretty ++ "\n" else sheet.print
  if o.noExtend then return table ++ printed sheet
  else
    match walk.failure with
    | some error => throw (.unresolvable name error)
    | none => return table ++ printed walk.tree

/-- The name and the text of the input. A file is read by `read`, which gives its text or the reason why it cannot
be read. -/
def load {m : Type → Type} [Monad m] (o : Options) (read : String → m (Except ReadFault String)) :
    m (Except Failure (String × String)) :=
  match o.input with
  | .missing => pure (.error .noInput)
  | .inline source => pure (.ok ("--scss input", source))
  | .file path => do
    match ← read path with
    | .ok source => return .ok (path, source)
    | .error fault => return .error (.unreadable path fault)

/-- Runs the program with options, with `read` to read its file. -/
def run {m : Type → Type} [Monad m] (o : Options) (read : String → m (Except ReadFault String)) :
    m Outcome := do
  let loaded ← o.load read
  match loaded.bind fun (name, source) => o.render name source with
  | .ok text => return ⟨0, text, ""⟩
  | .error failure => return failure.outcome

end Options

end ScssExtend.CommandLine
