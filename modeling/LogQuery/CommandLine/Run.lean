import LogQuery.CommandLine
import LogQuery.Config.Load
import LogQuery.Report

/-! Carrying out what a command line asks for. -/
namespace LogQuery.CommandLine

variable {m : Type → Type} [Monad m]

/-- What a command may look at. -/
structure World (m : Type → Type) where
  disk : Disk m
  env : Environment m
  /-- The text on standard input, if it can be read. -/
  input : m (Option Text)

structure Outcome where
  status : Nat
  output : Text

def Outcome.refused : Outcome := ⟨2, []⟩

def Outcome.failed : Outcome := ⟨1, []⟩

/-- A text that is not empty ends with a line feed. -/
def Outcome.printed (t : Text) : Outcome := ⟨0, if t.isEmpty then [] else t ++ ['\n']⟩

def versionText : Text := "logql-lens 0.1.0".toList

/-- A configuration that is named has to be there; the one at home need not. -/
def config? (w : World m) : Option Text → m (Option Config)
  | some path => do
    match ← Config.load w.disk path with
    | .ok (some c) => return some c
    | _ => return none
  | none => do
    match ← Config.load w.disk (Config.homePath w.env) with
    | .ok found => return some (found.getD .default)
    | .error _ => return none

def isLineEnd (c : Char) : Bool := c = '\n' || c = '\r'

/-- A dash stands for the query on standard input, without the line ends behind it. -/
def query? (w : World m) (operand : Text) : m (Option Text) := do
  if operand = ['-'] then
    return (← w.input).map fun t => (t.reverse.dropWhile isLineEnd).reverse
  else return some operand

def onQuery (w : World m) (operand : Text) (f : Text → Text) : m (Option Text) :=
  return (← query? w operand).map f

def labelTypes? (w : World m) : Option Text → m (Option LabelTypes)
  | none => return some []
  | some path => return (← w.disk.read? path).bind LabelTypes.read?

def contents (w : World m) : List Text → m (List (Text × Option Text))
  | [] => return []
  | path :: paths => return (path, ← w.disk.read? path) :: (← contents w paths)

/-- What a command prints, unless it fails. -/
def perform (w : World m) (config : Config) (format : Format) : Command → m (Option Text)
  | .nodes q kinds => onQuery w q (Report.nodes · kinds format)
  | .matchers q => onQuery w q (Report.matchers · format)
  | .stage q => onQuery w q (Report.stage · format)
  | .filters q path => do
    match ← labelTypes? w path with
    | some types => onQuery w q (Report.filters · types format)
    | none => return none
  | .check q => onQuery w q (Report.check · config.serviceLabel format)
  | .batch => do
    match ← config.queryFiles w.disk w.env with
    | .ok files => return Report.batch? (← contents w files) format
    | .error _ => return none

def run (w : World m) (args : List Text) : m Outcome := do
  match read? (← w.env.get? Config.pathVariable) args with
  | none => return .refused
  | some .version => return .printed versionText
  | some (.run path format command) =>
    match ← config? w path with
    | none => return .failed
    | some config =>
      match ← perform w config (format.getD config.format) command with
      | none => return .failed
      | some t => return .printed t

end LogQuery.CommandLine
