import LogQuery.Config
import LogQuery.Disk
import LogQuery.Expansion
import LogQuery.Glob.Search

/-! Configurations on disk, and the files of saved queries that they name. -/
namespace LogQuery.Config

variable {m : Type → Type} [Monad m]

inductive LoadError where
  | unreadable
  | invalid

/-- The configuration at a path. Where there is no file there is none. -/
def load (disk : Disk m) (path : Text) : m (Except LoadError (Option Config)) := do
  if !(← disk.isThere path) then return .ok none
  match ← disk.read? path with
  | none => return .error .unreadable
  | some text =>
    match Config.read? text with
    | none => return .error .invalid
    | some config => return .ok (some config)

/-- The configuration of a user who names none. -/
def homePath (env : Environment m) : Text := env.atHome "~/.config/logql-lens/config.toml".toList

/-- The variable that names a configuration. -/
def pathVariable : Text := "LOGQL_LENS_CONFIG".toList

/-- A pattern of saved queries that is none. -/
structure BadPattern where
  pattern : Text

def filesOf (disk : Disk m) (env : Environment m) : List Text → m (Except BadPattern (List Text))
  | [] => return .ok []
  | pattern :: patterns => do
    match Glob.ofText? (← env.expand pattern) with
    | none => return .error ⟨pattern⟩
    | some glob =>
      let found ← glob.search disk
      return (← filesOf disk env patterns).map (found ++ ·)

/-- The files that the patterns name, pattern by pattern, as often as they are named. -/
def queryFiles (disk : Disk m) (env : Environment m) (c : Config) :
    m (Except BadPattern (List Text)) :=
  filesOf disk env c.savedQueries

end LogQuery.Config
