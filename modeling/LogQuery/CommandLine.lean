import LogQuery.Format
import LogQuery.Kind

/-! The command line: options, then a command with its operands and options of its own. -/
namespace LogQuery.CommandLine

/-- Options that take a value. -/
inductive Flag where
  | config | format | kind | labelTypes
  deriving DecidableEq, Repr

def Flag.long : Flag → String
  | config => "config"
  | format => "format"
  | kind => "kind"
  | labelTypes => "label-types"

def Flag.short : Flag → Option Char
  | config => some 'c'
  | format => some 'f'
  | kind => some 'k'
  | labelTypes => none

/-- Flags that may stand before and after the name of the command. -/
def Flag.shared : List Flag := [.config, .format]

inductive Name where
  | nodes | matchers | stage | filters | check | batch
  deriving DecidableEq, Repr

namespace Name

def all : List Name := [nodes, matchers, stage, filters, check, batch]

def spelling : Name → String
  | nodes => "nodes"
  | matchers => "matchers"
  | stage => "parser"
  | filters => "filters"
  | check => "check"
  | batch => "batch"

def ofText? (t : Text) : Option Name := all.find? fun n => n.spelling.toList = t

def flags : Name → List Flag
  | nodes => .kind :: Flag.shared
  | filters => .labelTypes :: Flag.shared
  | _ => Flag.shared

end Name

inductive Command where
  | nodes (query : Text) (kinds : List Kind)
  | matchers (query : Text)
  | stage (query : Text)
  | filters (query : Text) (labelTypes : Option Text)
  | check (query : Text)
  | batch

/-- The options and operands found on one side of the name of the command. -/
structure Given where
  config : Option Text
  format : Option Format
  kinds : List Kind
  labelTypes : Option Text
  operands : List Text

def Given.nothing : Given := ⟨none, none, [], none, []⟩

inductive Request where
  | version
  | run (config : Option Text) (format : Option Format) (command : Command)

/-- Only kinds may be given more than once. Paths are not empty. -/
def Given.set? (g : Given) (flag : Flag) (value : Text) : Option Given :=
  match flag with
  | .config =>
    if g.config.isSome || value.isEmpty then none else some { g with config := some value }
  | .labelTypes =>
    if g.labelTypes.isSome || value.isEmpty then none else some { g with labelTypes := some value }
  | .format =>
    if g.format.isSome then none
    else (Format.ofName value).toOption.map fun f => { g with format := some f }
  | .kind => (Kind.ofName value).toOption.map fun k => { g with kinds := g.kinds ++ [k] }

/-- A dash alone is an operand. -/
def isOption (arg : Text) : Bool := arg.head? = some '-' && arg ≠ ['-']

/-- The text after an equals sign, after a long name only. -/
def afterEquals? : Text → Option (Option Text)
  | [] => some none
  | '=' :: value => some (some value)
  | _ => none

def longFlag? (flags : List Flag) (arg : Text) : Option (Flag × Option Text) :=
  flags.findSome? fun f =>
    if f.long.toList.isPrefixOf arg then
      (afterEquals? (arg.drop f.long.length)).map (f, ·)
    else none

/-- After a short name the value may follow at once, with or without an equals sign. -/
def attached : Text → Option Text
  | [] => none
  | '=' :: value => some value
  | value => some value

def shortFlag? (flags : List Flag) (c : Char) (rest : Text) : Option (Flag × Option Text) :=
  (flags.find? fun f => f.short = some c).map fun f => (f, attached rest)

/-- A flag, and its value if that is part of the same argument. -/
def flag? (flags : List Flag) : Text → Option (Flag × Option Text)
  | '-' :: '-' :: name => longFlag? flags name
  | '-' :: c :: rest => shortFlag? flags c rest
  | _ => none

/-- What stands after the name of a command. After two dashes all arguments are operands. -/
def readOperands? (flags : List Flag) : Given → List Text → Option Given
  | g, [] => some g
  | g, arg :: args =>
    if arg = ['-', '-'] then some { g with operands := g.operands ++ args }
    else if !isOption arg then readOperands? flags { g with operands := g.operands ++ [arg] } args
    else
      match flag? flags arg, args with
      | some (f, some value), args => (g.set? f value).bind (readOperands? flags · args)
      | some (f, none), value :: args =>
        if isOption value then none else (g.set? f value).bind (readOperands? flags · args)
      | _, _ => none

def command? (name : Name) (g : Given) : Option Command :=
  match name, g.operands with
  | .nodes, [query] => some (.nodes query g.kinds)
  | .matchers, [query] => some (.matchers query)
  | .stage, [query] => some (.stage query)
  | .filters, [query] => some (.filters query g.labelTypes)
  | .check, [query] => some (.check query)
  | .batch, [] => some .batch
  | _, _ => none

/-- The later place of an option counts. A default path for the configuration that is empty is
refused wherever no other is given. -/
def request? (fallback : Option Text) (name : Name) (before after : Given) : Option Request :=
  let refused := fallback = some [] && (before.config.isNone || after.config.isNone)
  if refused then none
  else
    (command? name after).map
      (.run ((after.config.or before.config).or fallback) (after.format.or before.format))

def isVersion : Text → Bool
  | '-' :: 'V' :: _ => true
  | t => t = "--version".toList

def readFrom? (fallback : Option Text) : Given → List Text → Option Request
  | _, [] => none
  | g, arg :: args =>
    if isVersion arg then some .version
    else if !isOption arg then
      (Name.ofText? arg).bind fun name =>
        (readOperands? name.flags .nothing args).bind (request? fallback name g)
    else
      match flag? Flag.shared arg, args with
      | some (f, some value), args => (g.set? f value).bind (readFrom? fallback · args)
      | some (f, none), value :: args =>
        if isOption value then none else (g.set? f value).bind (readFrom? fallback · args)
      | _, _ => none

/-- What the arguments ask for. A path for the configuration may be known without them. -/
def read? (fallback : Option Text) (args : List Text) : Option Request :=
  readFrom? fallback .nothing args

end LogQuery.CommandLine
