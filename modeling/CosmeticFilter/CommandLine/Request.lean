import CosmeticFilter.CommandLine.Options
import CosmeticFilter.Config
import CosmeticFilter.Text.Number

/-!
# Requests

What a command line asks for. A command line that asks for nothing that can be done has no request.
-/

namespace CosmeticFilter

namespace CommandLine

inductive Command where
  /-- Print the tree of a selector as JSON. -/
  | parse (selector : Text) (indent : Int)
  /-- Print the tree of a selector as indented lines. -/
  | inspect (selector : Text)
  /-- Print the rules of a stylesheet as JSON. -/
  | stylesheet (path : Text) (indent : Int)
  /-- Print a summary of the rules of a stylesheet. -/
  | validate (path : Text)
  deriving DecidableEq, Repr

inductive Notice where
  | version
  | help
  deriving DecidableEq, Repr

inductive Request where
  | tell (notice : Notice)
  /-- A command under the given limits, with or without a log. -/
  | run (config : Config) (verbose : Bool) (command : Command)

def Command.path? : Command → Option Text
  | .stylesheet path _ | .validate path => some path
  | .parse _ _ | .inspect _ => none

def Request.path? : Request → Option Text
  | .run _ _ command => command.path?
  | .tell _ => none

/-! ## Options -/

abbrev maxDepthOption : Text := "max-depth".toList
abbrev verboseOption : Text := "verbose".toList
abbrev versionOption : Text := "version".toList
abbrev helpOption : Text := "help".toList
abbrev indentOption : Text := "indent".toList

def programGrammar : Grammar where
  valued := [maxDepthOption]
  flags := [verboseOption, versionOption, helpOption]
  letters := [('v', verboseOption)]
  interspersed := false

def config? (p : Parsed) : Option Config :=
  match p.last? maxDepthOption with
  | some value => (Text.readInt? value).bind Config.ofInt?
  | none => some Config.standard

def standardIndent : Int := 2

def indent? (p : Parsed) : Option Int :=
  match p.last? indentOption with
  | some value => Text.readInt? value
  | none => some standardIndent

def Setting.notice? (s : Setting) : Option Notice :=
  if s.name = versionOption then some .version
  else if s.name = helpOption then some .help
  else none

/-- The notice that options ask for; the first one counts. -/
def Parsed.notice? (p : Parsed) : Option Notice := p.settings.findSome? Setting.notice?

/-! ## Commands -/

inductive CommandName where
  | parse
  | inspect
  | stylesheet
  | validate
  deriving DecidableEq, Repr

namespace CommandName

def all : List CommandName := [parse, inspect, stylesheet, validate]

def text : CommandName → Text
  | .parse => "parse".toList
  | .inspect => "inspect".toList
  | .stylesheet => "stylesheet".toList
  | .validate => "validate".toList

def ofText? (t : Text) : Option CommandName := all.find? fun name => name.text = t

/-- The options of a command; those that print JSON let its indentation be set. -/
def grammar : CommandName → Grammar
  | .parse | .stylesheet => { valued := [indentOption], flags := [helpOption] }
  | .inspect | .validate => { flags := [helpOption] }

def command? (name : CommandName) (p : Parsed) : Option Command :=
  match name, p.arguments with
  | .parse, [selector] => (indent? p).map (.parse selector)
  | .inspect, [selector] => some (.inspect selector)
  | .stylesheet, [path] => (indent? p).map (.stylesheet path)
  | .validate, [path] => some (.validate path)
  | _, _ => none

end CommandName

/-! ## Reading command lines -/

/-- The request of a command with its arguments. A notice comes before what the command needs. -/
def commandRequest? (config : Config) (verbose : Bool) (name : CommandName) (args : List Text) :
    Option Request := do
  let p ← read? name.grammar args
  match p.notice? with
  | some notice => return .tell notice
  | none => (name.command? p).map (.run config verbose)

/-- The request of a command line. A notice comes before the values of the other options and before
the command. Arguments that start with no command are read once more as options of the program, so
that a notice can also be asked for after the end of the options. -/
def Request.ofArgs? (args : List Text) : Option Request := do
  let p ← read? programGrammar args
  match p.notice? with
  | some notice => return .tell notice
  | none =>
    let config ← config? p
    let name ← p.arguments.head?
    match CommandName.ofText? name with
    | some name => commandRequest? config (p.gave verboseOption) name p.arguments.tail
    | none => return .tell (← (← read? programGrammar p.arguments).notice?)

end CommandLine

end CosmeticFilter
