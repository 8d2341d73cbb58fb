import CosmeticFilter.CommandLine.Console
import CosmeticFilter.CommandLine.Report
import CosmeticFilter.CommandLine.Request
import CosmeticFilter.CommandLine.Source
import CosmeticFilter.Json.Layout
import CosmeticFilter.Stylesheet.Parser

/-!
# Running requests

A request is carried out as a function of what paths lead to; the result is what is printed and
whether the run succeeds.
-/

namespace CosmeticFilter

namespace CommandLine

inductive Outcome where
  | success (output log : Text)
  /-- The run prints a help page. Its text is left out. -/
  | help
  | failure (fault : Fault) (log : Text)
  /-- The command line cannot be carried out. -/
  | usage
  | isDirectory
  | notText
  /-- The run breaks off where JSON is to be laid out with a width that fits into no machine word. -/
  | overflow (log : Text)

namespace Outcome

/-- The outcome of a run that prints `output`, if there is one. -/
def ofOutput (log : Text) : (output : Option Text) → Outcome
  | some output => .success output log
  | none => .overflow log

def faultLine (fault : Fault) : Text := printed ("Parse error: ".toList ++ fault.message)

def stdout : Outcome → Text
  | .success output _ => output
  | _ => []

/-- What a run prints on the standard error output: the log, then the fault. -/
def stderr : Outcome → Text
  | .success _ log | .overflow log => log
  | .failure fault log => log ++ faultLine fault
  | _ => []

def exitCode : Outcome → Nat
  | .success _ _ | .help => 0
  | .usage => 2
  | _ => 1

end Outcome

/-! ## Events -/

/-- What is reported when a command is carried out; `look` tells what a path leads to. -/
def Command.events (config : Config) (look : Text → Source) : Command → List Event
  | .parse selector _ | .inspect selector => SelectorList.parseEvents config selector
  | .stylesheet path _ | .validate path =>
    match (look path).text? with
    | some text => Stylesheet.parseEvents config text
    | none => []

def Request.events (look : Text → Source) : Request → List Event
  | .tell _ => []
  | .run config _ command => command.events config look

def logText (events : List Event) : Text := events.flatMap fun e => e.line ++ ['\n']

/-! ## Commands -/

/-- The outcome of compiling, where `log` is the log and `report?` gives what is printed. -/
def outcome {α : Type} (log : Text) (report? : α → Option Text) : Except Fault α → Outcome
  | .ok a => .ofOutput log (report? a)
  | .error fault => .failure fault log

def runSelector (config : Config) (log selector : Text) (report? : Node → Option Text) : Outcome :=
  outcome log (fun list => report? list.toNode) (SelectorList.parse config selector)

def runSheet (config : Config) (log : Text) (report? : List Rule → Option Text) : Source → Outcome
  | .missing => .usage
  | .directory => .isDirectory
  | .file bytes =>
    match decode? bytes with
    | none => .notText
    | some text => outcome log report? (Stylesheet.parse config text)

def printedJson? (indent : Int) (j : Json) : Option Text := (j.layout? indent).map printed

/-- Carries out a command; `look` tells what a path leads to, and `log` is printed with it. -/
def Command.execute (config : Config) (log : Text) (look : Text → Source) : Command → Outcome
  | .parse selector indent =>
    runSelector config log selector fun node => printedJson? indent node.toJson
  | .inspect selector =>
    runSelector config log selector fun node => some (printedLines (node.outline 0))
  | .stylesheet path indent =>
    runSheet config log (fun rules => printedJson? indent (.arr (rules.map Rule.toJson))) (look path)
  | .validate path =>
    runSheet config log (fun rules => some (printedLines (summaryLines (fileName path) rules)))
      (look path)

/-! ## Requests -/

def versionLine : Text := "extcss, version 0.1.0".toList

def Notice.execute : Notice → Outcome
  | .version => .success (printed versionLine) []
  | .help => .help

def Request.execute (look : Text → Source) : Request → Outcome
  | .tell notice => notice.execute
  | .run config verbose command =>
    let log := if verbose then logText (command.events config look) else []
    command.execute config log look

def run (look : Text → Source) (args : List Text) : Outcome :=
  match Request.ofArgs? args with
  | some request => request.execute look
  | none => .usage

/-- What is reported when a command line is run, whether it is printed or not. -/
def events (look : Text → Source) (args : List Text) : List Event :=
  match Request.ofArgs? args with
  | some request => request.events look
  | none => []

end CommandLine

end CosmeticFilter
