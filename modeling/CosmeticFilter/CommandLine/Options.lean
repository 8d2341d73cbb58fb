import CosmeticFilter.Text.Basic

/-!
# Options of a command line

The general form of a command line: options that start with hyphens, some of which take a value, and
other arguments. A word `--` ends the options.
-/

namespace CosmeticFilter

namespace CommandLine

/-- Which options are known. -/
structure Grammar where
  /-- The options that take a value, without their hyphens. -/
  valued : List Text := []
  flags : List Text := []
  /-- The flags that can also be given by a letter after a single hyphen. -/
  letters : List (Char × Text) := []
  interspersed : Bool := true

structure Setting where
  name : Text
  value : Option Text := none
  deriving DecidableEq, Repr

structure Parsed where
  settings : List Setting := []
  arguments : List Text := []
  deriving DecidableEq, Repr

namespace Parsed

/-- The value that was given last for an option. -/
def last? (name : Text) (p : Parsed) : Option Text :=
  (p.settings.reverse.find? fun s => s.name = name).bind Setting.value

def gave (name : Text) (p : Parsed) : Bool := p.settings.any fun s => s.name = name

def withSettings (settings : List Setting) (p : Parsed) : Parsed :=
  { p with settings := settings ++ p.settings }

def withArgument (argument : Text) (p : Parsed) : Parsed :=
  { p with arguments := argument :: p.arguments }

end Parsed

inductive Word where
  | stop
  | argument
  | settings (settings : List Setting)
  /-- An option whose value is the next word. -/
  | awaiting (name : Text)
  | unknown
  deriving DecidableEq, Repr

/-- A word that starts with two hyphens, after them. -/
def longWord (g : Grammar) (body : Text) : Word :=
  match Text.cutAt? ['='] body with
  | some (name, value) =>
    if g.valued.contains name then .settings [⟨name, some value⟩] else .unknown
  | none =>
    if g.valued.contains body then .awaiting body
    else if g.flags.contains body then .settings [⟨body, none⟩]
    else .unknown

def shortWord (g : Grammar) (letters : Text) : Word :=
  match letters.mapM fun c => g.letters.lookup c with
  | some names => .settings (names.map fun name => ⟨name, none⟩)
  | none => .unknown

/-- What a word is. A hyphen alone is an argument. -/
def word (g : Grammar) : Text → Word
  | ['-', '-'] => .stop
  | '-' :: '-' :: body => longWord g body
  | '-' :: c :: letters => shortWord g (c :: letters)
  | _ => .argument

def read? (g : Grammar) : List Text → Option Parsed
  | [] => some {}
  | w :: rest =>
    match word g w with
    | .stop => some { arguments := rest }
    | .argument =>
      if g.interspersed then (read? g rest).map (Parsed.withArgument w)
      else some { arguments := w :: rest }
    | .settings settings => (read? g rest).map (Parsed.withSettings settings)
    | .awaiting name =>
      match rest with
      | value :: rest => (read? g rest).map (Parsed.withSettings [⟨name, some value⟩])
      | [] => none
    | .unknown => none

end CommandLine

end CosmeticFilter
