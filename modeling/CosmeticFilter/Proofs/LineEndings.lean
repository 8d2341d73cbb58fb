import CosmeticFilter.CommandLine.Run
import CosmeticFilter.Proofs.Comments

/-!
# Stylesheets with other line endings

A stylesheet that is read from a file has every line ending as a line feed. That makes no difference: the text differs
from that of the file in its runs of line breaks only (`respaced_unifyLines`), and normalizing makes one space of every
run. So the rules and the log of a file are those of its text as it stands there (`sheet_of_any_line_endings`).
-/

namespace CosmeticFilter

open CommandLine

namespace Stylesheet

variable {t u : Text}

theorem respaced_unifyLines (t : Text) : Respaced isBreak t (unifyLines t) := by
  fun_induction unifyLines t with
  | case1 rest ih => exact (ih.keep '\n').drop rfl rfl
  | case2 rest hnot ih => exact ih.change rfl rfl
  | case3 c rest hnot hne ih => exact ih.keep c
  | case4 => exact .nil

/-- Runs of line breaks may be others, of another length. -/
theorem joinLines_eq_of_respaced (h : Respaced isBreak t u) : joinLines t = joinLines u := by
  have hboth : joinLines t = joinLines u ∧ t.head?.any isBreak = u.head?.any isBreak := by
    induction h with
    | nil => exact ⟨rfl, rfl⟩
    | keep c h ih => exact ⟨by rw [joinLines, joinLines, ih.1, ih.2], rfl⟩
    | change hc hd h ih =>
      exact ⟨by rw [joinLines, joinLines, if_pos hc, if_pos hd, ih.1, ih.2], by simp [hc, hd]⟩
    | drop hc hd h ih => exact ⟨by rw [joinLines, if_pos hc, if_pos (by simp [hd]), ih.1], by simpa [hc, hd] using ih.2⟩
  exact hboth.1

theorem normalize_unifyLines (t : Text) : normalize (unifyLines t) = normalize t := by
  have hdropped := (respaced_unifyLines t).without_comments rfl rfl
  rw [normalize, normalize, joinLines_eq_of_respaced hdropped]

theorem rawRules_unifyLines (config : Config) (t : Text) : rawRules config (unifyLines t) = rawRules config t := by
  rw [rawRules, rawRules, normalize_unifyLines]

theorem parse_unifyLines (config : Config) (t : Text) : parse config (unifyLines t) = parse config t := by
  rw [parse, parse, rawRules_unifyLines]

theorem parseEvents_unifyLines (config : Config) (t : Text) :
    parseEvents config (unifyLines t) = parseEvents config t := by
  rw [parseEvents, parseEvents, turns, turns, normalize_unifyLines, rawRules_unifyLines]

end Stylesheet

namespace CommandLine

/-- The bytes of a file that holds the text. -/
def encode (t : Text) : ByteArray := (String.ofList t).toUTF8

variable {config : Config} {look : Text → Source} {path t : Text}

theorem decode?_encode (t : Text) : decode? (encode t) = some (unifyLines t) := by
  have hvalid : (encode t).IsValidUTF8 := (String.ofList t).isValidUTF8
  rw [decode?, String.fromUTF8?, dif_pos hvalid, Option.map_some]
  exact congrArg (fun s => some (unifyLines s)) String.toList_ofList

/-- A command on a stylesheet is carried out on the text that the file holds. -/
theorem runSheet_encode (log : Text) (report? : List Rule → Option Text) (t : Text) :
    runSheet config log report? (.file (encode t)) = outcome log report? (Stylesheet.parse config t) := by
  rw [runSheet, decode?_encode]
  exact congrArg (outcome log report?) (Stylesheet.parse_unifyLines config t)

/-- The log is that of the text that the file holds. -/
theorem events_encode (h : look path = .file (encode t)) {command : Command} (hpath : command.path? = some path) :
    command.events config look = Stylesheet.parseEvents config t := by
  have htext : (look path).text? = some (unifyLines t) := by rw [h, Source.text?, decode?_encode]
  cases command with
  | parse selector indent => cases hpath
  | inspect selector => cases hpath
  | stylesheet path' indent =>
    cases hpath
    rw [Command.events, htext]
    exact Stylesheet.parseEvents_unifyLines config t
  | validate path' =>
    cases hpath
    rw [Command.events, htext]
    exact Stylesheet.parseEvents_unifyLines config t

/-- Stylesheets that differ in their line endings are the same: a text and the one with a line feed for every line
ending are normalized to the same text, and have the same rules or the same fault. So a command on a file, whose line
endings are changed when it is read, prints what the text of the file as it stands there compiles to, and its log. -/
theorem sheet_of_any_line_endings (t : Text) :
    Stylesheet.normalize (unifyLines t) = Stylesheet.normalize t ∧
      ∀ config, Stylesheet.parse config (unifyLines t) = Stylesheet.parse config t ∧
        ∀ look path, look path = .file (encode t) → ∀ verbose,
          let log := if verbose then logText (Stylesheet.parseEvents config t) else []
          (∀ indent, Request.execute look (.run config verbose (.stylesheet path indent)) =
            outcome log (fun rules => printedJson? indent (.arr (rules.map Rule.toJson))) (Stylesheet.parse config t)) ∧
          Request.execute look (.run config verbose (.validate path)) =
            outcome log (fun rules => some (printedLines (summaryLines (fileName path) rules)))
              (Stylesheet.parse config t) := by
  refine ⟨Stylesheet.normalize_unifyLines t, fun config => ⟨Stylesheet.parse_unifyLines config t, ?_⟩⟩
  intro look path h verbose log
  constructor
  · intro indent
    rw [Request.execute, events_encode h rfl, Command.execute, h, runSheet_encode]
  · rw [Request.execute, events_encode h rfl, Command.execute, h, runSheet_encode]

end CommandLine

end CosmeticFilter
