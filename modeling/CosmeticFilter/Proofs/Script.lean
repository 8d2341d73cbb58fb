import CosmeticFilter.Proofs.Validity
import CosmeticFilter.Selector.Writer

/-!
# No text is lost

A compiled list can be written back as text (`SelectorList.text`). The text that was compiled and the
text that is written back differ by a script of edits, read from left to right: characters are kept,
white space is dropped, the names of extended pseudo-classes are put in lower case, and anchors are
inserted (`Edit`). `Edit.source` is the text that a script reads and `Edit.written` the text that it
writes.

`Script root finished parts script` is the derivation of a list along its structure: `script` writes
the selectors `finished`, each with its comma, and then the parts of one more selector. It fixes what
an edit may do where:

* white space is dropped only between the parts of a selector, or in a plain part at a place outside
  of all brackets and parentheses of that part (`PlainScript.outside`);
* an anchor stands directly before the colon of a pseudo-class, at the start of a selector or after a
  combinator or white space, and the anchors of the root stand at the start of the first selector only
  (`Anchor`);
* the argument of an absolute pseudo-class is kept character by character.

`parse_loses_no_text` shows that every run of the compiler follows such a script. The invariant
(`Accounted`) keeps one script for each list that is open, because the script of an interrupted list
can be completed only when the argument that interrupts it ends.
-/

namespace CosmeticFilter.Selector

/-! ### Edits -/

/-- What happens to a piece of the text. -/
inductive Edit where
  /-- A character is written as it is. -/
  | keep (c : Char)
  /-- White space is not written. -/
  | drop (c : Char)
  /-- The name of an extended pseudo-class is written in lower case. -/
  | lower (name : Text)
  /-- An anchor is written that does not stand in the text. -/
  | insert (anchor : Text)
  deriving DecidableEq

namespace Edit

def sourceText : Edit → Text
  | keep c => [c]
  | drop c => [c]
  | lower name => name
  | insert _ => []

def writtenText : Edit → Text
  | keep c => [c]
  | drop _ => []
  | lower name => Text.lower name
  | insert anchor => anchor

def source (script : List Edit) : Text := script.flatMap sourceText

def written (script : List Edit) : Text := script.flatMap writtenText

def keeps (t : Text) : List Edit := t.map keep

/-- Opens the argument of the pseudo-class that is spelled `word`. -/
def opening (word : Text) : List Edit := [.keep ':', .lower word, .keep '(']

@[simp] theorem source_append (a b : List Edit) : source (a ++ b) = source a ++ source b := by
  simp [source]

@[simp] theorem written_append (a b : List Edit) : written (a ++ b) = written a ++ written b := by
  simp [written]

@[simp] theorem source_cons (e : Edit) (es : List Edit) : source (e :: es) = e.sourceText ++ source es := rfl

@[simp] theorem written_cons (e : Edit) (es : List Edit) :
    written (e :: es) = e.writtenText ++ written es := rfl

@[simp] theorem source_nil : source [] = [] := rfl

@[simp] theorem written_nil : written [] = [] := rfl

@[simp] theorem source_keeps (t : Text) : source (keeps t) = t := by
  induction t with
  | nil => rfl
  | cons c t ih => simpa [keeps, sourceText] using ih

@[simp] theorem written_keeps (t : Text) : written (keeps t) = t := by
  induction t with
  | nil => rfl
  | cons c t ih => simpa [keeps, writtenText] using ih

@[simp] theorem source_opening (word : Text) : source (opening word) = ':' :: word ++ ['('] := by
  simp [opening, sourceText]

@[simp] theorem written_opening (word : Text) :
    written (opening word) = ':' :: Text.lower word ++ ['('] := by
  simp [opening, writtenText]

theorem eq_keep_of_mem_keeps {e : Edit} {t : Text} (h : e ∈ keeps t) : ∃ c, e = keep c := by
  obtain ⟨c, -, rfl⟩ := List.mem_map.1 h
  exact ⟨c, rfl⟩

end Edit

open Edit

/-! ### Plain parts -/

/-- Where an anchor may be inserted into a plain part, between the edits `before` and `after` of that
part. The part may be the first of its selector (`start`), even that of the whole input (`root`), and
an extended pseudo-class may follow it directly (`followed`). -/
inductive Anchor (root start followed : Bool) (before after : List Edit) : Text → Prop
  /-- Any element, at the start of a selector and before a colon. -/
  | atStart (hstart : start = true) (hbefore : before = [])
      (hafter : (∃ more, after = .keep ':' :: more) ∨ after = [] ∧ followed = true) :
      Anchor root start followed before after PseudoClass.anyElement
  /-- Any element, after a combinator or white space and before an extended pseudo-class. -/
  | afterCombinator {c : Char} (hbefore : (written before).getLast? = some c)
      (hc : Text.isSpace c = true ∨ Mark.isCombinator c = true) (hafter : after = [])
      (hfollowed : followed = true) : Anchor root start followed before after PseudoClass.anyElement
  /-- An element below the root, before an extended pseudo-class that starts the input. -/
  | belowRoot (hroot : root = true) (hbefore : before = []) (hafter : after = [])
      (hfollowed : followed = true) : Anchor root start followed before after PseudoClass.belowRoot
  /-- The root, before the mark of any element that starts the input. -/
  | beforeElement (hroot : root = true) (hbefore : before = [])
      (hafter : written after = PseudoClass.anyElement) (hfollowed : followed = true) :
      Anchor root start followed before after "html ".toList
  /-- The body, before an extended pseudo-class that starts the input. -/
  | pathRoot (hroot : root = true) (hbefore : before = []) (hafter : after = [])
      (hfollowed : followed = true) : Anchor root start followed before after PseudoClass.pathRoot

/-- Before plain text ends, an anchor can only stand before a colon at the start. -/
theorem Anchor.of_not_followed {root start : Bool} {before after : List Edit} {anchor : Text}
    (h : Anchor root start false before after anchor) :
    anchor = PseudoClass.anyElement ∧ start = true ∧ before = [] ∧ ∃ more, after = .keep ':' :: more := by
  cases h with
  | atStart hstart hbefore hafter =>
    rcases hafter with hcolon | ⟨-, hfollowed⟩
    · exact ⟨rfl, hstart, hbefore, hcolon⟩
    · cases hfollowed
  | afterCombinator _ _ _ hfollowed => cases hfollowed
  | belowRoot _ _ _ hfollowed => cases hfollowed
  | beforeElement _ _ _ hfollowed => cases hfollowed
  | pathRoot _ _ _ hfollowed => cases hfollowed

/-- The edits of a plain part with the given text. -/
structure PlainScript (root start followed : Bool) (text : Text) (script : List Edit) : Prop where
  written : Edit.written script = text
  plain : ∀ word, .lower word ∉ script
  outside : ∀ before c after, script = before ++ .drop c :: after →
    Text.isSpace c = true ∧ (Context.after (Edit.written before)).IsOutside
  anchors : ∀ before anchor after, script = before ++ .insert anchor :: after →
    Anchor root start followed before after anchor

namespace PlainScript

variable {root start followed : Bool} {text : Text} {script : List Edit}

theorem nil : PlainScript root start followed [] [] :=
  ⟨rfl, by simp, by simp, by simp⟩

/-- A script is a script also where an extended pseudo-class follows. -/
theorem follow (h : PlainScript root start false text script) : PlainScript root start true text script := by
  refine ⟨h.written, h.plain, h.outside, fun before anchor after heq => ?_⟩
  obtain ⟨rfl, hstart, hbefore, hcolon⟩ := (h.anchors before anchor after heq).of_not_followed
  exact .atStart hstart hbefore (.inl hcolon)

theorem append (h : PlainScript root start false text script) {more : List Edit} {text' : Text}
    (hwritten : Edit.written more = text') (hplain : ∀ word, .lower word ∉ more)
    (houtside : ∀ before c after, more = before ++ .drop c :: after →
      Text.isSpace c = true ∧ (Context.after (text ++ Edit.written before)).IsOutside)
    (hanchors : ∀ before anchor after, more = before ++ .insert anchor :: after →
      Anchor root start followed (script ++ before) after anchor) :
    PlainScript root start followed (text ++ text') (script ++ more) := by
  refine ⟨by simp [h.written, hwritten], ?_, ?_, ?_⟩
  · intro word hmem
    rcases List.mem_append.1 hmem with hmem | hmem
    · exact h.plain word hmem
    · exact hplain word hmem
  · intro before c after heq
    rcases append_eq_split heq with ⟨rest, hscript, -⟩ | ⟨rest, hmore, rfl⟩
    · exact h.outside before c rest hscript
    · have := houtside rest c after hmore
      rwa [written_append, h.written]
  · intro before anchor after heq
    rcases append_eq_split heq with ⟨rest, hscript, rfl⟩ | ⟨rest, hmore, rfl⟩
    · obtain ⟨rfl, hstart, hbefore, colon, rfl⟩ := (h.anchors before anchor rest hscript).of_not_followed
      exact .atStart hstart hbefore (.inl ⟨colon ++ more, rfl⟩)
    · exact hanchors rest anchor after hmore

theorem keeps (h : PlainScript root start false text script) (w : Text) :
    PlainScript root start false (text ++ w) (script ++ Edit.keeps w) := by
  have hno : ∀ e : Edit, (∀ c, e ≠ .keep c) → e ∉ Edit.keeps w := by
    intro e he hmem
    obtain ⟨c, hc⟩ := eq_keep_of_mem_keeps hmem
    exact he c hc
  refine h.append (by simp) (fun word => hno _ nofun) ?_ ?_
  · rintro before c after heq
    exact absurd (by simp [heq]) (hno (.drop c) nofun)
  · rintro before anchor after heq
    exact absurd (by simp [heq]) (hno (.insert anchor) nofun)

theorem drop (h : PlainScript root start false text script) {c : Char} (hspace : Text.isSpace c = true)
    (houtside : (Context.after text).IsOutside) :
    PlainScript root start false text (script ++ [.drop c]) := by
  have hmore : PlainScript root start false (text ++ []) (script ++ [.drop c]) := by
    refine h.append rfl (by simp) ?_ ?_
    · intro before d after heq
      obtain ⟨rfl, hd, -⟩ := singleton_eq_split heq
      cases hd
      simpa using ⟨hspace, houtside⟩
    · intro before anchor after heq
      cases (singleton_eq_split heq).2.1
  simpa using hmore

theorem insert {anchor : Text} (h : Anchor root start followed [] [] anchor) :
    PlainScript root start followed anchor [.insert anchor] := by
  refine ⟨by simp [writtenText], by simp, ?_, ?_⟩
  · intro before c after heq
    cases (singleton_eq_split heq).2.1
  · intro before anchor' after heq
    obtain ⟨rfl, hanchor, rfl⟩ := singleton_eq_split heq
    cases hanchor
    exact h

theorem startColon : PlainScript root true false (PseudoClass.anyElement ++ [':'])
    [.insert PseudoClass.anyElement, .keep ':'] := by
  refine ⟨rfl, by simp, ?_, ?_⟩
  · intro before c after heq
    rcases append_eq_split (a := [Edit.insert _]) (b := [Edit.keep ':']) heq with ⟨more, h, -⟩ | ⟨more, h, -⟩
    all_goals cases (singleton_eq_split h).2.1
  · intro before anchor after heq
    rcases append_eq_split (a := [Edit.insert _]) (b := [Edit.keep ':']) heq with ⟨more, h, hafter⟩ | ⟨more, h, -⟩
    · obtain ⟨rfl, hanchor, rfl⟩ := singleton_eq_split h
      cases hanchor
      exact .atStart rfl rfl (.inl ⟨[], hafter⟩)
    · cases (singleton_eq_split h).2.1

theorem insertElement (h : PlainScript root start false text script) {c : Char}
    (hlast : text.getLast? = some c) (hc : Text.isSpace c = true ∨ Mark.isCombinator c = true) :
    PlainScript root start true (text ++ PseudoClass.anyElement)
      (script ++ [.insert PseudoClass.anyElement]) := by
  refine h.append rfl (by simp) ?_ ?_
  · intro before d after heq
    cases (singleton_eq_split heq).2.1
  · intro before anchor after heq
    obtain ⟨rfl, hanchor, rfl⟩ := singleton_eq_split heq
    cases hanchor
    exact .afterCombinator (by simpa [h.written] using hlast) hc rfl rfl

theorem insertRoot (h : PlainScript true start false PseudoClass.anyElement script) :
    PlainScript true start true PseudoClass.belowRoot (.insert "html ".toList :: script) := by
  have hprefix : ∀ before e after, script = before ++ e :: after →
      Edit.written before ++ (e.writtenText ++ Edit.written after) = ['*'] := by
    intro before e after heq
    simpa [heq] using h.written
  refine ⟨by rw [written_cons, h.written]; rfl, by simpa using h.plain, ?_, ?_⟩
  · intro before c after heq
    rcases append_eq_split (a := [Edit.insert _]) heq with ⟨more, hmore, -⟩ | ⟨more, hmore, rfl⟩
    · cases (singleton_eq_split hmore).2.1
    · refine ⟨(h.outside more c after hmore).1, ?_⟩
      have hwritten : Edit.written more = [] ∨ Edit.written more = ['*'] := by
        have := hprefix more _ after hmore
        rcases List.append_eq_singleton_iff.1 this with ⟨hnil, -⟩ | ⟨hstar, -⟩
        · exact .inl hnil
        · exact .inr hstar
      rcases hwritten with hw | hw
      · rw [written_append, hw]
        decide
      · rw [written_append, hw]
        decide
  · intro before anchor after heq
    rcases append_eq_split (a := [Edit.insert _]) heq with ⟨more, hmore, rfl⟩ | ⟨more, hmore, rfl⟩
    · obtain ⟨rfl, hanchor, rfl⟩ := singleton_eq_split hmore
      cases hanchor
      exact .beforeElement rfl rfl h.written rfl
    · -- no other anchor fits into a text of one character
      have hone := hprefix more _ after hmore
      obtain ⟨rfl, -, -, rest, rfl⟩ := (h.anchors more anchor after hmore).of_not_followed
      have hlength := congrArg List.length hone
      simp [writtenText] at hlength
      omega

end PlainScript

/-! ### Selector lists -/

/-- The edits before an extended pseudo-class, after the parts `parts`: none directly after another one,
and else those of the plain part that it applies to. -/
inductive AnchorScript (root : Bool) (finished : SelectorList) (parts : Selector) :
    Selector → List Edit → Prop
  | none (hne : parts ≠ []) : AnchorScript root finished parts parts []
  | plain {text : Text} {script : List Edit}
      (hplain : PlainScript (root && finished.isEmpty && parts.isEmpty) parts.isEmpty true text script) :
      AnchorScript root finished parts (parts ++ [.regular text]) script

/-- The edits of the selectors `finished`, each with its comma, and of the parts of one more selector.
The list is that of the whole input (`root`) or an argument. -/
inductive Script : (root : Bool) → SelectorList → Selector → List Edit → Prop
  | start {root : Bool} : Script root [] [] []
  /-- White space between parts and around selectors. -/
  | space {root : Bool} {finished : SelectorList} {parts : Selector} {script : List Edit} {c : Char}
      (h : Script root finished parts script) (hspace : Text.isSpace c = true) :
      Script root finished parts (script ++ [.drop c])
  /-- A plain part that ends the selector. -/
  | plain {root : Bool} {finished : SelectorList} {parts : Selector} {script own : List Edit} {text : Text}
      (h : Script root finished parts script)
      (hplain : PlainScript (root && finished.isEmpty && parts.isEmpty) parts.isEmpty false text own) :
      Script root finished (parts ++ [.regular text]) (script ++ own)
  /-- An absolute pseudo-class, with the part that it applies to. -/
  | absolute {root : Bool} {finished : SelectorList} {parts anchored : Selector} {script own : List Edit}
      {word argument : Text} (h : Script root finished parts script)
      (hanchor : AnchorScript root finished parts anchored own) :
      Script root finished (anchored ++ [.absolute (Text.lower word) argument])
        (script ++ own ++ opening word ++ keeps argument ++ [.keep ')'])
  /-- A relative pseudo-class, with the part that it applies to. -/
  | relative {root : Bool} {finished inner : SelectorList} {parts anchored last : Selector}
      {script own argument : List Edit} {word : Text} (h : Script root finished parts script)
      (hanchor : AnchorScript root finished parts anchored own) (hinner : Script false inner last argument) :
      Script root finished (anchored ++ [.relative (Text.lower word) (inner ++ [last])])
        (script ++ own ++ opening word ++ argument ++ [.keep ')'])
  | comma {root : Bool} {finished : SelectorList} {parts : Selector} {script : List Edit}
      (h : Script root finished parts script) :
      Script root (finished ++ [parts]) [] (script ++ [.keep ','])

theorem AnchorScript.written {root : Bool} {finished : SelectorList} {parts anchored : Selector}
    {script : List Edit} (h : AnchorScript root finished parts anchored script) :
    Part.selectorText anchored = Part.selectorText parts ++ Edit.written script := by
  cases h with
  | none hne => simp
  | plain hplain => simp [Part.selectorText, Part.text, hplain.written]

/-- A script writes the text of what it derives. -/
theorem Script.written {root : Bool} {finished : SelectorList} {parts : Selector} {script : List Edit}
    (h : Script root finished parts script) :
    Edit.written script = finished.openText ++ Part.selectorText parts := by
  induction h with
  | start => rfl
  | space h hspace ih => simp [ih, writtenText]
  | plain h hplain ih => simp [ih, hplain.written, Part.selectorText, Part.text]
  | absolute h hanchor ih =>
    simp [ih, hanchor.written, Part.selectorText, Part.text, writtenText]
  | relative h hanchor hinner ih ihinner =>
    simp [ih, ihinner, hanchor.written, Part.text_relative_concat, Part.selectorText, writtenText]
  | comma h ih => simp [ih, Selector.text, Part.selectorText, writtenText]

/-! ### The account of a state -/

/-- The part that an extended pseudo-class applies to is the text collected so far, with an anchor or
without. -/
theorem PlainScript.anchorText {root start : Bool} {f : Frame} {script : List Edit} (name : Text)
    (h : PlainScript root start false f.buffer script) (hempty : f.buffer = [] → script = [])
    (hroot : f.atInputStart = true → f.parts = [] → root = true) (hstart : f.buffer = [] → start = true) :
    ∃ script', PlainScript root start true (f.anchorText name) script' ∧ source script' = source script := by
  rw [Frame.anchorText]
  split
  · next hcond =>
    simp only [Bool.and_eq_true, Bool.or_eq_true, decide_eq_true_eq, List.isEmpty_iff] at hcond
    obtain ⟨⟨⟨hinput, hparts⟩, hbuffer⟩, -⟩ := hcond
    obtain rfl := hroot hinput hparts
    rcases hbuffer with hbuffer | hbuffer
    · exact ⟨_, .insert (.belowRoot rfl rfl rfl rfl), by simp [hempty hbuffer, sourceText]⟩
    · rw [hbuffer] at h
      exact ⟨_, h.insertRoot, by simp [sourceText]⟩
  · split
    · next hcond =>
      simp only [Bool.and_eq_true, decide_eq_true_eq, List.isEmpty_iff] at hcond
      obtain ⟨⟨⟨hinput, hparts⟩, hbuffer⟩, -⟩ := hcond
      obtain rfl := hroot hinput hparts
      exact ⟨_, .insert (.pathRoot rfl rfl rfl rfl), by simp [hempty hbuffer, sourceText]⟩
    · split
      · next hlast =>
        have hbuffer := List.getLast?_eq_none_iff.1 hlast
        exact ⟨_, .insert (.atStart (hstart hbuffer) rfl (.inr ⟨rfl, rfl⟩)),
          by simp [hempty hbuffer, sourceText]⟩
      · next c hlast =>
        split
        · next hc =>
          rw [Bool.or_eq_true] at hc
          exact ⟨_, h.insertElement hlast hc, by simp [sourceText]⟩
        · exact ⟨_, h.follow, rfl⟩

/-- The anchors of the root apply in the first selector of the whole input only. -/
def StartsInput (root : Bool) (level : Level) : Prop :=
  level.frame.atInputStart = true → root = true ∧ level.finished = []

/-- The edits of a list that is being collected. -/
def Collected (root : Bool) (level : Level) (script : List Edit) : Prop :=
  StartsInput root level ∧ ∃ done own, Script root level.finished level.frame.parts done ∧
    PlainScript (root && level.finished.isEmpty && level.frame.parts.isEmpty) level.frame.parts.isEmpty
      false level.frame.buffer own ∧
    (level.frame.buffer = [] → own = []) ∧ script = done ++ own

/-- The edits of a list that the argument of the pseudo-class `name` interrupts, up to the parenthesis
that opens the argument. -/
def Interrupted (root : Bool) (name : Text) (level : Level) (script : List Edit) : Prop :=
  StartsInput root level ∧ ∃ parts done own word, Script root level.finished parts done ∧
    AnchorScript root level.finished parts level.frame.parts own ∧ Text.lower word = name ∧
    script = done ++ own ++ opening word

/-- The edits of the lists that are interrupted. -/
def StackAccounted : List Suspended → List Edit → Prop
  | [], script => script = []
  | e :: outer, script => ∃ before own, StackAccounted outer before ∧
      Interrupted outer.isEmpty e.name e.level own ∧ script = before ++ own

/-- The edits of everything that is read. -/
def State.Accounted (s : State) (script : List Edit) : Prop :=
  ∃ before own, StackAccounted s.outer before ∧ script = before ++ own ∧
    match s.mode with
    | .argument a => ∃ opened, Interrupted s.outer.isEmpty a.name s.level opened ∧ own = opened ++ keeps a.text
    | _ => Collected s.outer.isEmpty s.level own

namespace Collected

variable {root : Bool} {level : Level} {script : List Edit}

/-- Where no plain text is collected, the edits are those of the parts that are complete. -/
theorem of_script (hstarts : StartsInput root level) (h : Script root level.finished level.frame.parts script)
    (hbuffer : level.frame.buffer = []) : Collected root level script := by
  refine ⟨hstarts, script, [], h, ?_, fun _ => rfl, (List.append_nil _).symm⟩
  rw [hbuffer]
  exact .nil

theorem nil : Collected false {} [] := of_script nofun .start rfl

theorem allParts (h : Collected root level script) :
    Script root level.finished level.frame.allParts script := by
  obtain ⟨-, done, own, hdone, hown, hempty, rfl⟩ := h
  rcases level.frame.allParts_cases with ⟨hbuffer, hparts⟩ | ⟨-, hparts⟩
  · rw [hparts, hempty hbuffer, List.append_nil]
    exact hdone
  · rw [hparts]
    exact hdone.plain hown

theorem keeps (h : Collected root level script) {f : Frame} {w : Text} (hw : w ≠ [])
    (hparts : f.parts = level.frame.parts) (hbuffer : f.buffer = level.frame.buffer ++ w)
    (hinput : f.atInputStart = level.frame.atInputStart) :
    Collected root { level with frame := f } (script ++ Edit.keeps w) := by
  obtain ⟨hstarts, done, own, hdone, hown, hempty, rfl⟩ := h
  refine ⟨by simpa [StartsInput, hinput] using hstarts, done, own ++ Edit.keeps w, ?_, ?_, ?_, by simp⟩
  · simpa [hparts] using hdone
  · simpa [hparts, hbuffer] using hown.keeps w
  · intro hnil
    rw [hbuffer] at hnil
    exact absurd (List.append_eq_nil_iff.1 hnil).2 hw

theorem drop (h : Collected root level script) {c : Char} (hspace : Text.isSpace c = true)
    (houtside : (Context.after level.frame.buffer).IsOutside) :
    Collected root level (script ++ [.drop c]) := by
  obtain ⟨hstarts, done, own, hdone, hown, hempty, rfl⟩ := h
  refine ⟨hstarts, ?_⟩
  by_cases hbuffer : level.frame.buffer = []
  · refine ⟨done ++ [.drop c], [], hdone.space hspace, ?_, fun _ => rfl, by simp [hempty hbuffer]⟩
    rw [hbuffer]
    exact .nil
  · exact ⟨done, own ++ [.drop c], hdone, hown.drop hspace houtside, fun h => absurd h hbuffer, by simp⟩

/-- A colon that starts a selector brings its anchor with it. -/
theorem startColon (h : Collected root level script) {f : Frame} (hempty : level.frame.isEmpty = true)
    (hparts : f.parts = []) (hbuffer : f.buffer = PseudoClass.anyElement ++ [':'])
    (hinput : f.atInputStart = level.frame.atInputStart) :
    Collected root { level with frame := f }
      (script ++ [.insert PseudoClass.anyElement, .keep ':']) := by
  obtain ⟨hstarts, done, own, hdone, -, hown, rfl⟩ := h
  rw [Frame.isEmpty_iff] at hempty
  refine ⟨by simpa [StartsInput, hinput] using hstarts, done, _, ?_, ?_, ?_, by simp [hown hempty.1]; rfl⟩
  · simpa [hparts, hempty.2] using hdone
  · rw [hparts, hbuffer]
    exact .startColon
  · simp [hbuffer]

theorem interrupt (h : Collected root level script) (word : Text) :
    ∃ script', Interrupted root (Text.lower word)
        { level with frame := level.frame.anchor (Text.lower word) } script' ∧
      source script' = source script ++ ':' :: word ++ ['('] := by
  obtain ⟨hstarts, done, own, hdone, hown, hempty, rfl⟩ := h
  have hstarts' : StartsInput root { level with frame := level.frame.anchor (Text.lower word) } := by
    simpa [StartsInput] using hstarts
  rcases level.frame.parts_anchor (Text.lower word) with ⟨hbuffer, hne, hparts⟩ | ⟨hfirst, hparts⟩
  · refine ⟨done ++ [] ++ opening word, ⟨hstarts', level.frame.parts, done, [], word, hdone, ?_, rfl, rfl⟩, ?_⟩
    · rw [hparts]
      exact .none hne
    · simp [hempty hbuffer]
  · obtain ⟨own', hown', hsource⟩ := hown.anchorText (Text.lower word) hempty
      (fun hinput hnil => by simp [hstarts hinput, hnil]) (fun hnil => by simp [hfirst hnil])
    refine ⟨done ++ own' ++ opening word,
      ⟨hstarts', level.frame.parts, done, own', word, hdone, ?_, rfl, rfl⟩, ?_⟩
    · rw [hparts]
      exact .plain hown'
    · simp [hsource]

end Collected

namespace Interrupted

variable {root : Bool} {name : Text} {level : Level} {script : List Edit} {f : Frame}

theorem absolute (h : Interrupted root name level script) {argument : Text}
    (hparts : f.parts = level.frame.parts ++ [.absolute name argument]) (hbuffer : f.buffer = [])
    (hinput : f.atInputStart = level.frame.atInputStart) :
    Collected root { level with frame := f } (script ++ keeps argument ++ [.keep ')']) := by
  obtain ⟨hstarts, parts, done, own, word, hdone, hanchor, rfl, rfl⟩ := h
  refine .of_script (by simpa [StartsInput, hinput] using hstarts) ?_ hbuffer
  rw [hparts]
  exact hdone.absolute hanchor

theorem relative (h : Interrupted root name level script) {inner : Level} {argument : List Edit}
    (hinner : Collected false inner argument)
    (hparts : f.parts = level.frame.parts ++ [.relative name inner.selectors])
    (hbuffer : f.buffer = []) (hinput : f.atInputStart = level.frame.atInputStart) :
    Collected root { level with frame := f } (script ++ argument ++ [.keep ')']) := by
  obtain ⟨hstarts, parts, done, own, word, hdone, hanchor, rfl, rfl⟩ := h
  refine .of_script (by simpa [StartsInput, hinput] using hstarts) ?_ hbuffer
  rw [hparts]
  exact hdone.relative hanchor hinner.allParts

end Interrupted

namespace State.Accounted

variable {config : Config} {s : State} {t : Token} {rest : List Token} {next : Step} {script : List Edit}

theorem collected (h : s.Accounted script) (hmode : ∀ a, s.mode ≠ .argument a) :
    ∃ before own, StackAccounted s.outer before ∧ script = before ++ own ∧
      Collected s.outer.isEmpty s.level own := by
  obtain ⟨before, own, hbefore, hscript, hown⟩ := h
  refine ⟨before, own, hbefore, hscript, ?_⟩
  split at hown
  · next a ha => exact absurd ha (hmode a)
  · exact hown

theorem of_collected {before own : List Edit} (hmode : ∀ a, s.mode ≠ .argument a)
    (hbefore : StackAccounted s.outer before) (hown : Collected s.outer.isEmpty s.level own) :
    s.Accounted (before ++ own) := by
  refine ⟨before, own, hbefore, rfl, ?_⟩
  split
  · next a ha => exact absurd ha (hmode a)
  · exact hown

theorem start : State.start.Accounted [] := by
  refine ⟨[], [], rfl, rfl, ?_⟩
  exact Collected.of_script (fun _ => ⟨rfl, rfl⟩) .start rfl

/-- Text is written, whatever it means for brackets and parentheses. -/
theorem keeps (h : s.Accounted script) (hmode : ∀ a, s.mode ≠ .argument a) {state : State} {w : Text}
    (hw : w ≠ []) (hmode' : ∀ a, state.mode ≠ .argument a) (houter : state.outer = s.outer)
    (hfinished : state.level.finished = s.level.finished) (hparts : state.frame.parts = s.frame.parts)
    (hbuffer : state.frame.buffer = s.frame.buffer ++ w)
    (hinput : state.frame.atInputStart = s.frame.atInputStart) :
    state.Accounted (script ++ Edit.keeps w) := by
  obtain ⟨before, own, hbefore, rfl, hown⟩ := h.collected hmode
  have hlevel : state.level = ⟨s.level.finished, state.frame⟩ := by rw [← hfinished]; rfl
  rw [List.append_assoc]
  refine of_collected hmode' (by rwa [houter]) ?_
  rw [houter, hlevel]
  exact hown.keeps hw hparts hbuffer hinput

theorem move_inArgument (h : s.Accounted script) (htracked : s.Tracked) {input : Input} {a : Argument}
    {state : State} (hmode : s.mode = .argument a) (hread : s.readArgument input a t = .ok state) :
    state.Accounted (script ++ Edit.keeps t.text) := by
  obtain ⟨before, own, hbefore, rfl, hown⟩ := h
  simp only [hmode] at hown
  obtain ⟨opened, hopened, rfl⟩ := hown
  rcases readArgument_cases hread with ⟨a', hname, htext, rfl⟩ | ⟨hmark, -, rfl⟩
  · refine ⟨before, opened ++ Edit.keeps a'.text, hbefore, by simp [htext, Edit.keeps], opened, ?_, rfl⟩
    rwa [hname]
  · rw [List.append_assoc]
    refine of_collected nofun hbefore ?_
    rw [hmark]
    exact hopened.absolute rfl (htracked.argument a hmode) rfl

theorem move_close (h : s.Accounted script) (htracked : s.Tracked) (hmode : s.mode = .regular)
    {enclosing : Suspended} {outer : List Suspended} (hstack : s.outer = enclosing :: outer) :
    (s.resume enclosing outer).Accounted (script ++ [.keep ')']) := by
  obtain ⟨before, own, hbefore, rfl, hown⟩ := h.collected (by simp [hmode])
  simp only [hstack, List.isEmpty_cons] at hbefore hown
  obtain ⟨before', own', hbefore', hown', rfl⟩ := hbefore
  have hbuffer := (htracked.outer enclosing (by simp [hstack])).1
  have := hown'.relative (f := (s.resume enclosing outer).frame) hown rfl hbuffer rfl
  rw [List.append_assoc, List.append_assoc, ← List.append_assoc own']
  exact of_collected (by simp [hmode]) hbefore' this

/-- Every move has its edits, which read the tokens that it consumes. -/
theorem move (h : s.Accounted script) (htracked : s.Tracked) (ht : t.Proper)
    (hmove : Move config s t rest next) :
    ∃ more, next.state.Accounted more ∧
      source more ++ Token.texts (rest.drop next.skip) = source script ++ Token.texts (t :: rest) := by
  cases hmove with
  | inAttribute mode read =>
    refine ⟨script ++ Edit.keeps t.text, ?_, by simp⟩
    rcases readAttribute_cases read with ⟨-, rfl⟩ | ⟨-, -, rfl⟩
    · exact h.keeps (by simp [mode]) ht.text_ne_nil nofun rfl rfl rfl rfl rfl
    · exact h.keeps (by simp [mode]) ht.text_ne_nil nofun rfl rfl rfl rfl rfl
  | inArgument mode read =>
    exact ⟨_, h.move_inArgument htracked mode (read ⟨[], config⟩), by simp⟩
  | comma mode mark depth regular =>
    obtain ⟨before, own, hbefore, rfl, hown⟩ := h.collected (by simp [mode])
    have hnext : Collected s.outer.isEmpty s.nextSelector.level (own ++ [.keep ',']) :=
      .of_script nofun hown.allParts.comma rfl
    exact ⟨_, of_collected (by simp [mode]) hbefore hnext, by simp [mark, sourceText]⟩
  | close mode mark depth removed stack regular =>
    exact ⟨_, h.move_close htracked mode stack, by simp [mark, sourceText]⟩
  | colon mode mark removed plain =>
    cases hempty : s.frame.isEmpty with
    | true =>
      obtain ⟨before, own, hbefore, rfl, hown⟩ := h.collected (by simp [mode])
      have hframe := frame_copyColon rest s
      have hnil := Frame.isEmpty_iff.1 hempty
      simp only [colonText, hempty, if_true, hnil.1, List.nil_append] at hframe
      refine ⟨before ++ (own ++ [.insert PseudoClass.anyElement, .keep ':']), ?_, by simp [mark, sourceText]⟩
      refine of_collected (by simp [mode]) hbefore ?_
      have := hown.startColon (f := (s.copyColon rest).frame) hempty (by rw [hframe]; exact hnil.2)
        (by rw [hframe]) (by rw [hframe]; rfl)
      exact this
    | false =>
      have hframe := frame_copyColon rest s
      simp only [colonText, hempty, Bool.false_eq_true, if_false, List.nil_append] at hframe
      refine ⟨script ++ Edit.keeps [':'], ?_, by simp [mark]⟩
      exact h.keeps (by simp [mode]) (by simp) (by simp [mode]) rfl rfl (by rw [hframe])
        (by rw [hframe]) (by rw [hframe])
  | openRelative mode mark removed opens limit =>
    obtain ⟨before, own, hbefore, rfl, hown⟩ := h.collected (by simp [mode])
    obtain ⟨word, paren, more, rfl, -, rfl, -, hparen⟩ := opens.tokens
    obtain ⟨own', hown', hsource⟩ := hown.interrupt word.text
    refine ⟨(before ++ own') ++ [], of_collected (by simp [mode]) ⟨before, own', hbefore, hown', rfl⟩ .nil, ?_⟩
    simp [hsource, mark, hparen]
  | openAbsolute mode mark removed opens remove =>
    obtain ⟨before, own, hbefore, rfl, hown⟩ := h.collected (by simp [mode])
    obtain ⟨word, paren, more, rfl, -, rfl, -, hparen⟩ := opens.tokens
    obtain ⟨own', hown', hsource⟩ := hown.interrupt word.text
    refine ⟨before ++ own', ⟨before, own', hbefore, rfl, own', hown', by simp [Edit.keeps]⟩, ?_⟩
    simp [hsource, mark, hparen]
  | keepSpace mode space kept =>
    refine ⟨script ++ Edit.keeps t.text, ?_, by simp⟩
    exact h.keeps (by simp [mode]) ht.text_ne_nil (by simp [mode]) rfl rfl rfl rfl rfl
  | dropSpace mode space depth dropped =>
    obtain ⟨before, own, hbefore, rfl, hown⟩ := h.collected (by simp [mode])
    obtain ⟨c, hc, hspace⟩ := Token.isOf_iff.1 space
    refine ⟨before ++ (own ++ [.drop c]), of_collected (by simp [mode]) hbefore ?_, by simp [hc, sourceText]⟩
    exact hown.drop hspace (htracked.isOutside mode depth)
  | plain mode removed ordinary =>
    refine ⟨script ++ Edit.keeps t.text, ?_, by simp⟩
    obtain ⟨depth, mode', hmode', heq⟩ := readPlain_eq s t
    rw [heq]
    refine h.keeps (by simp [mode]) ht.text_ne_nil ?_ rfl rfl rfl rfl rfl
    rintro a rfl
    exact absurd (hmode' a rfl) (by simp [mode])

end State.Accounted

end CosmeticFilter.Selector

namespace CosmeticFilter.SelectorList

open Selector Selector.Edit

theorem exists_script_of_compile {config : Config} {text : Text} {list : SelectorList}
    (h : compile config text = .ok list) : ∃ finished last script, list = finished ++ [last] ∧
      Script true finished last script ∧ source script = Text.trimSpace text := by
  obtain ⟨final, ⟨script, haccounted, hsource⟩, hmode, houter, -, rfl⟩ :=
    compile_induction_tracked
      (P := fun s rest => ∃ script, s.Accounted script ∧
        source script ++ Token.texts rest = Text.trimSpace text) h
      ⟨[], State.Accounted.start, Token.texts_scan _⟩ (by
        intro s t rest next htracked hscanned _ hP hmove
        obtain ⟨script, haccounted, hsource⟩ := hP
        obtain ⟨more, hmore, htexts⟩ := haccounted.move htracked hscanned.head hmove
        exact ⟨more, hmore, htexts.trans hsource⟩)
  obtain ⟨before, own, hbefore, rfl, hown⟩ := haccounted.collected (by simp [hmode])
  rw [houter] at hbefore hown
  obtain rfl : before = [] := hbefore
  refine ⟨final.level.finished, final.frame.allParts, own, rfl, hown.allParts, ?_⟩
  simpa using hsource

/-- The text of a list that is returned is the text that was read, edited by a script along the structure
of the list. -/
theorem parse_loses_no_text {config : Config} {text : Text} {list : SelectorList}
    (h : parse config text = .ok list) : ∃ finished last script, list = finished ++ [last] ∧
      Script true finished last script ∧ source script = Text.trimSpace text ∧
      written script = list.text := by
  obtain ⟨finished, last, script, rfl, hscript, hsource⟩ := exists_script_of_compile (compile_of_parse h)
  refine ⟨finished, last, script, rfl, hscript, hsource, ?_⟩
  rw [hscript.written, text_concat]
  rfl

theorem parse_loses_no_text_nested :
    ∃ list, parse .standard "*:NOT( a > :Contains(x y) ,[b=\"c d\"] ) , :hover".toList = .ok list ∧
      list.text = "html *:not(a > *:contains(x y),[b=\"c d\"]),*:hover".toList ∧
      ∃ finished last script, list = finished ++ [last] ∧ Script true finished last script ∧
        source script = Text.trimSpace "*:NOT( a > :Contains(x y) ,[b=\"c d\"] ) , :hover".toList ∧
        written script = list.text := by
  have h : parse .standard "*:NOT( a > :Contains(x y) ,[b=\"c d\"] ) , :hover".toList =
      .ok [[.regular "html *".toList, .relative "not".toList
          [[.regular "a > *".toList, .absolute "contains".toList "x y".toList], [.regular "[b=\"c d\"]".toList]]],
        [.regular "*:hover".toList]] :=
    (parse_eq_compile _ _).trans (eq_ok_of_toOption (by decide +kernel))
  exact ⟨_, h, by decide +kernel, parse_loses_no_text h⟩

end CosmeticFilter.SelectorList
