import CosmeticFilter.CommandLine.Run
import CosmeticFilter.Proofs.Decoding
import CosmeticFilter.Proofs.Forms
import CosmeticFilter.Proofs.Settling

/-!
# What is printed as JSON

What the commands print as JSON loses nothing (`CommandLine.json_lossless`): with any limits and any width of
indentation that fits into a machine word, a decoder reads it as the form of the tree, or as the forms of the rules,
that the argument compiles to. With any other width nothing is printed (`Command.Compiles.run_eq_overflow`).

Three facts make that so. The layout of a value holds no escape character, so that no control sequence is taken out of
it (`printedJson?_eq`). No name stands twice in an object of a form, so that the decoder reads the layout back
(`Node.distinct_toJson`, `Rule.distinct_toJson`). And a form is the form of one tree or rule only
(`Content.toJson_injective`).
-/

namespace CosmeticFilter

/-! ### What the console changes -/

namespace Json

theorem escape_not_mem_hex : ∀ n < 0x20, '\x1b' ∉ Text.hex 4 n := by decide

theorem escape_not_mem_escapeChar (c : Char) : '\x1b' ∉ escapeChar c := by
  unfold escapeChar
  split_ifs with hquote hn hr ht hb hf hcontrol
  · rcases hquote with rfl | rfl
    · decide
    · decide
  · decide
  · decide
  · decide
  · decide
  · decide
  · simpa using escape_not_mem_hex c.toNat hcontrol
  · rw [List.mem_singleton]
    rintro rfl
    exact hcontrol (by decide)

theorem escape_not_mem_stringText (s : Text) : '\x1b' ∉ stringText s := by
  intro hmem
  rw [stringText, List.mem_append, List.mem_cons, List.mem_flatMap] at hmem
  rcases hmem with (hmem | ⟨c, -, hmem⟩) | hmem
  · exact absurd hmem (by decide)
  · exact escape_not_mem_escapeChar c hmem
  · exact absurd hmem (by decide)

theorem escape_not_mem_lineBreak (width depth : Nat) : '\x1b' ∉ lineBreak width depth := by
  rw [lineBreak, List.mem_cons, List.mem_replicate]
  rintro (h | ⟨-, h⟩)
  · exact absurd h (by decide)
  · exact absurd h (by decide)

theorem escape_not_mem_ofInt (n : Int) : '\x1b' ∉ Text.ofInt n := by
  have hdigits : ∀ n, '\x1b' ∉ Text.ofNat n := fun n hmem => absurd (Text.isDigit_of_mem_ofNat hmem) (by decide)
  cases n with
  | ofNat n => exact hdigits n
  | negSucc n => simpa [Text.ofInt] using hdigits (n + 1)

mutual

theorem escape_not_mem_layoutAt (width depth : Nat) : (j : Json) → '\x1b' ∉ layoutAt width depth j
  | .null => by simp [layoutAt]
  | .bool true => by simp [layoutAt]
  | .bool false => by simp [layoutAt]
  | .int n => escape_not_mem_ofInt n
  | .str s => escape_not_mem_stringText s
  | .arr [] => by simp [layoutAt]
  | .arr (item :: items) => by
    have hitem := escape_not_mem_layoutAt width (depth + 1) item
    have hitems := escape_not_mem_layoutItems width (depth + 1) items
    simp [layoutAt, escape_not_mem_lineBreak, hitem, hitems]
  | .obj [] => by simp [layoutAt]
  | .obj ((name, value) :: fields) => by
    have hvalue := escape_not_mem_layoutAt width (depth + 1) value
    have hfields := escape_not_mem_layoutFields width (depth + 1) fields
    simp [layoutAt, escape_not_mem_lineBreak, escape_not_mem_stringText, hvalue, hfields]

theorem escape_not_mem_layoutItems (width depth : Nat) :
    (items : List Json) → '\x1b' ∉ layoutItems width depth items
  | [] => List.not_mem_nil
  | item :: items => by
    have hitem := escape_not_mem_layoutAt width depth item
    have hitems := escape_not_mem_layoutItems width depth items
    simp [layoutItems, escape_not_mem_lineBreak, hitem, hitems]

theorem escape_not_mem_layoutFields (width depth : Nat) :
    (fields : List (Text × Json)) → '\x1b' ∉ layoutFields width depth fields
  | [] => List.not_mem_nil
  | (name, value) :: fields => by
    have hvalue := escape_not_mem_layoutAt width depth value
    have hfields := escape_not_mem_layoutFields width depth fields
    simp [layoutFields, escape_not_mem_lineBreak, escape_not_mem_stringText, hvalue, hfields]

end

end Json

namespace CommandLine

theorem dropSequencesFrom_eq_self {t : Text} (h : '\x1b' ∉ t) : dropSequencesFrom false t = t := by
  induction t with
  | nil => rfl
  | cons c t ih =>
    rw [List.mem_cons, not_or] at h
    rw [dropSequencesFrom.eq_3 _ _ fun rest hc => absurd hc (Ne.symm h.1), ih h.2]

/-- The console takes nothing out of a layout. -/
theorem printedJson?_eq (indent : Int) (j : Json) :
    printedJson? indent j = (j.layout? indent).map fun line => line ++ ['\n'] := by
  rw [printedJson?, Json.layout?]
  split
  · rw [Option.map_some, Option.map_some, printed, dropSequencesFrom_eq_self (Json.escape_not_mem_layoutAt _ 0 j)]
  · rfl

theorem decode?_printedJson {indent : Int} {j : Json} {output : Text} (h : Json.Distinct j)
    (houtput : printedJson? indent j = some output) : Json.decode? output = some j := by
  rw [printedJson?_eq, Option.map_eq_some_iff] at houtput
  obtain ⟨line, hline, rfl⟩ := houtput
  exact Json.decode?_layout h hline

end CommandLine

/-! ### Forms without names that stand twice -/

theorem Node.distinct_toJson (node : Node) : Json.Distinct node.toJson := by
  induction node using Node.tree_induction with
  | _ node ih =>
  rw [toJson_of_build node.build_toJson, object]
  refine .obj ?_ ?_
  · have hnames : ∀ kind, (kindKey :: textKeys kind ++ [childrenKey]).Nodup := by
      intro kind
      cases kind <;> decide
    simpa [Function.comp_def] using hnames node.kind
  · simp only [List.mem_append, List.mem_cons, List.mem_map, List.not_mem_nil, or_false]
    rintro _ ((rfl | ⟨_, -, rfl⟩) | rfl)
    · exact .str _
    · exact .str _
    · exact .arr (by simpa using ih)

namespace Declaration

/-- The form of the declarations of a rule. -/
def styleJson (ds : List Declaration) : Json := .obj (ds.map fun d => (d.property, .str d.value))

theorem distinct_styleJson {ds : List Declaration} (h : (ds.map property).Nodup) : Json.Distinct (styleJson ds) := by
  refine .obj (by simpa [Function.comp_def] using h) ?_
  simp only [List.mem_map]
  rintro _ ⟨d, -, rfl⟩
  exact .str d.value

theorem styleJson_injective : Function.Injective styleJson := by
  intro ds es h
  refine List.map_injective_iff.2 ?_ (Json.obj.inj h)
  rintro ⟨property, value⟩ ⟨property', value'⟩ heq
  cases heq
  rfl

theorem nodup_style? {ds style : List Declaration} (h : style? ds = some style) :
    (style.map property).Nodup := by
  by_cases hremoval : removal ∈ ds
  · rw [style?_of_removal hremoval] at h
    cases h
    exact List.nodup_singleton _
  · rw [style?_of_not_removal hremoval] at h
    split at h
    · cases h
    · cases h
      exact nodup_settle ds

end Declaration

theorem Rule.distinct_toJson {rule : Rule} (h : ∀ ds ∈ rule.style, (ds.map Declaration.property).Nodup) :
    Json.Distinct rule.toJson := by
  obtain ⟨selector, ast, style, debug⟩ := rule
  refine .obj ?_ ?_
  · have hnames : ["selector".toList, "ast".toList, "style".toList, "debug".toList].Nodup := by decide
    refine List.Sublist.nodup ?_ hnames
    cases style <;> cases debug <;> simp
  · simp only [List.mem_append, List.mem_cons, List.not_mem_nil, or_false, Option.mem_toList, Option.map_eq_some_iff]
    rintro _ (((rfl | rfl) | ⟨ds, hds, rfl⟩) | ⟨value, -, rfl⟩)
    · exact .str selector
    · exact ast.toNode.distinct_toJson
    · exact Declaration.distinct_styleJson (h ds hds)
    · exact .str value

/-! ### Forms of different values differ -/

theorem Node.toJson_injective : Function.Injective toJson := by
  intro a b h
  have hread := ofJson_toJson a
  rw [h, ofJson_toJson] at hread
  exact (Except.ok.inj hread).symm

namespace Part

mutual

theorem toNode_inj : (p q : Part) → p.toNode = q.toNode → p = q
  | .regular _, .regular _, h => by cases h; rfl
  | .absolute _ _, .absolute _ _, h => by cases h; rfl
  | .relative name argument, .relative name' argument', h => by
    simp only [toNode, Node.branch.injEq, Branch.relative.injEq, List.cons.injEq, and_true, true_and] at h
    rw [h.1, listNodes_inj argument argument' h.2]
  | .regular _, .absolute _ _, h | .regular _, .relative _ _, h => by cases h
  | .absolute _ _, .regular _, h | .absolute _ _, .relative _ _, h => by cases h
  | .relative _ _, .regular _, h | .relative _ _, .absolute _ _, h => by cases h

theorem partNodes_inj : (ps qs : List Part) → partNodes ps = partNodes qs → ps = qs
  | [], [], _ => rfl
  | p :: ps, q :: qs, h => by
    rw [partNodes, partNodes, List.cons.injEq] at h
    rw [toNode_inj p q h.1, partNodes_inj ps qs h.2]
  | [], _ :: _, h | _ :: _, [], h => by cases h

theorem listNodes_inj : (list list' : List (List Part)) → listNodes list = listNodes list' → list = list'
  | [], [], _ => rfl
  | selector :: list, selector' :: list', h => by
    simp only [listNodes, List.cons.injEq, Node.branch.injEq, true_and] at h
    rw [partNodes_inj selector selector' h.1, listNodes_inj list list' h.2]
  | [], _ :: _, h | _ :: _, [], h => by cases h

end

end Part

theorem SelectorList.toNode_injective : Function.Injective toNode := by
  intro a b h
  exact Part.listNodes_inj a b (Node.branch.inj h).2

theorem Rule.toJson_injective : Function.Injective toJson := by
  have hstyleField (r : Rule) : r.toJson.field? "style".toList = r.style.map Declaration.styleJson := by
    rcases r with ⟨_, _, _ | _, _ | _⟩ <;> rfl
  have hdebugField (r : Rule) : r.toJson.field? "debug".toList = r.debug.map .str := by
    rcases r with ⟨_, _, _ | _, _ | _⟩ <;> rfl
  intro r r' h
  have hfield key : r.toJson.field? key = r'.toJson.field? key := by rw [h]
  have hselector : r.selector = r'.selector := Json.str.inj (Option.some.inj (hfield "selector".toList))
  have hast : r.ast = r'.ast := SelectorList.toNode_injective
    (Node.toJson_injective (Option.some.inj (hfield "ast".toList)))
  have hstyle : r.style = r'.style := by
    refine Option.map_injective Declaration.styleJson_injective ?_
    rw [← hstyleField, ← hstyleField, hfield]
  have hdebug : r.debug = r'.debug := by
    refine Option.map_injective (fun _ _ => Json.str.inj) ?_
    rw [← hdebugField, ← hdebugField, hfield]
  cases r
  cases r'
  cases hselector
  cases hast
  cases hstyle
  cases hdebug
  rfl

/-! ### Command lines that give every option -/

theorem Config.ofInt?_maxDepth (config : Config) : ofInt? config.maxDepth = some config := by
  have hpos := config.maxDepth_pos
  rw [ofInt?, dif_pos (by omega)]
  rfl

namespace CommandLine

variable {g : Grammar} {w value name argument : Text} {rest : List Text}

theorem read?_awaiting (h : word g w = .awaiting name) :
    read? g (w :: value :: rest) = (read? g rest).map (Parsed.withSettings [⟨name, some value⟩]) := by
  rw [read?, h]

theorem read?_argument (h : word g w = .argument) (hend : g.interspersed = false) :
    read? g (w :: rest) = some { arguments := w :: rest } := by
  rw [read?, h]
  dsimp only
  rw [hend]
  rfl

/-- The width of indentation that is set for a command, if it has one. -/
def Command.indent? : Command → Option Int
  | .parse _ indent | .stylesheet _ indent => some indent
  | .inspect _ | .validate _ => none

/-- The words that ask for a command with its options. The argument stands after the end of the options, so it may start
with a hyphen. -/
def Command.words : Command → List Text
  | .parse selector indent =>
    [CommandName.parse.text, "--indent".toList, Text.ofInt indent, "--".toList, selector]
  | .inspect selector => [CommandName.inspect.text, "--".toList, selector]
  | .stylesheet path indent =>
    [CommandName.stylesheet.text, "--indent".toList, Text.ofInt indent, "--".toList, path]
  | .validate path => [CommandName.validate.text, "--".toList, path]

/-- The command line that asks for a command under the given limits, with all numbers spelled out. -/
def commandLine (config : Config) (command : Command) : List Text :=
  "--max-depth".toList :: Text.ofInt config.maxDepth :: command.words

/-- A number that is short enough to be read. -/
def Legible (n : Int) : Prop := n.natAbs < 10 ^ Text.maxDigits

instance (n : Int) : Decidable (Legible n) := inferInstanceAs (Decidable (_ < _))

theorem readInt?_eq_ite_legible {n : Int} : Text.readInt? (Text.ofInt n) = if Legible n then some n else none :=
  Text.readInt?_ofInt n

/-- What stands before a command is read as the limits that it spells. -/
theorem ofArgs?_maxDepth (config : Config) (name : CommandName) (h : Legible config.maxDepth) :
    Request.ofArgs? ("--max-depth".toList :: Text.ofInt config.maxDepth :: name.text :: rest) =
      commandRequest? config false name rest := by
  have hdepth : word programGrammar "--max-depth".toList = .awaiting maxDepthOption := by decide
  have hname : word programGrammar name.text = .argument ∧ CommandName.ofText? name.text = some name := by
    cases name <;> decide
  have hread : read? programGrammar ("--max-depth".toList :: Text.ofInt config.maxDepth :: name.text :: rest) =
      some ⟨[⟨maxDepthOption, some (Text.ofInt config.maxDepth)⟩], name.text :: rest⟩ := by
    rw [read?_awaiting hdepth, read?_argument hname.1 rfl]
    rfl
  have hconfig : config? ⟨[⟨maxDepthOption, some (Text.ofInt config.maxDepth)⟩], name.text :: rest⟩ = some config := by
    show (Text.readInt? (Text.ofInt config.maxDepth)).bind Config.ofInt? = _
    rw [readInt?_eq_ite_legible, if_pos h]
    exact Config.ofInt?_maxDepth config
  rw [Request.ofArgs?, hread]
  show ((config? _).bind fun config => _) = _
  simp only [hconfig, Option.bind_some, List.head?_cons, hname.2, Option.bind_eq_bind]
  rfl

/-- The width of indentation is read for the commands that have one. -/
theorem commandRequest?_indent (config : Config) (name : CommandName) (indent : Int) (argument : Text)
    (h : word name.grammar "--indent".toList = .awaiting indentOption) :
    commandRequest? config false name ["--indent".toList, Text.ofInt indent, "--".toList, argument] =
      (name.command? ⟨[⟨indentOption, some (Text.ofInt indent)⟩], [argument]⟩).map (.run config false) := by
  rw [commandRequest?, read?_awaiting h]
  rfl

/-- The command line of a command is read as a request for it, unless its width of indentation cannot be read. -/
theorem ofArgs?_commandLine (config : Config) (command : Command) (h : Legible config.maxDepth) :
    Request.ofArgs? (commandLine config command) =
      if ∀ indent ∈ command.indent?, Legible indent then some (.run config false command) else none := by
  cases command with
  | parse selector indent =>
    rw [commandLine, Command.words, ofArgs?_maxDepth config _ h, commandRequest?_indent _ _ _ _ (by decide)]
    show ((Text.readInt? (Text.ofInt indent)).map _).map _ = _
    rw [readInt?_eq_ite_legible]
    simp [Command.indent?]
  | stylesheet path indent =>
    rw [commandLine, Command.words, ofArgs?_maxDepth config _ h, commandRequest?_indent _ _ _ _ (by decide)]
    show ((Text.readInt? (Text.ofInt indent)).map _).map _ = _
    rw [readInt?_eq_ite_legible]
    simp [Command.indent?]
  | inspect selector =>
    rw [commandLine, Command.words, ofArgs?_maxDepth config _ h, if_pos nofun]
    rfl
  | validate path =>
    rw [commandLine, Command.words, ofArgs?_maxDepth config _ h, if_pos nofun]
    rfl

/-! ### What is printed as JSON -/

theorem legible_of_lt {n : Int} (h : n.natAbs < 10 ^ 20) : Legible n :=
  Nat.lt_of_lt_of_le h (Nat.pow_le_pow_right (by decide) (by decide))

theorem isWidth_iff {indent : Int} : Json.IsWidth indent ↔ -2 ^ 63 ≤ indent ∧ indent < 2 ^ 63 := by
  have hmin : Int64.minValue.toInt = -2 ^ 63 := rfl
  have hmax : Int64.maxValue.toInt = 2 ^ 63 - 1 := rfl
  rw [Json.IsWidth, hmin, hmax]
  omega

theorem printedJson?_eq_none_iff {indent : Int} {j : Json} :
    printedJson? indent j = none ↔ ¬(-2 ^ 63 ≤ indent ∧ indent < 2 ^ 63) := by
  rw [printedJson?, Option.map_eq_none_iff, Json.layout?, ← isWidth_iff]
  simp

/-- What a command prints as JSON: the tree of a selector, or the rules of a stylesheet. -/
inductive Content where
  | tree (list : SelectorList)
  | sheet (rules : List Rule)

def Content.toJson : Content → Json
  | .tree list => list.toNode.toJson
  | .sheet rules => .arr (rules.map Rule.toJson)

/-- The argument of the command is accepted, and compiles to the content. -/
inductive Command.Compiles (config : Config) (look : Text → Source) : Command → Content → Prop
  | parse {selector : Text} {indent : Int} {list : SelectorList}
      (h : SelectorList.parse config selector = .ok list) :
      Compiles config look (.parse selector indent) (.tree list)
  | stylesheet {path text : Text} {indent : Int} {bytes : ByteArray} {rules : List Rule}
      (hfile : look path = .file bytes) (htext : decode? bytes = some text)
      (h : Stylesheet.parse config text = .ok rules) :
      Compiles config look (.stylesheet path indent) (.sheet rules)

theorem Content.toJson_injective : Function.Injective toJson := by
  rintro (list | rules) (list' | rules') h
  · rw [SelectorList.toNode_injective (Node.toJson_injective (h : list.toNode.toJson = list'.toNode.toJson))]
  · exact absurd (h : list.toNode.toJson = .arr _) nofun
  · exact absurd (h : .arr _ = list'.toNode.toJson) nofun
  · rw [List.map_injective_iff.2 Rule.toJson_injective (Json.arr.inj h)]

variable {config : Config} {look : Text → Source} {command : Command} {content : Content}

theorem Command.Compiles.distinct (h : command.Compiles config look content) : Json.Distinct content.toJson := by
  cases h with
  | @parse _ _ list _ => exact list.toNode.distinct_toJson
  | @stylesheet path text indent bytes rules _ _ h =>
    obtain ⟨raws, -, rfl⟩ := map_eq_ok_iff.1 h
    refine .arr ?_
    simp only [List.mem_map]
    rintro _ ⟨_, ⟨raw, -, rfl⟩, rfl⟩
    exact Rule.distinct_toJson fun ds hds => Declaration.nodup_style? hds

/-- A command whose argument compiles prints what it compiles to, if that can be laid out. -/
theorem Command.Compiles.execute_eq (h : command.Compiles config look content) (log : Text) :
    ∃ indent, command.indent? = some indent ∧
      command.execute config log look = .ofOutput log (printedJson? indent content.toJson) := by
  cases h with
  | @parse selector indent list h =>
    refine ⟨indent, rfl, ?_⟩
    rw [Command.execute, runSelector, h]
    rfl
  | @stylesheet path text indent bytes rules hfile htext h =>
    refine ⟨indent, rfl, ?_⟩
    rw [Command.execute, hfile]
    simp only [runSheet, htext, h]
    rfl

theorem Command.Compiles.run_eq (h : command.Compiles config look content) {args : List Text} {verbose : Bool}
    (hargs : Request.ofArgs? args = some (.run config verbose command)) :
    ∃ indent log, command.indent? = some indent ∧
      run look args = .ofOutput log (printedJson? indent content.toJson) := by
  obtain ⟨indent, hindent, hexecute⟩ := h.execute_eq (if verbose then logText (command.events config look) else [])
  rw [run, hargs]
  exact ⟨indent, _, hindent, hexecute⟩

/-- Only what has been laid out is decoded. -/
theorem Command.Compiles.eq_of_decode? (h : command.Compiles config look content) {args : List Text} {verbose : Bool}
    (hargs : Request.ofArgs? args = some (.run config verbose command)) {j : Json}
    (hdecode : Json.decode? (run look args).stdout = some j) : content.toJson = j := by
  obtain ⟨indent, log, -, hrun⟩ := h.run_eq hargs
  rw [hrun] at hdecode
  cases houtput : printedJson? indent content.toJson with
  | none =>
    rw [houtput] at hdecode
    cases hdecode
  | some output =>
    rw [houtput, Outcome.ofOutput, Outcome.stdout, decode?_printedJson h.distinct houtput] at hdecode
    exact Option.some.inj hdecode

/-- What is printed as JSON is lossless. Where the argument of a command compiles and the width of indentation fits into
a machine word, every command line that asks for the command succeeds, and a decoder reads what it prints as the form of
the tree, or as the forms of the rules in order, each with its properties in order. No command line for another tree or
other rules prints the same, whatever its width is. Every such width has a command line, negative ones included. -/
theorem json_lossless (h : command.Compiles config look content)
    (hwidth : ∀ indent ∈ command.indent?, -2 ^ 63 ≤ indent ∧ indent < 2 ^ 63) :
    (Legible config.maxDepth → Request.ofArgs? (commandLine config command) = some (.run config false command)) ∧
    ∀ args verbose, Request.ofArgs? args = some (.run config verbose command) →
      (run look args).exitCode = 0 ∧ Json.decode? (run look args).stdout = some content.toJson ∧
      ∀ config' look' command' content' args' verbose', Command.Compiles config' look' command' content' →
        Request.ofArgs? args' = some (.run config' verbose' command') →
        (run look' args').stdout = (run look args).stdout → content' = content := by
  refine ⟨fun hdepth => ?_, fun args verbose hargs => ?_⟩
  · rw [ofArgs?_commandLine config command hdepth, if_pos]
    intro indent hindent
    have hbounds := hwidth indent hindent
    exact legible_of_lt (by omega)
  obtain ⟨indent, log, hindent, hrun⟩ := h.run_eq hargs
  obtain ⟨output, houtput⟩ : ∃ output, printedJson? indent content.toJson = some output :=
    Option.ne_none_iff_exists'.1 (mt printedJson?_eq_none_iff.1 (not_not.2 (hwidth indent hindent)))
  rw [houtput, Outcome.ofOutput] at hrun
  have hdecode : Json.decode? (run look args).stdout = some content.toJson := by
    rw [hrun, Outcome.stdout, decode?_printedJson h.distinct houtput]
  refine ⟨by rw [hrun, Outcome.exitCode], hdecode, ?_⟩
  intro config' look' command' content' args' verbose' h' hargs' heq
  rw [← heq] at hdecode
  exact Content.toJson_injective (h'.eq_of_decode? hargs' hdecode)

theorem json_lossless_quoted :
    let command := Command.parse "a[b=\"é\"]:contains(\\c)".toList (-2 ^ 63)
    let content := Content.tree [[.regular "a[b=\"é\"]".toList, .absolute "contains".toList "\\c".toList]]
    let args := commandLine Config.standard command
    command.Compiles Config.standard (fun _ => .missing) content ∧
      Request.ofArgs? args = some (.run Config.standard false command) ∧
      (run (fun _ => .missing) args).exitCode = 0 ∧
      Json.decode? (run (fun _ => .missing) args).stdout = some content.toJson := by
  intro command content args
  have h : command.Compiles Config.standard (fun _ => .missing) content :=
    .parse ((SelectorList.parse_eq_compile _ _).trans (eq_ok_of_toOption (by decide +kernel)))
  have hwidth : ∀ indent ∈ command.indent?, -2 ^ 63 ≤ indent ∧ indent < 2 ^ 63 := by
    intro indent hindent
    cases hindent
    decide
  have hargs := (json_lossless h hwidth).1 (legible_of_lt (by decide))
  have hrun := (json_lossless h hwidth).2 args false hargs
  exact ⟨h, hargs, hrun.1, hrun.2.1⟩

/-- A width that fits into no machine word is refused after the argument has compiled. -/
theorem Command.Compiles.run_eq_overflow (h : command.Compiles config look content) {args : List Text}
    {verbose : Bool} (hargs : Request.ofArgs? args = some (.run config verbose command))
    (hwidth : ∀ indent ∈ command.indent?, ¬(-2 ^ 63 ≤ indent ∧ indent < 2 ^ 63)) :
    ∃ log, run look args = .overflow log := by
  obtain ⟨indent, log, hindent, hrun⟩ := h.run_eq hargs
  rw [printedJson?_eq_none_iff.2 (hwidth indent hindent)] at hrun
  exact ⟨log, hrun⟩

/-- The same selector with the least width that is too great, the greatest one that is too small, and one whose numeral
is too long. Nothing is printed. -/
theorem json_refused :
    let result indent := run (fun _ => .missing) (commandLine Config.standard (.parse "a".toList indent))
    SelectorList.parse Config.standard "a".toList = .ok [[.regular "a".toList]] ∧
      ((result (2 ^ 63)).exitCode = 1 ∧ (result (2 ^ 63)).stdout = []) ∧
      ((result (-2 ^ 63 - 1)).exitCode = 1 ∧ (result (-2 ^ 63 - 1)).stdout = []) ∧
      (result (-10 ^ Text.maxDigits)).exitCode = 2 ∧ (result (-10 ^ Text.maxDigits)).stdout = [] := by
  intro result
  have h : SelectorList.parse Config.standard "a".toList = .ok [[.regular "a".toList]] :=
    (SelectorList.parse_eq_compile _ _).trans (eq_ok_of_toOption (by decide +kernel))
  have hread : ∀ indent, Request.ofArgs? (commandLine Config.standard (.parse "a".toList indent)) =
      if Legible indent then some (.run Config.standard false (.parse "a".toList indent)) else none := by
    intro indent
    rw [ofArgs?_commandLine _ _ (legible_of_lt (by decide))]
    simp [Command.indent?]
  have hoverflow : ∀ indent, indent.natAbs < 10 ^ 20 → ¬(-2 ^ 63 ≤ indent ∧ indent < 2 ^ 63) →
      (result indent).exitCode = 1 ∧ (result indent).stdout = [] := by
    intro indent hlegible hwidth
    have hcompiles : (Command.parse "a".toList indent).Compiles Config.standard (fun _ => .missing) _ := .parse h
    obtain ⟨log, hrun⟩ := hcompiles.run_eq_overflow ((hread indent).trans (if_pos (legible_of_lt hlegible))) (by
      intro indent' hindent'
      cases hindent'
      exact hwidth)
    show (run _ _).exitCode = 1 ∧ (run _ _).stdout = []
    rw [hrun]
    exact ⟨rfl, rfl⟩
  have hlong : ¬ Legible (-10 ^ Text.maxDigits) := by
    have hten : (10 : Int).natAbs = 10 := rfl
    rw [Legible, Int.natAbs_neg, Int.natAbs_pow, hten]
    exact Nat.lt_irrefl _
  refine ⟨h, hoverflow _ (by decide) (by decide), hoverflow _ (by decide) (by decide), ?_⟩
  show (run _ _).exitCode = 2 ∧ (run _ _).stdout = []
  rw [run, hread, if_neg hlong]
  exact ⟨rfl, rfl⟩

end CommandLine

end CosmeticFilter
