import CosmeticFilter.Proofs.Canonical
import CosmeticFilter.Proofs.Cuts
import CosmeticFilter.Proofs.Extension

/-!
# What the marker of removal applies to

The marker `:remove()` is read in two ways. In a selector it is a pseudo-class, which applies to the part before
it; in a stylesheet it is taken off the text, and the text before it is compiled on its own.
`SelectorList.parse_before_marker` compares the two: the text before the marker compiles to the same list
without the marker, unless it ends in white space or a combinator. There the pseudo-class applies to any element
after it, which the text on its own does not mention.

The run over the whole text is cut into a run over the text before the marker and one over the marker
(`Reaches.split`). The first is a run of its own, because a step sees two tokens ahead and none of those that
follow can continue it: no word comes next, and no parenthesis. The second is followed token by token
(`Reaches.of_marker`): it ends with the marker as the last part only if it starts in plain text of the outermost
list.
-/

namespace CosmeticFilter

/-! ### White space as tokens -/

namespace Token

theorem scanFrom_eq_nil_iff (position : Nat) {t : Text} : scanFrom position t = [] ↔ t = [] := by
  constructor
  · intro h
    rw [← texts_scanFrom position t, h, texts_nil]
  · rintro rfl
    rfl

theorem scanFrom_spaces {gap : Text} (position : Nat) (hgap : ∀ c ∈ gap, Text.isSpace c = true) :
    ∀ t ∈ scanFrom position gap, t.Proper ∧ t.isOf Text.isSpace = true := by
  intro t ht
  have hproper : t.Proper := (scanned_scanFrom position gap).proper t ht
  obtain ⟨c, more, htext⟩ := List.exists_cons_of_ne_nil hproper.text_ne_nil
  have hmem : c ∈ texts (scanFrom position gap) := List.mem_flatMap.2 ⟨t, ht, by simp [htext]⟩
  have hspace : Text.isSpace c = true := hgap c (texts_scanFrom position gap ▸ hmem)
  exact ⟨hproper, isOf_iff.2 ⟨c, hproper.text_of_mem (by simp [htext]) (isMark_of_isSpace hspace), hspace⟩⟩

end Token

namespace Selector

namespace State

variable {config : Config} {s final : State} {t : Token} {tokens rest more : List Token} {next : Step}

/-! ### The end of a run -/

theorem Reaches.tracked (h : Reaches config s tokens final) (htracked : s.Tracked) (hscanned : Token.Scanned tokens) :
    final.Tracked := by
  induction h with
  | refl s => exact htracked
  | step hmove h ih => exact ih (htracked.move hscanned.head hmove) (hscanned.tail.drop _)

/-- The plain text of a state ends where `read` does, or `read` ends in a mark that ends a list or an argument. -/
def EndsWith (s : State) (read : Text) : Prop :=
  s.frame.buffer.getLast? = read.getLast? ∨
    s.frame.buffer = [] ∧ ∃ c ∈ [Mark.comma, Mark.parenLeft, Mark.parenRight], read.getLast? = some c

/-- At the last move, the text that was read ends in its token. -/
theorem Move.endsWith (h : Move config s t rest next) (htracked : s.Tracked) (ht : t.Proper)
    (hend : rest.drop next.skip = []) (hspace : rest = [] → t.isOf Text.isSpace = false)
    (hmode : next.state.mode = .regular) : next.state.EndsWith (Token.texts (t :: rest)) := by
  have hwrite : ∀ {state : State}, state.frame.buffer = s.frame.buffer ++ t.text →
      state.EndsWith (Token.texts [t]) := by
    intro state hbuffer
    left
    rw [hbuffer, Token.texts_cons, Token.texts_nil, List.append_nil, List.getLast?_append_of_ne_nil _ ht.text_ne_nil]
  have hmark : ∀ {state : State} {c : Char}, state.frame.buffer = [] → t.text = [c] →
      c ∈ [Mark.comma, Mark.parenLeft, Mark.parenRight] → state.EndsWith (Token.texts [t]) := by
    intro state c hbuffer htext hc
    exact .inr ⟨hbuffer, c, hc, by simp [htext]⟩
  have hopened : ∀ {name : Text} {kind : PseudoClass.Kind} {state : State}, s.Opens rest name kind →
      rest.drop 2 = [] → state.frame.buffer = [] → state.EndsWith (Token.texts (t :: rest)) := by
    intro name kind state hopens hdrop hbuffer
    obtain ⟨word, paren, more, rfl, -, -, -, hparen⟩ := hopens.tokens
    obtain rfl : more = [] := hdrop
    exact .inr ⟨hbuffer, Mark.parenLeft, by simp, by simp [hparen]⟩
  cases h with
  | inAttribute mode read =>
    obtain rfl : rest = [] := hend
    rcases readAttribute_cases read with ⟨-, rfl⟩ | ⟨-, -, rfl⟩
    · exact hwrite rfl
    · exact hwrite rfl
  | inArgument mode read =>
    obtain rfl : rest = [] := hend
    rcases readArgument_cases (read ⟨[], config⟩) with ⟨a', -, -, rfl⟩ | ⟨hparen, -, rfl⟩
    · cases hmode
    · exact hmark (htracked.argument _ mode) hparen (by simp)
  | comma mode mark depth regular =>
    obtain rfl : rest = [] := hend
    exact hmark rfl mark (by simp)
  | @close enclosing outer mode mark depth removed stack regular =>
    obtain rfl : rest = [] := hend
    exact hmark (htracked.outer enclosing (by simp [stack])).1 mark (by simp)
  | colon mode mark removed plain =>
    obtain rfl : rest = [] := hend
    left
    rw [frame_copyColon, List.getLast?_append_of_ne_nil _ s.colonText_ne_nil, getLast?_colonText]
    simp [mark]
  | openRelative mode mark removed opens limit => exact hopened opens hend rfl
  | openAbsolute mode mark removed opens remove => exact hopened opens hend (Frame.buffer_anchor _ _)
  | keepSpace mode space kept =>
    rw [hspace hend] at space
    cases space
  | dropSpace mode space depth dropped =>
    rw [hspace hend] at space
    cases space
  | plain mode removed ordinary =>
    obtain rfl : rest = [] := hend
    obtain ⟨depth, mode', -, heq⟩ := readPlain_eq s t
    exact hwrite (by rw [heq]; rfl)

/-- After a run in plain text, the text ends where the text that was read does. -/
theorem Reaches.endsWith (h : Reaches config s tokens final) (htracked : s.Tracked) (hscanned : Token.Scanned tokens)
    (htrimmed : Token.Trimmed tokens) (hne : tokens ≠ []) (hmode : final.mode = .regular) :
    final.EndsWith (Token.texts tokens) := by
  induction h with
  | refl s => exact absurd rfl hne
  | @step s final t rest next hmove h ih =>
    by_cases hend : rest.drop next.skip = []
    · rw [hend] at h
      cases h
      exact hmove.endsWith htracked hscanned.head hend (by rintro rfl; exact htrimmed t rfl) hmode
    · have hrest := hscanned.tail.drop next.skip
      have hnil : Token.texts (rest.drop next.skip) ≠ [] := by
        obtain ⟨u, more, hu⟩ := List.exists_cons_of_ne_nil hend
        rw [hu, Token.texts_cons]
        exact List.append_ne_nil_of_left_ne_nil (hrest.proper u (by simp [hu])).text_ne_nil _
      have hsplit : Token.texts (t :: rest) =
          t.text ++ Token.texts (rest.take next.skip) ++ Token.texts (rest.drop next.skip) := by
        rw [Token.texts_cons, List.append_assoc, ← Token.texts_append, List.take_append_drop]
      unfold EndsWith
      rw [hsplit, List.getLast?_append_of_ne_nil _ hnil]
      exact ih (htracked.move hscanned.head hmove) hrest ((htrimmed.drop 1).drop _) hend hmode

/-! ### Cutting a run -/

def flagged (flag : Bool) (s : State) : State := s.withFrame { s.frame with afterPseudoElement := flag }

/-- The tokens cannot continue a pseudo-class that is named before them. -/
def Detached (tokens : List Token) : Prop :=
  ∀ t, tokens.head? = some t → t.isWord = false ∧ t.text ≠ [Mark.parenLeft]

/-- At the last token before a cut, the tokens after it can only matter for the flag. -/
theorem Move.at_cut (h : Move config s t more next) (hmore : Detached more) (hspace : t.isOf Text.isSpace = false) :
    next.skip = 0 ∧ ∃ flag, Move config s t [] { state := next.state.flagged flag } := by
  have hnamed : extendedName? more = none := by
    cases more with
    | nil => rfl
    | cons u more => simp [extendedName?, (hmore u rfl).1]
  cases h with
  | inAttribute mode read => exact ⟨rfl, _, .inAttribute mode read⟩
  | inArgument mode read => exact ⟨rfl, _, .inArgument mode read⟩
  | comma mode mark depth regular => exact ⟨rfl, _, .comma mode mark depth regular⟩
  | close mode mark depth removed stack regular => exact ⟨rfl, _, .close mode mark depth removed stack regular⟩
  | colon mode mark removed plain =>
    have hcopy : (s.copyColon more).flagged (s.copyColon []).frame.afterPseudoElement = s.copyColon [] := rfl
    refine ⟨rfl, (s.copyColon []).frame.afterPseudoElement, ?_⟩
    rw [hcopy]
    exact .colon mode mark removed fun name kind hnamed => by cases hnamed
  | openRelative mode mark removed opens limit =>
    have := opens.named
    rw [hnamed] at this
    cases this
  | openAbsolute mode mark removed opens remove =>
    have := opens.named
    rw [hnamed] at this
    cases this
  | keepSpace mode space kept =>
    rw [space] at hspace
    cases hspace
  | dropSpace mode space depth dropped =>
    rw [space] at hspace
    cases hspace
  | plain mode removed ordinary => exact ⟨rfl, _, .plain mode removed ordinary⟩

theorem Opens.before_cut {name : Text} {kind : PseudoClass.Kind} (h : s.Opens (rest ++ more) name kind)
    (hmore : Detached more) (hne : rest ≠ []) :
    s.Opens rest name kind ∧ (rest ++ more).drop 2 = rest.drop 2 ++ more := by
  match rest with
  | [] => exact absurd rfl hne
  | [word] =>
    -- the parenthesis would be the first token after the cut
    obtain ⟨word', paren, more', htokens, -, -, -, hparen⟩ := h.tokens
    obtain ⟨rfl, rfl⟩ := List.cons.inj htokens
    exact absurd hparen (hmore paren rfl).2
  | word :: paren :: rest => exact ⟨⟨h.named, h.depth, h.argument, h.allowed, h.placed⟩, rfl⟩

theorem Move.before_cut (h : Move config s t (rest ++ more) next) (hmore : Detached more) (hne : rest ≠ []) :
    Move config s t rest next ∧ (rest ++ more).drop next.skip = rest.drop next.skip ++ more := by
  cases h with
  | inAttribute mode read => exact ⟨.inAttribute mode read, rfl⟩
  | inArgument mode read => exact ⟨.inArgument mode read, rfl⟩
  | comma mode mark depth regular => exact ⟨.comma mode mark depth regular, rfl⟩
  | close mode mark depth removed stack regular => exact ⟨.close mode mark depth removed stack regular, rfl⟩
  | colon mode mark removed plain =>
    obtain ⟨u, rest, rfl⟩ := List.exists_cons_of_ne_nil hne
    exact ⟨.colon mode mark removed plain, rfl⟩
  | openRelative mode mark removed opens limit =>
    obtain ⟨hopens, hdrop⟩ := opens.before_cut hmore hne
    exact ⟨.openRelative mode mark removed hopens limit, hdrop⟩
  | openAbsolute mode mark removed opens remove =>
    obtain ⟨hopens, hdrop⟩ := opens.before_cut hmore hne
    exact ⟨.openAbsolute mode mark removed hopens remove, hdrop⟩
  | keepSpace mode space kept =>
    obtain ⟨u, rest, rfl⟩ := List.exists_cons_of_ne_nil hne
    exact ⟨.keepSpace mode space kept, rfl⟩
  | dropSpace mode space depth dropped =>
    obtain ⟨u, rest, rfl⟩ := List.exists_cons_of_ne_nil hne
    exact ⟨.dropSpace mode space depth dropped, rfl⟩
  | plain mode removed ordinary => exact ⟨.plain mode removed ordinary, rfl⟩

/-- A run can be cut before tokens that do not continue a pseudo-class and after a token that is not white space. -/
theorem Reaches.split (h : Reaches config s (tokens ++ more) final) (hmore : Detached more)
    (htrimmed : Token.Trimmed tokens) :
    ∃ mid flag, Reaches config mid more final ∧ Reaches config s tokens (mid.flagged flag) := by
  generalize hall : tokens ++ more = all at h
  induction h generalizing tokens with
  | refl s =>
    obtain ⟨rfl, rfl⟩ := List.append_eq_nil_iff.1 hall
    exact ⟨s, s.frame.afterPseudoElement, .refl s, .refl s⟩
  | @step s final t rest next hmove h ih =>
    cases tokens with
    | nil =>
      subst hall
      exact ⟨s, s.frame.afterPseudoElement, .step hmove h, .refl s⟩
    | cons u tokens =>
      obtain ⟨rfl, rfl⟩ := List.cons.inj hall
      by_cases hnil : tokens = []
      · subst hnil
        obtain ⟨hskip, flag, hlast⟩ := hmove.at_cut hmore (htrimmed u rfl)
        rw [hskip] at h
        exact ⟨next.state, flag, h, .step hlast (.refl _)⟩
      · obtain ⟨hbefore, hdrop⟩ := hmove.before_cut hmore hnil
        obtain ⟨mid, flag, hmid, hreaches⟩ := ih ((htrimmed.drop 1).drop _) hdrop.symm
        exact ⟨mid, flag, hmid, .step hbefore hreaches⟩

/-! ### Reading on in one mode -/

/-- An attribute stays open without a closing bracket. -/
theorem Reaches.attribute {body : Text} (h : Reaches config s tokens final) (hmode : s.mode = .attribute body)
    (hno : ∀ t ∈ tokens, t.text ≠ [Mark.squareRight]) : final.mode ≠ .regular := by
  induction tokens generalizing s body with
  | nil =>
    cases h
    simp [hmode]
  | cons t rest ih =>
    have hkept : t.text = [Mark.squareRight] → Attribute.closes body = .ok false :=
      fun hmark => absurd hmark (hno t (by simp))
    have hmove : Move config s t rest _ := .inAttribute hmode (readAttribute_eq_ok hkept)
    exact ih (h.of_move hmove) rfl fun u hu => hno u (by simp [hu])

theorem Reaches.of_argument {a : Argument} (h : Reaches config s (t :: rest) final) (hmode : s.mode = .argument a) :
    ∃ next, s.readArgument ⟨[], config⟩ a t = .ok next ∧ Reaches config next rest final := by
  cases h with
  | step hmove h =>
    have hstep : s.step ⟨[], config⟩ t rest = .ok _ := step_eq_ok_iff.2 hmove
    rw [State.step, hmode] at hstep
    obtain ⟨next, hread, rfl⟩ := map_eq_ok_iff.1 hstep
    exact ⟨next, hread, h⟩

/-- An argument ends at a parenthesis, with the text before it. -/
theorem Reaches.argument {a : Argument} (h : Reaches config s (tokens ++ [t]) final) (hmode : s.mode = .argument a)
    (hno : ∀ u ∈ tokens, u.text ≠ [Mark.parenRight]) (hfinal : final.mode = .regular) :
    ∃ b : Argument, b.name = a.name ∧ b.text = a.text ++ Token.texts tokens ∧
      (b.name = PseudoClass.removeName ↔ b.text = []) ∧ final = s.endArgument b := by
  induction tokens generalizing s a with
  | nil =>
    obtain ⟨next, hread, hend⟩ := h.of_argument hmode
    cases hend
    rcases readArgument_cases hread with ⟨a', -, -, rfl⟩ | ⟨-, hremove, heq⟩
    · cases hfinal
    · exact ⟨a, rfl, by simp, hremove, heq⟩
  | cons u tokens ih =>
    obtain ⟨next, hread, hrest⟩ := h.of_argument hmode
    rcases readArgument_cases hread with ⟨a', hname, htext, rfl⟩ | ⟨hparen, -, -⟩
    · obtain ⟨b, hb, hbtext, hremove, heq⟩ := ih hrest rfl fun v hv => hno v (by simp [hv])
      refine ⟨b, hb.trans hname, ?_, hremove, heq⟩
      rw [hbtext, htext, Token.texts_cons, List.append_assoc]
    · exact absurd hparen (hno u (by simp))

theorem buffer_readPlain (s : State) (t : Token) : (s.readPlain t).frame.buffer = s.frame.buffer ++ t.text := by
  obtain ⟨depth, mode, -, heq⟩ := readPlain_eq s t
  rw [heq]
  rfl

theorem removed_readPlain (s : State) (t : Token) : (s.readPlain t).frame.removed = s.frame.removed := by
  obtain ⟨depth, mode, -, heq⟩ := readPlain_eq s t
  rw [heq]
  rfl

/-- Only a bracket opens an attribute, and only a parenthesis closes one. -/
theorem readPlain_stays (hbracket : t.text ≠ [Mark.squareLeft]) (hparen : t.text ≠ [Mark.parenRight]) :
    (s.readPlain t).mode = s.mode ∧ s.frame.parenDepth ≤ (s.readPlain t).frame.parenDepth := by
  rcases readPlain_cases s t with ⟨hmark, -, -⟩ | ⟨-, heq⟩ | ⟨hmark, -⟩ | ⟨-, -, -, heq⟩
  · exact absurd hmark hbracket
  · rw [heq]
    exact ⟨rfl, Nat.le_succ _⟩
  · exact absurd hmark hparen
  · rw [heq]
    exact ⟨rfl, Nat.le_refl _⟩

/-- The token is plain text wherever parentheses are open. -/
def IsPlain (t : Token) : Prop := t.text ≠ [Mark.colon] ∧ t.isOf Text.isSpace = false

theorem Reaches.of_inside (h : Reaches config s (t :: rest) final) (hmode : s.mode = .regular)
    (hdepth : 0 < s.frame.parenDepth) (hremoved : s.frame.removed = false) (ht : IsPlain t) :
    Reaches config (s.readPlain t) rest final :=
  h.of_move (.plain hmode (.inl hremoved) ⟨fun _ => hdepth, fun _ => .inl hdepth, ht.1, ht.2⟩)

/-- Inside parentheses, plain text is added up to the parenthesis that closes them, and with it. -/
theorem Reaches.inside (h : Reaches config s (tokens ++ [t]) final) (hmode : s.mode = .regular)
    (hdepth : 0 < s.frame.parenDepth) (hremoved : s.frame.removed = false)
    (hplain : ∀ u ∈ tokens, IsPlain u ∧ u.text ≠ [Mark.squareLeft] ∧ u.text ≠ [Mark.parenRight]) (ht : IsPlain t) :
    final.frame.buffer = s.frame.buffer ++ Token.texts (tokens ++ [t]) := by
  induction tokens generalizing s with
  | nil =>
    have hend := h.of_inside hmode hdepth hremoved ht
    cases hend
    rw [buffer_readPlain]
    simp
  | cons u tokens ih =>
    obtain ⟨hu, hbracket, hparen⟩ := hplain u (by simp)
    obtain ⟨hmode', hdepth'⟩ := s.readPlain_stays hbracket hparen
    have hrest := h.of_inside hmode hdepth hremoved hu
    rw [ih hrest (hmode'.trans hmode) (by omega) ((removed_readPlain s u).trans hremoved)
      fun v hv => hplain v (by simp [hv]), buffer_readPlain]
    simp

/-! ### White space before the marker -/

theorem write_nil (s : State) : s.write [] = s := by
  rw [write, Frame.write, List.append_nil]
  rfl

theorem write_write (s : State) (v w : Text) : (s.write v).write w = s.write (v ++ w) := by
  simp [write, Frame.write, withFrame, frame]

theorem readSpace_cases (s : State) (t : Token) (rest : List Token) : s.readSpace t rest = s.write t.text ∨
    s.readSpace t rest = s ∧ (s.frame.isEmpty = true ∨ Token.continuesAfterSpace rest.head? = false) := by
  rw [readSpace]
  split
  · exact .inl rfl
  · split
    · next hempty => exact .inr ⟨rfl, .inl hempty⟩
    · split
      · exact .inl rfl
      · next hcontinues => exact .inr ⟨rfl, .inr (by simpa using hcontinues)⟩

/-- White space before a token that continues a part is written, at least a part of it, or there is nothing
before it. -/
theorem Reaches.of_spaces {gap : List Token} (h : Reaches config s (gap ++ more) final) (htracked : s.Tracked)
    (hgap : ∀ t ∈ gap, t.Proper ∧ t.isOf Text.isSpace = true) (hmore : Token.continuesAfterSpace more.head? = true) :
    ∃ mid, Reaches config mid more final ∧ mid.Tracked ∧ (mid.mode = .regular → s.mode = .regular ∧
      ∃ w, mid = s.write w ∧ (∀ c ∈ w, Text.isSpace c = true) ∧ (gap = [] → w = []) ∧
        (gap ≠ [] → w = [] → s.frame.isEmpty = true)) := by
  induction gap generalizing s with
  | nil => exact ⟨s, h, htracked, fun hmode => ⟨hmode, [], (write_nil s).symm, by simp⟩⟩
  | cons t gap ih =>
    obtain ⟨ht, hspace⟩ := hgap t (by simp)
    obtain ⟨c, htext, hc⟩ := Token.isOf_iff.1 hspace
    have hne : ∀ d, Text.isSpace d = false → t.text ≠ [d] := fun _ => Token.text_ne_of_isSpace hspace
    have hgap' : ∀ u ∈ gap, u.Proper ∧ u.isOf Text.isSpace = true := fun u hu => hgap u (by simp [hu])
    rcases hmode : s.mode with _ | body | a
    · have hmove : Move (⟨[], config⟩ : Input).config s t (gap ++ more) { state := s.readSpace t (gap ++ more) } :=
        move_of_readSpace hmode hspace
      obtain ⟨mid, hmid, htracked', hregular⟩ := ih (h.of_move hmove) (htracked.move ht hmove) hgap'
      refine ⟨mid, hmid, htracked', fun hmode' => ⟨rfl, ?_⟩⟩
      obtain ⟨-, w, rfl, hw, hnil, hempty⟩ := hregular hmode'
      rcases readSpace_cases s t (gap ++ more) with hread | ⟨hread, hdropped⟩
      · have hspaces : ∀ d ∈ t.text ++ w, Text.isSpace d = true := by
          intro d hd
          rcases List.mem_append.1 hd with hd | hd
          · rw [htext, List.mem_singleton] at hd
            rw [hd, hc]
          · exact hw d hd
        refine ⟨t.text ++ w, by rw [hread, write_write], hspaces, fun hcons => absurd hcons (List.cons_ne_nil _ _), ?_⟩
        exact fun _ hnil' => absurd hnil' (List.append_ne_nil_of_left_ne_nil ht.text_ne_nil _)
      · rw [hread] at hempty ⊢
        refine ⟨w, rfl, hw, fun hcons => absurd hcons (List.cons_ne_nil _ _), fun _ hnil' => ?_⟩
        by_cases hgapnil : gap = []
        · subst hgapnil
          rw [List.nil_append, hmore] at hdropped
          simpa using hdropped
        · exact hempty hgapnil hnil'
    · have hkept : t.text = [Mark.squareRight] → Attribute.closes body = .ok false :=
        fun hmark => absurd hmark (hne Mark.squareRight (by decide))
      have hmove : Move config s t (gap ++ more) _ := .inAttribute hmode (readAttribute_eq_ok hkept)
      obtain ⟨mid, hmid, htracked', hregular⟩ := ih (h.of_move hmove) (htracked.move ht hmove) hgap'
      refine ⟨mid, hmid, htracked', fun hmode' => ?_⟩
      cases (hregular hmode').1
    · obtain ⟨next, hread, hrest⟩ := h.of_argument hmode
      have hmove : Move config s t (gap ++ more) { state := next } :=
        .inArgument hmode fun _ => readArgument_eq_ok hread
      obtain ⟨mid, hmid, htracked', hregular⟩ := ih hrest (htracked.move ht hmove) hgap'
      refine ⟨mid, hmid, htracked', fun hmode' => ?_⟩
      rcases readArgument_cases hread with ⟨a', -, -, rfl⟩ | ⟨hparen, -, -⟩
      · cases (hregular hmode').1
      · exact absurd hparen (hne _ (by decide))

/-! ### The marker -/

def markerTokens (position : Nat) : List Token :=
  [⟨.mark, [Mark.colon], position⟩, ⟨.word, PseudoClass.removeName, position + 1⟩,
    ⟨.mark, [Mark.parenLeft], position + 7⟩, ⟨.mark, [Mark.parenRight], position + 8⟩]

theorem scanFrom_marker (position : Nat) : Token.scanFrom position Removal.marker = markerTokens position := by
  rfl

theorem text_of_mem_markerTokens {position : Nat} (ht : t ∈ markerTokens position) : t.text = [Mark.colon] ∨
    t.text = PseudoClass.removeName ∨ t.text = [Mark.parenLeft] ∨ t.text = [Mark.parenRight] := by
  rw [markerTokens] at ht
  simp only [List.mem_cons, List.not_mem_nil, or_false] at ht
  rcases ht with rfl | rfl | rfl | rfl <;> simp

/-- Inside parentheses, the marker is plain text. -/
theorem Reaches.marker_in_parens {position : Nat} (h : Reaches config s (markerTokens position).tail final)
    (hmode : s.mode = .regular) (hdepth : 0 < s.frame.parenDepth) (hremoved : s.frame.removed = false) :
    final.frame.buffer ≠ [] := by
  have hread : Reaches config s ((markerTokens position).tail.dropLast ++ [_]) final := h
  have hname : PseudoClass.removeName ≠ [Mark.colon] := by decide
  have hopening : [Mark.parenLeft] ≠ [Mark.colon] := by decide
  have hclosing : [Mark.parenRight] ≠ [Mark.colon] := by decide
  have hplain : ∀ t ∈ (markerTokens position).tail.dropLast,
      IsPlain t ∧ t.text ≠ [Mark.squareLeft] ∧ t.text ≠ [Mark.parenRight] := by
    simp only [markerTokens, List.tail_cons, List.dropLast, List.forall_mem_cons]
    exact ⟨⟨⟨hname, rfl⟩, by decide, by decide⟩, ⟨⟨hopening, rfl⟩, by decide, by decide⟩, List.forall_mem_nil _⟩
  rw [hread.inside hmode hdepth hremoved hplain ⟨hclosing, rfl⟩]
  exact List.append_ne_nil_of_right_ne_nil _ (by simp)

/-- Inside an argument, the marker is text of the argument, and its last parenthesis may end it. -/
theorem Reaches.marker_in_argument {position : Nat} {a : Argument} (h : Reaches config s (markerTokens position) final)
    (htracked : s.Tracked) (hmode : s.mode = .argument a) (hfinal : final.mode = .regular) :
    ∃ b : Argument, b.name ≠ PseudoClass.removeName ∧
      final.frame.allParts = s.frame.parts ++ [.absolute b.name b.text] := by
  have hread : Reaches config s ((markerTokens position).dropLast ++ [_]) final := h
  have hno : ∀ t ∈ (markerTokens position).dropLast, t.text ≠ [Mark.parenRight] := by
    simp only [markerTokens, List.dropLast, List.forall_mem_cons]
    exact ⟨by decide, by decide, by decide, List.forall_mem_nil _⟩
  obtain ⟨b, -, htext, hremove, rfl⟩ := hread.argument hmode hno hfinal
  have hne : b.text ≠ [] := by
    rw [htext]
    exact List.append_ne_nil_of_right_ne_nil _ (by simp [markerTokens])
  refine ⟨b, fun hname => hne (hremove.1 hname), ?_⟩
  simp [Frame.allParts, htracked.argument a hmode]

/-- A run over the marker that makes the marker the last part starts in plain text of the outermost list, after
something that the marker can apply to. -/
theorem Reaches.of_marker {position : Nat} (h : Reaches config s (markerTokens position) final) (htracked : s.Tracked)
    (hfinal : final.mode = .regular) {before : Selector} {argument : Text}
    (hlast : final.frame.allParts = before ++ [.absolute PseudoClass.removeName argument]) :
    s.mode = .regular ∧ s.outer = [] ∧ (Text.trimSpace s.frame.buffer = [] → s.frame.parts ≠ []) ∧
      final.level.selectors =
        s.level.finished ++ [(s.frame.anchor PseudoClass.removeName).parts ++ [.absolute PseudoClass.removeName []]] := by
  rcases hmode : s.mode with _ | body | a
  · cases h with
    | step hmove h =>
      cases hmove with
      | inAttribute mode read => cases hmode.symm.trans mode
      | inArgument mode read => cases hmode.symm.trans mode
      | comma mode mark depth regular => cases mark
      | close mode mark depth removed stack regular => cases mark
      | colon mode mark removed plain =>
        obtain ⟨hdepth, -⟩ := plain PseudoClass.removeName .absolute rfl
        have hbuffer : final.frame.buffer ≠ [] :=
          Reaches.marker_in_parens h mode (by rwa [frame_copyColon]) (by rwa [frame_copyColon])
        rcases final.frame.allParts_cases with ⟨hnil, -⟩ | ⟨-, hparts⟩
        · exact absurd hnil hbuffer
        · rw [hparts] at hlast
          cases (List.append_singleton_inj.1 hlast).2
      | openRelative mode mark removed opens limit => cases opens.named
      | openAbsolute mode mark removed opens remove =>
        cases opens.named
        obtain ⟨houter, hparts⟩ := remove rfl
        have hread : Reaches config (s.openArgument PseudoClass.removeName) ([] ++ [_]) final := h
        obtain ⟨b, hname, -, hremove, rfl⟩ := hread.argument rfl (List.forall_mem_nil _) hfinal
        have hname : b.name = PseudoClass.removeName := hname
        refine ⟨rfl, houter, hparts, ?_⟩
        simp [Level.selectors, Frame.allParts, endArgument, openArgument, withFrame, frame, hname, hremove.1 hname]
      | keepSpace mode space kept => cases space
      | dropSpace mode space depth dropped => cases space
      | plain mode removed ordinary => exact absurd rfl ordinary.notColon
  · -- an attribute stays open
    have hno : ∀ t ∈ markerTokens position, t.text ≠ [Mark.squareRight] := by
      intro t ht
      rcases text_of_mem_markerTokens ht with heq | heq | heq | heq <;> rw [heq] <;> decide
    exact absurd hfinal (h.attribute hmode hno)
  · -- the argument that ends is one of another class
    obtain ⟨b, hname, hparts⟩ := h.marker_in_argument htracked hmode hfinal
    rw [hparts] at hlast
    exact absurd (Part.absolute.inj (List.append_singleton_inj.1 hlast).2).1 hname

end State

/-! ### The selector before the marker -/

/-- The text ends in white space or a combinator, so that an element is missing after it. -/
def EndsOpen (t : Text) : Prop := ∃ c, t.getLast? = some c ∧ (Text.isSpace c = true ∨ Mark.isCombinator c = true)

theorem endsOpen_append {a b : Text} (hne : b ≠ []) : EndsOpen (a ++ b) ↔ EndsOpen b := by
  unfold EndsOpen
  rw [List.getLast?_append_of_ne_nil _ hne]

theorem endsOpen_of_spaces {w : Text} (hw : ∀ c ∈ w, Text.isSpace c = true) (hne : w ≠ []) : EndsOpen w :=
  ⟨w.getLast hne, List.getLast?_eq_some_getLast hne, .inl (hw _ (List.getLast_mem hne))⟩

theorem State.EndsWith.endsOpen_iff {s : State} {read : Text} (h : s.EndsWith read) :
    EndsOpen s.frame.buffer ↔ EndsOpen read := by
  rcases h with hlast | ⟨hbuffer, c, hc, hlast⟩
  · unfold EndsOpen
    rw [hlast]
  · have hclosed : [Mark.comma, Mark.parenLeft, Mark.parenRight].all
        (fun c => !Text.isSpace c && !Mark.isCombinator c) = true := by decide
    have hread := List.all_eq_true.1 hclosed c hc
    simp only [EndsOpen, hbuffer, hlast]
    simpa using hread

/-- The selector `last` is `target` with any element after it, and perhaps white space between them. -/
def AnyAfter (target last : Selector) : Prop :=
  ∃ (parts : Selector) (value gap : Text), (∀ c ∈ gap, Text.isSpace c = true) ∧
    target = (if value.isEmpty then parts else parts ++ [.regular value]) ∧
    last = parts ++ [.regular (value ++ gap ++ PseudoClass.anyElement)]

theorem AnyAfter.ne {target last : Selector} (h : AnyAfter target last) : target ≠ last := by
  obtain ⟨parts, value, gap, -, rfl, rfl⟩ := h
  split
  · simp
  · intro heq
    have hvalue := Part.regular.inj (List.append_singleton_inj.1 heq).2
    simp at hvalue

theorem Shaped.head?_isRegular {selector : Selector} {part : Part} (h : Shaped (selector ++ [part])) :
    ∀ first, selector.head? = some first → first.isRegular = true := by
  intro first hfirst
  obtain ⟨text, more, htext, -⟩ := h.starts
  obtain ⟨parts, rfl⟩ := List.head?_eq_some_iff.1 hfirst
  rw [(List.cons.inj htext).1]
  rfl

namespace Frame

variable {f : Frame} {name : Text}

/-- Except for the classes that could match the root, a pseudo-class applies to all that is collected, or to any
element after it. -/
theorem anchor_cases (hname : name ∉ PseudoClass.rootMatching) (hempty : f.isEmpty = false) :
    ¬ EndsOpen f.buffer ∧ (f.anchor name).parts = f.allParts ∨
      EndsOpen f.buffer ∧ (f.anchor name).parts = f.parts ++ [.regular (f.buffer ++ PseudoClass.anyElement)] := by
  rcases f.allParts_cases with ⟨hbuffer, hparts⟩ | ⟨hbuffer, hparts⟩
  · have hne : f.parts ≠ [] := by
      intro hnil
      rw [isEmpty_iff.2 ⟨hbuffer, hnil⟩] at hempty
      cases hempty
    left
    rw [anchor, if_pos (by simp [hbuffer, hne]), hparts, hbuffer]
    exact ⟨by simp [EndsOpen], rfl⟩
  · have hroot : PseudoClass.rootMatching.contains name = false := by simpa using hname
    have hisEmpty : f.buffer.isEmpty = false := by simpa using hbuffer
    obtain ⟨c, hlast⟩ := Option.ne_none_iff_exists'.1 (mt List.getLast?_eq_none_iff.1 hbuffer)
    have hopen : EndsOpen f.buffer ↔ (Text.isSpace c || Mark.isCombinator c) = true := by
      simp [EndsOpen, hlast]
    rw [hopen, anchor, anchorText, hparts]
    simp only [hroot, hisEmpty, hlast, Bool.and_false, Bool.false_and, Bool.false_eq_true, if_false]
    split
    · next h => exact .inr ⟨h, rfl⟩
    · next h => exact .inl ⟨h, rfl⟩

theorem isEmpty_write (hempty : f.isEmpty = false) (w : Text) : (f.write w).isEmpty = false := by
  rw [← Bool.not_eq_true, isEmpty_iff] at hempty ⊢
  rintro ⟨hbuffer, hparts⟩
  exact hempty ⟨(List.append_eq_nil_iff.1 hbuffer).1, hparts⟩

theorem parts_prefix_anchor (f : Frame) (name : Text) : f.parts <+: (f.anchor name).parts := by
  rcases f.parts_anchor name with ⟨-, -, heq⟩ | ⟨-, heq⟩
  · exact heq ▸ List.prefix_rfl
  · exact ⟨_, heq.symm⟩

theorem any_isRegular_allParts {last : Selector} (hempty : f.isEmpty = false) (hlast : f.parts <+: last)
    (hstart : ∀ part, last.head? = some part → part.isRegular = true) : f.allParts.any Part.isRegular = true := by
  obtain ⟨more, rfl⟩ := hlast
  cases hparts : f.parts with
  | nil =>
    rcases f.allParts_cases with ⟨hbuffer, -⟩ | ⟨-, hall⟩
    · rw [isEmpty_iff.2 ⟨hbuffer, hparts⟩] at hempty
      cases hempty
    · simp [hall, Part.isRegular]
  | cons part parts =>
    have hregular := hstart part (by simp [hparts])
    rcases f.allParts_cases with ⟨-, hall⟩ | ⟨-, hall⟩ <;> simp [hall, hparts, hregular]

end Frame

/-- A pseudo-class that is named before white space does not go on after it. -/
theorem State.Detached.spaces {gap more : List Token} (h : Detached more)
    (hgap : ∀ t ∈ gap, t.Proper ∧ t.isOf Text.isSpace = true) : Detached (gap ++ more) := by
  intro t ht
  cases gap with
  | nil => exact h t ht
  | cons u gap =>
    cases ht
    obtain ⟨hproper, hspace⟩ := hgap t (by simp)
    obtain ⟨c, htext, hc⟩ := Token.isOf_iff.1 hspace
    exact ⟨hproper.isWord_of_text htext (Token.isMark_of_isSpace hc), Token.text_ne_of_isSpace hspace (by decide)⟩

theorem State.detached_marker (position : Nat) : Detached (markerTokens position) := by
  intro t ht
  cases ht
  exact ⟨rfl, by simp; decide⟩

/-- Before a marker that becomes the last part, a run ends in plain text of the outermost list, and the marker
applies to what it has collected and the white space after it. -/
theorem State.Reaches.before_marker {config : Config} {final : State} {tokens : List Token} {gap : Text}
    {p position : Nat} {finished : SelectorList} {last : Selector} {argument : Text}
    (h : Reaches config .start (tokens ++ (Token.scanFrom p gap ++ markerTokens position)) final)
    (hscanned : Token.Scanned tokens) (htrimmed : Token.Trimmed tokens) (hne : tokens ≠ [])
    (hgap : ∀ c ∈ gap, Text.isSpace c = true) (hmode : final.mode = .regular)
    (hlast : final.level.selectors = finished ++ [last ++ [.absolute PseudoClass.removeName argument]]) :
    ∃ (s : State) (flag : Bool), Reaches config .start tokens (s.flagged flag) ∧ s.mode = .regular ∧ s.outer = [] ∧
      s.level.finished = finished ∧ s.frame.isEmpty = false ∧ s.EndsWith (Token.texts tokens) ∧
      ∃ w, (∀ c ∈ w, Text.isSpace c = true) ∧ (gap = [] ↔ w = []) ∧
        last = ((s.frame.write w).anchor PseudoClass.removeName).parts := by
  have hspaces : ∀ t ∈ Token.scanFrom p gap, t.Proper ∧ t.isOf Text.isSpace = true := Token.scanFrom_spaces p hgap
  obtain ⟨s, flag, hmarked, hreaches⟩ := h.split ((detached_marker position).spaces hspaces) htrimmed
  have htracked : s.Tracked := by
    have htracked := hreaches.tracked .start hscanned
    exact ⟨htracked.bracket, htracked.parens, htracked.argument, htracked.outer⟩
  obtain ⟨after, hafter, htracked', hwritten⟩ := hmarked.of_spaces htracked hspaces (by rfl)
  obtain ⟨hmode', houter, hparts, hselectors⟩ :=
    hafter.of_marker htracked' hmode (List.append_singleton_inj.1 hlast).2
  obtain ⟨hregular, w, rfl, hw, hnil, hempty⟩ := hwritten hmode'
  rw [hlast] at hselectors
  obtain ⟨hfinished, hlast⟩ := List.append_singleton_inj.1 hselectors
  -- something stands before the marker, so white space before it is written
  have hisEmpty : s.frame.isEmpty = false := by
    rw [← Bool.not_eq_true, Frame.isEmpty_iff]
    rintro ⟨hbuffer, hnone⟩
    refine hparts (Text.trim_eq_nil_iff.2 ?_) hnone
    simpa [hbuffer] using hw
  have hgapnil : gap = [] ↔ w = [] := by
    rw [← Token.scanFrom_eq_nil_iff p]
    refine ⟨hnil, fun hwnil => ?_⟩
    by_contra hgapne
    rw [hempty hgapne hwnil] at hisEmpty
    cases hisEmpty
  have hends : s.EndsWith (Token.texts tokens) := hreaches.endsWith .start hscanned htrimmed hne hregular
  exact ⟨s, flag, hreaches, hregular, houter, hfinished.symm, hisEmpty, hends, w, hw, hgapnil,
    (List.append_singleton_inj.1 hlast).1⟩

/-- What the marker applies to after the text `read` and white space: all that is collected, or any element after
it. -/
theorem State.EndsWith.target {s : State} {read gap w : Text} (h : s.EndsWith read)
    (hempty : s.frame.isEmpty = false) (hgap : ∀ c ∈ gap, Text.isSpace c = true)
    (hw : ∀ c ∈ w, Text.isSpace c = true) (hnil : gap = [] ↔ w = []) :
    ¬ EndsOpen (read ++ gap) ∧ ((s.frame.write w).anchor PseudoClass.removeName).parts = s.frame.allParts ∨
      EndsOpen (read ++ gap) ∧
        AnyAfter s.frame.allParts ((s.frame.write w).anchor PseudoClass.removeName).parts := by
  have hopen : EndsOpen (s.frame.write w).buffer ↔ EndsOpen (read ++ gap) := by
    by_cases hwnil : w = []
    · simpa [hwnil, hnil.2 hwnil] using h.endsOpen_iff
    · have hgapne : gap ≠ [] := mt hnil.1 hwnil
      rw [Frame.buffer_write, endsOpen_append hwnil, endsOpen_append hgapne]
      exact iff_of_true (endsOpen_of_spaces hw hwnil) (endsOpen_of_spaces hgap hgapne)
  have hroot : PseudoClass.removeName ∉ PseudoClass.rootMatching := by decide
  rw [← hopen]
  rcases Frame.anchor_cases hroot (Frame.isEmpty_write hempty w) with ⟨hclosed, heq⟩ | ⟨hopened, heq⟩
  · have hwnil : w = [] := by
      by_contra hwne
      exact hclosed ((endsOpen_append hwne).2 (endsOpen_of_spaces hw hwne))
    refine .inl ⟨hclosed, heq.trans ?_⟩
    simp [Frame.allParts, hwnil]
  · exact .inr ⟨hopened, s.frame.parts, s.frame.buffer, w, hw, rfl, heq⟩

end Selector

/-! ### Texts with a marker -/

namespace SelectorList

open Selector

variable {config : Config} {text selector : Text} {finished : SelectorList} {last : Selector} {argument : Text}

theorem scan_marked (hne : Text.trimSpace selector ≠ []) : ∃ gap p position, (∀ c ∈ gap, Text.isSpace c = true) ∧
    Token.scan (Text.trimSpace (selector ++ Removal.marker)) =
      Token.scan (Text.trimSpace selector) ++ (Token.scanFrom p gap ++ State.markerTokens position) ∧
    (EndsOpen selector ↔ EndsOpen (Text.trimSpace selector ++ gap)) := by
  obtain ⟨front, gap, hselector, hgap, htrim⟩ := Text.exists_trim_append hne
  have hmarker : Text.trimSpace (selector ++ Removal.marker) = Text.trimSpace selector ++ (gap ++ Removal.marker) :=
    htrim Mark.colon "remove()".toList rfl
  have hmarks : ∀ c, Removal.marker.head? = some c → isMark c = true := by
    intro c hc
    cases hc
    rfl
  refine ⟨gap, 0 + (Text.trimSpace selector).length, 0 + (Text.trimSpace selector).length + gap.length, hgap, ?_, ?_⟩
  · rw [hmarker, Token.scan, Token.scanFrom_append (Token.isMark_head?_append hgap hmarks),
      Token.scanFrom_append hmarks, State.scanFrom_marker]
    rfl
  · have happend : Text.trimSpace selector ++ gap ≠ [] := List.append_ne_nil_of_left_ne_nil hne _
    rw [← endsOpen_append happend, ← List.append_assoc]
    exact iff_of_eq (congrArg EndsOpen hselector)

theorem trimSpace_ne_nil_of_marked
    (h : compile config (selector ++ Removal.marker) =
      .ok (finished ++ [last ++ [.absolute PseudoClass.removeName argument]])) : Text.trimSpace selector ≠ [] := by
  intro hblank
  obtain ⟨-, final, hrun, hmode, -, -, hlist⟩ := compile_eq_ok_iff.1 h
  have hmarker : Text.trimSpace (selector ++ Removal.marker) = Removal.marker :=
    Text.trim_lead (Text.trim_eq_nil_iff.1 hblank)
  rw [hmarker] at hrun
  have hreaches : State.Reaches config .start (State.markerTokens 0) final := State.reaches_of_run hrun
  obtain ⟨-, -, hparts, -⟩ := hreaches.of_marker .start hmode (List.append_singleton_inj.1 hlist.symm).2
  exact hparts rfl rfl

/-- Where the selector compiler makes the marker of removal the last part of a text, the text before the marker
compiles to the list without it, but not if that text ends in white space or a combinator: there the element that
the marker applies to is missing from the last selector. -/
theorem parse_before_marker (hsplit : Removal.split text = .ok (selector, [Declaration.removal]))
    (h : parse config text = .ok (finished ++ [last ++ [.absolute PseudoClass.removeName argument]])) :
    ∃ target, parse config selector = .ok (finished ++ [target]) ∧
      (target = last ↔ ¬ EndsOpen selector) ∧ (EndsOpen selector → AnyAfter target last) := by
  rcases Removal.split_eq_ok_iff.1 hsplit with ⟨-, hstyles, -⟩ | ⟨⟨rfl, -, -⟩, -⟩
  · cases hstyles
  rw [parse_eq_compile] at h ⊢
  have hne := trimSpace_ne_nil_of_marked h
  have hshaped : Selector.Shaped (last ++ [.absolute PseudoClass.removeName argument]) :=
    ((everywhere_iff.1 (shaped_of_compile h).1).2 _ (by simp)).1
  obtain ⟨-, final, hrun, hmode, -, -, hlist⟩ := compile_eq_ok_iff.1 h
  obtain ⟨gap, p, position, hgap, htokens, hends⟩ := scan_marked hne
  rw [htokens] at hrun
  have hreaches : State.Reaches config .start _ final := State.reaches_of_run hrun
  obtain ⟨s, flag, hbefore, hmode', houter, hfinished, hempty, hread, w, hw, hnil, rfl⟩ :=
    hreaches.before_marker (Token.scanned_scan _) (Token.trimmed_scan _)
      (mt (Token.scanFrom_eq_nil_iff 0).1 hne) hgap hmode hlist.symm
  rw [Token.texts_scan] at hread
  have hregular : s.frame.allParts.any Part.isRegular = true :=
    Frame.any_isRegular_allParts hempty ((s.frame.write w).parts_prefix_anchor _) hshaped.head?_isRegular
  refine ⟨s.frame.allParts, ?_, ?_⟩
  · refine compile_eq_ok_iff.2 ⟨hne, s.flagged flag, hbefore.run_eq, hmode', houter, hregular, ?_⟩
    rw [← hfinished]
    rfl
  · rw [hends]
    rcases hread.target hempty hgap hw hnil with ⟨hclosed, heq⟩ | ⟨hopen, hafter⟩
    · exact ⟨iff_of_true heq.symm hclosed, fun hopen => absurd hopen hclosed⟩
    · exact ⟨iff_of_false hafter.ne fun hclosed => hclosed hopen, fun _ => hafter⟩

theorem parse_before_marker_nested :
    Removal.split "p, div > a:has(b):remove()".toList = .ok ("p, div > a:has(b)".toList, [Declaration.removal]) ∧
      parse .standard "p, div > a:has(b):remove()".toList =
        .ok ([[.regular "p".toList]] ++ [[.regular "div > a".toList, .relative "has".toList [[.regular "b".toList]]] ++
          [.absolute PseudoClass.removeName []]]) ∧
      ∃ target, parse .standard "p, div > a:has(b)".toList = .ok ([[.regular "p".toList]] ++ [target]) ∧
        (target = [.regular "div > a".toList, .relative "has".toList [[.regular "b".toList]]] ↔
          ¬ EndsOpen "p, div > a:has(b)".toList) ∧
        (EndsOpen "p, div > a:has(b)".toList →
          AnyAfter target [.regular "div > a".toList, .relative "has".toList [[.regular "b".toList]]]) := by
  have hsplit : Removal.split "p, div > a:has(b):remove()".toList =
      .ok ("p, div > a:has(b)".toList, [Declaration.removal]) := by rfl
  have h : parse .standard "p, div > a:has(b):remove()".toList =
      .ok ([[.regular "p".toList]] ++ [[.regular "div > a".toList, .relative "has".toList [[.regular "b".toList]]] ++
        [.absolute PseudoClass.removeName []]]) :=
    (parse_eq_compile _ _).trans (eq_ok_of_toOption (by decide +kernel))
  exact ⟨hsplit, h, parse_before_marker hsplit h⟩

/-- After a combinator the two readings differ: `div >` is compiled as it is, but in front of the marker it is
`div > *`. -/
theorem parse_before_marker_child :
    ¬ ∀ (text selector : Text) (finished : SelectorList) (last : Selector) (argument : Text),
      Removal.split text = .ok (selector, [Declaration.removal]) →
      parse .standard text = .ok (finished ++ [last ++ [.absolute PseudoClass.removeName argument]]) →
      parse .standard selector = .ok (finished ++ [last]) := by
  intro hsame
  have hmarked : parse .standard "div > :remove()".toList =
      .ok ([] ++ [[.regular "div > *".toList] ++ [.absolute PseudoClass.removeName []]]) :=
    (parse_eq_compile _ _).trans (eq_ok_of_toOption (by decide +kernel))
  have hbefore : parse .standard "div > ".toList = .ok [[.regular "div >".toList]] :=
    (parse_eq_compile _ _).trans (eq_ok_of_toOption (by decide +kernel))
  have h := hsame "div > :remove()".toList "div > ".toList [] [.regular "div > *".toList] [] rfl hmarked
  rw [hbefore] at h
  cases h

end SelectorList

end CosmeticFilter
