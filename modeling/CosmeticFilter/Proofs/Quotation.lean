import CosmeticFilter.Proofs.Canonical

/-!
# Quoted attribute values

A quoted value may hold any text without its quotation mark: brackets, commas, pseudo-classes. Whether a
bracket closes the attribute is decided from the text before it, without its spaces, so the brackets of the
value have to be told from the one that closes. `Attribute.Holds` is the condition on the text between the
quotation mark and a bracket under which the bracket is taken for a part of the value: it is not empty, it
does not end in an equal sign, and it is not the letter `i`, which would be the flag after a closing mark.

Where all brackets of a value are held, the whole attribute is kept as it is (`SelectorList.parse_quoted`).
The first bracket that is not held either closes the attribute inside its value, or the text is refused;
both happen for values that are complete.
-/

namespace CosmeticFilter

/-! ### The last token -/

theorem Token.getLast?_texts {tokens : List Token} {last : Token} (h : tokens.getLast? = some last)
    (hne : last.text ≠ []) : (texts tokens).getLast? = last.text.getLast? := by
  obtain ⟨before, rfl⟩ := List.getLast?_eq_some_iff.1 h
  rw [texts_append, texts_cons, texts_nil, List.append_nil, List.getLast?_append_of_ne_nil _ hne]

namespace Attribute

def operators : List Text := ["=".toList, "^=".toList, "$=".toList, "*=".toList, "~=".toList, "|=".toList]

def unspaced (t : Text) : Text := t.filter (· ≠ Mark.space)

/-- The text between the quotation mark and a bracket makes the bracket a part of the value. -/
structure Holds (front : Text) : Prop where
  started : unspaced front ≠ []
  notEqual : (unspaced front).getLast? ≠ some Mark.equalSign
  notFlag : Text.lower (unspaced front) ≠ ['i']

instance (front : Text) : Decidable (Holds front) :=
  decidable_of_iff (unspaced front ≠ [] ∧ (unspaced front).getLast? ≠ some Mark.equalSign ∧
    Text.lower (unspaced front) ≠ ['i']) ⟨fun ⟨a, b, c⟩ => ⟨a, b, c⟩, fun ⟨a, b, c⟩ => ⟨a, b, c⟩⟩

/-- Every bracket of a quoted value is held. -/
def HoldsAll (value : Text) : Prop := ∀ front back, value = front ++ Mark.squareRight :: back → Holds front

theorem holdsAll_iff {value : Text} :
    HoldsAll value ↔ ∀ n < value.length, value[n]? = some Mark.squareRight → Holds (value.take n) := by
  constructor
  · intro h n hn hmark
    obtain ⟨hn, hmark⟩ := List.getElem?_eq_some_iff.1 hmark
    refine h _ (value.drop (n + 1)) ?_
    rw [← hmark, List.getElem_cons_drop, List.take_append_drop]
  · rintro h front back rfl
    simpa using h front.length (by simp) (by simp)

instance (value : Text) : Decidable (HoldsAll value) := decidable_of_iff _ holdsAll_iff.symm

/-! ### The tokens of a quoted attribute -/

/-- Tokens of an attribute whose value starts with a quotation mark; `ahead` are those after the mark. -/
structure Quoting (tokens : List Token) (quote : Token) (ahead : List Token) : Prop where
  split : ∃ first more equal, tokens = first :: more ++ equal :: quote :: ahead ∧ first.isWord = true ∧
    isEqualSign equal = true ∧ ∀ t ∈ first :: more, isEqualSign t = false
  isQuote : quote.isOf Mark.isQuote = true
  isMark : quote.isWord = false

/-- The last token decides, and the one before it if the last one may be the flag. -/
theorem Quoting.closes_eq {body : Text} {quote last : Token} {before ahead : List Token}
    (h : Quoting (Token.scanAttribute body) quote ahead) (hlast : quote :: ahead = before ++ [last]) : closes body =
      if last.text = [Mark.equalSign] then .error (.malformed (.attributeEnd body))
      else if last.isWord && Text.lower last.text = ['i'] then .ok (before.getLast?.any fun t => t.text = quote.text)
      else .ok (last.text = quote.text) := by
  obtain ⟨first, more, equal, htokens, hfirst, hequal, hno⟩ := h.split
  have hmark : first.isMark = false := by
    rw [Token.isMark, decide_eq_false_iff_not]
    intro hmark
    rw [Token.isWord_eq_false_iff.2 hmark] at hfirst
    cases hfirst
  have hdrop : (Token.scanAttribute body).dropWhile (fun t => !isEqualSign t) = equal :: quote :: ahead := by
    rw [htokens, List.dropWhile_append_of_pos (by simpa using hno), List.dropWhile_cons_of_neg (by simp [hequal])]
  have htokens' : Token.scanAttribute body = (first :: more ++ equal :: before) ++ [last] := by
    rw [htokens, hlast, List.append_assoc]
    rfl
  have hhead : (Token.scanAttribute body).head? = some first := by rw [htokens]; rfl
  have hlast' : (Token.scanAttribute body).getLast? = some last := by rw [htokens', List.getLast?_concat]
  have hbefore : (Token.scanAttribute body).dropLast.getLast? = some (before.getLast?.getD equal) := by
    rw [htokens', List.dropLast_concat, List.getLast?_append, List.getLast?_cons]
    rfl
  rw [closes]
  simp only [hhead, hlast', hbefore, hmark, hdrop, endsValue, h.isQuote, Token.spells, Bool.false_and,
    Bool.false_eq_true, if_false, if_true, Option.any_some, decide_eq_true_eq]
  cases before with
  | nil =>
    -- the quotation mark itself is last, and it is not the flag
    cases hlast
    simp [h.isMark]
  | cons t before => simp [List.getLast?_cons]

/-- The first token of a text that starts with a character of a word is a word. -/
theorem scanFrom_cons_word {c : Char} (hc : isMark c = false) (position : Nat) (t : Text) :
    ∃ first more, Token.scanFrom position (c :: t) = first :: more ∧ first.isWord = true := by
  rw [Token.scanFrom, if_neg (by simp [hc])]
  rcases Token.scanFrom (position + 1) t with _ | ⟨⟨_ | _, text, p⟩, rest⟩ <;> exact ⟨_, _, rfl, rfl⟩

theorem not_mark_of_scan {name : Text} (h : Token.scan name = [⟨.word, name, 0⟩]) :
    name ≠ [] ∧ ∀ c ∈ name, isMark c = false := by
  have hscanned := Token.scanned_scan name
  rw [h] at hscanned
  exact hscanned.head

theorem isQuote_iff {q : Char} : Mark.isQuote q = true ↔ q = Mark.singleQuote ∨ q = Mark.doubleQuote := by
  simp [Mark.isQuote, Mark.quotes]

theorem isMark_eq_false_of_toLower {c : Char} (h : c.toLower = 'i') : isMark c = false := by
  rw [← Bool.not_eq_true, isMark, List.contains_iff_mem]
  intro hmem
  have hmarks : Mark.all.all (fun d => d.toLower ≠ 'i') = true := by decide
  exact absurd h (of_decide_eq_true (List.all_eq_true.1 hmarks c hmem))

/-- Tokens spell the flag if they are one word that does. -/
theorem texts_eq_flag_iff {before : List Token} {last : Token} (h : Token.Scanned (before ++ [last])) :
    (last.isWord = true ∧ Text.lower last.text = ['i']) ∧ before = [] ↔
      Text.lower (Token.texts (before ++ [last])) = ['i'] := by
  have hproper := h.proper last (by simp)
  constructor
  · rintro ⟨⟨-, hlower⟩, rfl⟩
    simpa using hlower
  · intro hlower
    cases before with
    | nil =>
      have hlower : Text.lower last.text = ['i'] := by simpa using hlower
      refine ⟨⟨?_, hlower⟩, rfl⟩
      by_contra hword
      obtain ⟨c, hc, htext⟩ := hproper.mark (by simpa using hword)
      rw [htext, Text.lower, List.map_singleton, List.singleton_inj] at hlower
      rw [isMark_eq_false_of_toLower hlower] at hc
      cases hc
    | cons t before =>
      -- two tokens spell two characters
      have hlength := congrArg List.length hlower
      have ht := List.length_pos_iff.2 (h.proper t (by simp)).text_ne_nil
      have hlast := List.length_pos_iff.2 hproper.text_ne_nil
      simp [Text.lower] at hlength
      omega

theorem exists_sign {op : Text} (hop : op ∈ operators) : ∃ sign, op = sign ++ [Mark.equalSign] ∧
    Mark.equalSign ∉ sign ∧ Mark.space ∉ sign ∧ Mark.squareRight ∉ sign := by
  simp only [operators, List.mem_cons, List.not_mem_nil, or_false] at hop
  rcases hop with rfl | rfl | rfl | rfl | rfl | rfl
  · exact ⟨[], rfl, by decide⟩
  all_goals exact ⟨[_], rfl, by decide⟩

section

variable {name op : Text} {q : Char} (hname : Token.scan name = [⟨.word, name, 0⟩]) (hop : op ∈ operators)
  (hq : Mark.isQuote q = true)

include hname hop hq

theorem scanAttribute_quoted (front : Text) : ∃ lead position,
    Token.scanAttribute (name ++ op ++ q :: front) =
      Token.scanFrom 0 lead ++ ⟨.mark, [Mark.equalSign], position⟩ :: ⟨.mark, [q], position + 1⟩ ::
        Token.scanFrom (position + 1 + 1) (unspaced front) ∧
    Mark.equalSign ∉ lead ∧ ∃ c more, lead = c :: more ∧ isMark c = false := by
  obtain ⟨sign, rfl, hequal, hspace, -⟩ := exists_sign hop
  obtain ⟨hne, hmarks⟩ := not_mark_of_scan hname
  have hquote : isMark q = true ∧ q ≠ Mark.space := by
    rcases isQuote_iff.1 hq with rfl | rfl <;> decide
  have hlead : ∀ c, isMark c = true → c ∉ sign → c ∉ name ++ sign := by
    intro c hc hsign hmem
    rcases List.mem_append.1 hmem with hmem | hmem
    · rw [hmarks c hmem] at hc
      cases hc
    · exact hsign hmem
  have hbody : (name ++ (sign ++ [Mark.equalSign]) ++ q :: front).filter (· ≠ Mark.space) =
      (name ++ sign) ++ Mark.equalSign :: q :: unspaced front := by
    have hsplit : name ++ (sign ++ [Mark.equalSign]) ++ q :: front =
        (name ++ sign) ++ Mark.equalSign :: q :: front := by simp
    have hkept : (name ++ sign).filter (· ≠ Mark.space) = name ++ sign := by
      refine List.filter_eq_self.2 fun c hc => ?_
      rw [decide_eq_true_eq]
      rintro rfl
      exact hlead _ (by decide) hspace hc
    rw [hsplit, List.filter_append, hkept, List.filter_cons_of_pos (by decide),
      List.filter_cons_of_pos (by simpa using hquote.2)]
    rfl
  refine ⟨name ++ sign, 0 + (name ++ sign).length, ?_, hlead _ (by decide) hequal, ?_⟩
  · rw [Token.scanAttribute, hbody, Token.scan, Token.scanFrom_append (by simp; decide), Token.scanFrom,
      if_pos (by decide), Token.scanFrom, if_pos hquote.1]
  · obtain ⟨c, rest, rfl⟩ := List.exists_cons_of_ne_nil hne
    exact ⟨c, _, rfl, hmarks c (by simp)⟩

theorem exists_quoting (front : Text) : ∃ quote position, quote.text = [q] ∧
    Quoting (Token.scanAttribute (name ++ op ++ q :: front)) quote (Token.scanFrom position (unspaced front)) := by
  obtain ⟨lead, position, hscan, hequal, c, rest, rfl, hc⟩ := scanAttribute_quoted hname hop hq front
  obtain ⟨first, more, hfirst, hword⟩ := scanFrom_cons_word hc 0 rest
  refine ⟨⟨.mark, [q], position + 1⟩, position + 1 + 1, rfl, ⟨⟨first, more, ⟨.mark, [Mark.equalSign], position⟩, ?_, hword, rfl, ?_⟩, ?_, rfl⟩⟩
  · rw [hscan, hfirst]
  · intro t ht
    have hmem : ∀ d ∈ t.text, d ∈ c :: rest := by
      intro d hd
      rw [← Token.texts_scanFrom 0 (c :: rest), hfirst]
      exact List.mem_flatMap.2 ⟨t, ht, hd⟩
    have hne : t.spells Mark.equalSign = false := by
      rw [← Bool.not_eq_true, Token.spells_iff]
      intro htext
      exact hequal (hmem _ (by simp [htext]))
    simp [isEqualSign, hne]
  · exact Token.isOf_iff.2 ⟨q, rfl, hq⟩

/-- A bracket after the text `front` of a value: where its text ends in an equal sign, the attribute is refused,
and where it is not held else, it is taken for the closing one. -/
theorem closes_quoted {front : Text} (hfront : q ∉ front) : closes (name ++ op ++ q :: front) =
    if (unspaced front).getLast? = some Mark.equalSign then
      .error (.malformed (.attributeEnd (name ++ op ++ q :: front)))
    else .ok (decide (unspaced front = [] ∨ Text.lower (unspaced front) = ['i'])) := by
  obtain ⟨quote, position, hquote, hquoting⟩ := exists_quoting hname hop hq front
  have hequal : q ≠ Mark.equalSign := by rcases isQuote_iff.1 hq with rfl | rfl <;> decide
  have hscanned := Token.scanned_scanFrom position (unspaced front)
  have htexts := Token.texts_scanFrom position (unspaced front)
  rcases List.eq_nil_or_concat (Token.scanFrom position (unspaced front)) with hnil | ⟨before, last, hsplit⟩
  · rw [hnil] at htexts hquoting
    have hcloses := hquoting.closes_eq (List.nil_append [quote]).symm
    rw [hcloses, ← htexts]
    simp [hquote, hequal, hquoting.isMark]
  · rw [hsplit, List.concat_eq_append] at htexts hscanned hquoting
    have hproper := hscanned.proper last (by simp)
    have hne := hproper.text_ne_nil
    have hquotes : ∀ t ∈ before ++ [last], t.text ≠ [q] := by
      intro t ht htext
      refine hfront (List.mem_of_mem_filter (p := (· ≠ Mark.space)) ?_)
      show q ∈ unspaced front
      rw [← htexts]
      exact List.mem_flatMap.2 ⟨t, ht, by simp [htext]⟩
    have hend : (unspaced front).getLast? = last.text.getLast? := by
      rw [← htexts]
      exact Token.getLast?_texts List.getLast?_concat hne
    have hstarted : unspaced front ≠ [] := by
      intro hnil
      rw [hnil, List.getLast?_nil] at hend
      exact hne (List.getLast?_eq_none_iff.1 hend.symm)
    have hequalSign : last.text = [Mark.equalSign] ↔ (unspaced front).getLast? = some Mark.equalSign := by
      rw [hend]
      exact ⟨fun htext => by rw [htext]; rfl, fun hlast => hproper.text_of_mem (List.mem_of_getLast? hlast) (by decide)⟩
    have hflag : (last.isWord = true ∧ Text.lower last.text = ['i']) ∧ before = [] ↔
        Text.lower (unspaced front) = ['i'] := by
      rw [← htexts]
      exact texts_eq_flag_iff hscanned
    rw [hquoting.closes_eq List.cons_append.symm]
    by_cases hlast : (unspaced front).getLast? = some Mark.equalSign
    · rw [if_pos (hequalSign.2 hlast), if_pos hlast]
    · rw [if_neg (mt hequalSign.1 hlast), if_neg hlast, hquote]
      simp only [hstarted, false_or, ← hflag, Bool.and_eq_true, decide_eq_true_eq]
      by_cases hword : last.isWord = true ∧ Text.lower last.text = ['i']
      · simp only [hword, and_self, if_true, true_and]
        rcases List.eq_nil_or_concat before with rfl | ⟨before', t, rfl⟩
        · simp [hquote]
        · -- a quotation mark before the flag would be one in the value
          have ht := hquotes t (by simp)
          simp [ht, List.getLast?_cons]
      · simp [hword, hquotes last (by simp)]

theorem closes_quoted_end (value : Text) : closes (name ++ op ++ q :: (value ++ [q])) = .ok true := by
  obtain ⟨quote, position, hquote, hquoting⟩ := exists_quoting hname hop hq (value ++ [q])
  have hquotes : q ≠ Mark.equalSign ∧ q ≠ Mark.space ∧ isMark q = true := by
    rcases isQuote_iff.1 hq with rfl | rfl <;> decide
  obtain ⟨hequal, hspace, hmark⟩ := hquotes
  have hunspaced : unspaced (value ++ [q]) = unspaced value ++ [q] := by simp [unspaced, hspace]
  have hscan : Token.scanFrom position (unspaced (value ++ [q])) = Token.scanFrom position (unspaced value) ++
      [⟨.mark, [q], position + (unspaced value).length⟩] := by
    rw [hunspaced, Token.scanFrom_append (by simpa using hmark)]
    simp [Token.scanFrom, hmark]
  rw [hscan] at hquoting
  rw [hquoting.closes_eq List.cons_append.symm]
  simp [hquote, hequal, Token.isWord]

/-- No bracket of a value closes the attribute if all of them are held. -/
theorem closes_of_holds {v before after : Text}
    (hv : ∀ front back, v = front ++ Mark.squareRight :: back → q ∉ front ∧ Holds front)
    (hsplit : name ++ op ++ q :: v = before ++ Mark.squareRight :: after) : closes before = .ok false := by
  obtain ⟨sign, rfl, -, -, hsign⟩ := exists_sign hop
  have hnot : Mark.squareRight ∉ name ++ (sign ++ [Mark.equalSign]) ++ [q] := by
    have hname' : Mark.squareRight ∉ name := fun hmem => absurd ((not_mark_of_scan hname).2 _ hmem) (by decide)
    have hq' : Mark.squareRight ≠ q := by rcases isQuote_iff.1 hq with rfl | rfl <;> decide
    have hequal : Mark.squareRight ≠ Mark.equalSign := by decide
    simp [hname', hsign, hq', hequal]
  have hlead : ∀ t, name ++ (sign ++ [Mark.equalSign]) ++ q :: t = name ++ (sign ++ [Mark.equalSign]) ++ [q] ++ t := by
    simp
  rw [hlead] at hsplit
  rcases append_eq_split hsplit with ⟨more, hmore, -⟩ | ⟨front, hfront, rfl⟩
  · exact absurd (by simp [hmore]) hnot
  · obtain ⟨hquote, hholds⟩ := hv front after hfront
    rw [← hlead, closes_quoted hname hop hq hquote]
    simp [hholds.started, hholds.notEqual, hholds.notFlag]

end

def selector (body : Text) : Text := 'x' :: Mark.squareLeft :: (body ++ [Mark.squareRight])

end Attribute

/-! ### Reading an attribute -/

namespace Selector.State

variable {input : Input} {s : State} {body : Text}

theorem run_attribute {tokens : List Token} (more : List Token) (hmode : s.mode = .attribute body)
    (hopen : ∀ before after, Token.texts tokens = before ++ Mark.squareRight :: after →
      Attribute.closes (body ++ before) = .ok false) :
    s.run input 0 (tokens ++ more) =
      State.run input 0 { s.write (Token.texts tokens) with mode := .attribute (body ++ Token.texts tokens) } more := by
  induction tokens generalizing s body with
  | nil =>
    have hs : { s.write [] with mode := Mode.attribute (body ++ []) } = s := by
      rw [List.append_nil, ← hmode, State.write, Frame.write, List.append_nil]
      rfl
    rw [Token.texts_nil, hs, List.nil_append]
  | cons t rest ih =>
    have hkept : t.text = [Mark.squareRight] → Attribute.closes body = .ok false := by
      intro hmark
      have hclosed := hopen [] (Token.texts rest) (by simp [hmark])
      rwa [List.append_nil] at hclosed
    have hmove : Move input.config s t (rest ++ more) _ := .inAttribute hmode (readAttribute_eq_ok hkept)
    rw [List.cons_append, run_cons_of_step (step_eq_ok_iff.2 hmove), ih rfl]
    · simp [State.write, Frame.write, State.withFrame, State.frame]
    · intro before after hsplit
      rw [List.append_assoc]
      exact hopen (t.text ++ before) after (by rw [Token.texts_cons, hsplit, List.append_assoc])

theorem run_attribute_cons {t : Token} (rest : List Token) (hmode : s.mode = .attribute body) :
    s.run input 0 (t :: rest) = (s.readAttribute body t).bind fun next => next.run input 0 rest := by
  rw [run_cons, step, hmode]
  exact map_bind _ _ _

/-- After an element name, an opening bracket and `body`. -/
def afterBracket (body : Text) (mode : Mode) : State :=
  { State.start.write ('x' :: Mark.squareLeft :: body) with mode }

/-- The first bracket that is not taken for text of the attribute decides how the run goes on. -/
theorem run_scan_attribute (after : Text) (hopen : ∀ before more, body = before ++ Mark.squareRight :: more →
      Attribute.closes before = .ok false) :
    ∃ position, State.start.run input 0 (Token.scan ('x' :: Mark.squareLeft :: (body ++ Mark.squareRight :: after))) =
      (Attribute.closes body).bind fun closed =>
        (afterBracket (body ++ [Mark.squareRight])
          (if closed then .regular else .attribute (body ++ [Mark.squareRight]))).run input 0
          (Token.scanFrom position after) := by
  have hscan : Token.scan ('x' :: Mark.squareLeft :: (body ++ Mark.squareRight :: after)) =
      ⟨.word, ['x'], 0⟩ :: ⟨.mark, [Mark.squareLeft], 1⟩ :: (Token.scanFrom 2 body ++
        ⟨.mark, [Mark.squareRight], 2 + body.length⟩ :: Token.scanFrom (2 + body.length + 1) after) := by
    rw [Token.scan, Token.scanFrom, if_neg (by decide), Token.scanFrom, if_pos (by decide),
      Token.scanFrom_append (by simp; decide), Token.scanFrom, if_pos (by decide)]
    rfl
  have hname : ∀ rest, Move input.config State.start ⟨.word, ['x'], 0⟩ rest { state := State.start.write ['x'] } :=
    fun rest => move_write rfl rfl fun c hc => by cases hc; decide
  have hbracket : ∀ rest, Move input.config (State.start.write ['x']) ⟨.mark, [Mark.squareLeft], 1⟩ rest
      { state := afterBracket [] (.attribute []) } := by
    intro rest
    refine .plain rfl (.inl rfl) ⟨fun hcomma => ?_, fun hclosing => ?_, by decide, by decide⟩
    · cases hcomma
    · cases hclosing
  refine ⟨2 + body.length + 1, ?_⟩
  rw [hscan, run_cons_of_step (step_eq_ok_iff.2 (hname _)), run_cons_of_step (step_eq_ok_iff.2 (hbracket _)),
    run_attribute _ rfl]
  · rw [Token.texts_scanFrom, run_attribute_cons _ rfl, readAttribute, if_pos (by rfl), List.nil_append]
    cases Attribute.closes body with
    | error fault => rfl
    | ok closed => cases closed <;> rfl
  · intro before more hsplit
    rw [Token.texts_scanFrom] at hsplit
    exact hopen before more hsplit

end Selector.State

namespace SelectorList

open Selector Attribute

variable {config : Config} {body : Text}

theorem trimSpace_selector (body : Text) : Text.trimSpace (selector body) = selector body := by
  refine Text.trim_eq_self ?_ ?_
  · intro c hc
    cases hc
    decide
  · intro c hc
    have hlast : (selector body).getLast? = some Mark.squareRight :=
      List.getLast?_concat (l := 'x' :: Mark.squareLeft :: body)
    rw [hlast, Option.some.injEq] at hc
    rw [← hc]
    decide

/-- An attribute whose last bracket, and no other, closes it is kept as it is. -/
theorem parse_selector_of_closes (hopen : ∀ before more, body = before ++ Mark.squareRight :: more →
    closes before = .ok false) (hclosed : closes body = .ok true) :
    parse config (selector body) = .ok [[.regular (selector body)]] := by
  obtain ⟨position, hrun⟩ := State.run_scan_attribute [] hopen
  rw [hclosed] at hrun
  rw [parse_eq_compile, compile_eq_ok_iff, trimSpace_selector]
  exact ⟨by simp [selector], State.afterBracket (body ++ [Mark.squareRight]) .regular, hrun, rfl, rfl, rfl, rfl⟩

/-- A bracket at which the attribute can never be completed is fatal. -/
theorem parse_error_of_closes {fault : Fault} (after : Text)
    (hopen : ∀ before more, body = before ++ Mark.squareRight :: more → closes before = .ok false)
    (hclosed : closes body = .error fault) :
    parse config (selector (body ++ Mark.squareRight :: after)) = .error fault := by
  have htext : selector (body ++ Mark.squareRight :: after) =
      'x' :: Mark.squareLeft :: (body ++ Mark.squareRight :: (after ++ [Mark.squareRight])) := by simp [selector]
  obtain ⟨position, hrun⟩ := State.run_scan_attribute (after ++ [Mark.squareRight]) hopen
  rw [hclosed, ← htext] at hrun
  rw [parse_eq_compile, compile, trimSpace_selector]
  dsimp only
  rw [if_neg (by simp [selector]), hrun]
  rfl

/-- Where every bracket of a quoted value is held, the attribute is kept as it is. Otherwise the first bracket
that is not held ends the attribute: the text is refused if an equal sign stands before the bracket, and else the
attribute is taken to be complete there. -/
theorem parse_quoted {name op value : Text} {q : Char} (hname : Token.scan name = [⟨.word, name, 0⟩])
    (hop : op ∈ operators) (hq : Mark.isQuote q = true) (hvalue : q ∉ value) :
    (HoldsAll value → parse config (selector (name ++ op ++ q :: (value ++ [q]))) =
      .ok [[.regular (selector (name ++ op ++ q :: (value ++ [q])))]]) ∧
    ∀ front back, value = front ++ Mark.squareRight :: back → HoldsAll front → ¬Holds front →
      if (unspaced front).getLast? = some Mark.equalSign then
        parse config (selector (name ++ op ++ q :: (value ++ [q]))) =
          .error (.malformed (.attributeEnd (name ++ op ++ q :: front)))
      else parse config (selector (name ++ op ++ q :: front)) =
        .ok [[.regular (selector (name ++ op ++ q :: front))]] := by
  have hq' : q ≠ Mark.squareRight := by rcases isQuote_iff.1 hq with rfl | rfl <;> decide
  constructor
  · intro hholds
    refine parse_selector_of_closes (fun before more => closes_of_holds hname hop hq ?_)
      (closes_quoted_end hname hop hq value)
    intro front back hsplit
    rcases append_eq_split hsplit with ⟨more, rfl, -⟩ | ⟨more, hmore, rfl⟩
    · exact ⟨fun hmem => hvalue (by simp [hmem]), hholds front more rfl⟩
    · exact absurd (singleton_eq_split hmore).2.1.symm hq'
  · rintro front back rfl hholds hnot
    have hfront : q ∉ front := fun hmem => hvalue (by simp [hmem])
    have hcloses := closes_quoted hname hop hq hfront
    have hopen : ∀ before more, name ++ op ++ q :: front = before ++ Mark.squareRight :: more →
        closes before = .ok false := by
      refine fun before more => closes_of_holds hname hop hq ?_
      rintro front' back' rfl
      exact ⟨fun hmem => hfront (by simp [hmem]), hholds front' back' rfl⟩
    split
    · next hequal =>
      rw [if_pos hequal] at hcloses
      have htext : name ++ op ++ q :: (front ++ Mark.squareRight :: back ++ [q]) =
          name ++ op ++ q :: front ++ Mark.squareRight :: (back ++ [q]) := by simp
      rw [htext]
      exact parse_error_of_closes _ hopen hcloses
    · next hequal =>
      have hended : unspaced front = [] ∨ Text.lower (unspaced front) = ['i'] := by
        by_contra hneither
        rw [not_or] at hneither
        exact hnot ⟨hneither.1, hequal, hneither.2⟩
      rw [if_neg hequal, decide_eq_true hended] at hcloses
      exact parse_selector_of_closes hopen hcloses

theorem parse_quoted_brackets :
    parse .standard (selector "title~='a] , :has([b:is(c)) ]'".toList) =
      .ok [[.regular "x[title~='a] , :has([b:is(c)) ]']".toList]] :=
  (@parse_quoted .standard "title".toList "~=".toList "a] , :has([b:is(c)) ]".toList Mark.singleQuote
    (by decide) (by decide) (by decide) (by decide)).1 (by decide)

/-- A complete value with a bracket after an equal sign is refused. -/
theorem parse_quoted_refused : ¬∀ (name op value : Text) (q : Char), Token.scan name = [⟨.word, name, 0⟩] →
    op ∈ operators → Mark.isQuote q = true → q ∉ value → Mark.backslash ∉ value →
    parse .standard (selector (name ++ op ++ q :: (value ++ [q]))) =
      .ok [[.regular (selector (name ++ op ++ q :: (value ++ [q])))]] := by
  intro h
  have hkept := h "title".toList "=".toList "a=]b".toList Mark.doubleQuote (by decide) (by decide) (by decide)
    (by decide) (by decide)
  have hrefused : (compile .standard "x[title=\"a=]b\"]".toList).toOption = none := by decide +kernel
  rw [parse_eq_compile] at hkept
  cases (congrArg Except.toOption hkept).symm.trans hrefused

end SelectorList

end CosmeticFilter
