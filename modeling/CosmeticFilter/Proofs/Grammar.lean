import CosmeticFilter.Proofs.Turns

/-!
# The grammar of stylesheets

`Splitter.Sheet config text raws` says without a run what a stylesheet is: blocks one after the other, each
a selector and a list of declarations in braces, and perhaps a last selector that removes what it matches.
Selectors may contain braces, as long as what stands before each of them is malformed (`Swallows`).

`Splitter.rules_eq_ok_iff` says that the texts that can be split are the stylesheets. From a run to the
grammar, the text between the last block and the state that is reached stays open, and every turn completes a
stylesheet with it (`Turns.completes`); from the grammar to a run, `Swallows.exists_outcome_eq` goes over the
braces of a selector. `RawRule.merge` is what becomes of the rules of a stylesheet: those of one selector are
joined.
-/

namespace CosmeticFilter

/-! ### Rules of one selector -/

namespace RawRule

/-- The rules with every selector once, in the order of the first ones and with the declarations of all. -/
def merge : List RawRule → List RawRule
  | [] => []
  | raw :: later =>
    { raw with styles := raw.styles ++ (later.filter (·.selector = raw.selector)).flatMap styles } ::
      (merge later).filter (·.selector ≠ raw.selector)

def saveAll : (raws table : List RawRule) → List RawRule
  | [], table => table
  | raw :: raws, table => saveAll raws (raw.save table)

theorem filter_save (p : Text → Bool) (raw : RawRule) (table : List RawRule) :
    (raw.save table).filter (p ·.selector) =
      if p raw.selector then raw.save (table.filter (p ·.selector)) else table.filter (p ·.selector) := by
  induction table with
  | nil => cases hp : p raw.selector <;> simp [save, hp]
  | cons stored table ih =>
    rw [save]
    split
    · next h => cases hp : p raw.selector <;> simp [h, hp, save]
    · next h => cases hp : p stored.selector <;> cases hp' : p raw.selector <;> simp [h, hp, hp', save, ih]

/-- Leaving out selectors first or last makes no difference. -/
theorem filter_saveAll (p : Text → Bool) (raws table : List RawRule) :
    (saveAll raws table).filter (p ·.selector) =
      saveAll (raws.filter (p ·.selector)) (table.filter (p ·.selector)) := by
  induction raws generalizing table with
  | nil => rfl
  | cons raw raws ih =>
    rw [saveAll, ih, filter_save]
    cases hp : p raw.selector <;> simp [hp, saveAll]

/-- A stored rule collects the declarations of its selector, and the others go past it. -/
theorem saveAll_cons (stored : RawRule) (table raws : List RawRule) : saveAll raws (stored :: table) =
    { stored with styles := stored.styles ++ (raws.filter (·.selector = stored.selector)).flatMap styles } ::
      saveAll (raws.filter (·.selector ≠ stored.selector)) table := by
  induction raws generalizing stored table with
  | nil => simp [saveAll]
  | cons raw raws ih =>
    rw [saveAll, save]
    split
    · next h =>
      rw [ih]
      simp [h]
    · next h =>
      rw [ih]
      simp [Ne.symm h, saveAll]

theorem saveAll_eq_merge (raws : List RawRule) : saveAll raws [] = merge raws := by
  induction raws with
  | nil => rfl
  | cons raw later ih =>
    rw [saveAll, save, saveAll_cons, merge, ← ih,
      filter_saveAll (fun selector => decide (selector ≠ raw.selector))]
    rfl

/-- A merged rule has the selector and the tree of one of the rules. -/
theorem exists_of_mem_merge {raws : List RawRule} {rule : RawRule} (h : rule ∈ merge raws) :
    ∃ raw ∈ raws, raw.selector = rule.selector ∧ raw.ast = rule.ast := by
  induction raws with
  | nil => cases h
  | cons raw later ih =>
    rcases List.mem_cons.1 h with rfl | h
    · exact ⟨raw, List.mem_cons_self, rfl, rfl⟩
    · obtain ⟨raw', hmem, hrule⟩ := ih (List.mem_filter.1 h).1
      exact ⟨raw', List.mem_cons_of_mem _ hmem, hrule⟩

theorem nodup_merge (raws : List RawRule) : ((merge raws).map selector).Nodup := by
  induction raws with
  | nil => exact List.nodup_nil
  | cons raw later ih =>
    refine List.nodup_cons.2 ⟨fun hmem => ?_, ih.sublist (List.filter_sublist.map selector)⟩
    obtain ⟨rule, hrule, hselector⟩ := List.mem_map.1 hmem
    exact of_decide_eq_true (List.mem_filter.1 hrule).2 hselector

end RawRule

namespace Splitter

open Text (Escapes Free FreeAfter Blank)

/-! ### Braces in selectors -/

/-- Every unescaped opening brace of the text belongs to a selector: what stands before it is malformed. -/
def Swallows (config : Config) (t : Text) : Prop :=
  ∀ before after, t = before ++ '\x7b' :: after → ¬ Escapes before → Refuses config before

variable {config : Config} {t head lead : Text}

theorem swallows_of_not_mem (hbrace : '\x7b' ∉ t) : Swallows config t := by
  rintro before after rfl
  simp at hbrace

theorem swallows_nil : Swallows config [] := swallows_of_not_mem List.not_mem_nil

theorem Swallows.append (h : Swallows config head) (hfree : FreeAfter (· = '\x7b') head t) :
    Swallows config (head ++ t) := by
  intro before after heq hescapes
  rcases append_eq_split heq with ⟨more, hhead, -⟩ | ⟨more, ht, hbefore⟩
  · exact h before more hhead hescapes
  · rw [hbefore] at hescapes
    exact absurd (hfree more _ after ht (by simp)) hescapes

theorem Swallows.concat (h : Swallows config head) (hrefuses : Refuses config head) :
    Swallows config (head ++ ['\x7b']) := by
  intro before after heq hescapes
  rcases append_eq_split heq with ⟨more, hhead, -⟩ | ⟨more, ht, rfl⟩
  · exact h before more hhead hescapes
  · obtain ⟨rfl, -, -⟩ := singleton_eq_split ht
    simpa using hrefuses

theorem swallows_of_lead (hlead : Blank lead) (h : Swallows config (lead ++ t)) : Swallows config t := by
  intro before after heq hescapes
  rw [← refuses_append hlead]
  refine h (lead ++ before) after (by rw [heq, List.append_assoc]) ?_
  rwa [Text.escapes_append (Text.not_escapes_of_blank hlead)]

/-! ### Stylesheets -/

/-- What a stylesheet is, with the rules of its blocks in order. -/
inductive Sheet (config : Config) : Text → List RawRule → Prop
  | nil : Sheet config [] []
  /-- A last selector without a block, which ends in the marker of removal. -/
  | tail {tail selector : Text} {rule : RawRule} (swallows : Swallows config tail)
      (marked : Removal.Marked (Text.trimBlank tail) selector)
      (compiled : SelectorList.parse config selector = .ok rule.ast)
      (key : rule.selector = Text.trimBlank selector) (styles : rule.styles = [Declaration.removal]) :
      Sheet config tail [rule]
  /-- A selector and a block, which may be empty where the selector ends in the marker of removal. -/
  | block {head body gap rest : Text} {rule : RawRule} {ds : List Declaration} {raws : List RawRule}
      (swallows : Swallows config head) (opens : ¬ Escapes head) (accepts : Accepts config head rule)
      (free : Free (· = '\x7d') body) (closes : ¬ Escapes body) (declares : Block.Body body ds)
      (styled : ds = [] → rule.styles ≠ []) (blank : Blank gap) (later : Sheet config rest raws) :
      Sheet config (head ++ '\x7b' :: (body ++ '\x7d' :: (gap ++ rest)))
        ({ rule with styles := rule.styles ++ ds } :: raws)

variable {raws table : List RawRule}

theorem sheet_nil_iff : Sheet config [] raws ↔ raws = [] := by
  constructor
  · intro h
    generalize ht : ([] : Text) = text at h
    cases h with
    | nil => rfl
    | tail swallows marked =>
      have hends := marked.ends
      rw [← ht] at hends
      simp [Text.trimBlank, Text.trim] at hends
    | block => simp at ht
  · rintro rfl
    exact .nil

theorem sheet_of_lead (hlead : Blank lead) (h : Sheet config (lead ++ t) raws) : Sheet config t raws := by
  generalize htext : lead ++ t = text at h
  cases h with
  | nil =>
    obtain ⟨-, rfl⟩ := List.append_eq_nil_iff.1 htext
    exact .nil
  | tail swallows marked compiled key styles =>
    subst htext
    rw [Text.trimBlank_lead hlead] at marked
    exact .tail (swallows_of_lead hlead swallows) marked compiled key styles
  | @block head body gap rest rule ds raws swallows opens accepts free closes declares styled blank later =>
    rcases append_eq_split htext with ⟨more, hmore, -⟩ | ⟨head, rfl, rfl⟩
    · -- a brace is not blank
      exact absurd hlead (Text.not_blank_of_mem (c := '\x7b') (by simp [hmore]) rfl)
    · rw [Text.escapes_append (Text.not_escapes_of_blank hlead)] at opens
      exact .block (swallows_of_lead hlead swallows) opens ((accepts_append hlead).1 accepts) free closes
        declares styled blank later

/-! ### Runs -/

/-- The text that has been read since the last block. -/
inductive Open (config : Config) : Phase → Text → Prop
  | selector {buffer : Text} (swallows : Swallows config buffer) (unescaped : ¬ Escapes buffer)
      (content : Blank buffer → buffer = []) : Open config (.selector buffer) buffer
  | style {head : Text} {pending : RawRule} (swallows : Swallows config head) (opens : ¬ Escapes head)
      (accepts : Accepts config head pending) : Open config (.style pending) (head ++ ['\x7b'])

variable {s next : Splitter} {read : Text}

theorem open_start : Open config (.selector []) [] := .selector swallows_nil Text.not_escapes_nil fun _ => rfl

/-- The rest of the text after a state, together with what has been read since the last block, is a stylesheet
whose rules complete the table. -/
def Completes (config : Config) (table : List RawRule) (s : Splitter) : Prop :=
  ∀ read, Open config s.phase read → ∃ raws, Sheet config (read ++ s.rest) raws ∧ table = RawRule.saveAll raws s.saved

theorem completes_of_finish (hrest : s.rest = []) (hfinish : s.finish = .ok table) : Completes config table s := by
  intro read hopen
  rw [finish] at hfinish
  split at hfinish
  · cases hfinish
  · next buffer hphase =>
    split at hfinish
    · cases hfinish
    · next hcontent =>
      rw [hphase] at hopen
      cases hopen with
      | selector swallows unescaped content =>
        rw [Block.hasContent_iff, not_not] at hcontent
        cases hfinish
        exact ⟨[], by simpa [hrest, content hcontent] using Sheet.nil, rfl⟩

/-- Every turn reads a piece of a stylesheet. -/
theorem Turns.completes (h : Turns config s next) (hnext : Completes config table next) : Completes config table s := by
  intro read hopen
  cases h with
  | @last buffer rule phase free accepts marked =>
    rw [phase] at hopen
    cases hopen with
    | selector swallows unescaped content =>
      obtain ⟨selector, hmarked, hparse, hkey, hstyles⟩ := accepts_marked_iff.1 ⟨accepts, marked⟩
      obtain ⟨raws, hraws, htable⟩ := hnext [] open_start
      obtain rfl := sheet_nil_iff.1 hraws
      exact ⟨[rule], .tail (swallows.append ((Text.freeAfter_iff_free unescaped).2 free)) hmarked hparse hkey
        hstyles, htable⟩
  | @refuse buffer before after phase rest free unescaped refuses =>
    rw [phase] at hopen
    cases hopen with
    | selector swallows hbuffer content =>
      have hbrace : ¬ Blank (read ++ before ++ ['\x7b']) := Text.not_blank_of_mem (c := '\x7b') (by simp) rfl
      obtain ⟨raws, hraws, htable⟩ := hnext _ (.selector
        ((swallows.append ((Text.freeAfter_iff_free hbuffer).2 free)).concat refuses)
        (by rw [Text.escapes_concat]; decide) fun hblank => absurd hblank hbrace)
      exact ⟨raws, by simpa [rest] using hraws, htable⟩
  | @accept buffer before after rule phase rest free unescaped accepts =>
    rw [phase] at hopen
    cases hopen with
    | selector swallows hbuffer content =>
      obtain ⟨raws, hraws, htable⟩ := hnext _ (.style
        (swallows.append ((Text.freeAfter_iff_free hbuffer).2 free)) (by rwa [Text.escapes_append hbuffer])
        accepts)
      exact ⟨raws, by simpa [rest] using hraws, htable⟩
  | @block pending body after ds phase rest free unescaped declares styled =>
    rw [phase] at hopen
    cases hopen with
    | style swallows opens accepts =>
      obtain ⟨raws, hraws, htable⟩ := hnext [] open_start
      refine ⟨_ :: raws, ?_, htable⟩
      have hsheet := Sheet.block swallows opens accepts free unescaped declares
        (fun hnil hstyles => styled (by simp [hnil, hstyles])) (Text.blank_takeWhile after) hraws
      rw [List.nil_append, List.takeWhile_append_dropWhile] at hsheet
      simpa [rest] using hsheet

theorem completes_of_outcome (h : outcome config s = .ok table) : Completes config table s :=
  outcome_induction (P := Completes config table) (fun _ => completes_of_finish)
    (fun _ _ _ hturn hnext => hturn.completes hnext) h

/-- A run goes over the braces that belong to a selector, to a piece without them. -/
theorem Swallows.exists_outcome_eq {buffer piece more : Text} (h : Swallows config (buffer ++ piece))
    (hphase : s.phase = .selector buffer) (hescapes : ¬ Escapes buffer) (hrest : s.rest = piece ++ more) :
    ∃ buffer' piece', buffer ++ piece = buffer' ++ piece' ∧ Free (· = '\x7b') piece' ∧ ¬ Escapes buffer' ∧
      (buffer' = buffer ∨ buffer'.getLast? = some '\x7b') ∧
      outcome config s = outcome config { s with rest := piece' ++ more, phase := .selector buffer' } := by
  induction hn : piece.length using Nat.strong_induction_on generalizing s buffer piece with
  | _ n ih =>
  cases hcut : Text.cutUnescaped? (· = '\x7b') piece with
  | none =>
    refine ⟨buffer, piece, rfl, Text.cutUnescaped?_eq_none_iff.1 hcut, hescapes, .inl rfl, ?_⟩
    rw [← hphase, ← hrest]
  | some cut =>
    obtain ⟨before, mark, after⟩ := cut
    obtain ⟨hpiece, hmark, hbefore, hfree⟩ := Text.cutUnescaped?_eq_some_iff.1 hcut
    obtain rfl : mark = '\x7b' := by simpa using hmark
    dsimp only at hpiece hbefore hfree
    have hrefuses : Refuses config (buffer ++ before) :=
      h (buffer ++ before) after (by simp [hpiece]) (by rwa [Text.escapes_append hescapes])
    have hturn : Turns config s _ :=
      .refuse hphase (by rw [hrest, hpiece, List.append_assoc, List.cons_append]) hfree hbefore hrefuses
    obtain ⟨buffer', piece', heq, hfree', hescapes', hlast, houtcome⟩ := ih after.length
      (by rw [← hn, hpiece]; simp; omega) (by simpa [hpiece] using h)
      (s := { s with rest := after ++ more, phase := .selector (buffer ++ before ++ ['\x7b']) })
      rfl (by rw [Text.escapes_concat]; decide) rfl rfl
    refine ⟨buffer', piece', by rw [← heq, hpiece]; simp, hfree', hescapes', .inr ?_, ?_⟩
    · rcases hlast with rfl | hlast
      · simp
      · exact hlast
    · rw [hturn.outcome_eq (by simp [hrest, hpiece]), houtcome]

theorem outcome_of_sheet (h : Sheet config s.rest raws) (hphase : s.phase = .selector []) :
    outcome config s = .ok (RawRule.saveAll raws s.saved) := by
  induction hn : s.rest.length using Nat.strong_induction_on generalizing s raws with
  | _ n ih =>
  generalize hrest : s.rest = text at h
  cases h with
  | nil =>
    rw [outcome_of_nil hrest, finish, hphase]
    rfl
  | @tail _ selector rule swallows marked compiled key styles =>
    rw [← List.nil_append text] at swallows
    rw [← List.append_nil text] at hrest
    obtain ⟨buffer, piece, htail, hfree, hescapes, hlast, houtcome⟩ :=
      swallows.exists_outcome_eq hphase Text.not_escapes_nil hrest
    rw [List.nil_append] at htail
    subst htail
    obtain ⟨haccepts, hmarked⟩ := accepts_marked_iff.2 ⟨selector, marked, compiled, key, styles⟩
    have hturn : Turns config { s with rest := piece ++ [], phase := .selector buffer } _ :=
      .last rfl (by simpa using hfree) (by simpa using haccepts) hmarked
    -- else the last brace of the tail would have to belong to the marker
    have hpiece : piece ≠ [] := by
      rintro rfl
      have hends := marked.ends
      rw [List.append_nil] at hends
      rcases hlast with rfl | hlast
      · simp [Text.trimBlank, Text.trim] at hends
      · have hbrace := Text.getLast?_trim_of_getLast? (p := Text.isBlank) hlast rfl
        rw [← Text.trimBlank, hends, List.getLast?_append] at hbrace
        cases hbrace
    rw [houtcome, hturn.outcome_eq (by simpa using hpiece), outcome_of_nil rfl]
    rfl
  | @block head body gap rest rule ds raws swallows opens accepts free closes declares styled blank later =>
    rw [← List.nil_append head] at swallows
    obtain ⟨buffer, piece, hhead, hfree, hescapes, -, houtcome⟩ :=
      swallows.exists_outcome_eq hphase Text.not_escapes_nil hrest
    rw [List.nil_append] at hhead
    subst hhead
    rw [Text.escapes_append hescapes] at opens
    let more := body ++ '\x7d' :: (gap ++ rest)
    have hhead : Turns config { s with rest := piece ++ '\x7b' :: more, phase := .selector buffer }
        { s with rest := more, phase := .style rule } := .accept rfl rfl hfree opens accepts
    have hbody : Turns config { s with rest := more, phase := .style rule } _ :=
      .block rfl rfl free closes declares fun hnil => by
        obtain ⟨hstyles, hds⟩ := List.append_eq_nil_iff.1 hnil
        exact styled hds hstyles
    have hlater : Sheet config ((gap ++ rest).dropWhile Text.isBlank) raws := by
      rw [List.dropWhile_append_of_pos blank]
      refine sheet_of_lead (Text.blank_takeWhile rest) ?_
      rwa [List.takeWhile_append_dropWhile]
    have hlength : ((gap ++ rest).dropWhile Text.isBlank).length < n := by
      have hle := (List.dropWhile_sublist Text.isBlank (l := gap ++ rest)).length_le
      rw [← hn, hrest]
      simp only [List.length_append, List.length_cons] at hle ⊢
      omega
    rw [houtcome, hhead.outcome_eq (by simp), hbody.outcome_eq (by simp [more]), ih _ hlength hlater rfl rfl]
    rfl

theorem exists_sheet_of_rules (h : rules config t = .ok table) :
    ∃ raws, Sheet config t raws ∧ table = RawRule.merge raws := by
  obtain ⟨raws, hraws, htable⟩ := completes_of_outcome (s := { rest := t }) h [] open_start
  exact ⟨raws, hraws, htable.trans (RawRule.saveAll_eq_merge raws)⟩

theorem rules_of_sheet (h : Sheet config t raws) : rules config t = .ok (RawRule.merge raws) := by
  rw [← RawRule.saveAll_eq_merge]
  exact outcome_of_sheet (s := { rest := t }) h rfl

/-- The texts that are split into rules are the stylesheets, and the table has the rules of their blocks with
those of one selector joined. -/
theorem rules_eq_ok_iff (config : Config) (text : Text) (table : List RawRule) :
    rules config text = .ok table ↔ ∃ raws, Sheet config text raws ∧ table = RawRule.merge raws := by
  constructor
  · exact exists_sheet_of_rules
  · rintro ⟨raws, hraws, rfl⟩
    exact rules_of_sheet hraws

end Splitter

end CosmeticFilter
