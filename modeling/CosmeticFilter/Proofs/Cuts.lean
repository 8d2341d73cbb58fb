import CosmeticFilter.Proofs.Moves
import CosmeticFilter.Proofs.Trimming
import CosmeticFilter.Stylesheet.Removal

/-!
# Where texts are cut

A stylesheet is cut at characters that no backslash escapes, and at the marker of removal. Here the
functions that look for the place are described by the pieces that they return: `Text.FreeAfter` says
that a piece has no unescaped character of a class, and `Removal.Marked` that the marker occurs once in a
text, at its end.
-/

namespace CosmeticFilter

namespace Text

/-! ### Unescaped characters -/

/-- The character after `before` is escaped: a backslash stands directly before it. -/
def Escapes (before : Text) : Prop := before.getLast? = some '\\'

instance (before : Text) : Decidable (Escapes before) := inferInstanceAs (Decidable (_ = _))

/-- All characters of class `stop` in the text are escaped, where the text stands after `context`. -/
def FreeAfter (stop : Char → Bool) (context t : Text) : Prop :=
  ∀ before c after, t = before ++ c :: after → stop c = true → Escapes (context ++ before)

/-- All characters of class `stop` in the text are escaped. -/
abbrev Free (stop : Char → Bool) (t : Text) : Prop := FreeAfter stop [] t

variable {stop : Char → Bool} {context a b t : Text} {c : Char}

@[simp] theorem not_escapes_nil : ¬ Escapes [] := nofun

@[simp] theorem escapes_concat : Escapes (t ++ [c]) ↔ c = '\\' := by
  simp [Escapes]

theorem decide_escapes_concat : decide (Escapes (t ++ [c])) = (c == '\\') := by
  simp only [escapes_concat]
  rfl

theorem escapes_append (h : ¬ Escapes a) : Escapes (a ++ b) ↔ Escapes b := by
  cases b with
  | nil => simpa using h
  | cons c b => simp [Escapes, List.getLast?_append]

theorem escapes_append_cons (hc : c ≠ '\\') : Escapes (a ++ c :: b) ↔ Escapes b := by
  rw [List.append_cons, escapes_append (by simpa using hc)]

theorem not_escapes_of_blank (h : Blank t) : ¬ Escapes t := by
  intro hescapes
  have hblank : isBlank '\\' = true := h _ (List.mem_of_getLast? hescapes)
  cases hblank

theorem freeAfter_nil : FreeAfter stop context [] := by
  intro before c after h
  simp at h

theorem freeAfter_cons : FreeAfter stop context (c :: t) ↔
    (stop c = true → Escapes context) ∧ FreeAfter stop (context ++ [c]) t := by
  constructor
  · intro h
    refine ⟨fun hstop => by simpa using h [] c t rfl hstop, fun before d after ht hstop => ?_⟩
    simpa using h (c :: before) d after (by rw [ht]; rfl) hstop
  · rintro ⟨hfirst, hrest⟩ before d after ht hstop
    cases before with
    | nil =>
      cases ht
      simpa using hfirst hstop
    | cons e before =>
      cases ht
      simpa using hrest before d after rfl hstop

theorem freeAfter_append :
    FreeAfter stop context (a ++ b) ↔ FreeAfter stop context a ∧ FreeAfter stop (context ++ a) b := by
  induction a generalizing context with
  | nil => simp [freeAfter_nil]
  | cons c a ih => simp [freeAfter_cons, ih, and_assoc]

/-- What stands before a text does not matter as long as it does not escape its first character. -/
theorem freeAfter_iff_free (h : ¬ Escapes context) : FreeAfter stop context t ↔ Free stop t := by
  constructor
  · intro ht before c after heq hstop
    exact (escapes_append h).1 (ht before c after heq hstop)
  · intro ht before c after heq hstop
    exact (escapes_append h).2 (ht before c after heq hstop)

theorem FreeAfter.mono {stop' : Char → Bool} (h : FreeAfter stop context t)
    (hstop : ∀ c, stop' c = true → stop c = true) : FreeAfter stop' context t :=
  fun before c after ht hc => h before c after ht (hstop c hc)

theorem freeAfter_of_not_mem (h : ∀ c ∈ t, stop c = false) : FreeAfter stop context t := by
  rintro before c after rfl hstop
  rw [h c (by simp)] at hstop
  cases hstop

/-- Two pieces around a character that does not escape what follows it. -/
theorem free_append_cons (hc : c ≠ '\\') : Free stop (a ++ c :: b) ↔
    Free stop a ∧ (stop c = true → Escapes a) ∧ Free stop b := by
  have hcontext : ¬ Escapes (a ++ [c]) := by simpa using hc
  rw [Free, freeAfter_append, freeAfter_cons, List.nil_append, freeAfter_iff_free hcontext]

theorem cutUnescapedFrom?_eq_none_iff : cutUnescapedFrom? stop (decide (Escapes context)) t = none ↔
    FreeAfter stop context t := by
  induction t generalizing context with
  | nil => simp [cutUnescapedFrom?, freeAfter_nil]
  | cons c t ih =>
    rw [cutUnescapedFrom?, freeAfter_cons, ← decide_escapes_concat (t := context)]
    split
    · next hstop =>
      simp only [Bool.and_eq_true, Bool.not_eq_true', decide_eq_false_iff_not] at hstop
      simp [hstop]
    · next hstop =>
      rw [Option.map_eq_none_iff, ih]
      simp only [Bool.and_eq_true, Bool.not_eq_true', decide_eq_false_iff_not, not_and] at hstop
      constructor
      · exact fun h => ⟨fun hc => by_contra fun hcontext => hstop hcontext hc, h⟩
      · exact And.right

/-- A text is cut at the first character of the class that is not escaped. -/
theorem cutUnescapedFrom?_eq_some_iff {cut : Cut} :
    cutUnescapedFrom? stop (decide (Escapes context)) t = some cut ↔
      t = cut.before ++ cut.mark :: cut.after ∧ stop cut.mark = true ∧
        ¬ Escapes (context ++ cut.before) ∧ FreeAfter stop context cut.before := by
  induction t generalizing context cut with
  | nil => simp [cutUnescapedFrom?]
  | cons c t ih =>
    rw [cutUnescapedFrom?, ← decide_escapes_concat (t := context)]
    split
    · next hstop =>
      simp only [Bool.and_eq_true, Bool.not_eq_true', decide_eq_false_iff_not] at hstop
      constructor
      · intro h
        cases h
        simpa [freeAfter_nil] using hstop.symm
      · rintro ⟨ht, -, -, hfree⟩
        obtain ⟨before, mark, after⟩ := cut
        cases before with
        | nil => cases ht; rfl
        | cons d before =>
          cases ht
          exact absurd ((freeAfter_cons.1 hfree).1 hstop.2) hstop.1
    · next hstop =>
      simp only [Bool.and_eq_true, Bool.not_eq_true', decide_eq_false_iff_not, not_and] at hstop
      rw [Option.map_eq_some_iff]
      constructor
      · rintro ⟨inner, hinner, rfl⟩
        obtain ⟨ht, hmark, hescapes, hfree⟩ := ih.1 hinner
        refine ⟨by rw [ht]; rfl, hmark, by simpa [Cut.push] using hescapes, ?_⟩
        exact freeAfter_cons.2 ⟨fun hc => by_contra fun hcontext => hstop hcontext hc, hfree⟩
      · rintro ⟨ht, hmark, hescapes, hfree⟩
        obtain ⟨before, mark, after⟩ := cut
        cases before with
        | nil =>
          cases ht
          exact absurd hmark (hstop (by simpa using hescapes))
        | cons d before =>
          cases ht
          exact ⟨⟨before, mark, after⟩,
            ih.2 ⟨rfl, hmark, by simpa using hescapes, (freeAfter_cons.1 hfree).2⟩, rfl⟩

theorem cutUnescaped?_eq_none_iff : cutUnescaped? stop t = none ↔ Free stop t :=
  @cutUnescapedFrom?_eq_none_iff stop [] t

theorem cutUnescaped?_eq_some_iff {cut : Cut} : cutUnescaped? stop t = some cut ↔
    t = cut.before ++ cut.mark :: cut.after ∧ stop cut.mark = true ∧ ¬ Escapes cut.before ∧
      Free stop cut.before :=
  @cutUnescapedFrom?_eq_some_iff stop [] t cut

/-! ### Markers -/

variable {marker : Text}

theorem cutAt?_eq_none_iff : cutAt? marker t = none ↔ ¬ marker <:+: t := by
  induction t with
  | nil => simp [cutAt?]
  | cons c t ih =>
    rw [cutAt?, List.infix_cons_iff]
    split
    · next h => simp [List.isPrefixOf_iff_prefix.1 h]
    · next h =>
      rw [List.isPrefixOf_iff_prefix] at h
      simp [h, ih]

theorem contains_iff : contains marker t = true ↔ marker <:+: t := by
  rw [contains, Option.isSome_iff_ne_none, ne_eq, cutAt?_eq_none_iff, not_not]

/-- A text is cut at the first place where the marker stands. -/
theorem cutAt?_eq_some {before after : Text} (h : cutAt? marker t = some (before, after)) :
    t = before ++ marker ++ after ∧
      ∀ before' after', t = before' ++ marker ++ after' → before.length ≤ before'.length := by
  induction t generalizing before with
  | nil =>
    rw [cutAt?] at h
    split at h
    · next hmarker =>
      cases h
      exact ⟨by simpa using hmarker.symm, fun _ _ _ => Nat.zero_le _⟩
    · cases h
  | cons c t ih =>
    rw [cutAt?] at h
    split at h
    · next hprefix =>
      cases h
      obtain ⟨more, hmore⟩ := List.isPrefixOf_iff_prefix.1 hprefix
      refine ⟨?_, fun _ _ _ => Nat.zero_le _⟩
      rw [← hmore, List.drop_left, List.nil_append]
    · next hprefix =>
      obtain ⟨⟨inner, after'⟩, hinner, heq⟩ := Option.map_eq_some_iff.1 h
      cases heq
      obtain ⟨ht, hfirst⟩ := ih hinner
      refine ⟨by rw [ht]; rfl, fun before' after' heq => ?_⟩
      cases before' with
      | nil => exact absurd (List.isPrefixOf_iff_prefix.2 ⟨after', heq.symm⟩) hprefix
      | cons d before' =>
        cases heq
        exact Nat.succ_le_succ (hfirst before' after' rfl)

/-- A text without a character cannot reach over it. -/
theorem infix_of_infix_append_cons (h : t <:+: a ++ c :: b) (hc : c ∉ t) : t <:+: a ∨ t <:+: b := by
  obtain ⟨front, back, heq⟩ := h
  rcases append_eq_split heq with ⟨more, hmore, hb⟩ | ⟨more, -, ha⟩
  · rcases append_eq_split hmore with ⟨rest, -, hrest⟩ | ⟨rest, ht, -⟩
    · exact .inr ⟨rest, back, by rw [hb, hrest]⟩
    · exact absurd (by simp [ht]) hc
  · exact .inl ⟨front, more, ha.symm⟩

/-- A text cannot end in characters that its last one is not among. -/
theorem infix_of_concat_infix_append (h : t ++ [c] <:+: a ++ b) (hc : c ∉ b) : t ++ [c] <:+: a := by
  obtain ⟨front, back, heq⟩ := h
  have heq : a ++ b = (front ++ t) ++ c :: back := by simp [← heq]
  rcases append_eq_split heq with ⟨more, ha, -⟩ | ⟨more, hb, -⟩
  · exact ⟨front, more, by simp [ha]⟩
  · exact absurd (by simp [hb]) hc

end Text

/-! ### The marker of removal -/

namespace Removal

theorem marker_starts : markerStart <+: marker := by decide

/-- The marker of removal occurs once in the text: at its end, after `selector`. -/
structure Marked (text selector : Text) : Prop where
  ends : text = selector ++ marker
  selector_ne_nil : selector ≠ []
  once : ∀ before after, text = before ++ marker ++ after → before = selector

/-- What stands before the marker has no marker. -/
theorem Marked.not_infix {text selector : Text} (h : Marked text selector) : ¬ marker <:+: selector := by
  rintro ⟨before, after, heq⟩
  obtain rfl := h.once before (after ++ marker) (by rw [h.ends, ← heq]; simp)
  have hlength := congrArg List.length heq
  simp only [List.length_append] at hlength
  have hmarker : marker.length = 9 := rfl
  omega

/-- The marker occurs once, at the end, where the first one is the last. -/
theorem marked_iff {text selector before after : Text} (h : Text.cutAt? marker text = some (before, after)) :
    Marked text selector ↔ selector = before ∧ before ≠ [] ∧ after = [] := by
  obtain ⟨htext, hfirst⟩ := Text.cutAt?_eq_some h
  constructor
  · intro hmarked
    obtain rfl := hmarked.once before after htext
    refine ⟨rfl, hmarked.selector_ne_nil, ?_⟩
    have hends := hmarked.ends
    rw [htext] at hends
    simpa using hends
  · rintro ⟨rfl, hne, rfl⟩
    refine ⟨by simpa using htext, hne, fun before' after' heq => ?_⟩
    have hle := hfirst before' after' heq
    have hlength := congrArg List.length (htext.symm.trans heq)
    simp only [List.length_append, List.length_nil] at hlength
    exact (List.append_inj (by simpa using htext.symm.trans heq) (by omega)).1.symm

/-- The marker is taken off where it occurs once and last; a text without the start of a marker is left as
it is. -/
theorem split_eq_ok_iff {text selector : Text} {styles : List Declaration} :
    split text = .ok (selector, styles) ↔
      selector = text ∧ styles = [] ∧ ¬ markerStart <:+: text ∨
      Marked text selector ∧ styles = [Declaration.removal] := by
  rw [split]
  split
  · next hcut =>
    have hmarker : ¬ marker <:+: text := Text.cutAt?_eq_none_iff.1 hcut
    have hmarked : ¬ Marked text selector := fun h => hmarker ⟨selector, [], by simp [h.ends]⟩
    split
    · next hstart => simp [hmarked, Text.contains_iff.1 hstart]
    · next hstart =>
      rw [Text.contains_iff] at hstart
      simp [hmarked, hstart, eq_comm]
  · next before after hcut =>
    obtain ⟨htext, -⟩ := Text.cutAt?_eq_some hcut
    have hstart : markerStart <:+: text := by
      rw [htext]
      exact marker_starts.isInfix.trans ⟨before, after, rfl⟩
    have hmarked : Marked text selector ↔ selector = before ∧ before ≠ [] ∧ after = [] := marked_iff hcut
    split
    · next hbefore =>
      rw [List.isEmpty_iff] at hbefore
      simp [hmarked, hbefore, hstart]
    · split
      · next hafter =>
        have hne : after ≠ [] := by
          rintro rfl
          exact absurd hafter (by decide)
        simp [hmarked, hne, hstart]
      · split
        · next hafter => simp [hmarked, by simpa using hafter, hstart]
        · next hbefore _ hafter =>
          have hafter : after = [] := by simpa using hafter
          have hbefore : before ≠ [] := by simpa using hbefore
          simp [hmarked, hbefore, hafter, hstart, eq_comm]

end Removal

end CosmeticFilter
