import CosmeticFilter.Proofs.Cuts

/-!
# The declarations of a block

`Block.Body body ds` says without a scan what a block declares: its text is cut at the unescaped
semicolons, and every piece is blank or has a property before its first unescaped colon and a value
after it. `Block.read_eq_ok_iff` shows that blocks are read by this rule, up to the first unescaped
closing brace.

The reader takes a piece in one turn or two, with different classes of characters to stop at.
`Block.readFrom_piece` makes this one equation, and both directions are inductions over pieces.
-/

namespace CosmeticFilter.Block

open Text (Escapes Free Blank)

/-- What a piece of a block declares. -/
inductive Declares : Text → List Declaration → Prop
  | blank {piece : Text} (h : Blank piece) : Declares piece []
  /-- A property and a value, around the first colon. -/
  | pair {property value : Text} (first : Free (· = ':') property) (unescaped : ¬ Escapes property)
      (hproperty : ¬ Blank property) (hvalue : ¬ Blank value) :
      Declares (property ++ ':' :: value) [⟨Text.trimBlank property, Text.trimBlank value⟩]

/-- What the text of a block declares, piece by piece. -/
inductive Body : Text → List Declaration → Prop
  | last {piece : Text} {ds : List Declaration} (free : Free (· = ';') piece)
      (declares : Declares piece ds) : Body piece ds
  | more {piece rest : Text} {ds later : List Declaration} (free : Free (· = ';') piece)
      (unescaped : ¬ Escapes piece) (declares : Declares piece ds) (h : Body rest later) :
      Body (piece ++ ';' :: rest) (ds ++ later)

variable {css rest before after piece : Text} {styled : Bool} {found ds : List Declaration} {b : Block}

theorem hasContent_iff {t : Text} : hasContent t = true ↔ ¬ Blank t := by
  rw [hasContent, Bool.not_eq_true', ← Bool.not_eq_true, List.isEmpty_iff, Text.trimBlank_eq_nil_iff]

theorem declaration_eq_ok_iff {d : Declaration} : declaration css before after = .ok d ↔
    ¬ Blank before ∧ ¬ Blank after ∧ d = ⟨Text.trimBlank before, Text.trimBlank after⟩ := by
  rw [declaration]
  simp only [← hasContent_iff]
  cases hasContent before <;> cases hasContent after <;> simp [eq_comm]

/-! ### Single turns -/

theorem readFrom_none (hcut : Text.cutUnescaped? isDivider rest = none) :
    readFrom css styled found rest = .error (.sheet (.invalidStyle css css)) := by
  rw [readFrom]
  split
  · rfl
  · next h => simp [hcut] at h

theorem readFrom_close (hcut : Text.cutUnescaped? isDivider rest = some ⟨before, '\x7d', after⟩) :
    readFrom css styled found rest =
      if hasContent before then .error (.sheet (.invalidStyle css before))
      else if found.isEmpty && !styled then .error (.sheet (.emptyStyle css))
      else .ok ⟨found, after⟩ := by
  rw [readFrom]
  split
  · next h => simp [hcut] at h
  · next cut h =>
    cases hcut.symm.trans h
    simp

theorem readFrom_semicolon (hcut : Text.cutUnescaped? isDivider rest = some ⟨before, ';', after⟩) :
    readFrom css styled found rest =
      if hasContent before then .error (.sheet (.invalidStyle css css))
      else readFrom css styled found after := by
  rw [readFrom]
  split
  · next h => simp [hcut] at h
  · next cut h =>
    cases hcut.symm.trans h
    simp

theorem readFrom_colon {stop : Text.Cut}
    (hcut : Text.cutUnescaped? isDivider rest = some ⟨before, ':', after⟩)
    (hstop : Text.cutUnescaped? isEnd after = some stop) :
    readFrom css styled found rest = (declaration css before stop.before).bind fun d =>
      if stop.mark = '\x7d' then .ok ⟨found ++ [d], stop.after⟩
      else readFrom css styled (found ++ [d]) stop.after := by
  rw [readFrom]
  split
  · next h => simp [hcut] at h
  · next cut h =>
    cases hcut.symm.trans h
    simp only [Char.reduceEq, if_false]
    split
    · next h => simp [hstop] at h
    · next stop' h =>
      cases hstop.symm.trans h
      cases declaration css before stop.before <;> rfl

theorem readFrom_open (hcut : Text.cutUnescaped? isDivider rest = some ⟨before, ':', after⟩)
    (hstop : Text.cutUnescaped? isEnd after = none) :
    readFrom css styled found rest = .error (.sheet (.openStyle css)) := by
  rw [readFrom]
  split
  · next h => simp [hcut] at h
  · next cut h =>
    cases hcut.symm.trans h
    simp only [Char.reduceEq, if_false]
    split
    · rfl
    · next h => simp [hstop] at h

/-! ### Pieces -/

theorem isDivider_iff {c : Char} : isDivider c = true ↔ c = ':' ∨ isEnd c = true := by
  simp [isDivider, isEnd, or_assoc]

theorem isEnd_iff {c : Char} : isEnd c = true ↔ c = ';' ∨ c = '\x7d' := by
  simp [isEnd]

theorem free_isEnd_iff : Free isEnd piece ↔
    Free (· = ';') piece ∧ Free (· = '\x7d') piece := by
  constructor
  · intro h
    exact ⟨h.mono fun c hc => isEnd_iff.2 (.inl (by simpa using hc)),
      h.mono fun c hc => isEnd_iff.2 (.inr (by simpa using hc))⟩
  · rintro ⟨hsemicolon, hclose⟩ before c after heq hc
    rcases isEnd_iff.1 hc with rfl | rfl
    · exact hsemicolon before _ after heq (by simp)
    · exact hclose before _ after heq (by simp)

/-- A blank piece has no character that divides. -/
theorem free_isDivider_of_blank (h : Blank piece) : Free isDivider piece := by
  refine Text.freeAfter_of_not_mem fun c hc => ?_
  by_contra hdivider
  have hblank := h c hc
  rcases isDivider_iff.1 (by simpa using hdivider) with rfl | hend
  · cases hblank
  · rcases isEnd_iff.1 hend with rfl | rfl <;> cases hblank

/-- Reading a piece adds what it declares; a closing brace after it ends the block. -/
theorem readFrom_piece {mark : Char} (hfree : Free isEnd piece) (hescapes : ¬ Escapes piece)
    (hpiece : Declares piece ds) (hmark : isEnd mark = true) :
    readFrom css styled found (piece ++ mark :: after) =
      if mark = '\x7d' then
        if (found ++ ds).isEmpty && !styled then .error (.sheet (.emptyStyle css))
        else .ok ⟨found ++ ds, after⟩
      else readFrom css styled (found ++ ds) after := by
  cases hpiece with
  | blank hblank =>
    have hno : hasContent piece = false := by
      rw [← Bool.not_eq_true, hasContent_iff, not_not]
      exact hblank
    have hcut : Text.cutUnescaped? isDivider (piece ++ mark :: after) = some ⟨piece, mark, after⟩ :=
      Text.cutUnescaped?_eq_some_iff.2
        ⟨rfl, isDivider_iff.2 (.inr hmark), hescapes, free_isDivider_of_blank hblank⟩
    rcases isEnd_iff.1 hmark with rfl | rfl
    · rw [readFrom_semicolon hcut]
      simp [hno]
    · rw [readFrom_close hcut]
      simp [hno]
  | @pair property value first unescaped hproperty hvalue =>
    obtain ⟨hends, -, hvalueFree⟩ := (Text.free_append_cons (by decide)).1 hfree
    have hcut : Text.cutUnescaped? isDivider (property ++ ':' :: value ++ mark :: after) =
        some ⟨property, ':', value ++ mark :: after⟩ := by
      refine Text.cutUnescaped?_eq_some_iff.2 ⟨by simp, rfl, unescaped, fun b c a heq hc => ?_⟩
      rcases isDivider_iff.1 hc with rfl | hc
      · exact first b _ a heq (by simp)
      · exact hends b c a heq hc
    have hstop : Text.cutUnescaped? isEnd (value ++ mark :: after) = some ⟨value, mark, after⟩ := by
      rw [Text.escapes_append_cons (by decide)] at hescapes
      exact Text.cutUnescaped?_eq_some_iff.2 ⟨rfl, hmark, hescapes, hvalueFree⟩
    rw [readFrom_colon hcut hstop, declaration_eq_ok_iff.2 ⟨hproperty, hvalue, rfl⟩]
    simp [Except.bind]

/-- What is read starts with a piece. -/
theorem exists_piece (h : readFrom css styled found rest = .ok b) : ∃ piece ds mark after,
    rest = piece ++ mark :: after ∧ Free isEnd piece ∧ ¬ Escapes piece ∧ Declares piece ds ∧
      isEnd mark = true := by
  cases hcut : Text.cutUnescaped? isDivider rest with
  | none =>
    rw [readFrom_none hcut] at h
    cases h
  | some cut =>
    obtain ⟨before, mark, after⟩ := cut
    obtain ⟨hrest, hmark, hescapes, hfree⟩ := Text.cutUnescaped?_eq_some_iff.1 hcut
    have hends : Free isEnd before := hfree.mono fun c hc => isDivider_iff.2 (.inr hc)
    rcases isDivider_iff.1 hmark with hcolon | hend
    · obtain rfl : mark = ':' := hcolon
      cases hstop : Text.cutUnescaped? isEnd after with
      | none =>
        rw [readFrom_open hcut hstop] at h
        cases h
      | some stop =>
        rw [readFrom_colon hcut hstop] at h
        obtain ⟨d, hd, -⟩ := bind_eq_ok_iff.1 h
        obtain ⟨hproperty, hvalue, -⟩ := declaration_eq_ok_iff.1 hd
        obtain ⟨hafter, hmark', hescapes', hfree'⟩ := Text.cutUnescaped?_eq_some_iff.1 hstop
        refine ⟨before ++ ':' :: stop.before, _, stop.mark, stop.after, ?_, ?_, ?_,
          .pair (hfree.mono fun c hc => isDivider_iff.2 (.inl (by simpa using hc))) hescapes hproperty hvalue,
          hmark'⟩
        · rw [hrest, hafter]
          simp
        · exact (Text.free_append_cons (by decide)).2 ⟨hends, by simp [isEnd], hfree'⟩
        · rwa [Text.escapes_append_cons (by decide)]
    · have hblank : Blank before := by
        by_contra hcontent
        rw [← hasContent_iff] at hcontent
        rcases isEnd_iff.1 hend with rfl | rfl
        · rw [readFrom_semicolon hcut, if_pos hcontent] at h
          cases h
        · rw [readFrom_close hcut, if_pos hcontent] at h
          cases h
      exact ⟨before, [], mark, after, hrest, hends, hescapes, .blank hblank, hend⟩

/-! ### Blocks -/

variable {body : Text}

theorem readFrom_complete (h : Body body ds) (hfree : Free (· = '\x7d') body) (hescapes : ¬ Escapes body)
    (hstyled : found ++ ds = [] → styled = true) :
    readFrom css styled found (body ++ '\x7d' :: rest) = .ok ⟨found ++ ds, rest⟩ := by
  induction h generalizing found with
  | last free declares =>
    rw [readFrom_piece (free_isEnd_iff.2 ⟨free, hfree⟩) hescapes declares rfl, if_pos rfl, if_neg]
    simpa using hstyled
  | more free unescaped declares h ih =>
    obtain ⟨hpiece, -, hrest⟩ := (Text.free_append_cons (by decide)).1 hfree
    rw [Text.escapes_append_cons (by decide)] at hescapes
    rw [List.append_assoc, List.cons_append,
      readFrom_piece (free_isEnd_iff.2 ⟨free, hpiece⟩) unescaped declares rfl, if_neg (by decide),
      ih hrest hescapes (by simpa using hstyled), List.append_assoc]

theorem readFrom_sound (h : readFrom css styled found rest = .ok b) : ∃ body ds,
    rest = body ++ '\x7d' :: b.rest ∧ Free (· = '\x7d') body ∧ ¬ Escapes body ∧ Body body ds ∧
      b.declarations = found ++ ds ∧ (found ++ ds = [] → styled = true) := by
  induction hn : rest.length using Nat.strong_induction_on generalizing rest found with
  | _ n ih =>
  obtain ⟨piece, ds, mark, after, rfl, hfree, hescapes, hpiece, hmark⟩ := exists_piece h
  obtain ⟨hsemicolon, hclose⟩ := free_isEnd_iff.1 hfree
  rw [readFrom_piece hfree hescapes hpiece hmark] at h
  rcases isEnd_iff.1 hmark with rfl | rfl
  · -- the piece ends in a semicolon, and the rest of the block follows
    obtain ⟨body, later, rfl, hbody, hbodyEscapes, hlater, hfound, hstyled⟩ :=
      ih after.length (by rw [← hn]; simp; omega) (by simpa using h) rfl
    refine ⟨piece ++ ';' :: body, ds ++ later, by simp, ?_, ?_, .more hsemicolon hescapes hpiece hlater,
      by simp [hfound], by simpa using hstyled⟩
    · exact (Text.free_append_cons (by decide)).2 ⟨hclose, nofun, hbody⟩
    · rwa [Text.escapes_append_cons (by decide)]
  · simp only [if_true] at h
    split at h
    · cases h
    · next hstyled =>
      cases h
      exact ⟨piece, ds, rfl, hclose, hescapes, .last hsemicolon hpiece, rfl, by simpa using hstyled⟩

/-- A block is read up to the first unescaped closing brace. The text before the brace must declare
something, unless the rule has declarations from elsewhere. -/
theorem read_eq_ok_iff : read css styled = .ok b ↔ ∃ body, css = body ++ '\x7d' :: b.rest ∧
    Free (· = '\x7d') body ∧ ¬ Escapes body ∧ Body body b.declarations ∧
      (b.declarations = [] → styled = true) := by
  constructor
  · intro h
    obtain ⟨body, ds, hcss, hfree, hescapes, hbody, hfound, hstyled⟩ := readFrom_sound h
    obtain rfl : b.declarations = ds := by simpa using hfound
    exact ⟨body, hcss, hfree, hescapes, hbody, by simpa using hstyled⟩
  · rintro ⟨body, rfl, hfree, hescapes, hbody, hstyled⟩
    exact readFrom_complete hbody hfree hescapes (by simpa using hstyled)

end CosmeticFilter.Block
