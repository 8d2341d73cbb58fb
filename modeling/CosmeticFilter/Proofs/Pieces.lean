import CosmeticFilter.Proofs.Declarations
import CosmeticFilter.Proofs.Validity
import Mathlib.Data.List.Forall2

/-!
# Blocks cut at their delimiters

`Block.read_pieces` describes the reading of a block without a scan, by three cuts on texts: at the first unescaped
closing brace, at all unescaped semicolons before it (`Text.pieces`), and at the first unescaped colon of each piece.
The block is read exactly if every piece that is not blank has a property and a value around its colon, and if there is
such a piece or the rule has declarations from elsewhere; all other texts are refused with a fault of the stylesheet.

The pieces of `Text.pieces` are those of `Block.Body`, which the reader is compared with already, so that only the two
ways to cut are left to compare (`body_iff`).
-/

namespace CosmeticFilter

namespace Text

/-! ### Cuts -/

/-- The first unescaped character `c` of the text stands between `before` and `after`. -/
structure CutsAt (c : Char) (t before after : Text) : Prop where
  text_eq : t = before ++ c :: after
  unescaped : ¬ Escapes before
  first : Free (· = c) before

/-- The pieces of a text between its unescaped characters `c`; `escaped` tells whether a backslash stands directly
before the text. -/
def piecesFrom (c : Char) (escaped : Bool) : Text → List Text
  | [] => [[]]
  | d :: rest =>
    if !escaped && d = c then [] :: piecesFrom c (d == '\\') rest
    else (piecesFrom c (d == '\\') rest).modifyHead (d :: ·)

/-- The pieces of a text between its unescaped characters `c`. -/
def pieces (c : Char) (t : Text) : List Text := piecesFrom c false t

variable {c : Char} {context t before after : Text}

/-- A character at which the text is not cut is the first one of a piece. -/
theorem piecesFrom_cons {d : Char} (h : d = c → Escapes context) : piecesFrom c (decide (Escapes context)) (d :: t) =
    (piecesFrom c (decide (Escapes (context ++ [d]))) t).modifyHead (d :: ·) := by
  have hstays : (!decide (Escapes context) && d = c) = false := by
    simpa [imp_iff_not_or, or_comm] using h
  rw [piecesFrom, hstays, if_neg Bool.false_ne_true, ← decide_escapes_concat (t := context)]

theorem piecesFrom_of_free (h : FreeAfter (· = c) context t) : piecesFrom c (decide (Escapes context)) t = [t] := by
  induction t generalizing context with
  | nil => rfl
  | cons d t ih =>
    obtain ⟨hfirst, hrest⟩ := freeAfter_cons.1 h
    rw [piecesFrom_cons fun hd => hfirst (by simpa using hd), ih hrest]
    rfl

theorem piecesFrom_append_cons (hfree : FreeAfter (· = c) context before) (hescapes : ¬ Escapes (context ++ before)) :
    piecesFrom c (decide (Escapes context)) (before ++ c :: after) = before :: piecesFrom c (c == '\\') after := by
  induction before generalizing context with
  | nil =>
    rw [List.append_nil] at hescapes
    simp [piecesFrom, hescapes]
  | cons d before ih =>
    obtain ⟨hfirst, hrest⟩ := freeAfter_cons.1 hfree
    rw [List.cons_append, piecesFrom_cons fun hd => hfirst (by simpa using hd), ih hrest (by simpa using hescapes)]
    rfl

theorem pieces_of_free (h : Free (· = c) t) : pieces c t = [t] := piecesFrom_of_free h

/-- The first piece ends where the text is cut, and the others are those of the rest. -/
theorem CutsAt.pieces_eq (h : CutsAt c t before after) (hc : c ≠ '\\') : pieces c t = before :: pieces c after := by
  have hcons : pieces c (before ++ c :: after) = before :: piecesFrom c (c == '\\') after :=
    piecesFrom_append_cons h.first h.unescaped
  rw [h.text_eq, hcons, beq_eq_false_iff_ne.2 hc]
  rfl

/-- What holds of a text without unescaped characters `c`, and of a text if it holds of what follows its first piece,
holds of all texts. -/
theorem pieces_induction {P : Text → List Text → Prop} (hc : c ≠ '\\') (hlast : ∀ t, Free (· = c) t → P t [t])
    (hmore : ∀ t before after, CutsAt c t before after → P after (pieces c after) →
      P t (before :: pieces c after)) (t : Text) : P t (pieces c t) := by
  induction hn : t.length using Nat.strong_induction_on generalizing t with
  | _ n ih =>
  cases hcut : cutUnescaped? (· = c) t with
  | none =>
    have hfree : Free (· = c) t := cutUnescaped?_eq_none_iff.1 hcut
    rw [pieces_of_free hfree]
    exact hlast t hfree
  | some cut =>
    obtain ⟨htext, hmark, hescapes, hfree⟩ := cutUnescaped?_eq_some_iff.1 hcut
    obtain rfl : cut.mark = c := by simpa using hmark
    have hcuts : CutsAt cut.mark t cut.before cut.after := ⟨htext, hescapes, hfree⟩
    rw [hcuts.pieces_eq hc]
    exact hmore t _ _ hcuts (ih _ (hn ▸ length_after_lt hcut) _ rfl)

end Text

namespace Block

open Text (Escapes Free Blank CutsAt pieces)

/-- The first unescaped colon of the piece stands between a property and a value, and `d` sets the one to the other. -/
def Assigns (piece : Text) (d : Declaration) : Prop :=
  ∃ property value, CutsAt ':' piece property value ∧ ¬ Blank property ∧ ¬ Blank value ∧
    d = ⟨Text.trimBlank property, Text.trimBlank value⟩

variable {css rest body piece : Text} {styled : Bool} {found ds : List Declaration} {d : Declaration} {b : Block}

/-! ### Pieces of a block -/

theorem Assigns.not_blank (h : Assigns piece d) : ¬ Blank piece := by
  obtain ⟨property, value, hcut, -⟩ := h
  have hcolon : ':' ∈ piece := by simp [hcut.text_eq]
  exact Text.not_blank_of_mem hcolon rfl

theorem declares_iff : Declares piece ds ↔ Blank piece ∧ ds = [] ∨ ∃ d, Assigns piece d ∧ ds = [d] := by
  constructor
  · intro h
    cases h with
    | blank hblank => exact .inl ⟨hblank, rfl⟩
    | pair first unescaped hproperty hvalue =>
      exact .inr ⟨_, ⟨_, _, ⟨rfl, unescaped, first⟩, hproperty, hvalue, rfl⟩, rfl⟩
  · rintro (⟨hblank, rfl⟩ | ⟨d, ⟨property, value, ⟨rfl, unescaped, first⟩, hproperty, hvalue, rfl⟩, rfl⟩)
    · exact .blank hblank
    · exact .pair first unescaped hproperty hvalue

/-- The pieces of a list that are not blank, in order, set what `ds` declares. -/
def AllAssign (ps : List Text) (ds : List Declaration) : Prop :=
  List.Forall₂ Assigns (ps.filter fun piece => ¬ Blank piece) ds

theorem allAssign_cons {ps : List Text} : AllAssign (piece :: ps) ds ↔
    ∃ first more, Declares piece first ∧ AllAssign ps more ∧ ds = first ++ more := by
  simp only [declares_iff, AllAssign]
  by_cases hblank : Blank piece
  · have hnone : ∀ d, ¬ Assigns piece d := fun d h => h.not_blank hblank
    simp [hblank, hnone]
  · simp [hblank, List.forall₂_cons_left_iff]

theorem exists_allAssign_iff {ps : List Text} :
    (∃ ds, AllAssign ps ds) ↔ ∀ piece ∈ ps, Blank piece ∨ ∃ d, Assigns piece d := by
  induction ps with
  | nil => exact ⟨fun _ => nofun, fun _ => ⟨[], .nil⟩⟩
  | cons piece ps ih =>
    rw [List.forall_mem_cons, ← ih]
    constructor
    · rintro ⟨ds, h⟩
      obtain ⟨first, more, hfirst, hmore, -⟩ := allAssign_cons.1 h
      refine ⟨?_, more, hmore⟩
      rcases declares_iff.1 hfirst with ⟨hblank, -⟩ | ⟨d, hd, -⟩
      · exact .inl hblank
      · exact .inr ⟨d, hd⟩
    · rintro ⟨hblank | ⟨d, hd⟩, more, hmore⟩
      · exact ⟨_, allAssign_cons.2 ⟨[], more, declares_iff.2 (.inl ⟨hblank, rfl⟩), hmore, rfl⟩⟩
      · exact ⟨_, allAssign_cons.2 ⟨[d], more, declares_iff.2 (.inr ⟨d, hd, rfl⟩), hmore, rfl⟩⟩

theorem AllAssign.eq_nil_iff {ps : List Text} (h : AllAssign ps ds) : ds = [] ↔ ∀ piece ∈ ps, Blank piece := by
  have hlength := h.length_eq
  rw [← List.length_eq_zero_iff, ← hlength, List.length_eq_zero_iff, List.filter_eq_nil_iff]
  simp

/-- A block declares what the pieces between its semicolons set. -/
theorem body_iff : Body body ds ↔ AllAssign (pieces ';' body) ds := by
  constructor
  · intro h
    induction h with
    | last free declares =>
      rw [Text.pieces_of_free free]
      exact allAssign_cons.2 ⟨_, [], declares, .nil, by simp⟩
    | @more piece rest ds later free unescaped declares h ih =>
      have hcut : CutsAt ';' (piece ++ ';' :: rest) piece rest := ⟨rfl, unescaped, free⟩
      rw [hcut.pieces_eq (by decide)]
      exact allAssign_cons.2 ⟨ds, later, declares, ih, rfl⟩
  · refine Text.pieces_induction (P := fun body ps => ∀ ds, AllAssign ps ds → Body body ds) (by decide) ?_ ?_ body ds
    · intro body free ds h
      obtain ⟨first, more, declares, hmore, rfl⟩ := allAssign_cons.1 h
      cases hmore
      rw [List.append_nil]
      exact .last free declares
    · intro body piece rest hcut ih ds h
      obtain ⟨first, more, declares, hmore, rfl⟩ := allAssign_cons.1 h
      rw [hcut.text_eq]
      exact .more hcut.first hcut.unescaped declares (ih more hmore)

/-! ### Reading a block -/

theorem faults_declaration (css before after : Text) :
    Faults (fun fault => ∃ cause, fault = .sheet cause) (declaration css before after) := by
  rw [declaration]
  split
  · exact faults_error_iff.2 ⟨_, rfl⟩
  · split
    · exact faults_error_iff.2 ⟨_, rfl⟩
    · exact faults_ok _

/-- A block that cannot be read is a fault of the stylesheet. -/
theorem faults_readFrom (css : Text) (styled : Bool) (found : List Declaration) (rest : Text) :
    Faults (fun fault => ∃ cause, fault = .sheet cause) (readFrom css styled found rest) := by
  fun_induction readFrom css styled found rest with
  | case1 | case2 | case3 | case5 | case7 => exact faults_error_iff.2 ⟨_, rfl⟩
  | case4 | case9 => exact faults_ok _
  | case6 found rest cut hcut hclose hsemicolon hcontent ih => exact ih
  | case8 found rest cut hcut hclose hsemicolon stop hstop fault hfault =>
    exact faults_error_iff.2 (faults_declaration css cut.before stop.before fault hfault)
  | case10 found rest cut hcut hclose hsemicolon stop hstop d hd hmark ih => exact ih

theorem read_eq_ok_iff_pieces : read css styled = .ok b ↔ ∃ body, CutsAt '\x7d' css body b.rest ∧
    AllAssign (pieces ';' body) b.declarations ∧ (b.declarations = [] → styled = true) := by
  rw [read_eq_ok_iff]
  constructor
  · rintro ⟨body, hcss, hfree, hescapes, hbody, hstyled⟩
    exact ⟨body, ⟨hcss, hescapes, hfree⟩, body_iff.1 hbody, hstyled⟩
  · rintro ⟨body, hcut, hbody, hstyled⟩
    exact ⟨body, hcut.text_eq, hcut.first, hcut.unescaped, body_iff.2 hbody, hstyled⟩

/-- A block ends at the first unescaped closing brace. It can be read exactly if every piece between the unescaped
semicolons before it is blank or sets a property, and if some piece does or the rule has declarations from elsewhere;
it declares then what the pieces set, in order. Every other text is refused with a fault of the stylesheet. -/
theorem read_pieces (css : Text) (styled : Bool) :
    ((∃ b, read css styled = .ok b) ↔ ∃ body rest, CutsAt '\x7d' css body rest ∧
      (∀ piece ∈ pieces ';' body, Blank piece ∨ ∃ d, Assigns piece d) ∧
      (styled = true ∨ ∃ piece ∈ pieces ';' body, ¬ Blank piece)) ∧
    (∀ b, read css styled = .ok b → ∃ body, CutsAt '\x7d' css body b.rest ∧ closingIndex css b = body.length ∧
      List.Forall₂ Assigns ((pieces ';' body).filter fun piece => ¬ Blank piece) b.declarations) ∧
    ∀ fault, read css styled = .error fault → ∃ cause, fault = .sheet cause := by
  refine ⟨⟨?_, ?_⟩, fun b h => ?_, fun fault h => faults_readFrom css styled [] css fault h⟩
  · rintro ⟨b, h⟩
    obtain ⟨body, hcut, hassign, hstyled⟩ := read_eq_ok_iff_pieces.1 h
    refine ⟨body, b.rest, hcut, exists_allAssign_iff.1 ⟨_, hassign⟩, ?_⟩
    rw [hassign.eq_nil_iff] at hstyled
    by_cases hblank : ∀ piece ∈ pieces ';' body, Blank piece
    · exact .inl (hstyled hblank)
    · exact .inr (by simpa using hblank)
  · rintro ⟨body, rest, hcut, hpieces, hsome⟩
    obtain ⟨ds, hassign⟩ := exists_allAssign_iff.2 hpieces
    refine ⟨⟨ds, rest⟩, read_eq_ok_iff_pieces.2 ⟨body, hcut, hassign, fun hnil => ?_⟩⟩
    rcases hsome with hstyled | ⟨piece, hmem, hcontent⟩
    · exact hstyled
    · exact absurd (hassign.eq_nil_iff.1 hnil piece hmem) hcontent
  · obtain ⟨body, hcut, hassign, -⟩ := read_eq_ok_iff_pieces.1 h
    refine ⟨body, hcut, ?_, hassign⟩
    rw [closingIndex, hcut.text_eq, List.length_append, List.length_cons]
    omega

end Block

end CosmeticFilter
