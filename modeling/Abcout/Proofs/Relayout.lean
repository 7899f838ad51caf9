import Mathlib.Logic.Relation
import Abcout.Proofs.ImportOrder

/-!
# Abcout.Proofs.Relayout — the layout of a source

Blank rows and rows with nothing but a comment can be put in anywhere, comments can be added to rows, and white
space can be added at the ends of a row or changed between words.

`Assembly.run_relaid`: none of these changes the product of a source that is assembled.  A row is cleaned to the
same text as before, so what is left to show is that the passes over `Padded` lists of lines, with other numbers,
go the same way.
-/

namespace Abcout

/-! ## Changes to a source -/

/-- A row that says nothing. -/
inductive Source.Idle : List Char → Prop
  | blanks {w : List Char} (hw : Text.Blanks w) : Idle w
  | comment {w : List Char} (hw : Text.Blanks w) (c : List Char) : Idle (w ++ ';' :: c)

/-- One change to the layout of a row. -/
inductive Source.Respaced : List Char → List Char → Prop
  | comment (s c : List Char) : Respaced s (s ++ ' ' :: ';' :: c)
  | front (s : List Char) {w : List Char} (hw : Text.Blanks w) : Respaced s (w ++ s)
  | back (s : List Char) {w : List Char} (hw : Text.Blanks w) : Respaced s (s ++ w)
  | between (a b : List Char) {v w : List Char} (hv : Text.Blanks v) (hw : Text.Blanks w) (hv' : v ≠ [])
      (hw' : w ≠ []) : Respaced (a ++ v ++ b) (a ++ w ++ b)

/-- One change to the layout of a source, given by its rows. -/
inductive Text.Relaid : List (List Char) → List (List Char) → Prop
  | insert (above below : List (List Char)) {row : List Char} (h : Source.Idle row) :
    Relaid (above ++ below) (above ++ row :: below)
  | change (above below : List (List Char)) {row row' : List Char} (h : Source.Respaced row row') :
    Relaid (above ++ row :: below) (above ++ row' :: below)

theorem Source.Idle.clean_eq {row : List Char} (h : Idle row) : clean row = .ok [] := by
  cases h with
  | blanks hw => exact clean_blanks hw
  | comment hw c => exact clean_blanks_comment hw c

theorem Source.Respaced.clean_eq {row row' : List Char} (h : Respaced row row') : clean row' = clean row := by
  cases h with
  | comment _ c => exact clean_append_comment row c
  | front _ hw => exact clean_blanks_append hw row
  | back _ hw => exact clean_append_blanks row hw
  | between a b hv hw hv' hw' => exact clean_between a b hw hv hw' hv'

/-- No row is emptied. -/
theorem Source.Respaced.eq_nil {row row' : List Char} (h : Respaced row row') (hnil : row' = []) : row = [] := by
  cases h with
  | comment s c => simp at hnil
  | front s hw => exact (List.append_eq_nil_iff.1 hnil).2
  | back s hw => exact (List.append_eq_nil_iff.1 hnil).1
  | between a b hv hw hv' hw' =>
    rw [List.append_eq_nil_iff, List.append_eq_nil_iff] at hnil
    exact absurd hnil.1.2 hw'

/-! ## Padded lists -/

/-- A list with its elements changed by `R`, and with idle elements put in. -/
inductive Padded {α : Type} (R : α → α → Prop) (idle : α → Prop) : List α → List α → Prop
  | nil : Padded R idle [] []
  | insert {xs ys : List α} {y : α} (hy : idle y) (h : Padded R idle xs ys) : Padded R idle xs (y :: ys)
  | cons {xs ys : List α} {x y : α} (hxy : R x y) (h : Padded R idle xs ys) : Padded R idle (x :: xs) (y :: ys)

namespace Padded

variable {α : Type} {R : α → α → Prop} {idle : α → Prop} {xs ys zs : List α}

theorem refl (hR : ∀ x, R x x) (xs : List α) : Padded R idle xs xs := by
  induction xs with
  | nil => exact .nil
  | cons x xs ih => exact .cons (hR x) ih

theorem append_left (hR : ∀ x, R x x) (ws : List α) (h : Padded R idle xs ys) :
    Padded R idle (ws ++ xs) (ws ++ ys) := by
  induction ws with
  | nil => exact h
  | cons w ws ih => exact .cons (hR w) ih

theorem trans (hR : ∀ x y z, R x y → R y z → R x z) (hidle : ∀ y z, idle y → R y z → idle z)
    (h : Padded R idle xs ys) (h' : Padded R idle ys zs) : Padded R idle xs zs := by
  induction h' generalizing xs with
  | nil => exact h
  | insert hz _ ih => exact .insert hz (ih h)
  | cons hyz _ ih =>
    cases h with
    | insert hy h => exact .insert (hidle _ _ hy hyz) (ih h)
    | cons hxy h => exact .cons (hR _ _ _ hxy hyz) (ih h)

theorem length_le (h : Padded R idle xs ys) : xs.length ≤ ys.length := by
  induction h with
  | nil => exact le_rfl
  | insert _ _ ih => exact Nat.le_succ_of_le ih
  | cons _ _ ih => exact Nat.succ_le_succ ih

end Padded

/-! ## Rows -/

namespace Text

/-- Rows that are cleaned to the same text.  An empty row has come from an empty row. -/
def SameCode (r r' : List Char) : Prop := Source.clean r' = Source.clean r ∧ (r' = [] → r = [])

/-- Rows that are cleaned to nothing. -/
def SaysNothing (r : List Char) : Prop := Source.clean r = .ok []

variable {rows rows' : List (List Char)}

theorem Relaid.padded (h : Relaid rows rows') : Padded SameCode SaysNothing rows rows' := by
  have hrefl : ∀ r, SameCode r r := fun r => ⟨rfl, id⟩
  cases h with
  | insert above below h => exact .append_left hrefl above (.insert h.clean_eq (.refl hrefl below))
  | change above below h => exact .append_left hrefl above (.cons ⟨h.clean_eq, h.eq_nil⟩ (.refl hrefl below))

theorem padded_of_relaid (h : Relation.ReflTransGen Relaid rows rows') :
    Padded SameCode SaysNothing rows rows' := by
  induction h with
  | refl => exact .refl (fun r => ⟨rfl, id⟩) rows
  | tail _ hstep ih =>
    refine ih.trans (fun x y z hxy hyz => ?_) (fun y z hy hyz => ?_) hstep.padded
    · exact ⟨hyz.1.trans hxy.1, fun hz => hxy.2 (hyz.2 hz)⟩
    · exact hyz.1.trans hy

/-- The last row, if it is empty, is no line; it may become one that says nothing. -/
theorem padded_kept (h : Padded SameCode SaysNothing rows rows') :
    Padded SameCode SaysNothing (kept rows) (kept rows') := by
  induction h with
  | nil => exact .nil
  | @insert rows rows' r hr h ih =>
    cases rows' with
    | nil =>
      obtain rfl : rows = [] := List.length_eq_zero_iff.1 (Nat.le_zero.1 h.length_le)
      rw [kept_singleton]
      split_ifs
      · exact .nil
      · exact .insert hr .nil
    | cons x rows' =>
      rw [kept_cons_cons]
      exact .insert hr ih
  | @cons rows rows' r r' hr h ih =>
    -- an empty row at the end is dropped, and what it has become says nothing
    have hnil : r = [] → SaysNothing r' := fun hnil => hr.1.trans (by rw [hnil]; decide)
    cases rows' with
    | nil =>
      obtain rfl : rows = [] := List.length_eq_zero_iff.1 (Nat.le_zero.1 h.length_le)
      rw [kept_singleton, kept_singleton]
      by_cases hr0 : r = []
      · rw [if_pos hr0]
        split_ifs
        · exact .nil
        · exact .insert (hnil hr0) .nil
      · rw [if_neg hr0, if_neg fun hr' => hr0 (hr.2 hr')]
        exact .cons hr .nil
    | cons x' rows' =>
      rw [kept_cons_cons]
      cases rows with
      | nil =>
        rw [kept_singleton]
        split_ifs with hr0
        · exact .insert (hnil hr0) ih
        · exact .cons hr ih
      | cons x rows =>
        rw [kept_cons_cons]
        exact .cons hr ih

/-- Padded rows are read as the same lines, with blank lines put in. -/
theorem exists_lines_of_padded {lines : List Line} (h : Padded SameCode SaysNothing rows rows')
    (hread : List.Forall₂ Line.IsRead rows lines) : ∃ lines', List.Forall₂ Line.IsRead rows' lines' ∧
      Padded (· = ·) (fun l => l.statement = .blank) lines lines' := by
  induction h generalizing lines with
  | nil =>
    cases hread
    exact ⟨[], .nil, .nil⟩
  | @insert rows rows' r hr _ ih =>
    obtain ⟨lines', hread', hpadded⟩ := ih hread
    have hblank : Line.IsRead r ⟨"", 0, "", .blank⟩ := ⟨hr, by decide⟩
    exact ⟨_, .cons hblank hread', .insert rfl hpadded⟩
  | cons hr _ ih =>
    obtain ⟨l, rest, hl, hrest, rfl⟩ := List.forall₂_cons_left_iff.1 hread
    obtain ⟨rest', hread', hpadded⟩ := ih hrest
    exact ⟨l :: rest', .cons ⟨hr.1.trans hl.clean, hl.parse⟩ hread', .cons rfl hpadded⟩

end Text

/-! ## Lines -/

theorem Label.lastNumber_of_range {lines : List Line} (h : lines.map Line.number = List.range' 1 lines.length) :
    lastNumber lines = lines.length := by
  have hmax : ∀ n, (List.range' 1 n).foldl max 0 = n := by
    intro n
    induction n with
    | zero => rfl
    | succ n ih =>
      rw [List.range'_concat, List.foldl_append, ih, List.foldl_cons, List.foldl_nil]
      omega
  have hfold : lastNumber lines = (lines.map Line.number).foldl max 0 := (List.foldl_map ..).symm
  rw [hfold, h, hmax]

theorem Line.nonblank_numbered_cons (file : String) (k : Nat) (l : Line) (lines : List Line) :
    nonblank (numbered file k (l :: lines)) = if l.statement = .blank then nonblank (numbered file (k + 1) lines)
      else { l with number := k, file } :: nonblank (numbered file (k + 1) lines) := by
  rw [numbered_cons]
  split_ifs with h
  · apply nonblank_cons_of_blank
    exact h
  · apply nonblank_cons_of_ne
    exact h

/-- Numbered lines, with blank lines put in before they are numbered.  A line that is the last in the end has been
the last. -/
theorem Line.forall₂_nonblank_numbered (file : String) {lines lines' : List Line} (k k' : Nat)
    (h : Padded (· = ·) (fun l : Line => l.statement = .blank) lines lines') :
    List.Forall₂ (fun l l' => l.statement = l'.statement ∧ l'.text = l.text ∧
        (l'.number + 1 = k' + lines'.length → l.number + 1 = k + lines.length))
      (nonblank (numbered file k lines)) (nonblank (numbered file k' lines')) := by
  induction h generalizing k k' with
  | nil => exact .nil
  | @insert lines lines' l hl _ ih =>
    rw [nonblank_numbered_cons, if_pos hl, List.length_cons]
    refine (ih k (k' + 1)).imp fun l l' h => ⟨h.1, h.2.1, fun hl' => h.2.2 ?_⟩
    omega
  | @cons lines lines' l _ hl hrest ih =>
    subst hl
    rw [nonblank_numbered_cons, nonblank_numbered_cons, List.length_cons, List.length_cons]
    have htail : List.Forall₂ (fun l l' => l.statement = l'.statement ∧ l'.text = l.text ∧
        (l'.number + 1 = k' + (lines'.length + 1) → l.number + 1 = k + (lines.length + 1)))
        (nonblank (numbered file (k + 1) lines)) (nonblank (numbered file (k' + 1) lines')) := by
      refine (ih (k + 1) (k' + 1)).imp fun l l' h => ⟨h.1, h.2.1, fun hl' => ?_⟩
      have hnumber := h.2.2 (by omega)
      omega
    split_ifs
    · exact htail
    · refine .cons ⟨rfl, rfl, fun hlast => ?_⟩ htail
      -- behind the last line there is nothing, so nothing has been there
      have hle := hrest.length_le
      simp only at hlast ⊢
      omega

namespace Assembly

variable {tree : FileTree} {origin : Origin} {text text' : String} {product : Product}

/-- **Layout is inert.**  Any number of changes to the layout of a source that is assembled leaves its product as
it is. -/
theorem run_relaid (hrun : (run tree origin text).outcome = .ok product)
    (hrelaid : Relation.ReflTransGen Text.Relaid (Text.rows text) (Text.rows text')) :
    (run tree origin text').outcome = .ok product := by
  obtain ⟨lines, s, hload⟩ := exists_load_of_run hrun
  have hread := (Import.load_eq_ok hload).1
  have hisRead := Line.isRead_of_readAll hread
  have hnumbered : lines = Line.numbered origin.name 1 lines :=
    Except.ok.inj (hread.symm.trans (Line.readAll_of_isRead origin.name hisRead))
  obtain ⟨lines', hisRead', hpadded⟩ := Text.exists_lines_of_padded
    (Text.padded_kept (Text.padded_of_relaid hrelaid)) hisRead
  have hread' := Line.readAll_of_isRead origin.name hisRead'
  have hlines := Line.forall₂_nonblank_numbered origin.name 1 1 hpadded
  rw [← hnumbered] at hlines
  have htexts : (lines.filter Line.isImport).map Line.text =
      ((Line.numbered origin.name 1 lines').filter Line.isImport).map Line.text := by
    rw [← Line.filter_isImport_nonblank lines, ← Line.filter_isImport_nonblank
      (Line.numbered origin.name 1 lines'), ← List.forall₂_eq_eq_eq, List.forall₂_map_left_iff,
      List.forall₂_map_right_iff]
    refine (List.rel_filter (fun l l' h => ?_) hlines).imp fun _ _ h => h.2.1.symm
    simp only [Line.isImport, h.1]
  have hload' := Import.load_alike hload hread' (hlines.imp fun _ _ h => ⟨h.1, fun _ => h.2.1⟩) (.of_eq htexts)
  refine run_of_load_alike hrun hload hload' (hlines.imp fun l l' h => ⟨h.1, fun hl' => ?_⟩)
  have hlength : (Line.numbered origin.name 1 lines').length = lines'.length := by simp [Line.numbered]
  rw [Label.lastNumber_of_range (Line.numbers_of_readAll hread)]
  rw [Label.lastNumber_of_range (Line.numbers_of_readAll hread'), hlength] at hl'
  have hnumber := h.2.2 (by omega)
  omega

/-- A definition and a program, with no more white space than they need. -/
def unspaced : String :=
  "%macro skip 1\n0, 0, over\n1, 2, %0\nover:\n%endmacro\nstart:\nabcout $6, 7, start\nskip start"

/-- The same with comments, tabs, a carriage return and a line feed at the end. -/
def spaced : String :=
  "%macro skip 1\n\t; jumps\n0,\t 0, over\n1, 2, %0\n  over:\n%endmacro\r\n" ++
    "start: ; here\nabcout $6, 7, start\nskip start\n"

theorem relaid_unspaced : Relation.ReflTransGen Text.Relaid (Text.rows unspaced) (Text.rows spaced) := by
  have hrows : Text.rows unspaced = ["%macro skip 1".toList, "0,".toList ++ [' '] ++ "0, over".toList,
      "1, 2, %0".toList, "over:".toList, "%endmacro".toList, "start:".toList, "abcout $6, 7, start".toList,
      "skip start".toList] := by
    decide
  have hrows' : Text.rows spaced = ["%macro skip 1".toList, ['\t'] ++ ';' :: " jumps".toList,
      "0,".toList ++ ['\t', ' '] ++ "0, over".toList, "1, 2, %0".toList, [' ', ' '] ++ "over:".toList,
      "%endmacro".toList ++ ['\r'], "start:".toList ++ ' ' :: ';' :: " here".toList, "abcout $6, 7, start".toList,
      "skip start".toList, []] := by
    decide
  rw [hrows, hrows']
  refine .tail ?_ (.insert [_, _, _, _, _, _, _, _, _] [] (.blanks (by decide)))
  refine .tail ?_ (.change [_, _, _, _, _, _] _ (.comment _ _))
  refine .tail ?_ (.change [_, _, _, _, _] _ (.back _ (by decide)))
  refine .tail ?_ (.change [_, _, _, _] _ (.front _ (by decide)))
  refine .tail ?_ (.change [_, _] _ (.between _ _ (v := [' ']) (by decide) (by decide) (by decide) (by decide)))
  exact .tail .refl (.insert [_] _ (.comment (by decide) _))

theorem run_relaid_unspaced : ∃ product, (run {} {} unspaced).outcome = .ok product ∧
    product.program = [⟨6, 7, 0⟩, ⟨0, 0, 18⟩, ⟨1, 2, 0⟩] ∧ (run {} {} spaced).outcome = .ok product := by
  have hprogram : (run {} {} unspaced).outcome.toOption.map (·.program) =
      some [⟨6, 7, 0⟩, ⟨0, 0, 18⟩, ⟨1, 2, 0⟩] := by
    rw [outcome_run, stream_eq, prepare_of_load (Import.load_eq _ _ _ _ _)]
    decide +kernel
  obtain ⟨product, hrun, hprogram⟩ := Option.map_eq_some_iff.1 hprogram
  rw [toOption_eq_some] at hrun
  exact ⟨product, hrun, hprogram, run_relaid hrun relaid_unspaced⟩

end Assembly

end Abcout
