import Abcout.Proofs.Location
import Abcout.Proofs.Outcome
import Abcout.Source.Name

/-!
# Abcout.Proofs.Clause — import statements written and read

`ImportClause.render` writes an import statement.  `parse_eq_ok_iff` says what its reader asks of the words of a
text; `parse_render_all` and `parse_render_names` read back what was written, if names and file have no blank,
comma or star.  `parse_eq_ok_iff_writable`: nothing else is read.
-/

namespace Abcout

namespace ImportClause

/-- An import statement as source text. -/
def render (c : ImportClause) : String :=
  "@import " ++ (match c.selection with
    | .all => "*"
    | .names names => ", ".intercalate names) ++ " from " ++ c.file

/-- A character that separates the parts of an import statement, or that stands for all macros. -/
def isMark (c : Char) : Bool := c == ' ' || c == ',' || c == '*'

/-- A text without such characters. -/
def Unmarked (s : List Char) : Prop := ∀ c ∈ s, isMark c = false

-- over the characters of `s`, and not over all there are
instance (s : List Char) : Decidable (Unmarked s) := List.decidableBAll (fun c => isMark c = false) s

theorem unmarked_iff {s : List Char} : Unmarked s ↔ ' ' ∉ s ∧ ',' ∉ s ∧ '*' ∉ s := by
  constructor
  · intro h
    exact ⟨fun hc => absurd (h ' ' hc) (by decide), fun hc => absurd (h ',' hc) (by decide),
      fun hc => absurd (h '*' hc) (by decide)⟩
  · rintro ⟨hblank, hcomma, hstar⟩ c hc
    have hne : c ≠ ' ' ∧ c ≠ ',' ∧ c ≠ '*' :=
      ⟨fun e => hblank (e ▸ hc), fun e => hcomma (e ▸ hc), fun e => hstar (e ▸ hc)⟩
    simp [isMark, hne]

/-! ## Reading -/

/-- What the reader asks of the words behind the keyword: the last is the file and the one before it is `from`; a
star stands for all or nowhere, and the names before are separated. -/
theorem parseWords_eq_ok_iff {rest : List Char} {words : List (List Char)} {c : ImportClause} :
    parseWords rest words.reverse = .ok c ↔ ∃ names file,
      words = names ++ ["from".toList, file] ∧ file ≠ "from".toList ∧
      ('*' ∈ rest → asksForAll rest = true) ∧ isSeparated names = true ∧ ',' ∉ file ∧ names ≠ [] ∧
      c = ⟨selectionOf rest names, String.ofList file⟩ := by
  constructor
  · intro h
    generalize hrev : words.reverse = reversed at h
    cases reversed with
    | nil => cases h
    | cons file before =>
      obtain ⟨hfile, h⟩ := ensure_bind_eq_ok.1 h
      cases before with
      | nil => cases h
      | cons word names =>
        obtain ⟨hfrom, h⟩ := ensure_bind_eq_ok.1 h
        obtain ⟨hstar, h⟩ := ensure_bind_eq_ok.1 h
        obtain ⟨hseparated, h⟩ := ensure_bind_eq_ok.1 h
        obtain ⟨hlast, h⟩ := ensure_bind_eq_ok.1 h
        have hwords : words = names.reverse ++ [word, file] := by
          rw [← words.reverse_reverse, hrev]
          simp
        have hlast' : ',' ∉ file ∧ names.reverse ≠ [] := by simpa using hlast
        refine ⟨names.reverse, file, by rw [hwords, eq_of_beq hfrom], by simpa using hfile, ?_, hseparated,
          hlast'.1, hlast'.2, (pure_eq_ok.1 h).symm⟩
        intro hmem
        simpa [hmem] using hstar
  · rintro ⟨names, file, rfl, hfile, hstar, hseparated, hcomma, hnames, rfl⟩
    have hrev : (names ++ ["from".toList, file]).reverse = file :: "from".toList :: names.reverse := by simp
    rw [hrev, parseWords]
    refine ensure_bind_eq_ok.2 ⟨bne_iff_ne.2 hfile, ensure_bind_eq_ok.2 ⟨beq_self_eq_true _,
      ensure_bind_eq_ok.2 ⟨?_, ?_⟩⟩⟩
    · by_cases hmem : '*' ∈ rest
      · rw [hstar hmem, Bool.or_true]
      · simp [hmem]
    · rw [names.reverse_reverse]
      exact ensure_bind_eq_ok.2 ⟨hseparated, ensure_bind_eq_ok.2 ⟨by simpa using ⟨hcomma, hnames⟩, rfl⟩⟩

theorem parse_eq_ok_iff {text : List Char} {c : ImportClause} : parse text = .ok c ↔
    ∃ rest names file, text = keyword ++ rest ∧
      rest.splitOn ' ' = names ++ ["from".toList, file] ∧ file ≠ "from".toList ∧
      ('*' ∈ rest → asksForAll rest = true) ∧ isSeparated names = true ∧ ',' ∉ file ∧ names ≠ [] ∧
      c = ⟨selectionOf rest names, String.ofList file⟩ := by
  unfold parse
  cases hrest : keyword.isPrefixOf? text with
  | none =>
    refine iff_of_false (by simp) ?_
    rintro ⟨rest, -, -, htext, -⟩
    rw [List.isPrefixOf?_eq_some_iff_append_eq.2 htext.symm] at hrest
    cases hrest
  | some rest =>
    rw [List.isPrefixOf?_eq_some_iff_append_eq, eq_comm] at hrest
    simp only [parseWords_eq_ok_iff]
    constructor
    · rintro ⟨names, file, hparts⟩
      exact ⟨rest, names, file, hrest, hparts⟩
    · rintro ⟨rest', names, file, htext, hparts⟩
      obtain rfl : rest = rest' := List.append_cancel_left (hrest.symm.trans htext)
      exact ⟨names, file, hparts⟩

theorem isSeparated_concat (before : List (List Char)) (last : List Char) : isSeparated (before ++ [last]) = true ↔
    isPlain last = true ∧ ∀ w ∈ before, w.getLast? = some ',' ∧ isPlain w.dropLast = true := by
  simp [isSeparated]

/-! ## Statements for all macros -/

theorem asksForAll_iff {rest : List Char} :
    asksForAll rest = true ↔ ∃ file, rest = "* from ".toList ++ file ∧ '*' ∉ file := by
  unfold asksForAll
  cases htail : "* from ".toList.isPrefixOf? rest with
  | none =>
    refine iff_of_false (by simp) ?_
    rintro ⟨file, hrest, -⟩
    rw [List.isPrefixOf?_eq_some_iff_append_eq.2 hrest.symm] at htail
    cases htail
  | some file =>
    rw [List.isPrefixOf?_eq_some_iff_append_eq, eq_comm] at htail
    subst htail
    simp

theorem toList_render_all (file : String) :
    (render ⟨.all, file⟩).toList = keyword ++ ("* from ".toList ++ file.toList) := by
  have hfront : ("@import " ++ "*" ++ " from ").toList = keyword ++ "* from ".toList := by decide
  rw [render, String.toList_append, hfront, List.append_assoc]

/-- **A statement for all macros is read as one**, if its file can be written. -/
theorem parse_render_all {file : String} {c : ImportClause} : parse (render ⟨.all, file⟩).toList = .ok c ↔
    c = ⟨.all, file⟩ ∧ Unmarked file.toList ∧ file ≠ "from" := by
  have hsplit : ("* from ".toList ++ file.toList).splitOn ' ' = "*".toList :: "from".toList ::
      file.toList.splitOn ' ' := by
    have hfrom : ("from".toList ++ ' ' :: file.toList).splitOn ' ' = "from".toList :: file.toList.splitOn ' ' :=
      List.splitOn_append_cons_self_of_not_mem (by decide) _
    rw [← hfrom]
    show ("*".toList ++ ' ' :: ("from".toList ++ ' ' :: file.toList)).splitOn ' ' = _
    exact List.splitOn_append_cons_self_of_not_mem (by decide) _
  rw [parse_eq_ok_iff, toList_render_all]
  constructor
  · rintro ⟨rest, names, word, htext, hwords, hword, hstar, hseparated, hcomma, -, rfl⟩
    obtain rfl := List.append_cancel_left htext
    obtain ⟨file', hfile', hnostar⟩ := asksForAll_iff.1 (hstar (by simp))
    obtain rfl := List.append_cancel_left hfile'
    rw [hsplit] at hwords
    have hnames : names = ["*".toList] := by
      rcases names.eq_nil_or_concat with rfl | ⟨before, last, rfl⟩
      · cases hwords
      · rw [List.concat_eq_append] at hwords hseparated ⊢
        cases before with
        | nil => exact congrArg (fun w => [w]) (List.cons.inj hwords).1.symm
        | cons w before =>
          -- a word before the last would have a comma at its end
          obtain ⟨-, hbefore⟩ := (isSeparated_concat _ _).1 hseparated
          have hw := (hbefore w List.mem_cons_self).1
          rw [← (List.cons.inj hwords).1] at hw
          exact absurd hw (by decide)
    subst hnames
    have hfile : file.toList.splitOn ' ' = [word] := (List.cons.inj (List.cons.inj hwords).2).2
    have hjoin : [' '].intercalate (file.toList.splitOn ' ') = file.toList := List.intercalate_splitOn ' '
    rw [hfile, List.intercalate_singleton] at hjoin
    subst hjoin
    refine ⟨?_, unmarked_iff.2 ⟨Path.notMem_of_mem_splitOn (hfile ▸ List.mem_singleton_self _), hcomma, hnostar⟩,
      fun h => hword (congrArg String.toList h)⟩
    rw [selectionOf, if_pos (asksForAll_iff.2 ⟨_, rfl, hnostar⟩), String.ofList_toList]
  · rintro ⟨rfl, hfile, hfrom⟩
    obtain ⟨hblank, hcomma, hstar⟩ := unmarked_iff.1 hfile
    have hall : asksForAll ("* from ".toList ++ file.toList) = true := asksForAll_iff.2 ⟨_, rfl, hstar⟩
    refine ⟨_, ["*".toList], file.toList, rfl, ?_, fun h => hfrom (String.toList_inj.1 h),
      fun _ => hall, by decide, hcomma, by simp, ?_⟩
    · rw [hsplit, List.splitOn_eq_singleton hblank]
      rfl
    · rw [selectionOf, if_pos hall, String.ofList_toList]

/-! ## Statements with names -/

/-- Names with their commas, `from` and a file are the words of what is written for them. -/
theorem intercalate_names (before : List (List Char)) (last file : List Char) :
    [',', ' '].intercalate (before ++ [last]) ++ (" from ".toList ++ file) =
      [' '].intercalate (before.map (· ++ [',']) ++ [last] ++ ["from".toList, file]) := by
  induction before with
  | nil => simp [List.intercalate_cons_cons]
  | cons w before ih =>
    rw [List.cons_append, List.map_cons, List.cons_append, List.cons_append,
      List.intercalate_cons_of_ne_nil (by simp), List.intercalate_cons_of_ne_nil (by simp), ← ih]
    simp

/-- A character that is not in the separator comes from one of the words. -/
theorem mem_intercalate {c : Char} {sep : List Char} {ws : List (List Char)} (hsep : c ∉ sep) :
    c ∈ sep.intercalate ws ↔ ∃ w ∈ ws, c ∈ w := by
  induction ws with
  | nil => simp
  | cons w ws ih =>
    by_cases hne : ws = []
    · simp [hne]
    · rw [List.intercalate_cons_of_ne_nil hne, List.mem_append, List.mem_append, ih, List.exists_mem_cons_iff]
      simp [hsep]

theorem dropEndWhile_comma {w : List Char} (h : ',' ∉ w) :
    Text.dropEndWhile (· == ',') w = w ∧ Text.dropEndWhile (· == ',') (w ++ [',']) = w := by
  have hself : w.reverse.dropWhile (· == ',') = w.reverse := by
    cases hw : w.reverse with
    | nil => rfl
    | cons c rest =>
      have hc : c ≠ ',' := by
        rintro rfl
        exact h (List.mem_reverse.1 (hw ▸ List.mem_cons_self))
      rw [List.dropWhile_cons_of_neg (by simpa using hc)]
  unfold Text.dropEndWhile
  rw [List.reverse_append, List.reverse_singleton, List.singleton_append, List.dropWhile_cons_of_pos (by simp),
    hself, List.reverse_reverse]
  exact ⟨rfl, rfl⟩

theorem isPlain_of_unmarked {name : String} (h : name ≠ "" ∧ Unmarked name.toList) :
    isPlain name.toList = true := by
  have hne : name.toList ≠ [] := fun e => h.1 (String.toList_eq_nil_iff.1 e)
  simp [isPlain, hne, (unmarked_iff.1 h.2).2.1]

/-- The names of macros can be written. -/
theorem unmarked_of_isIdentifier {name : String} (h : isIdentifier name.toList = true) :
    name ≠ "" ∧ Unmarked name.toList := by
  have hchar : ∀ c : Char, (c.isLower || c.isDigit || c == '_') = true → isMark c = false := by
    intro c hc
    by_contra hmark
    rw [Bool.not_eq_false, isMark, Bool.or_eq_true, Bool.or_eq_true, beq_iff_eq, beq_iff_eq, beq_iff_eq] at hmark
    rcases hmark with (rfl | rfl) | rfl <;> exact absurd hc (by decide)
  cases hname : name.toList with
  | nil =>
    rw [hname] at h
    cases h
  | cons c cs =>
    rw [hname, isIdentifier, Bool.and_eq_true, List.all_eq_true] at h
    refine ⟨fun e => by simp [e] at hname, List.forall_mem_cons.2 ⟨hchar c ?_, fun d hd => hchar d (h.2 d hd)⟩⟩
    rcases Bool.or_eq_true_iff.1 h.1 with hc | hc
    · rw [hc, Bool.true_or, Bool.true_or]
    · rw [hc, Bool.or_true]

/-- Names with their commas, as they stand in a statement. -/
def withCommas (before : List String) (last : String) : List (List Char) :=
  before.map (fun n => n.toList ++ [',']) ++ [last.toList]

theorem toList_render_names (before : List String) (last file : String) :
    (render ⟨.names (before ++ [last]), file⟩).toList =
      keyword ++ [' '].intercalate (withCommas before last ++ ["from".toList, file.toList]) := by
  have hwords : withCommas before last = (before.map String.toList).map (· ++ [',']) ++ [last.toList] := by
    rw [withCommas, List.map_map]
    rfl
  rw [hwords, ← intercalate_names]
  simp only [render, String.toList_append, String.toList_intercalate, List.map_append, List.map_cons, List.map_nil,
    List.append_assoc]
  rfl

/-- Names are what is left of the words when the commas are gone. -/
theorem map_dropEndWhile_withCommas {before : List String} {last : String}
    (h : ∀ n ∈ before ++ [last], ',' ∉ n.toList) :
    (withCommas before last).map (fun w => String.ofList (Text.dropEndWhile (· == ',') w)) =
      before ++ [last] := by
  obtain ⟨hbefore, hlast⟩ := List.forall_mem_append.1 h
  rw [withCommas, List.map_append, List.map_map, List.map_singleton,
    (dropEndWhile_comma (hlast last List.mem_cons_self)).1, String.ofList_toList]
  congr 1
  refine (List.map_congr_left fun n hn => ?_).trans (List.map_id before)
  simp only [Function.comp_apply, (dropEndWhile_comma (hbefore n hn)).2, String.ofList_toList, id_eq]

/-- Separated words are names with their commas, and no name has one itself. -/
theorem exists_withCommas {words : List (List Char)} (hne : words ≠ []) (h : isSeparated words = true) :
    ∃ before last, words = withCommas before last ∧ ∀ n ∈ before ++ [last], n ≠ "" ∧ ',' ∉ n.toList := by
  obtain ⟨front, last, rfl⟩ : ∃ front last, words = front ++ [last] :=
    ⟨_, _, (List.dropLast_append_getLast hne).symm⟩
  obtain ⟨hlast, hfront⟩ := (isSeparated_concat front last).1 h
  have hplain : ∀ {w : List Char}, isPlain w = true → String.ofList w ≠ "" ∧ ',' ∉ (String.ofList w).toList := by
    intro w hw
    rw [isPlain, Bool.and_eq_true] at hw
    rw [String.toList_ofList, ne_eq, ← String.toList_eq_nil_iff, String.toList_ofList]
    simpa using hw
  refine ⟨front.map fun w => String.ofList w.dropLast, String.ofList last, ?_, ?_⟩
  · rw [withCommas, List.map_map, String.toList_ofList]
    congr 1
    refine ((List.map_congr_left fun w hw => ?_).trans (List.map_id front)).symm
    obtain ⟨w, rfl⟩ := List.getLast?_eq_some_iff.1 (hfront w hw).1
    simp
  · intro n hn
    simp only [List.mem_append, List.mem_map, List.mem_singleton] at hn
    rcases hn with ⟨w, hw, rfl⟩ | rfl
    · exact hplain (hfront w hw).2
    · exact hplain hlast

/-- **A statement with names is read back**, if names and file can be written. -/
theorem parse_render_names {names : List String} {file : String} (hnames : names ≠ [])
    (hname : ∀ n ∈ names, n ≠ "" ∧ Unmarked n.toList) (hfile : Unmarked file.toList) (hfrom : file ≠ "from") :
    parse (render ⟨.names names, file⟩).toList = .ok ⟨.names names, file⟩ := by
  obtain ⟨before, last, rfl⟩ : ∃ before last, names = before ++ [last] :=
    ⟨_, _, (List.dropLast_append_getLast hnames).symm⟩
  have hbefore : ∀ n ∈ before, n ≠ "" ∧ Unmarked n.toList := fun n hn => hname n (List.mem_append_left _ hn)
  have hlast := hname last (List.mem_append_right _ List.mem_cons_self)
  set rest := [' '].intercalate (withCommas before last ++ ["from".toList, file.toList])
  -- neither a blank nor a star stands in a word
  have hword : ∀ c, c = ' ' ∨ c = '*' → ∀ w ∈ withCommas before last ++ ["from".toList, file.toList], c ∉ w := by
    intro c hc w hw hcw
    have hmark : isMark c = true := by rcases hc with rfl | rfl <;> decide
    have hcomma : c ≠ ',' := by rcases hc with rfl | rfl <;> decide
    have hunmarked : ∀ {s : List Char}, Unmarked s → c ∉ s := fun hs h => by simp [hs c h] at hmark
    simp only [withCommas, List.mem_append, List.mem_map, List.mem_cons, List.not_mem_nil, or_false] at hw
    rcases hw with (⟨n, hn, rfl⟩ | rfl) | rfl | rfl
    · rcases List.mem_append.1 hcw with h | h
      · exact hunmarked (hbefore n hn).2 h
      · exact hcomma (List.mem_singleton.1 h)
    · exact hunmarked hlast.2 hcw
    · rcases hc with rfl | rfl <;> exact absurd hcw (by decide)
    · exact hunmarked hfile hcw
  have hstar : '*' ∉ rest := by
    rw [mem_intercalate (by decide)]
    rintro ⟨w, hw, hc⟩
    exact hword '*' (.inr rfl) w hw hc
  have hall : asksForAll rest = false := by
    by_contra hall
    obtain ⟨tail, htail, -⟩ := asksForAll_iff.1 (Bool.not_eq_false _ ▸ hall)
    exact hstar (htail ▸ by simp)
  refine parse_eq_ok_iff.2 ⟨rest, withCommas before last, file.toList, toList_render_names before last file,
    List.splitOn_intercalate ' ' (hword ' ' (.inl rfl)) (by simp), fun h => hfrom (String.toList_inj.1 h),
    fun h => absurd h hstar, ?_, (unmarked_iff.1 hfile).2.1, by simp [withCommas], ?_⟩
  · refine (isSeparated_concat _ _).2 ⟨isPlain_of_unmarked hlast, fun w hw => ?_⟩
    obtain ⟨n, hn, rfl⟩ := List.mem_map.1 hw
    rw [List.getLast?_concat, List.dropLast_concat]
    exact ⟨rfl, isPlain_of_unmarked (hbefore n hn)⟩
  · have hcommas : ∀ n ∈ before ++ [last], ',' ∉ n.toList := fun n hn => (unmarked_iff.1 (hname n hn).2).2.1
    rw [selectionOf, hall, String.ofList_toList]
    exact congrArg (fun ns => ImportClause.mk (.names ns) file) (map_dropEndWhile_withCommas hcommas).symm

/-! ## Exactly what can be written -/

/-- A statement that can be written: names and file have no blank, comma or star, there is a name, none is empty,
and the file is not `from`. -/
def Writable (c : ImportClause) : Prop :=
  (match c.selection with
    | .all => True
    | .names names => names ≠ [] ∧ ∀ n ∈ names, n ≠ "" ∧ Unmarked n.toList) ∧
  Unmarked c.file.toList ∧ c.file ≠ "from"

theorem parse_render {c : ImportClause} (h : c.Writable) : parse c.render.toList = .ok c := by
  obtain ⟨selection, file⟩ := c
  obtain ⟨hselection, hfile, hfrom⟩ := h
  cases selection with
  | all => exact parse_render_all.2 ⟨rfl, hfile, hfrom⟩
  | names names => exact parse_render_names hselection.1 hselection.2 hfile hfrom

/-- What is read can be written, and is what was written. -/
theorem render_of_parse {text : List Char} {c : ImportClause} (h : parse text = .ok c) :
    c.Writable ∧ c.render.toList = text := by
  obtain ⟨rest, words, word, rfl, hsplit, hfrom, hstar, hseparated, hcomma, hwords, hc⟩ := parse_eq_ok_iff.1 h
  by_cases hall : asksForAll rest = true
  · -- the text is a statement for all macros, whatever its words
    obtain ⟨tail, rfl, -⟩ := asksForAll_iff.1 hall
    obtain ⟨file, rfl⟩ : ∃ file : String, tail = file.toList := ⟨String.ofList tail, String.toList_ofList.symm⟩
    rw [← toList_render_all] at h ⊢
    obtain ⟨rfl, hfile, hfrom⟩ := parse_render_all.1 h
    exact ⟨⟨trivial, hfile, hfrom⟩, rfl⟩
  · obtain ⟨before, last, rfl, hnames⟩ := exists_withCommas hwords hseparated
    obtain ⟨file, rfl⟩ : ∃ file : String, word = file.toList := ⟨String.ofList word, String.toList_ofList.symm⟩
    have hcommas : ∀ n ∈ before ++ [last], ',' ∉ n.toList := fun n hn => (hnames n hn).2
    rw [selectionOf, if_neg hall, map_dropEndWhile_withCommas hcommas, String.ofList_toList] at hc
    subst hc
    have hrest : rest = [' '].intercalate (withCommas before last ++ ["from".toList, file.toList]) := by
      rw [← hsplit, List.intercalate_splitOn]
    -- a star in a word would be one in the text
    have hword : ∀ w ∈ withCommas before last ++ ["from".toList, file.toList], ' ' ∉ w ∧ '*' ∉ w := by
      intro w hw
      refine ⟨Path.notMem_of_mem_splitOn (hsplit ▸ hw), fun hmem => hall (hstar ?_)⟩
      rw [hrest, mem_intercalate (by decide)]
      exact ⟨w, hw, hmem⟩
    have hname : ∀ n ∈ before ++ [last], ' ' ∉ n.toList ∧ '*' ∉ n.toList := by
      intro n hn
      rcases List.mem_append.1 hn with hn | hn
      · have hmem : n.toList ++ [','] ∈ withCommas before last := List.mem_append_left _ (List.mem_map_of_mem hn)
        simpa using hword _ (List.mem_append_left _ hmem)
      · rw [List.mem_singleton.1 hn]
        exact hword _ (by simp [withCommas])
    obtain ⟨hblank, hnostar⟩ := hword file.toList (by simp)
    refine ⟨⟨⟨by simp, fun n hn => ⟨(hnames n hn).1, ?_⟩⟩, unmarked_iff.2 ⟨hblank, hcomma, hnostar⟩, ?_⟩, ?_⟩
    · exact unmarked_iff.2 ⟨(hname n hn).1, hcommas n hn, (hname n hn).2⟩
    · rintro rfl
      exact hfrom rfl
    · rw [toList_render_names, hrest]

/-- **Reading undoes writing.**  A text is read exactly if it is what is written for a statement that can be
written, and it is read as that statement; so no two such statements are written alike. -/
theorem parse_eq_ok_iff_writable (text : List Char) (c : ImportClause) :
    (parse text = .ok c ↔ c.Writable ∧ text = c.render.toList) ∧
      (c.Writable → ∀ c' : ImportClause, c'.Writable → c'.render = c.render → c' = c) := by
  refine ⟨⟨fun h => ?_, ?_⟩, fun h c' h' he => ?_⟩
  · obtain ⟨hc, htext⟩ := render_of_parse h
    exact ⟨hc, htext.symm⟩
  · rintro ⟨hc, rfl⟩
    exact parse_render hc
  · have hread := parse_render h'
    rw [he, parse_render h] at hread
    exact (Except.ok.inj hread).symm

/-- A macro may be called `from`. -/
theorem parse_eq_ok_iff_writable_from :
    Writable ⟨.names ["from", "jmp"], "lib"⟩ ∧
      parse "@import from, jmp from lib".toList = .ok ⟨.names ["from", "jmp"], "lib"⟩ ∧
      ∀ c' : ImportClause, c'.Writable → c'.render = "@import from, jmp from lib" →
        c' = ⟨.names ["from", "jmp"], "lib"⟩ := by
  have hwritable : Writable ⟨.names ["from", "jmp"], "lib"⟩ := by
    refine ⟨⟨by decide, ?_⟩, by decide, by decide⟩
    simp only [List.forall_mem_cons]
    decide
  have htext : "@import from, jmp from lib" = render ⟨.names ["from", "jmp"], "lib"⟩ := by decide
  obtain ⟨hread, hunique⟩ := parse_eq_ok_iff_writable "@import from, jmp from lib".toList
    ⟨.names ["from", "jmp"], "lib"⟩
  exact ⟨hwritable, hread.2 ⟨hwritable, congrArg String.toList htext⟩,
    fun c' hc' he => hunique hwritable c' hc' (he.trans htext)⟩

end ImportClause

end Abcout
