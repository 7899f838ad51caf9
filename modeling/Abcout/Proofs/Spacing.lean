import Abcout.Proofs.Reading

/-!
# Abcout.Proofs.Spacing — white space in a line

A delimiter ends a word when comments go and literals become decimal, and a blank does so in every step of
cleaning; so a line is cleaned by cleaning what stands before a blank and what stands behind it, unless a comment
has begun.  Hence blanks at the ends of a line, the kind and number of blanks between words, and comments do not
change what a line is cleaned to.
-/

namespace Abcout

/-- A text of white space only. -/
def Text.Blanks (w : List Char) : Prop := ∀ c ∈ w, isBlank c = true

namespace Text

-- over the characters of `w`, and not over all there are
instance (w : List Char) : Decidable (Blanks w) := List.decidableBAll (fun c => isBlank c = true) w

variable {d : Char} {w : List Char}

theorem words_append_cons (a b : List Char) (hd : isBlank d = true) :
    words (a ++ d :: b) = words a ++ words b := by
  unfold words
  rw [List.splitOnP_append_cons a b hd, List.filter_append]

end Text

namespace Source

variable {d : Char} {v w : List Char}

/-! ## Comments -/

theorem ne_of_isDelimiter (hd : isDelimiter d = true) {c : Char} (hc : isDelimiter c = false) : d ≠ c := by
  rintro rfl
  rw [hd] at hc
  cases hc

theorem isDelimiter_of_isBlank (hd : Text.isBlank d = true) : isDelimiter d = true := by
  rw [isDelimiter, hd, Bool.true_or]

theorem takeCodeAfter_append (done before s : List Char) :
    takeCodeAfter (done ++ before) s = before.reverse ++ takeCodeAfter done s := by
  fun_induction takeCodeAfter done s with
  | case1 done rest ih => rw [takeCodeAfter, ← ih, List.cons_append]
  | case2 done rest => rw [takeCodeAfter, List.reverse_append]
  | case3 done c rest hescape hcomment ih => rw [takeCodeAfter, ← ih, List.cons_append] <;> assumption
  | case4 done => rw [takeCodeAfter, List.reverse_append]

theorem takeCodeAfter_eq (done s : List Char) : takeCodeAfter done s = done.reverse ++ takeCode s :=
  takeCodeAfter_append [] done s

theorem takeCode_cons (hescape : d ≠ '\\') (hcomment : d ≠ ';') (s : List Char) :
    takeCode (d :: s) = d :: takeCode s := by
  rw [takeCode, takeCodeAfter, takeCodeAfter_eq]
  · rfl
  · exact fun _ he _ => hescape he
  · exact hcomment

theorem takeCode_cons_delimiter (hd : isDelimiter d = true) (s : List Char) :
    takeCode (d :: s) = d :: takeCode s :=
  takeCode_cons (ne_of_isDelimiter hd (by decide)) (ne_of_isDelimiter hd (by decide)) s

/-- Whether a comment begins in a text. -/
def hasComment : List Char → Bool
  | '\\' :: ';' :: rest => hasComment rest
  | ';' :: _ => true
  | _ :: rest => hasComment rest
  | [] => false

/-- What stands behind a delimiter is code as if it stood alone, unless a comment has begun before. -/
theorem takeCodeAfter_append_cons (done a b : List Char) (hd : isDelimiter d = true) :
    takeCodeAfter done (a ++ d :: b) =
      if hasComment a then takeCodeAfter done a else takeCodeAfter done a ++ d :: takeCode b := by
  fun_induction takeCodeAfter done a with
  | case1 done rest ih => rw [List.cons_append, List.cons_append, takeCodeAfter, ih, hasComment]
  | case2 done rest => rw [List.cons_append, takeCodeAfter, hasComment, if_pos rfl]
  | case3 done c rest hescape hcomment ih =>
    rw [List.cons_append, takeCodeAfter, ih, hasComment]
    · exact hescape
    · exact hcomment
    · -- no semicolon has come next to a backslash
      rintro rest' rfl he
      cases rest with
      | nil => exact ne_of_isDelimiter hd (by decide) (List.cons.inj he).1
      | cons x rest => exact hescape rest rfl (by rw [(List.cons.inj he).1])
    · exact hcomment
  | case4 done =>
    rw [List.nil_append, takeCodeAfter_eq, takeCode_cons_delimiter hd, hasComment, if_neg (by decide)]

theorem takeCode_append_cons (a b : List Char) (hd : isDelimiter d = true) :
    takeCode (a ++ d :: b) = if hasComment a then takeCode a else takeCode a ++ d :: takeCode b :=
  takeCodeAfter_append_cons [] a b hd

/-! ## Words -/

theorem spellDollar_append_cons (a b : List Char) (hd : isDelimiter d = true) :
    spellDollar (a ++ d :: b) = spellDollar a ++ d :: spellDollar b := by
  have hdollar : d ≠ '$' := ne_of_isDelimiter hd (by decide)
  simp [spellDollar, hdollar]

theorem Chunk.cons_append (c : Char) (cs : List Chunk) (d : Char) (ds : List Chunk) :
    Chunk.cons c (cs ++ .delimiter d :: ds) = Chunk.cons c cs ++ .delimiter d :: ds := by
  unfold Chunk.cons
  split_ifs
  · rfl
  · cases cs with
    | nil => rfl
    | cons chunk cs => cases chunk <;> rfl

theorem chunks_append_cons (a b : List Char) (hd : isDelimiter d = true) :
    chunks (a ++ d :: b) = chunks a ++ .delimiter d :: chunks b := by
  induction a with
  | nil => simp [chunks, Chunk.cons, hd]
  | cons c a ih =>
    show Chunk.cons c (chunks (a ++ d :: b)) = Chunk.cons c (chunks a) ++ _
    rw [ih, Chunk.cons_append]

theorem hexToDecimal_append_cons (a b : List Char) (hd : isDelimiter d = true) :
    hexToDecimal (a ++ d :: b) = (do return (← hexToDecimal a) ++ d :: (← hexToDecimal b)) := by
  unfold hexToDecimal
  rw [chunks_append_cons a b hd, List.mapM_append, List.mapM_cons]
  cases (chunks a).mapM Chunk.toDecimal with
  | error e => rfl
  | ok xs =>
    cases (chunks b).mapM Chunk.toDecimal with
    | error e => rfl
    | ok ys => simp [Chunk.toDecimal, bind, Except.bind, pure, Except.pure, Functor.map, Except.map]

/-- The words of a text, with hexadecimal literals made decimal. -/
def decimalWords (s : List Char) : Except Cause (List (List Char)) := Text.words <$> hexToDecimal (spellDollar s)

theorem decimalWords_append_cons (a b : List Char) (hd : Text.isBlank d = true) :
    decimalWords (a ++ d :: b) = (do return (← decimalWords a) ++ (← decimalWords b)) := by
  unfold decimalWords
  rw [spellDollar_append_cons a b (isDelimiter_of_isBlank hd),
    hexToDecimal_append_cons _ _ (isDelimiter_of_isBlank hd)]
  cases hexToDecimal (spellDollar a) with
  | error e => rfl
  | ok xs =>
    cases hexToDecimal (spellDollar b) with
    | error e => rfl
    | ok ys => exact congrArg Except.ok (Text.words_append_cons xs ys hd)

/-- The words of a line. -/
def codeWords (s : List Char) : Except Cause (List (List Char)) := decimalWords (takeCode s)

theorem clean_eq (s : List Char) : clean s = (fun ws => dropMnemonic (Text.unwords ws)) <$> codeWords s := by
  unfold clean codeWords decimalWords
  cases hexToDecimal (spellDollar (takeCode s)) <;> rfl

/-- **Words at a blank**: a comment has begun before it, or the words behind it are added to those before it. -/
theorem codeWords_append_cons (a : List Char) :
    (∀ d b, Text.isBlank d = true → codeWords (a ++ d :: b) = codeWords a) ∨
      ∀ d b, Text.isBlank d = true → codeWords (a ++ d :: b) = (do return (← codeWords a) ++ (← codeWords b)) := by
  unfold codeWords
  by_cases ha : hasComment a = true
  · exact .inl fun d b hd => by rw [takeCode_append_cons a b (isDelimiter_of_isBlank hd), if_pos ha]
  · refine .inr fun d b hd => ?_
    rw [takeCode_append_cons a b (isDelimiter_of_isBlank hd), if_neg ha, decimalWords_append_cons _ _ hd]

theorem codeWords_semicolon (c : List Char) : codeWords (';' :: c) = .ok [] := rfl

theorem codeWords_blanks_append (hw : Text.Blanks w) (s : List Char) : codeWords (w ++ s) = codeWords s := by
  induction w with
  | nil => rfl
  | cons d w ih =>
    obtain ⟨hd, hw⟩ := List.forall_mem_cons.1 hw
    have hfront := decimalWords_append_cons [] (takeCode (w ++ s)) hd
    rw [← ih hw, List.cons_append, codeWords, takeCode_cons_delimiter (isDelimiter_of_isBlank hd)]
    rw [List.nil_append] at hfront
    rw [hfront, codeWords]
    cases decimalWords (takeCode (w ++ s)) <;> rfl

theorem codeWords_blanks (hw : Text.Blanks w) : codeWords w = .ok [] := by
  rw [← List.append_nil w, codeWords_blanks_append hw]
  rfl

/-- Which blank it is does not matter. -/
theorem codeWords_congr (a : List Char) {d' : Char} {b b' : List Char} (hd : Text.isBlank d = true)
    (hd' : Text.isBlank d' = true) (h : codeWords b = codeWords b') :
    codeWords (a ++ d :: b) = codeWords (a ++ d' :: b') := by
  rcases codeWords_append_cons a with ha | ha
  · rw [ha d b hd, ha d' b' hd']
  · rw [ha d b hd, ha d' b' hd', h]

theorem codeWords_of_nil (a : List Char) {b : List Char} (hd : Text.isBlank d = true) (h : codeWords b = .ok []) :
    codeWords (a ++ d :: b) = codeWords a := by
  rcases codeWords_append_cons a with ha | ha
  · exact ha d b hd
  · rw [ha d b hd, h]
    cases codeWords a with
    | error e => rfl
    | ok ws => exact congrArg Except.ok (List.append_nil ws)

/-! ## Cleaning -/

theorem clean_blanks_append (hw : Text.Blanks w) (s : List Char) : clean (w ++ s) = clean s := by
  rw [clean_eq, clean_eq, codeWords_blanks_append hw]

theorem clean_append_blanks (s : List Char) (hw : Text.Blanks w) : clean (s ++ w) = clean s := by
  cases w with
  | nil => rw [List.append_nil]
  | cons d w =>
    obtain ⟨hd, hw⟩ := List.forall_mem_cons.1 hw
    rw [clean_eq, clean_eq, codeWords_of_nil s hd (codeWords_blanks hw)]

theorem clean_between (a b : List Char) (hv : Text.Blanks v) (hw : Text.Blanks w) (hv' : v ≠ []) (hw' : w ≠ []) :
    clean (a ++ v ++ b) = clean (a ++ w ++ b) := by
  obtain ⟨d, v, rfl⟩ := List.exists_cons_of_ne_nil hv'
  obtain ⟨e, w, rfl⟩ := List.exists_cons_of_ne_nil hw'
  obtain ⟨hd, hv⟩ := List.forall_mem_cons.1 hv
  obtain ⟨he, hw⟩ := List.forall_mem_cons.1 hw
  have htail : codeWords (v ++ b) = codeWords (w ++ b) := by
    rw [codeWords_blanks_append hv, codeWords_blanks_append hw]
  rw [List.append_assoc, List.append_assoc, List.cons_append, List.cons_append, clean_eq, clean_eq,
    codeWords_congr a hd he htail]

theorem clean_append_comment (s c : List Char) : clean (s ++ ' ' :: ';' :: c) = clean s := by
  rw [clean_eq, clean_eq, codeWords_of_nil s (by decide) (codeWords_semicolon c)]

theorem clean_blanks (hw : Text.Blanks w) : clean w = .ok [] := by
  rw [clean_eq, codeWords_blanks hw]
  rfl

theorem clean_blanks_comment (hw : Text.Blanks w) (c : List Char) : clean (w ++ ';' :: c) = .ok [] := by
  rw [clean_eq, codeWords_blanks_append hw, codeWords_semicolon]
  rfl

theorem clean_dropReturn (s : List Char) : clean (Text.dropReturn s) = clean s := by
  unfold Text.dropReturn
  split_ifs with h
  · obtain ⟨t, rfl⟩ := List.getLast?_eq_some_iff.1 h
    rw [List.dropLast_concat]
    exact (clean_append_blanks t (by decide)).symm
  · rfl

end Source

/-! ## Rows -/

namespace Text

/-- What stands between the line feeds of a text. -/
def rows (text : String) : List (List Char) := text.toList.splitOn '\n'

/-- Rows without the last one, if that is empty: no line stands there. -/
def kept (rows : List (List Char)) : List (List Char) := if rows.getLastD [] = [] then rows.dropLast else rows

theorem kept_singleton (r : List Char) : kept [r] = if r = [] then [] else [r] := rfl

theorem kept_cons_cons (r x : List Char) (rows : List (List Char)) :
    kept (r :: x :: rows) = r :: kept (x :: rows) := by
  unfold kept
  rw [List.getLastD_cons, List.getLastD_cons, List.getLastD_cons, List.dropLast_cons_cons]
  split_ifs <;> rfl

theorem kept_forall₂ {R : List Char → List Char → Prop} (hR : ∀ r r', R r r' → (r = [] ↔ r' = []))
    {rows rows' : List (List Char)} (h : List.Forall₂ R rows rows') : List.Forall₂ R (kept rows) (kept rows') := by
  induction h with
  | nil => exact .nil
  | @cons r r' rows rows' hr hrows ih =>
    cases hrows with
    | nil =>
      rw [kept_singleton, kept_singleton]
      by_cases hnil : r = []
      · rw [if_pos hnil, if_pos ((hR r r' hr).1 hnil)]
        exact .nil
      · rw [if_neg hnil, if_neg fun hnil' => hnil ((hR r r' hr).2 hnil')]
        exact .cons hr .nil
    | cons hx hrest =>
      rw [kept_cons_cons, kept_cons_cons]
      exact .cons hr ih

/-- Lines are the rows that are kept, up to what cleaning takes off. -/
theorem forall₂_lines_kept (text : String) :
    List.Forall₂ (fun line row => Source.clean line = Source.clean row) (lines text.toList)
      (kept (rows text)) := by
  have hreturn : ∀ rs : List (List Char),
      List.Forall₂ (fun line row => Source.clean line = Source.clean row) (rs.map dropReturn) rs := by
    intro rs
    rw [List.forall₂_map_left_iff, List.forall₂_same]
    exact fun r _ => Source.clean_dropReturn r
  unfold lines kept rows
  rcases List.eq_nil_or_concat (text.toList.splitOn '\n') with h | ⟨before, last, h⟩
  · rw [h]
    exact .nil
  · rw [h]
    simp only [List.concat_eq_append, List.dropLast_concat, List.getLastD_concat, List.isEmpty_iff]
    by_cases hlast : last = []
    · rw [if_pos hlast, if_pos hlast, List.append_nil]
      exact hreturn before
    · rw [if_neg hlast, if_neg hlast]
      exact List.rel_append (hreturn before) (.cons rfl .nil)

end Text

theorem Source.cleanLines_eq_kept (text : String) :
    cleanLines text = (Text.kept (Text.rows text)).mapM fun row => String.ofList <$> clean row := by
  have hrows := Text.forall₂_lines_kept text
  unfold cleanLines
  generalize Text.lines text.toList = lines, Text.kept (Text.rows text) = rows at hrows ⊢
  induction hrows with
  | nil => rfl
  | cons h _ ih => rw [List.mapM_cons, List.mapM_cons, h, ih]

namespace Line

/-- A row is cleaned to the text of a line, which says what the line says. -/
structure IsRead (row : List Char) (l : Line) : Prop where
  clean : Source.clean row = .ok l.text.toList
  parse : Statement.parse l.text.toList = .ok l.statement

variable {file text : String} {lines : List Line}

theorem ofList_clean_eq_ok {row : List Char} {s : String} :
    String.ofList <$> Source.clean row = .ok s ↔ Source.clean row = .ok s.toList := by
  rw [map_eq_ok]
  constructor
  · rintro ⟨cs, hcs, rfl⟩
    rw [hcs, String.toList_ofList]
  · exact fun h => ⟨s.toList, h, String.ofList_toList⟩

theorem cleanLines_of_readAll (h : readAll file text = .ok lines) :
    Source.cleanLines text = .ok (lines.map Line.text) := by
  unfold Source.cleanLines
  rw [mapM_eq_ok, List.forall₂_map_right_iff, ← List.zipIdx_map_fst 1 (Text.lines text.toList),
    List.forall₂_map_left_iff]
  refine (mapM_eq_ok.1 h).imp fun x l hread => ?_
  obtain ⟨cs, hcs, -, he⟩ := read_eq_ok_iff.1 hread
  rw [he]
  exact map_eq_ok.2 ⟨cs, hcs, rfl⟩

/-- **Reading by rows**: every row that is kept is read as a line. -/
theorem isRead_of_readAll (h : readAll file text = .ok lines) :
    List.Forall₂ IsRead (Text.kept (Text.rows text)) lines := by
  have hclean := cleanLines_of_readAll h
  rw [Source.cleanLines_eq_kept, mapM_eq_ok, List.forall₂_map_right_iff] at hclean
  have hboth := (List.forall₂_and_left _ _).2 ⟨faithful_of_readAll h, hclean.flip⟩
  exact hboth.flip.imp fun row l hl => ⟨ofList_clean_eq_ok.1 hl.2, hl.1⟩

theorem readAll_of_isRead (file : String) (h : List.Forall₂ IsRead (Text.kept (Text.rows text)) lines) :
    readAll file text = .ok (numbered file 1 lines) := by
  have hparse : ∀ l ∈ lines, Statement.parse l.text.toList = .ok l.statement :=
    ((List.forall₂_and_left _ _).1 (h.flip.imp fun l row hl => ⟨hl.parse, hl⟩)).1
  refine readAll_of_cleanLines file ?_ hparse
  rw [Source.cleanLines_eq_kept, mapM_eq_ok, List.forall₂_map_right_iff]
  exact h.imp fun row l hl => ofList_clean_eq_ok.2 hl.clean

end Line

end Abcout
