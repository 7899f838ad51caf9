import Abcout.Proofs.Listing
import Abcout.Proofs.Sites

/-!
# Abcout.Proofs.Numerals — a numeral among the operands of a line

Let a numeral stand in a clean line between `x` and `y`, with a space or a comma, or nothing, on both sides.  What
kind of line it is depends on `x` and `y` only (`Statement.parse_around`), and of the operands only one depends on
the numeral (`Operand.exists_parseList`).
-/

namespace Abcout

/-! ## Statements around a numeral -/

section Around

variable {x y : List Char}

/-- A word and a space stand at the front of a text with a numeral in it only if they stand before the numeral. -/
theorem word_prefix_iff {w : List Char} (hw : w.all (fun c => !Text.isSeparator c && !c.isDigit) = true)
    (hx : Text.EndsWith Text.isSeparator x) {c : Char} (hc : c.isDigit = true) (z : List Char) :
    w ++ [' '] <+: x ++ c :: z ↔ w ++ [' '] <+: x := by
  simp only [List.all_eq_true, Bool.and_eq_true, Bool.not_eq_true'] at hw
  refine ⟨fun h => ?_, fun h => h.trans (List.prefix_append x _)⟩
  rcases List.prefix_or_prefix_of_prefix h (List.prefix_append x (c :: z)) with hstart | hstart
  · exact hstart
  · rcases List.prefix_concat_iff.1 hstart with rfl | hinner
    · exact List.prefix_rfl
    · -- a separator would stand in the word, or the word would start with a digit
      rcases hx.eq_nil_or with rfl | ⟨a, d, hd, rfl⟩
      · cases w with
        | nil => exact absurd (List.cons_prefix_cons.1 h).1.symm (ne_of_isDigit hc (by decide))
        | cons e w =>
          rw [← (List.cons_prefix_cons.1 h).1, (hw e List.mem_cons_self).2] at hc
          cases hc
      · rw [(hw d (hinner.subset (by simp))).1] at hd
        cases hd

theorem Text.exists_append_eq_cons {D : List Char} (hD : isNumeral D = true) (y : List Char) :
    ∃ c z, c.isDigit = true ∧ ∀ x : List Char, x ++ D ++ y = x ++ c :: z := by
  obtain ⟨hne, hdigits⟩ := isNumeral_iff.1 hD
  obtain ⟨c, D, rfl⟩ := List.exists_cons_of_ne_nil hne
  exact ⟨c, D ++ y, hdigits c List.mem_cons_self, fun x => List.append_assoc _ _ _⟩

/-- The last character of a text with a numeral in it is a colon only if it stands behind the numeral. -/
theorem getLast?_eq_colon_iff {D : List Char} (hD : Text.isNumeral D = true) :
    (x ++ D ++ y).getLast? = some ':' ↔ y.getLast? = some ':' := by
  rcases List.eq_nil_or_concat' y with rfl | ⟨y, c, rfl⟩
  · obtain ⟨hne, hdigits⟩ := Text.isNumeral_iff.1 hD
    rw [List.append_nil, List.getLast?_append_of_ne_nil x hne]
    refine iff_of_false (fun h => ?_) (by simp)
    exact ne_of_isDigit (hdigits ':' (List.mem_of_getLast? h)) (by decide) rfl
  · rw [← List.append_assoc, List.getLast?_concat, List.getLast?_concat]

/-- The mnemonic stands before a numeral or nowhere. -/
theorem Source.exists_dropMnemonic (hx : Text.EndsWith Text.isSeparator x) (y : List Char) :
    ∃ x', Text.EndsWith Text.isSeparator x' ∧
      ∀ D, Text.isNumeral D = true → dropMnemonic (x ++ D ++ y) = x' ++ D ++ y := by
  have hmnemonic : (mnemonic ++ " ").toList = "abcout".toList ++ [' '] := by decide
  by_cases hfront : "abcout".toList ++ [' '] <+: x
  · obtain ⟨rest, rfl⟩ := hfront
    have hdrop : ∀ D, dropMnemonic ("abcout".toList ++ [' '] ++ rest ++ D ++ y) =
        if ("abcout".toList ++ [' '] ++ rest ++ D ++ y).getLast? = some ':' then
          "abcout".toList ++ [' '] ++ rest ++ D ++ y else rest ++ D ++ y := by
      intro D
      have hrest : (mnemonic ++ " ").toList.isPrefixOf? ("abcout".toList ++ [' '] ++ rest ++ D ++ y) =
          some (rest ++ D ++ y) := by
        rw [hmnemonic, List.isPrefixOf?_eq_some_iff_append_eq]
        simp only [List.append_assoc]
      rw [dropMnemonic, hrest]
    by_cases hlast : y.getLast? = some ':'
    · exact ⟨_, hx, fun D hD => by rw [hdrop, if_pos ((getLast?_eq_colon_iff hD).2 hlast)]⟩
    · exact ⟨rest, hx.of_append, fun D hD => by rw [hdrop, if_neg fun h => hlast ((getLast?_eq_colon_iff hD).1 h)]⟩
  · refine ⟨x, hx, fun D hD => ?_⟩
    obtain ⟨c, z, hc, happ⟩ := Text.exists_append_eq_cons hD y
    have hnone : (mnemonic ++ " ").toList.isPrefixOf? (x ++ c :: z) = none := by
      rw [hmnemonic, Option.eq_none_iff_forall_ne_some]
      intro rest hrest
      have hword : "abcout".toList ++ [' '] <+: x ++ c :: z :=
        ⟨rest, List.isPrefixOf?_eq_some_iff_append_eq.1 hrest⟩
      exact hfront ((word_prefix_iff (by decide) hx hc z).1 hword)
    rw [happ, dropMnemonic, hnone]

namespace Statement

/-- Whether a statement is an instruction or a call. -/
def takesOperands : Statement → Bool
  | .instruction _ => true
  | .call _ _ => true
  | _ => false

/-- An instruction or a call with other operands. -/
def withOperands (st : Statement) (ops : List Operand) : Statement :=
  match st with
  | .instruction _ => .instruction ops
  | .call name _ => .call name ops
  | s => s

theorem operands_withOperands {st : Statement} (h : st.takesOperands = true) (ops : List Operand) :
    (st.withOperands ops).operands = ops := by
  cases st with
  | instruction _ => rfl
  | call _ _ => rfl
  | _ => cases h

theorem withOperands_withOperands (st : Statement) (ops ops' : List Operand) :
    (st.withOperands ops).withOperands ops' = st.withOperands ops' := by
  cases st <;> rfl

theorem inFirstWord_eq (c : Char) : inFirstWord c = !Text.isSeparator c := by
  rw [inFirstWord, Text.isSeparator, Bool.not_or]
  rfl

/-- Whether a line is an instruction or a call, and what its operands are, is told before a numeral in it. -/
theorem parseCode_around (hx : Text.EndsWith Text.isSeparator x) :
    ∃ (st : Statement) (x' : List Char), st.takesOperands = true ∧ Text.EndsWith Text.isSeparator x' ∧
      ∀ (c : Char) (z : List Char), c.isDigit = true →
        parseCode (x ++ c :: z) = st.withOperands <$> Operand.parseList (x' ++ c :: z) := by
  by_cases hne : x = []
  · subst hne
    exact ⟨.instruction [], [], rfl, .nil, fun c z hc => parseCode_of_isDigit hc z⟩
  · -- the first word ends before the numeral
    have hrest : x.dropWhile inFirstWord ≠ [] := by
      obtain ⟨a, d, hd, rfl⟩ := hx.eq_nil_or.resolve_left hne
      rw [Text.dropWhile_append_cons (by rw [inFirstWord_eq, hd]; rfl)]
      simp
    have hends : Text.EndsWith Text.isSeparator (x.dropWhile inFirstWord) :=
      Text.EndsWith.of_append (a := x.takeWhile inFirstWord) (by rwa [List.takeWhile_append_dropWhile])
    have htake : ∀ z, (x ++ z).takeWhile inFirstWord = x.takeWhile inFirstWord := by
      intro z
      have hlength := congrArg List.length (x.takeWhile_append_dropWhile (p := inFirstWord))
      rw [List.length_append] at hlength
      have hpos := List.length_pos_iff.2 hrest
      rw [List.takeWhile_append, if_neg (by omega)]
    have hdrop : ∀ z, (x ++ z).dropWhile inFirstWord = x.dropWhile inFirstWord ++ z := by
      intro z
      rw [List.dropWhile_append, if_neg (by simpa using hrest)]
    by_cases hcall : (isIdentifier (x.takeWhile inFirstWord) && (x.dropWhile inFirstWord).head? != some ',') = true
    · refine ⟨.call (String.ofList (x.takeWhile inFirstWord)) [],
        (x.dropWhile inFirstWord).dropWhile Text.isBlank, rfl, ?_, fun c z hc => ?_⟩
      · exact Text.EndsWith.of_append (a := (x.dropWhile inFirstWord).takeWhile Text.isBlank)
          (by rwa [List.takeWhile_append_dropWhile])
      · simp only [parseCode, htake, hdrop, List.head?_append_of_ne_nil _ hrest, hcall, if_true]
        rw [Text.dropWhile_append_cons (isBlank_of_isDigit hc)]
        rfl
    · refine ⟨.instruction [], x, rfl, hx, fun c z hc => ?_⟩
      simp only [parseCode, htake, hdrop, List.head?_append_of_ne_nil _ hrest, hcall]
      rfl

/-- A line that starts with a percent sign is told before a numeral in it, too. -/
theorem parsePercent_around (hx : Text.EndsWith Text.isSeparator x) (hne : x ≠ []) :
    (∀ (c : Char) (z : List Char), c.isDigit = true →
      parsePercent (x ++ c :: z) = .instruction <$> Operand.parseList ('%' :: x ++ c :: z)) ∨
    ∀ (c : Char) (z : List Char), c.isDigit = true →
      ∃ st, parsePercent (x ++ c :: z) = .ok st ∧ st.takesOperands = false := by
  have hword : ∀ {w : List Char}, w.all (fun c => !c.isDigit) = true → ∀ (c : Char) (z : List Char),
      c.isDigit = true → x ++ c :: z ≠ w := by
    rintro w hw c z hc rfl
    rw [List.all_eq_true] at hw
    have hnot := hw c (by simp)
    rw [hc] at hnot
    cases hnot
  have hopening : ∀ (c : Char) (z : List Char), c.isDigit = true →
      ("macro ".toList.isPrefixOf (x ++ c :: z) = true ↔ "macro".toList ++ [' '] <+: x) := fun c z hc => by
    rw [ List.isPrefixOf_iff_prefix, ← word_prefix_iff (by decide) hx hc z]
    rfl
  have hdigit : ∀ z, Operand.startsWithDigit (x ++ z) = Operand.startsWithDigit x := by
    intro z
    obtain ⟨e, x, rfl⟩ := List.exists_cons_of_ne_nil hne
    rfl
  by_cases hopen : "macro".toList ++ [' '] <+: x
  · refine .inr fun c z hc => ⟨ofOpeningWords ((x ++ c :: z).splitOn ' '), ?_, ?_⟩
    · rw [parsePercent, if_neg (hword (by decide) c z hc), (hopening c z hc).2 hopen, Bool.or_true, if_pos rfl]
    · unfold ofOpeningWords
      split <;> rfl
  · have hplain : ∀ (c : Char) (z : List Char), c.isDigit = true → parsePercent (x ++ c :: z) =
        if Operand.startsWithDigit x then .instruction <$> Operand.parseList ('%' :: x ++ c :: z)
        else .ok .directive := by
      intro c z hc
      have hnot : ¬ (decide (x ++ c :: z = "macro".toList) || "macro ".toList.isPrefixOf (x ++ c :: z)) =
          true := by
        rw [Bool.or_eq_true, decide_eq_true_eq, hopening c z hc]
        exact not_or.2 ⟨hword (by decide) c z hc, hopen⟩
      rw [parsePercent, if_neg (hword (by decide) c z hc), if_neg hnot, hdigit]
      rfl
    by_cases hd : Operand.startsWithDigit x = true
    · exact .inl fun c z hc => by rw [hplain c z hc, if_pos hd]
    · exact .inr fun c z hc => ⟨.directive, by rw [hplain c z hc, if_neg hd], rfl⟩

/-- **Kinds of lines around a numeral**: with every numeral the line takes operands, or with none. -/
theorem parse_around (hx : Text.EndsWith Text.isSeparator x) (y : List Char) :
    (∃ (st : Statement) (x' : List Char), st.takesOperands = true ∧ Text.EndsWith Text.isSeparator x' ∧
      ∀ D, Text.isNumeral D = true → parse (x ++ D ++ y) = st.withOperands <$> Operand.parseList (x' ++ D ++ y)) ∨
    ∀ D, Text.isNumeral D = true → ∃ st, parse (x ++ D ++ y) = .ok st ∧ st.takesOperands = false := by
  by_cases hlast : y.getLast? = some ':'
  · refine .inr fun D hD => ⟨.label (String.ofList (x ++ D ++ y).dropLast), ?_, rfl⟩
    unfold parse
    rw [if_neg (by simp [(Text.isNumeral_iff.1 hD).1]), if_pos ((getLast?_eq_colon_iff hD).2 hlast)]
  · have hcons : ∀ D, Text.isNumeral D = true → ∃ c z, c.isDigit = true ∧
        (∀ x' : List Char, x' ++ D ++ y = x' ++ c :: z) ∧ (x ++ c :: z).getLast? ≠ some ':' := by
      intro D hD
      obtain ⟨c, z, hc, happ⟩ := Text.exists_append_eq_cons hD y
      refine ⟨c, z, hc, happ, ?_⟩
      rw [← happ, ne_eq, getLast?_eq_colon_iff hD]
      exact hlast
    cases x with
    | nil =>
      refine .inl ⟨.instruction [], [], rfl, .nil, fun D hD => ?_⟩
      obtain ⟨c, z, hc, hD, hcolon⟩ := hcons D hD
      rw [hD, List.nil_append, parse_of_isDigit hc hcolon]
      rfl
    | cons e x =>
      have hparse : ∀ {c : Char} {z : List Char}, (e :: x ++ c :: z).getLast? ≠ some ':' →
        parse (e :: x ++ c :: z) =
          if e = '@' then .ok .importing else if e = '%' then parsePercent (x ++ c :: z)
          else parseCode (e :: x ++ c :: z) :=
        parse_cons
      by_cases hat : e = '@'
      · refine .inr fun D hD => ⟨.importing, ?_, rfl⟩
        obtain ⟨c, z, -, hD, hcolon⟩ := hcons D hD
        rw [hD, hparse hcolon, if_pos hat]
      by_cases hpercent : e = '%'
      · subst hpercent
        have hne : x ≠ [] := by
          rintro rfl
          exact absurd (Text.endsWith_concat (s := []).1 hx) (by decide)
        rcases parsePercent_around (Text.EndsWith.of_append (a := ['%']) hx) hne with hall | hall
        · refine .inl ⟨.instruction [], '%' :: x, rfl, hx, fun D hD => ?_⟩
          obtain ⟨c, z, hc, hD, hcolon⟩ := hcons D hD
          rw [hD, hparse hcolon, if_neg hat, if_pos rfl, hall c z hc]
          rfl
        · refine .inr fun D hD => ?_
          obtain ⟨c, z, hc, hD, hcolon⟩ := hcons D hD
          rw [hD, hparse hcolon, if_neg hat, if_pos rfl]
          exact hall c z hc
      · obtain ⟨st, x', hst, hx', hcode⟩ := parseCode_around hx
        refine .inl ⟨st, x', hst, hx', fun D hD => ?_⟩
        obtain ⟨c, z, hc, hD, hcolon⟩ := hcons D hD
        rw [hD, hD, hparse hcolon, if_neg hat, if_neg hpercent, hcode c z hc]

end Statement

/-! ## Operands around a numeral -/

/-- The field between two commas that a numeral stands in, and the fields around it. -/
theorem exists_fields (x y : List Char) : ∃ before g h after, g <:+ x ∧ ',' ∉ g ∧ h <+: y ∧ ',' ∉ h ∧
    ∀ D : List Char, ',' ∉ D → (x ++ D ++ y).splitOn ',' = before ++ (g ++ D ++ h) :: after := by
  have hback : ∃ h after, h <+: y ∧ ',' ∉ h ∧
      ∀ s : List Char, ',' ∉ s → (s ++ y).splitOn ',' = (s ++ h) :: after := by
    by_cases hy : ',' ∈ y
    · obtain ⟨h, b, rfl, hh⟩ := List.eq_append_cons_of_mem hy
      refine ⟨h, b.splitOn ',', List.prefix_append h _, hh, fun s hs => ?_⟩
      rw [← List.append_assoc, List.splitOn_append_cons_self_of_not_mem (by simp [hs, hh])]
    · exact ⟨y, [], List.prefix_rfl, hy, fun s hs => List.splitOn_eq_singleton (by simp [hs, hy])⟩
  obtain ⟨h, after, hstart, hh, hsplit⟩ := hback
  by_cases hx : ',' ∈ x.reverse
  · obtain ⟨g, a, hrev, hg⟩ := List.eq_append_cons_of_mem hx
    have hxeq : x = a.reverse ++ ',' :: g.reverse := by
      rw [← x.reverse_reverse, hrev, List.reverse_append, List.reverse_cons, List.append_assoc,
        List.singleton_append]
    have hg' : ',' ∉ g.reverse := by simpa using hg
    refine ⟨a.reverse.splitOn ',', g.reverse, h, after, ?_, hg', hstart, hh, fun D hD => ?_⟩
    · exact ⟨a.reverse ++ [','], by rw [hxeq, List.append_assoc, List.singleton_append]⟩
    · rw [hxeq, List.append_assoc, List.append_assoc, List.cons_append,
        List.splitOn_append_cons_self, ← List.append_assoc, hsplit _ (by simp [hg', hD])]
  · have hx' : ',' ∉ x := by simpa using hx
    exact ⟨[], x, h, after, List.suffix_rfl, hx', hstart, hh, fun D hD => hsplit _ (by simp [hx', hD])⟩

theorem dropEndWhile_isPrefix (p : Char → Bool) (s : List Char) : Text.dropEndWhile p s <+: s := by
  rw [← List.reverse_suffix, Text.dropEndWhile, List.reverse_reverse]
  exact List.dropWhile_suffix p

theorem Operand.space_notMem_of_parseField {s : List Char} {op : Operand} (h : parseField s = .ok op) :
    ' ' ∉ Text.trim s := by
  intro hmem
  simp [parseField, hmem] at h

/-- A field that can be read has only blanks around a numeral: other text would be divided from it by a space. -/
theorem Operand.blanks_of_parseField {g D h : List Char} {op : Operand} (hg : Text.EndsWith Text.isSeparator g)
    (hg' : ',' ∉ g) (hh : Text.StartsWith Text.isSeparator h) (hh' : ',' ∉ h) (hD : Text.isNumeral D = true)
    (hop : parseField (g ++ D ++ h) = .ok op) : Text.Blanks g ∧ Text.Blanks h := by
  obtain ⟨hne, hdigits⟩ := Text.isNumeral_iff.1 hD
  have hspace := space_notMem_of_parseField hop
  rw [Text.trim_between hne fun c hc => isBlank_of_isDigit (hdigits c hc)] at hspace
  simp only [List.mem_append, not_or] at hspace
  have hseparator : ∀ {c : Char}, Text.isSeparator c = true → c ≠ ',' → c = ' ' := fun hc hne => by
    simpa [Text.isSeparator, hne] using hc
  constructor
  · obtain ⟨blanks, hsuffix⟩ := g.dropWhile_suffix Text.isBlank
    rw [← hsuffix] at hg hg'
    rcases hg.of_append.eq_nil_or with hnil | ⟨a, c, hc, heq⟩
    · exact List.dropWhile_eq_nil_iff.1 hnil
    · rw [heq] at hspace hg'
      obtain rfl := hseparator hc (by rintro rfl; simp at hg')
      simp at hspace
  · obtain ⟨blanks, hstart⟩ := dropEndWhile_isPrefix Text.isBlank h
    rw [← hstart] at hh hh'
    cases hend : Text.dropEndWhile Text.isBlank h with
    | nil =>
      intro c hc
      exact List.dropWhile_eq_nil_iff.1 (List.reverse_eq_nil_iff.1 hend) c (List.mem_reverse.2 hc)
    | cons c rest =>
      rw [hend] at hspace hh hh'
      obtain rfl := hseparator (Text.startsWith_cons.1 hh) (by rintro rfl; simp at hh')
      simp at hspace

/-- **Operands around a numeral**: if they can be read with one numeral, they can be read with another, and only
the operand at one index changes. -/
theorem Operand.exists_parseList {ops : List Operand} (hx : Text.EndsWith Text.isSeparator x)
    (hy : Text.StartsWith Text.isSeparator y) (h : parseList (x ++ ['0'] ++ y) = .ok ops) :
    ∃ k, ops[k]? = some (.number 0) ∧ ∀ D, Text.isNumeral D = true →
      parseList (x ++ D ++ y) = ops.set k <$> ofNat (Text.numeralValue D) := by
  obtain ⟨before, g, back, after, hg, hg', hback, hback', hsplit⟩ := exists_fields x y
  have hlist : ∀ D, Text.isNumeral D = true → parseList (x ++ D ++ y) = (do
      let ops₁ ← before.mapM parseField
      let op ← parseField (g ++ D ++ back)
      let ops₂ ← after.mapM parseField
      return ops₁ ++ op :: ops₂) := by
    intro D hD
    obtain ⟨hne, hdigits⟩ := Text.isNumeral_iff.1 hD
    rw [parseList, if_neg (by simp [hne]), hsplit D fun hmem => ne_of_isDigit (hdigits ',' hmem) (by decide) rfl,
      List.mapM_append, List.mapM_cons]
    simp only [bind_assoc, pure_bind]
  have hzero : Text.isNumeral ['0'] = true := by decide
  rw [hlist _ hzero] at h
  obtain ⟨ops₁, hops₁, h⟩ := bind_eq_ok.1 h
  obtain ⟨op, hop, h⟩ := bind_eq_ok.1 h
  obtain ⟨ops₂, hops₂, h⟩ := bind_eq_ok.1 h
  obtain rfl := pure_eq_ok.1 h
  -- the field is the numeral and blanks around it
  obtain ⟨front, rfl⟩ := hg
  obtain ⟨rest, rfl⟩ := hback
  obtain ⟨hblanks, hblanks'⟩ := blanks_of_parseField hx.of_append hg' hy.of_append hback' hzero hop
  have hfield : ∀ D, Text.isNumeral D = true → parseField (g ++ D ++ back) = ofNat (Text.numeralValue D) :=
    fun D hD =>
    parseField_blanks_numeral hD hblanks hblanks'
  refine ⟨ops₁.length, ?_, fun D hD => ?_⟩
  · have hvalue : ofNat (Text.numeralValue ['0']) = .ok (.number 0) := by decide
    rw [hfield _ hzero, hvalue] at hop
    cases hop
    rw [List.getElem?_append_right (Nat.le_refl _), Nat.sub_self]
    rfl
  · rw [hlist D hD, hops₁, hfield D hD, hops₂]
    cases ofNat (Text.numeralValue D) with
    | error e => rfl
    | ok op' =>
      show Except.ok (ops₁ ++ op' :: ops₂) = .ok ((ops₁ ++ op :: ops₂).set ops₁.length op')
      rw [List.set_append_right _ _ (Nat.le_refl _), Nat.sub_self, List.set_cons_zero]

end Around

end Abcout
