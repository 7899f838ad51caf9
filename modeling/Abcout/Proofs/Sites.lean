import Abcout.Proofs.Spacing

/-!
# Abcout.Proofs.Sites — a word at its place in a row

A word with delimiters around it goes through cleaning by itself: the comment is told before it
(`Site.exists_code`), it is made decimal or refused as it stands (`exists_decimal`), and what stands around it is
put one space apart in the same way for all words (`Text.exists_spaced_front`, `Text.exists_spaced_back`).
-/

namespace Abcout

/-! ## Ends of texts -/

namespace Text

/-- A text that is empty or ends with a character of a kind. -/
def EndsWith (p : Char → Bool) (s : List Char) : Prop := ∀ c ∈ s.getLast?, p c = true

/-- A text that is empty or starts with a character of a kind. -/
def StartsWith (p : Char → Bool) (s : List Char) : Prop := ∀ c ∈ s.head?, p c = true

variable {p : Char → Bool} {s : List Char}

theorem EndsWith.nil : EndsWith p [] := fun _ h => by cases h

theorem StartsWith.nil : StartsWith p [] := fun _ h => by cases h

theorem endsWith_concat {c : Char} : EndsWith p (s ++ [c]) ↔ p c = true := by
  unfold EndsWith
  rw [List.getLast?_concat]
  simp

theorem startsWith_cons {c : Char} : StartsWith p (c :: s) ↔ p c = true := by simp [StartsWith]

theorem EndsWith.eq_nil_or (h : EndsWith p s) : s = [] ∨ ∃ a d, p d = true ∧ s = a ++ [d] := by
  rcases List.eq_nil_or_concat' s with rfl | ⟨a, d, rfl⟩
  · exact .inl rfl
  · exact .inr ⟨a, d, endsWith_concat.1 h, rfl⟩

theorem StartsWith.eq_nil_or (h : StartsWith p s) : s = [] ∨ ∃ d b, p d = true ∧ s = d :: b := by
  cases s with
  | nil => exact .inl rfl
  | cons d b => exact .inr ⟨d, b, startsWith_cons.1 h, rfl⟩

theorem EndsWith.of_append {a : List Char} (h : EndsWith p (a ++ s)) : EndsWith p s := by
  intro c hc
  exact h c (List.mem_getLast?_append_of_mem_getLast? hc)

theorem StartsWith.of_append {b : List Char} (h : StartsWith p (s ++ b)) : StartsWith p s := by
  cases s with
  | nil => exact .nil
  | cons c s => exact startsWith_cons.2 (startsWith_cons.1 h)

theorem EndsWith.append (h : EndsWith p s) (hs : s ≠ []) (a : List Char) : EndsWith p (a ++ s) := by
  intro c hc
  rw [List.getLast?_append_of_ne_nil a hs] at hc
  exact h c hc

end Text

/-! ## Places in a row -/

namespace Source

/-- A place for a word in the code of a row: between delimiters, or at an end, and before any comment. -/
structure Site (front back : List Char) : Prop where
  opens : Text.EndsWith isDelimiter front
  closes : Text.StartsWith (fun d => isDelimiter d || d == ';') back
  code : hasComment front = false

theorem hasComment_append_cons {d : Char} (a b : List Char) (hd : isDelimiter d = true) :
    hasComment (a ++ d :: b) = (hasComment a || hasComment b) := by
  have hcons : hasComment (d :: b) = hasComment b := by
    rw [hasComment]
    · exact fun rest he _ => ne_of_isDelimiter hd (by decide) he
    · exact ne_of_isDelimiter hd (by decide)
  fun_induction hasComment a with
  | case1 rest ih => rw [List.cons_append, List.cons_append, hasComment, ih]
  | case2 rest => rw [List.cons_append, hasComment, Bool.true_or]
  | case3 c rest hescape hcomment ih =>
    rw [List.cons_append, hasComment, ih]
    · rintro rest' rfl he
      cases rest with
      | nil => exact ne_of_isDelimiter hd (by decide) (List.cons.inj he).1
      | cons x rest => exact hescape rest rfl (by rw [(List.cons.inj he).1])
    · exact hcomment
  | case4 => rw [List.nil_append, hcons, Bool.false_or]

theorem takeCode_word_append {w : List Char} (hw : ∀ c ∈ w, c ≠ '\\' ∧ c ≠ ';') (s : List Char) :
    takeCode (w ++ s) = w ++ takeCode s := by
  induction w with
  | nil => rfl
  | cons c w ih =>
    obtain ⟨hc, hw⟩ := List.forall_mem_cons.1 hw
    rw [List.cons_append, takeCode_cons hc.1 hc.2, ih hw, List.cons_append]

theorem spellDollar_append (a b : List Char) : spellDollar (a ++ b) = spellDollar a ++ spellDollar b :=
  List.flatMap_append

theorem endsWith_spellDollar {s : List Char} (h : Text.EndsWith isDelimiter s) :
    Text.EndsWith isDelimiter (spellDollar s) := by
  rcases h.eq_nil_or with rfl | ⟨a, d, hd, rfl⟩
  · exact .nil
  · rw [spellDollar_append_cons a [] hd]
    exact Text.endsWith_concat.2 hd

theorem startsWith_spellDollar {s : List Char} (h : Text.StartsWith isDelimiter s) :
    Text.StartsWith isDelimiter (spellDollar s) := by
  rcases h.eq_nil_or with rfl | ⟨d, b, hd, rfl⟩
  · exact .nil
  · exact (spellDollar_append_cons [] b hd).symm ▸ Text.startsWith_cons.2 hd

/-- What stands around a site, with comments gone and dollar signs spelled out, is the same for all words. -/
theorem Site.exists_code {front back : List Char} (h : Site front back) :
    ∃ F B, Text.EndsWith isDelimiter F ∧ Text.StartsWith isDelimiter B ∧
      ∀ w : List Char, (∀ c ∈ w, c ≠ '\\' ∧ c ≠ ';') →
        spellDollar (takeCode (front ++ w ++ back)) = F ++ spellDollar w ++ B := by
  have hfront : ∃ F, Text.EndsWith isDelimiter F ∧ ∀ s, takeCode (front ++ s) = F ++ takeCode s := by
    rcases h.opens.eq_nil_or with rfl | ⟨a, d, hd, rfl⟩
    · exact ⟨[], .nil, fun s => rfl⟩
    · have hcode := h.code
      rw [hasComment_append_cons a [] hd, Bool.or_eq_false_iff] at hcode
      refine ⟨takeCode a ++ [d], Text.endsWith_concat.2 hd, fun s => ?_⟩
      rw [List.append_assoc, List.singleton_append, takeCode_append_cons a s hd, hcode.1, if_neg (by decide),
        List.append_assoc, List.singleton_append]
  have hback : Text.StartsWith isDelimiter (takeCode back) := by
    rcases h.closes.eq_nil_or with rfl | ⟨d, b, hd, rfl⟩
    · exact .nil
    · rcases Bool.or_eq_true_iff.1 hd with hd | hd
      · rw [takeCode_cons_delimiter hd]
        exact Text.startsWith_cons.2 hd
      · rw [beq_iff_eq.1 hd]
        exact .nil
  obtain ⟨F, hF, hcode⟩ := hfront
  refine ⟨spellDollar F, spellDollar (takeCode back), endsWith_spellDollar hF, startsWith_spellDollar hback,
    fun w hw => ?_⟩
  rw [List.append_assoc, hcode, takeCode_word_append hw, spellDollar_append, spellDollar_append, List.append_assoc]

/-! ## Literals made decimal -/

theorem chunks_word {w : List Char} (hne : w ≠ []) (hw : ∀ c ∈ w, isDelimiter c = false) :
    chunks w = [.word w] := by
  induction w with
  | nil => exact absurd rfl hne
  | cons c w ih =>
    obtain ⟨hc, hw⟩ := List.forall_mem_cons.1 hw
    have hcons : chunks (c :: w) = Chunk.cons c (chunks w) := rfl
    cases w with
    | nil => simp [chunks, Chunk.cons, hc]
    | cons d w => simp [hcons, ih (by simp) hw, Chunk.cons, hc]

theorem chunks_append_of_endsWith {a : List Char} (ha : Text.EndsWith isDelimiter a) (b : List Char) :
    chunks (a ++ b) = chunks a ++ chunks b := by
  rcases ha.eq_nil_or with rfl | ⟨a, d, hd, rfl⟩
  · rfl
  · rw [List.append_assoc, List.singleton_append, chunks_append_cons a b hd, chunks_append_cons a [] hd,
      List.append_assoc]
    rfl

theorem chunks_append_of_startsWith (a : List Char) {b : List Char} (hb : Text.StartsWith isDelimiter b) :
    chunks (a ++ b) = chunks a ++ chunks b := by
  rcases hb.eq_nil_or with rfl | ⟨d, b, hd, rfl⟩
  · rw [List.append_nil]
    exact (List.append_nil _).symm
  · rw [chunks_append_cons a b hd]
    exact congrArg (chunks a ++ ·) (chunks_append_cons [] b hd).symm

theorem hexToDecimal_append {a b : List Char} (h : chunks (a ++ b) = chunks a ++ chunks b) :
    hexToDecimal (a ++ b) = (do return (← hexToDecimal a) ++ (← hexToDecimal b)) := by
  unfold hexToDecimal
  rw [h, List.mapM_append]
  cases (chunks a).mapM Chunk.toDecimal with
  | error e => rfl
  | ok xs =>
    cases (chunks b).mapM Chunk.toDecimal with
    | error e => rfl
    | ok ys => simp [bind, Except.bind, pure, Except.pure, Functor.map, Except.map]

theorem hexToDecimal_word {w : List Char} (hne : w ≠ []) (hw : ∀ c ∈ w, isDelimiter c = false) :
    hexToDecimal w = decimalWord w := by
  unfold hexToDecimal
  rw [chunks_word hne hw, List.mapM_cons, List.mapM_nil]
  cases h : decimalWord w with
  | error e => simp [Chunk.toDecimal, h, bind, Except.bind, Functor.map, Except.map]
  | ok t => simp [Chunk.toDecimal, h, bind, Except.bind, pure, Except.pure, Functor.map, Except.map]

theorem endsWith_hexToDecimal {s x : List Char} (hs : Text.EndsWith isDelimiter s) (h : hexToDecimal s = .ok x) :
    Text.EndsWith isDelimiter x := by
  rcases hs.eq_nil_or with rfl | ⟨a, d, hd, rfl⟩
  · cases h
    exact .nil
  · rw [hexToDecimal_append_cons a [] hd] at h
    obtain ⟨x₁, -, h⟩ := bind_eq_ok.1 h
    cases h
    exact Text.endsWith_concat.2 hd

theorem startsWith_hexToDecimal {s y : List Char} (hs : Text.StartsWith isDelimiter s)
    (h : hexToDecimal s = .ok y) : Text.StartsWith isDelimiter y := by
  rcases hs.eq_nil_or with rfl | ⟨d, b, hd, rfl⟩
  · cases h
    exact .nil
  · have hsplit := hexToDecimal_append_cons [] b hd
    rw [List.nil_append, h] at hsplit
    obtain ⟨x₁, hx₁, hrest⟩ := bind_eq_ok.1 hsplit.symm
    obtain ⟨y₁, -, hy⟩ := bind_eq_ok.1 hrest
    cases hx₁
    cases hy
    exact Text.startsWith_cons.2 hd

/-- A word between delimiters is made decimal by itself, if what stands around it can be. -/
theorem exists_decimal {F B w₀ t : List Char} (hF : Text.EndsWith isDelimiter F)
    (hB : Text.StartsWith isDelimiter B) (hw₀ : w₀ ≠ [] ∧ ∀ c ∈ w₀, isDelimiter c = false)
    (h : hexToDecimal (F ++ w₀ ++ B) = .ok t) : ∃ x y, Text.EndsWith isDelimiter x ∧
      Text.StartsWith isDelimiter y ∧ ∀ w : List Char, w ≠ [] → (∀ c ∈ w, isDelimiter c = false) →
        hexToDecimal (F ++ w ++ B) = (fun D => x ++ D ++ y) <$> decimalWord w := by
  have hsplit : ∀ w : List Char, w ≠ [] → (∀ c ∈ w, isDelimiter c = false) →
      hexToDecimal (F ++ w ++ B) = (do return (← hexToDecimal F) ++ (← decimalWord w) ++ (← hexToDecimal B)) := by
    intro w hne hw
    rw [List.append_assoc, hexToDecimal_append (chunks_append_of_endsWith hF _),
      hexToDecimal_append (chunks_append_of_startsWith w hB), hexToDecimal_word hne hw]
    cases hexToDecimal F with
    | error e => rfl
    | ok x =>
      cases decimalWord w with
      | error e => rfl
      | ok D =>
        cases hexToDecimal B with
        | error e => rfl
        | ok y => exact congrArg Except.ok (List.append_assoc x D y).symm
  rw [hsplit w₀ hw₀.1 hw₀.2] at h
  obtain ⟨x, hx, h⟩ := bind_eq_ok.1 h
  obtain ⟨D₀, -, h⟩ := bind_eq_ok.1 h
  obtain ⟨y, hy, -⟩ := bind_eq_ok.1 h
  refine ⟨x, y, endsWith_hexToDecimal hF hx, startsWith_hexToDecimal hB hy, fun w hne hw => ?_⟩
  rw [hsplit w hne hw, hx, hy]
  cases decimalWord w <;> rfl

end Source

namespace Text

/-! ## Words, one space apart -/

/-- The words of a text with one space between them. -/
def spaced (s : List Char) : List Char := unwords (words s)

/-- A space or a comma: what divides a text whose words stand one space apart. -/
def isSeparator (c : Char) : Bool := c == ' ' || c == ','

theorem unwords_cons_cons (a : Char) (w : List Char) (ws : List (List Char)) :
    unwords ((a :: w) :: ws) = a :: unwords (w :: ws) := by
  cases ws with
  | nil => simp [unwords]
  | cons v ws => simp [unwords, List.intercalate_cons_cons]

theorem words_word {w : List Char} (hne : w ≠ []) (hw : ∀ c ∈ w, isBlank c = false) : words w = [w] := by
  rw [words, List.splitOnP_eq_singleton hw, List.filter_cons_of_pos (by simpa using hne), List.filter_nil]

variable {a b c : Char}

theorem words_cons_blank (hb : isBlank b = true) (s : List Char) : words (b :: s) = words s :=
    words_append_cons [] s hb

/-- A character before a word belongs to it. -/
theorem words_cons_cons (ha : isBlank a = false) (hc : isBlank c = false) (s : List Char) :
    ∃ w ws, words (c :: s) = (c :: w) :: ws ∧ words (a :: c :: s) = (a :: c :: w) :: ws := by
  obtain ⟨w, ws, hs⟩ := List.exists_cons_of_ne_nil (List.splitOnP_ne_nil isBlank s)
  refine ⟨w, ws.filter (!·.isEmpty), ?_, ?_⟩
  · simp [words, List.splitOnP_cons_eq_if_modifyHead, hc, hs]
  · simp [words, List.splitOnP_cons_eq_if_modifyHead, ha, hc, hs]

theorem spaced_cons_cons (ha : isBlank a = false) (hc : isBlank c = false) (s : List Char) :
    spaced (a :: c :: s) = a :: spaced (c :: s) := by
  obtain ⟨w, ws, hcs, hacs⟩ := words_cons_cons ha hc s
  rw [spaced, spaced, hcs, hacs, unwords_cons_cons]

theorem startsWith_spaced (hc : isBlank c = false) (s : List Char) : ∃ w, spaced (c :: s) = c :: w := by
  obtain ⟨w, ws, hcs, -⟩ := words_cons_cons hc hc s
  rw [spaced, hcs, unwords_cons_cons]
  exact ⟨_, rfl⟩

theorem isSeparator_of_isDelimiter (hc : Source.isDelimiter c = true) (hblank : isBlank c = false) :
    isSeparator c = true := by
  rw [Source.isDelimiter, hblank, Bool.false_or] at hc
  rw [isSeparator, hc, Bool.or_true]

theorem spaced_cons_blank (ha : isBlank a = false) (hb : isBlank b = true) {s : List Char} (hs : spaced s ≠ []) :
    spaced (a :: b :: s) = a :: ' ' :: spaced s := by
  have hwords : words (a :: b :: s) = [a] :: words s := by
    have hword : words [a] = [[a]] := words_word (by simp) (by simpa using ha)
    rw [← List.singleton_append, words_append_cons [a] s hb, hword, List.singleton_append]
  obtain ⟨w, ws, hcons⟩ : ∃ w ws, words s = w :: ws := by
    refine List.exists_cons_of_ne_nil fun hnil => hs ?_
    rw [spaced, hnil]
    rfl
  rw [spaced, spaced, hwords, hcons, unwords_cons_cons]
  simp [unwords, List.intercalate_cons_cons]

/-- What stands before a word is put one space apart in the same way for all words. -/
theorem exists_spaced_front {x : List Char} (hx : EndsWith Source.isDelimiter x) :
    ∃ X, EndsWith isSeparator X ∧ (X = [] → Blanks x) ∧
      ∀ c s, isBlank c = false → spaced (x ++ c :: s) = X ++ spaced (c :: s) := by
  induction x with
  | nil => exact ⟨[], .nil, fun _ => List.forall_mem_nil _, fun c s _ => rfl⟩
  | cons a x ih =>
    obtain ⟨X, hX, hnil, hspaced⟩ := ih (EndsWith.of_append (a := [a]) hx)
    by_cases ha : isBlank a = true
    · -- nothing is left of a blank at the front
      refine ⟨X, hX, fun h => List.forall_mem_cons.2 ⟨ha, hnil h⟩, fun c s hc => ?_⟩
      rw [List.cons_append, spaced, words_cons_blank ha]
      exact hspaced c s hc
    · rw [Bool.not_eq_true] at ha
      cases x with
      | nil =>
        have hsep := isSeparator_of_isDelimiter (endsWith_concat (s := []).1 hx) ha
        exact ⟨[a], endsWith_concat (s := []).2 hsep, fun h => (by cases h),
          fun c s hc => spaced_cons_cons ha hc s⟩
      | cons b x =>
        by_cases hb : isBlank b = true
        · refine ⟨a :: ' ' :: X, ?_, fun h => (by cases h), fun c s hc => ?_⟩
          · rcases hX.eq_nil_or with rfl | ⟨X, d, hd, rfl⟩
            · exact endsWith_concat (s := [a]).2 rfl
            · exact endsWith_concat (s := a :: ' ' :: X).2 hd
          · have hrest : spaced (x ++ c :: s) = X ++ spaced (c :: s) := by
              rw [← hspaced c s hc, List.cons_append, spaced, spaced, words_cons_blank hb]
            obtain ⟨w, hw⟩ := startsWith_spaced hc s
            rw [List.cons_append, List.cons_append, spaced_cons_blank ha hb (by simp [hrest, hw]), hrest]
            rfl
        · rw [Bool.not_eq_true] at hb
          have hne : X ≠ [] := fun h => by
            rw [(List.forall_mem_cons.1 (hnil h)).1] at hb
            cases hb
          refine ⟨a :: X, hX.append hne [a], fun h => (by cases h), fun c s hc => ?_⟩
          rw [List.cons_append, List.cons_append, spaced_cons_cons ha hb]
          exact congrArg (a :: ·) (hspaced c s hc)

theorem spaced_word_append {w : List Char} (hw : ∀ c ∈ w, isBlank c = false) (hc : isBlank c = false)
    (s : List Char) : spaced (w ++ c :: s) = w ++ spaced (c :: s) := by
  induction w with
  | nil => rfl
  | cons a w ih =>
    obtain ⟨ha, hw⟩ := List.forall_mem_cons.1 hw
    rw [List.cons_append, List.cons_append, ← ih hw]
    cases w with
    | nil => exact spaced_cons_cons ha hc s
    | cons b w => exact spaced_cons_cons ha (hw b List.mem_cons_self) _

/-- What stands behind a word is put one space apart in the same way for all words. -/
theorem exists_spaced_back {y : List Char} (hy : StartsWith Source.isDelimiter y) :
    ∃ Y, StartsWith isSeparator Y ∧ ∀ w : List Char, w ≠ [] → (∀ c ∈ w, isBlank c = false) →
      spaced (w ++ y) = w ++ Y := by
  rcases hy.eq_nil_or with rfl | ⟨d, b, hd, rfl⟩
  · refine ⟨[], .nil, fun w hne hw => ?_⟩
    rw [List.append_nil, spaced, words_word hne hw]
    simp [unwords]
  · by_cases hblank : isBlank d = true
    · have hwords : ∀ w : List Char, w ≠ [] → (∀ c ∈ w, isBlank c = false) →
          words (w ++ d :: b) = w :: words b := by
        intro w hne hw
        rw [words_append_cons w b hblank, words_word hne hw, List.singleton_append]
      cases hb : words b with
      | nil =>
        refine ⟨[], .nil, fun w hne hw => ?_⟩
        rw [spaced, hwords w hne hw, hb]
        simp [unwords]
      | cons v vs =>
        refine ⟨' ' :: unwords (v :: vs), startsWith_cons.2 rfl, fun w hne hw => ?_⟩
        rw [spaced, hwords w hne hw, hb]
        simp [unwords, List.intercalate_cons_cons]
    · rw [Bool.not_eq_true] at hblank
      refine ⟨spaced (d :: b), ?_, fun w _ hw => spaced_word_append hw hblank b⟩
      obtain ⟨w, hw⟩ := startsWith_spaced hblank b
      rw [hw]
      exact startsWith_cons.2 (isSeparator_of_isDelimiter hd hblank)

end Text

end Abcout
