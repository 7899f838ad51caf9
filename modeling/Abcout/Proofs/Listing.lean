import Mathlib.Data.List.TakeWhile
import Abcout.Machine.Program
import Abcout.Proofs.Outcome
import Abcout.Source.Line

/-!
# Abcout.Proofs.Listing — the listing of a program, read as source

A listing has one line for each instruction: three numerals with a comma and a space between them.  Cleaning
changes nothing in such a line, and reading it gives the three numbers back, as far as they may be written.

* `Source.clean_render`: a line of a listing is clean already.
* `Statement.parse_render`: it reads as an instruction, unless a number is too large.
* `Line.readAll_listing`: which listings can be read, and what they are read as.
-/

namespace Abcout

/-! ## Cleaning -/

namespace Source

theorem takeCodeAfter_of_notMem {s : List Char} (h : ';' ∉ s) (done : List Char) :
    takeCodeAfter done s = done.reverse ++ s := by
  induction s generalizing done with
  | nil => simp [takeCodeAfter]
  | cons c s ih =>
    have hc : c ≠ ';' := fun e => h (e ▸ List.mem_cons_self)
    have hs : ';' ∉ s := fun hmem => h (List.mem_cons_of_mem _ hmem)
    have hrest : ∀ rest, s ≠ ';' :: rest := fun rest e => hs (e ▸ List.mem_cons_self)
    rw [takeCodeAfter, ih hs]
    · simp
    · exact fun rest _ e => hrest rest e
    · exact hc

theorem takeCode_of_notMem {s : List Char} (h : ';' ∉ s) : takeCode s = s := takeCodeAfter_of_notMem h []

theorem spellDollar_of_notMem {s : List Char} (h : '$' ∉ s) : spellDollar s = s := by
  induction s with
  | nil => rfl
  | cons c s ih =>
    have hc : c ≠ '$' := fun e => h (e ▸ List.mem_cons_self)
    have hs : '$' ∉ s := fun hmem => h (List.mem_cons_of_mem _ hmem)
    have hcons : spellDollar (c :: s) = (if c == '$' then ['0', 'x'] else [c]) ++ spellDollar s := rfl
    rw [hcons, ih hs, if_neg (by simpa using hc)]
    rfl

/-- The text of a chunk as it stands. -/
def Chunk.chars : Chunk → List Char
  | word w => w
  | delimiter c => [c]

/-- Chunks are the whole text. -/
theorem flatten_chunks (s : List Char) : ((chunks s).map Chunk.chars).flatten = s := by
  induction s with
  | nil => rfl
  | cons c s ih =>
    have hcons : chunks (c :: s) = Chunk.cons c (chunks s) := rfl
    rw [hcons]
    unfold Chunk.cons
    split_ifs
    · simp [Chunk.chars, ih]
    · split
      · rename_i w rest hw
        rw [hw] at ih
        simpa [Chunk.chars] using ih
      · simp [Chunk.chars, ih]

/-- A hexadecimal literal has an `x` in it. -/
theorem decimalWord_of_notMem {w : List Char} (h : 'x' ∉ w) : decimalWord w = .ok w := by
  unfold decimalWord
  split
  · simp at h
  · rfl

theorem hexToDecimal_of_notMem {s : List Char} (h : 'x' ∉ s) : hexToDecimal s = .ok s := by
  have hall : ∀ chunk ∈ chunks s, chunk.toDecimal = .ok chunk.chars := by
    intro chunk hchunk
    cases chunk with
    | delimiter c => rfl
    | word w =>
      refine decimalWord_of_notMem fun hx => h ?_
      rw [← flatten_chunks s]
      exact List.mem_flatten_of_mem (List.mem_map_of_mem hchunk) hx
  have hmap : (chunks s).mapM Chunk.toDecimal = .ok ((chunks s).map Chunk.chars) := by
    rw [mapM_eq_ok, List.forall₂_map_right_iff, List.forall₂_same]
    exact hall
  exact map_eq_ok.2 ⟨_, hmap, flatten_chunks s⟩

/-- Words, put one space apart, are read back. -/
theorem words_unwords {ws : List (List Char)} (h : ∀ w ∈ ws, w ≠ [] ∧ ∀ c ∈ w, Text.isBlank c = false) :
    Text.words (Text.unwords ws) = ws := by
  unfold Text.words Text.unwords
  induction ws with
  | nil => rfl
  | cons w ws ih =>
    obtain ⟨hne, hw⟩ := h w List.mem_cons_self
    have hws := ih fun v hv => h v (List.mem_cons_of_mem _ hv)
    have hkeep : ∀ vs, List.filter (!·.isEmpty) (w :: vs) = w :: List.filter (!·.isEmpty) vs := fun vs =>
      List.filter_cons_of_pos (by simpa using hne)
    cases ws with
    | nil => rw [List.intercalate_singleton, List.splitOnP_eq_singleton hw, hkeep, List.filter_nil]
    | cons v vs =>
      rw [List.intercalate_cons_cons, List.append_assoc, List.singleton_append,
        List.splitOnP_append_cons_of_forall_mem hw ' ' (by decide), hkeep, hws]

end Source

/-! ## Numerals -/

/-- The digits of a number, as a listing has them. -/
abbrev digits (n : Nat) : List Char := Nat.toDigits 10 n

theorem isDigit_of_mem_digits {n : Nat} {c : Char} (h : c ∈ digits n) : c.isDigit = true :=
  Nat.isDigit_of_mem_toDigits (by decide) (by decide) h

theorem ne_of_isDigit {c d : Char} (hc : c.isDigit = true) (hd : d.isDigit = false) : c ≠ d := by
  rintro rfl
  rw [hc] at hd
  cases hd

/-- A character that is no digit stands in no numeral. -/
theorem notMem_digits (n : Nat) {c : Char} (h : c.isDigit = false) : c ∉ digits n :=
  fun hmem => ne_of_isDigit (isDigit_of_mem_digits hmem) h rfl

theorem toNat_of_isDigit {c : Char} (h : c.isDigit = true) : 48 ≤ c.toNat ∧ c.toNat ≤ 57 := by
  simp only [Char.isDigit, Bool.and_eq_true, decide_eq_true_eq, UInt32.le_iff_toNat_le] at h
  exact h

/-- The characters from `!` to `~` are not blank. -/
theorem Text.isBlank_of_visible {c : Char} (hlow : 33 ≤ c.toNat) (hhigh : c.toNat ≤ 126) : isBlank c = false := by
  simp only [isBlank, blankRanges, List.any_cons, List.any_nil, Bool.or_eq_false_iff, Bool.and_eq_false_iff,
    decide_eq_false_iff_not, and_true]
  omega

theorem isBlank_of_isDigit {c : Char} (h : c.isDigit = true) : Text.isBlank c = false := by
  obtain ⟨hlow, hhigh⟩ := toNat_of_isDigit h
  exact Text.isBlank_of_visible (by omega) (by omega)

/-- A name does not start with a digit. -/
theorem isIdentifier_of_isDigit {c : Char} (h : c.isDigit = true) (cs : List Char) :
    isIdentifier (c :: cs) = false := by
  obtain ⟨-, hhigh⟩ := toNat_of_isDigit h
  have hlower : c.isLower = false := by
    rw [← Bool.not_eq_true]
    intro hl
    have hlow : 97 ≤ c.toNat := UInt32.le_iff_toNat_le.1 (of_decide_eq_true (Bool.and_eq_true_iff.1 hl).1)
    omega
  have hunder : (c == '_') = false := beq_eq_false_iff_ne.2 (ne_of_isDigit h (by decide))
  simp [isIdentifier, hlower, hunder]

/-- A numeral starts with a digit. -/
theorem exists_digits_eq_cons (n : Nat) : ∃ c rest, digits n = c :: rest ∧ c.isDigit = true := by
  cases hd : digits n with
  | nil => exact absurd hd Nat.toDigits_ne_nil
  | cons c rest =>
    refine ⟨c, rest, rfl, isDigit_of_mem_digits (n := n) ?_⟩
    rw [hd]
    exact List.mem_cons_self

namespace Text

theorem isNumeral_iff {s : List Char} : isNumeral s = true ↔ s ≠ [] ∧ ∀ c ∈ s, c.isDigit = true := by
  rw [isNumeral, Bool.and_eq_true, List.all_eq_true, Bool.not_eq_true', List.isEmpty_eq_false_iff]

section Trim

variable {p : Char → Bool} {c : Char}

theorem dropWhile_append_cons (hc : p c = false) (xs ys : List Char) :
    (xs ++ c :: ys).dropWhile p = xs.dropWhile p ++ c :: ys := by
  rw [List.dropWhile_append]
  split_ifs with hxs
  · rw [List.isEmpty_iff.1 hxs, List.nil_append, List.dropWhile_cons_of_neg (by simp [hc])]
  · rfl

theorem dropEndWhile_append_cons (hc : p c = false) (xs ys : List Char) :
    dropEndWhile p (xs ++ c :: ys) = xs ++ c :: dropEndWhile p ys := by
  unfold dropEndWhile
  rw [List.reverse_append, List.reverse_cons, List.append_assoc, List.singleton_append, dropWhile_append_cons hc,
    List.reverse_append, List.reverse_cons, List.reverse_reverse, List.append_assoc, List.singleton_append]

/-- White space is dropped from what stands around a word. -/
theorem trim_between {w : List Char} (hne : w ≠ []) (hw : ∀ c ∈ w, isBlank c = false) (front back : List Char) :
    trim (front ++ w ++ back) = front.dropWhile isBlank ++ w ++ dropEndWhile isBlank back := by
  have hstart : (front ++ w ++ back).dropWhile isBlank = front.dropWhile isBlank ++ w ++ back := by
    obtain ⟨c, w, rfl⟩ := List.exists_cons_of_ne_nil hne
    rw [List.append_assoc, List.cons_append, dropWhile_append_cons (hw c List.mem_cons_self), List.append_assoc,
      List.cons_append]
  rw [trim, hstart]
  obtain ⟨w, c, rfl⟩ := (List.eq_nil_or_concat' w).resolve_left hne
  have hc : isBlank c = false := hw c (by simp)
  rw [← List.append_assoc, List.append_assoc _ [c], List.singleton_append, dropEndWhile_append_cons hc,
    List.append_assoc _ [c], List.singleton_append]

end Trim

end Text

theorem isNumeral_digits (n : Nat) : Text.isNumeral (digits n) = true :=
  Text.isNumeral_iff.2 ⟨Nat.toDigits_ne_nil, fun _ hc => isDigit_of_mem_digits hc⟩

namespace Operand

/-- Reading a numeral only up to the cap changes neither the operand nor the fault. -/
theorem ofNat_numeralUpTo (s : List Char) : ofNat (Text.numeralUpTo (maxValue + 1) s) =
    ofNat (Text.numeralValue s) := by
  have h := Text.min_numeralUpTo (maxValue + 1) s
  unfold ofNat
  by_cases hle : Text.numeralValue s ≤ maxValue
  · have e : Text.numeralUpTo (maxValue + 1) s = Text.numeralValue s := by omega
    rw [e]
  · have hgt : ¬ Text.numeralUpTo (maxValue + 1) s ≤ maxValue := by omega
    rw [if_neg hle, if_neg hgt]

theorem parse_of_isDigit {c : Char} (hc : c.isDigit = true) (s : List Char) :
    parse (c :: s) = parseNumber (c :: s) := by
  unfold parse
  split
  · rename_i e
    exact absurd (List.cons.inj e).1 (ne_of_isDigit hc (by decide))
  · rename_i e
    exact absurd (List.cons.inj e).1 (ne_of_isDigit hc (by decide))
  · exact if_pos hc

/-- **Numerals**: decimal digits are read as the number that they stand for, if it may be written. -/
theorem parse_numeral {s : List Char} (h : Text.isNumeral s = true) : parse s = ofNat (Text.numeralValue s) := by
  obtain ⟨hne, hdigits⟩ := Text.isNumeral_iff.1 h
  obtain ⟨c, rest, rfl⟩ := List.exists_cons_of_ne_nil hne
  have hpoint : (c :: rest).contains '.' = false := by
    rw [← Bool.not_eq_true, List.contains_iff_mem]
    exact fun hmem => ne_of_isDigit (hdigits '.' hmem) (by decide) rfl
  rw [parse_of_isDigit (hdigits c List.mem_cons_self), parseNumber, hpoint, h, if_neg (by decide), if_pos rfl,
    ofNat_numeralUpTo]

/-- Blanks around a word do not count. -/
theorem parseField_blanks {front s back : List Char} (hne : s ≠ []) (hs : ∀ c ∈ s, Text.isBlank c = false)
    (hfront : ∀ c ∈ front, Text.isBlank c = true) (hback : ∀ c ∈ back, Text.isBlank c = true) :
    parseField (front ++ s ++ back) = parse s := by
  have hback' : Text.dropEndWhile Text.isBlank back = [] := by
    rw [Text.dropEndWhile, List.dropWhile_eq_nil_iff.2 fun c hc => hback c (List.mem_reverse.1 hc),
      List.reverse_nil]
  have htrim : Text.trim (front ++ s ++ back) = s := by
    rw [Text.trim_between hne hs, List.dropWhile_eq_nil_iff.2 hfront, hback', List.nil_append, List.append_nil]
  have hspace : s.contains ' ' = false := by
    rw [← Bool.not_eq_true, List.contains_iff_mem]
    exact fun hmem => absurd (hs ' ' hmem) (by decide)
  have hempty : s.isEmpty = false := by simpa using hne
  simp only [parseField, htrim, hspace, hempty, Bool.or_self, Bool.false_eq_true, if_false]

theorem parseField_blanks_numeral {front s back : List Char} (hs : Text.isNumeral s = true)
    (hfront : ∀ c ∈ front, Text.isBlank c = true) (hback : ∀ c ∈ back, Text.isBlank c = true) :
    parseField (front ++ s ++ back) = ofNat (Text.numeralValue s) := by
  obtain ⟨hne, hdigits⟩ := Text.isNumeral_iff.1 hs
  rw [parseField_blanks hne (fun c hc => isBlank_of_isDigit (hdigits c hc)) hfront hback, parse_numeral hs]

theorem parseField_blanks_digits {blanks : List Char} (h : ∀ c ∈ blanks, Text.isBlank c = true) (n : Nat) :
    parseField (blanks ++ digits n) = ofNat n := by
  have hfield := parseField_blanks_numeral (isNumeral_digits n) h (List.forall_mem_nil _)
  rw [List.append_nil] at hfield
  exact hfield.trans (congrArg ofNat Nat.ofDigitChars_ten_toDigits)

end Operand

/-! ## One line of a listing -/

namespace Instruction

variable (i : Instruction)

theorem toList_render :
    i.render.toList =
      digits i.a.toNat ++ ',' :: ' ' :: (digits i.b.toNat ++ ',' :: ' ' :: digits i.c.toNat) := by
  simp [render, Nat.toList_repr]

/-- A line of a listing has digits, commas and spaces only. -/
theorem notMem_render {c : Char} (hdigit : c.isDigit = false) (hcomma : c ≠ ',') (hspace : c ≠ ' ') :
    c ∉ i.render.toList := by
  rw [toList_render]
  simp [notMem_digits _ hdigit, hcomma, hspace]

/-- The words of a line of a listing. -/
theorem toList_render_eq_unwords :
    i.render.toList =
      Text.unwords [digits i.a.toNat ++ [','], digits i.b.toNat ++ [','], digits i.c.toNat] := by
  simp [toList_render, Text.unwords, List.intercalate_cons_cons]

/-- The fields of a line of a listing. -/
theorem toList_render_eq_intercalate :
    i.render.toList =
      [','].intercalate [digits i.a.toNat, [' '] ++ digits i.b.toNat, [' '] ++ digits i.c.toNat] := by
  simp [toList_render, List.intercalate_cons_cons]

/-- What a line of a listing says. -/
def operands : List Operand := [.number i.a, .number i.b, .number i.c]

/-- Whether all numbers of an instruction may be written. -/
def Writable : Prop :=
  i.a.toNat ≤ Operand.maxValue ∧ i.b.toNat ≤ Operand.maxValue ∧ i.c.toNat ≤ Operand.maxValue

end Instruction

theorem Source.clean_render (i : Instruction) : clean i.render.toList = .ok i.render.toList := by
  have hcode := takeCode_of_notMem (i.notMem_render (c := ';') (by decide) (by decide) (by decide))
  have hdollar := spellDollar_of_notMem (i.notMem_render (c := '$') (by decide) (by decide) (by decide))
  have hhex := hexToDecimal_of_notMem (i.notMem_render (c := 'x') (by decide) (by decide) (by decide))
  have hwords : Text.unwords (Text.words i.render.toList) = i.render.toList := by
    rw [i.toList_render_eq_unwords, words_unwords]
    have hblank : ∀ n, ∀ c ∈ digits n, Text.isBlank c = false := fun n c hc =>
      isBlank_of_isDigit (isDigit_of_mem_digits hc)
    have hcomma : ∀ n, ∀ c ∈ digits n ++ [','], Text.isBlank c = false := by
      intro n c hc
      rcases List.mem_append.1 hc with hc | hc
      · exact hblank n c hc
      · rw [List.mem_singleton.1 hc]
        decide
    simp only [List.forall_mem_cons]
    exact ⟨⟨by simp, hcomma _⟩, ⟨by simp, hcomma _⟩, ⟨by simp, hblank _⟩, by simp⟩
  have hdrop : dropMnemonic i.render.toList = i.render.toList := by
    obtain ⟨c, rest, hcons, hc⟩ := exists_digits_eq_cons i.a.toNat
    have hne : ('a' == c) = false := beq_eq_false_iff_ne.2 (ne_of_isDigit hc (by decide)).symm
    have hnone : (mnemonic ++ " ").toList.isPrefixOf? i.render.toList = none := by
      have hm : (mnemonic ++ " ").toList = 'a' :: "bcout ".toList := by decide
      rw [hm, i.toList_render, hcons, List.cons_append, List.isPrefixOf?, hne]
      rfl
    rw [dropMnemonic, hnone]
  simp only [clean, hcode, hdollar, hhex, bind, Except.bind, hwords, hdrop, pure, Except.pure]

/-- The operand for a word is the word itself, if it is not too large. -/
theorem Operand.ofNat_toNat_eq_ok {n : UInt16} {op : Operand} :
    ofNat n.toNat = .ok op ↔ n.toNat ≤ maxValue ∧ op = .number n := by
  unfold ofNat
  split_ifs with hle
  · rw [UInt16.ofNat_toNat]
    constructor
    · intro h
      cases h
      exact ⟨hle, rfl⟩
    · rintro ⟨-, rfl⟩
      rfl
  · constructor
    · intro h
      cases h
    · rintro ⟨h, -⟩
      exact absurd h hle

theorem Operand.parseList_render {i : Instruction} {ops : List Operand} :
    parseList i.render.toList = .ok ops ↔ i.Writable ∧ ops = i.operands := by
  have hne : i.render.toList.isEmpty = false := by simp [i.toList_render]
  have hcomma : ∀ n, ',' ∉ digits n := fun n => notMem_digits n (by decide)
  have hfields : i.render.toList.splitOn ',' =
      [digits i.a.toNat, [' '] ++ digits i.b.toNat, [' '] ++ digits i.c.toNat] := by
    rw [i.toList_render_eq_intercalate, List.splitOn_intercalate]
    · simp [hcomma]
    · simp
  have hspace : ∀ c ∈ [' '], Text.isBlank c = true := by
    intro c hc
    rw [List.mem_singleton.1 hc]
    decide
  have hfirst : ∀ n, parseField (digits n) = ofNat n := fun n =>
    parseField_blanks_digits (List.forall_mem_nil _) n
  rw [parseList, hne, if_neg (by decide), hfields, mapM_eq_ok]
  simp only [List.forall₂_cons_left_iff, List.forall₂_nil_left_iff, hfirst, parseField_blanks_digits hspace,
    ofNat_toNat_eq_ok]
  constructor
  · rintro ⟨_, _, ⟨ha, rfl⟩, ⟨_, _, ⟨hb, rfl⟩, ⟨_, _, ⟨hc, rfl⟩, rfl, rfl⟩, rfl⟩, rfl⟩
    exact ⟨⟨ha, hb, hc⟩, rfl⟩
  · rintro ⟨⟨ha, hb, hc⟩, rfl⟩
    exact ⟨_, _, ⟨ha, rfl⟩, ⟨_, _, ⟨hb, rfl⟩, ⟨_, _, ⟨hc, rfl⟩, rfl, rfl⟩, rfl⟩, rfl⟩

/-- A text that starts with a digit is no call: its first word is no name. -/
theorem Statement.parseCode_of_isDigit {c : Char} (hc : c.isDigit = true) (s : List Char) :
    parseCode (c :: s) = .instruction <$> Operand.parseList (c :: s) := by
  have hword : inFirstWord c = true := by
    simp only [inFirstWord, Bool.and_eq_true, bne_iff_ne]
    exact ⟨ne_of_isDigit hc (by decide), ne_of_isDigit hc (by decide)⟩
  have hname : isIdentifier ((c :: s).takeWhile inFirstWord) = false := by
    rw [List.takeWhile_cons_of_pos hword]
    exact isIdentifier_of_isDigit hc _
  simp only [parseCode, hname, Bool.false_and, Bool.false_eq_true, if_false]

theorem Statement.parse_cons {c : Char} {s : List Char} (hlast : (c :: s).getLast? ≠ some ':') : parse (c :: s) =
    if c = '@' then .ok .importing else if c = '%' then parsePercent s else parseCode (c :: s) := by
  unfold parse
  rw [if_neg (by simp), if_neg hlast]
  split
  · rename_i e
    cases e
    rfl
  · rename_i e
    cases e
    rfl
  · rename_i hat hpercent
    rw [if_neg fun h => hat s (by rw [h]), if_neg fun h => hpercent s (by rw [h])]

theorem Statement.parse_of_isDigit {c : Char} (hc : c.isDigit = true) {s : List Char}
    (hlast : (c :: s).getLast? ≠ some ':') : parse (c :: s) = .instruction <$> Operand.parseList (c :: s) := by
  rw [parse_cons hlast, if_neg (ne_of_isDigit hc (by decide)), if_neg (ne_of_isDigit hc (by decide)),
    parseCode_of_isDigit hc]

/-- A line of a listing is no label, no statement with a sign at the front, and no call. -/
theorem Statement.parse_render_eq (i : Instruction) :
    parse i.render.toList = .instruction <$> Operand.parseList i.render.toList := by
  have hlast : i.render.toList.getLast? ≠ some ':' := fun h =>
    i.notMem_render (c := ':') (by decide) (by decide) (by decide) (List.mem_of_getLast? h)
  obtain ⟨c, rest, hcons, hc⟩ := exists_digits_eq_cons i.a.toNat
  have hstart : ∃ later, i.render.toList = c :: later := ⟨_, by rw [i.toList_render, hcons, List.cons_append]⟩
  obtain ⟨later, hstart⟩ := hstart
  rw [hstart] at hlast ⊢
  exact parse_of_isDigit hc hlast

theorem Statement.parse_render {i : Instruction} {st : Statement} :
    parse i.render.toList = .ok st ↔ i.Writable ∧ st = .instruction i.operands := by
  rw [parse_render_eq, map_eq_ok]
  constructor
  · rintro ⟨ops, hops, rfl⟩
    obtain ⟨hw, rfl⟩ := Operand.parseList_render.1 hops
    exact ⟨hw, rfl⟩
  · rintro ⟨hw, rfl⟩
    exact ⟨_, Operand.parseList_render.2 ⟨hw, rfl⟩, rfl⟩

/-! ## The whole listing -/

/-- The line that an instruction of a listing is read as. -/
def Line.ofInstruction (file : String) (number : Nat) (i : Instruction) : Line :=
  { text := i.render, number, file, statement := .instruction i.operands }

/-- The lines that the listing of a program is read as. -/
def Program.lines (p : Program) (file : String) : List Line :=
  (p.zipIdx 1).map fun (i, number) => .ofInstruction file number i

theorem Line.read_render {file : String} {number : Nat} {i : Instruction} {line : Line} :
    read file number i.render.toList = .ok line ↔ i.Writable ∧ line = .ofInstruction file number i := by
  unfold read
  rw [mapError_eq_ok, Source.clean_render]
  simp only [bind_eq_ok, pure_eq_ok, Statement.parse_render, Except.ok.injEq, exists_eq_left']
  constructor
  · rintro ⟨_, ⟨hw, rfl⟩, rfl⟩
    exact ⟨hw, by simp [ofInstruction]⟩
  · rintro ⟨hw, rfl⟩
    exact ⟨_, ⟨hw, rfl⟩, by simp [ofInstruction]⟩

/-- A text up to its first line feed is its first line. -/
theorem Text.lines_append_cons {l : List Char} (h : '\n' ∉ l) (rest : List Char) :
    Text.lines (l ++ '\n' :: rest) = dropReturn l :: Text.lines rest := by
  obtain ⟨piece, pieces, hsplit⟩ := List.exists_cons_of_ne_nil (List.splitOn_ne_nil '\n' rest)
  unfold lines
  rw [List.splitOn_append_cons_self_of_not_mem h, hsplit]
  rfl

/-- Texts without line ends, each put on a line, are the first lines of what is written. -/
theorem Text.lines_flatMap_append {ls : List (List Char)} (h : ∀ l ∈ ls, '\n' ∉ l ∧ '\r' ∉ l) (rest : List Char) :
    Text.lines (ls.flatMap (· ++ ['\n']) ++ rest) = ls ++ Text.lines rest := by
  induction ls with
  | nil => rfl
  | cons l ls ih =>
    obtain ⟨⟨hfeed, hreturn⟩, hls⟩ := List.forall_mem_cons.1 h
    have hl : dropReturn l = l := if_neg fun hlast => hreturn (List.mem_of_getLast? hlast)
    rw [List.flatMap_cons, List.append_assoc, List.append_assoc, List.singleton_append, lines_append_cons hfeed,
      hl, ih hls, List.cons_append]

theorem Program.lines_listing_append (p : Program) (rest : List Char) :
    Text.lines (p.listing.toList ++ rest) = (p.map fun i => i.render.toList) ++ Text.lines rest := by
  have htext : p.listing.toList = (p.map fun i => i.render.toList).flatMap (· ++ ['\n']) := by
    simp [listing, String.toList_join, List.flatMap_map]
  rw [htext]
  refine Text.lines_flatMap_append (fun l hl => ?_) rest
  obtain ⟨i, -, rfl⟩ := List.mem_map.1 hl
  exact ⟨i.notMem_render (by decide) (by decide) (by decide), i.notMem_render (by decide) (by decide) (by decide)⟩

theorem Program.lines_listing (p : Program) : Text.lines p.listing.toList = p.map fun i => i.render.toList := by
  simpa [Text.lines] using p.lines_listing_append []

/-- **Listings that can be read**: those whose numbers may all be written.  Each line is read as its
instruction. -/
theorem Line.readAll_listing {file : String} {p : Program} {lines : List Line} :
    readAll file p.listing = .ok lines ↔ (∀ i ∈ p, i.Writable) ∧ lines = p.lines file := by
  unfold readAll Program.lines
  rw [p.lines_listing, mapM_eq_ok]
  generalize 1 = number
  induction p generalizing number lines with
  | nil => simp
  | cons i p ih =>
    simp only [List.map_cons, List.zipIdx_cons, List.forall₂_cons_left_iff, read_render, ih, List.forall_mem_cons]
    constructor
    · rintro ⟨_, _, ⟨hi, rfl⟩, ⟨hp, rfl⟩, rfl⟩
      exact ⟨⟨hi, hp⟩, rfl⟩
    · rintro ⟨⟨hi, hp⟩, rfl⟩
      exact ⟨_, _, ⟨hi, rfl⟩, ⟨hp, rfl⟩, rfl⟩

end Abcout
