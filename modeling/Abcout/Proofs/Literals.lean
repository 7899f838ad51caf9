import Abcout.Proofs.Numerals

/-!
# Abcout.Proofs.Literals — numbers in a row, whatever their base and length

A hexadecimal literal is made decimal before words are put apart, and a decimal one is read behind that; each way
has its own test for numbers that are too large.  Both come to the same.

* `Text.Literal lit v`: `lit` is decimal digits, or `$` or `0x` and hexadecimal digits, and `v` is the number they
  stand for by their places.
* `Statement.ofRow_literal`: if a row says an instruction or a call with `0` at a site (`Source.Site`), then with
  any other literal it says the same with one operand changed to the value of the literal, or it is refused because
  the value is too large.
-/

namespace Abcout

/-! ## Values -/

namespace Text

/-- The number that digits stand for by their places. -/
def placeValue (base : Nat) : List Char → Nat
  | [] => 0
  | c :: rest => hexDigitValue c * Nat.pow base rest.length + placeValue base rest

/-- A literal, and the number it stands for. -/
inductive Literal : List Char → Nat → Prop
  | decimal {d : List Char} (hd : isNumeral d = true) : Literal d (placeValue 10 d)
  | dollar {h : List Char} (hh : isHexNumeral h = true) : Literal ('$' :: h) (placeValue 16 h)
  | hex {h : List Char} (hh : isHexNumeral h = true) : Literal ('0' :: 'x' :: h) (placeValue 16 h)

theorem foldl_eq_placeValue (base : Nat) (s : List Char) (n : Nat) :
    s.foldl (fun n c => base * n + hexDigitValue c) n = Nat.pow base s.length * n + placeValue base s := by
  induction s generalizing n with
  | nil => simp [placeValue]
  | cons c s ih =>
    have hpow : Nat.pow base (s.length + 1) = Nat.pow base s.length * base := rfl
    rw [List.foldl_cons, ih, placeValue, List.length_cons, hpow, Nat.mul_add, Nat.mul_assoc, Nat.add_assoc,
      Nat.mul_comm (hexDigitValue c)]

theorem hexValue_eq_placeValue (s : List Char) : hexValue s = placeValue 16 s := by
  rw [hexValue, foldl_eq_placeValue, Nat.mul_zero, Nat.zero_add]

theorem numeralValue_eq_placeValue {s : List Char} (h : isNumeral s = true) :
    numeralValue s = placeValue 10 s := by
  obtain ⟨-, hdigits⟩ := isNumeral_iff.1 h
  have hfold : s.foldl (fun n c => 10 * n + (c.toNat - '0'.toNat)) 0 =
      s.foldl (fun n c => 10 * n + hexDigitValue c) 0 := by
    refine List.foldl_ext _ _ _ fun n c hc => ?_
    rw [hexDigitValue, if_pos (hdigits c hc)]
  rw [numeralValue, Nat.ofDigitChars, hfold, foldl_eq_placeValue, Nat.mul_zero, Nat.zero_add]

end Text

/-! ## Literals -/

namespace Text

theorem ne_of_isHexDigit {c d : Char} (hc : isHexDigit c = true) (hd : isHexDigit d = false) : c ≠ d := by
  rintro rfl
  rw [hc] at hd
  cases hd

theorem isDelimiter_of_isHexDigit {c : Char} (h : isHexDigit c = true) : Source.isDelimiter c = false := by
  have hrange : (48 ≤ c.toNat ∧ c.toNat ≤ 57) ∨ (97 ≤ c.toNat ∧ c.toNat ≤ 102) ∨
      (65 ≤ c.toNat ∧ c.toNat ≤ 70) := by
    simp only [isHexDigit, Bool.or_eq_true, Bool.and_eq_true, decide_eq_true_eq, Char.le_def,
      UInt32.le_iff_toNat_le] at h
    rcases h with (h | h) | h
    · exact .inl (toNat_of_isDigit h)
    · exact .inr (.inl h)
    · exact .inr (.inr h)
  have hblank : isBlank c = false := by
    simp only [isBlank, blankRanges, List.any_cons, List.any_nil, Bool.or_eq_false_iff, Bool.and_eq_false_iff,
      decide_eq_false_iff_not, and_true]
    omega
  rw [Source.isDelimiter, hblank, Bool.false_or]
  exact beq_eq_false_iff_ne.2 (ne_of_isHexDigit h (by decide))

theorem isHexDigit_of_isNumeral {d : List Char} (h : isNumeral d = true) : ∀ c ∈ d, isHexDigit c = true := by
  intro c hc
  rw [isHexDigit, (isNumeral_iff.1 h).2 c hc, Bool.true_or, Bool.true_or]

theorem isHexDigit_of_isHexNumeral {h : List Char} (hh : isHexNumeral h = true) :
    ∀ c ∈ h, isHexDigit c = true := by
  rw [isHexNumeral, Bool.and_eq_true, List.all_eq_true] at hh
  exact hh.2

theorem notMem_of_isHexDigit {s : List Char} (hs : ∀ c ∈ s, isHexDigit c = true) {d : Char}
    (hd : isHexDigit d = false) : d ∉ s := fun hmem => ne_of_isHexDigit (hs d hmem) hd rfl

/-- Decimal digits with a value, or a refusal if the value is too large. -/
inductive Decimalized (v : Nat) : Except Cause (List Char) → Prop
  | digits {D : List Char} (hD : isNumeral D = true) (hv : numeralValue D = v) : Decimalized v (.ok D)
  | tooBig (hv : Operand.maxValue < v) : Decimalized v (.error .operandTooBig)

/-- Hexadecimal digits are made decimal, if 64 bits hold their value. -/
theorem decimalized_hex {h : List Char} (hh : isHexNumeral h = true) :
    Decimalized (placeValue 16 h) (Source.decimalWord ('0' :: 'x' :: h)) := by
  have hmin := min_hexUpTo wordLimit h
  rw [hexValue_eq_placeValue] at hmin
  have hlimit : Operand.maxValue < wordLimit := by decide
  unfold Source.decimalWord
  simp only [hh, Bool.not_true, Bool.false_eq_true, if_false]
  split_ifs with hlt
  · exact .digits (isNumeral_digits _) (Nat.ofDigitChars_ten_toDigits.trans (by omega))
  · exact .tooBig (by omega)

variable {lit : List Char} {v : Nat}

/-- No character of a literal is a sign of its own. -/
theorem Literal.plain (h : Literal lit v) : ∀ c ∈ lit, c ≠ '\\' ∧ c ≠ ';' := by
  have hdigits : ∀ {s : List Char}, (∀ c ∈ s, isHexDigit c = true) → ∀ c ∈ s, c ≠ '\\' ∧ c ≠ ';' := fun hs c hc =>
    ⟨ne_of_isHexDigit (hs c hc) (by decide), ne_of_isHexDigit (hs c hc) (by decide)⟩
  cases h with
  | decimal hd => exact hdigits (isHexDigit_of_isNumeral hd)
  | dollar hh => exact List.forall_mem_cons.2 ⟨by decide, hdigits (isHexDigit_of_isHexNumeral hh)⟩
  | hex hh =>
    exact List.forall_mem_cons.2
      ⟨by decide, List.forall_mem_cons.2 ⟨by decide, hdigits (isHexDigit_of_isHexNumeral hh)⟩⟩

/-- **A literal by itself**: it is one word, which comes to decimal digits with its value. -/
theorem Literal.decimalized (h : Literal lit v) :
    Source.spellDollar lit ≠ [] ∧ (∀ c ∈ Source.spellDollar lit, Source.isDelimiter c = false) ∧
      Decimalized v (Source.decimalWord (Source.spellDollar lit)) := by
  have hhex : ∀ {h : List Char}, isHexNumeral h = true → ∀ c ∈ '0' :: 'x' :: h, Source.isDelimiter c = false :=
    fun hh =>
    List.forall_mem_cons.2 ⟨by decide, List.forall_mem_cons.2 ⟨by decide, fun c hc =>
      isDelimiter_of_isHexDigit (isHexDigit_of_isHexNumeral hh c hc)⟩⟩
  cases h with
  | decimal hd =>
    have hdigits := isHexDigit_of_isNumeral hd
    rw [Source.spellDollar_of_notMem (notMem_of_isHexDigit hdigits (by decide)),
      Source.decimalWord_of_notMem (notMem_of_isHexDigit hdigits (by decide))]
    exact ⟨(isNumeral_iff.1 hd).1, fun c hc => isDelimiter_of_isHexDigit (hdigits c hc),
      .digits hd (numeralValue_eq_placeValue hd)⟩
  | @dollar h hh =>
    have hspell : Source.spellDollar ('$' :: h) = '0' :: 'x' :: h := by
      rw [← List.singleton_append, Source.spellDollar_append,
        Source.spellDollar_of_notMem (notMem_of_isHexDigit (isHexDigit_of_isHexNumeral hh) (by decide))]
      rfl
    rw [hspell]
    exact ⟨by simp, hhex hh, decimalized_hex hh⟩
  | @hex h hh =>
    have hspell : Source.spellDollar ('0' :: 'x' :: h) = '0' :: 'x' :: h := by
      refine Source.spellDollar_of_notMem ?_
      have hmem := notMem_of_isHexDigit (isHexDigit_of_isHexNumeral hh) (d := '$') (by decide)
      simp [hmem]
    rw [hspell]
    exact ⟨by simp, hhex hh, decimalized_hex hh⟩

end Text

/-! ## Rows -/

theorem Operand.ofNat_of_le {n : Nat} (h : n ≤ maxValue) : ofNat n = .ok (.number (UInt16.ofNat n)) := if_pos h

theorem Operand.ofNat_of_lt {n : Nat} (h : maxValue < n) : ofNat n = .error .operandTooBig :=
  if_neg (Nat.not_le.2 h)

/-- **Cleaning around a literal**: what is left of the rest of the row does not depend on the literal. -/
theorem Source.exists_clean {front back text : List Char} (hsite : Site front back)
    (h : clean (front ++ ['0'] ++ back) = .ok text) :
    ∃ x y, Text.EndsWith Text.isSeparator x ∧ Text.StartsWith Text.isSeparator y ∧ ∀ lit v, Text.Literal lit v →
      clean (front ++ lit ++ back) = (fun D => x ++ D ++ y) <$> decimalWord (spellDollar lit) := by
  obtain ⟨F, B, hF, hB, hcode⟩ := hsite.exists_code
  have hclean : ∀ {lit : List Char} {v : Nat}, Text.Literal lit v → clean (front ++ lit ++ back) =
      (fun t => dropMnemonic (Text.spaced t)) <$> hexToDecimal (F ++ spellDollar lit ++ B) := fun hlit => by
    rw [clean, hcode _ hlit.plain]
    rfl
  have hzero : Text.Literal ['0'] 0 := .decimal (by decide)
  obtain ⟨hne, hword, -⟩ := hzero.decimalized
  rw [hclean hzero] at h
  obtain ⟨t, ht, -⟩ := map_eq_ok.1 h
  obtain ⟨x₁, y₁, hx₁, hy₁, hdecimal⟩ := exists_decimal hF hB ⟨hne, hword⟩ ht
  obtain ⟨x₂, hx₂, -, hfront⟩ := Text.exists_spaced_front hx₁
  obtain ⟨y, hy, hback⟩ := Text.exists_spaced_back hy₁
  obtain ⟨x, hx, hdrop⟩ := exists_dropMnemonic hx₂ y
  have hspaced : ∀ D, Text.isNumeral D = true → Text.spaced (x₁ ++ D ++ y₁) = x₂ ++ D ++ y := by
    intro D hD
    obtain ⟨hne, hdigits⟩ := Text.isNumeral_iff.1 hD
    have hblank : ∀ c ∈ D, Text.isBlank c = false := fun c hc => isBlank_of_isDigit (hdigits c hc)
    rw [List.append_assoc, List.append_assoc, ← hback D hne hblank]
    obtain ⟨c, D, rfl⟩ := List.exists_cons_of_ne_nil hne
    exact hfront c (D ++ y₁) (hblank c List.mem_cons_self)
  refine ⟨x, y, hx, hy, fun lit v hlit => ?_⟩
  obtain ⟨hne, hword, hdec⟩ := hlit.decimalized
  rw [hclean hlit, hdecimal _ hne hword]
  generalize decimalWord (spellDollar lit) = r at hdec ⊢
  cases hdec with
  | @digits D hD _ =>
    show Except.ok (dropMnemonic (Text.spaced (x₁ ++ D ++ y₁))) = .ok (x ++ D ++ y)
    rw [hspaced D hD, hdrop D hD]
  | tooBig _ => rfl

namespace Statement

/-- What a row says. -/
def ofRow (row : List Char) : Except Cause Statement := Source.clean row >>= parse

variable {front back : List Char} {st : Statement}

/-- **Reading around a literal**: the literal is one operand, and the others do not depend on it. -/
theorem exists_ofRow (hsite : Source.Site front back) (hzero : ofRow (front ++ ['0'] ++ back) = .ok st)
    (hst : st.takesOperands = true) :
    ∃ k, st.operands[k]? = some (.number 0) ∧ ∀ lit v, Text.Literal lit v →
      ofRow (front ++ lit ++ back) = (fun op => st.withOperands (st.operands.set k op)) <$> Operand.ofNat v := by
  obtain ⟨text, htext, hparse⟩ := bind_eq_ok.1 hzero
  obtain ⟨x, y, hx, hy, hclean⟩ := Source.exists_clean hsite htext
  have hnumeral : Text.isNumeral ['0'] = true := by decide
  have hliteral : Text.Literal ['0'] 0 := .decimal hnumeral
  rw [hclean _ _ hliteral] at htext
  cases htext
  change parse (x ++ ['0'] ++ y) = .ok st at hparse
  rcases parse_around hx y with ⟨st₀, x', hst₀, hx', hall⟩ | hnone
  · rw [hall _ hnumeral] at hparse
    obtain ⟨ops, hops, rfl⟩ := map_eq_ok.1 hparse
    obtain ⟨k, hk, hset⟩ := Operand.exists_parseList hx' hy hops
    rw [operands_withOperands hst₀]
    refine ⟨k, hk, fun lit v hlit => ?_⟩
    obtain ⟨-, -, hdec⟩ := hlit.decimalized
    rw [ofRow, hclean lit v hlit]
    generalize Source.decimalWord (Source.spellDollar lit) = r at hdec ⊢
    cases hdec with
    | @digits D hD hv =>
      show parse (x ++ D ++ y) = _
      rw [hall D hD, hset D hD, hv]
      cases Operand.ofNat v with
      | error e => rfl
      | ok op => exact congrArg Except.ok (withOperands_withOperands st₀ ops _).symm
    | tooBig hv =>
      rw [Operand.ofNat_of_lt hv]
      rfl
  · obtain ⟨st', hst', hnot⟩ := hnone _ hnumeral
    rw [hst'] at hparse
    cases hparse
    rw [hst] at hnot
    cases hnot

/-- **Literals mean their value, whatever their base and length.**  If a row says an instruction or a call with `0`
at a site, it has an operand there; with another literal in that place the row says the same with the exact value
of the literal as that operand, up to 32767, and is refused because the number is too large beyond.  So literals of
equal value are interchangeable. -/
theorem ofRow_literal (hsite : Source.Site front back) (hzero : ofRow (front ++ ['0'] ++ back) = .ok st)
    (hst : st.takesOperands = true) :
    ∃ k, st.operands[k]? = some (.number 0) ∧
      (∀ lit v, Text.Literal lit v →
        (v ≤ 32767 → ∃ n : UInt16, n.toNat = v ∧
          ofRow (front ++ lit ++ back) = .ok (st.withOperands (st.operands.set k (.number n)))) ∧
        (32767 < v → ofRow (front ++ lit ++ back) = .error .operandTooBig)) ∧
      ∀ lit lit' v, Text.Literal lit v → Text.Literal lit' v →
        ofRow (front ++ lit ++ back) = ofRow (front ++ lit' ++ back) := by
  obtain ⟨k, hk, hrow⟩ := exists_ofRow hsite hzero hst
  refine ⟨k, hk, fun lit v hlit => ⟨fun hv => ⟨UInt16.ofNat v, ?_, ?_⟩, fun hv => ?_⟩,
    fun lit lit' v hlit hlit' => ?_⟩
  · exact UInt16.toNat_ofNat_of_lt' (Nat.lt_of_le_of_lt hv (by decide))
  · rw [hrow lit v hlit, Operand.ofNat_of_le hv]
    rfl
  · rw [hrow lit v hlit, Operand.ofNat_of_lt hv]
    rfl
  · rw [hrow lit v hlit, hrow lit' v hlit']

/-- A row with a place for its third operand: a semicolon that is kept stands before it, and a comment behind. -/
def thirdOperand (word : String) : List Char := "abcout a\\;b, 1,\t".toList ++ word.toList ++ " ; top".toList

/-- Hexadecimal digits of both cases with zeros in front, and a number that 64 bits do not hold. -/
theorem ofRow_literal_thirdOperand : Source.Site "abcout a\\;b, 1,\t".toList " ; top".toList ∧
    ofRow (thirdOperand "0") = .ok (.instruction [.label "a;b", .number 1, .number 0]) ∧
    ofRow (thirdOperand "$00fF") = .ok (.instruction [.label "a;b", .number 1, .number 255]) ∧
    ofRow (thirdOperand "0x0fF") = ofRow (thirdOperand "000255") ∧
    ofRow (thirdOperand "0x10000000000000000") = .error .operandTooBig := by
  have hsite : Source.Site "abcout a\\;b, 1,\t".toList " ; top".toList :=
    ⟨Text.endsWith_concat (s := "abcout a\\;b, 1,".toList).2 (by decide),
      Text.startsWith_cons (s := "; top".toList).2 (by decide), by decide⟩
  have hzero : ofRow (thirdOperand "0") = .ok (.instruction [.label "a;b", .number 1, .number 0]) := by decide
  obtain ⟨k, hk, hvalue, hequal⟩ := ofRow_literal hsite hzero rfl
  refine ⟨hsite, hzero, ?_, ?_, ?_⟩
  · obtain ⟨n, hn, hrow⟩ := (hvalue _ _ (.dollar (h := "00fF".toList) (by decide))).1 (by decide)
    obtain rfl : k = 2 := by
      rcases k with _ | _ | _ | k
      · cases hk
      · cases hk
      · rfl
      · cases hk
    obtain rfl : n = 255 := UInt16.toNat_inj.1 hn
    exact hrow
  · exact hequal _ _ 255 (.hex (h := "0fF".toList) (by decide)) (.decimal (d := "000255".toList) (by decide))
  · exact (hvalue _ _ (.hex (h := "10000000000000000".toList) (by decide))).2 (by decide)

end Statement

end Abcout
