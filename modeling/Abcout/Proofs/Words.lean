import Mathlib.Data.List.SplitBy
import Abcout.Proofs.Literals

/-!
# Abcout.Proofs.Words — hexadecimal literals are made decimal word by word

`Source.runs` splits a text where a word meets a delimiter: into the longest runs of delimiters and of other
characters, which take turns (`Source.Alternates`, `Source.runs_eq_iff`).

* `Source.hexToDecimal_flatten`: what becomes of a text is what becomes of its runs, one by one.
* `Source.decimalWord_eq_ok_iff`, `Source.decimalWord_eq_error_iff`: what becomes of one run.
* `Source.hexToDecimal_wordwise`: all that making literals decimal does to a text.
-/

namespace Abcout

namespace Source

/-! ## Runs -/

/-- The longest runs of delimiters and of other characters. -/
def runs (s : List Char) : List (List Char) := s.splitBy fun c d => isDelimiter c == isDelimiter d

/-- Runs of delimiters and of other characters that take turns.  The first one is of delimiters or not. -/
inductive Alternates : Bool → List (List Char) → Prop
  | nil {b : Bool} : Alternates b []
  | cons {r : List Char} {rs : List (List Char)} {b : Bool} (hne : r ≠ []) (hr : ∀ c ∈ r, isDelimiter c = b)
      (rest : Alternates (!b) rs) : Alternates b (r :: rs)

theorem Alternates.head {b : Bool} {rs : List (List Char)} (h : Alternates b rs) :
    ∀ c ∈ rs.flatten.head?, isDelimiter c = b := by
  cases h with
  | nil => simp
  | @cons r rs _ hne hr rest =>
    intro c hc
    rw [List.flatten_cons, List.head?_append_of_ne_nil r hne] at hc
    exact hr c (List.mem_of_head? hc)

theorem Alternates.runs_flatten {b : Bool} {rs : List (List Char)} (h : Alternates b rs) :
    runs rs.flatten = rs := by
  induction h with
  | nil => rfl
  | @cons r rs b hne hr rest ih =>
    have hrun : r.splitBy (fun c d => isDelimiter c == isDelimiter d) = [r] := by
      refine List.splitBy_of_isChain hne (List.Pairwise.isChain
        (List.pairwise_of_forall_mem_list fun c hc d hd => ?_))
      rw [hr c hc, hr d hd, beq_self_eq_true]
    have hmeet : ∀ c ∈ r.getLast?, ∀ d ∈ rs.flatten.head?, (isDelimiter c == isDelimiter d) = false := by
      intro c hc d hd
      rw [hr c (List.mem_of_getLast? hc), rest.head d hd]
      cases b <;> rfl
    rw [List.flatten_cons, runs, List.splitBy_append hmeet, hrun, List.singleton_append]
    exact congrArg (r :: ·) ih

/-- One more character belongs to the first run or is a run of its own. -/
theorem exists_alternates (s : List Char) : ∃ b rs, Alternates b rs ∧ rs.flatten = s := by
  induction s with
  | nil => exact ⟨true, [], .nil, rfl⟩
  | cons c s ih =>
    obtain ⟨b, rs, halt, rfl⟩ := ih
    cases halt with
    | nil => exact ⟨isDelimiter c, [[c]], .cons (List.cons_ne_nil _ _) (List.forall_mem_singleton.2 rfl) .nil, rfl⟩
    | @cons r rs _ hne hr rest =>
      by_cases hc : isDelimiter c = b
      · exact ⟨b, (c :: r) :: rs, .cons (List.cons_ne_nil _ _) (List.forall_mem_cons.2 ⟨hc, hr⟩) rest, rfl⟩
      · have hflip : isDelimiter c = !b := Bool.eq_not.2 hc
        refine ⟨!b, [c] :: r :: rs, .cons (List.cons_ne_nil _ _) (List.forall_mem_singleton.2 hflip) ?_, rfl⟩
        rw [Bool.not_not]
        exact .cons hne hr rest

/-- The runs of a text are the only way to take it apart into runs that take turns. -/
theorem runs_eq_iff {s : List Char} {rs : List (List Char)} :
    runs s = rs ↔ (∃ b, Alternates b rs) ∧ rs.flatten = s := by
  constructor
  · rintro rfl
    obtain ⟨b, rs, halt, rfl⟩ := exists_alternates s
    rw [halt.runs_flatten]
    exact ⟨⟨b, halt⟩, rfl⟩
  · rintro ⟨⟨b, halt⟩, rfl⟩
    exact halt.runs_flatten

/-! ## One run -/

/-- Hexadecimal digits whose value 64 bits hold. -/
def FitsWord (digits : List Char) : Prop :=
  Text.isHexNumeral digits = true ∧ Text.placeValue 16 digits < Nat.pow 2 64

/-- Why digits cannot be made decimal. -/
inductive Refuses (digits : List Char) : Cause → Prop
  | malformed (h : Text.isHexNumeral digits = false) : Refuses digits .hexLiteralMalformed
  | tooBig (h : Text.isHexNumeral digits = true) (hv : Nat.pow 2 64 ≤ Text.placeValue 16 digits) :
      Refuses digits .operandTooBig

/-- A word with a hexadecimal literal in it written as a decimal numeral. -/
def decimal : List Char → List Char
  | '0' :: 'x' :: digits => Nat.toDigits 10 (Text.placeValue 16 digits)
  | w => w

theorem decimal_of_ne {w : List Char} (h : ∀ digits, w ≠ '0' :: 'x' :: digits) : decimal w = w := by
  unfold decimal
  split
  · exact absurd rfl (h _)
  · rfl

/-- What a literal comes to is a decimal numeral, and other runs stay as they are. -/
theorem decimal_cases (w : List Char) : (Text.isNumeral (decimal w) = true ∧ ∃ digits, w = '0' :: 'x' :: digits) ∨
    (decimal w = w ∧ ∀ digits, w ≠ '0' :: 'x' :: digits) := by
  by_cases hw : ∃ digits, w = '0' :: 'x' :: digits
  · obtain ⟨digits, rfl⟩ := hw
    exact .inl ⟨isNumeral_digits _, digits, rfl⟩
  · have hne : ∀ digits, w ≠ '0' :: 'x' :: digits := fun digits h => hw ⟨digits, h⟩
    exact .inr ⟨decimal_of_ne hne, hne⟩

theorem decimalWord_of_ne {w : List Char} (h : ∀ digits, w ≠ '0' :: 'x' :: digits) : decimalWord w = .ok w := by
  unfold decimalWord
  split
  · exact absurd rfl (h _)
  · rfl

theorem decimalWord_hex (digits : List Char) : decimalWord ('0' :: 'x' :: digits) =
    if Text.isHexNumeral digits = false then .error .hexLiteralMalformed
    else if Text.placeValue 16 digits < Nat.pow 2 64 then .ok (Nat.toDigits 10 (Text.placeValue 16 digits))
    else .error .operandTooBig := by
  have hmin := Text.min_hexUpTo Text.wordLimit digits
  rw [Text.hexValue_eq_placeValue] at hmin
  have hlimit : Text.wordLimit = Nat.pow 2 64 := by decide
  simp only [decimalWord, Bool.not_eq_true']
  split_ifs with hnum hlt hv hv
  · rfl
  · rw [show Text.hexUpTo Text.wordLimit digits = Text.placeValue 16 digits by omega]
  · omega
  · omega
  · rfl

theorem decimalWord_of_fits {digits : List Char} (h : FitsWord digits) :
    decimalWord ('0' :: 'x' :: digits) = .ok (decimal ('0' :: 'x' :: digits)) := by
  rw [decimalWord_hex, if_neg (Bool.not_eq_false _ ▸ h.1), if_pos h.2]
  rfl

theorem decimalWord_of_refuses {digits : List Char} {cause : Cause} (h : Refuses digits cause) :
    decimalWord ('0' :: 'x' :: digits) = .error cause := by
  rw [decimalWord_hex]
  cases h with
  | malformed h => rw [if_pos h]
  | tooBig h hv => rw [if_neg (Bool.not_eq_false _ ▸ h), if_neg (Nat.not_lt_of_le hv)]

theorem fits_or_refuses (digits : List Char) : FitsWord digits ∨ ∃ cause, Refuses digits cause := by
  by_cases hnum : Text.isHexNumeral digits = true
  · by_cases hv : Text.placeValue 16 digits < Nat.pow 2 64
    · exact .inl ⟨hnum, hv⟩
    · exact .inr ⟨_, .tooBig hnum (Nat.le_of_not_lt hv)⟩
  · exact .inr ⟨_, .malformed (Bool.eq_false_iff.2 hnum)⟩

/-- A run either comes to its decimal form, or it is a literal that is refused. -/
theorem decimalWord_cases (w : List Char) :
    ((∀ digits, w = '0' :: 'x' :: digits → FitsWord digits) ∧ decimalWord w = .ok (decimal w)) ∨
      ∃ digits cause, w = '0' :: 'x' :: digits ∧ Refuses digits cause ∧ decimalWord w = .error cause := by
  rcases decimal_cases w with ⟨-, digits, rfl⟩ | ⟨heq, hne⟩
  · rcases fits_or_refuses digits with h | ⟨cause, h⟩
    · refine .inl ⟨?_, decimalWord_of_fits h⟩
      rintro _ ⟨⟩
      exact h
    · exact .inr ⟨digits, cause, rfl, h, decimalWord_of_refuses h⟩
  · refine .inl ⟨fun digits h => absurd h (hne digits), ?_⟩
    rw [decimalWord_of_ne hne, heq]

theorem decimalWord_eq_ok_iff {w t : List Char} :
    decimalWord w = .ok t ↔ (∀ digits, w = '0' :: 'x' :: digits → FitsWord digits) ∧ decimal w = t := by
  rcases decimalWord_cases w with ⟨hfits, h⟩ | ⟨digits, cause, rfl, hrefuses, h⟩
  · rw [h, Except.ok.injEq]
    exact ⟨fun ht => ⟨hfits, ht⟩, fun ht => ht.2⟩
  · constructor
    · intro ht
      cases h.symm.trans ht
    · intro ht
      cases h.symm.trans (decimalWord_of_fits (ht.1 digits rfl))

theorem decimalWord_eq_error_iff {w : List Char} {cause : Cause} :
    decimalWord w = .error cause ↔ ∃ digits, w = '0' :: 'x' :: digits ∧ Refuses digits cause := by
  constructor
  · intro he
    rcases decimalWord_cases w with ⟨-, h⟩ | ⟨digits, cause', rfl, hrefuses, h⟩
    · cases h.symm.trans he
    · cases h.symm.trans he
      exact ⟨digits, rfl, hrefuses⟩
  · rintro ⟨digits, rfl, h⟩
    exact decimalWord_of_refuses h

theorem decimalWord_decimal (w : List Char) : decimalWord (decimal w) = .ok (decimal w) := by
  rcases decimal_cases w with ⟨hnum, -⟩ | ⟨heq, hne⟩
  · exact decimalWord_of_notMem (Text.notMem_of_isHexDigit (Text.isHexDigit_of_isNumeral hnum) (by decide))
  · rw [heq, decimalWord_of_ne hne]

/-! ## All runs -/

/-- **Run by run.** -/
theorem hexToDecimal_flatten {b : Bool} {rs : List (List Char)} (h : Alternates b rs) :
    hexToDecimal rs.flatten = List.flatten <$> rs.mapM decimalWord := by
  induction h with
  | nil => rfl
  | @cons r rs b hne hr rest ih =>
    have hsplit : chunks (r ++ rs.flatten) = chunks r ++ chunks rs.flatten := by
      cases b with
      | true => exact chunks_append_of_endsWith (fun c hc => hr c (List.mem_of_getLast? hc)) _
      | false => exact chunks_append_of_startsWith r rest.head
    have hrun : hexToDecimal r = decimalWord r := by
      cases b with
      | true =>
        have hx : 'x' ∉ r := fun hx => absurd (hr 'x' hx) (by decide)
        rw [hexToDecimal_of_notMem hx, decimalWord_of_notMem hx]
      | false => exact hexToDecimal_word hne hr
    rw [List.flatten_cons, hexToDecimal_append hsplit, hrun, ih, List.mapM_cons]
    cases decimalWord r with
    | error e => rfl
    | ok t =>
      cases rs.mapM decimalWord with
      | error e => rfl
      | ok ts => rfl

/-- Delimiters stay, and a word stays a word. -/
theorem decimal_run {r : List Char} {b : Bool} (hne : r ≠ []) (hr : ∀ c ∈ r, isDelimiter c = b) :
    decimal r ≠ [] ∧ ∀ c ∈ decimal r, isDelimiter c = b := by
  rcases decimal_cases r with ⟨hnum, digits, rfl⟩ | ⟨heq, -⟩
  · have hb : b = false := (hr '0' List.mem_cons_self).symm.trans (by decide)
    rw [hb]
    exact ⟨(Text.isNumeral_iff.1 hnum).1, fun c hc =>
      Text.isDelimiter_of_isHexDigit (Text.isHexDigit_of_isNumeral hnum c hc)⟩
  · rw [heq]
    exact ⟨hne, hr⟩

theorem Alternates.map_decimal {b : Bool} {rs : List (List Char)} (h : Alternates b rs) :
    Alternates b (rs.map decimal) := by
  induction h with
  | nil => exact .nil
  | cons hne hr _ ih => exact .cons (decimal_run hne hr).1 (decimal_run hne hr).2 ih

theorem mapM_decimalWord_eq_ok_iff {rs ts : List (List Char)} : rs.mapM decimalWord = .ok ts ↔
    (∀ digits, '0' :: 'x' :: digits ∈ rs → FitsWord digits) ∧ rs.map decimal = ts := by
  have hall : (∀ r ∈ rs, ∀ digits, r = '0' :: 'x' :: digits → FitsWord digits) ↔
      ∀ digits, '0' :: 'x' :: digits ∈ rs → FitsWord digits :=
    ⟨fun h digits hmem => h _ hmem digits rfl, fun h r hmem digits hr => h digits (hr ▸ hmem)⟩
  simp only [mapM_eq_ok, decimalWord_eq_ok_iff]
  rw [List.forall₂_and_left, hall, ← List.forall₂_map_left_iff, List.forall₂_eq_eq_eq]

/-- **Hexadecimal literals are made decimal word by word.**  A text is runs of delimiters and of other characters
that take turns, and a run that starts with `0x` is a word.  The text can be read if and only if each such word
goes on with hexadecimal digits whose value 64 bits hold.  It then is the same text with decimal numerals in place
of those words, and stays as it is from then on.  Otherwise the first word that is not so is the cause. -/
theorem hexToDecimal_wordwise (s : List Char) :
    ((∃ b, Alternates b (runs s)) ∧ (runs s).flatten = s) ∧
      ((∃ t, hexToDecimal s = .ok t) ↔ ∀ digits, '0' :: 'x' :: digits ∈ runs s → FitsWord digits) ∧
      (∀ t, hexToDecimal s = .ok t →
        t = ((runs s).map decimal).flatten ∧ runs t = (runs s).map decimal ∧ hexToDecimal t = .ok t) ∧
      ∀ cause, hexToDecimal s = .error cause ↔ ∃ before digits after,
        runs s = before ++ ('0' :: 'x' :: digits) :: after ∧
        (∀ digits', '0' :: 'x' :: digits' ∈ before → FitsWord digits') ∧ Refuses digits cause := by
  obtain ⟨⟨b, halt⟩, hs⟩ := runs_eq_iff.1 (Eq.refl (runs s))
  refine ⟨⟨⟨b, halt⟩, hs⟩, ?_⟩
  generalize runs s = rs at halt hs ⊢
  subst hs
  have hok : ∀ t, hexToDecimal rs.flatten = .ok t ↔
      (∀ digits, '0' :: 'x' :: digits ∈ rs → FitsWord digits) ∧ (rs.map decimal).flatten = t := by
    intro t
    rw [hexToDecimal_flatten halt, map_eq_ok]
    simp only [mapM_decimalWord_eq_ok_iff]
    constructor
    · rintro ⟨_, ⟨hfits, rfl⟩, rfl⟩
      exact ⟨hfits, rfl⟩
    · rintro ⟨hfits, rfl⟩
      exact ⟨_, ⟨hfits, rfl⟩, rfl⟩
  refine ⟨⟨?_, ?_⟩, ?_, fun cause => ?_⟩
  · rintro ⟨t, ht⟩
    exact ((hok t).1 ht).1
  · intro hfits
    exact ⟨_, (hok _).2 ⟨hfits, rfl⟩⟩
  · intro t ht
    obtain ⟨-, rfl⟩ := (hok t).1 ht
    refine ⟨rfl, halt.map_decimal.runs_flatten, ?_⟩
    rw [hexToDecimal_flatten halt.map_decimal, map_eq_ok]
    refine ⟨_, mapM_eq_ok.2 (List.forall₂_same.2 fun r hr => ?_), rfl⟩
    obtain ⟨w, -, rfl⟩ := List.mem_map.1 hr
    exact decimalWord_decimal w
  · rw [hexToDecimal_flatten halt, map_eq_error, mapM_eq_error]
    constructor
    · rintro ⟨before, r, after, heq, hbefore, hr⟩
      obtain ⟨digits, rfl, hrefuses⟩ := decimalWord_eq_error_iff.1 hr
      refine ⟨before, digits, after, heq, fun digits' hmem => ?_, hrefuses⟩
      obtain ⟨t, ht⟩ := hbefore _ hmem
      exact (decimalWord_eq_ok_iff.1 ht).1 digits' rfl
    · rintro ⟨before, digits, after, heq, hbefore, hrefuses⟩
      refine ⟨before, _, after, heq, fun r hmem => ⟨_, decimalWord_eq_ok_iff.2 ⟨fun digits' hr => ?_, rfl⟩⟩,
        decimalWord_of_refuses hrefuses⟩
      exact hbefore digits' (hr ▸ hmem)

/-- A literal after two delimiters is made decimal, and one within a word is not. -/
theorem hexToDecimal_wordwise_mixed : hexToDecimal ",\u00a00x1F b0x2".toList = .ok ",\u00a031 b0x2".toList ∧
    hexToDecimal ",\u00a031 b0x2".toList = .ok ",\u00a031 b0x2".toList := by
  have h : hexToDecimal ",\u00a00x1F b0x2".toList = .ok ",\u00a031 b0x2".toList := by decide +kernel
  exact ⟨h, ((hexToDecimal_wordwise _).2.2.1 _ h).2.2⟩

end Source

end Abcout
