import Abcout.Proofs.Listing
import Abcout.Proofs.Templates

/-!
# Abcout.Proofs.Rendering — what expansion writes is read back

A name that is written, or made by an expansion, is a word: letters, digits and underscores, and no digit in front
(`isWord_candidate`).  Where labels are words and numbers are in range, the text of operands says the operands
(`Operand.parseList_renderList`), and the text of an instruction says the instruction (`Statement.parse_template`).
-/

namespace Abcout

/-! ## Words -/

/-- Whether a character may stand in a name, written or made by an expansion. -/
def isWordChar (c : Char) : Bool := c.isAlphanum || c == '_'

/-- Whether a text is a name, written or made by an expansion. -/
def isWord : List Char → Bool
  | [] => false
  | c :: cs => !c.isDigit && (c :: cs).all isWordChar

theorem isWordChar_of_isDigit {c : Char} (h : c.isDigit = true) : isWordChar c = true := by
  simp [isWordChar, Char.isAlphanum, h]

theorem toNat_of_isWordChar {c : Char} (h : isWordChar c = true) : 48 ≤ c.toNat ∧ c.toNat ≤ 122 := by
  have hletter : ∀ a b : UInt32, c.val ≥ a ∧ c.val ≤ b → a.toNat ≤ c.toNat ∧ c.toNat ≤ b.toNat := by
    rintro a b ⟨hlow, hhigh⟩
    exact ⟨UInt32.le_iff_toNat_le.1 hlow, UInt32.le_iff_toNat_le.1 hhigh⟩
  have hcases : ((c.isUpper || c.isLower) || c.isDigit || c == '_') = true := h
  simp only [Bool.or_eq_true, beq_iff_eq] at hcases
  rcases hcases with ((hupper | hlower) | hdigit) | rfl
  · have hupper' : 65 ≤ c.toNat ∧ c.toNat ≤ 90 := hletter 65 90 (of_decide_eq_true hupper)
    omega
  · obtain ⟨hlow, hhigh⟩ := Bool.and_eq_true_iff.1 hlower
    have hlower' : 97 ≤ c.toNat ∧ c.toNat ≤ 122 := hletter 97 122 ⟨of_decide_eq_true hlow, of_decide_eq_true hhigh⟩
    omega
  · have hdigit' := toNat_of_isDigit hdigit
    omega
  · decide

theorem isBlank_of_isWordChar {c : Char} (h : isWordChar c = true) : Text.isBlank c = false := by
  obtain ⟨hlow, hhigh⟩ := toNat_of_isWordChar h
  exact Text.isBlank_of_visible (by omega) (by omega)

theorem ne_of_isWordChar {c d : Char} (hc : isWordChar c = true) (hd : isWordChar d = false) : c ≠ d := by
  rintro rfl
  rw [hc] at hd
  cases hd

theorem isWordChar_of_isWord {s : List Char} (h : isWord s = true) : ∀ c ∈ s, isWordChar c = true := by
  cases s with
  | nil => exact List.forall_mem_nil _
  | cons c cs => exact List.all_eq_true.1 (Bool.and_eq_true_iff.1 h).2

theorem isWord_of_isIdentifier {s : List Char} (h : isIdentifier s = true) : isWord s = true := by
  cases s with
  | nil => cases h
  | cons c cs =>
    have hfront : c.isDigit = false := by
      rw [← Bool.not_eq_true]
      intro hc
      rw [isIdentifier_of_isDigit hc] at h
      cases h
    rw [isIdentifier, Bool.and_eq_true, List.all_eq_true] at h
    rw [isWord, hfront, Bool.not_false, Bool.true_and, List.all_cons, Bool.and_eq_true, List.all_eq_true]
    have hlower : ∀ d : Char, (d.isLower || d.isDigit || d == '_') = true → isWordChar d = true := by
      intro d hd
      show ((d.isUpper || d.isLower) || d.isDigit || d == '_') = true
      rw [Bool.or_assoc, Bool.or_assoc, ← Bool.or_assoc d.isLower, hd, Bool.or_true]
    refine ⟨hlower c ?_, fun d hd => hlower d (h.2 d hd)⟩
    rcases Bool.or_eq_true_iff.1 h.1 with hc | hc <;> simp [hc]

/-- A word with word characters behind it is a word. -/
theorem isWord_append {base rest : String} (h : isWord base.toList = true)
    (hrest : ∀ c ∈ rest.toList, isWordChar c = true) : isWord (base ++ rest).toList = true := by
  rw [String.toList_append]
  cases hb : base.toList with
  | nil =>
    rw [hb] at h
    cases h
  | cons c cs =>
    rw [hb, isWord, Bool.and_eq_true] at h
    rw [List.cons_append, isWord, Bool.and_eq_true, ← List.cons_append, List.all_append, Bool.and_eq_true]
    exact ⟨h.1, h.2, List.all_eq_true.2 hrest⟩

/-- The names that an expansion tries are words. -/
theorem isWord_candidate {owner label : String} (howner : isWord owner.toList = true)
    (hlabel : isWord label.toList = true) (call n : Nat) :
    isWord (Renaming.candidate (Renaming.mangle owner label call) n).toList = true := by
  have hunder : ∀ c ∈ "_".toList, isWordChar c = true := List.all_eq_true.1 (by decide)
  have hrepr : ∀ (n : Nat), ∀ c ∈ n.repr.toList, isWordChar c = true := by
    intro n c hc
    rw [Nat.toList_repr] at hc
    exact isWordChar_of_isDigit (isDigit_of_mem_digits hc)
  have hinitial : isWord reservedInitial.toString.toList = true := by decide
  have hmangle : isWord (Renaming.mangle owner label call).toList = true :=
    isWord_append (isWord_append (isWord_append (isWord_append
      (isWord_append hinitial (isWordChar_of_isWord howner)) hunder)
      (isWordChar_of_isWord hlabel)) hunder) (hrepr call)
  cases n with
  | zero => exact hmangle
  | succ n => exact isWord_append (isWord_append hmangle hunder) (hrepr (n + 1))

/-! ## Operands -/

theorem Text.unsigned?_digits {n : Nat} (h : n < wordLimit) : unsigned? (digits n) = some n := by
  obtain ⟨c, rest, hcons, hc⟩ := exists_digits_eq_cons n
  have hvalue : numeralUpTo wordLimit (digits n) = n := by
    have hmin := min_numeralUpTo wordLimit (digits n)
    have hdigits : numeralValue (digits n) = n := Nat.ofDigitChars_ten_toDigits
    rw [hdigits] at hmin
    omega
  have hsign : unsigned? (digits n) = if isNumeral (digits n) && numeralUpTo wordLimit (digits n) < wordLimit then
      some (numeralUpTo wordLimit (digits n)) else none := by
    unfold unsigned?
    rw [hcons]
    split
    · rename_i e
      exact absurd (List.cons.inj e).1 (ne_of_isDigit hc (by decide))
    · rfl
  rw [hsign, hvalue, isNumeral_digits, Bool.true_and, if_pos (decide_eq_true h)]

namespace Operand

/-- An operand that its text says: numbers are in range, and a label is a word. -/
structure Legible (op : Operand) : Prop where
  inRange : op.InRange
  isWord : ∀ name, op = .label name → isWord name.toList = true

variable {op : Operand} {ops : List Operand}

theorem toList_render_number (n : UInt16) : (Operand.number n).render.toList = digits n.toNat := Nat.toList_repr

theorem toList_render_param (i : Nat) : (Operand.param i).render.toList = '%' :: digits i := by
  rw [render, String.toList_append, Nat.toList_repr]
  rfl

theorem Legible.parse_render (h : op.Legible) : parse op.render.toList = .ok op := by
  cases op with
  | number n =>
    rw [toList_render_number, parse_numeral (isNumeral_digits _)]
    exact (congrArg ofNat Nat.ofDigitChars_ten_toDigits).trans (ofNat_toNat_eq_ok.2 ⟨h.inRange, rfl⟩)
  | param i => rw [toList_render_param, parse, Text.unsigned?_digits h.inRange]
  | label name =>
    have hword := h.isWord name rfl
    show parse name.toList = _
    have hname : String.ofList name.toList = name := String.ofList_toList
    cases hs : name.toList with
    | nil =>
      rw [hs] at hword
      cases hword
    | cons c cs =>
      rw [hs] at hword hname
      have hc : isWordChar c = true := isWordChar_of_isWord hword c List.mem_cons_self
      have hdigit : c.isDigit = false := by
        rw [← Bool.not_eq_true']
        exact (Bool.and_eq_true_iff.1 hword).1
      unfold parse
      split
      · rename_i e
        exact absurd (List.cons.inj e).1 (ne_of_isWordChar hc (by decide))
      · rename_i e
        exact absurd (List.cons.inj e).1 (ne_of_isWordChar hc (by decide))
      · rw [startsWithDigit, hdigit, if_neg Bool.false_ne_true, hname]

/-- The text of an operand is one word, with a percent sign in front or without. -/
theorem Legible.mem_render (h : op.Legible) {c : Char} (hc : c ∈ op.render.toList) :
    isWordChar c = true ∨ c = '%' := by
  cases op with
  | number n =>
    rw [toList_render_number] at hc
    exact .inl (isWordChar_of_isDigit (isDigit_of_mem_digits hc))
  | param i =>
    rw [toList_render_param] at hc
    rcases List.mem_cons.1 hc with hc | hc
    · exact .inr hc
    · exact .inl (isWordChar_of_isDigit (isDigit_of_mem_digits hc))
  | label name => exact .inl (isWordChar_of_isWord (h.isWord name rfl) c hc)

theorem Legible.notMem_render (h : op.Legible) {c : Char} (hword : isWordChar c = false) (hpercent : c ≠ '%') :
    c ∉ op.render.toList := by
  intro hc
  rcases h.mem_render hc with hc | hc
  · exact ne_of_isWordChar hc hword rfl
  · exact hpercent hc

theorem Legible.render_ne_nil (h : op.Legible) : op.render.toList ≠ [] := by
  intro hnil
  have hparse := h.parse_render
  rw [hnil] at hparse
  cases hparse
  exact absurd (h.isWord "" rfl) (by decide)

/-- Blanks in front of an operand do not count. -/
theorem Legible.parseField_render (h : op.Legible) {blanks : List Char}
    (hblanks : ∀ c ∈ blanks, Text.isBlank c = true) : parseField (blanks ++ op.render.toList) = .ok op := by
  have hvisible : ∀ c ∈ op.render.toList, Text.isBlank c = false := by
    intro c hc
    rcases h.mem_render hc with hc | rfl
    · exact isBlank_of_isWordChar hc
    · decide
  have hfield := parseField_blanks h.render_ne_nil hvisible hblanks (List.forall_mem_nil _)
  rw [List.append_nil] at hfield
  exact hfield.trans h.parse_render

theorem intercalate_append_cons (sep front w : List Char) (ws : List (List Char)) :
    sep.intercalate ((front ++ w) :: ws) = front ++ sep.intercalate (w :: ws) := by
  cases ws with
  | nil => simp
  | cons v vs => simp [List.intercalate_cons_cons]

/-- The fields of the text of operands. -/
theorem toList_renderList (op : Operand) (ops : List Operand) : (renderList (op :: ops)).toList =
    [','].intercalate (op.render.toList :: ops.map fun op => [' '] ++ op.render.toList) := by
  rw [renderList, String.toList_intercalate, List.map_map, List.map_cons]
  induction ops generalizing op with
  | nil => rfl
  | cons op' ops ih =>
    rw [List.map_cons, List.map_cons, List.intercalate_cons_cons, List.intercalate_cons_cons,
      intercalate_append_cons, ← ih]
    simp

/-- The text of operands starts with the first of them. -/
theorem exists_renderList_eq (op : Operand) (ops : List Operand) :
    ∃ rest, (renderList (op :: ops)).toList = op.render.toList ++ rest := by
  have hfront := intercalate_append_cons [','] op.render.toList [] (ops.map fun op => [' '] ++ op.render.toList)
  rw [List.append_nil] at hfront
  exact ⟨_, (toList_renderList op ops).trans hfront⟩

theorem notMem_renderList {c : Char} (hword : isWordChar c = false) (hmarks : c ≠ '%' ∧ c ≠ ',' ∧ c ≠ ' ')
    (h : ∀ op ∈ ops, op.Legible) : c ∉ (renderList ops).toList := by
  obtain ⟨hpercent, hcomma, hspace⟩ := hmarks
  rw [renderList, String.toList_intercalate, List.map_map]
  induction ops with
  | nil => simp
  | cons op ops ih =>
    obtain ⟨hop, hops⟩ := List.forall_mem_cons.1 h
    have hrender := hop.notMem_render hword hpercent
    cases ops with
    | nil => simpa using hrender
    | cons op' ops =>
      rw [List.map_cons, List.map_cons, List.intercalate_cons_cons, ← List.map_cons, List.mem_append,
        List.mem_append]
      rintro ((hmem | hmem) | hmem)
      · exact hrender hmem
      · rcases List.mem_pair.1 hmem with hmem | hmem
        · exact hcomma hmem
        · exact hspace hmem
      · exact ih hops hmem

/-- **Operands are read back from their text.** -/
theorem parseList_renderList (hne : ops ≠ []) (h : ∀ op ∈ ops, op.Legible) :
    parseList (renderList ops).toList = .ok ops := by
  obtain ⟨op, ops, rfl⟩ := List.exists_cons_of_ne_nil hne
  obtain ⟨hop, hops⟩ := List.forall_mem_cons.1 h
  have hnil : (renderList (op :: ops)).toList.isEmpty = false := by
    obtain ⟨rest, hrest⟩ := exists_renderList_eq op ops
    rw [hrest, List.isEmpty_eq_false_iff]
    exact List.append_ne_nil_of_left_ne_nil hop.render_ne_nil _
  have hfields : (renderList (op :: ops)).toList.splitOn ',' =
      op.render.toList :: ops.map fun op => [' '] ++ op.render.toList := by
    rw [toList_renderList]
    refine List.splitOn_intercalate ',' (List.forall_mem_cons.2 ⟨hop.notMem_render (by decide) (by decide), ?_⟩)
      (by simp)
    refine List.forall_mem_map.2 fun op' hop' hmem => ?_
    rcases List.mem_append.1 hmem with hmem | hmem
    · exact absurd hmem (by decide)
    · exact (hops op' hop').notMem_render (by decide) (by decide) hmem
  have hfirst : parseField ([] ++ op.render.toList) = .ok op := hop.parseField_render (List.forall_mem_nil _)
  rw [List.nil_append] at hfirst
  rw [parseList, hnil, if_neg Bool.false_ne_true, hfields, mapM_eq_ok]
  refine .cons hfirst ?_
  rw [List.forall₂_map_left_iff, List.forall₂_same]
  exact fun op' hop' => (hops op' hop').parseField_render (List.forall_mem_singleton.2 (by decide))

end Operand

/-! ## Statements -/

namespace Statement

theorem parse_label (name : String) : parse (Statement.label name).render.toList = .ok (.label name) := by
  have htext : (Statement.label name).render.toList = name.toList ++ [':'] := String.toList_append
  unfold parse
  rw [htext, if_neg (by simp), if_pos (by simp), List.dropLast_concat, String.ofList_toList]

/-- A line that starts with a parameter is an instruction. -/
theorem parsePercent_of_isDigit {c : Char} (hc : c.isDigit = true) (s : List Char) :
    parsePercent (c :: s) = .instruction <$> Operand.parseList ('%' :: c :: s) := by
  have hend : c :: s ≠ "endmacro".toList := fun e => ne_of_isDigit hc (by decide) (List.cons.inj e).1
  have hmacro : c :: s ≠ "macro".toList := fun e => ne_of_isDigit hc (by decide) (List.cons.inj e).1
  have hopening : "macro ".toList.isPrefixOf (c :: s) = false := by
    have hm : ('m' == c) = false := beq_eq_false_iff_ne.2 (ne_of_isDigit hc (by decide)).symm
    show (('m' == c) && _) = false
    rw [hm, Bool.false_and]
  have hstart : Operand.startsWithDigit (c :: s) = true := hc
  rw [parsePercent, if_neg hend, decide_eq_false hmacro, hopening, if_neg (by decide), if_pos hstart]

/-- **An instruction is read back from its text**, in the body of a macro as in the program. -/
theorem parse_template {params : Nat} {known : String → Prop} {ops : List Operand} (h : Template params known ops)
    (hops : ∀ op ∈ ops, op.Legible) :
    parse (Statement.instruction ops).render.toList = .ok (.instruction ops) := by
  obtain ⟨a, rest, rfl, ha⟩ : ∃ a rest, ops = a :: rest ∧ a.IsValue params := by
    cases h with
    | next ha _ => exact ⟨_, _, rfl, ha⟩
    | target ha _ _ => exact ⟨_, _, rfl, ha⟩
  have hlist := Operand.parseList_renderList (List.cons_ne_nil a rest) hops
  have hcolon : (Operand.renderList (a :: rest)).toList.getLast? ≠ some ':' := fun hlast =>
    Operand.notMem_renderList (by decide) (by decide) hops (List.mem_of_getLast? hlast)
  obtain ⟨later, hlater⟩ := Operand.exists_renderList_eq a rest
  show parse (Operand.renderList (a :: rest)).toList = _
  -- a value is a numeral, or a percent sign and a numeral
  cases ha with
  | number n =>
    obtain ⟨c, ds, hcons, hc⟩ := exists_digits_eq_cons n.toNat
    have htext : (Operand.renderList (.number n :: rest)).toList = c :: (ds ++ later) := by
      rw [hlater, Operand.toList_render_number, hcons, List.cons_append]
    rw [htext] at hcolon hlist ⊢
    rw [parse_of_isDigit hc hcolon, hlist]
    rfl
  | param i hi =>
    obtain ⟨c, ds, hcons, hc⟩ := exists_digits_eq_cons i
    have htext : (Operand.renderList (.param i :: rest)).toList = '%' :: c :: (ds ++ later) := by
      rw [hlater, Operand.toList_render_param, hcons, List.cons_append, List.cons_append]
    rw [htext] at hcolon hlist ⊢
    rw [parse_cons hcolon, if_neg (by decide), if_pos rfl, parsePercent_of_isDigit hc, hlist]
    rfl

end Statement

end Abcout
