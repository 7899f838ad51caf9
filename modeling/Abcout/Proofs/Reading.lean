import Abcout.Proofs.Outcome
import Abcout.Source.Line

/-!
# Abcout.Proofs.Reading — lines that are read say what their texts say

A numeral is refused when it is above `Operand.maxValue`, whatever way it is written; so every number among the
operands of a line that was read is in range (`Line.Faithful.inRange`).
-/

namespace Abcout

/-- A number is at most the largest one that may be written, and the index of a parameter has 64 bits. -/
def Operand.InRange : Operand → Prop
  | .number n => n.toNat ≤ maxValue
  | .label _ => True
  | .param i => i < Text.wordLimit

/-- The operands of an instruction or a call. -/
def Statement.operands : Statement → List Operand
  | .instruction ops => ops
  | .call _ args => args
  | _ => []

/-- All numbers of a line are in range. -/
def Line.InRange (l : Line) : Prop := ∀ op ∈ l.statement.operands, op.InRange

/-- The text of a line says what the line says. -/
def Line.Faithful (l : Line) : Prop := Statement.parse l.text.toList = .ok l.statement

/-! ## Operands -/

theorem Text.unsigned?_lt {s : List Char} {i : Nat} (h : unsigned? s = some i) : i < wordLimit := by
  unfold unsigned? at h
  simp only [Bool.and_eq_true, decide_eq_true_eq] at h
  split_ifs at h with hnumeral
  cases h
  exact hnumeral.2

namespace Operand

variable {s : List Char} {op : Operand}

theorem ofNat_inRange {n : Nat} (h : ofNat n = .ok op) : op.InRange := by
  unfold ofNat at h
  split_ifs at h with hn
  cases h
  show (UInt16.ofNat n).toNat ≤ maxValue
  rw [UInt16.toNat_ofNat']
  exact Nat.le_trans (Nat.mod_le _ _) hn

theorem ofDecimal_inRange {d : Text.Decimal} (h : ofDecimal d = .ok op) : op.InRange := by
  unfold ofDecimal at h
  split at h
  · exact ofNat_inRange h
  · cases h

theorem parseNumber_inRange (h : parseNumber s = .ok op) : op.InRange := by
  unfold parseNumber at h
  split_ifs at h with hdot hnum
  · split at h
    · exact ofDecimal_inRange h
    · cases h
      trivial
  · exact ofNat_inRange h
  · cases h
    trivial

theorem parse_inRange (h : parse s = .ok op) : op.InRange := by
  unfold parse at h
  split at h
  · -- a parameter
    split at h
    · rename_i i hi
      cases h
      exact Text.unsigned?_lt hi
    · cases h
  · split_ifs at h
    cases h
    trivial
  · split_ifs at h
    · exact parseNumber_inRange h
    · cases h
      trivial

theorem parseField_inRange (h : parseField s = .ok op) : op.InRange := by
  unfold parseField at h
  simp only at h
  split_ifs at h
  exact parse_inRange h

theorem parseList_inRange {ops : List Operand} (h : parseList s = .ok ops) : ∀ op ∈ ops, op.InRange := by
  unfold parseList at h
  split_ifs at h
  · cases h
    exact List.forall_mem_nil _
  · intro op hop
    obtain ⟨field, -, hfield⟩ := exists_of_mem_mapM h hop
    exact parseField_inRange hfield

end Operand

/-! ## Lines -/

namespace Statement

variable {text : List Char} {s : Statement}

theorem parsePercent_inRange (h : parsePercent text = .ok s) : ∀ op ∈ s.operands, op.InRange := by
  unfold parsePercent at h
  split_ifs at h
  · cases h
    exact List.forall_mem_nil _
  · cases h
    unfold ofOpeningWords
    split <;> exact List.forall_mem_nil _
  · obtain ⟨ops, hops, rfl⟩ := map_eq_ok.1 h
    exact Operand.parseList_inRange hops
  · cases h
    exact List.forall_mem_nil _

theorem parseCode_inRange (h : parseCode text = .ok s) : ∀ op ∈ s.operands, op.InRange := by
  unfold parseCode at h
  simp only at h
  split_ifs at h
  · obtain ⟨args, hargs, rfl⟩ := map_eq_ok.1 h
    exact Operand.parseList_inRange hargs
  · obtain ⟨ops, hops, rfl⟩ := map_eq_ok.1 h
    exact Operand.parseList_inRange hops

theorem parse_inRange (h : parse text = .ok s) : ∀ op ∈ s.operands, op.InRange := by
  unfold parse at h
  split_ifs at h
  · cases h
    exact List.forall_mem_nil _
  · cases h
    exact List.forall_mem_nil _
  · split at h
    · cases h
      exact List.forall_mem_nil _
    · exact parsePercent_inRange h
    · exact parseCode_inRange h

end Statement

namespace Line

/-- **All that reading a line does**: it is cleaned, and its text says a statement. -/
theorem read_eq_ok_iff {file : String} {number : Nat} {raw : List Char} {l : Line} : read file number raw = .ok l ↔
    ∃ text, Source.clean raw = .ok text ∧ Statement.parse text = .ok l.statement ∧
      l = ⟨String.ofList text, number, file, l.statement⟩ := by
  unfold read
  rw [mapError_eq_ok, bind_eq_ok]
  refine exists_congr fun text => and_congr_right fun _ => ?_
  rw [bind_eq_ok]
  constructor
  · rintro ⟨s, hs, h⟩
    obtain rfl := pure_eq_ok.1 h
    exact ⟨hs, rfl⟩
  · rintro ⟨hs, h⟩
    exact ⟨l.statement, hs, pure_eq_ok.2 h.symm⟩

theorem Faithful.inRange {l : Line} (h : l.Faithful) : l.InRange := Statement.parse_inRange h

theorem Faithful.blanked (l : Line) (_ : l.Faithful) : l.blanked.Faithful := rfl

theorem faithful_of_readAll {file text : String} {lines : List Line} (h : readAll file text = .ok lines) :
    ∀ l ∈ lines, l.Faithful := by
  intro l hl
  obtain ⟨⟨raw, number⟩, -, hread⟩ := exists_of_mem_mapM h hl
  obtain ⟨clean, -, hs, he⟩ := read_eq_ok_iff.1 hread
  rw [Faithful, he, String.toList_ofList]
  exact hs

theorem readAll_inRange {file text : String} {lines : List Line} (h : readAll file text = .ok lines) :
    ∀ l ∈ lines, l.InRange :=
  fun l hl => (faithful_of_readAll h l hl).inRange

/-- Lines that are read are numbered from one. -/
theorem numbers_of_readAll {file text : String} {lines : List Line} (h : readAll file text = .ok lines) :
    lines.map number = List.range' 1 lines.length := by
  have hnumbers : ∀ (raws : List (List Char)) (k : Nat) (lines : List Line),
      List.Forall₂ (fun x l => read file x.2 x.1 = .ok l) (raws.zipIdx k) lines →
        lines.map number = List.range' k lines.length := by
    intro raws
    induction raws with
    | nil =>
      intro k lines h
      cases h
      rfl
    | cons raw raws ih =>
      intro k lines h
      obtain ⟨l, rest, hl, hrest, rfl⟩ := List.forall₂_cons_left_iff.1 h
      obtain ⟨clean, -, -, he⟩ := read_eq_ok_iff.1 hl
      rw [List.map_cons, ih _ _ hrest, List.length_cons, List.range'_succ, he]
  exact hnumbers _ 1 lines (mapM_eq_ok.1 h)

/-- Lines as those of a file, numbered from `k` on. -/
def numbered (file : String) (k : Nat) (lines : List Line) : List Line :=
  (lines.zipIdx k).map fun (l, n) => { l with number := n, file }

theorem numbered_cons (file : String) (k : Nat) (l : Line) (lines : List Line) :
    numbered file k (l :: lines) = { l with number := k, file } :: numbered file (k + 1) lines := rfl

end Line

/-- The lines of a text, each of them cleaned. -/
def Source.cleanLines (text : String) : Except Cause (List String) :=
  (Text.lines text.toList).mapM fun raw => String.ofList <$> clean raw

/-- A text whose lines, once cleaned, are those of lines that were read is read as the same lines, numbered
anew. -/
theorem Line.readAll_of_cleanLines {text : String} {lines : List Line} (file : String)
    (hclean : Source.cleanLines text = .ok (lines.map Line.text))
    (hparse : ∀ l ∈ lines, l.Faithful) :
    readAll file text = .ok (numbered file 1 lines) := by
  unfold Source.cleanLines at hclean
  unfold readAll
  rw [mapM_eq_ok] at hclean ⊢
  generalize 1 = k
  generalize Text.lines text.toList = raws at hclean ⊢
  rw [List.forall₂_map_right_iff] at hclean
  induction hclean generalizing k with
  | nil => exact .nil
  | cons hl _ ih =>
    obtain ⟨hparsed, hrest⟩ := List.forall_mem_cons.1 hparse
    obtain ⟨text, htext, he⟩ := map_eq_ok.1 hl
    rw [List.zipIdx_cons, numbered_cons]
    refine .cons (read_eq_ok_iff.2 ⟨text, htext, ?_, by rw [he]⟩) (ih hrest (k + 1))
    rw [Line.Faithful, ← he, String.toList_ofList] at hparsed
    exact hparsed

end Abcout
