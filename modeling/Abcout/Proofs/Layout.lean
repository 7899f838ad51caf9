import Abcout.Assembly
import Abcout.Proofs.Expansion
import Abcout.Proofs.Image

/-!
# Abcout.Proofs.Layout — addresses and instructions of a stream

Two passes count on their own: `Label.assign` counts the lines it keeps, `Emission.emit` the bytes it has written.
On a stream of labels and instructions both come to the number of instructions before a line, which is told by
`Line.position?` and the index of an instruction alone.

* `Label.assign_spec`: a label gets six times its position (`LabelTable.Assigned`).
* `Emission.emit_spec`: the `i`-th instruction is resolved at address `6 * i`.
* `Resolved S i ops ins`: what the `i`-th instruction of a stream becomes; `layOut_spec` puts the two passes
  together.
* `layOut_ok`: both passes succeed if the instructions fit.
-/

namespace Abcout

/-! ## Addresses of labels -/

/-- The second table is the first with addresses for the labels of `lines`: six times the position, with `k`
instructions before. -/
def LabelTable.Assigned (t t' : LabelTable) (k : Nat) (lines : List Line) : Prop :=
  ∀ x, match Line.position? x lines with
    | some n => 6 * (k + n) < UInt16.size ∧ t'[x]? = some (some (UInt16.ofNat (6 * (k + n))))
    | none => t'[x]? = t[x]?

namespace LabelTable.Assigned

variable {t t' : LabelTable} {k n : Nat} {lines : List Line} {x : String}

theorem of_position (h : t.Assigned t' k lines) (hp : Line.position? x lines = some n) :
    6 * (k + n) < UInt16.size ∧ t'[x]? = some (some (UInt16.ofNat (6 * (k + n)))) := by
  have hx := h x
  rw [hp] at hx
  exact hx

theorem of_none (h : t.Assigned t' k lines) (hp : Line.position? x lines = none) : t'[x]? = t[x]? := by
  have hx := h x
  rw [hp] at hx
  exact hx

/-- A label in front has the address that is reached; it is not declared again. -/
theorem cons_label {line : Line} {name : String} (hl : line.statement = .label name)
    (hnew : name ∉ Line.declared lines) (hlt : 6 * k < UInt16.size)
    (h : Assigned (t.insert name (some (UInt16.ofNat (6 * k)))) t' k lines) : t.Assigned t' k (line :: lines) := by
  intro x
  rw [Line.position?]
  simp only [hl]
  by_cases hx : name = x
  · subst hx
    have hget := h.of_none (Line.position?_eq_none_iff.2 hnew)
    rw [getElem?_insert_name, if_pos rfl] at hget
    rw [if_pos rfl]
    exact ⟨hlt, hget⟩
  · have hget := h x
    rw [getElem?_insert_name, if_neg hx] at hget
    rw [if_neg hx]
    exact hget

/-- An instruction in front moves the labels behind it. -/
theorem cons_instruction {line : Line} {ops : List Operand} (hl : line.statement = .instruction ops)
    (h : t.Assigned t' (k + 1) lines) : t.Assigned t' k (line :: lines) := by
  intro x
  rw [Line.position?]
  simp only [hl]
  cases hp : Line.position? x lines with
  | none => exact h.of_none hp
  | some n =>
    have e : k + (n + 1) = k + 1 + n := by omega
    simp only [Option.map_some, e]
    exact h.of_position hp

end LabelTable.Assigned

namespace Label

/-- **Labels of a run**: with `k` lines kept before, a label at position `n` gets the address `6 * (k + n)`, and
other labels keep theirs. -/
theorem foldlM_step_spec {lines : List Line} {l l' : Layout} (hcode : ∀ x ∈ lines, x.IsCode)
    (hnd : (Line.declared lines).Nodup) (h : lines.foldlM Layout.step l = .ok l') :
    Line.instructions l'.code.toList = Line.instructions l.code.toList ++ Line.instructions lines ∧
      l.labels.Assigned l'.labels l.code.size lines := by
  induction lines generalizing l with
  | nil =>
    cases h
    exact ⟨by simp, fun x => rfl⟩
  | cons line rest ih =>
    rw [List.foldlM_cons, bind_eq_ok] at h
    obtain ⟨l₁, hstep, h⟩ := h
    obtain ⟨hline, hrest⟩ := List.forall_mem_cons.1 hcode
    unfold Layout.step at hstep
    rcases hline with ⟨name, hl⟩ | ⟨ops, hl⟩
    · rw [Line.declared_cons_label rest hl, List.nodup_cons] at hnd
      simp only [hl] at hstep
      split_ifs at hstep with hlt
      cases hstep
      obtain ⟨hinstr, hlabels⟩ := ih hrest hnd.2 h
      rw [Instruction.size, Nat.mul_comm] at hlt hlabels
      exact ⟨by rw [hinstr, Line.instructions_cons_label rest hl], hlabels.cons_label hl hnd.1 hlt⟩
    · rw [Line.declared_cons_instruction rest hl] at hnd
      simp only [hl] at hstep
      cases hstep
      obtain ⟨hinstr, hlabels⟩ := ih hrest hnd h
      refine ⟨?_, ?_⟩
      · rw [hinstr, Array.toList_push, Line.instructions_append, List.append_assoc, ← Line.instructions_append,
          List.singleton_append]
      · rw [Array.size_push] at hlabels
        exact hlabels.cons_instruction hl

theorem assign_spec {labels labels' : LabelTable} {lines code : List Line} (hcode : ∀ x ∈ lines, x.IsCode)
    (hnd : (Line.declared lines).Nodup) (h : assign labels lines = .ok (labels', code)) :
    Line.instructions code = Line.instructions lines ∧ labels.Assigned labels' 0 lines := by
  unfold assign at h
  obtain ⟨l, hl, h⟩ := bind_eq_ok.1 h
  cases pure_eq_ok.1 h
  obtain ⟨hinstr, hlabels⟩ := foldlM_step_spec hcode hnd hl
  exact ⟨by simpa using hinstr, hlabels⟩

/-- Every address of a program that fits is a word. -/
theorem foldlM_step_ok {lines : List Line} {l : Layout} (hcode : ∀ x ∈ lines, x.IsCode)
    (hfit : l.code.size + (Line.instructions lines).length ≤ Image.capacity) :
    ∃ l', lines.foldlM Layout.step l = .ok l' := by
  induction lines generalizing l with
  | nil => exact ⟨l, rfl⟩
  | cons line rest ih =>
    obtain ⟨hline, hrest⟩ := List.forall_mem_cons.1 hcode
    rw [List.foldlM_cons]
    unfold Layout.step
    rcases hline with ⟨name, hl⟩ | ⟨ops, hl⟩
    · rw [Line.instructions_cons_label rest hl] at hfit
      have hlt : l.code.size * Instruction.size < UInt16.size := by
        have hsize : l.code.size ≤ 5460 := Nat.le_trans (Nat.le_add_right _ _) hfit
        simp only [Instruction.size, UInt16.size]
        omega
      simp only [hl, if_pos hlt]
      exact ih hrest hfit
    · rw [Line.instructions_cons_instruction rest hl, List.length_cons] at hfit
      simp only [hl]
      refine ih hrest ?_
      rw [Array.size_push]
      omega

theorem assign_ok (labels : LabelTable) {lines : List Line} (hcode : ∀ x ∈ lines, x.IsCode)
    (hfit : (Line.instructions lines).length ≤ Image.capacity) : ∃ r, assign labels lines = .ok r := by
  obtain ⟨l, hl⟩ := foldlM_step_ok (l := { labels }) hcode (by simpa using hfit)
  exact ⟨_, bind_eq_ok.2 ⟨l, hl, rfl⟩⟩

end Label

/-! ## Instructions of a stream -/

namespace Emission

/-- **All that an instruction does**: it is resolved at the address reached, and written there. -/
theorem Emitted.step_instruction {labels : LabelTable} {e e' : Emitted} {line : Line} {ops : List Operand}
    (hl : line.statement = .instruction ops) :
    e.step labels line = .ok e' ↔ ∃ ins writer, resolve labels e.writer.next ops = .ok ins ∧
      e.writer.push ins = .ok writer ∧ e' = ⟨writer, e.program.push ins⟩ := by
  unfold Emitted.step
  simp only [hl, bind_eq_ok, mapError_eq_ok, pure_eq_ok]
  constructor
  · rintro ⟨ins, hins, writer, hwriter, rfl⟩
    exact ⟨ins, writer, hins, hwriter, rfl⟩
  · rintro ⟨ins, writer, hins, hwriter, rfl⟩
    exact ⟨ins, hins, writer, hwriter, rfl⟩

theorem Emitted.step_of_ne {labels : LabelTable} {e : Emitted} {line : Line}
    (hl : ∀ ops, line.statement ≠ .instruction ops) : e.step labels line = .ok e := by
  unfold Emitted.step
  split
  · rename_i ops hops
    exact absurd hops (hl ops)
  · rfl

/-- **Run**: lines are emitted in order, each at six times the number of instructions before it. -/
theorem foldlM_step_spec {labels : LabelTable} {code : List Line} {e e' : Emitted}
    (hw : e.writer.Holds e.program.toList) (h : code.foldlM (Emitted.step labels) e = .ok e') :
    e'.writer.Holds e'.program.toList ∧ ∃ q, e'.program.toList = e.program.toList ++ q ∧
      List.Forall₂ (fun x ins => resolve labels (6 * x.2) x.1 = .ok ins)
        ((Line.instructions code).zipIdx e.program.size) q := by
  induction code generalizing e with
  | nil =>
    cases h
    exact ⟨hw, [], by simp, .nil⟩
  | cons line rest ih =>
    rw [List.foldlM_cons, bind_eq_ok] at h
    obtain ⟨e₁, hstep, h⟩ := h
    by_cases hcode : ∃ ops, line.statement = .instruction ops
    · obtain ⟨ops, hl⟩ := hcode
      obtain ⟨i, writer, hi, hwriter, rfl⟩ := (Emitted.step_instruction hl).1 hstep
      have hw₁ : writer.Holds (e.program.push i).toList := by
        rw [Array.toList_push]
        exact hw.of_push hwriter
      obtain ⟨hw', q, hq, hall⟩ := ih hw₁ h
      refine ⟨hw', i :: q, ?_, ?_⟩
      · rw [hq, Array.toList_push, List.append_assoc, List.singleton_append]
      · rw [Line.instructions_cons_instruction rest hl, List.zipIdx_cons]
        rw [hw.next_eq, Array.length_toList] at hi
        refine .cons hi ?_
        rw [Array.size_push] at hall
        exact hall
    · have hl : ∀ ops, line.statement ≠ .instruction ops := fun ops hops => hcode ⟨ops, hops⟩
      rw [Emitted.step_of_ne hl] at hstep
      cases hstep
      rw [Line.instructions_cons_of_ne rest hl]
      exact ih hw h

/-- **Emission**: the image is that of the program, and the `i`-th instruction is resolved at address `6 * i`. -/
theorem emit_spec {labels : LabelTable} {code : List Line} {product : Product}
    (h : emit labels code = .ok product) :
    product.image = product.program.image ∧ product.program.length ≤ Image.capacity ∧
      List.Forall₂ (fun x ins => resolve labels (6 * x.2) x.1 = .ok ins)
        (Line.instructions code).zipIdx product.program := by
  unfold emit at h
  obtain ⟨e, he, h⟩ := bind_eq_ok.1 h
  obtain rfl := pure_eq_ok.1 h
  obtain ⟨hw, q, hq, hall⟩ := foldlM_step_spec Image.Writer.holds_empty he
  obtain rfl : e.program.toList = q := by simpa using hq
  dsimp only
  exact ⟨hw.finish_eq, hw.fits, hall⟩

/-- Instructions that fit are emitted as long as each can be resolved at its address. -/
theorem foldlM_step_ok {labels : LabelTable} {code : List Line} {e : Emitted}
    (hw : e.writer.Holds e.program.toList)
    (hfit : e.program.size + (Line.instructions code).length ≤ Image.capacity)
    (hres : ∀ i ops, (Line.instructions code)[i]? = some ops →
      ∃ ins, resolve labels (6 * (e.program.size + i)) ops = .ok ins) :
    ∃ e', code.foldlM (Emitted.step labels) e = .ok e' := by
  induction code generalizing e with
  | nil => exact ⟨e, rfl⟩
  | cons line rest ih =>
    rw [List.foldlM_cons]
    by_cases hcode : ∃ ops, line.statement = .instruction ops
    · obtain ⟨ops, hl⟩ := hcode
      rw [Line.instructions_cons_instruction rest hl] at hfit hres
      rw [List.length_cons] at hfit
      obtain ⟨ins, hins⟩ := hres 0 ops rfl
      have hroom : e.program.toList.length < Image.capacity := by
        rw [Array.length_toList]
        omega
      obtain ⟨writer, hwriter, hw'⟩ := hw.push_ok ins hroom
      rw [Nat.add_zero, ← Array.length_toList, ← hw.next_eq] at hins
      rw [(Emitted.step_instruction hl).2 ⟨ins, writer, hins, hwriter, rfl⟩]
      refine ih (e := ⟨writer, e.program.push ins⟩) ?_ ?_ ?_
      · rw [Array.toList_push]
        exact hw'
      · rw [Array.size_push]
        omega
      · intro i ops' hops'
        rw [Array.size_push, Nat.add_right_comm, Nat.add_assoc]
        exact hres (i + 1) ops' hops'
    · have hl : ∀ ops, line.statement ≠ .instruction ops := fun ops hops => hcode ⟨ops, hops⟩
      rw [Line.instructions_cons_of_ne rest hl] at hfit hres
      rw [Emitted.step_of_ne hl]
      exact ih hw hfit hres

theorem emit_ok (labels : LabelTable) {code : List Line}
    (hfit : (Line.instructions code).length ≤ Image.capacity)
    (hres : ∀ i ops, (Line.instructions code)[i]? = some ops → ∃ ins, resolve labels (6 * i) ops = .ok ins) :
    ∃ product, emit labels code = .ok product := by
  obtain ⟨e, he⟩ := foldlM_step_ok (e := {}) Image.Writer.holds_empty (by simpa using hfit) (by simpa using hres)
  exact ⟨_, bind_eq_ok.2 ⟨e, he, rfl⟩⟩

end Emission

/-! ## Both passes -/

/-- What the `i`-th instruction of a stream becomes: numbers stand for themselves, an omitted address for the next
instruction, and a label for the instruction behind its declaration. -/
inductive Resolved (S : List Line) (i : Nat) : List Operand → Instruction → Prop
  | next (a b c : UInt16) (h : c.toNat = 6 * (i + 1)) : Resolved S i [.number a, .number b] ⟨a, b, c⟩
  | address (a b c : UInt16) : Resolved S i [.number a, .number b, .number c] ⟨a, b, c⟩
  | label (a b c : UInt16) (name : String) (n : Nat) (hn : Line.position? name S = some n)
      (h : c.toNat = 6 * n) : Resolved S i [.number a, .number b, .label name] ⟨a, b, c⟩

namespace Assembly

/-- An executable instruction is resolved by position, if it is resolved by the table that `assign` leaves. -/
theorem resolved_of_resolve {S : List Line} {labels labels' : LabelTable} (hun : labels.Unassigned)
    (hlabels : labels.Assigned labels' 0 S)
    {i : Nat} {ops : List Operand} {ins : Instruction} (hx : Executable labels ops)
    (h : Emission.resolve labels' (6 * i) ops = .ok ins) : Resolved S i ops ins := by
  cases hx with
  | next a b =>
    unfold Emission.resolve at h
    obtain ⟨hlt, h⟩ := ensure_bind_eq_ok.1 h
    cases h
    refine .next a b _ ?_
    rw [decide_eq_true_eq] at hlt
    rw [UInt16.toNat_ofNat_of_lt' hlt, Instruction.size]
    omega
  | address a b c _ =>
    cases h
    exact .address a b c
  | label a b name _ =>
    unfold Emission.resolve at h
    obtain ⟨a', ha, h⟩ := bind_eq_ok.1 h
    obtain ⟨b', hb, h⟩ := bind_eq_ok.1 h
    obtain ⟨c, hc, h⟩ := bind_eq_ok.1 h
    cases ha
    cases hb
    cases pure_eq_ok.1 h
    unfold Emission.value at hc
    simp only at hc
    cases hp : Line.position? name S with
    | none =>
      -- a label that is not declared in the stream has no address
      rw [hlabels.of_none hp] at hc
      split at hc
      · rename_i address hget
        cases hun name _ hget
      · cases hc
    | some n =>
      obtain ⟨hlt, hget⟩ := hlabels.of_position hp
      rw [Nat.zero_add] at hlt hget
      rw [hget] at hc
      cases hc
      exact .label a b _ name n hp (UInt16.toNat_ofNat_of_lt' hlt)

/-- **Layout, exactly**: from a stream of labels and executable instructions, all labels different. -/
theorem layOut_spec {S : List Line} {s : Symbols} {product : Product} (hS : Symbols.Expanding S s [])
    (h : layOut s.labels S = .ok product) :
    product.image = product.program.image ∧ product.program.length ≤ Image.capacity ∧
      product.program.length = (Line.instructions S).length ∧
      ∀ i ops, (Line.instructions S)[i]? = some ops →
        ∃ ins, product.program[i]? = some ins ∧ Resolved S i ops ins := by
  unfold layOut at h
  obtain ⟨⟨labels', code⟩, hassign, hemit⟩ := bind_eq_ok.1 h
  have hnd : (Line.declared S).Nodup := by simpa using hS.nodup
  obtain ⟨hinstr, hlabels⟩ := Label.assign_spec hS.isCode hnd hassign
  obtain ⟨himage, hfits, hall⟩ := Emission.emit_spec hemit
  rw [hinstr] at hall
  have hlen : (Line.instructions S).length = product.program.length := by simpa using hall.length_eq
  refine ⟨himage, hfits, hlen.symm, fun i ops hops => ?_⟩
  obtain ⟨hi, rfl⟩ := List.getElem?_eq_some_iff.1 hops
  refine ⟨product.program[i], List.getElem?_eq_getElem (hlen ▸ hi), ?_⟩
  have hres := (List.forall₂_iff_get.1 hall).2 i (by simpa using hi) (hlen ▸ hi)
  simp only [List.get_eq_getElem, List.getElem_zipIdx, Nat.zero_add] at hres
  exact resolved_of_resolve hS.unassigned hlabels (hS.executable _ (List.getElem_mem hi)) hres

/-- An executable instruction can be resolved, once the labels of the stream have their addresses, up to the first
that does not fit. -/
theorem exists_resolve {S : List Line} {s : Symbols} {labels : LabelTable} (hS : Symbols.Expanding S s [])
    (hlabels : s.labels.Assigned labels 0 S)
    {i : Nat} {ops : List Operand} (hx : Executable s.labels ops) (hi : i ≤ Image.capacity) :
    ∃ ins, Emission.resolve labels (6 * i) ops = .ok ins := by
  cases hx with
  | next a b =>
    have hlt : 6 * i + Instruction.size < UInt16.size := by
      have hc : i ≤ 5460 := hi
      simp only [Instruction.size, UInt16.size]
      omega
    exact ⟨_, ensure_bind_eq_ok.2 ⟨by simpa using hlt, rfl⟩⟩
  | address a b c _ => exact ⟨⟨a, b, c⟩, rfl⟩
  | label a b name hn =>
    have hmem : name ∈ Line.declared S := by simpa using hS.mem_labels.1 hn
    obtain ⟨n, hp⟩ := Line.exists_position? hmem
    obtain ⟨-, hget⟩ := hlabels.of_position hp
    refine ⟨⟨a, b, UInt16.ofNat (6 * (0 + n))⟩, ?_⟩
    simp only [Emission.resolve, Emission.value, hget, bind, Except.bind, pure, Except.pure]

/-- **Layout succeeds** for every stream whose instructions fit. -/
theorem layOut_ok {S : List Line} {s : Symbols} (hS : Symbols.Expanding S s [])
    (hfit : (Line.instructions S).length ≤ Image.capacity) : ∃ product, layOut s.labels S = .ok product := by
  obtain ⟨⟨labels, code⟩, hassign⟩ := Label.assign_ok s.labels hS.isCode hfit
  have hnd : (Line.declared S).Nodup := by simpa using hS.nodup
  obtain ⟨hinstr, hlabels⟩ := Label.assign_spec hS.isCode hnd hassign
  rw [← hinstr] at hfit
  obtain ⟨product, hemit⟩ := Emission.emit_ok labels hfit fun i ops hops => by
    obtain ⟨hi, rfl⟩ := List.getElem?_eq_some_iff.1 hops
    refine exists_resolve hS hlabels ?_ (Nat.le_of_lt (Nat.lt_of_lt_of_le hi hfit))
    rw [hinstr] at hi
    simp only [hinstr]
    exact hS.executable _ (List.getElem_mem hi)
  exact ⟨product, bind_eq_ok.2 ⟨_, hassign, hemit⟩⟩

end Assembly

end Abcout
