import Abcout.Proofs.Disassembly

/-!
# Abcout.Proofs.Capacity — behind expansion, only room can run out

Once a source is expanded, labels get addresses and instructions are written.  Both passes check again what
expansion has checked before, and both can only fail for want of room:

* `Label.Far`: `Label.assign` fails at the first label behind more than 10922 instructions, whose address is no
  word.
* `Emission.Reached labels code e rest`: the lines `rest` of `code` are still to be emitted, and `e` is what the
  others came to.  `Emission.emit` emits the former and finishes the image (`Reached.emit_eq`).  There the next six
  bytes lie in the image and the address behind them is a word (`Reached.inBounds`), and the next instruction can
  be resolved (`Reached.resolve_ok`); so `Emission.emit` fails at the 5461st instruction and nowhere else.
* `Line.Overflows S line`: the line of a stream at which the lack of room is told (`layOut_overflows`).
* `run_fails_for_room_only`: the outcome of a run is settled by the number of instructions of its stream.
-/

namespace Abcout

namespace Line

/-- Whether a line is an instruction. -/
def isInstruction (l : Line) : Bool :=
  match l.statement with
  | .instruction _ => true
  | _ => false

theorem isInstruction_iff {l : Line} : l.isInstruction = true ↔ ∃ ops, l.statement = .instruction ops := by
  unfold isInstruction
  cases l.statement <;> simp

theorem instructions_filter_isInstruction (lines : List Line) :
    instructions (lines.filter isInstruction) = instructions lines := by
  induction lines with
  | nil => rfl
  | cons l rest ih =>
    by_cases hl : l.isInstruction = true
    · obtain ⟨ops, hops⟩ := isInstruction_iff.1 hl
      rw [List.filter_cons_of_pos hl, instructions_cons_instruction _ hops, instructions_cons_instruction _ hops,
        ih]
    · rw [List.filter_cons_of_neg hl, ih,
        instructions_cons_of_ne rest fun ops hops => hl (isInstruction_iff.2 ⟨ops, hops⟩)]

/-- Instructions are as many as the lines that hold them. -/
theorem length_instructions {lines : List Line} (h : ∀ l ∈ lines, l.isInstruction = true) :
    (instructions lines).length = lines.length := by
  induction lines with
  | nil => rfl
  | cons l rest ih =>
    obtain ⟨hl, hrest⟩ := List.forall_mem_cons.1 h
    obtain ⟨ops, hops⟩ := isInstruction_iff.1 hl
    rw [instructions_cons_instruction rest hops, List.length_cons, List.length_cons, ih hrest]

end Line

/-! ## Addresses -/

/-- A label of a stream that is declared behind more than 10922 instructions: its address is no word. -/
def Label.Far (S : List Line) (line : Line) : Prop :=
  ∃ before after name, S = before ++ line :: after ∧ line.statement = .label name ∧
    10922 < (Line.instructions before).length

/-- The line of a stream at which the lack of room is told. -/
inductive Line.Overflows (S : List Line) : Line → Prop
  /-- No label is far, and the line is the first instruction that does not fit. -/
  | instruction {line : Line} (hnear : ∀ l, ¬ Label.Far S l)
      (hline : (S.filter isInstruction)[5460]? = some line) :
      Overflows S line
  /-- The line is the first far label. -/
  | label {before after : List Line} {line : Line} {name : String} (hS : S = before ++ line :: after)
      (hl : line.statement = .label name) (hfar : 10922 < (instructions before).length)
      (hnear : ∀ l, ¬ Label.Far before l) : Overflows S line

namespace Label

variable {lines : List Line} {l l' : Layout} {line : Line}

/-- **All that a label does**: it gets the address that is reached, if that is a word. -/
theorem Layout.step_label {name : String} (hl : line.statement = .label name) :
    l.step line = if l.code.size ≤ 10922
      then .ok { l with labels := l.labels.insert name (some (UInt16.ofNat (l.code.size * Instruction.size))) }
      else .error (line.fault .tooManyInstructions) := by
  have hword : l.code.size * Instruction.size < UInt16.size ↔ l.code.size ≤ 10922 := by
    simp only [Instruction.size, UInt16.size]
    omega
  unfold Layout.step
  simp only [hl, hword]

/-- **Run**: the lines that are kept are the instructions. -/
theorem foldlM_step_code (hcode : ∀ x ∈ lines, x.IsCode) (h : lines.foldlM Layout.step l = .ok l') :
    l'.code.toList = l.code.toList ++ lines.filter Line.isInstruction := by
  induction lines generalizing l with
  | nil =>
    cases h
    exact (List.append_nil _).symm
  | cons line rest ih =>
    rw [List.foldlM_cons, bind_eq_ok] at h
    obtain ⟨l₁, hstep, h⟩ := h
    obtain ⟨hline, hrest⟩ := List.forall_mem_cons.1 hcode
    rw [ih hrest h]
    rcases hline with ⟨name, hl⟩ | ⟨ops, hl⟩
    · rw [Layout.step_label hl] at hstep
      split_ifs at hstep
      cases hstep
      rw [List.filter_cons_of_neg (by simp [Line.isInstruction, hl])]
    · unfold Layout.step at hstep
      simp only [hl] at hstep
      cases hstep
      rw [List.filter_cons_of_pos (by simp [Line.isInstruction, hl]), Array.toList_push, List.append_assoc,
        List.singleton_append]

theorem size_foldlM_step (hcode : ∀ x ∈ lines, x.IsCode) {labels : LabelTable}
    (h : lines.foldlM Layout.step { labels } = .ok l') : l'.code.size = (Line.instructions lines).length := by
  rw [← Array.length_toList, foldlM_step_code hcode h, ← Line.instructions_filter_isInstruction,
    Line.length_instructions fun x hx => (List.mem_filter.1 hx).2]
  rfl

/-- As long as every label gets an address, none is far. -/
theorem not_far_of_foldlM (hcode : ∀ x ∈ lines, x.IsCode) {labels : LabelTable}
    (h : lines.foldlM Layout.step { labels } = .ok l') (line : Line) : ¬ Far lines line := by
  rintro ⟨before, after, name, rfl, hl, hfar⟩
  obtain ⟨l₁, l₂, hbefore, hstep, -⟩ := exists_of_foldlM_append_cons h
  rw [Layout.step_label hl, size_foldlM_step (fun x hx => hcode x (List.mem_append_left _ hx)) hbefore,
    if_neg (by omega)] at hstep
  cases hstep

/-- **Addresses run out at the first far label.** -/
theorem assign_overflows {labels : LabelTable} {fault : Fault} (hcode : ∀ x ∈ lines, x.IsCode)
    (h : assign labels lines = .error fault) :
    ∃ line, Line.Overflows lines line ∧ fault = line.fault .tooManyInstructions := by
  obtain hfold | ⟨l, -, hpure⟩ := bind_eq_error.1 h
  swap
  · cases hpure
  obtain ⟨before, line, after, l, rfl, hbefore, hstep⟩ := exists_of_foldlM_eq_error hfold
  have hcode' : ∀ x ∈ before, x.IsCode := fun x hx => hcode x (List.mem_append_left _ hx)
  rcases hcode line (by simp) with ⟨name, hl⟩ | ⟨ops, hl⟩
  · rw [Layout.step_label hl, size_foldlM_step hcode' hbefore] at hstep
    split_ifs at hstep with hnear
    cases hstep
    exact ⟨line, .label rfl hl (Nat.lt_of_not_le hnear) (not_far_of_foldlM hcode' hbefore), rfl⟩
  · unfold Layout.step at hstep
    simp only [hl] at hstep
    cases hstep

theorem code_of_assign {labels labels' : LabelTable} {code : List Line} (hcode : ∀ x ∈ lines, x.IsCode)
    (h : assign labels lines = .ok (labels', code)) :
    code = lines.filter Line.isInstruction ∧ ∀ line, ¬ Far lines line := by
  obtain ⟨l, hl, hpure⟩ := bind_eq_ok.1 h
  cases pure_eq_ok.1 hpure
  exact ⟨by simpa using foldlM_step_code hcode hl, not_far_of_foldlM hcode hl⟩

end Label

/-- Every label of the table is declared in the stream, so that none is left without an address. -/
theorem Symbols.Expanding.address_of_assigned {S : List Line} {s : Symbols} {labels : LabelTable}
    (hS : Symbols.Expanding S s []) (hlabels : s.labels.Assigned labels 0 S) {x : String} (hx : x ∈ labels) :
    ∃ address, labels[x]? = some (some address) := by
  cases hp : Line.position? x S with
  | none =>
    -- such a label would be one of the old table, and those are all declared in the stream
    have hold : x ∈ s.labels := by
      rw [Std.ExtTreeMap.mem_iff_isSome_getElem?, ← hlabels.of_none hp, ← Std.ExtTreeMap.mem_iff_isSome_getElem?]
      exact hx
    have hmem : x ∈ Line.declared S := by simpa using hS.mem_labels.1 hold
    exact absurd hmem (Line.position?_eq_none_iff.1 hp)
  | some n => exact ⟨_, (hlabels.of_position hp).2⟩

/-! ## Instructions -/

namespace Emission

/-- The lines `rest` of `code` are still to be emitted; the lines before them came to `e`. -/
def Reached (labels : LabelTable) (code : List Line) (e : Emitted) (rest : List Line) : Prop :=
  ∃ before, code = before ++ rest ∧ before.foldlM (Emitted.step labels) {} = .ok e

namespace Reached

variable {labels : LabelTable} {code rest : List Line} {e : Emitted}

/-- **What is left of emission**: the remaining lines are emitted one by one, and the image is finished. -/
theorem emit_eq (h : Reached labels code e rest) : emit labels code =
    (rest.foldlM (Emitted.step labels) e).map fun e' => ⟨e'.program.toList, e'.writer.finish⟩ := by
  obtain ⟨before, rfl, hbefore⟩ := h
  unfold emit
  rw [List.foldlM_append, hbefore]
  rfl

theorem holds (h : Reached labels code e rest) : e.writer.Holds e.program.toList := by
  obtain ⟨before, -, hbefore⟩ := h
  exact (foldlM_step_spec Image.Writer.holds_empty hbefore).1

/-- The next six bytes, of an instruction or of the sentinel, lie in the image, and the address behind them is a
word. -/
theorem inBounds (h : Reached labels code e rest) :
    e.writer.next + Instruction.size ≤ e.writer.bytes.size ∧ e.writer.next + Instruction.size < UInt16.size := by
  have hfits : e.program.toList.length ≤ 5460 := h.holds.fits
  rw [h.holds.size_bytes, h.holds.next_eq]
  simp only [Image.size, Instruction.size, UInt16.size]
  omega

/-- Whatever is emitted next can be resolved: it was found executable when the stream was made. -/
theorem resolve_ok {S : List Line} {s : Symbols} (hS : Symbols.Expanding S s [])
    (hlabels : s.labels.Assigned labels 0 S) (hinstr : Line.instructions code = Line.instructions S) {line : Line}
    {ops : List Operand} (h : Reached labels code e (line :: rest)) (hl : line.statement = .instruction ops) :
    ∃ ins, resolve labels e.writer.next ops = .ok ins := by
  have hmem : ops ∈ Line.instructions S := by
    obtain ⟨before, rfl, -⟩ := h
    rw [← hinstr, Line.instructions_append, Line.instructions_cons_instruction rest hl]
    exact List.mem_append_right _ List.mem_cons_self
  rw [h.holds.next_eq]
  exact Assembly.exists_resolve hS hlabels (hS.executable ops hmem) h.holds.fits

end Reached

/-- **The image is full at the 5461st instruction.** -/
theorem emit_overflows {S code : List Line} {s : Symbols} {labels : LabelTable} {fault : Fault}
    (hS : Symbols.Expanding S s []) (hlabels : s.labels.Assigned labels 0 S)
    (hcode : code = S.filter Line.isInstruction) (h : emit labels code = .error fault) :
    ∃ line, code[5460]? = some line ∧ fault = line.fault .tooManyInstructions := by
  obtain hfold | ⟨e, -, hpure⟩ := bind_eq_error.1 h
  swap
  · cases hpure
  obtain ⟨before, line, after, e, hsplit, hbefore, hstep⟩ := exists_of_foldlM_eq_error hfold
  have hreached : Reached labels code e (line :: after) := ⟨before, hsplit, hbefore⟩
  have hall : ∀ l ∈ code, l.isInstruction = true := fun l hl => (List.mem_filter.1 (hcode ▸ hl)).2
  obtain ⟨ops, hl⟩ := Line.isInstruction_iff.1 (hall line (by simp [hsplit]))
  have hinstr : Line.instructions code = Line.instructions S := by
    rw [hcode, Line.instructions_filter_isInstruction]
  obtain ⟨ins, hins⟩ := hreached.resolve_ok hS hlabels hinstr hl
  -- as many instructions are written as lines stand before this one
  have hlength : e.program.toList.length = before.length := by
    obtain ⟨-, q, hq, hres⟩ := foldlM_step_spec Image.Writer.holds_empty hbefore
    rw [hq, List.nil_append, ← hres.length_eq, List.length_zipIdx,
      Line.length_instructions fun l hmem => hall l (by simp [hsplit, hmem])]
  unfold Emitted.step at hstep
  simp only [hl, hins] at hstep
  obtain hresolve | ⟨ins', -, hstep⟩ := bind_eq_error.1 hstep
  · cases hresolve
  obtain hpush | ⟨writer, -, hpure⟩ := bind_eq_error.1 hstep
  swap
  · cases hpure
  obtain ⟨full, hfull, rfl⟩ := mapError_eq_error.1 hpush
  refine ⟨line, ?_, rfl⟩
  have hroom : ¬ e.program.toList.length < Image.capacity := by
    intro hroom
    obtain ⟨writer, hwriter, -⟩ := hreached.holds.push_ok ins' hroom
    rw [hwriter] at hfull
    cases hfull
  have hfits := hreached.holds.fits
  have hcapacity : Image.capacity = 5460 := rfl
  obtain hn : before.length = 5460 := by omega
  rw [hsplit, List.getElem?_append_right (by omega), hn]
  rfl

end Emission

/-! ## Both passes -/

namespace Assembly

variable {tree : FileTree} {origin : Origin} {text : String}

/-- **Lack of room is told at the first far label, or at the 5461st instruction.** -/
theorem layOut_overflows {S : List Line} {s : Symbols} {fault : Fault} (hS : Symbols.Expanding S s [])
    (h : layOut s.labels S = .error fault) :
    ∃ line, Line.Overflows S line ∧ fault = line.fault .tooManyInstructions := by
  obtain hassign | ⟨⟨labels, code⟩, hassign, hemit⟩ := bind_eq_error.1 h
  · exact Label.assign_overflows hS.isCode hassign
  · have hnd : (Line.declared S).Nodup := by simpa using hS.nodup
    obtain ⟨-, hlabels⟩ := Label.assign_spec hS.isCode hnd hassign
    obtain ⟨hcode, hnear⟩ := Label.code_of_assign hS.isCode hassign
    obtain ⟨line, hline, hfault⟩ := Emission.emit_overflows hS hlabels hcode hemit
    exact ⟨line, .instruction hnear (hcode ▸ hline), hfault⟩

/-- Instructions that do not fit are refused. -/
theorem layOut_full {S : List Line} {s : Symbols} (hS : Symbols.Expanding S s [])
    (hfull : Image.capacity < (Line.instructions S).length) :
    ∃ fault, layOut s.labels S = .error fault ∧ fault.cause = .tooManyInstructions := by
  cases h : layOut s.labels S with
  | error fault =>
    obtain ⟨line, -, rfl⟩ := layOut_overflows hS h
    exact ⟨_, rfl, rfl⟩
  | ok product =>
    obtain ⟨-, hfits, hlen, -⟩ := layOut_spec hS h
    omega

/-- **Behind expansion, only room can run out.**  A source whose stream has at most 5460 instructions is assembled,
and one with more is refused for that reason.  When the labels have their addresses, none is without one.  At every
moment of emission, what is left of it is to emit the remaining lines and to finish the image; the next six bytes
lie in the image, the address behind them is a word, and the next instruction can be resolved. -/
theorem run_fails_for_room_only {S : List Line} {s : Symbols} (h : stream tree origin text = .ok (S, s)) :
    ((Line.instructions S).length ≤ 5460 → ∃ product, (run tree origin text).outcome = .ok product) ∧
      (5460 < (Line.instructions S).length →
        ∃ fault, (run tree origin text).outcome = .error fault ∧ fault.cause = .tooManyInstructions) ∧
      ∀ labels code, Label.assign s.labels S = .ok (labels, code) →
        (∀ x ∈ labels, ∃ address, labels[x]? = some (some address)) ∧
        ∀ e rest, Emission.Reached labels code e rest →
          Emission.emit labels code =
            (rest.foldlM (Emission.Emitted.step labels) e).map (fun e' => ⟨e'.program.toList, e'.writer.finish⟩) ∧
          e.writer.next + Instruction.size ≤ e.writer.bytes.size ∧ e.writer.next + Instruction.size < UInt16.size ∧
          ∀ line ∈ rest.head?, ∀ ops, line.statement = .instruction ops →
            ∃ ins, Emission.resolve labels e.writer.next ops = .ok ins := by
  have hS := stream_expanding h
  rw [run_outcome_of_stream h]
  refine ⟨layOut_ok hS, layOut_full hS, ?_⟩
  intro labels code hassign
  have hnd : (Line.declared S).Nodup := by simpa using hS.nodup
  obtain ⟨hinstr, hlabels⟩ := Label.assign_spec hS.isCode hnd hassign
  refine ⟨fun x hx => hS.address_of_assigned hlabels hx, ?_⟩
  intro e rest hreached
  obtain ⟨hwrite, hword⟩ := hreached.inBounds
  refine ⟨hreached.emit_eq, hwrite, hword, ?_⟩
  intro line hline ops hl
  obtain ⟨after, rfl⟩ := List.head?_eq_some_iff.1 hline
  exact hreached.resolve_ok hS hlabels hinstr hl

/-- One instruction more than fits. -/
def overfull : Program := List.replicate 5461 ⟨0, 0, 0⟩

theorem writable_replicate (n : Nat) :
    ∀ i ∈ List.replicate n (Instruction.mk 0 0 0), i.Writable ∧ i.c.toNat % 6 = 0 := by
  intro i hi
  rw [List.eq_of_mem_replicate hi]
  exact ⟨⟨by decide, by decide, by decide⟩, by decide⟩

theorem stream_overfull : stream {} {} overfull.listing = .ok (overfull.lines "[code]", {}) :=
  stream_listing.2 ⟨writable_replicate 5461, rfl, rfl⟩

theorem length_overfull : 5460 < (Line.instructions (overfull.lines "[code]")).length := by
  rw [overfull.instructions_lines, List.length_map, overfull, List.length_replicate]
  decide

/-- A source that is assembled, and one with an instruction too many. -/
theorem run_fails_for_room_only_overfull :
    (∃ S s, stream {} {} twoCalls = .ok (S, s) ∧ (Line.instructions S).length ≤ 5460 ∧
      ∃ product, (run {} {} twoCalls).outcome = .ok product) ∧
    ∃ S s fault, stream {} {} overfull.listing = .ok (S, s) ∧ 5460 < (Line.instructions S).length ∧
      (run {} {} overfull.listing).outcome = .error fault ∧ fault.cause = .tooManyInstructions := by
  constructor
  · obtain ⟨product, hrun, hprogram⟩ := run_twoCalls
    obtain ⟨S, s, hstream, hlay⟩ := run_eq_ok hrun
    obtain ⟨-, hfits, hlen, -⟩ := layOut_spec (stream_expanding hstream) hlay
    have hle : (Line.instructions S).length ≤ 5460 := hlen ▸ hfits
    exact ⟨S, s, hstream, hle, (run_fails_for_room_only hstream).1 hle⟩
  · obtain ⟨fault, hrun, hcause⟩ := (run_fails_for_room_only stream_overfull).2.1 length_overfull
    exact ⟨_, _, fault, stream_overfull, length_overfull, hrun, hcause⟩

end Assembly

end Abcout
