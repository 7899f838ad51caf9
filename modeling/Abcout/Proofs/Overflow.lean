import Abcout.Proofs.Capacity
import Abcout.Proofs.Pieces
import Abcout.Proofs.Relayout

/-!
# Abcout.Proofs.Overflow — where too many instructions are told

Only the last two passes tell that there are too many instructions (`stream_notFull`), so the lack of room is
always told at a line of the stream: at the 5461st instruction, unless a label is declared behind more than 10922
of them (`run_tells_overflow`).  Such a label is told although the first instruction that does not fit stands long
before it (`far_label_told_first`).
-/

namespace Abcout

/-! ## The passes before -/

/-- The computation never fails for want of room. -/
abbrev NotFull {α : Type} (x : Except Fault α) : Prop := OnlyFails (fun f => f.cause ≠ .tooManyInstructions) x

theorem PlainAt.notFull {α : Type} {x : Except Fault α} (h : PlainAt x) : NotFull x := by
  refine h.imp fun f hf hfull => ?_
  rw [hfull] at hf
  cases hf

theorem NotFull.importedFrom {α : Type} {x : Except Fault α} (h : NotFull x) (place : Place) :
    NotFull (x.mapError (.importedFrom place)) :=
  h.mapError fun _ hf => hf

theorem Symbols.defineAll_notFull (s : Symbols) (blocks : List Block) : NotFull (blocks.foldlM Symbols.define s) :=
  .foldlM (fun s b _ => PlainAt.notFull (s.define_ofOneFile b)) s

namespace Import

/-- **Step**: an import statement, if its file does not fail so. -/
theorem add_notFull {tree : FileTree} {chain : List Location} {directory : String}
    (hload : ∀ (f : tree.TextFile) (o : Origin), f.location ∉ chain →
      NotFull (load tree (f.location :: chain) {} o f.text)) (s : Symbols) (line : Line) :
    NotFull (add tree chain directory s line) := by
  unfold add addWith
  refine .bind (PlainAt.notFull ((ImportClause.parse_plain _).at_line line)) fun clause => ?_
  simp only
  split
  · exact .error nofun
  · rename_i f hf
    split_ifs with hchain
    · exact .error nofun
    · refine .bind ((hload f _ hchain).importedFrom _) fun loaded => .bind ?_ fun blocks => .bind ?_ fun _ =>
        .bind ((Symbols.defineAll_notFull _ _).importedFrom _) fun _ => .pure _
      · refine OnlyFails.mapError (P := fun c : Cause => c ≠ .tooManyInstructions) ?_ fun _ hc => hc
        unfold select
        split
        · exact .ok _
        · split
          · exact .error nofun
          · exact .ok _
      · refine NotFull.importedFrom ?_ _
        unfold checkNew
        split
        · exact .error nofun
        · exact .ok _

/-- **Run**: loading, however deep the imports go. -/
theorem load_notFull (tree : FileTree) (chain : List Location) (s : Symbols) (origin : Origin) (text : String) :
    NotFull (load tree chain s origin text) := by
  induction hn : tree.unopened chain using Nat.strongRecOn generalizing chain s origin text with
  | _ n ih =>
    rw [load_eq]
    refine .bind (readChecked_ofOneFile _ _).notFull fun lines =>
      .bind (.foldlM (fun t line _ => ?_) s) fun _ => .pure _
    refine add_notFull (fun f o hf => ?_) t line
    exact ih _ (hn ▸ FileTree.unopened_cons_lt f.mem hf) _ {} o f.text rfl

end Import

/-- A label is refused for its name or its place. -/
theorem Label.register_notFull {s : Symbols} {program : List Line} {blocks : List Block} {fault : Fault}
    (h : (register s program blocks).fault = some fault) : fault.cause ≠ .tooManyInstructions := by
  unfold register at h
  simp only at h
  generalize lastNumber program = last at h
  have hstart : ∀ f, (Registration.mk s.labels #[] none).fault = some f → f.cause ≠ .tooManyInstructions := nofun
  revert h
  generalize Registration.mk s.labels #[] none = r at hstart
  induction program generalizing r with
  | nil => exact hstart fault
  | cons line rest ih =>
    refine ih _ fun f hf => ?_
    unfold Registration.step at hf
    split at hf
    · split at hf
      · rename_i cause hcause
        cases hf
        unfold refusal? at hcause
        split_ifs at hcause
        all_goals
          cases hcause
          exact nofun
      · cases hf
    · exact hstart f hf

namespace Assembly

variable {tree : FileTree} {origin : Origin} {text : String} {fault : Fault}

theorem prepare_notFull (tree : FileTree) (origin : Origin) (text : String) :
    NotFull (prepare tree origin text).2 := by
  intro fault h
  unfold prepare at h
  split at h
  · rename_i fault' hload
    cases h
    exact Import.load_notFull _ _ _ _ _ fault hload
  · simp only at h
    split at h
    · rename_i fault' hfault
      cases h
      exact Label.register_notFull hfault
    · cases h

/-- No pass up to the stream fails for want of room. -/
theorem stream_notFull (tree : FileTree) (origin : Origin) (text : String) :
    NotFull (stream tree origin text) := by
  rw [stream_eq]
  refine .bind_of_ok (prepare_notFull tree origin text) fun p hp =>
    .bind (Symbols.defineAll_notFull _ _) fun s => ?_
  obtain ⟨lines, s', hload, -, rfl⟩ := prepare_eq_ok hp
  have hcheck := (Import.readChecked_eq_ok_iff.1 (Import.load_eq_ok_iff.1 hload).1).2.2
  refine (Symbols.expandAll_ofOperands (Block.plain_program_split hcheck) s).imp fun f hf hfull => ?_
  rw [hfull] at hf
  cases hf

/-- **Too many instructions are told at the 5461st of the stream, unless a label is far behind it.**  The fault has
the file and the line of the first instruction that does not fit; but if a label is declared behind more than 10922
instructions, it has those of the first such label. -/
theorem run_tells_overflow (h : (run tree origin text).outcome = .error fault)
    (hcause : fault.cause = .tooManyInstructions) :
    ∃ S s line, stream tree origin text = .ok (S, s) ∧ Line.Overflows S line ∧
      fault = line.fault .tooManyInstructions := by
  rw [outcome_run] at h
  obtain hstream | ⟨⟨S, s⟩, hstream, hlay⟩ := bind_eq_error.1 h
  · exact absurd hcause (stream_notFull tree origin text fault hstream)
  · obtain ⟨line, hline, hfault⟩ := layOut_overflows (stream_expanding hstream) hlay
    exact ⟨S, s, line, hstream, hline, hfault⟩

/-! ## Sources that are too long -/

/-- The instruction with index `n` of a program, as a line of its listing. -/
theorem getElem?_lines {p : Program} {n : Nat} {i : Instruction} (h : p[n]? = some i) (file : String) :
    (p.lines file)[n]? = some (.ofInstruction file (n + 1) i) := by
  simp [Program.lines, h, Nat.add_comm]

theorem filter_isInstruction_lines (p : Program) (file : String) :
    (p.lines file).filter Line.isInstruction = p.lines file :=
  List.filter_eq_self.2 fun l hl => Line.isInstruction_iff.2 (p.allInstructions_lines file l hl)

theorem statement_ne_label_of_mem_lines {p : Program} {file name : String} {l : Line} (h : l ∈ p.lines file) :
    l.statement ≠ .label name := by
  obtain ⟨ops, hops⟩ := p.allInstructions_lines file l h
  rw [hops]
  exact nofun

theorem getElem?_replicate_zero {k n : Nat} (h : k < n) :
    (List.replicate n (Instruction.mk 0 0 0))[k]? = some ⟨0, 0, 0⟩ := by
  rw [List.getElem?_replicate, if_pos h]

/-- One instruction too many, and no label: the last line is told. -/
theorem run_tells_overflow_overfull : ∃ fault, (run {} {} overfull.listing).outcome = .error fault ∧
    fault.cause = .tooManyInstructions ∧ fault.place = ⟨"[code]", 5461⟩ := by
  have hstream := stream_overfull
  obtain ⟨fault, hrun, hcause⟩ := layOut_full (stream_expanding hstream) length_overfull
  rw [← run_outcome_of_stream hstream] at hrun
  obtain ⟨S, s, line, hstream', hline, rfl⟩ := run_tells_overflow hrun hcause
  cases hstream.symm.trans hstream'
  refine ⟨_, hrun, rfl, ?_⟩
  cases hline with
  | instruction _ hline =>
    have hlast : overfull[5460]? = some ⟨0, 0, 0⟩ := getElem?_replicate_zero (by decide)
    rw [filter_isInstruction_lines, getElem?_lines hlast] at hline
    cases hline
    rfl
  | label hS hl _ _ =>
    have hmem : line ∈ overfull.lines "[code]" := by
      rw [hS]
      exact List.mem_append_right _ List.mem_cons_self
    exact absurd hl (statement_ne_label_of_mem_lines hmem)

/-- A listing with a label and one more instruction behind it. -/
def labelled (p : Program) : String := p.listing ++ "far:\n0, 0, 0\n"

/-- The line with that label. -/
def labelLine (p : Program) : Line := ⟨"far:", p.length + 1, "[code]", .label "far"⟩

/-- The lines of such a source. -/
def labelledLines (p : Program) : List Line :=
  p.lines "[code]" ++ [labelLine p, .ofInstruction "[code]" (p.length + 2) ⟨0, 0, 0⟩]

theorem readAll_labelled {p : Program} (hp : ∀ i ∈ p, i.Writable) :
    Line.readAll "[code]" (labelled p) = .ok (labelledLines p) := by
  have htail : Text.lines "far:\n0, 0, 0\n".toList = ["far:".toList, "0, 0, 0".toList] := by decide
  have hlisting : Line.readAll "[code]" p.listing = .ok (p.lines "[code]") := Line.readAll_listing.2 ⟨hp, rfl⟩
  unfold Line.readAll at hlisting ⊢
  rw [p.lines_listing, mapM_eq_ok] at hlisting
  rw [labelled, String.toList_append, p.lines_listing_append, htail, List.zipIdx_append,
    List.length_map, mapM_eq_ok]
  refine List.rel_append hlisting (.cons ?_ (.cons ?_ .nil))
  · have hparse : Statement.parse "far:".toList = .ok (.label "far") := by decide
    refine Line.read_eq_ok_iff.2 ⟨"far:".toList, by decide, hparse, ?_⟩
    simp [labelLine, Nat.add_comm]
  · have hlast : "0, 0, 0".toList = (Instruction.mk 0 0 0).render.toList := by decide
    rw [hlast, Line.read_render, Nat.add_comm 1]
    exact ⟨⟨by decide, by decide, by decide⟩, rfl⟩

theorem isCode_labelledLines (p : Program) : ∀ l ∈ labelledLines p, l.IsCode := by
  refine List.forall_mem_append.2 ⟨(p.allInstructions_lines "[code]").isCode, ?_⟩
  simp only [List.forall_mem_cons]
  exact ⟨.inl ⟨"far", rfl⟩, .inr ⟨_, rfl⟩, List.forall_mem_nil _⟩

theorem stream_labelled {p : Program} (hp : ∀ i ∈ p, i.Writable ∧ i.c.toNat % 6 = 0) :
    ∃ s, stream {} {} (labelled p) = .ok (labelledLines p, s) := by
  have hread := readAll_labelled fun i hi => (hp i hi).1
  have hlast : Label.lastNumber (labelledLines p) = p.length + 2 := by
    rw [Label.lastNumber_of_range (Line.numbers_of_readAll hread)]
    simp [labelledLines, Program.lines]
  have hregister : (Label.register {} (labelledLines p) []).fault = none := by
    unfold Label.register
    simp only [hlast]
    rw [labelledLines, List.foldl_append, Label.foldl_step_of_allInstructions (p.allInstructions_lines "[code]")]
    have hkeep : Label.refusal? (p.length + 2) ∅ (labelLine p) "far" = none := by
      unfold Label.refusal?
      rw [if_neg (by decide), if_neg (by simp [labelLine]), if_neg (by decide), if_neg (by decide),
        if_neg (by simp)]
    have hlabel : (labelLine p).statement = .label "far" := rfl
    simp only [List.foldl_cons, List.foldl_nil, Label.Registration.step, hlabel, hkeep, Line.ofInstruction]
  rw [stream_of_isCode hread (isCode_labelledLines p) hregister]
  refine ⟨_, (Symbols.expandAll_of_isCode (isCode_labelledLines p)).2 ⟨?_, rfl, rfl⟩⟩
  rw [labelledLines, Line.instructions_append, List.forall_mem_append, p.instructions_lines, List.forall_mem_map]
  refine ⟨fun i hi => Instruction.executable_operands.2 (hp i hi).2, ?_⟩
  rw [Line.instructions_cons_label _ rfl, Line.instructions_cons_instruction _ rfl]
  simp only [List.forall_mem_cons]
  exact ⟨Instruction.executable_operands.2 (by decide), List.forall_mem_nil _⟩

/-- The label has too many instructions before it, and there is no other. -/
theorem eq_labelLine_of_overflows {p : Program} {line : Line} (hp : 10922 < p.length)
    (h : Line.Overflows (labelledLines p) line) : line = labelLine p := by
  cases h with
  | instruction hnear _ =>
    refine absurd ⟨p.lines "[code]", _, "far", rfl, rfl, ?_⟩ (hnear (labelLine p))
    rw [p.instructions_lines, List.length_map]
    exact hp
  | label hS hl _ _ =>
    have hmem : line ∈ labelledLines p := by
      rw [hS]
      exact List.mem_append_right _ List.mem_cons_self
    rw [labelledLines, List.mem_append, List.mem_pair] at hmem
    obtain hmem | rfl | rfl := hmem
    · exact absurd hl (statement_ne_label_of_mem_lines hmem)
    · rfl
    · cases hl

/-- **A far label is told, and not the instruction that does not fit**: the label on line 10924 has 10923
instructions before it, of which only those up to line 5460 fit. -/
theorem far_label_told_first : ∃ S s line fault,
    stream {} {} (labelled (List.replicate 10923 ⟨0, 0, 0⟩)) = .ok (S, s) ∧
    (run {} {} (labelled (List.replicate 10923 ⟨0, 0, 0⟩))).outcome = .error fault ∧
    fault.cause = .tooManyInstructions ∧ (S.filter Line.isInstruction)[5460]? = some line ∧
    line.place = ⟨"[code]", 5461⟩ ∧ fault.place = ⟨"[code]", 10924⟩ := by
  obtain ⟨s, hstream⟩ := stream_labelled (writable_replicate 10923)
  have hnth := getElem?_replicate_zero (by decide : 5460 < 10923)
  have hlength : (List.replicate 10923 (Instruction.mk 0 0 0)).length = 10923 := List.length_replicate
  -- from here on only the length of the listing and one of its instructions matter
  generalize (List.replicate 10923 ⟨0, 0, 0⟩ : Program) = p at hstream hnth hlength ⊢
  have hmany : 5460 < (Line.instructions (labelledLines p)).length := by
    rw [labelledLines, Line.instructions_append, Program.instructions_lines, List.length_append,
      List.length_map, hlength]
    omega
  obtain ⟨fault, hrun, -⟩ := layOut_full (stream_expanding hstream) hmany
  obtain ⟨line, hline, rfl⟩ := layOut_overflows (stream_expanding hstream) hrun
  obtain rfl := eq_labelLine_of_overflows (by omega) hline
  rw [← run_outcome_of_stream hstream] at hrun
  refine ⟨_, s, .ofInstruction "[code]" 5461 ⟨0, 0, 0⟩, _, hstream, hrun, rfl, ?_, rfl, ?_⟩
  · rw [labelledLines, List.filter_append, filter_isInstruction_lines]
    have hline := getElem?_lines hnth "[code]"
    rw [List.getElem?_append_left (List.getElem?_eq_some_iff.1 hline).1, hline]
  · show Place.mk "[code]" (p.length + 1) = _
    rw [hlength]

end Assembly

end Abcout
