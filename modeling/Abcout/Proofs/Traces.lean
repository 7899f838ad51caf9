import Abcout.Proofs.Assembly
import Abcout.Proofs.ImportGraph

/-!
# Abcout.Proofs.Traces — a fault is where its trace leads

`Import.follow` goes from a source to another one along places, each of which has to be an import statement of the
source that is reached so far.  The trace of every fault of a run can be followed in this way, and leads to the
source that has the fault (`Assembly.run_fault_traced`).

* `FailsAt P x`: the faults of `x` have no trace, and are at places that satisfy `P`.  This holds of every pass
  over the lines of one source, if their places satisfy `P`: a pass blames lines that it reads, and a line that is
  made by expansion has the place of the call.
* `Import.Traced`: what a fault is as seen from a source.  A fault in the source itself is of this kind
  (`Traced.here`), and so is a fault in an imported file, once the import statement stands in front of its trace
  (`Traced.importedFrom`).
* `Import.load_traced`: all faults of loading are of this kind.  The induction is on the number of files that are
  not open.
-/

namespace Abcout

/-- Every fault of a computation has no trace, and is at a place that satisfies `P`. -/
abbrev FailsAt {α : Type} (P : Place → Prop) (x : Except Fault α) : Prop :=
  OnlyFails (fun f => f.trace = [] ∧ P f.place) x

variable {P : Place → Prop} {α : Type}

theorem OnlyFails.errorAt {line : Line} (h : P line.place) (cause : Cause) :
    FailsAt P (.error (line.fault cause) : Except Fault α) :=
  .error ⟨rfl, h⟩

theorem OnlyFails.ensureAt {line : Line} (h : P line.place) (condition : Bool) (cause : Cause) :
    FailsAt P (Abcout.ensure condition (line.fault cause)) :=
  OnlyFails.ensure ⟨rfl, h⟩

/-- A check that knows no places is blamed on the line that is checked. -/
theorem OnlyFails.atLine {line : Line} (h : P line.place) (x : Except Cause α) :
    FailsAt P (x.mapError line.fault) := by
  intro f hf
  obtain ⟨cause, -, rfl⟩ := mapError_eq_error.1 hf
  exact ⟨rfl, h⟩

/-! ## Lines of a source -/

/-- A place is a line of the given text, which has the given name. -/
def Place.In (file text : String) (p : Place) : Prop :=
  p.file = file ∧ 1 ≤ p.line ∧ p.line ≤ (Text.lines text.toList).length

namespace Line

theorem place_of_read {file : String} {number : Nat} {raw : List Char} {l : Line}
    (h : read file number raw = .ok l) : l.place = ⟨file, number⟩ := by
  obtain ⟨text, -, -, he⟩ := read_eq_ok_iff.1 h
  rw [he, place]

/-- A line that is read has the name of the source and the number of its raw line. -/
theorem exists_read_of_mem {file text : String} {lines : List Line} (h : readAll file text = .ok lines) {l : Line}
    (hl : l ∈ lines) : 1 ≤ l.number ∧ ∃ raw, (Text.lines text.toList)[l.number - 1]? = some raw ∧
      read file l.number raw = .ok l := by
  obtain ⟨⟨raw, number⟩, hmem, hread⟩ := exists_of_mem_mapM h hl
  obtain ⟨hle, hraw⟩ := List.mem_zipIdx_iff_le_and_getElem?_sub.1 hmem
  obtain rfl : l.number = number := congrArg Place.line (place_of_read hread)
  exact ⟨hle, raw, hraw, hread⟩

theorem place_in_of_mem {file text : String} {lines : List Line} (h : readAll file text = .ok lines) {l : Line}
    (hl : l ∈ lines) : l.place.In file text := by
  obtain ⟨hle, raw, hraw, hread⟩ := exists_read_of_mem h hl
  have hlt := (List.getElem?_eq_some_iff.1 hraw).1
  refine ⟨congrArg Place.file (place_of_read hread), hle, ?_⟩
  show l.number ≤ _
  omega

theorem readAll_failsAt (file text : String) : FailsAt (Place.In file text) (readAll file text) := by
  refine .mapM ?_
  rintro ⟨raw, number⟩ hmem f hf
  obtain ⟨hle, hraw⟩ := List.mem_zipIdx_iff_le_and_getElem?_sub.1 hmem
  have hlt := (List.getElem?_eq_some_iff.1 hraw).1
  obtain ⟨cause, -, rfl⟩ := mapError_eq_error.1 hf
  exact ⟨rfl, rfl, hle, by simp only at hlt ⊢; omega⟩

end Line

/-! ## Passes over the lines of one source -/

section Passes

variable {lines : List Line} (hlines : ∀ l ∈ lines, P l.place)
include hlines

theorem Import.check_failsAt : FailsAt P (Import.check lines) := by
  refine .bind (.foldlM (fun c line hmem => ?_) _) fun _ => .pure _
  have hline := hlines line hmem
  unfold Import.Checked.step
  split
  · exact .ok _
  · exact .ok _
  · exact .bind (.ensureAt hline _ _) fun _ => .bind (.ensureAt hline _ _) fun _ =>
      .bind (.atLine hline _) fun _ => .pure _
  · exact .ok _

/-- The first and last lines that are paired are lines of the source. -/
theorem Block.foldlM_pairing {p p' : Block.Pairing} (hp : ∀ l, l ∈ p.unclosed ∨ l ∈ p.outer → P l.place)
    (h : lines.foldlM Block.Pairing.step p = .ok p') : ∀ l, l ∈ p'.unclosed ∨ l ∈ p'.outer → P l.place := by
  refine (foldlM_keeps (fun (q : Block.Pairing) (rest : List Line) =>
    (∀ l, l ∈ q.unclosed ∨ l ∈ q.outer → P l.place) ∧ ∀ l ∈ rest, P l.place) ?_ ⟨hp, hlines⟩ h).1
  rintro q line rest q' ⟨hq, hrest⟩ hstep
  obtain ⟨hline, hrest⟩ := List.forall_mem_cons.1 hrest
  refine ⟨?_, hrest⟩
  rcases Block.Pairing.step_eq_ok_iff.1 hstep with
    ⟨name, params, -, -, rfl⟩ | ⟨first, others, -, hopen, rfl⟩ | ⟨-, rfl⟩
  · rintro l (hl | hl)
    · rcases List.mem_cons.1 hl with rfl | hl
      · exact hline
      · exact hq l (.inl hl)
    · -- the outermost definition is one that was open, or was found before
      simp only [Option.orElse_eq_orElse, Option.orElse_eq_or, Option.mem_def, Option.or_eq_some_iff] at hl
      rcases hl with hl | ⟨-, hl⟩
      · exact hq l (.inr hl)
      · exact hq l (.inl (List.mem_of_getLast? hl))
  · rintro l (hl | hl)
    · exact hq l (.inl (hopen ▸ List.mem_cons_of_mem _ hl))
    · exact hq l (.inr hl)
  · exact hq

theorem Block.check_failsAt : FailsAt P (Block.check lines) := by
  refine .bind_of_ok (.foldlM (fun p line hmem => ?_) _) fun p hp => ?_
  · have hline := hlines line hmem
    unfold Block.Pairing.step
    split
    · split_ifs
      · exact .errorAt hline _
      · exact .ok _
    · split
      · exact .errorAt hline _
      · exact .ok _
    · exact .errorAt hline _
    · exact .ok _
  · have hpaired := Block.foldlM_pairing hlines (by rintro l (hl | hl) <;> cases hl) hp
    split
    · rename_i _ line _ hopen
      exact .errorAt (hpaired line (.inl (hopen ▸ List.mem_cons_self))) _
    · rename_i line _ houter
      exact .errorAt (hpaired line (.inr houter)) _
    · exact .ok _

end Passes

theorem Import.readChecked_failsAt (file text : String) :
    FailsAt (Place.In file text) (Import.readChecked file text) := by
  refine .bind_of_ok (Line.readAll_failsAt file text) fun lines hread => ?_
  have hlines : ∀ l ∈ lines, l.place.In file text := fun l hl => Line.place_in_of_mem hread hl
  exact .bind (Import.check_failsAt hlines) fun _ => .bind (Block.check_failsAt hlines) fun _ => .pure _

theorem Block.split_places {lines : List Line} (hlines : ∀ l ∈ lines, P l.place) :
    (∀ b ∈ (Block.split lines).1, P b.opening.place ∧ ∀ l ∈ b.body, P l.place) ∧
      ∀ l ∈ (Block.split lines).2, P l.place := by
  obtain ⟨hbody, hprogram, hopening⟩ := Block.split_forall (P := fun l => P l.place) (fun _ hl => hl) hlines
  exact ⟨fun b hb => ⟨hopening b hb, hbody b hb⟩, hprogram⟩

/-! ## Definitions -/

namespace Symbols

variable (s : Symbols) {line : Line} {b : Block}

theorem expand_failsAt (hsite : P line.place) (scope : Scope) (name : String) (args : List Operand) :
    FailsAt P (s.expand scope line name args) := by
  unfold expand
  split
  · exact .errorAt hsite _
  · simp only
    split_ifs
    · exact .ok _
    · exact .errorAt hsite _

end Symbols

namespace Block

variable {b : Block} {line : Line}

theorem Draft.step_failsAt (hopening : P b.opening.place) (hline : P line.place) (params : Nat) (d : Draft) :
    FailsAt P (d.step b params line) := by
  unfold Draft.step
  simp only
  split
  · exact .ok _
  · exact .ok _
  · exact .bind (.atLine hline _) fun _ => .pure _
  · exact .bind (.atLine hline _) fun _ => .bind (Symbols.expand_failsAt _ hline _ _ _) fun _ => .pure _
  · exact .errorAt hline _
  · exact .errorAt hopening _
  · exact .errorAt hline _
  · exact .errorAt hline _

theorem addLocal_failsAt (hline : P line.place) (locals : NameSet) : FailsAt P (addLocal locals line) := by
  unfold addLocal
  split
  · exact .bind (.ensureAt hline _ _) fun _ => .bind (.ensureAt hline _ _) fun _ =>
      .bind (.ensureAt hline _ _) fun _ => .pure _
  · exact .ok _

end Block

theorem Symbols.define_failsAt {b : Block} (hopening : P b.opening.place) (hbody : ∀ l ∈ b.body, P l.place)
    (s : Symbols) : FailsAt P (s.define b) := by
  unfold Symbols.define
  refine .bind ?_ fun _ => .bind ?_ fun params => .bind ?_ fun _ =>
    .bind (.foldlM (fun locals line hmem => Block.addLocal_failsAt (hbody line hmem) locals) _) fun locals =>
    .bind (.foldlM (fun d line hmem => Block.Draft.step_failsAt hopening (hbody line hmem) params d) _)
      fun d => .pure _
  · exact .bind (.ensureAt hopening _ _) fun _ => .bind (.ensureAt hopening _ _) fun _ => .ensureAt hopening _ _
  · unfold Block.paramCount
    split
    · exact .ok _
    · exact .errorAt hopening _
  · unfold Block.checkCalls
    split
    · rename_i line hfind
      exact .errorAt (hbody line (List.mem_of_find?_eq_some hfind)) _
    · exact .ok _

theorem Symbols.defineAll_failsAt {blocks : List Block}
    (h : ∀ b ∈ blocks, P b.opening.place ∧ ∀ l ∈ b.body, P l.place)
    (s : Symbols) : FailsAt P (blocks.foldlM Symbols.define s) :=
  .foldlM (fun t b hb => Symbols.define_failsAt (h b hb).1 (h b hb).2 t) s

/-! ## The program -/

namespace Symbols

variable {program lines : List Line}

/-- A line of the program stands for lines at its own place. -/
theorem place_expandLine {s s' : Symbols} {line : Line} (h : s.expandLine line = .ok (lines, s')) :
    ∀ l ∈ lines, l.place = line.place := by
  rcases expandLine_eq_ok h with ⟨-, rfl, -⟩ | ⟨-, rfl, -⟩ | ⟨ops, -, -, rfl, -⟩ | ⟨name, args, hl, -⟩
  · exact List.forall_mem_nil _
  · exact List.forall_mem_singleton.2 rfl
  · exact List.forall_mem_singleton.2 rfl
  · obtain ⟨m, -, rfl⟩ := expandLine_call hl h
    intro l hmem
    obtain ⟨l', -, rfl⟩ := List.mem_map.1 hmem
    rfl

theorem places_expandAll {s s' : Symbols} (hprogram : ∀ l ∈ program, P l.place)
    (h : s.expandAll program = .ok (lines, s')) : ∀ l ∈ lines, P l.place := by
  induction program generalizing s lines with
  | nil =>
    cases h
    exact List.forall_mem_nil _
  | cons line rest ih =>
    obtain ⟨hline, hrest⟩ := List.forall_mem_cons.1 hprogram
    obtain ⟨now, s₁, later, hnow, hlater, rfl⟩ := expandAll_cons_eq_ok.1 h
    refine List.forall_mem_append.2 ⟨fun l hl => ?_, ih hrest hlater⟩
    rw [place_expandLine hnow l hl]
    exact hline

theorem expandLine_failsAt {line : Line} (hline : P line.place) (s : Symbols) : FailsAt P (s.expandLine line) := by
  unfold expandLine
  split
  · exact .ok _
  · exact .ok _
  · exact .ok _
  · exact .bind (.atLine hline _) fun _ => .pure _
  · exact .bind (.atLine hline _) fun _ => s.expand_failsAt hline _ _ _
  · exact .errorAt hline _
  · exact .errorAt hline _
  · exact .errorAt hline _

theorem expandAll_failsAt (hprogram : ∀ l ∈ program, P l.place) (s : Symbols) : FailsAt P (s.expandAll program) :=
  .bind (.foldlM (fun done line hmem => .bind (expandLine_failsAt (hprogram line hmem) done.2) fun _ => .pure _) _)
    fun _ => .pure _

end Symbols

/-- A label is refused where it is declared. -/
theorem Label.register_failsAt {program : List Line} (hprogram : ∀ l ∈ program, P l.place) {s : Symbols}
    {blocks : List Block} {fault : Fault} (h : (Label.register s program blocks).fault = some fault) :
    fault.trace = [] ∧ P fault.place := by
  unfold Label.register at h
  simp only at h
  generalize Label.lastNumber program = last at h
  have hstart : ∀ f, (Label.Registration.mk s.labels #[] none).fault = some f → f.trace = [] ∧ P f.place := nofun
  revert h
  generalize Label.Registration.mk s.labels #[] none = r at hstart
  induction program generalizing r with
  | nil => exact hstart fault
  | cons line rest ih =>
    obtain ⟨hline, hrest⟩ := List.forall_mem_cons.1 hprogram
    refine ih hrest _ fun f hf => ?_
    unfold Label.Registration.step at hf
    split at hf
    · split at hf
      · cases hf
        exact ⟨rfl, hline⟩
      · cases hf
    · exact hstart f hf

theorem Label.assign_failsAt {lines : List Line} (hlines : ∀ l ∈ lines, P l.place) (labels : LabelTable) :
    FailsAt P (Label.assign labels lines) := by
  refine .bind (.foldlM (fun layout line hmem => ?_) _) fun _ => .pure _
  unfold Label.Layout.step
  split
  · simp only
    split_ifs
    · exact .ok _
    · exact .errorAt (hlines line hmem) _
  · exact .ok _

/-- The lines that are left when labels have addresses are lines of the stream. -/
theorem Label.subset_of_assign {labels labels' : LabelTable} {lines code : List Line}
    (h : Label.assign labels lines = .ok (labels', code)) : code ⊆ lines := by
  obtain ⟨layout, hfold, hpure⟩ := bind_eq_ok.1 h
  cases pure_eq_ok.1 hpure
  refine (foldlM_keeps (fun (l : Label.Layout) (rest : List Line) => l.code.toList ⊆ lines ∧ rest ⊆ lines) ?_
    ⟨List.nil_subset _, List.Subset.refl _⟩ hfold).1
  rintro l line rest l' ⟨hcode, hrest⟩ hstep
  obtain ⟨hline, hrest⟩ := List.cons_subset.1 hrest
  refine ⟨?_, hrest⟩
  unfold Label.Layout.step at hstep
  split at hstep
  · simp only at hstep
    split_ifs at hstep
    cases hstep
    exact hcode
  · cases hstep
    rw [Array.toList_push]
    exact List.append_subset.2 ⟨hcode, List.cons_subset.2 ⟨hline, List.nil_subset _⟩⟩

theorem Emission.emit_failsAt {code : List Line} (hcode : ∀ l ∈ code, P l.place) (labels : LabelTable) :
    FailsAt P (Emission.emit labels code) := by
  refine .bind (.foldlM (fun e line hmem => ?_) _) fun _ => .pure _
  unfold Emission.Emitted.step
  split
  · refine .bind (.atLine (hcode line hmem) _) fun _ => .bind (fun f hf => ?_) fun _ => .pure _
    obtain ⟨full, -, rfl⟩ := mapError_eq_error.1 hf
    exact ⟨rfl, hcode line hmem⟩
  · exact .ok _

/-! ## Imports -/

namespace Import

/-- The source that the import statement on line `n` of a source names. -/
def importAt? (tree : FileTree) (origin : Origin) (text : String) : (n : Nat) → Option (Origin × String)
  | 0 => none
  | i + 1 => do
    let raw ← (Text.lines text.toList)[i]?
    let line ← (Line.read origin.name (i + 1) raw).toOption
    guard line.isImport
    let clause ← (ImportClause.parse line.text.toList).toOption
    let f ← tree.textFile? (Path.join origin.directory clause.fileName)
    return (originOf clause origin.directory, f.text)

/-- The source that places lead to, if each of them is an import statement of the source that is reached before
it. -/
def follow (tree : FileTree) (origin : Origin) (text : String) : List Place → Option (Origin × String)
  | [] => some (origin, text)
  | p :: rest =>
    if p.file = origin.name then (importAt? tree origin text p.line).bind fun next =>
      follow tree next.1 next.2 rest
    else none

/-- The trace of a fault leads from a source to the one that has the fault. -/
def Traced (tree : FileTree) (origin : Origin) (text : String) (fault : Fault) : Prop :=
  ∃ origin' text', follow tree origin text fault.trace = some (origin', text') ∧ fault.place.In origin'.name text'

variable {tree : FileTree} {chain : List Location} {origin : Origin} {text : String} {line : Line}
  {lines : List Line}

theorem importAt?_of_mem (hread : Line.readAll origin.name text = .ok lines) (hline : line ∈ lines)
    (himport : line.isImport = true) {clause : ImportClause} {f : tree.TextFile}
    (hnames : Names tree origin.directory line clause f) :
    importAt? tree origin text line.number = some (originOf clause origin.directory, f.text) := by
  obtain ⟨hle, raw, hraw, hl⟩ := Line.exists_read_of_mem hread hline
  obtain ⟨i, hi⟩ := Nat.exists_eq_add_of_le' hle
  rw [hi, Nat.add_sub_cancel] at hraw
  rw [hi] at hl ⊢
  refine Option.bind_eq_some_iff.2 ⟨raw, hraw, Option.bind_eq_some_iff.2 ⟨line, toOption_eq_some.2 hl, ?_⟩⟩
  refine Option.bind_eq_some_iff.2 ⟨(), if_pos himport, Option.bind_eq_some_iff.2 ⟨clause,
    toOption_eq_some.2 hnames.1, ?_⟩⟩
  exact Option.bind_eq_some_iff.2 ⟨f, hnames.2, rfl⟩

/-- A fault in the source itself. -/
theorem Traced.here {x : Except Fault α} (h : FailsAt (Place.In origin.name text) x) :
    OnlyFails (Traced tree origin text) x := by
  intro fault hfault
  obtain ⟨htrace, hplace⟩ := h fault hfault
  exact ⟨origin, text, by rw [htrace]; rfl, hplace⟩

/-- A fault in a file that the source imports, as it is told in the source. -/
theorem Traced.importedFrom (hread : Line.readAll origin.name text = .ok lines) (hline : line ∈ lines)
    (himport : line.isImport = true) {clause : ImportClause} {f : tree.TextFile}
    (hnames : Names tree origin.directory line clause f) {x : Except Fault α}
    (h : OnlyFails (Traced tree (originOf clause origin.directory) f.text) x) :
    OnlyFails (Traced tree origin text) (x.mapError (.importedFrom line.place)) := by
  refine h.mapError ?_
  rintro fault ⟨origin', text', hfollow, hplace⟩
  have hfile : line.place.file = origin.name := (Line.place_in_of_mem hread hline).1
  have hnext : importAt? tree origin text line.place.line = some (originOf clause origin.directory, f.text) :=
    importAt?_of_mem hread hline himport hnames
  refine ⟨origin', text', ?_, hplace⟩
  show follow tree origin text (line.place :: fault.trace) = _
  rw [follow, if_pos hfile, hnext, Option.bind_some]
  exact hfollow

/-- **Step**: the faults of an import statement, if those of loading its file are traced. -/
theorem add_traced (hread : Line.readAll origin.name text = .ok lines) (hline : line ∈ lines)
    (himport : line.isImport = true)
    (hload : ∀ (f : tree.TextFile) (o : Origin), f.location ∉ chain →
      OnlyFails (Traced tree o f.text) (load tree (f.location :: chain) {} o f.text)) (s : Symbols) :
    OnlyFails (Traced tree origin text) (add tree chain origin.directory s line) := by
  have hplace : line.place.In origin.name text := Line.place_in_of_mem hread hline
  unfold add addWith
  refine .bind_of_ok (Traced.here (.atLine hplace _)) fun clause hclause => ?_
  rw [mapError_eq_ok] at hclause
  simp only
  split
  · exact Traced.here (.errorAt hplace _)
  · rename_i f hf
    have hnames : Names tree origin.directory line clause f := ⟨hclause, hf⟩
    split_ifs with hchain
    · exact Traced.here (.errorAt hplace _)
    · refine .bind_of_ok (.importedFrom hread hline himport hnames (hload f _ hchain)) ?_
      rintro ⟨lines', inner⟩ hloaded
      rw [mapError_eq_ok] at hloaded
      -- what the selected definitions are blamed for is at a line of the imported file
      have hplaces := (Block.split_places fun l hl => Line.place_in_of_mem (load_eq_ok hloaded).1 hl).1
      refine .bind_of_ok (Traced.here (.atLine hplace _)) fun blocks hblocks => ?_
      rw [mapError_eq_ok] at hblocks
      have hselected := fun b hb => hplaces b (mem_of_select hblocks b hb)
      refine .bind (.importedFrom hread hline himport hnames (Traced.here ?_)) fun _ =>
        .bind (.importedFrom hread hline himport hnames (Traced.here (Symbols.defineAll_failsAt hselected inner)))
          fun _ => .pure _
      unfold checkNew
      split
      · rename_i b hfind
        exact .errorAt (hselected b (List.mem_of_find?_eq_some hfind)).1 _
      · exact .ok _

/-- **Run**: the faults of loading are traced, however deep the imports go. -/
theorem load_traced (tree : FileTree) (chain : List Location) (s : Symbols) (origin : Origin) (text : String) :
    OnlyFails (Traced tree origin text) (load tree chain s origin text) := by
  induction hn : tree.unopened chain using Nat.strongRecOn generalizing chain s origin text with
  | _ n ih =>
    rw [load_eq]
    refine .bind_of_ok (Traced.here (readChecked_failsAt _ _)) fun lines hchecked => ?_
    have hread := (readChecked_eq_ok_iff.1 hchecked).1
    refine .bind (.foldlM (fun t line hmem => ?_) s) fun _ => .pure _
    obtain ⟨hline, himport⟩ := List.mem_filter.1 hmem
    refine add_traced hread hline himport (fun f o hf => ?_) t
    exact ih _ (hn ▸ FileTree.unopened_cons_lt f.mem hf) _ {} o f.text rfl

end Import

/-! ## Runs -/

namespace Assembly

open Import (Traced follow)

variable {tree : FileTree} {origin : Origin} {text : String} {fault : Fault}

theorem prepare_traced (tree : FileTree) (origin : Origin) (text : String) :
    OnlyFails (Traced tree origin text) (prepare tree origin text).2 := by
  intro fault h
  unfold prepare at h
  split at h
  · rename_i fault' hload
    cases h
    exact Import.load_traced _ _ _ _ _ fault hload
  · rename_i lines s hload
    simp only at h
    split at h
    · rename_i fault' hfault
      cases h
      have hprogram := (Block.split_places fun l hl => Line.place_in_of_mem (Import.load_eq_ok hload).1 hl).2
      obtain ⟨htrace, hplace⟩ := Label.register_failsAt hprogram hfault
      exact ⟨origin, text, by rw [htrace]; rfl, hplace⟩
    · cases h

/-- What is defined and expanded are lines of the source. -/
theorem prepare_places {p : Prepared} (h : (prepare tree origin text).2 = .ok p) :
    (∀ b ∈ p.blocks, b.opening.place.In origin.name text ∧ ∀ l ∈ b.body, l.place.In origin.name text) ∧
      ∀ l ∈ p.program, l.place.In origin.name text := by
  obtain ⟨lines, s, hload, -, rfl⟩ := prepare_eq_ok h
  exact Block.split_places fun l hl => Line.place_in_of_mem (Import.load_eq_ok hload).1 hl

/-- **A fault is where its trace leads.**  Starting from the source, each place of the trace is an import statement
of the source that is reached so far, under the name that this source has, and the file that it names is reached
next; the fault is at a line of the last one, under the name that it has. -/
theorem run_fault_traced (h : (run tree origin text).outcome = .error fault) :
    ∃ origin' text', follow tree origin text fault.trace = some (origin', text') ∧
      fault.place.file = origin'.name ∧ 1 ≤ fault.place.line ∧
        fault.place.line ≤ (Text.lines text'.toList).length := by
  rw [outcome_run, stream_eq] at h
  refine OnlyFails.bind_of_ok (P := Traced tree origin text) ?_ ?_ fault h
  · refine .bind_of_ok (prepare_traced tree origin text) fun p hp => ?_
    obtain ⟨hblocks, hprogram⟩ := prepare_places hp
    exact Traced.here (.bind (Symbols.defineAll_failsAt hblocks _) fun s => s.expandAll_failsAt hprogram)
  · rintro ⟨S, s⟩ hstream
    obtain ⟨p, s₀, hp, -, hexp⟩ := stream_eq_ok hstream
    have hS := Symbols.places_expandAll (prepare_places hp).2 hexp
    refine Traced.here (.bind_of_ok (Label.assign_failsAt hS _) ?_)
    rintro ⟨labels, code⟩ hassign
    exact Emission.emit_failsAt (fun l hl => hS l (Label.subset_of_assign hassign hl)) labels

/-- A file that imports another one in its directory, whose macro has a parameter too many. -/
def faultyLibrary : FileTree := Import.textTree
  [(["lib", "outer.abcout"], "; outer\n@import bad from inner\n"),
    (["lib", "inner.abcout"], "\n%macro bad 0\n1, 1, %0\n%endmacro\n")]

/-- The fault is at the third line of the inner file, which the second line of the outer one imports. -/
theorem run_fault_traced_faultyLibrary :
    ∃ fault, (run faultyLibrary {} "@import * from lib/outer\n").outcome = .error fault ∧
      fault = ⟨.paramOutOfRange, ⟨"inner.abcout", 3⟩, [⟨"[code]", 1⟩, ⟨"lib/outer.abcout", 2⟩]⟩ ∧
      ∃ origin text, follow faultyLibrary {} "@import * from lib/outer\n" fault.trace = some (origin, text) ∧
        origin.name = "inner.abcout" ∧ 3 ≤ (Text.lines text.toList).length := by
  have herror : (match (run faultyLibrary {} "@import * from lib/outer\n").outcome with
      | .error fault => some fault
      | .ok _ => none) =
      some ⟨.paramOutOfRange, ⟨"inner.abcout", 3⟩, [⟨"[code]", 1⟩, ⟨"lib/outer.abcout", 2⟩]⟩ := by
    have hdepth : (faultyLibrary.readable.filter (· ∉ Import.rootChain faultyLibrary {})).length < 3 := by
      decide +kernel
    rw [outcome_run, stream_eq,
      prepare_of_load (Import.loadWithin_eq (fun _ _ => .ok ([], {})) hdepth _ _ _).symm]
    decide +kernel
  split at herror
  · rename_i fault hrun
    obtain rfl := Option.some.inj herror
    obtain ⟨origin, text, hfollow, hfile, -, hle⟩ := run_fault_traced hrun
    exact ⟨_, hrun, rfl, origin, text, hfollow, hfile.symm, hle⟩
  · cases herror

end Assembly

end Abcout
