import Abcout.Proofs.Assembly
import Abcout.Proofs.Listing

/-!
# Abcout.Proofs.Disassembly — assembling what was disassembled

A source that is labels and instructions only goes through the passes unchanged: it has no imports, definitions or
calls (`stream_of_isCode`).  So the listing of a program assembles to that program, if it assembles at all
(`run_listing`), and an image differs from the one it comes back as in the bytes behind its sentinel only
(`run_disassembled`).
-/

namespace Abcout

/-! ## Sources without imports, definitions and calls -/

section IsCode

variable {lines : List Line}

theorem Line.IsCode.plain {l : Line} (h : l.IsCode) : l.Plain := by
  rcases h with ⟨name, hl⟩ | ⟨ops, hl⟩
  · exact ⟨by simp [hl], by simp [hl], by simp [hl]⟩
  · exact ⟨by simp [hl], by simp [hl], by simp [hl]⟩

theorem Line.IsCode.isImport {l : Line} (h : l.IsCode) : l.isImport = false := by
  rcases h with ⟨name, hl⟩ | ⟨ops, hl⟩
  · simp [Line.isImport, hl]
  · simp [Line.isImport, hl]

/-- Labels and executable instructions stay as they are. -/
theorem Symbols.expandAll_of_isCode (h : ∀ l ∈ lines, l.IsCode) {s s' : Symbols} {S : List Line} :
    s.expandAll lines = .ok (S, s') ↔
      (∀ ops ∈ Line.instructions lines, Executable s.labels ops) ∧ S = lines ∧ s' = s := by
  induction lines generalizing S with
  | nil =>
    constructor
    · intro he
      cases he
      exact ⟨List.forall_mem_nil _, rfl, rfl⟩
    · rintro ⟨-, rfl, rfl⟩
      rfl
  | cons l rest ih =>
    obtain ⟨hl, hrest⟩ := List.forall_mem_cons.1 h
    -- the line stands for itself, if it is executable
    have hline : ∀ now s₁, s.expandLine l = .ok (now, s₁) ↔
        (∀ ops, l.statement = .instruction ops → Executable s.labels ops) ∧ now = [l] ∧ s₁ = s := by
      intro now s₁
      rcases hl with ⟨name, hl⟩ | ⟨ops, hl⟩
      · simp [expandLine, hl, eq_comm]
      · simp [expandLine_instruction hl, hl]
    have hexec : (∀ ops ∈ Line.instructions (l :: rest), Executable s.labels ops) ↔
        (∀ ops, l.statement = .instruction ops → Executable s.labels ops) ∧
          ∀ ops ∈ Line.instructions rest, Executable s.labels ops := by
      rcases hl with ⟨name, hl⟩ | ⟨ops, hl⟩
      · simp [Line.instructions_cons_label rest hl, hl]
      · simp [Line.instructions_cons_instruction rest hl, hl]
    rw [expandAll_cons_eq_ok, hexec]
    constructor
    · rintro ⟨now, s₁, later, hnow, hlater, rfl⟩
      obtain ⟨hx, rfl, rfl⟩ := (hline now s₁).1 hnow
      obtain ⟨hall, rfl, rfl⟩ := (ih hrest).1 hlater
      exact ⟨⟨hx, hall⟩, rfl, rfl⟩
    · rintro ⟨⟨hx, hall⟩, rfl, rfl⟩
      exact ⟨[l], s', rest, (hline _ _).2 ⟨hx, rfl, rfl⟩, (ih hrest).2 ⟨hall, rfl, rfl⟩, rfl⟩

end IsCode

/-- Lines that are all instructions. -/
def Line.AllInstructions (lines : List Line) : Prop := ∀ l ∈ lines, ∃ ops, l.statement = .instruction ops

section AllInstructions

variable {lines : List Line}

theorem Line.AllInstructions.isCode (h : Line.AllInstructions lines) :
    ∀ l ∈ lines, l.IsCode := fun l hl => .inr (h l hl)

/-- Where no label is declared, registering changes nothing. -/
theorem Label.foldl_step_of_allInstructions (h : Line.AllInstructions lines) (last : Nat) (isMacro : String → Bool)
    (r : Registration) : lines.foldl (Registration.step last isMacro) r = r := by
  induction lines with
  | nil => rfl
  | cons l rest ih =>
    obtain ⟨⟨ops, hops⟩, hrest⟩ := List.forall_mem_cons.1 h
    have hstep : Registration.step last isMacro r l = r := by
      unfold Registration.step
      split
      · rename_i name _ hname
        rw [hops] at hname
        cases hname
      · rfl
    rw [List.foldl_cons, hstep]
    exact ih hrest

end AllInstructions

namespace Assembly

variable {tree : FileTree} {origin : Origin} {text : String}

/-- Nothing but labels is left to prepare in a source of labels and instructions. -/
theorem prepare_of_isCode {lines : List Line} (hread : Line.readAll origin.name text = .ok lines)
    (h : ∀ l ∈ lines, l.IsCode) (hfault : (Label.register {} lines []).fault = none) :
    (prepare tree origin text).2 = .ok ⟨{ labels := (Label.register {} lines []).labels }, [], lines⟩ := by
  have hplain : ∀ l ∈ lines, l.Plain := fun l hl => (h l hl).plain
  have himport : ∀ l ∈ lines, l.isImport = false := fun l hl => (h l hl).isImport
  have hchecked : Import.readChecked origin.name text = .ok lines :=
    Import.readChecked_eq_ok_iff.2 ⟨hread, Import.check_of_isImport himport, Block.check_of_plain hplain⟩
  have himports : lines.filter Line.isImport = [] := List.filter_eq_nil_iff.2 (by simpa using himport)
  have hload : Import.load tree (Import.rootChain tree origin) {} origin text = .ok (lines, {}) :=
    Import.load_eq_ok_iff.2 ⟨hchecked, himports ▸ rfl⟩
  simp only [prepare, hload, Block.split_of_plain hplain, hfault]

/-- The stream of a source of labels and instructions is the source itself. -/
theorem stream_of_isCode {lines : List Line} (hread : Line.readAll origin.name text = .ok lines)
    (h : ∀ l ∈ lines, l.IsCode) (hfault : (Label.register {} lines []).fault = none) :
    stream tree origin text = Symbols.expandAll { labels := (Label.register {} lines []).labels } lines := by
  unfold stream
  rw [prepare_of_isCode hread h hfault]
  rfl

/-- The same for a source of instructions only, which has no labels. -/
theorem stream_of_allInstructions {lines : List Line} (hread : Line.readAll origin.name text = .ok lines)
    (h : Line.AllInstructions lines) : stream tree origin text = Symbols.expandAll {} lines := by
  have hregister : Label.register {} lines [] = { labels := ∅ } := Label.foldl_step_of_allInstructions h _ _ _
  rw [stream_of_isCode hread h.isCode (by rw [hregister]), hregister]

/-- A source that has a stream could be read. -/
theorem readAll_of_stream {r : List Line × Symbols} (h : stream tree origin text = .ok r) :
    ∃ lines, Line.readAll origin.name text = .ok lines := by
  obtain ⟨p, -, hp, -, -⟩ := stream_eq_ok (S := r.1) (s := r.2) h
  obtain ⟨lines, s, hload, -, -⟩ := prepare_eq_ok hp
  exact ⟨lines, (Import.load_eq_ok hload).1⟩

end Assembly

/-! ## Listings -/

namespace Program

theorem allInstructions_lines (p : Program) (file : String) : Line.AllInstructions (p.lines file) := by
  intro l hl
  obtain ⟨⟨i, number⟩, -, rfl⟩ := List.mem_map.1 hl
  exact ⟨i.operands, rfl⟩

theorem instructions_lines (p : Program) (file : String) :
    Line.instructions (p.lines file) = p.map Instruction.operands := by
  unfold lines
  generalize 1 = number
  induction p generalizing number with
  | nil => rfl
  | cons i p ih =>
    rw [List.zipIdx_cons, List.map_cons, Line.instructions_cons_instruction _ rfl, ih, List.map_cons]

end Program

theorem Instruction.executable_operands {labels : LabelTable} {i : Instruction} :
    Executable labels i.operands ↔ i.c.toNat % 6 = 0 := by
  constructor
  · intro h
    cases h with
    | address _ _ _ hc => exact hc
  · exact .address i.a i.b i.c

theorem Resolved.eq_of_operands {S : List Line} {k : Nat} {i ins : Instruction} (h : Resolved S k i.operands ins) :
    ins = i := by
  obtain ⟨a, b, c⟩ := i
  cases h with
  | address => rfl

namespace Assembly

variable {tree : FileTree} {origin : Origin} {p : Program}

theorem stream_listing {S : List Line} {s : Symbols} :
    stream tree origin p.listing = .ok (S, s) ↔
      (∀ i ∈ p, i.Writable ∧ i.c.toNat % 6 = 0) ∧ S = p.lines origin.name ∧ s = {} := by
  have hlines := p.allInstructions_lines origin.name
  have hexec : ∀ labels : LabelTable, (∀ ops ∈ Line.instructions (p.lines origin.name), Executable labels ops) ↔
      ∀ i ∈ p, i.c.toNat % 6 = 0 := by
    intro labels
    rw [p.instructions_lines, List.forall_mem_map]
    simp only [Instruction.executable_operands]
  constructor
  · intro h
    obtain ⟨lines, hread⟩ := readAll_of_stream h
    obtain ⟨hw, rfl⟩ := Line.readAll_listing.1 hread
    rw [stream_of_allInstructions hread hlines, Symbols.expandAll_of_isCode hlines.isCode, hexec] at h
    obtain ⟨h6, rfl, rfl⟩ := h
    exact ⟨fun i hi => ⟨hw i hi, h6 i hi⟩, rfl, rfl⟩
  · rintro ⟨hall, rfl, rfl⟩
    have hread : Line.readAll origin.name p.listing = .ok (p.lines origin.name) :=
      Line.readAll_listing.2 ⟨fun i hi => (hall i hi).1, rfl⟩
    rw [stream_of_allInstructions hread hlines, Symbols.expandAll_of_isCode hlines.isCode, hexec]
    exact ⟨fun i hi => (hall i hi).2, rfl, rfl⟩

/-- A listing assembles to nothing but its program. -/
theorem eq_of_run_listing {product : Product} (h : (run tree origin p.listing).outcome = .ok product) :
    (∀ i ∈ p, i.Writable ∧ i.c.toNat % 6 = 0) ∧ product = ⟨p, p.image⟩ := by
  obtain ⟨S, s, hstream, hlay⟩ := run_eq_ok h
  obtain ⟨hall, rfl, rfl⟩ := stream_listing.1 hstream
  obtain ⟨himage, -, hlen, hres⟩ := layOut_spec (stream_expanding hstream) hlay
  rw [p.instructions_lines] at hlen hres
  have hprogram : product.program = p := by
    refine List.ext_getElem (by simpa using hlen) fun k hk hk' => ?_
    obtain ⟨ins, hget, hr⟩ := hres k p[k].operands (by simp [hk'])
    rw [← hr.eq_of_operands]
    exact (List.getElem?_eq_some_iff.1 hget).2
  refine ⟨hall, ?_⟩
  rw [← hprogram, ← himage]

/-- **Assembling a listing** gives the program back, and fails only for numbers that may not be written. -/
theorem run_listing {product : Product} (hfit : p.length ≤ Image.capacity) :
    (run tree origin p.listing).outcome = .ok product ↔
      (∀ i ∈ p, i.Writable ∧ i.c.toNat % 6 = 0) ∧ product = ⟨p, p.image⟩ := by
  constructor
  · exact eq_of_run_listing
  · rintro ⟨hall, rfl⟩
    have hstream : stream tree origin p.listing = .ok (p.lines origin.name, {}) :=
      stream_listing.2 ⟨hall, rfl, rfl⟩
    have hlen : (Line.instructions (p.lines origin.name)).length ≤ Image.capacity := by
      rw [p.instructions_lines, List.length_map]
      exact hfit
    obtain ⟨product, hlay⟩ := layOut_ok (stream_expanding hstream) hlen
    have hrun : (run tree origin p.listing).outcome = .ok product := bind_eq_ok.2 ⟨_, hstream, hlay⟩
    rw [hrun, (eq_of_run_listing hrun).2]

/-- **Disassemble, then assemble.**  The listing of an image assembles exactly if all its numbers may be written
and its addresses are those of instructions; then it is the image again exactly if that has zeros only behind its
first sentinel.  An image that comes from an assembly is always such. -/
theorem run_disassembled (tree : FileTree) :
    (∀ image listing, Program.disassemble image = .ok listing →
      ∃ p, Program.decode image = .ok p ∧ Image.FirstHalt image p.length ∧
        ((∃ product, (run tree {} listing).outcome = .ok product) ↔
          ∀ i ∈ p, i.a.toNat ≤ 32767 ∧ i.b.toNat ≤ 32767 ∧ i.c.toNat ≤ 32767 ∧ i.c.toNat % 6 = 0) ∧
        ∀ product, (run tree {} listing).outcome = .ok product →
          (product.image = image ↔ ∀ b ∈ image.drop (6 * (p.length + 1)), b = 0)) ∧
    ∀ (source : FileTree) (origin : Origin) (text : String) (made : Product),
      (run source origin text).outcome = .ok made →
        ∃ listing product, Program.disassemble made.image = .ok listing ∧
          (run tree {} listing).outcome = .ok product ∧ product.image = made.image := by
  constructor
  · intro image listing h
    obtain ⟨p, hp, rfl⟩ := map_eq_ok.1 h
    have hfit := Program.length_le_of_decode hp
    refine ⟨p, hp, Program.firstHalt_of_decode hp, ?_, ?_⟩
    · constructor
      · rintro ⟨product, hrun⟩ i hi
        obtain ⟨⟨ha, hb, hc⟩, h6⟩ := ((run_listing hfit).1 hrun).1 i hi
        exact ⟨ha, hb, hc, h6⟩
      · intro hall
        refine ⟨_, (run_listing hfit).2 ⟨fun i hi => ?_, rfl⟩⟩
        obtain ⟨ha, hb, hc, h6⟩ := hall i hi
        exact ⟨⟨ha, hb, hc⟩, h6⟩
    · intro product hrun
      rw [((run_listing hfit).1 hrun).2]
      exact Program.image_eq_iff_of_decode hp
  · intro source origin text made h
    have hdecode := decode_of_run h
    have hall : ∀ i ∈ made.program, i.Writable ∧ i.c.toNat % 6 = 0 := by
      intro i hi
      obtain ⟨ha, hb, hc, h6⟩ := bounds_of_run h i hi
      exact ⟨⟨ha, hb, Nat.le_succ_of_le hc⟩, h6⟩
    refine ⟨_, _, map_eq_ok.2 ⟨_, hdecode, rfl⟩, (run_listing (image_eq_of_run h).2).2 ⟨hall, rfl⟩, ?_⟩
    exact (image_eq_of_run h).1.symm

/-- An image that comes back, and one whose listing is refused. -/
theorem run_disassembled_twoCalls :
    (∃ made listing product, (run {} {} twoCalls).outcome = .ok made ∧
      Program.disassemble made.image = .ok listing ∧ (run {} {} listing).outcome = .ok product ∧
      product.image = made.image ∧ ∀ b ∈ made.image.drop (6 * (7 + 1)), b = 0) ∧
    ∃ listing, Program.disassemble (Program.image [⟨32768, 0, 0⟩]) = .ok listing ∧
      ¬ ∃ product, (run {} {} listing).outcome = .ok product := by
  obtain ⟨hall, hmade⟩ := run_disassembled {}
  constructor
  · obtain ⟨made, h, hprogram⟩ := run_twoCalls
    obtain ⟨listing, product, hlisting, hrun, himage⟩ := hmade {} {} twoCalls made h
    obtain ⟨p, hp, -, -, hzero⟩ := hall _ _ hlisting
    obtain rfl : twoCallsProgram = p := by
      rw [decode_of_run h, hprogram] at hp
      exact Except.ok.inj hp
    exact ⟨made, listing, product, h, hlisting, hrun, himage, (hzero product hrun).1 himage⟩
  · have hdecode : Program.decode (Program.image [⟨32768, 0, 0⟩]) = .ok [⟨32768, 0, 0⟩] :=
      Program.decode_image (by decide) (by decide)
    have hlisting : Program.disassemble (Program.image [⟨32768, 0, 0⟩]) = .ok (Program.listing [⟨32768, 0, 0⟩]) :=
      map_eq_ok.2 ⟨_, hdecode, rfl⟩
    obtain ⟨p, hp, -, hiff, -⟩ := hall _ _ hlisting
    obtain rfl := Except.ok.inj (hdecode.symm.trans hp)
    refine ⟨_, hlisting, fun hrun => ?_⟩
    obtain ⟨ha, -⟩ := hiff.1 hrun _ List.mem_cons_self
    exact absurd ha (by decide)

end Assembly

end Abcout
