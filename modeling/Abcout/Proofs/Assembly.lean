import Abcout.Proofs.Import
import Abcout.Proofs.Layout

/-!
# Abcout.Proofs.Assembly — what a successful assembly produces

`Assembly.run_eq_ok` takes a success apart into its passes, and `prepare_expanding` says what they start from.  The
two main statements are about every tree, origin and text:

* `run_product_sound`: the image is that of the program, it decodes to the program, and no instruction can be taken
  for the sentinel.
* `run_resolves_by_position`: the `i`-th instruction of the stream becomes the `i`-th of the program, and its
  labels stand for positions in the stream.
-/

namespace Abcout

namespace Assembly

variable {tree : FileTree} {origin : Origin} {text : String} {product : Product}

/-- Preparing depends on the files and the text through loading. -/
theorem prepare_of_load {r : Except Fault (List Line × Symbols)} :
    Import.load tree (Import.rootChain tree origin) {} origin text = r →
    prepare tree origin text = match r with
      | .error fault => ([], .error fault)
      | .ok (lines, s) =>
        let r := Label.register s (Block.split lines).2 (Block.split lines).1
        (r.warnings.toList, match r.fault with
          | some fault => .error fault
          | none => .ok ⟨{ s with labels := r.labels }, (Block.split lines).1, (Block.split lines).2⟩) := by
  rintro rfl
  rfl

theorem stream_eq (tree : FileTree) (origin : Origin) (text : String) :
    stream tree origin text = (prepare tree origin text).2 >>= Prepared.expand := rfl

theorem outcome_run (tree : FileTree) (origin : Origin) (text : String) :
    (run tree origin text).outcome = stream tree origin text >>= fun r => layOut r.2.labels r.1 := rfl

theorem stream_eq_ok {S : List Line} {s : Symbols} (h : stream tree origin text = .ok (S, s)) :
    ∃ p s₀, (prepare tree origin text).2 = .ok p ∧ p.blocks.foldlM Symbols.define p.symbols = .ok s₀ ∧
      s₀.expandAll p.program = .ok (S, s) := by
  unfold stream at h
  obtain ⟨p, hp, h⟩ := bind_eq_ok.1 h
  unfold Prepared.expand at h
  obtain ⟨s₀, hs₀, h⟩ := bind_eq_ok.1 h
  exact ⟨p, s₀, hp, hs₀, h⟩

theorem stream_of_passes {p : Prepared} {s₀ s : Symbols} {S : List Line}
    (hp : (prepare tree origin text).2 = .ok p) (hs₀ : p.blocks.foldlM Symbols.define p.symbols = .ok s₀)
    (hexp : s₀.expandAll p.program = .ok (S, s)) : stream tree origin text = .ok (S, s) :=
  bind_eq_ok.2 ⟨p, hp, bind_eq_ok.2 ⟨s₀, hs₀, hexp⟩⟩

theorem run_outcome_of_stream {S : List Line} {s : Symbols} (h : stream tree origin text = .ok (S, s)) :
    (run tree origin text).outcome = layOut s.labels S := by
  unfold run
  rw [h]
  rfl

theorem run_eq_ok (h : (run tree origin text).outcome = .ok product) :
    ∃ S s, stream tree origin text = .ok (S, s) ∧ layOut s.labels S = .ok product := by
  obtain ⟨⟨S, s⟩, hstream, h⟩ := bind_eq_ok.1 h
  exact ⟨S, s, hstream, h⟩

/-- What the passes of a run come to can be evaluated. -/
theorem exists_passes {P : Prepared → Symbols → List Line → Product → Prop}
    [∀ p s₀ S product, Decidable (P p s₀ S product)]
    (h : ((prepare tree origin text).2.toOption.any fun p =>
      (p.blocks.foldlM Symbols.define p.symbols).toOption.any fun s₀ =>
        (s₀.expandAll p.program).toOption.any fun r =>
        (layOut r.2.labels r.1).toOption.any fun product => P p s₀ r.1 product) = true) :
    ∃ product p s₀ S s, (run tree origin text).outcome = .ok product ∧ (prepare tree origin text).2 = .ok p ∧
      p.blocks.foldlM Symbols.define p.symbols = .ok s₀ ∧ s₀.expandAll p.program = .ok (S, s) ∧
        P p s₀ S product := by
  obtain ⟨p, hp, h⟩ := (Option.any_eq_true _ _).1 h
  obtain ⟨s₀, hs₀, h⟩ := (Option.any_eq_true _ _).1 h
  obtain ⟨⟨S, s⟩, hexp, h⟩ := (Option.any_eq_true _ _).1 h
  obtain ⟨product, hlay, h⟩ := (Option.any_eq_true _ _).1 h
  rw [toOption_eq_some] at hp hs₀ hexp hlay
  refine ⟨product, p, s₀, S, s, ?_, hp, hs₀, hexp, of_decide_eq_true h⟩
  rw [run_outcome_of_stream (stream_of_passes hp hs₀ hexp)]
  exact hlay

/-- **All that preparing does**: it loads the source, takes the definitions out, and registers the labels. -/
theorem prepare_eq_ok {p : Prepared} (h : (prepare tree origin text).2 = .ok p) :
    ∃ lines s, Import.load tree (Import.rootChain tree origin) {} origin text = .ok (lines, s) ∧
      (Label.register s (Block.split lines).2 (Block.split lines).1).fault = none ∧
      p = ⟨{ s with labels := (Label.register s (Block.split lines).2 (Block.split lines).1).labels },
        (Block.split lines).1, (Block.split lines).2⟩ := by
  unfold prepare at h
  split at h
  · cases h
  · rename_i lines s hload
    simp only at h
    split at h
    · cases h
    · rename_i hfault
      cases h
      exact ⟨lines, s, hload, hfault, rfl⟩

/-- The program of a source, with its macros defined, is ready to be expanded. -/
theorem prepare_expanding {p : Prepared} {s₀ : Symbols} (hp : (prepare tree origin text).2 = .ok p)
    (hs₀ : p.blocks.foldlM Symbols.define p.symbols = .ok s₀) : Symbols.Expanding [] s₀ p.program := by
  obtain ⟨lines, s, hload, hfault, rfl⟩ := prepare_eq_ok hp
  obtain ⟨hwf, hlabels⟩ := Import.load_wellFormed (MacroTable.all_empty _) hload
  obtain ⟨hnd, hreg⟩ := Label.register_eq hlabels hfault
  obtain ⟨hblocks, hprogram, -⟩ :=
    Block.split_forall Line.InRange.blanked (Line.readAll_inRange (Import.load_eq_ok hload).1)
  obtain ⟨hwf₀, hlabels₀⟩ := Symbols.defineAll_wellFormed (by exact hwf) hblocks hs₀
  have hdecl : s₀.labels = LabelTable.declare ∅ (Line.declared (Block.split lines).2) := hlabels₀.trans hreg
  refine ⟨⟨hwf₀, List.forall_mem_nil _, List.forall_mem_nil _, hprogram, hnd, fun x => ?_⟩,
    List.forall_mem_nil _, ?_⟩
  · rw [hdecl, LabelTable.mem_declare]
    simp
  · rw [hdecl]
    exact LabelTable.unassigned_empty.declare _

/-- **The stream of a source**: labels, all different, and executable instructions. -/
theorem stream_expanding {S : List Line} {s : Symbols} (h : stream tree origin text = .ok (S, s)) :
    Symbols.Expanding S s [] := by
  obtain ⟨p, s₀, hp, hs₀, hexp⟩ := stream_eq_ok h
  have h0 := prepare_expanding hp hs₀
  rw [← List.append_nil p.program] at h0
  exact h0.expandAll hexp

/-! ## A source with two calls

One macro with a label of its own and a parameter is called twice, once with a label that is declared further
down. -/

def twoCalls : String :=
  "%macro skip 1\n0, 0, over\n1, 2, %0\nover:\n3, 4\n%endmacro\n" ++
    "start:\nskip end\nagain:\nskip start\nend:\n5, 6, again\n"

def twoCallsProgram : Program :=
  [⟨0, 0, 12⟩, ⟨1, 2, 36⟩, ⟨3, 4, 18⟩, ⟨0, 0, 30⟩, ⟨1, 2, 0⟩, ⟨3, 4, 36⟩, ⟨5, 6, 18⟩]

theorem run_twoCalls :
    ∃ product, (run {} {} twoCalls).outcome = .ok product ∧ product.program = twoCallsProgram := by
  have h : (run {} {} twoCalls).outcome.toOption.map (·.program) = some twoCallsProgram := by
    rw [outcome_run, stream_eq, prepare_of_load (Import.load_eq _ _ _ _ _)]
    decide +kernel
  obtain ⟨product, hproduct, hprogram⟩ := Option.map_eq_some_iff.1 h
  exact ⟨product, toOption_eq_some.1 hproduct, hprogram⟩

end Assembly

/-! ## Images -/

theorem Symbols.Expanding.inRange_operands {S rest : List Line} {s : Symbols} (h : Symbols.Expanding S s rest)
    {ops : List Operand} (hops : ops ∈ Line.instructions S) : ∀ op ∈ ops, op.InRange := by
  obtain ⟨l, hl, hstmt⟩ := Line.exists_of_mem_instructions hops
  have hrange := h.inRange l hl
  rw [Line.InRange, hstmt] at hrange
  exact hrange

/-- Numbers in range and at most 5460 instructions keep every address below the sentinel's. -/
theorem Resolved.bounds {S : List Line} {i : Nat} {ops : List Operand} {ins : Instruction} {labels : LabelTable}
    (h : Resolved S i ops ins) (hx : Executable labels ops) (hrange : ∀ op ∈ ops, op.InRange)
    (hi : i < (Line.instructions S).length) (hlen : (Line.instructions S).length ≤ 5460) :
    ins.a.toNat ≤ 32767 ∧ ins.b.toNat ≤ 32767 ∧ ins.c.toNat ≤ 32766 ∧ ins.c.toNat % 6 = 0 := by
  have hab : ∀ n : UInt16, .number n ∈ ops → n.toNat ≤ 32767 := fun n hn => hrange _ hn
  cases h with
  | next a b c hc =>
    refine ⟨hab a (by simp), hab b (by simp), ?_, ?_⟩
    · show c.toNat ≤ 32766
      omega
    · show c.toNat % 6 = 0
      omega
  | address a b c =>
    have hc : c.toNat % 6 = 0 := by
      cases hx with
      | address _ _ _ hc => exact hc
    have hle := hab c (by simp)
    refine ⟨hab a (by simp), hab b (by simp), ?_, hc⟩
    show c.toNat ≤ 32766
    omega
  | label a b c name n hn hc =>
    have hle := Line.position?_le hn
    refine ⟨hab a (by simp), hab b (by simp), ?_, ?_⟩
    · show c.toNat ≤ 32766
      omega
    · show c.toNat % 6 = 0
      omega

namespace Assembly

variable {tree : FileTree} {origin : Origin} {text : String} {product : Product}

theorem image_eq_of_run (h : (run tree origin text).outcome = .ok product) :
    product.image = product.program.image ∧ product.program.length ≤ Image.capacity := by
  obtain ⟨S, s, hstream, hlay⟩ := run_eq_ok h
  obtain ⟨himage, hfits, -, -⟩ := layOut_spec (stream_expanding hstream) hlay
  exact ⟨himage, hfits⟩

theorem bounds_of_run (h : (run tree origin text).outcome = .ok product) :
    ∀ i ∈ product.program, i.a.toNat ≤ 32767 ∧ i.b.toNat ≤ 32767 ∧ i.c.toNat ≤ 32766 ∧ i.c.toNat % 6 = 0 := by
  obtain ⟨S, s, hstream, hlay⟩ := run_eq_ok h
  have hS := stream_expanding hstream
  obtain ⟨-, hfits, hlen, hres⟩ := layOut_spec hS hlay
  intro ins hins
  obtain ⟨i, hi, rfl⟩ := List.getElem_of_mem hins
  rw [hlen] at hi
  obtain ⟨ins, hget, hr⟩ := hres i _ (List.getElem?_eq_getElem hi)
  obtain ⟨_, rfl⟩ := List.getElem?_eq_some_iff.1 hget
  have hmem := List.getElem_mem hi
  exact hr.bounds (hS.executable _ hmem) (hS.inRange_operands hmem) hi (hlen ▸ hfits)

/-- The address of the sentinel is no multiple of six. -/
theorem halt_notMem_of_run (h : (run tree origin text).outcome = .ok product) :
    Instruction.halt ∉ product.program := by
  intro hmem
  obtain ⟨-, -, -, h6⟩ := bounds_of_run h _ hmem
  exact absurd h6 (by decide)

theorem decode_of_run (h : (run tree origin text).outcome = .ok product) :
    Program.decode product.image = .ok product.program := by
  obtain ⟨himage, hfits⟩ := image_eq_of_run h
  rw [himage]
  exact Program.decode_image hfits (halt_notMem_of_run h)

/-- **The image of an assembly**: it has its fixed size and is the encoding of the program, which fits and is read
back whole; all operands are in range, and no instruction is the sentinel. -/
theorem run_product_sound (h : (run tree origin text).outcome = .ok product) :
    product.image.length = 32768 ∧ product.program.length ≤ 5460 ∧
      product.program.encode = .ok product.image ∧ Program.decode product.image = .ok product.program ∧
      ∀ i ∈ product.program, i.a.toNat ≤ 32767 ∧ i.b.toNat ≤ 32767 ∧ i.c.toNat ≤ 32766 ∧ i.c.toNat % 6 = 0 ∧
        i ≠ Instruction.halt := by
  obtain ⟨himage, hfits⟩ := image_eq_of_run h
  refine ⟨?_, hfits, ?_, decode_of_run h, fun i hi => ?_⟩
  · rw [himage]
    exact Program.length_image hfits
  · rw [Program.encode_eq, if_pos hfits, himage]
  · obtain ⟨ha, hb, hc, h6⟩ := bounds_of_run h i hi
    exact ⟨ha, hb, hc, h6, fun hhalt => halt_notMem_of_run h (hhalt ▸ hi)⟩

theorem run_product_sound_twoCalls :
    ∃ product, (run {} {} twoCalls).outcome = .ok product ∧ product.image.length = 32768 ∧
      twoCallsProgram.encode = .ok product.image ∧ Program.decode product.image = .ok twoCallsProgram ∧
      ∀ i ∈ twoCallsProgram, i.c.toNat ≤ 32766 ∧ i.c.toNat % 6 = 0 ∧ i ≠ Instruction.halt := by
  obtain ⟨product, h, hprogram⟩ := run_twoCalls
  obtain ⟨hlength, -, hencode, hdecode, hall⟩ := run_product_sound h
  rw [hprogram] at hencode hdecode hall
  refine ⟨product, h, hlength, hencode, hdecode, fun i hi => ?_⟩
  obtain ⟨-, -, hc, h6, hhalt⟩ := hall i hi
  exact ⟨hc, h6, hhalt⟩

/-! ## Labels -/

/-- **Label resolution is exact**: the stream is labels, each declared once, and instructions; instruction `i` of
the stream becomes instruction `i` of the program, and there are no others. -/
theorem run_resolves_by_position (h : (run tree origin text).outcome = .ok product) :
    ∃ S s, stream tree origin text = .ok (S, s) ∧ (∀ l ∈ S, l.IsCode) ∧ (Line.declared S).Nodup ∧
      product.program.length = (Line.instructions S).length ∧
      ∀ i ops, (Line.instructions S)[i]? = some ops →
        ∃ ins, product.program[i]? = some ins ∧ Resolved S i ops ins := by
  obtain ⟨S, s, hstream, hlay⟩ := run_eq_ok h
  have hS := stream_expanding hstream
  obtain ⟨-, -, hlen, hres⟩ := layOut_spec hS hlay
  refine ⟨S, s, hstream, hS.isCode, ?_, hlen, hres⟩
  simpa using hS.nodup

theorem run_resolves_by_position_twoCalls :
    ∃ product S s, (run {} {} twoCalls).outcome = .ok product ∧ stream {} {} twoCalls = .ok (S, s) ∧
      (Line.instructions S).length = 7 ∧ (Line.declared S).Nodup ∧
      ∀ i ops, (Line.instructions S)[i]? = some ops →
        ∃ ins, twoCallsProgram[i]? = some ins ∧ Resolved S i ops ins := by
  obtain ⟨product, h, hprogram⟩ := run_twoCalls
  obtain ⟨S, s, hstream, -, hnd, hlen, hres⟩ := run_resolves_by_position h
  rw [hprogram] at hlen hres
  exact ⟨product, S, s, h, hstream, hlen.symm, hnd, hres⟩

end Assembly

end Abcout
