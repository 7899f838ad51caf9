import Abcout.Proofs.Assembly
import Abcout.Proofs.ImportGraph
import Abcout.Proofs.Templates

/-!
# Abcout.Proofs.Contexts — the macro table in every state of a run

`Assembly.Context tree origin text owner s`: the symbols `s` are met in a run, whether or not it succeeds, as those
of the source itself or of a file that is imported, at any depth.

`Assembly.context_macros_proper` says what every record of such a table satisfies.  In an imported file nothing is
free; in the source itself the labels of the program are, and only in macros that the source defines.
-/

namespace Abcout

/-! ## Definitions one after the other -/

/-- The symbols that are met while the definitions `blocks` are made from the symbols `s` on: between two of them,
or between two lines of one. -/
inductive Symbols.Defining (s : Symbols) (blocks : List Block) : Symbols → Prop
  | between {before after : List Block} {t : Symbols} (hblocks : blocks = before ++ after)
      (ht : before.foldlM Symbols.define s = .ok t) : Defining s blocks t
  | within {before after : List Block} {b : Block} {t : Symbols} {params : Nat} {locals : NameSet}
      {lines rest : List Line} {d : Block.Draft} (hblocks : blocks = before ++ b :: after)
      (ht : before.foldlM Symbols.define s = .ok t) (hname : b.checkName t.macros = .ok ())
      (hparams : b.paramCount = .ok params) (hcalls : b.checkCalls = .ok ())
      (hlocals : b.body.foldlM Block.addLocal ∅ = .ok locals) (hbody : b.body = lines ++ rest)
      (hd : lines.foldlM (Block.Draft.step b params) { symbols := t, locals } = .ok d) :
      Defining s blocks d.symbols

namespace Symbols

variable {s t : Symbols} {blocks : List Block} {free : String → String → Prop}

/-- **Run**: what a definition keeps, and does not depend on counters, holds at every moment. -/
theorem Defining.keeps {P : Symbols → Prop}
    (hcode : ∀ t t' : Symbols, t.macros.SameCode t'.macros → t'.labels = t.labels → P t → P t')
    (hdefine : ∀ t t' b, P t → b ∈ blocks → t.define b = .ok t' → P t') (hs : P s)
    (ht : s.Defining blocks t) : P t := by
  cases ht with
  | between hblocks ht =>
    refine foldlM_define_keeps (fun u u' b hu hb => hdefine u u' b hu ?_) hs ht
    exact hblocks ▸ List.mem_append_left _ hb
  | within hblocks ht _ _ _ _ _ hd =>
    obtain ⟨hsame, hlabels⟩ := Block.Draft.sameCode_foldlM hd
    refine hcode _ _ hsame hlabels (foldlM_define_keeps (fun u u' b hu hb => hdefine u u' b hu ?_) hs ht)
    exact hblocks ▸ List.mem_append_left _ hb

/-- Definitions make proper records; a label of the program is free in them alone. -/
theorem Defining.proper (ht : s.Defining blocks t) (hs : s.macros.Proper free)
    (hb : ∀ b ∈ blocks, ∀ l ∈ b.body, l.InRange)
    (hfree : ∀ b ∈ blocks, b.name ∉ s.macros → ∀ x ∈ s.labels, free b.name x) :
    t.macros.Proper free ∧ t.labels = s.labels := by
  have hkeeps : (t.macros.Proper free ∧ t.labels = s.labels) ∧ s.macros.Extends t.macros := by
    refine Defining.keeps (P := fun t => (t.macros.Proper free ∧ t.labels = s.labels) ∧
      s.macros.Extends t.macros) ?_ ?_
      ⟨⟨hs, rfl⟩, .refl _⟩ ht
    · rintro t t' hcode hlabels' ⟨⟨hproper, hlabels⟩, hext⟩
      exact ⟨⟨hproper.of_sameCode hcode, hlabels'.trans hlabels⟩, hext.trans hcode.extends⟩
    · rintro t t' b ⟨⟨hproper, hlabels⟩, hext⟩ hmem hstep
      refine ⟨⟨define_proper hproper (hb b hmem) ?_ hstep, (labels_define hstep).trans hlabels⟩,
        hext.trans (extends_define hstep)⟩
      -- a name that is new here was new at the start
      intro hname x hx
      exact hfree b hmem (fun hmem' => hname (hext.mem hmem')) x (hlabels ▸ hx)
  exact hkeeps.1

theorem defineAll_proper (hs : s.macros.Proper free) (hb : ∀ b ∈ blocks, ∀ l ∈ b.body, l.InRange)
    (hfree : ∀ b ∈ blocks, b.name ∉ s.macros → ∀ x ∈ s.labels, free b.name x)
    (h : blocks.foldlM Symbols.define s = .ok t) : t.macros.Proper free ∧ t.labels = s.labels :=
  Defining.proper (.between (List.append_nil blocks).symm h) hs hb hfree

end Symbols

/-! ## Imports -/

namespace Import

variable {tree : FileTree} {origin₀ : Origin} {text₀ : String}

/-- An import statement of a source has loaded its file.  The symbols of the source are `s`, those of the file
`inner`, and `blocks` are the definitions of the file that are selected. -/
inductive Selected (tree : FileTree) (origin₀ : Origin) (text₀ : String) :
    Owner → Symbols → Symbols → List Block → Prop
  | intro {owner : Owner} {chain : List Location} {origin : Origin} {text : String}
      {s inner : Symbols} {line : Line} {rest lines : List Line} {clause : ImportClause} {f : tree.TextFile}
      {blocks : List Block} (h : Loading tree origin₀ text₀ owner chain origin text)
      (hs : AtImport tree chain origin text s (line :: rest)) (hnames : Names tree origin.directory line clause f)
      (hf : f.location ∉ chain)
      (hload : load tree (f.location :: chain) {} (originOf clause origin.directory) f.text = .ok (lines, inner))
      (hselect : select clause.selection (Block.split lines).1 = .ok blocks)
      (hnew : checkNew s.macros blocks = .ok ()) : Selected tree origin₀ text₀ owner s inner blocks

section All

variable {P : Macro → Prop}
  (hdefine : ∀ (s s' : Symbols) (b : Block), s.labels = ∅ → s.macros.All P → (∀ l ∈ b.body, l.Faithful) →
    s.define b = .ok s' → s'.macros.All P)
include hdefine

theorem AtImport.all {chain : List Location} {origin : Origin} {text : String} {s : Symbols} {rest : List Line}
    (h : AtImport tree chain origin text s rest) : s.macros.All P ∧ s.labels = ∅ := by
  obtain ⟨lines, before, -, -, hadd⟩ := h
  refine foldlM_keeps (fun (t : Symbols) _ => t.macros.All P ∧ t.labels = ∅) ?_ ⟨MacroTable.all_empty _, rfl⟩ hadd
  rintro t line - t' ⟨hall, hlabels⟩ hstep
  obtain ⟨hall', hlabels'⟩ := add_all hdefine
    (fun f origin lines inner _ hload => load_all hdefine (MacroTable.all_empty _) hload) hall hstep
  exact ⟨hall', hlabels'.trans hlabels⟩

theorem Selected.all {owner : Owner} {s inner : Symbols} {blocks : List Block}
    (h : Selected tree origin₀ text₀ owner s inner blocks) :
    (s.macros.All P ∧ s.labels = ∅) ∧ inner.macros.All P ∧ inner.labels = ∅ := by
  obtain ⟨-, hs, -, -, hload, -, -⟩ := h
  exact ⟨hs.all hdefine, load_all hdefine (MacroTable.all_empty _) hload⟩

end All

theorem define_closed {s s' : Symbols} {b : Block} (hlabels : s.labels = ∅) (hs : s.macros.All Macro.Closed)
    (hb : ∀ l ∈ b.body, l.Faithful) (h : s.define b = .ok s') : s'.macros.All Macro.Closed :=
  Symbols.define_closed hlabels hs (fun l hl => (hb l hl).inRange) h

theorem load_closed {chain : List Location} {origin : Origin} {text : String} {lines : List Line} {s : Symbols}
    (h : load tree chain {} origin text = .ok (lines, s)) : s.macros.All Macro.Closed ∧ s.labels = ∅ :=
  load_all (fun _ _ _ => define_closed) (MacroTable.all_empty _) h

theorem AtImport.closed {chain : List Location} {origin : Origin} {text : String} {s : Symbols} {rest : List Line}
    (h : AtImport tree chain origin text s rest) : s.macros.All Macro.Closed ∧ s.labels = ∅ :=
  h.all fun _ _ _ => define_closed

namespace Selected

variable {owner : Owner} {s inner : Symbols} {blocks : List Block}

theorem closed (h : Selected tree origin₀ text₀ owner s inner blocks) :
    (s.macros.All Macro.Closed ∧ s.labels = ∅) ∧ inner.macros.All Macro.Closed ∧ inner.labels = ∅ :=
  h.all fun _ _ _ => define_closed

theorem faithful (h : Selected tree origin₀ text₀ owner s inner blocks) :
    ∀ b ∈ blocks, ∀ l ∈ b.body, l.Faithful := by
  obtain ⟨-, -, -, -, hload, hselect, -⟩ := h
  have hlines := (Block.split_forall Line.Faithful.blanked (Line.faithful_of_readAll (load_eq_ok hload).1)).1
  exact fun b hb => hlines b (mem_of_select hselect b hb)

theorem inRange (h : Selected tree origin₀ text₀ owner s inner blocks) : ∀ b ∈ blocks, ∀ l ∈ b.body, l.InRange :=
  fun b hb l hl => (h.faithful b hb l hl).inRange

/-- The definitions that an import statement selects make closed records, at every moment. -/
theorem defining_closed {t : Symbols} (h : Selected tree origin₀ text₀ owner s inner blocks)
    (ht : inner.Defining blocks t) : t.macros.All Macro.Closed ∧ t.labels = ∅ := by
  obtain ⟨-, hclosed, hlabels⟩ := h.closed
  have hproper : inner.macros.Proper fun _ _ => False := hclosed
  obtain ⟨hproper', hlabels'⟩ := ht.proper hproper h.inRange fun b _ _ x hx => by simp [hlabels] at hx
  exact ⟨hproper', hlabels'.trans hlabels⟩

end Selected

end Import

/-! ## States of a run -/

namespace Assembly

/-- The symbols that are met in a run: those of the source itself (`root`), or of a file that it imports, directly
or through others (`imported`). -/
inductive Context (tree : FileTree) (origin : Origin) (text : String) : Import.Owner → Symbols → Prop
  /-- Between two import statements. -/
  | importing {owner : Import.Owner} {chain : List Location} {origin' : Origin} {text' : String} {s : Symbols}
      {rest : List Line} (h : Import.Loading tree origin text owner chain origin' text')
      (hs : Import.AtImport tree chain origin' text' s rest) : Context tree origin text owner s
  /-- While the selected definitions of a file are made in that file. -/
  | selecting {owner : Import.Owner} {s inner t : Symbols} {blocks : List Block}
      (h : Import.Selected tree origin text owner s inner blocks) (ht : inner.Defining blocks t) :
      Context tree origin text .imported t
  /-- While their records are copied to the importing source. -/
  | copying {owner : Import.Owner} {s inner inner' : Symbols} {before after : List Block}
      (h : Import.Selected tree origin text owner s inner (before ++ after))
      (ht : (before ++ after).foldlM Symbols.define inner = .ok inner') :
      Context tree origin text owner { s with macros := Import.copy inner'.macros s.macros before }
  /-- While the labels of the program are registered. -/
  | registering {lines before after : List Line} {s : Symbols} {isMacro : String → Bool}
      (h : Import.load tree (Import.rootChain tree origin) {} origin text = .ok (lines, s))
      (hprogram : (Block.split lines).2 = before ++ after) :
      Context tree origin text .root { s with labels := (before.foldl
        (Label.Registration.step (Label.lastNumber (Block.split lines).2) isMacro) { labels := s.labels }).labels }
  /-- While the definitions of the source are made. -/
  | defining {p : Prepared} {t : Symbols} (hp : (prepare tree origin text).2 = .ok p)
      (ht : p.symbols.Defining p.blocks t) : Context tree origin text .root t
  /-- While the program is expanded. -/
  | expanding {p : Prepared} {s₀ s : Symbols} {before after done : List Line}
      (hp : (prepare tree origin text).2 = .ok p) (hs₀ : p.blocks.foldlM Symbols.define p.symbols = .ok s₀)
      (hprogram : p.program = before ++ after) (hs : s₀.expandAll before = .ok (done, s)) :
      Context tree origin text .root s
  /-- While labels get their addresses. -/
  | addressing {s : Symbols} {before after : List Line} {l : Label.Layout}
      (h : stream tree origin text = .ok (before ++ after, s))
      (hl : before.foldlM Label.Layout.step { labels := s.labels } = .ok l) :
      Context tree origin text .root { s with labels := l.labels }

/-- A label `x` of the program can be free in the macro `k`: the source itself defines `k`, and `x` is
registered. -/
def FreeIn (tree : FileTree) (origin : Origin) (text : String) (s : Symbols) (k x : String) : Prop :=
  ∃ p, (prepare tree origin text).2 = .ok p ∧ k ∉ p.symbols.macros ∧ (∃ b ∈ p.blocks, b.name = k) ∧
    x ∈ Line.declared p.program ∧ x ∈ s.labels

variable {tree : FileTree} {origin : Origin} {text : String}

theorem prepare_faithful {p : Prepared} (h : (prepare tree origin text).2 = .ok p) :
    (∀ b ∈ p.blocks, ∀ l ∈ b.body, l.Faithful) ∧ ∀ l ∈ p.program, l.Faithful := by
  obtain ⟨lines, s, hload, -, rfl⟩ := prepare_eq_ok h
  obtain ⟨hblocks, hprogram, -⟩ :=
    Block.split_forall Line.Faithful.blanked (Line.faithful_of_readAll (Import.load_eq_ok hload).1)
  exact ⟨hblocks, hprogram⟩

/-- What definitions start from: imported records, and the labels of the program. -/
theorem prepare_closed {p : Prepared} (h : (prepare tree origin text).2 = .ok p) :
    p.symbols.macros.All Macro.Closed ∧ p.symbols.labels = LabelTable.declare ∅ (Line.declared p.program) ∧
      ∀ b ∈ p.blocks, ∀ l ∈ b.body, l.InRange := by
  have hblocks := (prepare_faithful h).1
  obtain ⟨lines, s, hload, hfault, rfl⟩ := prepare_eq_ok h
  obtain ⟨hclosed, hlabels⟩ := Import.load_closed hload
  exact ⟨hclosed, (Label.register_eq hlabels hfault).2, fun b hb l hl => (hblocks b hb l hl).inRange⟩

theorem defining_proper {p : Prepared} {t : Symbols} (hp : (prepare tree origin text).2 = .ok p)
    (ht : p.symbols.Defining p.blocks t) : t.macros.Proper (FreeIn tree origin text t) := by
  obtain ⟨hclosed, hlabels, hrange⟩ := prepare_closed hp
  have hstart : p.symbols.macros.Proper fun k x =>
      k ∉ p.symbols.macros ∧ (∃ b ∈ p.blocks, b.name = k) ∧ x ∈ p.symbols.labels := .of_closed hclosed
  obtain ⟨hproper, hlabels'⟩ := ht.proper hstart hrange fun b hb hname x hx => ⟨hname, ⟨b, hb, rfl⟩, hx⟩
  refine hproper.mono ?_
  rintro k x ⟨hk, hb, hx⟩
  refine ⟨p, hp, hk, hb, ?_, hlabels' ▸ hx⟩
  rw [hlabels, LabelTable.mem_declare] at hx
  exact hx.resolve_left Std.ExtTreeMap.not_mem_empty

/-- Later passes change counters and add labels. -/
theorem expanding_proper {p : Prepared} {s₀ s : Symbols} {program done : List Line}
    (hp : (prepare tree origin text).2 = .ok p) (hs₀ : p.blocks.foldlM Symbols.define p.symbols = .ok s₀)
    (hs : s₀.expandAll program = .ok (done, s)) : s.macros.Proper (FreeIn tree origin text s) := by
  have h₀ := defining_proper hp (.between (List.append_nil p.blocks).symm hs₀)
  obtain ⟨hcode, hlabels⟩ := Symbols.expandAll_keeps hs
  refine (h₀.of_sameCode hcode).mono ?_
  rintro k x ⟨q, hq, hk, hb, hdecl, hx⟩
  exact ⟨q, hq, hk, hb, hdecl, hlabels x hx⟩

theorem labels_foldlM_layout {lines : List Line} {l l' : Label.Layout}
    (h : lines.foldlM Label.Layout.step l = .ok l') : ∀ x ∈ l.labels, x ∈ l'.labels := by
  refine foldlM_keeps (fun (e : Label.Layout) _ => ∀ x ∈ l.labels, x ∈ e.labels) ?_ (fun x hx => hx) h
  intro e line rest e' he hstep x hx
  unfold Label.Layout.step at hstep
  split at hstep
  · simp only at hstep
    split_ifs at hstep
    cases hstep
    exact mem_insert_name.2 (.inr (he x hx))
  · cases hstep
    exact he x hx

/-- **The records of every table that a run meets.** -/
theorem Context.proper {owner : Import.Owner} {s : Symbols} (h : Context tree origin text owner s) :
    s.macros.Proper fun k x => owner = .root ∧ FreeIn tree origin text s k x := by
  have hroot : ∀ {s : Symbols}, s.macros.Proper (FreeIn tree origin text s) →
      s.macros.Proper fun k x => Import.Owner.root = .root ∧ FreeIn tree origin text s k x :=
    fun hproper => hproper.mono fun k x hx => ⟨rfl, hx⟩
  cases h with
  | importing _ hs => exact .of_closed hs.closed.1
  | selecting h ht => exact .of_closed (h.defining_closed ht).1
  | copying h ht =>
    have hinner := (h.defining_closed (.between (List.append_nil _).symm ht)).1
    exact .of_closed (Import.copy_all hinner h.closed.1.1 _)
  | registering h _ => exact .of_closed (Import.load_closed h).1
  | defining hp ht => exact hroot (defining_proper hp ht)
  | expanding hp hs₀ _ hs => exact hroot (expanding_proper hp hs₀ hs)
  | addressing h hl =>
    obtain ⟨p, s₀, hp, hs₀, hs⟩ := stream_eq_ok h
    refine (expanding_proper hp hs₀ hs).mono ?_
    rintro k x ⟨q, hq, hk, hb, hdecl, hx⟩
    exact ⟨rfl, q, hq, hk, hb, hdecl, labels_foldlM_layout hl x hx⟩

/-- An imported file has no labels of its own. -/
theorem Context.labels_imported {s : Symbols} (h : Context tree origin text .imported s) : s.labels = ∅ := by
  cases h with
  | importing _ hs => exact hs.closed.2
  | selecting h ht => exact (h.defining_closed ht).2
  | copying h _ => exact h.closed.1.2

/-- **The macro table of every state of a run.**  A record holds labels, each declared once, and instructions; its
local labels are the declared ones.  An instruction has two values, and then nothing, an address, a parameter or a
label: a local one or, for a macro that the source itself defines, a registered label of the program. -/
theorem context_macros_proper {owner : Import.Owner} {s : Symbols} (h : Context tree origin text owner s)
    {k : String} {m : Macro} (hm : s.macros[k]? = some m) :
    (∀ l ∈ m.body, l.IsCode) ∧ (Line.declared m.body).Nodup ∧ (∀ x, x ∈ m.locals ↔ x ∈ Line.declared m.body) ∧
      ∀ ops ∈ Line.instructions m.body,
        Template m.params (fun x => x ∈ m.locals ∨ owner = .root ∧ FreeIn tree origin text s k x) ops := by
  obtain ⟨⟨hcode, -, hnodup, hlocals⟩, htemplate⟩ := h.proper k m hm
  exact ⟨hcode, hnodup, hlocals, htemplate⟩

/-- One file with a macro that has a label of its own. -/
def library : FileTree := Import.textTree
  [(["lib", "hop.abcout"], "%macro hop 1\n%0, 0, over\n1, 1\nover:\n%endmacro\n")]

/-- A macro calls an imported one and refers to a label of the program. -/
def libraryUse : String :=
  "@import hop from lib/hop\n%macro back 1\nhop 7\n%0, 2, start\n%endmacro\nstart:\nback 5\n3, 4\n"

theorem stream_libraryUse : ∃ S s m, stream library {} libraryUse = .ok (S, s) ∧ s.macros["back"]? = some m ∧
    m.params = 1 ∧ m.locals.toList = ["Mhop_over_1"] ∧ Line.instructions m.body =
      [[.number 7, .number 0, .label "Mhop_over_1"], [.number 1, .number 1],
        [.param 0, .number 2, .label "start"]] := by
  have heval : ((stream library {} libraryUse).toOption.map fun r =>
      r.2.macros["back"]?.map fun m => (m.params, m.locals.toList, Line.instructions m.body)) =
      some (some (1, ["Mhop_over_1"], [[.number 7, .number 0, .label "Mhop_over_1"], [.number 1, .number 1],
        [.param 0, .number 2, .label "start"]])) := by
    have hdepth : (library.readable.filter (· ∉ Import.rootChain library {})).length < 2 := by decide +kernel
    rw [stream_eq, prepare_of_load (Import.loadWithin_eq (fun _ _ => .ok ([], {})) hdepth _ _ _).symm]
    decide +kernel
  obtain ⟨r, hstream, hrecord⟩ := Option.map_eq_some_iff.1 heval
  obtain ⟨m, hm, hfields⟩ := Option.map_eq_some_iff.1 hrecord
  obtain ⟨hparams, hfields⟩ := Prod.mk.inj hfields
  obtain ⟨hlocals, hbody⟩ := Prod.mk.inj hfields
  exact ⟨r.1, r.2, m, toOption_eq_some.1 hstream, hm, hparams, hlocals, hbody⟩

theorem context_macros_proper_libraryUse : ∃ s m, Context library {} libraryUse .root s ∧
    s.macros["back"]? = some m ∧
    (Line.declared m.body).Nodup ∧ (∀ x, x ∈ Line.declared m.body ↔ x ∈ m.locals) ∧
    [.number 7, .number 0, .label "Mhop_over_1"] ∈ Line.instructions m.body ∧ "Mhop_over_1" ∈ m.locals ∧
    [.param 0, .number 2, .label "start"] ∈ Line.instructions m.body ∧ "start" ∉ m.locals ∧
    FreeIn library {} libraryUse s "back" "start" := by
  obtain ⟨S, s, m, hstream, hm, -, hlocals, hbody⟩ := stream_libraryUse
  obtain ⟨p, s₀, hp, hs₀, hs⟩ := stream_eq_ok hstream
  have hcontext : Context library {} libraryUse .root s := .expanding hp hs₀ (List.append_nil _).symm hs
  obtain ⟨-, hnodup, hdeclared, htemplate⟩ := context_macros_proper hcontext hm
  have hmem : ∀ x, x ∈ m.locals ↔ x = "Mhop_over_1" := fun x => by
    rw [← Std.ExtTreeSet.mem_toList, hlocals, List.mem_singleton]
  have hstart : "start" ∉ m.locals := fun h => absurd ((hmem _).1 h) (by decide)
  have hops : [.param 0, .number 2, .label "start"] ∈ Line.instructions m.body := by simp [hbody]
  refine ⟨s, m, hcontext, hm, hnodup, fun x => (hdeclared x).symm, by simp [hbody], (hmem _).2 rfl,
    hops, hstart, ?_⟩
  cases htemplate _ hops with
  | target _ _ hc =>
    cases hc with
    | label _ hknown => exact (hknown.resolve_left hstart).2

end Assembly

end Abcout
