import Abcout.Proofs.ImportGraph
import Abcout.Proofs.Selection

/-!
# Abcout.Proofs.Session — an import statement is carried out as a whole, or not at all

`Import.add` gives new symbols or a fault, and says nothing of what a failure leaves behind.  Here import
statements are carried out step by step on a `Session`, which holds the symbols, the warnings, the import
statements that are being carried out and the files that are open.  A step that fails keeps what was done to the
session before.

* `Session.add`: an import statement.  Whatever it opens is closed again, whether or not a step fails; the imported
  file has a session of its own.
* `Session.run_add`: a session gets the symbols of `Import.add`, and nothing else of it changes; a failure, with
  the fault of `Import.add`, changes nothing.
* `Import.add_frame`: what the symbols of `Import.add` are, by name.
-/

namespace Abcout

/-- What an assembly holds while it carries out import statements. -/
structure Session where
  labels : LabelTable := ∅
  macros : MacroTable := ∅
  warnings : List Warning := []
  /-- The import statements that are being carried out, innermost first. -/
  stack : List Place := []
  /-- The files that are being loaded, innermost first. -/
  chain : List Location := []

/-- Steps on a session.  What was done to it stays when a step fails. -/
abbrev Action := EStateM Fault Session

/-- The fault as seen from outside the import statements that are being carried out. -/
def Fault.under (stack : List Place) (f : Fault) : Fault := { f with trace := stack.reverse ++ f.trace }

theorem Fault.under_cons (place : Place) (stack : List Place) (f : Fault) :
    f.under (place :: stack) = (f.importedFrom place).under stack := by
  simp [under, importedFrom]

namespace Session

variable {α β : Type}

def symbols (c : Session) : Symbols := ⟨c.labels, c.macros⟩

def withSymbols (c : Session) (s : Symbols) : Session := { c with labels := s.labels, macros := s.macros }

/-- A session for one imported file, without symbols. -/
def child (c : Session) : Session := { stack := c.stack, chain := c.chain }

/-- The session under one more import statement. -/
def push (place : Place) (c : Session) : Session := { c with stack := place :: c.stack }

/-- The session with one more file open. -/
def enter (location : Location) (c : Session) : Session := { c with chain := location :: c.chain }

/-! ## Steps -/

/-- A step that changes nothing.  The import statements that are being carried out go into its fault. -/
def look (x : Except Fault α) : Action α := fun c =>
  match x with
  | .ok a => .ok a c
  | .error f => .error (f.under c.stack) c

/-- Makes a change before some steps, and another one after them, even if they fail. -/
def around (before after : Session → Session) (x : Action α) : Action α := fun c =>
  match x (before c) with
  | .ok a c' => .ok a (after c')
  | .error f c' => .error f (after c')

/-- Steps under an import statement. -/
def withFrame (place : Place) : Action α → Action α :=
  around (push place) fun c => { c with stack := c.stack.tail }

/-- Steps with a file open, unless it is open already. -/
def withFile (location : Location) (line : Line) (name : String) (x : Action α) : Action α := fun c =>
  if c.chain.contains location then look (.error (line.fault (.importCycle name))) c
  else around (enter location) (fun c => { c with chain := c.chain.tail }) x c

/-- Steps on another session, which is lost if they fail. -/
def within (scope : Session) (x : Action α) : Action (α × Session) := fun c =>
  match x scope with
  | .ok a scope' => .ok (a, scope') c
  | .error f _ => .error f c

/-- Makes a definition.  If that fails, `left` is what it leaves behind. -/
def define (left : Symbols → Block → Symbols) (b : Block) : Action Unit := fun c =>
  match c.symbols.define b with
  | .ok s => .ok () (c.withSymbols s)
  | .error f => .error (f.under c.stack) (c.withSymbols (left c.symbols b))

/-- Takes the selected macros from a file that is open. -/
def take (left : Symbols → Block → Symbols) (load : Action (List Line)) (selection : Selection) (line : Line) :
    Action Unit := do
  let (lines, scope) ← within (← get).child (withFrame line.place load)
  let blocks ← look ((Import.select selection (Block.split lines).1).mapError line.fault)
  withFrame line.place (look (Import.checkNew (← get).macros blocks))
  let (_, scope) ← within scope (withFrame line.place (blocks.forM (define left)))
  modify fun c => { c with
    macros := Import.copy scope.macros c.macros blocks
    warnings := c.warnings ++ scope.warnings }

/-- Carries out one import statement of a source from `directory`, given how files are loaded. -/
def addWith (left : Symbols → Block → Symbols) (load : Origin → String → Action (List Line)) (tree : FileTree)
    (directory : String) (line : Line) : Action Unit := do
  let clause ← look ((ImportClause.parse line.text.toList).mapError line.fault)
  match tree.textFile? (Path.join directory clause.fileName) with
  | none => look (.error (line.fault (.fileNotFound clause.fileName)))
  | some f =>
    withFile f.location line clause.fileName
      (take left (load (Import.originOf clause directory) f.text) clause.selection line)

/-- Reads and checks the lines of a source and carries out its import statements in order, `depth` sources within
each other at most. -/
def load (left : Symbols → Block → Symbols) (tree : FileTree) : Nat → Origin → String → Action (List Line)
  | 0, _, _ => return []
  | depth + 1, origin, text => do
    let lines ← look (Import.readChecked origin.name text)
    (lines.filter Line.isImport).forM (addWith left (load left tree depth) tree origin.directory)
    return lines

/-- Carries out one import statement of a source from `directory`.  Sources never stand deeper within each other
than there are readable files. -/
def add (left : Symbols → Block → Symbols) (tree : FileTree) (directory : String) (line : Line) : Action Unit :=
  addWith left (load left tree tree.readable.length) tree directory line

/-! ## Runs of steps -/

variable {c c' : Session} {x : Action α} {g : α → Action β} {a : α} {f : Fault} {place : Place}

theorem run_bind_of_ok (h : x.run c = .ok a c') : (x >>= g).run c = (g a).run c' := by
  show EStateM.bind x g c = g a c'
  unfold EStateM.bind
  rw [show x c = .ok a c' from h]

theorem run_bind_of_error (h : x.run c = .error f c') : (x >>= g).run c = .error f c' := by
  show EStateM.bind x g c = _
  unfold EStateM.bind
  rw [show x c = .error f c' from h]

theorem run_get_bind (g : Session → Action β) (c : Session) : (get >>= g).run c = (g c).run c := rfl

/-- A session after steps that are all or nothing and give it new symbols. -/
def outcome (c : Session) : Except Fault Symbols → EStateM.Result Fault Session Unit
  | .ok s => .ok () (c.withSymbols s)
  | .error f => .error (f.under c.stack) c

theorem eq_of_outcome_error {r : Except Fault Symbols} (h : c.outcome r = .error f c') : c' = c := by
  cases r with
  | ok s => cases h
  | error e =>
    cases h
    rfl

theorem exists_of_outcome_ok {r : Except Fault Symbols} (h : c.outcome r = .ok () c') :
    ∃ s, r = .ok s ∧ c' = c.withSymbols s := by
  cases r with
  | ok s =>
    cases h
    exact ⟨s, rfl, rfl⟩
  | error e => cases h

/-- Steps do to a session what a computation does to its symbols; after a success nothing else has changed.  `out`
tells the result and the symbols that the computation gives. -/
def Follows {ρ : Type} (x : Action α) (c : Session) (out : ρ → α × Symbols) : Except Fault ρ → Prop
  | .ok p => x.run c = .ok (out p).1 (c.withSymbols (out p).2)
  | .error f => ∃ c', x.run c = .error (f.under c.stack) c'

theorem follows_of_outcome {x : Action Unit} {r : Except Fault Symbols} (h : x.run c = c.outcome r) :
    Follows x c (fun s => ((), s)) r := by
  cases r with
  | ok s => exact h
  | error f => exact ⟨c, h⟩

theorem follows_look (r : Except Fault α) (c : Session) : Follows (look r) c (fun a => (a, c.symbols)) r := by
  cases r with
  | ok a => rfl
  | error f => exact ⟨c, rfl⟩

theorem Follows.bind {ρ ρ' : Type} {out : ρ → α × Symbols} {out' : ρ' → β × Symbols} {r : Except Fault ρ}
    {k : ρ → Except Fault ρ'} (hx : Follows x c out r)
    (hg : ∀ p, Follows (g (out p).1) (c.withSymbols (out p).2) out' (k p)) :
    Follows (x >>= g) c out' (r >>= k) := by
  cases r with
  | error f =>
    obtain ⟨c', hc'⟩ := hx
    exact ⟨c', run_bind_of_error hc'⟩
  | ok p =>
    have hrun : (x >>= g).run c = (g (out p).1).run (c.withSymbols (out p).2) := run_bind_of_ok hx
    have hrest := hg p
    show Follows (x >>= g) c out' (k p)
    cases hk : k p with
    | error f =>
      rw [hk] at hrest
      obtain ⟨c', hc'⟩ := hrest
      exact ⟨c', hrun.trans hc'⟩
    | ok q =>
      rw [hk] at hrest
      exact hrun.trans hrest

/-- **Run**: steps one after the other, if each follows its computation. -/
theorem follows_forM {ι : Type} {step : ι → Action Unit} {compute : Symbols → ι → Except Fault Symbols}
    (c : Session) (hstep : ∀ i s, Follows (step i) (c.withSymbols s) (fun s => ((), s)) (compute s i))
    (is : List ι) (s : Symbols) :
    Follows (is.forM step) (c.withSymbols s) (fun s => ((), s)) (is.foldlM compute s) := by
  induction is generalizing s with
  | nil => rfl
  | cons i is ih =>
    rw [List.foldlM_cons]
    exact (hstep i s).bind ih

/-! ## An import statement -/

theorem withFrame_look (r : Except Fault α) : withFrame place (look r) =
    look (r.mapError (.importedFrom place)) := by
  funext c
  cases r with
  | ok a => rfl
  | error f => exact congrArg (EStateM.Result.error · c) (f.under_cons place c.stack)

theorem run_look_bind {r : Except Fault α} {g : α → Action Unit} {k : α → Except Fault Symbols}
    (h : ∀ a, (g a).run c = c.outcome (k a)) : (look r >>= g).run c = c.outcome (r >>= k) := by
  cases r with
  | error f => rfl
  | ok a => exact h a

/-- Steps in the session of another file, under an import statement. -/
theorem run_within_bind {ρ : Type} {scope : Session} {out : ρ → α × Symbols} {r : Except Fault ρ}
    {g : α × Session → Action Unit} {k : ρ → Except Fault Symbols} (hstack : scope.stack = c.stack)
    (hx : Follows x (scope.push place) out r)
    (h : ∀ p, (g ((out p).1, scope.withSymbols (out p).2)).run c = c.outcome (k p)) :
    (within scope (withFrame place x) >>= g).run c = c.outcome (r.mapError (.importedFrom place) >>= k) := by
  cases r with
  | error f =>
    obtain ⟨c', hc'⟩ := hx
    refine run_bind_of_error ?_
    show within scope (withFrame place x) c = _
    unfold within withFrame around
    rw [show x (scope.push place) = _ from hc', ← hstack, ← Fault.under_cons]
    rfl
  | ok p =>
    refine (run_bind_of_ok ?_).trans (h p)
    show within scope (withFrame place x) c = _
    unfold within withFrame around
    rw [show x (scope.push place) = _ from hx]
    rfl

/-- Steps that are all or nothing, with a file open. -/
theorem run_withFile {x : Action Unit} {location : Location} (line : Line) (name : String)
    {r : Except Fault Symbols} (hfile : location ∉ c.chain)
    (h : x.run (c.enter location) = (c.enter location).outcome r) :
    (withFile location line name x).run c = c.outcome r := by
  show withFile location line name x c = _
  unfold withFile around
  rw [if_neg (mt List.contains_iff_mem.1 hfile), show x (c.enter location) = _ from h]
  cases r with
  | ok s => rfl
  | error f => rfl

/-- The session of a file follows the definitions that are made in it. -/
theorem follows_defineAll (left : Symbols → Block → Symbols) (blocks : List Block) (c : Session) (s : Symbols) :
    Follows (blocks.forM (define left)) (c.withSymbols s) (fun s => ((), s)) (blocks.foldlM Symbols.define s) := by
  refine follows_forM c (fun b s => ?_) blocks s
  have hrun : (define left b).run (c.withSymbols s) = match s.define b with
    | .ok s' => .ok () (c.withSymbols s')
    | .error f => .error (f.under c.stack) (c.withSymbols (left s b)) := rfl
  cases hb : s.define b with
  | ok s' =>
    rw [hb] at hrun
    exact hrun
  | error f =>
    rw [hb] at hrun
    exact ⟨_, hrun⟩

/-- **The steps with the file open** are all or nothing. -/
theorem run_take {left : Symbols → Block → Symbols} {load : Action (List Line)}
    {r : Except Fault (List Line × Symbols)} (selection : Selection) (line : Line)
    (h : Follows load (c.child.push line.place) id r) : (take left load selection line).run c = c.outcome (do
      let (lines, inner) ← r.mapError (.importedFrom line.place)
      let blocks ← (Import.select selection (Block.split lines).1).mapError line.fault
      (Import.checkNew c.macros blocks).mapError (.importedFrom line.place)
      let inner ← (blocks.foldlM Symbols.define inner).mapError (.importedFrom line.place)
      return { c.symbols with macros := Import.copy inner.macros c.macros blocks }) := by
  unfold take
  rw [run_get_bind]
  refine run_within_bind rfl h fun loaded => ?_
  refine run_look_bind fun blocks => ?_
  rw [run_get_bind, withFrame_look]
  refine run_look_bind fun _ => ?_
  refine run_within_bind rfl (follows_defineAll left blocks (c.child.push line.place) loaded.2) fun inner => ?_
  -- the session of the file has no warnings to pass on
  show EStateM.Result.ok () { c with
    macros := Import.copy inner.macros c.macros blocks, warnings := c.warnings ++ [] } = _
  rw [List.append_nil]
  rfl

/-- **Step**: an import statement is all or nothing, if sessions follow the loading of files. -/
theorem run_addWith {left : Symbols → Block → Symbols} {load : Origin → String → Action (List Line)}
    {tree : FileTree} {compute : (f : tree.TextFile) → f.location ∉ c.chain → Origin →
      Except Fault (List Line × Symbols)}
    (directory : String) (line : Line) (hload : ∀ f hf origin,
      Follows (load origin f.text) ((c.enter f.location).child.push line.place) id (compute f hf origin)) :
    (addWith left load tree directory line).run c =
      c.outcome (Import.addWith tree c.chain directory compute c.symbols line) := by
  unfold addWith Import.addWith
  refine run_look_bind fun clause => ?_
  simp only
  cases tree.textFile? (Path.join directory clause.fileName) with
  | none => rfl
  | some f =>
    simp only
    by_cases hchain : f.location ∈ c.chain
    · rw [dif_pos hchain]
      show withFile f.location line clause.fileName _ c = _
      rw [withFile, if_pos (List.contains_iff_mem.2 hchain)]
      rfl
    · rw [dif_neg hchain]
      exact run_withFile line clause.fileName hchain (run_take clause.selection line (hload f hchain _))

/-- **Run**: a session without symbols follows the loading of a source, however deep its imports go. -/
theorem follows_load (left : Symbols → Block → Symbols) (tree : FileTree) (depth : Nat) (c : Session)
    (origin : Origin) (text : String) : Follows (load left tree depth origin text) (c.withSymbols {}) id
      (Import.loadWithin (fun _ _ => .ok ([], {})) tree depth c.chain {} origin text) := by
  induction depth generalizing c origin text with
  | zero => rfl
  | succ depth ih =>
    refine (follows_look _ _).bind fun lines => ?_
    refine Follows.bind (follows_forM c (fun line s => follows_of_outcome ?_) _ {}) fun s => rfl
    exact run_addWith (c := c.withSymbols s) origin.directory line fun f _ o =>
      ih ((c.enter f.location).child.push line.place) o f.text

/-- **An import statement on a session.** -/
theorem run_add (left : Symbols → Block → Symbols) (tree : FileTree) (directory : String)
    (line : Line) (c : Session) :
    (add left tree directory line).run c = c.outcome (Import.add tree c.chain directory c.symbols line) := by
  rw [← Import.addWith_loadWithin (fun _ _ => .ok ([], {})) (List.length_filter_le _ _)]
  exact run_addWith directory line fun f _ origin =>
    follows_load left tree _ ((c.enter f.location).child.push line.place) origin f.text

end Session

/-! ## Names -/

/-- A macro that an import statement asks for; `blocks` are the definitions of its file. -/
def Selection.Asks : Selection → List Block → String → Prop
  | .all, blocks, name => ∃ b ∈ blocks, b.name = name
  | .names requested, _, name => name ∈ requested

namespace Import

variable {tree : FileTree} {chain : List Location} {directory : String} {s s' : Symbols} {line : Line}

theorem exists_of_select_iff {selection : Selection} {blocks selected : List Block}
    (h : select selection blocks = .ok selected) {k : String} :
    (∃ b ∈ selected, b.name = k) ↔ selection.Asks blocks k := by
  cases selection with
  | all =>
    cases h
    rfl
  | names names =>
    obtain ⟨hdefined, rfl⟩ := select_names_eq_ok_iff.1 h
    constructor
    · rintro ⟨b, hb, rfl⟩
      exact (mem_filter_names.1 hb).2
    · intro hk
      obtain ⟨b, hb, rfl⟩ := hdefined k hk
      exact ⟨b, mem_filter_names.2 ⟨hb, hk⟩, rfl⟩

/-- **What an import statement adds**: the macros that it asks for, which are new, and are none that the file
itself imports.  All other names are as before. -/
theorem add_frame (h : add tree chain directory s line = .ok s') : s'.labels = s.labels ∧
    ∃ (clause : ImportClause) (f : tree.TextFile) (lines : List Line) (inner : Symbols),
      Names tree directory line clause f ∧
      load tree (f.location :: chain) {} (originOf clause directory) f.text = .ok (lines, inner) ∧
      (∀ k, clause.selection.Asks (Block.split lines).1 k → k ∈ s'.macros ∧ k ∉ s.macros ∧ k ∉ inner.macros) ∧
      ∀ k, ¬ clause.selection.Asks (Block.split lines).1 k → s'.macros[k]? = s.macros[k]? := by
  obtain ⟨clause, f, lines, inner, inner', blocks, hnames, -, hload, hblocks, hnew, hinner, rfl⟩ :=
    add_eq_ok_iff.1 h
  refine ⟨rfl, clause, f, lines, inner, hnames, hload, fun k hk => ?_, fun k hk => ?_⟩
  · obtain ⟨b, hb, rfl⟩ := (exists_of_select_iff hblocks).2 hk
    obtain ⟨m, hm⟩ := mem_iff_exists_getElem?.1 ((Symbols.mem_defineAll hinner).2 (.inr ⟨b, hb, rfl⟩))
    refine ⟨mem_iff_exists_getElem?.2 ⟨m, getElem?_copy_of_mem hb hm⟩, checkNew_eq_ok_iff.1 hnew b hb, ?_⟩
    exact (Symbols.checkName_of_defineAll hinner hb).2
  · rw [getElem?_copy, if_neg]
    exact fun hboth => hk ((exists_of_select_iff hblocks).1 hboth.1)

end Import

/-- **An import statement is carried out as a whole, or not at all.**  On every session it does what `Import.add`
does to the symbols.  A failure leaves the session as it was.  After a success there are the records that were
there before, and macros under exactly the names that the statement asks for; what the file itself imports has not
become visible, and all else of the session is as it was. -/
theorem Session.add_all_or_nothing (left : Symbols → Block → Symbols) (tree : FileTree)
    (directory : String) (line : Line) (c : Session) :
    (add left tree directory line).run c = c.outcome (Import.add tree c.chain directory c.symbols line) ∧
    (∀ (fault : Fault) (c' : Session), (add left tree directory line).run c = .error fault c' → c' = c) ∧
    ∀ c' : Session, (add left tree directory line).run c = .ok () c' → c' = { c with macros := c'.macros } ∧
      (∀ (k : String) (m : Macro), c.macros[k]? = some m → c'.macros[k]? = some m) ∧
      ∃ (clause : ImportClause) (f : tree.TextFile) (lines : List Line) (inner : Symbols),
        Import.Names tree directory line clause f ∧
        Import.load tree (f.location :: c.chain) {} (Import.originOf clause directory) f.text =
            .ok (lines, inner) ∧
        (∀ k, k ∈ c'.macros ∧ k ∉ c.macros ↔ clause.selection.Asks (Block.split lines).1 k) ∧
        ∀ k ∈ inner.macros, c'.macros[k]? = c.macros[k]? := by
  have hrun := run_add left tree directory line c
  refine ⟨hrun, fun fault c' hfails => eq_of_outcome_error (hrun.symm.trans hfails), fun c' hsucceeds => ?_⟩
  obtain ⟨s, hadd, rfl⟩ := exists_of_outcome_ok (hrun.symm.trans hsucceeds)
  obtain ⟨hlabels, clause, f, lines, inner, hnames, hload, hasked, hother⟩ := Import.add_frame hadd
  have hkept : ∀ k, k ∈ c.macros → s.macros[k]? = c.macros[k]? :=
    fun k hk => hother k fun hasks => (hasked k hasks).2.1 hk
  refine ⟨?_, fun k m hm => ?_, clause, f, lines, inner, hnames, hload, fun k => ⟨?_, ?_⟩, fun k hk => ?_⟩
  · show Session.mk s.labels _ _ _ _ = _
    rw [hlabels]
    rfl
  · exact (hkept k (mem_iff_exists_getElem?.2 ⟨m, hm⟩)).trans hm
  · rintro ⟨hmem, hnew⟩
    by_contra hasks
    obtain ⟨m, hm⟩ := mem_iff_exists_getElem?.1 hmem
    exact hnew (mem_iff_exists_getElem?.2 ⟨m, (hother k hasks).symm.trans hm⟩)
  · exact fun hasks => ⟨(hasked k hasks).1, (hasked k hasks).2.1⟩
  · exact hother k fun hasks => (hasked k hasks).2.2 hk

/-- An import statement for a file of `Assembly.library`. -/
def Session.hopImport : Line := ⟨"@import hop from lib/hop", 1, "[code]", .importing⟩

/-- The second time the name is taken, and nothing happens. -/
theorem Session.add_all_or_nothing_twice : ∃ (c : Session) (fault : Fault),
    (add (fun s _ => s) Assembly.library "." hopImport).run {} = .ok () c ∧ "hop" ∈ c.macros ∧
    (add (fun s _ => s) Assembly.library "." hopImport).run c = .error fault c := by
  have hfirst : ((Import.add Assembly.library [] "." {} hopImport).toOption.map fun s => s.macros.contains "hop") =
      some true := by
    have hdepth : (Assembly.library.readable.filter (· ∉ ([] : List Location))).length ≤ 1 := by decide +kernel
    rw [← Import.addWith_loadWithin (fun _ _ => .ok ([], {})) hdepth]
    decide +kernel
  obtain ⟨s, hs, hhop⟩ := Option.map_eq_some_iff.1 hfirst
  obtain ⟨houtcome, -, hsucceeds⟩ := add_all_or_nothing (fun s _ => s) Assembly.library "." hopImport {}
  have hrun := houtcome.trans (congrArg (outcome {}) (toOption_eq_some.1 hs))
  have hmem : "hop" ∈ s.macros := Std.ExtTreeMap.contains_iff_mem.1 hhop
  obtain ⟨-, -, clause, f, lines, inner, hnames, hload, hkeys, -⟩ := hsucceeds _ hrun
  have hasks := (hkeys "hop").1 ⟨hmem, Std.ExtTreeMap.not_mem_empty⟩
  obtain ⟨-, hfails, hagain⟩ :=
    add_all_or_nothing (fun s _ => s) Assembly.library "." hopImport (withSymbols {} s)
  cases hrun' : (add (fun s _ => s) Assembly.library "." hopImport).run (withSymbols {} s) with
  | error fault c' =>
    obtain rfl := hfails fault c' hrun'
    exact ⟨_, fault, hrun, hmem, hrun'⟩
  | ok u c' =>
    -- it would ask for the same macro of the same file
    obtain ⟨-, -, clause₁, f₁, lines₁, inner₁, hnames₁, hload₁, hkeys₁, -⟩ := hagain c' hrun'
    obtain rfl : clause = clause₁ := Except.ok.inj (hnames.1.symm.trans hnames₁.1)
    obtain rfl : f = f₁ := Option.some.inj (hnames.2.symm.trans hnames₁.2)
    cases hload.symm.trans hload₁
    exact absurd hmem ((hkeys₁ "hop").2 hasks).2

end Abcout
