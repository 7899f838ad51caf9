import Mathlib.Data.List.Perm.Subperm
import Mathlib.Logic.Relation
import Abcout.Assembly
import Abcout.Proofs.Causes
import Abcout.Proofs.Import
import Abcout.Proofs.Location

/-!
# Abcout.Proofs.ImportGraph — imports end, and the cycles that are refused are those of the import graph

The nodes of the import graph of a source are locations, and one for the source itself if it is no file.  `Imports`
says that a source has an import statement for a file, looked up from the directory of the source; `Reaches`
follows such statements from the first source on, and `Edge` forgets the way a file was spelled.

* `loadWithin_eq`: loading never goes deeper than there are readable files, so that what lies below does not
  matter.
* `Loading`: the sources that are loaded in a run, each on its chain of open files.  A chain holds no file twice
  (`Loading.nodup`) and leads along edges (`Loading.edges`), so that a file that is found on it closes a cycle.
* `Opened`: a source that was loaded with success.  Every edge from it leads to a file that was loaded with success
  too, and was not open (`Opened.edge`); hence a success leaves no cycle (`acyclic_of_load`).
-/

namespace Abcout

/-- The lines of a text do not depend on the name of the file but for that name. -/
theorem Line.readAll_rename {file text : String} {lines : List Line} (h : readAll file text = .ok lines)
    (file' : String) : readAll file' text = .ok (lines.map fun l => { l with file := file' }) := by
  unfold readAll at h ⊢
  rw [mapM_eq_ok] at h ⊢
  rw [List.forall₂_map_right_iff]
  refine h.imp fun x l hl => ?_
  unfold read at hl ⊢
  rw [mapError_eq_ok, bind_eq_ok] at hl ⊢
  obtain ⟨clean, hclean, hl⟩ := hl
  obtain ⟨s, hs, hl⟩ := bind_eq_ok.1 hl
  obtain rfl := pure_eq_ok.1 hl
  exact ⟨clean, hclean, bind_eq_ok.2 ⟨s, hs, rfl⟩⟩

namespace Import

variable {tree : FileTree}

/-! ## Depth -/

/-- Loading that stops below `depth` sources within each other; `bottom` stands for what comes below. -/
def loadWithin (bottom : Origin → String → Except Fault (List Line × Symbols)) (tree : FileTree) :
    Nat → List Location → Symbols → Origin → String → Except Fault (List Line × Symbols)
  | 0, _, _, origin, text => bottom origin text
  | depth + 1, chain, s, origin, text => do
    let lines ← readChecked origin.name text
    let s ← (lines.filter Line.isImport).foldlM (addWith tree chain origin.directory fun f _ o =>
      loadWithin bottom tree depth (f.location :: chain) {} o f.text) s
    return (lines, s)

/-- An import statement only loads files that the tree has. -/
theorem addWith_congr {chain : List Location} {directory : String}
    {load₁ load₂ : (f : tree.TextFile) → f.location ∉ chain → Origin → Except Fault (List Line × Symbols)}
    (h : ∀ f hf o, f.location ∈ tree.readable → load₁ f hf o = load₂ f hf o) (s : Symbols) (line : Line) :
    addWith tree chain directory load₁ s line = addWith tree chain directory load₂ s line := by
  unfold addWith
  refine bind_congr fun clause => ?_
  simp only
  split
  · rfl
  · rename_i f hf
    split_ifs with hchain
    · rfl
    · rw [h f hchain _ (FileTree.mem_readable hf)]

/-- **Loading ends**: it is never deeper than the number of readable files that are not open. -/
theorem loadWithin_eq (bottom : Origin → String → Except Fault (List Line × Symbols)) {depth : Nat}
    {chain : List Location} (h : (tree.readable.filter (· ∉ chain)).length < depth) (s : Symbols) (origin : Origin)
    (text : String) : loadWithin bottom tree depth chain s origin text = load tree chain s origin text := by
  induction depth generalizing chain s origin text with
  | zero => exact absurd h (Nat.not_lt_zero _)
  | succ depth ih =>
    rw [loadWithin, load]
    have hadd : addWith tree chain origin.directory (fun f _ o =>
        loadWithin bottom tree depth (f.location :: chain) {} o f.text) =
        addWith tree chain origin.directory fun f _ o => load tree (f.location :: chain) {} o f.text := by
      funext s line
      refine addWith_congr (fun f hf o hmem => ih ?_ {} o f.text) s line
      have hlt := length_filter_notMem_cons_lt hmem hf
      omega
    rw [hadd]

/-- So is an import statement. -/
theorem addWith_loadWithin (bottom : Origin → String → Except Fault (List Line × Symbols)) {depth : Nat}
    {chain : List Location} (h : (tree.readable.filter (· ∉ chain)).length ≤ depth)
    (directory : String) (s : Symbols) (line : Line) :
    addWith tree chain directory
        (fun f _ o => loadWithin bottom tree depth (f.location :: chain) {} o f.text) s line =
      add tree chain directory s line := by
  refine addWith_congr (fun f hf o hmem => loadWithin_eq bottom ?_ {} o f.text) s line
  have hlt := length_filter_notMem_cons_lt hmem hf
  omega

/-! ## The graph -/

/-- A source has, at a line, the import statement `clause`, and it names the file `f`. -/
def Imports (tree : FileTree) (origin : Origin) (text : String) (line : Line) (clause : ImportClause)
    (f : tree.TextFile) : Prop :=
  ∃ lines, Line.readAll origin.name text = .ok lines ∧ line ∈ lines ∧ line.isImport = true ∧
    Names tree origin.directory line clause f

/-- The node of a source: its location, if it is a file. -/
def rootNode (tree : FileTree) (origin : Origin) : Option Location := (tree.locate origin.path).toOption

section Graph

variable (tree : FileTree) (origin₀ : Origin) (text₀ : String)

/-- The sources that a first one leads to along import statements, with their nodes. -/
inductive Reaches : Option Location → Origin → String → Prop
  | root : Reaches (rootNode tree origin₀) origin₀ text₀
  | step {l : Option Location} {origin : Origin} {text : String} {line : Line} {clause : ImportClause}
      {f : tree.TextFile} (h : Reaches l origin text) (hi : Imports tree origin text line clause f) :
      Reaches (some f.location) (originOf clause origin.directory) f.text

/-- The import graph: a source at the first node has an import statement for the file at the second. -/
def Edge (l l' : Option Location) : Prop :=
  ∃ origin text line clause f, Reaches tree origin₀ text₀ l origin text ∧ Imports tree origin text line clause f ∧
    l' = some f.location

/-- No file is reached from itself. -/
def Acyclic : Prop := ∀ l, ¬ Relation.TransGen (Edge tree origin₀ text₀) l l

end Graph

theorem rootChain_eq (tree : FileTree) (origin : Origin) : rootChain tree origin =
    (rootNode tree origin).toList := by
  unfold rootChain rootNode
  cases tree.locate origin.path <;> rfl

variable {origin₀ origin : Origin} {text₀ text : String} {chain : List Location} {l : Option Location}

/-! ## A success -/

/-- A source that is loaded has carried out all its import statements. -/
theorem load_names {s s' : Symbols} {lines : List Line} (h : load tree chain s origin text = .ok (lines, s'))
    {line : Line} (hline : line ∈ lines) (himport : line.isImport = true) :
    ∃ clause f, Names tree origin.directory line clause f ∧ f.location ∉ chain ∧
      ∃ r, load tree (f.location :: chain) {} (originOf clause origin.directory) f.text = .ok r := by
  obtain ⟨-, hadd⟩ := load_eq_ok h
  obtain ⟨s₁, s₂, hstep⟩ := exists_step_of_mem hadd (List.mem_filter.2 ⟨hline, himport⟩)
  obtain ⟨clause, f, lines', inner, -, -, hnames, hf, hload, -⟩ := add_eq_ok hstep
  exact ⟨clause, f, hnames, hf, _, hload⟩

/-- A file whose imports are looked up from the directory it is in, or from the root. -/
def IsFileAt (tree : FileTree) (x : Location) (origin : Origin) (text : String) : Prop :=
  tree.textAt? x = some text ∧ ∀ p y, tree.locate (Path.join origin.directory p) = .ok y →
    tree.walk (Location.base x.dropLast p) (p.toList.splitOn '/') = .ok y

theorem isFileAt_of_textFile? {clause : ImportClause} {directory : String} {f : tree.TextFile}
    (h : tree.textFile? (Path.join directory clause.fileName) = some f) :
    IsFileAt tree f.location (originOf clause directory) f.text := by
  obtain ⟨hlocate, htext⟩ := FileTree.textFile?_eq_some h
  obtain ⟨before, last, hparts, hlast, hup⟩ := clause.exists_parts directory
  obtain ⟨parent, hparent, hwalk⟩ := FileTree.locate_join_parent hparts hlast hup hlocate
  refine ⟨htext, ?_⟩
  have hdirectory : (originOf clause directory).directory = parent := by simp [originOf, hparent]
  rw [hdirectory]
  exact hwalk

/-- A source that was loaded with success on a chain: the first one, or a file that is on the chain. -/
structure Opened (tree : FileTree) (origin₀ : Origin) (text₀ : String) (chain : List Location)
    (l : Option Location) (origin : Origin) (text : String) : Prop where
  loaded : ∃ r, load tree chain {} origin text = .ok r
  onChain : ∀ x ∈ l, x ∈ chain
  root_subset : rootChain tree origin₀ ⊆ chain
  source : (l = rootNode tree origin₀ ∧ origin = origin₀ ∧ text = text₀) ∨
    ∃ x, l = some x ∧ x ∉ rootChain tree origin₀ ∧ IsFileAt tree x origin text

namespace Opened

theorem step (h : Opened tree origin₀ text₀ chain l origin text) {line : Line} {clause : ImportClause}
    {f : tree.TextFile} (hi : Imports tree origin text line clause f) : f.location ∉ chain ∧
      Opened tree origin₀ text₀ (f.location :: chain) (some f.location)
      (originOf clause origin.directory) f.text := by
  obtain ⟨⟨lines, s⟩, hload⟩ := h.loaded
  obtain ⟨lines', hread, hline, himport, hnames⟩ := hi
  obtain rfl : lines = lines' := by
    rw [(load_eq_ok hload).1] at hread
    exact Except.ok.inj hread
  obtain ⟨clause', f', hnames', hf, hloaded⟩ := load_names hload hline himport
  obtain rfl : clause' = clause := Except.ok.inj (hnames'.1.symm.trans hnames.1)
  obtain rfl : f' = f := Option.some.inj (hnames'.2.symm.trans hnames.2)
  refine ⟨hf, hloaded, ?_, fun x hx => List.mem_cons_of_mem _ (h.root_subset hx), ?_⟩
  · intro x hx
    cases hx
    exact List.mem_cons_self
  · exact .inr ⟨_, rfl, fun hroot => hf (h.root_subset hroot), isFileAt_of_textFile? hnames.2⟩

theorem root {r : List Line × Symbols} (h : load tree (rootChain tree origin₀) {} origin₀ text₀ = .ok r) :
    Opened tree origin₀ text₀ (rootChain tree origin₀) (rootNode tree origin₀) origin₀ text₀ := by
  refine ⟨⟨r, h⟩, ?_, fun x hx => hx, .inl ⟨rfl, rfl, rfl⟩⟩
  intro x hx
  rw [rootChain_eq]
  exact Option.mem_toList.2 hx

theorem of_reaches {r : List Line × Symbols} (h : load tree (rootChain tree origin₀) {} origin₀ text₀ = .ok r)
    (hr : Reaches tree origin₀ text₀ l origin text) : ∃ chain, Opened tree origin₀ text₀ chain l origin text := by
  induction hr with
  | root => exact ⟨_, root h⟩
  | step _ hi ih =>
    obtain ⟨chain, hopened⟩ := ih
    exact ⟨_, (hopened.step hi).2⟩

/-- Two spellings of one file have the same import statements, and these name the same files. -/
theorem imports_of_imports {chain' : List Location} {origin' : Origin} {text' : String}
    (h : Opened tree origin₀ text₀ chain l origin text) (h' : Opened tree origin₀ text₀ chain' l origin' text')
    {line' : Line} {clause : ImportClause} {f' : tree.TextFile} (hi : Imports tree origin' text' line' clause f') :
    ∃ line f, Imports tree origin text line clause f ∧ f.location = f'.location := by
  have hroot : ∀ x, some x = rootNode tree origin₀ → x ∈ rootChain tree origin₀ := by
    intro x hx
    rw [rootChain_eq, ← hx]
    exact List.mem_singleton_self x
  rcases h.source with ⟨hl, rfl, rfl⟩ | ⟨x, rfl, hx, hfile⟩
  · rcases h'.source with ⟨-, rfl, rfl⟩ | ⟨x', rfl, hx', -⟩
    · exact ⟨line', f', hi, rfl⟩
    · exact absurd (hroot x' hl) hx'
  · rcases h'.source with ⟨hl', -, -⟩ | ⟨x', hxx, -, hfile'⟩
    · exact absurd (hroot x hl') hx
    · cases hxx
      obtain rfl : text = text' := Option.some.inj (hfile.1.symm.trans hfile'.1)
      obtain ⟨lines', hread', hline', himport', hclause', hf'⟩ := hi
      have hread := Line.readAll_rename hread' origin.name
      obtain ⟨⟨lines, s⟩, hload⟩ := h.loaded
      obtain rfl : lines = lines'.map fun l => { l with file := origin.name } := by
        rw [(load_eq_ok hload).1] at hread
        exact Except.ok.inj hread
      have hline : { line' with file := origin.name } ∈ lines'.map fun l => { l with file := origin.name } :=
        List.mem_map_of_mem hline'
      obtain ⟨clause₁, f, hnames, -, -⟩ := load_names hload hline himport'
      obtain rfl : clause₁ = clause := Except.ok.inj (hnames.1.symm.trans hclause')
      refine ⟨_, f, ⟨_, hread, hline, himport', hnames⟩, ?_⟩
      -- both are looked up from the directory that the file is in
      have hwalk := hfile.2 _ _ (FileTree.textFile?_eq_some hnames.2).1
      have hwalk' := hfile'.2 _ _ (FileTree.textFile?_eq_some hf').1
      exact Except.ok.inj (hwalk.symm.trans hwalk')

/-- **Step**: an edge from a source that was loaded leads to a file that was not open, and was loaded too. -/
theorem edge {r : List Line × Symbols} (hroot : load tree (rootChain tree origin₀) {} origin₀ text₀ = .ok r)
    (h : Opened tree origin₀ text₀ chain l origin text) {l' : Option Location}
    (he : Edge tree origin₀ text₀ l l') :
    ∃ x origin' text', l' = some x ∧ x ∉ chain ∧ Opened tree origin₀ text₀ (x :: chain) l' origin' text' := by
  obtain ⟨origin₁, text₁, line, clause, f', hreaches, hi, rfl⟩ := he
  obtain ⟨chain₁, hopened⟩ := of_reaches hroot hreaches
  obtain ⟨line', f, hi', hf⟩ := h.imports_of_imports hopened hi
  obtain ⟨hnew, hstep⟩ := h.step hi'
  rw [hf] at hnew hstep
  exact ⟨f'.location, _, _, rfl, hnew, hstep⟩

/-- **Run**: the files along edges are all new. -/
theorem transGen {r : List Line × Symbols} (hroot : load tree (rootChain tree origin₀) {} origin₀ text₀ = .ok r)
    (h : Opened tree origin₀ text₀ chain l origin text) {l' : Option Location}
    (hp : Relation.TransGen (Edge tree origin₀ text₀) l l') :
    ∃ x chain' origin' text', l' = some x ∧ x ∉ chain ∧ chain ⊆ chain' ∧
      Opened tree origin₀ text₀ chain' l' origin' text' := by
  induction hp with
  | single he =>
    obtain ⟨x, origin', text', hl', hx, hopened⟩ := h.edge hroot he
    exact ⟨x, _, origin', text', hl', hx, List.subset_cons_self x chain, hopened⟩
  | tail _ he ih =>
    obtain ⟨-, chain₁, origin₁, text₁, -, -, hsub, hopened₁⟩ := ih
    obtain ⟨x, origin', text', hl', hx, hopened⟩ := hopened₁.edge hroot he
    exact ⟨x, _, origin', text', hl', fun hmem => hx (hsub hmem), fun y hy => List.mem_cons_of_mem _ (hsub hy),
      hopened⟩

end Opened

/-- **A success leaves no cycle.** -/
theorem acyclic_of_load {r : List Line × Symbols} (h : load tree (rootChain tree origin₀)
    {} origin₀ text₀ = .ok r) :
    Acyclic tree origin₀ text₀ := by
  intro l hcycle
  obtain ⟨l₁, ⟨origin, text, line, clause, f, hreaches, -⟩, -⟩ := Relation.TransGen.head'_iff.1 hcycle
  obtain ⟨chain, hopened⟩ := Opened.of_reaches h hreaches
  obtain ⟨x, -, -, -, hl, hx, -⟩ := hopened.transGen h hcycle
  exact hx (hopened.onChain x hl)

/-! ## A failure -/

/-- The import statements `rest` of a source are still to be carried out, and the others have led to the symbols
`s`. -/
def AtImport (tree : FileTree) (chain : List Location) (origin : Origin) (text : String) (s : Symbols)
    (rest : List Line) : Prop :=
  ∃ lines before, readChecked origin.name text = .ok lines ∧ lines.filter Line.isImport = before ++ rest ∧
    before.foldlM (add tree chain origin.directory) {} = .ok s

/-- Whether a source is the first one of a run, or a file that is imported. -/
inductive Owner where
  | root
  | imported
deriving DecidableEq, Repr

/-- The sources that are loaded in a run that starts with `text₀`, each with the chain of files that are open. -/
inductive Loading (tree : FileTree) (origin₀ : Origin) (text₀ : String) :
    Owner → List Location → Origin → String → Prop
  | root : Loading tree origin₀ text₀ .root (rootChain tree origin₀) origin₀ text₀
  | imported {owner : Owner} {chain : List Location} {origin : Origin} {text : String} {s : Symbols} {line : Line}
      {rest : List Line} {clause : ImportClause} {f : tree.TextFile}
      (h : Loading tree origin₀ text₀ owner chain origin text)
      (hs : AtImport tree chain origin text s (line :: rest)) (hnames : Names tree origin.directory line clause f)
      (hf : f.location ∉ chain) : Loading tree origin₀ text₀ .imported (f.location :: chain)
      (originOf clause origin.directory) f.text

theorem AtImport.imports {s : Symbols} {line : Line} {rest : List Line} {clause : ImportClause} {f : tree.TextFile}
    (h : AtImport tree chain origin text s (line :: rest)) (hnames : Names tree origin.directory line clause f) :
    Imports tree origin text line clause f := by
  obtain ⟨lines, before, hread, hlines, -⟩ := h
  have hline : line ∈ lines.filter Line.isImport := by simp [hlines]
  rw [List.mem_filter] at hline
  exact ⟨lines, (readChecked_eq_ok_iff.1 hread).1, hline.1, hline.2, hnames⟩

namespace Loading

variable {owner : Owner}

theorem nodup (h : Loading tree origin₀ text₀ owner chain origin text) : chain.Nodup := by
  induction h with
  | root =>
    rw [rootChain_eq]
    cases rootNode tree origin₀ with
    | none => exact List.nodup_nil
    | some x => exact List.nodup_singleton x
  | imported _ _ _ hf ih => exact List.nodup_cons.2 ⟨hf, ih⟩

/-- The files of a chain are readable, but for the first source. -/
theorem exists_append (h : Loading tree origin₀ text₀ owner chain origin text) :
    ∃ opened, chain = opened ++ rootChain tree origin₀ ∧ opened ⊆ tree.readable := by
  induction h with
  | root => exact ⟨[], rfl, List.nil_subset _⟩
  | @imported _ _ _ _ _ _ _ _ f _ _ hnames _ ih =>
    obtain ⟨opened, rfl, hsub⟩ := ih
    refine ⟨f.location :: opened, rfl, List.cons_subset.2 ⟨?_, hsub⟩⟩
    exact FileTree.mem_readable hnames.2

theorem length_le (h : Loading tree origin₀ text₀ owner chain origin text) :
    chain.length ≤ tree.readable.length + 1 := by
  obtain ⟨opened, rfl, hsub⟩ := h.exists_append
  have hopened := (List.subperm_of_subset (List.nodup_append.1 h.nodup).1 hsub).length_le
  have hroot : (rootChain tree origin₀).length ≤ 1 := by
    rw [rootChain_eq]
    cases rootNode tree origin₀ with
    | none => exact Nat.zero_le 1
    | some x => exact Nat.le_refl 1
  rw [List.length_append]
  omega

/-- **A chain leads along edges** to the source that is loaded on it. -/
theorem edges (h : Loading tree origin₀ text₀ owner chain origin text) :
    ∃ l, Reaches tree origin₀ text₀ l origin text ∧
      ∀ x ∈ chain, Relation.ReflTransGen (Edge tree origin₀ text₀) (some x) l := by
  induction h with
  | root =>
    refine ⟨rootNode tree origin₀, .root, fun x hx => ?_⟩
    rw [rootChain_eq, Option.mem_toList] at hx
    rw [hx]
  | imported _ hs hnames _ ih =>
    obtain ⟨l, hreaches, hall⟩ := ih
    have hi := hs.imports hnames
    refine ⟨_, hreaches.step hi, fun x hx => ?_⟩
    rcases List.mem_cons.1 hx with rfl | hx
    · exact .refl
    · exact (hall x hx).tail ⟨_, _, _, _, _, hreaches, hi, rfl⟩

end Loading

/-- A cycle is found by the import statement itself, or while its file is loaded. -/
theorem add_error_cycle {directory : String} {s : Symbols} {line : Line} {fault : Fault} {name : String}
    (h : add tree chain directory s line = .error fault) (hcause : fault.cause = .importCycle name) :
    ∃ clause f, Names tree directory line clause f ∧
      ((f.location ∈ chain ∧ clause.fileName = name ∧ fault.place = line.place) ∨
      f.location ∉ chain ∧ ∃ fault', load tree (f.location :: chain) {} (originOf clause directory) f.text =
        .error fault' ∧ fault'.cause = .importCycle name ∧ fault'.place = fault.place) := by
  have hplain : fault.cause.ofOneFile = false := by rw [hcause]; rfl
  unfold add addWith at h
  obtain h | ⟨clause, hclause, h⟩ := bind_eq_error.1 h
  · cases hplain.symm.trans ((ImportClause.parse_plain _).at_line line fault h)
  rw [mapError_eq_ok] at hclause
  simp only at h
  split at h
  · cases h
    cases hcause
  · rename_i f hf
    refine ⟨clause, f, ⟨hclause, hf⟩, ?_⟩
    split_ifs at h with hchain
    · cases h
      cases hcause
      exact .inl ⟨hchain, rfl, rfl⟩
    · obtain h | ⟨⟨lines, inner⟩, -, h⟩ := bind_eq_error.1 h
      · obtain ⟨fault', hload, rfl⟩ := mapError_eq_error.1 h
        exact .inr ⟨hchain, fault', hload, hcause, rfl⟩
      -- what follows looks at no other file
      obtain h | ⟨blocks, -, h⟩ := bind_eq_error.1 h
      · obtain ⟨cause, hselect, rfl⟩ := mapError_eq_error.1 h
        obtain rfl : cause = .importCycle name := hcause
        unfold select at hselect
        split at hselect
        · cases hselect
        · split at hselect <;> cases hselect
      obtain h | ⟨-, -, h⟩ := bind_eq_error.1 h
      · obtain ⟨fault', hnew, rfl⟩ := mapError_eq_error.1 h
        unfold checkNew at hnew
        split at hnew
        · cases hnew
          cases hcause
        · cases hnew
      obtain h | ⟨inner', -, h⟩ := bind_eq_error.1 h
      · obtain ⟨fault', hdefine, rfl⟩ := mapError_eq_error.1 h
        cases hplain.symm.trans (OnlyFails.foldlM (fun s b _ => Symbols.define_ofOneFile s b) _ fault' hdefine)
      · cases h

/-- A cycle is found at an import statement for a file that is open. -/
theorem Loading.exists_of_cycle {owner : Owner} {fault : Fault} {name : String}
    (hl : Loading tree origin₀ text₀ owner chain origin text) (h : load tree chain {} origin text = .error fault)
    (hcause : fault.cause = .importCycle name) :
    ∃ owner' chain' origin' text' line clause f, Loading tree origin₀ text₀ owner' chain' origin' text' ∧
      Imports tree origin' text' line clause f ∧ clause.fileName = name ∧ fault.place = line.place ∧
      f.location ∈ chain' := by
  induction hn : tree.unopened chain using Nat.strongRecOn generalizing owner chain origin text fault with
  | _ n ih =>
    have hplain : fault.cause.ofOneFile = false := by rw [hcause]; rfl
    rw [load_eq] at h
    obtain h | ⟨lines, hread, h⟩ := bind_eq_error.1 h
    · cases hplain.symm.trans (readChecked_ofOneFile _ _ fault h)
    obtain h | ⟨s, -, h⟩ := bind_eq_error.1 h
    swap
    · cases h
    obtain ⟨before, line, after, s, hlines, hbefore, hadd⟩ := exists_of_foldlM_eq_error h
    have hat : AtImport tree chain origin text s (line :: after) := ⟨lines, before, hread, hlines, hbefore⟩
    obtain ⟨clause, f, hnames, ⟨hf, hname, hplace⟩ | ⟨hf, fault', hload, hcause', hplace⟩⟩ :=
      add_error_cycle hadd hcause
    · exact ⟨owner, chain, origin, text, line, clause, f, hl, hat.imports hnames, hname, hplace, hf⟩
    · rw [← hplace]
      have hlt : tree.unopened (f.location :: chain) < n := hn ▸ FileTree.unopened_cons_lt f.mem hf
      exact ih _ hlt (hl.imported hat hnames hf) hload hcause' rfl

/-- **A cycle that is told is one of the graph**, and goes through the file that is named. -/
theorem exists_cycle_of_load {fault : Fault} {name : String}
    (h : load tree (rootChain tree origin₀) {} origin₀ text₀ = .error fault)
    (hcause : fault.cause = .importCycle name) :
    ∃ l origin text line clause f, Reaches tree origin₀ text₀ l origin text ∧
      Imports tree origin text line clause f ∧ clause.fileName = name ∧ fault.place = line.place ∧
      Relation.TransGen (Edge tree origin₀ text₀) (some f.location) (some f.location) := by
  obtain ⟨owner, chain, origin, text, line, clause, f, hl, hi, hname, hplace, hf⟩ :=
    Loading.root.exists_of_cycle h hcause
  obtain ⟨l, hreaches, hedges⟩ := hl.edges
  exact ⟨l, origin, text, line, clause, f, hreaches, hi, hname, hplace,
    Relation.TransGen.tail' (hedges f.location hf) ⟨origin, text, line, clause, f, hreaches, hi, rfl⟩⟩

/-- **Imports end, and exactly the cycles are refused.**  What a source comes to does not depend on anything deeper
than the number of readable files; no chain of open files holds one of them twice; a success leaves no cycle in
the import graph; a cycle that is told goes through the file that the statement at fault names; so that files which
are reached in several ways, without a cycle, are never refused as one. -/
theorem load_refuses_cycles (tree : FileTree) (origin : Origin) (text : String) :
    (∀ bottom depth, tree.readable.length < depth →
      loadWithin bottom tree depth (rootChain tree origin) {} origin text =
        load tree (rootChain tree origin) {} origin text) ∧
    (∀ owner chain origin' text', Loading tree origin text owner chain origin' text' →
      chain.Nodup ∧ chain.length ≤ tree.readable.length + 1) ∧
    (∀ r, load tree (rootChain tree origin) {} origin text = .ok r → Acyclic tree origin text) ∧
    (∀ fault name, load tree (rootChain tree origin) {} origin text = .error fault →
      fault.cause = .importCycle name →
      ∃ l origin' text' line clause f, Reaches tree origin text l origin' text' ∧
        Imports tree origin' text' line clause f ∧ clause.fileName = name ∧ fault.place = line.place ∧
        Relation.TransGen (Edge tree origin text) (some f.location) (some f.location)) ∧
    (Acyclic tree origin text → ∀ fault name, load tree (rootChain tree origin) {} origin text = .error fault →
      fault.cause ≠ .importCycle name) := by
  refine ⟨?_, fun _ _ _ _ h => ⟨h.nodup, h.length_le⟩, fun r => acyclic_of_load,
    fun fault name => exists_cycle_of_load, ?_⟩
  · intro bottom depth hdepth
    exact loadWithin_eq bottom (Nat.lt_of_le_of_lt (List.length_filter_le _ _) hdepth) {} origin text
  · intro hacyclic fault name h hcause
    obtain ⟨-, -, -, -, -, f, -, -, -, -, hcycle⟩ := exists_cycle_of_load h hcause
    exact hacyclic _ hcycle

/-- A tree of text files, which are given as they are seen from the working directory. -/
def textTree (files : List (Location × String)) : FileTree where
  entries := files.map fun (l, text) => (Location.home ++ l, .file text.toUTF8.toList)

/-- Two files that import a third, which one of them spells in a way that leads above the working directory. -/
def diamond : FileTree := textTree
  [(["left.abcout"], "@import * from lib/base\n%macro left 0\nnop\n%endmacro\n"),
    (["right.abcout"], "@import nop from ./..//home/lib/base\n%macro right 0\nnop\n%endmacro\n"),
    (["lib", "base.abcout"], "%macro nop 0\n0, 0\n%endmacro\n")]

/-- Two files in different directories that import each other, the first one spelled from the root on. -/
def ring : FileTree := textTree
  [(["one.abcout"], "@import * from lib/two\n"), (["lib", "two.abcout"], "@import * from /../home//one\n")]

/-- The third file of a diamond is no cycle; two files that import each other are one, found at the second. -/
theorem load_refuses_cycles_ring :
    (∃ r, load diamond (rootChain diamond {}) {} {} "@import * from left\n@import * from right\n" = .ok r) ∧
    Acyclic diamond {} "@import * from left\n@import * from right\n" ∧
    ∃ fault, load ring (rootChain ring {}) {} {} "@import * from one\n" = .error fault ∧
      fault.cause = .importCycle "/../home//one.abcout" ∧
      ∃ l, Relation.TransGen (Edge ring {} "@import * from one\n") l l := by
  obtain ⟨hdepth, -, hacyclic, -, -⟩ :=
    load_refuses_cycles diamond {} "@import * from left\n@import * from right\n"
  obtain ⟨hdepth', -, -, hcycle, -⟩ := load_refuses_cycles ring {} "@import * from one\n"
  have hok : (load diamond (rootChain diamond {}) {} {}
      "@import * from left\n@import * from right\n").toOption.isSome = true := by
    rw [← hdepth (fun _ _ => .ok ([], {})) 4 (by decide +kernel)]
    decide +kernel
  obtain ⟨r, hr⟩ := Option.isSome_iff_exists.1 hok
  rw [toOption_eq_some] at hr
  have herror : (match load ring (rootChain ring {}) {} {} "@import * from one\n" with
      | .error fault => some fault.cause
      | .ok _ => none) = some (.importCycle "/../home//one.abcout") := by
    rw [← hdepth' (fun _ _ => .ok ([], {})) 3 (by decide +kernel)]
    decide +kernel
  refine ⟨⟨r, hr⟩, hacyclic r hr, ?_⟩
  split at herror
  · rename_i fault hload
    have hcause := Option.some.inj herror
    obtain ⟨-, -, -, -, -, f, -, -, -, -, hf⟩ := hcycle fault _ hload hcause
    exact ⟨fault, hload, hcause, _, hf⟩
  · cases herror

end Import

end Abcout
