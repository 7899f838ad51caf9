import Abcout.Proofs.Assembly
import Abcout.Proofs.ImportGraph

/-!
# Abcout.Proofs.Origin — the path of a source leads back to its file

The origin of a source file has the parent and the file name of its path, and the chain of open files starts with
the location of the path that they are joined to.  Paths are taken apart by rules for text, and looked up by rules
for directories; a cycle through the first file is only found if both agree.

* `FileTree.exists_name_of_locate`: a path that leads to a file ends in a name.  Dots and slashes behind a file
  lead nowhere, and what `..` leads to is a directory.
* `FileTree.locate_origin`: the path of the origin leads to the same file.
* `Import.Loading.load_error`: a fault in a source that is being loaded ends the run.
* `Assembly.runFile_refuses_itself`: so the first file is open in all of its run, and an import of it is refused as
  a cycle.
-/

namespace Abcout

/-! ## Paths that lead to files -/

namespace FileTree

variable {t : FileTree} {l l' : Location}

theorem isDirectory_of_get? {bytes : List UInt8} (h : t.get? l = some (.file bytes)) :
    t.isDirectory l = false := by
  simp [isDirectory, h]

/-- The working directory and those above it are directories. -/
theorem isDirectory_of_above (h : l <+: t.workingDirectory) : t.isDirectory l = true := by
  rw [isDirectory, get?, if_pos (List.isPrefixOf_iff_prefix.2 h)]

/-- **Step**: a part of a path is looked up in a directory, and leads nowhere, one step up or one step down. -/
theorem enter_eq_ok {part : String} (h : t.enter l part = .ok l') : t.isDirectory l = true ∧
    (((part = "" ∨ part = ".") ∧ l' = l) ∨ (part = ".." ∧ l' = l.dropLast) ∨
      (¬ (part = "" ∨ part = ".") ∧ part ≠ ".." ∧ part.utf8ByteSize ≤ maxNameBytes ∧ l' = l ++ [part])) := by
  unfold enter at h
  split_ifs at h with hdir hidle hup hlong hcontains
  all_goals
    cases h
    rw [Bool.or_eq_true, decide_eq_true_iff, decide_eq_true_iff] at hidle
    refine ⟨by simpa using hdir, ?_⟩
  · exact .inl ⟨hidle, rfl⟩
  · exact .inr (.inl ⟨hup, rfl⟩)
  · exact .inr (.inr ⟨hidle, hup, Nat.le_of_not_lt hlong, rfl⟩)

/-- **Run**: on the way to a location, all locations above it were entered, or are above the working directory. -/
theorem isDirectory_of_walk {path : String} {parts : List (List Char)}
    (h : t.walk (Location.base t.workingDirectory path) parts = .ok l) {m : Location}
    (hm : m <+: l) (hne : m ≠ l) : t.isDirectory m = true := by
  refine foldlM_keeps (fun (l : Location) _ => ∀ m, m <+: l → m ≠ l → t.isDirectory m = true) ?_ ?_ h m hm hne
  · intro l part rest l' hl hstep m hm hne
    obtain ⟨hdir, ⟨-, rfl⟩ | ⟨-, rfl⟩ | ⟨-, -, -, rfl⟩⟩ := enter_eq_ok hstep
    · exact hl m hm hne
    · refine hl m (hm.trans (List.dropLast_prefix l)) ?_
      rintro rfl
      exact hne (hm.eq_of_length_le (List.dropLast_prefix m).length_le)
    · have hm' := (List.prefix_concat_iff.1 hm).resolve_left hne
      by_cases hml : m = l
      · exact hml ▸ hdir
      · exact hl m hm' hml
  · intro m hm hne
    unfold Location.base at hm hne
    split_ifs at hm hne with hroot
    · exact absurd (List.prefix_nil.1 hm) hne
    · exact isDirectory_of_above hm

theorem isIdle_eq_true_iff {part : List Char} :
    Path.isIdle part = true ↔ String.ofList part = "" ∨ String.ofList part = "." := by
  rw [Path.isIdle, Bool.or_eq_true, List.isEmpty_iff, beq_iff_eq, String.ofList_eq_empty_iff]
  exact or_congr_right ⟨fun h => h ▸ rfl, fun h => String.ofList_injective h⟩

theorem walk_dot (h : t.isDirectory l = true) : t.walk l [['.']] = .ok l := by
  have hstep : t.enter l (String.ofList ['.']) = .ok l := by
    unfold enter
    rw [if_neg (by simp [h]), if_pos (by decide)]
  rw [walk, List.foldlM_cons, hstep]
  rfl

/-- A path that leads to a file ends in a name, in a directory. -/
theorem exists_name_of_locate {path : String} {bytes : List UInt8} (h : t.locate path = .ok l)
    (hfile : t.get? l = some (.file bytes)) :
    ∃ before last d, path.toList.splitOn '/' = before ++ [last] ∧
      t.walk (Location.base t.workingDirectory path) before = .ok d ∧ t.isDirectory d = true ∧
      t.walk d [last] = .ok l ∧ Path.isIdle last = false ∧ last ≠ ['.', '.'] ∧
      (String.ofList last).utf8ByteSize ≤ maxNameBytes := by
  obtain ⟨before, last, hparts⟩ := (List.eq_nil_or_concat' _).resolve_left (List.splitOn_ne_nil '/' path.toList)
  have hwalk := locate_eq_ok h
  rw [hparts] at hwalk
  obtain ⟨d, hd, hname⟩ := walk_append_eq_ok.1 hwalk
  have hstep : t.enter d (String.ofList last) = .ok l := by
    simpa [walk, bind_pure] using hname
  have hnot : t.isDirectory l ≠ true := by simp [isDirectory_of_get? hfile]
  obtain ⟨hdir, ⟨-, rfl⟩ | ⟨-, rfl⟩ | ⟨hidle, hup, hsize, -⟩⟩ := enter_eq_ok hstep
  · exact absurd hdir hnot
  · -- the location above one that was walked to is a directory, and the root is above itself
    by_cases hself : d.dropLast = d
    · exact absurd (hself.symm ▸ hdir) hnot
    · exact absurd (isDirectory_of_walk hd (List.dropLast_prefix d) hself) hnot
  · refine ⟨before, last, d, hparts, hd, hdir, hname, ?_, ?_, hsize⟩
    · exact Bool.eq_false_iff.2 fun h => hidle (isIdle_eq_true_iff.1 h)
    · rintro rfl
      exact hup rfl

/-- **All that is asked of a path** to be looked up. -/
theorem locate_eq_ok_iff {path : String} : t.locate path = .ok l ↔
    path.toList ≠ [] ∧ '\x00' ∉ path.toList ∧ path.utf8ByteSize ≤ maxPathBytes ∧
      t.walk (Location.base t.workingDirectory path) (path.toList.splitOn '/') = .ok l := by
  have hpath : (path.isEmpty || path.toList.contains '\x00') = true ↔
      ¬ (path.toList ≠ [] ∧ '\x00' ∉ path.toList) := by
    simp only [Bool.or_eq_true, String.isEmpty_iff, ← String.toList_eq_nil_iff, List.contains_iff_mem]
    tauto
  unfold locate FileTree.parts
  rw [bind_eq_ok]
  split_ifs with hbad hlong
  · rw [hpath] at hbad
    simp only [false_and, exists_false, false_iff]
    exact fun h => hbad ⟨h.1, h.2.1⟩
  · simp only [false_and, exists_false, false_iff]
    exact fun h => Nat.not_le.2 hlong h.2.2.1
  · rw [hpath, not_not] at hbad
    obtain ⟨hne, hnul⟩ := hbad
    simp only [Except.ok.injEq, exists_eq_left', List.foldlM_map]
    exact ⟨fun h => ⟨hne, hnul, Nat.not_lt.1 hlong, h⟩, fun h => h.2.2.2⟩

end FileTree

/-! ## The path of an origin -/

theorem utf8ByteSize_of_toList {s : String} {a b : List Char} (h : s.toList = a ++ b) :
    s.utf8ByteSize = (String.ofList a).utf8ByteSize + (String.ofList b).utf8ByteSize := by
  rw [← String.utf8ByteSize_append, ← String.ofList_append, ← h, String.ofList_toList]

theorem Path.intercalate_append {Q R : List (List Char)} (hQ : Q ≠ []) (hR : R ≠ []) :
    ['/'].intercalate (Q ++ R) = ['/'].intercalate Q ++ '/' :: ['/'].intercalate R := by
  induction Q with
  | nil => exact absurd rfl hQ
  | cons part Q ih =>
    cases Q with
    | nil =>
      obtain ⟨next, R, rfl⟩ := List.exists_cons_of_ne_nil hR
      simp [List.intercalate_cons_cons]
    | cons part' Q =>
      have hrest := ih (List.cons_ne_nil _ _)
      rw [List.cons_append] at hrest
      rw [List.cons_append, List.cons_append, List.intercalate_cons_cons, hrest, List.intercalate_cons_cons]
      simp

namespace Origin

variable {path : String} {before : List (List Char)} {last : List Char}

/-- The directory of an origin has the parts of the path before the name, less those at the end that carry no
meaning; a dot stands for no part at all. -/
theorem exists_directory (hparts : path.toList.splitOn '/' = before ++ [last]) (hlast : Path.isIdle last = false) :
    ∃ Q idle, (Q = [['.']] ∧ before = idle ∨ Q ≠ [] ∧ before = Q ++ idle) ∧
      (∀ part ∈ idle, Path.isIdle part = true) ∧ Path.Front (ofPath path).directory Q ∧
      Path.isAbsolute path = (Q.head? == some []) := by
  obtain ⟨parent, Q, idle, hparent, rfl, hidle, hfront, hroot⟩ := Path.parent?_spec hparts hlast
  have hdirectory : (ofPath path).directory = if parent.isEmpty then "." else parent := by
    simp only [ofPath, hparent]
  have hempty : parent.isEmpty = true ↔ Q = [] := by
    rw [String.isEmpty_iff, ← String.toList_eq_nil_iff]
    cases hfront with
    | root h => simp [h]
    | names h hQlast =>
      refine ⟨fun hnil => ?_, fun hnil => by rw [h, hnil]; rfl⟩
      by_contra hne
      obtain ⟨before, last', rfl⟩ := (List.eq_nil_or_concat' Q).resolve_left hne
      have hsuffix := Path.suffix_intercalate_concat before last'
      rw [← h, hnil, List.suffix_nil] at hsuffix
      exact hQlast last' (by simp) hsuffix
  rw [hdirectory]
  by_cases hnil : Q = []
  · rw [if_pos (hempty.2 hnil)]
    subst hnil
    exact ⟨[['.']], idle, .inl ⟨rfl, rfl⟩, hidle, .names rfl (by simp), hroot⟩
  · rw [if_neg (mt hempty.1 hnil)]
    exact ⟨Q, idle, .inr ⟨hnil, rfl⟩, hidle, hfront, hroot⟩

/-- The path of an origin has these parts and the name, and starts where the path does. -/
theorem exists_parts (hparts : path.toList.splitOn '/' = before ++ [last]) (hlast : Path.isIdle last = false)
    (hup : last ≠ ['.', '.']) :
    ∃ Q idle, (Q = [['.']] ∧ before = idle ∨ Q ≠ [] ∧ before = Q ++ idle) ∧
      (∀ part ∈ idle, Path.isIdle part = true) ∧ (ofPath path).path.toList.splitOn '/' = Q ++ [last] ∧
      Path.isAbsolute (ofPath path).path = Path.isAbsolute path := by
  obtain ⟨Q, idle, hQ, hidle, hfront, hroot⟩ := exists_directory hparts hlast
  have hname : (ofPath path).name = String.ofList last := by
    simp only [ofPath, Path.fileName?_spec hparts hlast hup, Option.getD_some]
  have hmem : ∀ part ∈ before ++ [last], '/' ∉ part := fun part hpart =>
    Path.notMem_of_mem_splitOn (hparts ▸ hpart)
  have hslash : '/' ∉ last := hmem last List.mem_concat_self
  have hnamed : Path.isAbsolute (String.ofList last) = false := by
    rw [Path.isAbsolute, String.toList_ofList, Bool.eq_false_iff]
    intro habs
    exact hslash (List.mem_of_mem_head? (by simpa using habs))
  have hQmem : ∀ part ∈ Q, '/' ∉ part := by
    rcases hQ with ⟨rfl, -⟩ | ⟨-, rfl⟩
    · exact List.forall_mem_singleton.2 (by decide)
    · exact fun part hpart => hmem part (List.mem_append_left _ (List.mem_append_left _ hpart))
  refine ⟨Q, idle, hQ, hidle, ?_, ?_⟩
  · rw [Origin.path, hname, Path.parts_join hfront hQmem hnamed, String.toList_ofList,
      List.splitOn_eq_singleton hslash]
  · rw [Origin.path, hname, Path.isAbsolute_join hfront hQmem hnamed, hroot]

/-- Seen as text, it is the path with something left out before the name; a dot and a slash can stand in its
place. -/
theorem toList_path {Q idle : List (List Char)} (hparts : path.toList.splitOn '/' = before ++ [last])
    (hQ : Q = [['.']] ∧ before = idle ∨ Q ≠ [] ∧ before = Q ++ idle)
    (hsplit : (ofPath path).path.toList.splitOn '/' = Q ++ [last]) :
    ∃ front rest, path.toList = front ++ rest ++ last ∧
      (front ≠ [] ∧ (ofPath path).path.toList = front ++ last ∨
        (ofPath path).path.toList = ['.', '/'] ++ last) := by
  have htext : ['/'].intercalate (Q ++ [last]) = (ofPath path).path.toList := hsplit ▸ List.intercalate_splitOn '/'
  have hwhole : ['/'].intercalate (before ++ [last]) = path.toList := hparts ▸ List.intercalate_splitOn '/'
  rcases hQ with ⟨rfl, -⟩ | ⟨hne, rfl⟩
  · obtain ⟨front, hfront⟩ := Path.suffix_intercalate_concat before last
    refine ⟨front, [], ?_, .inr ?_⟩
    · rw [← hwhole, ← hfront, List.append_nil]
    · rw [← htext, Path.intercalate_append (List.cons_ne_nil _ _) (List.cons_ne_nil _ _)]
      simp
  · obtain ⟨rest, hrest⟩ := Path.suffix_intercalate_concat idle last
    refine ⟨['/'].intercalate Q ++ ['/'], rest, ?_, .inl ⟨by simp, ?_⟩⟩
    · rw [← hwhole, List.append_assoc, Path.intercalate_append hne (by simp), ← hrest]
      simp
    · rw [← htext, Path.intercalate_append hne (by simp)]
      simp

end Origin

namespace FileTree

variable {t : FileTree} {l : Location}

/-- **The path of the origin of a file** leads to the file. -/
theorem locate_origin {path : String} {bytes : List UInt8} (h : t.locate path = .ok l)
    (hfile : t.get? l = some (.file bytes)) : t.locate (Origin.ofPath path).path = .ok l := by
  obtain ⟨before, last, d, hparts, hd, hdir, hname, hlast, hup, hshort⟩ := exists_name_of_locate h hfile
  obtain ⟨-, hnul, hsize, -⟩ := locate_eq_ok_iff.1 h
  obtain ⟨Q, idle, hQ, hidle, hsplit, habsolute⟩ := Origin.exists_parts hparts hlast hup
  have hbase : Location.base t.workingDirectory (Origin.ofPath path).path =
      Location.base t.workingDirectory path := by
    rw [Location.base, Location.base, habsolute]
  -- the parts before the name lead to the directory of the file
  have hQd : t.walk (Location.base t.workingDirectory path) Q = .ok d := by
    rcases hQ with ⟨rfl, rfl⟩ | ⟨-, rfl⟩
    · obtain rfl := eq_of_walk_idle hidle hd
      exact walk_dot hdir
    · obtain ⟨d', hd', hidle'⟩ := walk_append_eq_ok.1 hd
      obtain rfl := eq_of_walk_idle hidle hidle'
      exact hd'
  have hwalk : t.walk (Location.base t.workingDirectory (Origin.ofPath path).path)
      ((Origin.ofPath path).path.toList.splitOn '/') = .ok l := by
    rw [hbase, hsplit]
    exact walk_append_eq_ok.2 ⟨d, hQd, hname⟩
  rw [locate_eq_ok_iff]
  obtain ⟨front, rest, hpath, ⟨hne, htext⟩ | htext⟩ := Origin.toList_path hparts hQ hsplit
  · refine ⟨?_, ?_, ?_, hwalk⟩
    · rw [htext]
      exact List.append_ne_nil_of_left_ne_nil hne last
    · intro hmem
      rw [htext, List.mem_append] at hmem
      rw [hpath, List.mem_append, List.mem_append] at hnul
      exact hnul (hmem.imp_left .inl)
    · have hlen := utf8ByteSize_of_toList htext
      have hlen' := utf8ByteSize_of_toList hpath
      rw [String.ofList_append, String.utf8ByteSize_append] at hlen'
      omega
  · -- there is room for a dot and a slash before a name
    refine ⟨?_, ?_, ?_, hwalk⟩
    · rw [htext]
      exact List.cons_ne_nil _ _
    · intro hmem
      rw [htext, List.mem_append] at hmem
      rw [hpath, List.mem_append] at hnul
      exact hnul (.inr (hmem.resolve_left (by decide)))
    · have hdot : (String.ofList ['.', '/']).utf8ByteSize = 2 := rfl
      rw [utf8ByteSize_of_toList htext]
      unfold maxNameBytes at hshort
      unfold maxPathBytes
      omega

theorem textFile?_congr {path path' : String} (h : t.locate path' = t.locate path) :
    t.textFile? path' = t.textFile? path := by
  unfold textFile?
  rw [h]

theorem exists_textFile {path text : String}
    (h : (t.textFile? path).map (fun f => (f.location, f.text)) = some (l, text)) :
    ∃ f, t.textFile? path = some f ∧ f.location = l ∧ f.text = text := by
  obtain ⟨f, hf, hfields⟩ := Option.map_eq_some_iff.1 h
  exact ⟨f, hf, Prod.mk.inj hfields⟩

theorem textFile?_origin {path : String} {f : t.TextFile} (h : t.textFile? path = some f) :
    t.textFile? (Origin.ofPath path).path = some f := by
  obtain ⟨hlocate, htext⟩ := textFile?_eq_some h
  unfold textAt? at htext
  split at htext
  · rename_i bytes hget
    rw [← h]
    exact textFile?_congr ((locate_origin hlocate hget).trans hlocate.symm)
  · cases htext

end FileTree

/-! ## The first file of a run -/

namespace Import

variable {tree : FileTree} {origin₀ origin : Origin} {text₀ text : String} {owner : Owner} {chain : List Location}

theorem add_of_mem_chain {directory : String} {line : Line} {clause : ImportClause} {f : tree.TextFile}
    (hnames : Names tree directory line clause f) (hf : f.location ∈ chain) (s : Symbols) :
    add tree chain directory s line = .error (line.fault (.importCycle clause.fileName)) := by
  unfold add addWith
  refine bind_eq_error.2 (.inr ⟨clause, mapError_eq_ok.2 hnames.1, ?_⟩)
  simp only [hnames.2]
  exact dif_pos hf

theorem add_of_load_error {directory : String} {line : Line} {clause : ImportClause}
    {f : tree.TextFile} {fault : Fault} (hnames : Names tree directory line clause f) (hf : f.location ∉ chain)
    (h : load tree (f.location :: chain) {} (originOf clause directory) f.text = .error fault) (s : Symbols) :
    add tree chain directory s line = .error (fault.importedFrom line.place) := by
  unfold add addWith
  refine bind_eq_error.2 (.inr ⟨clause, mapError_eq_ok.2 hnames.1, ?_⟩)
  simp only [hnames.2]
  rw [dif_neg hf]
  exact bind_eq_error.2 (.inl (mapError_eq_error.2 ⟨fault, h, rfl⟩))

/-- A source fails with the first of its import statements that fails. -/
theorem AtImport.load_error {s : Symbols} {line : Line} {rest : List Line} {fault : Fault}
    (hs : AtImport tree chain origin text s (line :: rest))
    (h : add tree chain origin.directory s line = .error fault) :
    load tree chain {} origin text = .error fault := by
  obtain ⟨lines, before, hread, hlines, hbefore⟩ := hs
  rw [load_eq]
  refine bind_eq_error.2 (.inr ⟨lines, hread, bind_eq_error.2 (.inl ?_)⟩)
  rw [hlines, List.foldlM_append]
  refine bind_eq_error.2 (.inr ⟨s, hbefore, ?_⟩)
  rw [List.foldlM_cons]
  exact bind_eq_error.2 (.inl h)

theorem AtImport.start {rest : List Line}
    (h : (readChecked origin.name text).toOption.map (·.filter Line.isImport) = some rest) :
    AtImport tree chain origin text {} rest := by
  obtain ⟨lines, hlines, hrest⟩ := Option.map_eq_some_iff.1 h
  exact ⟨lines, [], toOption_eq_some.1 hlines, hrest, rfl⟩

/-- **Run**: a fault in a source that is being loaded ends the run, with the same cause at the same place. -/
theorem Loading.load_error {fault : Fault} (hl : Loading tree origin₀ text₀ owner chain origin text)
    (h : load tree chain {} origin text = .error fault) :
    ∃ fault', load tree (rootChain tree origin₀) {} origin₀ text₀ = .error fault' ∧ fault'.cause = fault.cause ∧
      fault'.place = fault.place := by
  induction hl generalizing fault with
  | root => exact ⟨fault, h, rfl, rfl⟩
  | imported _ hs hnames hf ih =>
    obtain ⟨fault', hroot, hcause, hplace⟩ := ih (hs.load_error (add_of_load_error hnames hf h _))
    exact ⟨fault', hroot, hcause, hplace⟩

/-- The first source stays open. -/
theorem Loading.root_subset (hl : Loading tree origin₀ text₀ owner chain origin text) :
    rootChain tree origin₀ ⊆ chain := by
  obtain ⟨opened, rfl, -⟩ := hl.exists_append
  exact List.subset_append_right _ _

/-- A source is reached along edges. -/
theorem Reaches.edges {l : Option Location} (h : Reaches tree origin₀ text₀ l origin text) :
    Relation.ReflTransGen (Edge tree origin₀ text₀) (rootNode tree origin₀) l := by
  induction h with
  | root => exact .refl
  | step hreaches hi ih => exact ih.tail ⟨_, _, _, _, _, hreaches, hi, rfl⟩

end Import

namespace Assembly

variable {tree : FileTree} {path : String} {f : tree.TextFile}

theorem runFile_of_load_error {fault : Fault} (h : tree.textFile? path = some f)
    (hload : Import.load tree (Import.rootChain tree (.ofPath path)) {} (.ofPath path) f.text = .error fault) :
    (runFile tree path).outcome = .error (.fault fault) := by
  simp only [runFile, h, outcome_run, stream_eq, prepare_of_load hload]
  rfl

theorem exists_load_of_runFile {product : Product} (h : tree.textFile? path = some f)
    (hok : (runFile tree path).outcome = .ok product) :
    ∃ r, Import.load tree (Import.rootChain tree (.ofPath path)) {} (.ofPath path) f.text = .ok r := by
  cases hload : Import.load tree (Import.rootChain tree (.ofPath path)) {} (.ofPath path) f.text with
  | ok r => exact ⟨r, rfl⟩
  | error fault =>
    rw [runFile_of_load_error h hload] at hok
    cases hok

/-- **A file that is assembled** is the one that the path of its origin leads to, whatever way it is spelled.
An import statement for it is refused as a cycle, in all sources that are loaded in its run; when loading comes to
such a statement, the run ends there.  If a source that is reached has one, the run does not succeed. -/
theorem runFile_refuses_itself (h : tree.textFile? path = some f) :
    tree.textFile? (Origin.ofPath path).path = some f ∧
    (∀ owner chain origin text line clause f', Import.Loading tree (.ofPath path) f.text owner chain origin text →
      Import.Names tree origin.directory line clause f' → f'.location = f.location →
      ∀ s, Import.add tree chain origin.directory s line = .error (line.fault (.importCycle clause.fileName))) ∧
    (∀ owner chain origin text s line rest clause f',
      Import.Loading tree (.ofPath path) f.text owner chain origin text →
      Import.AtImport tree chain origin text s (line :: rest) →
      Import.Names tree origin.directory line clause f' → f'.location = f.location →
        ∃ fault, (runFile tree path).outcome = .error (.fault fault) ∧
          fault.cause = .importCycle clause.fileName ∧ fault.place = line.place) ∧
    ∀ l origin text line clause f', Import.Reaches tree (.ofPath path) f.text l origin text →
      Import.Imports tree origin text line clause f' → f'.location = f.location →
      ∀ product, (runFile tree path).outcome ≠ .ok product := by
  have horigin := FileTree.textFile?_origin h
  have hlocate := (FileTree.textFile?_eq_some horigin).1
  have hroot : Import.rootNode tree (.ofPath path) = some f.location := by
    rw [Import.rootNode, hlocate]
    rfl
  have hadd : ∀ {owner chain origin text line clause} {f' : tree.TextFile},
      Import.Loading tree (.ofPath path) f.text owner chain origin text →
      Import.Names tree origin.directory line clause f' → f'.location = f.location →
      ∀ s, Import.add tree chain origin.directory s line = .error (line.fault (.importCycle clause.fileName)) := by
    intro owner chain origin text line clause f' hl hnames hf
    refine Import.add_of_mem_chain hnames (hl.root_subset ?_)
    rw [Import.rootChain_eq, hroot, hf]
    exact List.mem_singleton_self _
  refine ⟨horigin, fun _ _ _ _ _ _ _ => hadd, ?_, ?_⟩
  · intro owner chain origin text s line rest clause f' hl hs hnames hf
    obtain ⟨fault, hload, hcause, hplace⟩ := hl.load_error (hs.load_error (hadd hl hnames hf s))
    exact ⟨fault, runFile_of_load_error h hload, hcause, hplace⟩
  · intro l origin text line clause f' hreaches hi hf product hok
    -- the import closes a cycle through the node of the file
    have hedge : Import.Edge tree (.ofPath path) f.text l (Import.rootNode tree (.ofPath path)) :=
      ⟨_, _, _, _, _, hreaches, hi, hf ▸ hroot⟩
    have hcycle := Relation.TransGen.tail' hreaches.edges hedge
    obtain ⟨r, hload⟩ := exists_load_of_runFile h hok
    exact Import.acyclic_of_load hload _ hcycle

/-- A source that imports a file which imports it again, by a path that leads above the working directory. -/
def entwined : FileTree := Import.textTree
  [(["src", "main.abcout"], "@import * from ../lib/util\n"),
    (["lib", "util.abcout"], "%macro nop 0\n0, 0\n%endmacro\n@import * from ../../home/src//main\n")]

/-- The second import is refused, though the path of the first file starts at the root, and goes up there. -/
theorem runFile_refuses_itself_entwined :
    ∃ f fault, entwined.textFile? "/../home//src/./main.abcout" = some f ∧
      Origin.ofPath "/../home//src/./main.abcout" = ⟨"/../home//src", "main.abcout"⟩ ∧
      entwined.textFile? (Origin.ofPath "/../home//src/./main.abcout").path = some f ∧
      (runFile entwined "/../home//src/./main.abcout").outcome = .error (.fault fault) ∧
      fault.cause = .importCycle "../../home/src//main.abcout" ∧ fault.place = ⟨"../lib/util.abcout", 4⟩ := by
  have horigin : Origin.ofPath "/../home//src/./main.abcout" = ⟨"/../home//src", "main.abcout"⟩ := by
    decide +kernel
  have hpath : (entwined.textFile? "/../home//src/./main.abcout").map (fun f => (f.location, f.text)) =
      some (["home", "src", "main.abcout"], "@import * from ../lib/util\n") := by decide +kernel
  have hpath₁ : (entwined.textFile? (Path.join "/../home//src" "../lib/util.abcout")).map
      (fun f => (f.location, f.text)) = some (["home", "lib", "util.abcout"],
        "%macro nop 0\n0, 0\n%endmacro\n@import * from ../../home/src//main\n") := by
    decide +kernel
  have hpath₂ : (entwined.textFile? (Path.join "/../home//src/../lib" "../../home/src//main.abcout")).map
      (fun f => (f.location, f.text)) =
        some (["home", "src", "main.abcout"], "@import * from ../lib/util\n") := by
    decide +kernel
  obtain ⟨f, hf, hlocation, htext⟩ := FileTree.exists_textFile hpath
  obtain ⟨util, hutil, hlocation₁, htext₁⟩ := FileTree.exists_textFile hpath₁
  obtain ⟨main, hmain, hlocation₂, -⟩ := FileTree.exists_textFile hpath₂
  obtain ⟨hsame, -, hends, -⟩ := runFile_refuses_itself hf
  rw [horigin, htext] at hends
  -- the first file imports the second, which imports the first
  have hstart : Import.AtImport entwined (Import.rootChain entwined ⟨"/../home//src", "main.abcout"⟩)
      ⟨"/../home//src", "main.abcout"⟩ "@import * from ../lib/util\n" {}
      [⟨"@import * from ../lib/util", 1, "main.abcout", .importing⟩] := .start (by decide +kernel)
  have hnames : Import.Names entwined "/../home//src" ⟨"@import * from ../lib/util", 1, "main.abcout", .importing⟩
      ⟨.all, "../lib/util"⟩ util := ⟨by decide +kernel, hutil⟩
  have hloading := Import.Loading.root.imported hstart hnames (by rw [hlocation₁]; decide +kernel)
  have horigin₁ : Import.originOf ⟨.all, "../lib/util"⟩ "/../home//src" =
      ⟨"/../home//src/../lib", "../lib/util.abcout"⟩ := by
    decide +kernel
  rw [horigin₁, htext₁] at hloading
  have hstart₁ : Import.AtImport entwined
      (util.location :: Import.rootChain entwined ⟨"/../home//src", "main.abcout"⟩)
      ⟨"/../home//src/../lib", "../lib/util.abcout"⟩
      "%macro nop 0\n0, 0\n%endmacro\n@import * from ../../home/src//main\n" {}
      [⟨"@import * from ../../home/src//main", 4, "../lib/util.abcout", .importing⟩] := .start (by decide +kernel)
  have hnames₁ : Import.Names entwined "/../home//src/../lib"
      ⟨"@import * from ../../home/src//main", 4, "../lib/util.abcout", .importing⟩
      ⟨.all, "../../home/src//main"⟩ main :=
    ⟨by decide +kernel, hmain⟩
  obtain ⟨fault, hrun, hcause, hplace⟩ :=
    hends _ _ _ _ _ _ _ _ main hloading hstart₁ hnames₁ (hlocation₂.trans hlocation.symm)
  exact ⟨f, fault, hf, horigin, hsame, hrun, hcause, hplace⟩

end Assembly

end Abcout
