import Abcout.Proofs.Blanks
import Abcout.Proofs.Selection
import Abcout.Proofs.Session
import Abcout.Proofs.Spacing

/-!
# Abcout.Proofs.ImportOrder — import statements in any order

An imported file is loaded with symbols of its own, so the records that a statement brings do not depend on the
importing file.  Names must be new in both orders or in none; hence two statements commute, and by `foldlM_perm`
any number of them.  On a session they change nothing but the macros (`Session.exists_brings`), so that all of it
is the same in both orders.

`Assembly.imports_independent`: statements commute, what they bring depends on nothing but the files, and a source
whose import statements change places has the same product.
-/

namespace Abcout

namespace Import

variable {tree : FileTree} {chain : List Location} {directory : String} {s s₁ s₂ : Symbols} {line line' : Line}

/-! ## What a statement brings -/

/-- A statement brings the records `added`: it adds all of them and changes nothing else, where none of their names
is taken. -/
def Brings (tree : FileTree) (chain : List Location) (directory : String) (line : Line) (added : MacroTable) :
    Prop :=
  ∀ s s', add tree chain directory s line = .ok s' ↔
    (∀ k ∈ added, k ∉ s.macros) ∧ s' = { s with macros := s.macros ∪ added }

theorem copy_eq_union (source target : MacroTable) (blocks : List Block) :
    copy source target blocks = target ∪ copy source ∅ blocks := by
  refine Std.ExtTreeMap.ext_getElem? fun k => ?_
  rw [Std.ExtTreeMap.getElem?_union, getElem?_copy, getElem?_copy]
  split_ifs with hk
  · obtain ⟨m, hm⟩ := mem_iff_exists_getElem?.1 hk.2
    rw [hm]
    rfl
  · simp

theorem mem_copy_empty {inner inner' : Symbols} {blocks : List Block}
    (h : blocks.foldlM Symbols.define inner = .ok inner') {k : String} : k ∈ copy inner'.macros ∅ blocks ↔
      ∃ b ∈ blocks, b.name = k := by
  rw [Std.ExtTreeMap.mem_iff_isSome_getElem?, getElem?_copy]
  split_ifs with hk
  · exact iff_of_true (Std.ExtTreeMap.mem_iff_isSome_getElem?.1 hk.2) hk.1
  · exact iff_of_false (by simp) fun hname => hk ⟨hname, (Symbols.mem_defineAll h).2 (.inr hname)⟩

/-- **An import is isolated.**  A statement that can be carried out brings the same records everywhere. -/
theorem exists_brings (h : add tree chain directory s line = .ok s₁) :
    ∃ added, Brings tree chain directory line added := by
  obtain ⟨clause, f, lines, inner, inner', blocks, hnames, hchain, hload, hblocks, -, hinner, -⟩ :=
    add_eq_ok_iff.1 h
  have hnew : ∀ t : MacroTable, checkNew t blocks = .ok () ↔ ∀ k ∈ copy inner'.macros ∅ blocks, k ∉ t := by
    intro t
    simp only [checkNew_eq_ok_iff, mem_copy_empty hinner, forall_exists_index, and_imp]
    exact ⟨fun h k b hb hname => hname ▸ h b hb, fun h b hb => h b.name b hb rfl⟩
  refine ⟨copy inner'.macros ∅ blocks, fun t t' => ?_⟩
  rw [add_eq_ok_iff, ← hnew, ← copy_eq_union]
  constructor
  · -- the file, its lines and its macros are the same as before
    rintro ⟨clause₁, f₁, lines₁, inner₁, inner₁', blocks₁, hnames₁, -, hload₁, hblocks₁, hnew₁, hinner₁, rfl⟩
    obtain rfl : clause = clause₁ := Except.ok.inj (hnames.1.symm.trans hnames₁.1)
    obtain rfl : f = f₁ := Option.some.inj (hnames.2.symm.trans hnames₁.2)
    cases hload.symm.trans hload₁
    cases hblocks.symm.trans hblocks₁
    cases hinner.symm.trans hinner₁
    exact ⟨hnew₁, rfl⟩
  · rintro ⟨hnew₁, rfl⟩
    exact ⟨clause, f, lines, inner, inner', blocks, hnames, hchain, hload, hblocks, hnew₁, hinner, rfl⟩

/-- Records under different names can be added in any order. -/
theorem union_comm_of_disjoint {t a b : MacroTable} (h : ∀ k ∈ b, k ∉ a) : t ∪ a ∪ b = t ∪ b ∪ a := by
  refine Std.ExtTreeMap.ext_getElem? fun k => ?_
  simp only [Std.ExtTreeMap.getElem?_union]
  cases hb : b[k]? with
  | none => simp
  | some m =>
    have ha : a[k]? = none := Std.ExtTreeMap.getElem?_eq_none (h k (mem_iff_exists_getElem?.2 ⟨m, hb⟩))
    rw [ha]
    simp

/-- **Two import statements commute.** -/
theorem add_comm (h₁ : add tree chain directory s line = .ok s₁)
    (h₂ : add tree chain directory s₁ line' = .ok s₂) :
    ∃ s₁', add tree chain directory s line' = .ok s₁' ∧ add tree chain directory s₁' line = .ok s₂ := by
  obtain ⟨a, ha⟩ := exists_brings h₁
  obtain ⟨b, hb⟩ := exists_brings h₂
  obtain ⟨hfree, rfl⟩ := (ha _ _).1 h₁
  obtain ⟨hfree', rfl⟩ := (hb _ _).1 h₂
  have hdisjoint : ∀ k ∈ b, k ∉ a := fun k hk hka => hfree' k hk (Std.ExtTreeMap.mem_union_iff.2 (.inr hka))
  refine ⟨_, (hb _ _).2 ⟨fun k hk hks => hfree' k hk (Std.ExtTreeMap.mem_union_iff.2 (.inl hks)), rfl⟩, ?_⟩
  refine (ha _ _).2 ⟨fun k hk hks => ?_, by rw [union_comm_of_disjoint hdisjoint]⟩
  rcases Std.ExtTreeMap.mem_union_iff.1 hks with hks | hks
  · exact hfree k hk hks
  · exact hdisjoint k hks hk

/-! ## The statements of a file -/

theorem add_of_text (htext : line'.text = line.text) (h : add tree chain directory s line = .ok s₁) :
    add tree chain directory s line' = .ok s₁ := by
  rw [add_eq_ok_iff] at h ⊢
  unfold Names at h ⊢
  rw [htext]
  exact h

/-- A line of which nothing but the text is known. -/
def ofText (text : String) : Line := ⟨text, 0, "", .importing⟩

/-- **Run**: import statements in another order. -/
theorem foldlM_add_perm {lines lines' : List Line} (hperm : (lines.map Line.text).Perm (lines'.map Line.text))
    (h : lines.foldlM (add tree chain directory) s = .ok s₁) :
    lines'.foldlM (add tree chain directory) s = .ok s₁ := by
  have htexts : ∀ {xs ys : List Line}, xs.map Line.text = ys.map Line.text →
      xs.foldlM (add tree chain directory) s = .ok s₁ → ys.foldlM (add tree chain directory) s = .ok s₁ := by
    intro xs ys hxy hxs
    rw [← List.forall₂_eq_eq_eq, List.forall₂_map_left_iff, List.forall₂_map_right_iff] at hxy
    obtain ⟨_, hys, rfl⟩ := foldlM_simulates (· = ·) _ (fun _ _ _ _ c e he hstep =>
      ⟨c, e ▸ add_of_text he.symm hstep, rfl⟩)
      hxy rfl hxs
    exact hys
  have hall : ∀ xs : List Line, ((xs.map Line.text).map ofText).map Line.text = xs.map Line.text := by
    intro xs
    rw [List.map_map]
    exact List.map_id _
  refine htexts (hall lines') (foldlM_perm ?_ (hperm.map ofText) (htexts (hall lines).symm h))
  intro t x y t₁ t₂ hx hy
  exact add_comm hx hy

/-! ## Checks -/

/-- Lines in definitions, one line further. -/
theorem moved_cons (inside : Bool) (l : Line) (rest : List Line) : (Block.extract inside (l :: rest)).2 =
    (if inside || l.isOpening then [l] else []) ++
      (Block.extract ((inside || l.isOpening) && l.statement != .closing) rest).2 := by
  rcases Block.moved_or_kept inside l with h | ⟨rfl, h⟩
  · rw [Block.extract_cons_moved rest h, Bool.or_eq_true_iff.2 h]
    rfl
  · rw [Block.extract_cons_kept rest h, h]
    rfl

theorem Checked.step_of_ne (c : Checked) {l : Line} (hl : l.isImport = false) :
    c.step l = .ok { c with inDefinition := (c.inDefinition || l.isOpening) && l.statement != .closing } := by
  cases h : l.statement with
  | importing => simp [Line.isImport, h] at hl
  | _ => simp [Checked.step, Line.isOpening, h, bne, beq_eq_decide]

/-- A statement that is well written begins with the keyword. -/
theorem keyword_of_parse {text : List Char} {clause : ImportClause} (h : ImportClause.parse text = .ok clause) :
    ImportClause.keyword.isPrefixOf text = true := by
  obtain ⟨rest, -, -, htext, -⟩ := ImportClause.parse_eq_ok_iff.1 h
  rw [List.isPrefixOf_iff_prefix, htext]
  exact List.prefix_append _ _

theorem Checked.step_import {c c' : Checked} {l : Line} (hl : l.statement = .importing) : c.step l = .ok c' ↔
    c.inDefinition = false ∧ l.text ∉ c.seen ∧ (∃ clause, ImportClause.parse l.text.toList = .ok clause) ∧
      c' = { c with seen := c.seen.insert l.text } := by
  have hseen : c.seen.contains l.text = false ↔ l.text ∉ c.seen := by
    rw [← Bool.not_eq_true, Std.ExtTreeSet.contains_iff_mem]
  unfold Checked.step
  simp only [hl]
  rw [ensure_bind_eq_ok, ensure_bind_eq_ok, bind_eq_ok]
  simp only [mapError_eq_ok, pure_eq_ok]
  constructor
  · rintro ⟨hplace, hnew, clause, hclause, rfl⟩
    rw [keyword_of_parse hclause] at hnew ⊢
    exact ⟨by simpa using hplace, hseen.1 (by simpa using hnew), ⟨clause, hclause⟩, rfl⟩
  · rintro ⟨hplace, hnew, ⟨clause, hclause⟩, rfl⟩
    rw [keyword_of_parse hclause]
    exact ⟨by simpa using hplace, by simpa using hseen.2 hnew, clause, hclause, rfl⟩

theorem exists_foldlM_checked_iff (lines : List Line) (c : Checked) :
    (∃ c', lines.foldlM Checked.step c = .ok c') ↔
    (∀ l ∈ (Block.extract c.inDefinition lines).2, l.isImport = false) ∧
      ((lines.filter Line.isImport).map Line.text).Nodup ∧ (∀ l ∈ lines.filter Line.isImport, l.text ∉ c.seen) ∧
      ∀ l ∈ lines.filter Line.isImport, ∃ clause, ImportClause.parse l.text.toList = .ok clause := by
  induction lines generalizing c with
  | nil => simp [Block.extract, pure, Except.pure]
  | cons l rest ih =>
    rw [moved_cons]
    cases hl : l.isImport with
    | false =>
      rw [List.foldlM_cons, Checked.step_of_ne c hl, List.filter_cons_of_neg (by simp [hl])]
      refine (ih _).trans (and_congr_left fun _ => ?_)
      split_ifs
      · simp [hl]
      · simp
    | true =>
      have hstmt : l.statement = .importing := by simpa [Line.isImport] using hl
      have hflag : (c.inDefinition || l.isOpening) = c.inDefinition := by simp [Line.isOpening, hstmt]
      have hnext : (c.inDefinition && l.statement != .closing) = c.inDefinition := by
        simp [hstmt, bne, beq_eq_decide]
      simp only [List.foldlM_cons, bind_eq_ok, Checked.step_import hstmt, List.filter_cons_of_pos hl,
        List.map_cons, List.nodup_cons, List.forall_mem_cons, hflag, hnext]
      constructor
      · rintro ⟨c', c₁, ⟨hplace, hnew, hclause, rfl⟩, hrest⟩
        obtain ⟨hmoved, hnodup, hseen, hparse⟩ := (ih _).1 ⟨c', hrest⟩
        simp only [NameSet.mem_insert_name, not_or] at hseen
        refine ⟨?_, ⟨?_, hnodup⟩, ⟨hnew, fun l' hl' => (hseen l' hl').2⟩, hclause, hparse⟩
        · rw [hplace]
          rw [hplace] at hmoved
          exact hmoved
        · intro hmem
          obtain ⟨l', hl', htext⟩ := List.mem_map.1 hmem
          exact (hseen l' hl').1 htext.symm
      · rintro ⟨hmoved, ⟨hfresh, hnodup⟩, ⟨hnew, hseen⟩, hclause, hparse⟩
        have hplace : c.inDefinition = false := by
          by_contra hinside
          rw [Bool.not_eq_false] at hinside
          have hmem := hmoved l (by simp [hinside])
          rw [hl] at hmem
          cases hmem
        have hrest : ∃ c', rest.foldlM Checked.step { c with seen := c.seen.insert l.text } = .ok c' := by
          refine (ih _).2 ⟨fun l' hl' => hmoved l' (List.mem_append_right _ hl'), hnodup,
            fun l' hl' hmem => ?_, hparse⟩
          rcases NameSet.mem_insert_name.1 hmem with htext | hmem
          · exact hfresh (List.mem_map.2 ⟨l', hl', htext.symm⟩)
          · exact hseen l' hl' hmem
        obtain ⟨c', hrest⟩ := hrest
        exact ⟨c', _, ⟨hplace, hnew, hclause, rfl⟩, hrest⟩

/-- **All that checking import statements does**: they stand outside of definitions, no two are the same, and each
is well written. -/
theorem check_eq_ok_iff {lines : List Line} : check lines = .ok () ↔
    (∀ l ∈ (Block.extract false lines).2, l.isImport = false) ∧
      ((lines.filter Line.isImport).map Line.text).Nodup ∧
      ∀ l ∈ lines.filter Line.isImport, ∃ clause, ImportClause.parse l.text.toList = .ok clause := by
  have hcheck : check lines = .ok () ↔ ∃ c, lines.foldlM Checked.step {} = .ok c := by
    unfold check
    rw [bind_eq_ok]
    exact ⟨fun ⟨c, hc, _⟩ => ⟨c, hc⟩, fun ⟨c, hc⟩ => ⟨c, hc, rfl⟩⟩
  rw [hcheck, exists_foldlM_checked_iff]
  simp

theorem check_alike {lines lines' : List Line} (hlines : Line.Alike lines lines')
    (htexts : ((lines.filter Line.isImport).map Line.text).Perm ((lines'.filter Line.isImport).map Line.text))
    (h : check lines = .ok ()) : check lines' = .ok () := by
  obtain ⟨hplace, hnodup, hparse⟩ := check_eq_ok_iff.1 h
  have hmoved : Line.Alike (Block.extract false lines).2 (Block.extract false lines').2 :=
    (Block.extract_forall₂ (fun _ _ h => h) (fun _ _ _ => rfl) false hlines).2
  refine check_eq_ok_iff.2 ⟨hmoved.isImport hplace, htexts.nodup_iff.1 hnodup, fun l' hl' => ?_⟩
  obtain ⟨l, hl, htext⟩ := List.mem_map.1 (htexts.mem_iff.2 (List.mem_map_of_mem hl'))
  rw [← htext]
  exact hparse l hl

/-- **Loading a source whose lines say the same**, with its import statements in any order. -/
theorem load_alike {origin : Origin} {text text' : String} {lines lines' : List Line}
    (hload : load tree chain s origin text = .ok (lines, s₁)) (hread : Line.readAll origin.name text' = .ok lines')
    (hlines : List.Forall₂ (fun l l' => l.statement = l'.statement ∧ (l.isImport = false → l'.text = l.text))
      (Line.nonblank lines) (Line.nonblank lines'))
    (htexts : ((lines.filter Line.isImport).map Line.text).Perm ((lines'.filter Line.isImport).map Line.text)) :
    load tree chain s origin text' = .ok (lines', s₁) := by
  obtain ⟨hchecked, hadd⟩ := load_eq_ok_iff.1 hload
  obtain ⟨-, hcheck, hpaired⟩ := readChecked_eq_ok_iff.1 hchecked
  refine load_eq_ok_iff.2 ⟨readChecked_eq_ok_iff.2 ⟨hread, ?_, ?_⟩, foldlM_add_perm htexts hadd⟩
  · rw [← check_nonblank] at hcheck ⊢
    rw [← Line.filter_isImport_nonblank lines, ← Line.filter_isImport_nonblank lines'] at htexts
    exact check_alike (hlines.imp fun _ _ h => h.1) htexts hcheck
  · rw [← Block.check_nonblank] at hpaired ⊢
    refine Block.check_alike (hlines.imp fun l l' h => ⟨h.1, fun name params hopening => h.2 ?_⟩) hpaired
    simp [Line.isImport, hopening]

end Import

/-! ## Sessions -/

namespace Session

variable {left : Symbols → Block → Symbols} {tree : FileTree} {chain : List Location} {directory : String}
  {line line' : Line} {c c' c₁ c₂ : Session}

/-- A statement brings the records `added` to sessions in which the files of `chain` are open: it adds all of them
and changes nothing else, where none of their names is taken. -/
def Brings (left : Symbols → Block → Symbols) (tree : FileTree) (chain : List Location)
    (directory : String) (line : Line) (added : MacroTable) : Prop :=
  ∀ c c' : Session, c.chain = chain → ((add left tree directory line).run c = .ok () c' ↔
    (∀ k ∈ added, k ∉ c.macros) ∧ c' = { c with macros := c.macros ∪ added })

theorem run_add_eq_ok : (add left tree directory line).run c = .ok () c' ↔
    ∃ s, Import.add tree c.chain directory c.symbols line = .ok s ∧ c' = c.withSymbols s := by
  rw [run_add]
  constructor
  · intro h
    obtain ⟨s, hs, rfl⟩ := exists_of_outcome_ok h
    exact ⟨s, hs, rfl⟩
  · rintro ⟨s, hs, rfl⟩
    rw [hs]
    rfl

/-- What a statement brings does not depend on the macros, the labels and the warnings of a session. -/
theorem exists_brings (h : (add left tree directory line).run c = .ok () c') :
    ∃ added, Brings left tree c.chain directory line added := by
  obtain ⟨s, hs, -⟩ := run_add_eq_ok.1 h
  obtain ⟨added, hadded⟩ := Import.exists_brings hs
  refine ⟨added, fun d d' hchain => ?_⟩
  rw [← hchain] at hadded
  rw [run_add_eq_ok]
  constructor
  · rintro ⟨t, ht, rfl⟩
    obtain ⟨hnew, rfl⟩ := (hadded _ _).1 ht
    exact ⟨hnew, rfl⟩
  · rintro ⟨hnew, rfl⟩
    exact ⟨_, (hadded _ _).2 ⟨hnew, rfl⟩, rfl⟩

/-- **Two import statements commute** on a session. -/
theorem add_comm (h₁ : (add left tree directory line).run c = .ok () c₁)
    (h₂ : (add left tree directory line').run c₁ = .ok () c₂) :
    ∃ c₁', (add left tree directory line').run c = .ok () c₁' ∧
      (add left tree directory line).run c₁' = .ok () c₂ := by
  obtain ⟨s₁, hs₁, rfl⟩ := run_add_eq_ok.1 h₁
  obtain ⟨s₂, hs₂, rfl⟩ := run_add_eq_ok.1 h₂
  obtain ⟨s₁', hs₁', hs₂'⟩ := Import.add_comm hs₁ hs₂
  exact ⟨c.withSymbols s₁', run_add_eq_ok.2 ⟨s₁', hs₁', rfl⟩, run_add_eq_ok.2 ⟨s₂, hs₂', rfl⟩⟩

end Session

/-! ## Sources -/

/-- Whether a row is an import statement. -/
def Source.isImport (row : List Char) : Bool :=
  ((clean row).toOption.bind fun text => (Statement.parse text).toOption) == some .importing

/-- The rows of a text, with import statements in each other's places. -/
structure Text.ImportsMoved (rows rows' : List (List Char)) : Prop where
  perm : rows.Perm rows'
  places : List.Forall₂ (fun r r' => r' = r ∨ Source.isImport r = true ∧ Source.isImport r' = true) rows rows'

theorem Line.IsRead.isImport {row : List Char} {l : Line} (h : IsRead row l) :
    Source.isImport row = l.isImport := by
  rw [Source.isImport, h.clean, Except.toOption, Option.bind_some, h.parse]
  rfl

theorem Source.exists_isRead {row : List Char} (h : isImport row = true) :
    ∃ l : Line, l.IsRead row ∧ l.statement = .importing := by
  unfold isImport at h
  rw [beq_iff_eq, Option.bind_eq_some_iff] at h
  obtain ⟨text, htext, hparse⟩ := h
  rw [toOption_eq_some] at htext hparse
  refine ⟨Import.ofText (String.ofList text), ⟨?_, ?_⟩, rfl⟩
  · rw [htext, Import.ofText, String.toList_ofList]
  · rw [Import.ofText, String.toList_ofList, hparse]

/-- The text of a row, if it is an import statement. -/
def Source.importText? (row : List Char) : Option String :=
  if isImport row then (clean row).toOption.map String.ofList else none

theorem Line.texts_of_isRead {rows : List (List Char)} {lines : List Line} (h : List.Forall₂ IsRead rows lines) :
    rows.filterMap Source.importText? = (lines.filter Line.isImport).map Line.text := by
  induction h with
  | nil => rfl
  | @cons row l rows lines hl _ ih =>
    rw [List.filterMap_cons, List.filter_cons, Source.importText?, hl.isImport, ih]
    cases l.isImport with
    | true => simp [hl.clean, Except.toOption]
    | false => simp

theorem Text.filterMap_importText?_kept (rows : List (List Char)) :
    (kept rows).filterMap Source.importText? = rows.filterMap Source.importText? := by
  have hnone : Source.importText? [] = none := by decide
  induction rows with
  | nil => rfl
  | cons r rows ih =>
    cases rows with
    | nil =>
      rw [kept_singleton]
      split_ifs with hr
      · rw [hr, List.filterMap_cons_none hnone]
      · rfl
    | cons x rows =>
      simp only [kept_cons_cons, List.filterMap_cons] at ih ⊢
      rw [ih]

/-- Rows with import statements moved are read as lines that say the same. -/
theorem Text.ImportsMoved.exists_lines {rows rows' : List (List Char)} {lines : List Line}
    (h : ImportsMoved rows rows') (hread : List.Forall₂ Line.IsRead (kept rows) lines) :
      ∃ lines', List.Forall₂ Line.IsRead (kept rows') lines' ∧
        List.Forall₂ (fun l l' => l' = l ∨ l.statement = .importing ∧ l'.statement = .importing) lines lines' := by
  have hnil : Source.isImport [] = false := by decide
  have hkept := kept_forall₂ (fun r r' hr => by
    rcases hr with rfl | ⟨hr, hr'⟩
    · exact Iff.rfl
    · refine iff_of_false ?_ ?_
      · rintro rfl
        rw [hnil] at hr
        cases hr
      · rintro rfl
        rw [hnil] at hr'
        cases hr') h.places
  generalize kept rows = kept, kept rows' = kept' at hread hkept
  induction hkept generalizing lines with
  | nil =>
    cases hread
    exact ⟨[], .nil, .nil⟩
  | cons hr _ ih =>
    obtain ⟨l, rest, hl, hrest, rfl⟩ := List.forall₂_cons_left_iff.1 hread
    obtain ⟨rest', hread', hrest'⟩ := ih hrest
    rcases hr with rfl | ⟨hr, hr'⟩
    · exact ⟨l :: rest', .cons hl hread', .cons (.inl rfl) hrest'⟩
    · obtain ⟨l', hl', hstmt⟩ := Source.exists_isRead hr'
      rw [hl.isImport] at hr
      exact ⟨l' :: rest', .cons hl' hread', .cons (.inr ⟨by simpa [Line.isImport] using hr, hstmt⟩) hrest'⟩

/-- Lines in the places of lines that are numbered from `k` on get their numbers. -/
theorem Line.forall₂_numbered_of {R : Line → Line → Prop} (file : String) {k : Nat} {lines lines' : List Line}
    (h : List.Forall₂ R lines lines') (hnumbers : lines.map Line.number = List.range' k lines.length) :
    List.Forall₂ (fun l l' => ∃ l₀, R l l₀ ∧ l' = { l₀ with number := l.number, file }) lines
      (numbered file k lines') := by
  induction h generalizing k with
  | nil => exact .nil
  | @cons l l' lines lines' hl _ ih =>
    rw [List.map_cons, List.length_cons, List.range'_succ] at hnumbers
    obtain ⟨hk, hrest⟩ := List.cons.inj hnumbers
    exact .cons ⟨l', hl, by rw [hk]⟩ (ih hrest)

namespace Assembly

variable {tree : FileTree} {origin : Origin} {text text' : String} {product : Product}

theorem exists_load_of_run (h : (run tree origin text).outcome = .ok product) :
    ∃ lines s, Import.load tree (Import.rootChain tree origin) {} origin text = .ok (lines, s) := by
  obtain ⟨S, s, hstream, -⟩ := run_eq_ok h
  obtain ⟨p, -, hp, -⟩ := stream_eq_ok hstream
  obtain ⟨lines, s, hload, -⟩ := prepare_eq_ok hp
  exact ⟨lines, s, hload⟩

/-- **Import statements of a source can change places.** -/
theorem run_importsMoved (hrun : (run tree origin text).outcome = .ok product)
    (hmoved : Text.ImportsMoved (Text.rows text) (Text.rows text')) :
    (run tree origin text').outcome = .ok product := by
  obtain ⟨lines, s, hload⟩ := exists_load_of_run hrun
  have hread := (Import.load_eq_ok hload).1
  have hnumbers := Line.numbers_of_readAll hread
  have hisRead := Line.isRead_of_readAll hread
  obtain ⟨lines', hisRead', hlines⟩ := hmoved.exists_lines hisRead
  have hread' := Line.readAll_of_isRead origin.name hisRead'
  have hlines' := Line.forall₂_numbered_of origin.name hlines hnumbers
  generalize Line.numbered origin.name 1 lines' = lines' at hread' hlines'
  -- all numbers stay, and so does what is said
  have hfollow : List.Forall₂ (fun l l' => l.statement = l'.statement ∧ l'.number = l.number ∧
      (l.isImport = false → l'.text = l.text)) lines lines' := by
    refine hlines'.imp ?_
    rintro l _ ⟨l₀, rfl | ⟨hl, hl₀⟩, rfl⟩
    · exact ⟨rfl, rfl, fun _ => rfl⟩
    · exact ⟨hl.trans hl₀.symm, rfl, fun hne => by simp [Line.isImport, hl] at hne⟩
  have hlast : Label.lastNumber lines' = Label.lastNumber lines := by
    refine Label.lastNumber_congr ?_
    rw [← List.forall₂_eq_eq_eq, List.forall₂_map_left_iff, List.forall₂_map_right_iff]
    exact hfollow.flip.imp fun _ _ h => h.2.1
  have htexts : ((lines.filter Line.isImport).map Line.text).Perm
      ((lines'.filter Line.isImport).map Line.text) := by
    rw [← Line.texts_of_isRead hisRead, ← Line.texts_of_isRead (Line.isRead_of_readAll hread'),
      Text.filterMap_importText?_kept, Text.filterMap_importText?_kept]
    exact hmoved.perm.filterMap _
  have hnonblank := Line.forall₂_nonblank (fun _ _ h => h.1) hfollow
  have hload' := Import.load_alike hload hread' (hnonblank.imp fun _ _ h => ⟨h.1, h.2.2⟩) htexts
  refine run_of_load_alike hrun hload hload' (hnonblank.imp fun l l' h => ⟨h.1, fun hl' => ?_⟩)
  rw [← hlast, ← hl', h.2.1]

/-- **Import statements commute and are isolated.**  Two of them leave a session with the same macros, labels,
warnings, import statements under way and open files in either order; what one of them brings depends on none but
the open files; and where a source is assembled, its import statements can change places. -/
theorem imports_independent (tree : FileTree) :
    (∀ left directory (c c₁ c₂ : Session) line line', (Session.add left tree directory line).run c = .ok () c₁ →
      (Session.add left tree directory line').run c₁ = .ok () c₂ →
      ∃ c₁', (Session.add left tree directory line').run c = .ok () c₁' ∧
        (Session.add left tree directory line).run c₁' = .ok () c₂) ∧
    (∀ left directory (c c' : Session) line, (Session.add left tree directory line).run c = .ok () c' →
      ∃ added, Session.Brings left tree c.chain directory line added) ∧
    ∀ origin text text' product, (run tree origin text).outcome = .ok product →
      Text.ImportsMoved (Text.rows text) (Text.rows text') → (run tree origin text').outcome = .ok product :=
  ⟨fun _ _ _ _ _ _ _ => Session.add_comm, fun _ _ _ _ _ => Session.exists_brings, fun _ _ _ _ => run_importsMoved⟩

/-- Two files that both import a third one. -/
def sharing : FileTree := Import.textTree
  [(["base.abcout"], "%macro spin 0\nagain:\n0, 0, again\n%endmacro\n"),
   (["left.abcout"], "@import * from base\n%macro twice 0\nspin\nspin\n%endmacro\n"),
   (["right.abcout"], "@import * from base\n%macro once 1\nspin\n1, 2, %0\n%endmacro\n")]

/-- A source with two import statements, and the same with the statements in each other's places. -/
def leftRight : String := "@import * from left\nstart:\ntwice\n@import * from right\nonce start\n"

def rightLeft : String := "@import * from right\nstart:\ntwice\n@import * from left\nonce start\n"

theorem importsMoved_leftRight : Text.ImportsMoved (Text.rows leftRight) (Text.rows rightLeft) := by
  have hrows : Text.rows leftRight = ["@import * from left".toList, "start:".toList, "twice".toList,
      "@import * from right".toList, "once start".toList, []] := by decide
  have hrows' : Text.rows rightLeft = ["@import * from right".toList, "start:".toList, "twice".toList,
      "@import * from left".toList, "once start".toList, []] := by decide
  have hleft : Source.isImport "@import * from left".toList = true := by decide +kernel
  have hright : Source.isImport "@import * from right".toList = true := by decide +kernel
  rw [hrows, hrows']
  exact ⟨by decide, .cons (.inr ⟨hleft, hright⟩) (.cons (.inl rfl) (.cons (.inl rfl) (.cons (.inr ⟨hright, hleft⟩)
    (.cons (.inl rfl) (.cons (.inl rfl) .nil)))))⟩

/-- The two statements, as they are read. -/
def leftFirst : Line := ⟨"@import * from left", 1, "[code]", .importing⟩

def rightSecond : Line := ⟨"@import * from right", 4, "[code]", .importing⟩

/-- A session that comes to them with a warning, and on behalf of an import statement. -/
def beforeImports : Session where
  warnings := [Label.sharedName leftFirst "start"]
  stack := [⟨"main.abcout", 7⟩]
  chain := Import.rootChain sharing {}

theorem imports_independent_sharing : ∃ c₁ c₂ c₁' added product,
    (Session.add (fun s _ => s) sharing "." leftFirst).run beforeImports = .ok () c₁ ∧
    (Session.add (fun s _ => s) sharing "." rightSecond).run c₁ = .ok () c₂ ∧
    (Session.add (fun s _ => s) sharing "." rightSecond).run beforeImports = .ok () c₁' ∧
    (Session.add (fun s _ => s) sharing "." leftFirst).run c₁' = .ok () c₂ ∧
    Session.Brings (fun s _ => s) sharing beforeImports.chain "." rightSecond added ∧
    product.program = [⟨0, 0, 0⟩, ⟨0, 0, 6⟩, ⟨0, 0, 12⟩, ⟨1, 2, 0⟩] ∧
    (run sharing {} leftRight).outcome = .ok product ∧ (run sharing {} rightLeft).outcome = .ok product := by
  have hdepth : (sharing.readable.filter (· ∉ Import.rootChain sharing {})).length < 4 := by decide +kernel
  have hprogram : (run sharing {} leftRight).outcome.toOption.map (·.program) =
      some [⟨0, 0, 0⟩, ⟨0, 0, 6⟩, ⟨0, 0, 12⟩, ⟨1, 2, 0⟩] := by
    rw [outcome_run, stream_eq, prepare_of_load (Import.loadWithin_eq (fun _ _ => .ok ([], {})) hdepth _ _ _).symm]
    decide +kernel
  obtain ⟨product, hrun, hprogram⟩ := Option.map_eq_some_iff.1 hprogram
  rw [toOption_eq_some] at hrun
  -- what the run has done with its two import statements
  obtain ⟨lines, s₂, hload⟩ := exists_load_of_run hrun
  obtain ⟨hread, hadd⟩ := Import.load_eq_ok hload
  have himports : (Line.readAll "[code]" leftRight).toOption.map (·.filter Line.isImport) =
      some [leftFirst, rightSecond] := by
    decide +kernel
  obtain ⟨lines', hread', himports⟩ := Option.map_eq_some_iff.1 himports
  obtain rfl : lines = lines' := Except.ok.inj (hread.symm.trans (toOption_eq_some.1 hread'))
  rw [himports, List.foldlM_cons] at hadd
  obtain ⟨s₁, hs₁, hadd⟩ := bind_eq_ok.1 hadd
  rw [List.foldlM_cons] at hadd
  obtain ⟨_, hs₂, hadd⟩ := bind_eq_ok.1 hadd
  cases hadd
  obtain ⟨hcomm, hbrings, hmoved⟩ := imports_independent sharing
  have hc₁ : (Session.add (fun s _ => s) sharing "." leftFirst).run beforeImports =
      .ok () (beforeImports.withSymbols s₁) := Session.run_add_eq_ok.2 ⟨s₁, hs₁, rfl⟩
  have hc₂ : (Session.add (fun s _ => s) sharing "." rightSecond).run (beforeImports.withSymbols s₁) =
      .ok () (beforeImports.withSymbols s₂) := Session.run_add_eq_ok.2 ⟨s₂, hs₂, rfl⟩
  obtain ⟨c₁', hc₁', hc₂'⟩ := hcomm _ _ _ _ _ _ _ hc₁ hc₂
  obtain ⟨added, hadded⟩ := hbrings _ _ _ _ _ hc₁'
  exact ⟨_, _, c₁', added, product, hc₁, hc₂, hc₁', hc₂', hadded, hprogram, hrun,
    hmoved _ _ _ _ hrun importsMoved_leftRight⟩

end Assembly

end Abcout
