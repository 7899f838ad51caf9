import Abcout.CommandLine
import Abcout.Proofs.Disassembly
import Abcout.Proofs.ImportGraph

/-!
# Abcout.Proofs.Commands — the files that a command leaves

A path that can be written is looked up in the new tree as it was in the old one: the directories on its way stay
what they are, as the file that is written was none of them (`FileTree.locate_write`).  So what is written is read
back, and nothing else has changed.

`CommandLine.run_keeps_or_writes_image`: a command that fails changes nothing; one that assembles leaves an image,
and listing that image gives a source of the same image.
-/

namespace Abcout

/-! ## Writing a file -/

namespace FileTree

variable {t : FileTree} {l d : Location} {e : Entry}

theorem get?_insert_self (hl : t.isDirectory l = false) (e : Entry) : (t.insert l e).get? l = some e := by
  have habove : l.isPrefixOf t.workingDirectory = false := by
    rw [Bool.eq_false_iff]
    intro habove
    rw [isDirectory, get?, if_pos habove] at hl
    cases hl
  simp [get?, insert, habove]

theorem get?_insert_of_ne (t : FileTree) {l l' : Location} (e : Entry) (h : l' ≠ l) :
    (t.insert l e).get? l' = t.get? l' := by
  have hne : (l' == l) = false := beq_eq_false_iff_ne.2 h
  have hlookup : (t.insert l e).entries.lookup l' = t.entries.lookup l' := by
    unfold insert
    rw [List.lookup_cons, hne]
    induction t.entries with
    | nil => rfl
    | cons entry entries ih =>
      obtain ⟨m, e'⟩ := entry
      by_cases hm : m = l
      · -- an entry that is dropped is none of `l'`
        rw [List.filter_cons_of_neg (by simp [hm]), List.lookup_cons, hm, hne]
        exact ih
      · rw [List.filter_cons_of_pos (by simp [hm]), List.lookup_cons, List.lookup_cons]
        cases l' == m with
        | true => rfl
        | false => exact ih
  unfold get?
  rw [hlookup]
  rfl

/-- A file that is written where no directory is leaves all directories. -/
theorem isDirectory_insert (hl : t.isDirectory l = false) (h : t.isDirectory d = true) :
    (t.insert l e).isDirectory d = true := by
  have hne : d ≠ l := by
    rintro rfl
    rw [hl] at h
    cases h
  unfold isDirectory at h ⊢
  rw [get?_insert_of_ne t e hne]
  cases hget : t.get? d with
  | some entry =>
    rw [hget] at h
    cases entry with
    | directory => rfl
    | file bytes => cases h
  | none =>
    simp only [hget, List.any_eq_true] at h ⊢
    obtain ⟨⟨m, e'⟩, hmem, hm⟩ := h
    by_cases hml : m = l
    · exact ⟨(l, e), List.mem_cons_self, hml ▸ hm⟩
    · exact ⟨(m, e'), List.mem_cons_of_mem _ (List.mem_filter.2 ⟨hmem, by simpa using hml⟩), hm⟩

theorem contains_insert (hl : t.isDirectory l = false) (h : t.contains d = true) :
    (t.insert l e).contains d = true := by
  unfold contains at h ⊢
  by_cases hd : d = l
  · rw [hd, get?_insert_self hl]
    rfl
  · rw [get?_insert_of_ne t e hd]
    rw [Bool.or_eq_true] at h ⊢
    exact h.imp_right (isDirectory_insert hl)

/-- **Step**: one part of a path leads where it led before. -/
theorem enter_insert (hl : t.isDirectory l = false) {part : String} {d' : Location} (h : t.enter d part = .ok d') :
    (t.insert l e).enter d part = .ok d' := by
  unfold enter at h ⊢
  split_ifs at h with hdir hidle hup hlong hcontains
  all_goals rw [if_neg (by simp [isDirectory_insert hl (by simpa using hdir)])]
  · rw [if_pos hidle]
    exact h
  · rw [if_neg hidle, if_pos hup]
    exact h
  · rw [if_neg hidle, if_neg hup, if_neg hlong, if_pos (contains_insert hl hcontains)]
    exact h

/-- **Run**: so do all its parts. -/
theorem foldlM_enter_insert (hl : t.isDirectory l = false) {parts : List String} {d' : Location}
    (h : parts.foldlM t.enter d = .ok d') : parts.foldlM (t.insert l e).enter d = .ok d' := by
  obtain ⟨_, hfold, rfl⟩ := foldlM_simulates (· = ·) (· = ·)
    (fun _ _ _ _ c hd hpart hstep => ⟨c, hd ▸ hpart ▸ enter_insert hl hstep, rfl⟩)
    (List.forall₂_same.2 fun _ _ => rfl) rfl h
  exact hfold

/-- **All that is asked of a path to be written**: directories, and behind them a name that is none. -/
theorem locateNew_eq_ok {path : String} (h : t.locateNew path = .ok l) :
    ∃ above name directory, parts path = .ok (above ++ [name]) ∧
      above.foldlM t.enter (Location.base t.workingDirectory path) = .ok directory ∧
      t.isDirectory directory = true ∧ name ≠ "" ∧ name ≠ "." ∧ name ≠ ".." ∧ name.utf8ByteSize ≤ maxNameBytes ∧
        t.isDirectory l = false ∧ l = directory ++ [name] := by
  unfold locateNew at h
  obtain ⟨written, hwritten, h⟩ := bind_eq_ok.1 h
  cases hdrop : written.reverse.dropWhile (· == "") with
  | nil => simp [hdrop] at h
  | cons name above =>
    simp only [hdrop] at h
    obtain ⟨directory, hdirectory, h⟩ := bind_eq_ok.1 h
    split_ifs at h with hdir hname hlong hisdir
    cases h
    simp only [Bool.or_eq_true, decide_eq_true_eq, not_or] at hname
    obtain ⟨⟨hdot, hup⟩, hlast⟩ := hname
    have hempty : name ≠ "" := by
      have hhead := List.head?_dropWhile_not (· == "") written.reverse
      rw [hdrop] at hhead
      simpa using hhead
    -- nothing was dropped, as the path does not end in a slash
    have hkeep : written.reverse = name :: above := by
      rw [← hdrop]
      cases hrev : written.reverse with
      | nil => rfl
      | cons last before =>
        have hne : last ≠ "" := by
          rintro rfl
          rw [List.reverse_eq_cons_iff] at hrev
          exact hlast (by simp [hrev])
        rw [List.dropWhile_cons_of_neg (by simpa using hne)]
    have hsplit : written = above.reverse ++ [name] := by
      rw [← List.reverse_cons, ← hkeep, List.reverse_reverse]
    exact ⟨above.reverse, name, directory, hsplit ▸ hwritten, hdirectory, by simpa using hdir, hempty, hdot, hup,
      Nat.le_of_not_lt hlong, by simpa using hisdir, rfl⟩

/-- **A path that was written** leads to what was written there, where no directory was. -/
theorem locate_write {t' : FileTree} {path : String} {bytes : List UInt8} (h : t.write path bytes = .ok t') :
    ∃ l, t' = t.insert l (.file bytes) ∧ t.isDirectory l = false ∧ t'.locate path = .ok l := by
  obtain ⟨l, hl, h⟩ := bind_eq_ok.1 h
  cases pure_eq_ok.1 h
  obtain ⟨above, name, directory, hparts, habove, hdir, hempty, hdot, hup, hlong, hnew, rfl⟩ := locateNew_eq_ok hl
  have hname : (t.insert (directory ++ [name]) (.file bytes)).enter directory name =
      .ok (directory ++ [name]) := by
    have hcontains : (t.insert (directory ++ [name]) (.file bytes)).contains (directory ++ [name]) = true := by
      rw [contains, get?_insert_self hnew]
      rfl
    unfold enter
    rw [if_neg (by simp [isDirectory_insert hnew hdir]), if_neg (by simp [hempty, hdot]), if_neg hup,
      if_neg (Nat.not_lt.2 hlong), if_pos hcontains]
  refine ⟨_, rfl, hnew, ?_⟩
  unfold locate
  rw [hparts]
  refine bind_eq_ok.2 ⟨_, rfl, ?_⟩
  rw [List.foldlM_append]
  refine bind_eq_ok.2 ⟨directory, foldlM_enter_insert hnew habove, ?_⟩
  rw [List.foldlM_cons, hname]
  rfl

theorem read_of_locate {path : String} {bytes : List UInt8} (h : t.locate path = .ok l)
    (hget : t.get? l = some (.file bytes)) : t.read path = .ok bytes := by
  unfold read
  refine bind_eq_ok.2 ⟨l, h, ?_⟩
  simp only [hget]

end FileTree

/-! ## Commands -/

namespace CommandLine

variable {files : FileTree} {args rest : List String}

/-- The path for the image, among the arguments from the input on: what stands behind `-o`, or else `rom.bin`. -/
def Output (rest : List String) (output : String) : Prop :=
  (∃ input more, rest = input :: "-o" :: output :: more) ∨
    (∀ input path more, rest ≠ input :: "-o" :: path :: more) ∧ output = "rom.bin"

theorem output_outputPath (input : String) (rest : List String) : Output (input :: rest) (outputPath rest) := by
  unfold outputPath
  split
  · exact .inl ⟨input, _, rfl⟩
  · rename_i hother
    refine .inr ⟨fun input' path more h => ?_, rfl⟩
    exact hother path more (List.cons.inj h).2

/-- No flag for more logging is left among the arguments that a command gets. -/
theorem isVerbosity_outputPath (h : ∀ arg ∈ rest, isVerbosity arg = false) :
    isVerbosity (outputPath rest) = false := by
  unfold outputPath
  split
  · exact h _ (by simp)
  · decide

/-- How an assembly ends that has written its image. -/
def assembled (written : FileTree) (output : String) (r : Run Fault) (product : Product) : Ending :=
  { code := 0
    errors := ["assembled " ++ product.program.length.repr ++ " instructions -> " ++ output]
    warnings := r.warnings
    files := written }

theorem assembleFile_of_run {input output : String} {f : files.TextFile} {product : Product} {written : FileTree}
    (hf : files.textFile? input = some f)
    (hrun : (Assembly.run files (.ofPath input) f.text).outcome = .ok product)
    (hwrite : files.write output product.image = .ok written) :
    assembleFile files input output =
      assembled written output (Assembly.run files (.ofPath input) f.text) product := by
  simp [assembleFile, Assembly.runFile, hf, hrun, hwrite, Except.mapError, assembled]

/-- A file that is assembled has its image written, or nothing changes. -/
theorem assembleFile_cases (files : FileTree) (input output : String) :
    (assembleFile files input output).code = 1 ∧ (assembleFile files input output).files = files ∨
      ∃ product written, ∃ f : files.TextFile, files.textFile? input = some f ∧
        (Assembly.run files (.ofPath input) f.text).outcome = .ok product ∧
        files.write output product.image = .ok written ∧
        assembleFile files input output =
          assembled written output (Assembly.run files (.ofPath input) f.text) product := by
  cases hf : files.textFile? input with
  | none =>
    left
    simp [assembleFile, Assembly.runFile, hf]
  | some f =>
    cases hrun : (Assembly.run files (.ofPath input) f.text).outcome with
    | error fault =>
      left
      simp [assembleFile, Assembly.runFile, hf, hrun, Except.mapError]
    | ok product =>
      cases hwrite : files.write output product.image with
      | error e =>
        left
        simp [assembleFile, Assembly.runFile, hf, hrun, hwrite, Except.mapError]
      | ok written => exact .inr ⟨product, written, f, rfl, hrun, hwrite, assembleFile_of_run hf hrun hwrite⟩

/-- **All that an assembling command does**: it fails and changes nothing, or it assembles its input and writes the
image to its output. -/
theorem assemble_cases (files : FileTree) (rest : List String) :
    (assemble files rest).code = 1 ∧ (assemble files rest).files = files ∨
      ∃ input more product written, ∃ f : files.TextFile, rest = input :: more ∧
        (Assembly.run files (.ofPath input) f.text).outcome = .ok product ∧
        files.write (outputPath more) product.image = .ok written ∧
        assemble files rest = assembled written (outputPath more)
        (Assembly.run files (.ofPath input) f.text) product := by
  cases rest with
  | nil => exact .inl ⟨rfl, rfl⟩
  | cons input more =>
    rw [assemble]
    split_ifs with hformat
    · rcases assembleFile_cases files input (outputPath more) with hfail |
        ⟨product, written, f, -, hrun, hwrite, he⟩
      · exact .inl hfail
      · exact .inr ⟨input, more, product, written, f, rfl, hrun, hwrite, he⟩
    · exact .inl ⟨rfl, rfl⟩

theorem run_assemble (h : args.filter (!isVerbosity ·) = "assemble" :: rest) :
    run files args = assemble files rest := by
  simp only [run, h]

/-- No other command changes a file. -/
theorem files_run_of_ne (h : ∀ rest, args.filter (!isVerbosity ·) ≠ "assemble" :: rest) :
    (run files args).files = files := by
  unfold run
  split
  · rfl
  · rename_i rest hargs
    exact absurd hargs (h rest)
  · unfold disassemble
    split
    · rfl
    · split
      · rfl
      · split <;> rfl
  · split_ifs <;> rfl

/-- A command that fails changes no file. -/
theorem files_run_of_failure (hcode : (run files args).code ≠ 0) : (run files args).files = files := by
  by_cases hargs : ∃ rest, args.filter (!isVerbosity ·) = "assemble" :: rest
  · obtain ⟨rest, hargs⟩ := hargs
    rw [run_assemble hargs] at hcode ⊢
    rcases assemble_cases files rest with ⟨-, hfiles⟩ | ⟨_, _, _, _, _, -, -, -, he⟩
    · exact hfiles
    · exact absurd (congrArg Ending.code he) hcode
  · exact files_run_of_ne fun rest h => hargs ⟨rest, h⟩

/-- An image that can be read is listed. -/
theorem run_disassemble {input listing : String} {image : List UInt8} (hinput : isVerbosity input = false)
    (hread : files.read input = .ok image) (hlisting : Program.disassemble image = .ok listing) :
    run files ["disassemble", input] = { code := 0, output := listing, files } := by
  have hargs : ["disassemble", input].filter (!isVerbosity ·) = ["disassemble", input] := by
    rw [List.filter_cons_of_pos (by decide), List.filter_cons_of_pos (by simp [hinput]), List.filter_nil]
  simp only [run, hargs, disassemble, hread, hlisting]

/-- **A command that fails changes no file, and an assembly leaves an image that its listing leads back to.**  The
image goes to one path only, it is listed with as many lines as instructions were reported, and its listing
assembles to it.  That nothing is written in part rests on `FileTree.write`, which takes a write to be all or
nothing. -/
theorem run_keeps_or_writes_image (files : FileTree) (args : List String) :
    ((run files args).code ≠ 0 → (run files args).files = files) ∧
    ∀ rest, args.filter (!isVerbosity ·) = "assemble" :: rest → (run files args).code = 0 →
      ∃ output l image n listing, Output rest output ∧
        (run files args).errors = ["assembled " ++ Nat.repr n ++ " instructions -> " ++ output] ∧
        (run files args).files.locate output = .ok l ∧
        (run files args).files.get? l = some (.file image) ∧ image.length = 32768 ∧
        (∀ l', l' ≠ l → (run files args).files.get? l' = files.get? l') ∧
        run (run files args).files ["disassemble", output] =
          { code := 0, output := listing, files := (run files args).files } ∧
        (Text.lines listing.toList).length = n ∧
        ∀ tree origin, ∃ product, (Assembly.run tree origin listing).outcome = .ok product ∧
          product.image = image := by
  constructor
  · exact files_run_of_failure
  · intro rest hargs hcode
    rw [run_assemble hargs] at hcode ⊢
    rcases assemble_cases files rest with ⟨hfail, -⟩ | ⟨input, more, product, written, f, rfl, hrun, hwrite, he⟩
    · rw [hcode] at hfail
      cases hfail
    · obtain ⟨l, rfl, hnew, hlocate⟩ := FileTree.locate_write hwrite
      have hget := FileTree.get?_insert_self hnew (.file product.image)
      have hflag : isVerbosity (outputPath more) = false := by
        refine isVerbosity_outputPath fun arg harg => ?_
        have hmem : arg ∈ args.filter (!isVerbosity ·) := by
          rw [hargs]
          exact List.mem_cons_of_mem _ (List.mem_cons_of_mem _ harg)
        simpa using (List.mem_filter.1 hmem).2
      obtain ⟨himage, hfits⟩ := Assembly.image_eq_of_run hrun
      have hlisting : Program.disassemble product.image = .ok product.program.listing :=
        map_eq_ok.2 ⟨_, Assembly.decode_of_run hrun, rfl⟩
      rw [he]
      refine ⟨outputPath more, l, product.image, product.program.length, product.program.listing,
        output_outputPath input more, rfl, hlocate, hget, ?_, fun l' hl' => FileTree.get?_insert_of_ne files _ hl',
        run_disassemble hflag (FileTree.read_of_locate hlocate hget) hlisting, ?_, fun tree origin => ?_⟩
      · rw [himage]
        exact Program.length_image hfits
      · rw [Program.lines_listing, List.length_map]
      · have hwritable : ∀ i ∈ product.program, i.Writable ∧ i.c.toNat % 6 = 0 := by
          intro i hi
          obtain ⟨ha, hb, hc, h6⟩ := Assembly.bounds_of_run hrun i hi
          exact ⟨⟨ha, hb, Nat.le_succ_of_le hc⟩, h6⟩
        exact ⟨_, (Assembly.run_listing hfits).2 ⟨hwritable, rfl⟩, himage.symm⟩

/-- A directory with one source. -/
def twoCallsFile : FileTree := Import.textTree [(["main.abcout"], Assembly.twoCalls)]

theorem code_assemble_twoCallsFile :
    (run twoCallsFile ["assemble", "-v", "/home/main.abcout", "-o", "../out.bin"]).code = 0 := by
  have hfile : ((twoCallsFile.textFile? "/home/main.abcout").any fun f => f.text = Assembly.twoCalls) = true := by
    decide +kernel
  obtain ⟨f, hf, htext⟩ := (Option.any_eq_true _ _).1 hfile
  have hrun : ((Assembly.run twoCallsFile (.ofPath "/home/main.abcout")
      Assembly.twoCalls).outcome.toOption.map (·.program)) = some Assembly.twoCallsProgram := by
    rw [Assembly.outcome_run, Assembly.stream_eq, Assembly.prepare_of_load (Import.load_eq _ _ _ _ _)]
    decide +kernel
  obtain ⟨product, hproduct, -⟩ := Option.map_eq_some_iff.1 hrun
  rw [toOption_eq_some, ← of_decide_eq_true htext] at hproduct
  have hnew : (twoCallsFile.locateNew "../out.bin").toOption = some ["out.bin"] := by decide +kernel
  have hwrite : twoCallsFile.write "../out.bin" product.image =
      .ok (twoCallsFile.insert ["out.bin"] (.file product.image)) :=
    bind_eq_ok.2 ⟨_, toOption_eq_some.1 hnew, rfl⟩
  have hargs : ["assemble", "-v", "/home/main.abcout", "-o", "../out.bin"].filter (!isVerbosity ·) =
      ["assemble", "/home/main.abcout", "-o", "../out.bin"] := by decide
  have hassemble : assemble twoCallsFile ["/home/main.abcout", "-o", "../out.bin"] =
      assembleFile twoCallsFile "/home/main.abcout" "../out.bin" := by
    rw [assemble, if_pos (by decide), outputPath]
  rw [run_assemble hargs, hassemble, assembleFile_of_run hf hproduct hwrite]
  rfl

/-- The source is assembled to a file above the working directory, with a flag in between; into a directory that
does not exist it is not. -/
theorem run_keeps_or_writes_image_twoCalls :
    (run twoCallsFile ["assemble", "/home/main.abcout", "-o", "/gone/out.bin"]).code ≠ 0 ∧
    (run twoCallsFile ["assemble", "/home/main.abcout", "-o", "/gone/out.bin"]).files = twoCallsFile ∧
    ∃ ending l image n listing,
      run twoCallsFile ["assemble", "-v", "/home/main.abcout", "-o", "../out.bin"] = ending ∧ ending.code = 0 ∧
      ending.errors = ["assembled " ++ Nat.repr n ++ " instructions -> " ++ "../out.bin"] ∧
      ending.files.locate "../out.bin" = .ok l ∧ ending.files.get? l = some (.file image) ∧ image.length = 32768 ∧
      run ending.files ["disassemble", "../out.bin"] = { code := 0, output := listing, files := ending.files } ∧
      (Text.lines listing.toList).length = n ∧
      ∃ product, (Assembly.run {} {} listing).outcome = .ok product ∧ product.image = image := by
  have hgone : (run twoCallsFile ["assemble", "/home/main.abcout", "-o", "/gone/out.bin"]).code ≠ 0 := by
    have hargs : ["assemble", "/home/main.abcout", "-o", "/gone/out.bin"].filter (!isVerbosity ·) =
        ["assemble", "/home/main.abcout", "-o", "/gone/out.bin"] := by decide
    have hnew : (twoCallsFile.locateNew "/gone/out.bin").toOption = none := by decide +kernel
    rw [run_assemble hargs]
    rcases assemble_cases twoCallsFile ["/home/main.abcout", "-o", "/gone/out.bin"] with
      ⟨hfail, -⟩ | ⟨input, more, product, written, f, hrest, -, hwrite, -⟩
    · simp [hfail]
    · cases hrest
      obtain ⟨l, hl, -⟩ := bind_eq_ok.1 hwrite
      have hsome := toOption_eq_some.2 hl
      exact absurd (hnew.symm.trans hsome) (by simp)
  refine ⟨hgone, (run_keeps_or_writes_image twoCallsFile _).1 hgone, ?_⟩
  obtain ⟨output, l, image, n, listing, houtput, herrors, hlocate, hget, hlength, -, hlist, hlines, hagain⟩ :=
    (run_keeps_or_writes_image twoCallsFile _).2 ["/home/main.abcout", "-o", "../out.bin"]
    (by decide) code_assemble_twoCallsFile
  have hout : output = "../out.bin" := by
    rcases houtput with ⟨input, more, he⟩ | ⟨hnone, -⟩
    · cases he
      rfl
    · exact absurd rfl (hnone _ _ _)
  rw [hout] at herrors hlocate hlist
  exact ⟨_, l, image, n, listing, rfl, code_assemble_twoCallsFile, herrors, hlocate, hget, hlength, hlist, hlines,
    hagain {} {}⟩

end CommandLine

end Abcout
