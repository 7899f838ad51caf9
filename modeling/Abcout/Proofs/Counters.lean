import Abcout.Proofs.Provenance

/-!
# Abcout.Proofs.Counters — what the calls of a program are counted for

A call of the program is counted for its macro, and for each dependency of it as one expansion.  Dependencies are
names: they were read where the macro is defined, and are looked up where it is called.

* `MacroTable.Counted t t' name expanded`: the second table is the first one after a call of `name` that has been
  counted as an expansion for the macros `expanded`.
* `Scope.counted_countCall`: a call is counted for its macro and for the dependencies of its record.
* `Assembly.expand_counts_calls`: these are the macros that have a name that the definition calls, and when they
  are the ones that have been inlined.
-/

namespace Abcout

/-! ## Tables -/

namespace MacroTable

/-- A call of the macro `name` has been counted once for it as a call of the program, and once for each macro of
the table among `expanded` as an expansion. -/
structure Counted (t t' : MacroTable) (name : String) (expanded : String → Prop) : Prop where
  sameCode : t.SameCode t'
  topLevelCalls : ∀ (k : String) (m m' : Macro), t[k]? = some m → t'[k]? = some m' →
    m'.topLevelCalls = m.topLevelCalls + if k = name then 1 else 0
  counted : ∀ (k : String) (m m' : Macro), t[k]? = some m → t'[k]? = some m' → expanded k → m'.calls = m.calls + 1
  uncounted : ∀ (k : String) (m m' : Macro), t[k]? = some m → t'[k]? = some m' → ¬ expanded k → m'.calls = m.calls

variable {t t' : MacroTable} {name : String} {P Q : String → Prop}

/-- Counters tell for which macros a call has been counted. -/
theorem Counted.iff (h : t.Counted t' name P) : t.Counted t' name Q ↔ ∀ k ∈ t, (P k ↔ Q k) := by
  constructor
  · intro h' k hk
    obtain ⟨m, hm⟩ := mem_iff_exists_getElem?.1 hk
    obtain ⟨m', hm'⟩ := mem_iff_exists_getElem?.1 (h.sameCode.extends.mem hk)
    constructor
    · intro hP
      by_contra hQ
      have hone := h.counted k m m' hm hm' hP
      have hzero := h'.uncounted k m m' hm hm' hQ
      omega
    · intro hQ
      by_contra hP
      have hone := h'.counted k m m' hm hm' hQ
      have hzero := h.uncounted k m m' hm hm' hP
      omega
  · intro hiff
    have hmem : ∀ (k : String) (m : Macro), t[k]? = some m → (P k ↔ Q k) := fun k m hm =>
      hiff k (mem_iff_exists_getElem?.2 ⟨m, hm⟩)
    exact ⟨h.sameCode, h.topLevelCalls, fun k m m' hm hm' hQ => h.counted k m m' hm hm' ((hmem k m hm).2 hQ),
      fun k m m' hm hm' hQ => h.uncounted k m m' hm hm' fun hP => hQ ((hmem k m hm).1 hP)⟩

/-- Names without repetition are changed once each. -/
theorem getElem?_foldl_modify {names : List String} (hnodup : names.Nodup) (t : MacroTable) (k : String)
    (f : Macro → Macro) : (names.foldl (fun t name => t.modify name f) t)[k]? =
      if names.contains k then t[k]?.map f else t[k]? := by
  induction names generalizing t with
  | nil => simp
  | cons n names ih =>
    obtain ⟨hn, hnodup⟩ := List.nodup_cons.1 hnodup
    rw [List.foldl_cons, ih hnodup, getElem?_modify_name]
    by_cases hk : n = k
    · subst hk
      simp [hn]
    · simp [hk, Ne.symm hk]

end MacroTable

/-- **A call of the program is counted** for its macro and the dependencies of the record. -/
theorem Scope.counted_countCall {t : MacroTable} {name : String} {m : Macro} (hself : name ∉ m.dependencies) :
    t.Counted (Scope.program.countCall t name m) name fun k => k = name ∨ k ∈ m.dependencies := by
  have hget : ∀ k : String, (Scope.program.countCall t name m)[k]? = t[k]?.map fun r =>
      if k = name then r.countedTopLevel else if k ∈ m.dependencies then r.counted else r := by
    intro k
    have hcount : Scope.program.countCall t name m =
        m.dependencies.toList.foldl (fun t name => t.modify name Macro.counted)
        (t.modify name Macro.countedTopLevel) := rfl
    have hdep : m.dependencies.toList.contains k = true ↔ k ∈ m.dependencies := by
      rw [List.contains_iff_mem, Std.ExtTreeSet.mem_toList]
    rw [hcount, MacroTable.getElem?_foldl_modify (NameSet.nodup_toList _), getElem?_modify_name]
    by_cases hk : name = k
    · subst hk
      simp only [hdep, if_neg hself, if_true]
    · by_cases hmem : k ∈ m.dependencies
      · simp only [hdep, if_neg hk, if_neg (Ne.symm hk), if_pos hmem]
      · simp only [hdep, if_neg hk, if_neg (Ne.symm hk), if_neg hmem, Option.map_id']
  have hrecord : ∀ (k : String) (r r' : Macro), t[k]? = some r → (Scope.program.countCall t name m)[k]? = some r' →
      r' = if k = name then r.countedTopLevel else if k ∈ m.dependencies then r.counted else r := by
    intro k r r' hr hr'
    rw [hget, hr] at hr'
    exact (Option.some.inj hr').symm
  refine ⟨Scope.sameCode_countCall _ t name m, ?_, ?_, ?_⟩
  · intro k r r' hr hr'
    rw [hrecord k r r' hr hr']
    split_ifs <;> rfl
  · rintro k r r' hr hr' hk
    rw [hrecord k r r' hr hr']
    rcases hk with rfl | hdep
    · rw [if_pos rfl]
      rfl
    · have hne : k ≠ name := fun e => hself (e ▸ hdep)
      rw [if_neg hne, if_pos hdep]
      rfl
  · intro k r r' hr hr' hk
    obtain ⟨hne, hdep⟩ := not_or.1 hk
    rw [hrecord k r r' hr hr', if_neg hne, if_neg hdep]

/-! ## Calls -/

namespace Assembly

open Import (Input Inlined Recorded Homed)

variable {tree : FileTree} {origin : Origin} {text : String}

theorem eq_rootInput {chain : List Location} {origin' : Origin} {text' : String}
    (h : Import.Loading tree origin text .root chain origin' text') :
    ⟨chain, origin', text'⟩ = rootInput tree origin text := by
  cases h
  rfl

/-- **What a call of the program is counted for.**  In every state of a run each macro of the table belongs to a
definition, in the source itself or in a file that this imports, and its body contains the bodies of all macros
that have been inlined.  A call of `name` is counted as a call of the program for that macro alone, and as an
expansion for it and for the macros of the table that have a name that its definition calls.  Where the definition
stands, such a name stands for a macro that has been inlined.  In the table it can stand for another one, and
macros that have been inlined through others need not be called: a call is counted for the inlined macros if and
only if neither happens. -/
theorem expand_counts_calls {owner : Import.Owner} {s s' : Symbols} {site : Line} {name : String}
    {args : List Operand} {lines : List Line} (h : Context tree origin text owner s)
    (hexpand : s.expand .program site name args = .ok (lines, s')) :
    ∃ (i j : Input) (m : Macro), Import.Loading tree origin text owner i.chain i.origin i.text ∧
      (owner = .root → i = rootInput tree origin text) ∧ Homed tree i s.macros ∧
      i.definer? tree name = some j ∧ s.macros[name]? = some m ∧
      (∀ l x, Inlined tree j name l x → ∃ j' c, j'.node = l ∧ Recorded tree j' x c ∧ m.Contains c) ∧
      (∀ k, j.Calls name k → ∃ j', j.definer? tree k = some j' ∧ Inlined tree j name j'.node k) ∧
      s.macros.Counted s'.macros name (fun k => k = name ∨ j.Calls name k) ∧
      (s.macros.Counted s'.macros name
          (fun k => k = name ∨ ∃ j', i.definer? tree k = some j' ∧ Inlined tree j name j'.node k) ↔
        ∀ k ∈ s.macros, k ≠ name → ∀ j', i.definer? tree k = some j' →
          (j.Calls name k ↔ Inlined tree j name j'.node k)) := by
  obtain ⟨i, hloading, hhomed⟩ := h.exists_input
  obtain ⟨m, hm, -, -, rfl⟩ := Symbols.expand_eq_ok_iff.1 hexpand
  obtain ⟨j, hj, hrecorded⟩ := hhomed name m hm
  have hself : name ∉ m.dependencies := by
    rw [hrecorded.mem_dependencies_iff]
    exact hrecorded.not_calls_self
  have hcounted := Scope.counted_countCall (t := s.macros) hself
  simp only [hrecorded.mem_dependencies_iff] at hcounted
  refine ⟨i, j, m, hloading, ?_, hhomed, hj, hm, fun l x => hrecorded.exists_of_inlined, fun k hk => ?_, hcounted,
    hcounted.iff.trans ?_⟩
  · rintro rfl
    exact eq_rootInput hloading
  · obtain ⟨j', -, hj', -, -⟩ := hrecorded.exists_of_calls hk
    exact ⟨j', hj', .direct hk hj'⟩
  · refine forall₂_congr fun k hk => ?_
    obtain ⟨j', hj'⟩ := hhomed.exists_definer hk
    simp only [hj', Option.some.injEq, exists_eq_left', forall_eq']
    by_cases hkn : k = name
    · simp only [hkn, true_or, iff_self, ne_eq, not_true_eq_false, false_implies]
    · simp only [hkn, false_or, ne_eq, not_false_eq_true, forall_const]

/-! ## Chains of calls, and names that mean something else -/

/-- What a first call of the program does can be evaluated. -/
theorem exists_expansion {site : Line} {name : String} {args : List Operand} {P : Symbols → Symbols → Prop}
    [∀ s s', Decidable (P s s')] (h : ((prepare tree origin text).2.toOption.any fun p =>
      (p.blocks.foldlM Symbols.define p.symbols).toOption.any fun s =>
        (s.expand .program site name args).toOption.any fun r => P s r.2) = true) :
    ∃ s s' lines, Context tree origin text .root s ∧
      s.expand .program site name args = .ok (lines, s') ∧ P s s' := by
  obtain ⟨p, hp, h⟩ := (Option.any_eq_true _ _).1 h
  obtain ⟨s, hs, h⟩ := (Option.any_eq_true _ _).1 h
  obtain ⟨⟨lines, s'⟩, hexpand, h⟩ := (Option.any_eq_true _ _).1 h
  rw [toOption_eq_some] at hp hs hexpand
  exact ⟨s, s', lines, .expanding hp hs (List.nil_append _).symm rfl, hexpand, of_decide_eq_true h⟩

/-- Three macros, of which each one calls the one before. -/
def nested : String := "%macro a 0\n1, 1\n%endmacro\n%macro b 0\na\n%endmacro\n%macro c 0\nb\n%endmacro\nc\n"

/-- The call of the third one. -/
def nestedCall : Line := ⟨"c", 10, "[code]", .call "c" []⟩

/-- **A macro that is inlined through another one is not counted.** -/
theorem expand_misses_nested : ∃ s s' lines m m', Context {} {} nested .root s ∧
    s.expand .program nestedCall "c" [] = .ok (lines, s') ∧
    (rootInput {} {} nested).definer? {} "a" = some (rootInput {} {} nested) ∧
    Inlined {} (rootInput {} {} nested) "c" (rootInput {} {} nested).node "a" ∧
    s.macros["a"]? = some m ∧ s'.macros["a"]? = some m' ∧ m'.calls = m.calls := by
  have heval₀ : ((rootInput {} {} nested).definer? {} "a" = some (rootInput {} {} nested) ∧
      (rootInput {} {} nested).definer? {} "b" = some (rootInput {} {} nested)) ∧
      (rootInput {} {} nested).Calls "b" "a" ∧ (rootInput {} {} nested).Calls "c" "b" := by decide +kernel
  obtain ⟨⟨ha, hb⟩, hba, hcb⟩ := heval₀
  have hinlined : Inlined {} (rootInput {} {} nested) "c" (rootInput {} {} nested).node "a" :=
    .through hcb hb (.direct hba ha)
  have heval : ∃ s s' lines, Context {} {} nested .root s ∧ s.expand .program nestedCall "c" [] = .ok (lines, s') ∧
      s.macros["a"]?.map Macro.calls = some 1 ∧ s'.macros["a"]?.map Macro.calls = some 1 := by
    refine exists_expansion ?_
    rw [prepare_of_load (Import.load_eq _ _ _ _ _)]
    decide +kernel
  obtain ⟨s, s', lines, hcontext, hexpand, hbefore, hafter⟩ := heval
  obtain ⟨m, hm, hcalls⟩ := Option.map_eq_some_iff.1 hbefore
  obtain ⟨m', hm', hcalls'⟩ := Option.map_eq_some_iff.1 hafter
  exact ⟨s, s', lines, m, m', hcontext, hexpand, ha, hinlined, hm, hm', hcalls'.trans hcalls.symm⟩

/-- A file with a macro that calls one of another file. -/
def borrowing : FileTree := Import.textTree
  [(["lib.abcout"], "@import h from base\n%macro m 0\nh\n%endmacro\n"),
    (["base.abcout"], "%macro h 0\n1, 1\n%endmacro\n")]

/-- A source that imports the first of these, and has a macro of its own under the name of the second. -/
def namesake : String := "@import m from lib\n%macro h 0\n2, 2\n%endmacro\nm\n"

/-- The call of the imported macro. -/
def namesakeCall : Line := ⟨"m", 5, "[code]", .call "m" []⟩

/-- The macro of the source is counted, and has not been inlined. -/
theorem expand_counts_calls_namesake : ∃ s s' lines j, Context borrowing {} namesake .root s ∧
    s.expand .program namesakeCall "m" [] = .ok (lines, s') ∧
    (rootInput borrowing {} namesake).definer? borrowing "m" = some j ∧
    s.macros.Counted s'.macros "m" (fun k => k = "m" ∨ j.Calls "m" k) ∧
    (rootInput borrowing {} namesake).definer? borrowing "h" = some (rootInput borrowing {} namesake) ∧
    j.Calls "m" "h" ∧ ¬ Inlined borrowing j "m" (rootInput borrowing {} namesake).node "h" := by
  have heval : ∃ s s' lines, Context borrowing {} namesake .root s ∧
      s.expand .program namesakeCall "m" [] = .ok (lines, s') ∧ True := by
    have hdepth : (borrowing.readable.filter (· ∉ Import.rootChain borrowing {})).length < 3 := by decide +kernel
    refine exists_expansion ?_
    rw [prepare_of_load (Import.loadWithin_eq (fun _ _ => .ok ([], {})) hdepth _ _ _).symm]
    decide +kernel
  have hinputs : ((rootInput borrowing {} namesake).definer? borrowing "m").any (fun j =>
      (j.block? "m").map (fun b => Line.callees b.body) = some ["h"] ∧ (j.definer? borrowing "h").any fun j' =>
        j'.node ≠ none ∧ (j'.block? "h").map (fun b => Line.callees b.body) = some []) = true ∧
      (rootInput borrowing {} namesake).definer? borrowing "h" = some (rootInput borrowing {} namesake) ∧
      (rootInput borrowing {} namesake).node = none := by decide +kernel
  obtain ⟨s, s', lines, hcontext, hexpand, -⟩ := heval
  obtain ⟨i, j, -, -, hroot, -, hj, -, -, -, hcounted, -⟩ := expand_counts_calls hcontext hexpand
  obtain rfl := hroot rfl
  obtain ⟨hany, hh, hnode⟩ := hinputs
  rw [hj, Option.any_some, decide_eq_true_eq] at hany
  obtain ⟨hm, hany⟩ := hany
  obtain ⟨j', hj', hbase⟩ := (Option.any_eq_true _ _).1 hany
  obtain ⟨hnode', hh'⟩ := of_decide_eq_true hbase
  refine ⟨s, s', lines, j, hcontext, hexpand, hj, hcounted, hh, (Input.calls_iff hm).2 List.mem_cons_self, ?_⟩
  rw [hnode]
  -- all that is inlined is the macro of the last file
  have honly : ∀ l x, Inlined borrowing j "m" l x → l ≠ none := by
    intro l x hinlined
    cases hinlined with
    | direct hcall hk =>
      obtain rfl := List.mem_singleton.1 ((Input.calls_iff hm).1 hcall)
      cases hj'.symm.trans hk
      exact hnode'
    | through hcall hk hrest =>
      obtain rfl := List.mem_singleton.1 ((Input.calls_iff hm).1 hcall)
      cases hj'.symm.trans hk
      cases hrest with
      | direct hcall' _ => exact absurd ((Input.calls_iff hh').1 hcall') List.not_mem_nil
      | through hcall' _ _ => exact absurd ((Input.calls_iff hh').1 hcall') List.not_mem_nil
  exact fun hinlined => honly none "h" hinlined rfl

end Assembly

end Abcout
