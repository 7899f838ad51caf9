import Mathlib.Data.List.Perm.Basic
import Abcout.Proofs.Assembly

/-!
# Abcout.Proofs.Declarations — the labels that a stream declares

A name made of macro, label and number of the call can belong to two labels at once, so that the names of an
expansion are different only because each is compared with the labels that are there (`Scope.inUse_freshNames`).

* `MacroTable.Renames t name names`: `names` are new names for the local labels of a macro, one for each.
* `Symbols.declared_expandAll`: a program that is expanded declares its own labels, and such names for each of its
  calls.
* `Assembly.stream_declares_once`: no two of all these names are alike, and they are the labels of the table.
-/

namespace Abcout

/-- The macros that are called by lines, in order. -/
def Line.callees (lines : List Line) : List String :=
  lines.filterMap fun l => match l.statement with
    | .call name _ => some name
    | _ => none

namespace Line

variable {l : Line} (rest : List Line)

theorem callees_cons_call {name : String} {args : List Operand} (h : l.statement = .call name args) :
    callees (l :: rest) = name :: callees rest := by
  simp [callees, h]

theorem callees_cons_of_ne (h : ∀ name args, l.statement ≠ .call name args) :
    callees (l :: rest) = callees rest := by
  unfold callees
  rw [List.filterMap_cons]
  split
  · rfl
  · rename_i hsome
    split at hsome
    · rename_i name args hl
      exact absurd hl (h name args)
    · cases hsome

end Line

/-- `names` are reserved names for the local labels of the macro `name`, one for each. -/
def MacroTable.Renames (t : MacroTable) (name : String) (names : List String) : Prop :=
  ∃ (m : Macro) (r : Renaming), t[name]? = some m ∧ names = m.locals.toList.map r.apply ∧ ∀ x ∈ names, Reserved x

theorem NameSet.nodup_toList (s : NameSet) : s.toList.Nodup :=
  s.distinct_toList.imp fun h e => h (Std.LawfulEqCmp.compare_eq_iff_eq.2 e)

/-- A body declares its local labels, in some order. -/
theorem Macro.WellFormed.declared_perm {m : Macro} (h : m.WellFormed) :
    (Line.declared m.body).Perm m.locals.toList := by
  refine (List.perm_ext_iff_of_nodup h.nodup (NameSet.nodup_toList m.locals)).2 fun x => ?_
  rw [Std.ExtTreeSet.mem_toList, h.mem_locals]

namespace Symbols

variable {t : MacroTable} {s s' : Symbols} {line : Line} {lines : List Line}

/-- A call of the program declares one name for each local label of its macro. -/
theorem declared_call {name : String} {args : List Operand} (ht : t.All Macro.WellFormed)
    (hs : t.SameCode s.macros) (hl : line.statement = .call name args) (h : s.expandLine line = .ok (lines, s')) :
    ∃ names, t.Renames name names ∧ (Line.declared lines).Perm names := by
  obtain ⟨m, hm, rfl⟩ := expandLine_call hl h
  -- the record at the call differs from that of the table in counters only
  obtain ⟨m₀, hm₀, e⟩ := hs.exists_of_getElem? hm
  have hwf : m.WellFormed := (ht name m₀ hm₀).of_uncounted e
  have hlocals : m₀.locals = m.locals := Macro.locals_eq_of_uncounted e
  set r := Scope.program.freshNames s.labels name m
  refine ⟨m.locals.toList.map r.apply, ⟨m₀, r, hm₀, by rw [hlocals], fun x hx => ?_⟩, ?_⟩
  · obtain ⟨l, hmem, rfl⟩ := List.mem_map.1 hx
    exact Scope.freshNames_reserved (Std.ExtTreeSet.mem_toList.1 hmem)
  · rw [declared_instantiate]
    exact hwf.declared_perm.map r.apply

/-- **Run**: the labels of the lines that a program stands for are its own, and new ones for each of its calls. -/
theorem declared_expandAll {program : List Line} (ht : t.All Macro.WellFormed) (hs : t.SameCode s.macros)
    (h : s.expandAll program = .ok (lines, s')) :
    ∃ fresh, List.Forall₂ t.Renames (Line.callees program) fresh ∧
      (Line.declared lines).Perm (Line.declared program ++ fresh.flatten) := by
  induction program generalizing s lines with
  | nil =>
    cases h
    exact ⟨[], .nil, .nil⟩
  | cons line rest ih =>
    obtain ⟨now, s₁, later, hnow, hlater, rfl⟩ := expandAll_cons_eq_ok.1 h
    obtain ⟨fresh, hfresh, hperm⟩ := ih (hs.trans (expandLine_keeps hnow).1) hlater
    rw [Line.declared_append]
    by_cases hcall : ∃ name args, line.statement = .call name args
    · obtain ⟨name, args, hl⟩ := hcall
      obtain ⟨names, hnames, hdeclared⟩ := declared_call ht hs hl hnow
      rw [Line.callees_cons_call rest hl, Line.declared_cons_of_ne rest (by simp [hl])]
      refine ⟨names :: fresh, .cons hnames hfresh, ?_⟩
      calc (Line.declared now ++ Line.declared later).Perm (names ++ (Line.declared rest ++ fresh.flatten)) :=
            hdeclared.append hperm
        _ = (names ++ Line.declared rest) ++ fresh.flatten := (List.append_assoc _ _ _).symm
        _ |>.Perm ((Line.declared rest ++ names) ++ fresh.flatten) := List.perm_append_comm.append_right _
        _ = Line.declared rest ++ (names :: fresh).flatten := by rw [List.append_assoc, List.flatten_cons]
    · have hne : ∀ name args, line.statement ≠ .call name args := fun name args hl => hcall ⟨name, args, hl⟩
      -- any other line declares what it declares in the program
      have hline : Line.declared now ++ Line.declared rest = Line.declared (line :: rest) := by
        rcases expandLine_eq_ok hnow with ⟨hl, rfl, -⟩ | ⟨-, rfl, -⟩ | ⟨-, -, -, rfl, -⟩ | ⟨name, args, hl, -⟩
        · rw [Line.declared_cons_of_ne rest (by rcases hl with hl | hl <;> simp [hl])]
          rfl
        · rw [← Line.declared_append, List.singleton_append]
        · rw [← Line.declared_append, List.singleton_append]
        · exact absurd hl (hne name args)
      rw [Line.callees_cons_of_ne rest hne, ← hline]
      refine ⟨fresh, hfresh, ?_⟩
      rw [List.append_assoc]
      exact hperm.append_left _

end Symbols

namespace Assembly

variable {tree : FileTree} {origin : Origin} {text : String} {S : List Line} {s : Symbols}

/-- **A stream declares every label once, and the table knows these labels and no others.**  They are the labels of
the program, and for each call of the program one new name for each local label of its macro. -/
theorem stream_declares_once (h : stream tree origin text = .ok (S, s)) :
    (Line.declared S).Nodup ∧ (∀ x, x ∈ s.labels ↔ x ∈ Line.declared S) ∧
      ∃ p s₀ fresh, (prepare tree origin text).2 = .ok p ∧ p.blocks.foldlM Symbols.define p.symbols = .ok s₀ ∧
        s₀.expandAll p.program = .ok (S, s) ∧ List.Forall₂ s₀.macros.Renames (Line.callees p.program) fresh ∧
        (Line.declared S).Perm (Line.declared p.program ++ fresh.flatten) := by
  have hS := stream_expanding h
  obtain ⟨p, s₀, hp, hs₀, hexp⟩ := stream_eq_ok h
  obtain ⟨fresh, hfresh, hperm⟩ := Symbols.declared_expandAll (prepare_expanding hp hs₀).macros (.refl _) hexp
  refine ⟨by simpa using hS.nodup, fun x => ?_, p, s₀, fresh, hp, hs₀, hexp, hfresh, hperm⟩
  simpa using hS.mem_labels (x := x)

/-- Two macros whose labels would get one name, and a second call of the first. -/
def collision : String :=
  "%macro a 0\nb_c:\n0, 0, b_c\n%endmacro\n%macro a_b 0\nc:\n0, 0, c\n%endmacro\nstart:\na\na_b\na\n1, 1\n"

theorem stream_declares_once_collision : ∃ S s, stream {} {} collision = .ok (S, s) ∧
    Line.declared S = ["start", "Ma_b_c_1", "Ma_b_c_1_1", "Ma_b_c_2"] ∧ (Line.declared S).Nodup ∧
    (∀ x, x ∈ s.labels ↔ x ∈ ["start", "Ma_b_c_1", "Ma_b_c_1_1", "Ma_b_c_2"]) ∧
    ∃ fresh : List (List String), (Line.declared S).Perm (["start"] ++ fresh.flatten) ∧ fresh.length = 3 := by
  have heval : ((stream {} {} collision).toOption.map fun r => Line.declared r.1) =
        some ["start", "Ma_b_c_1", "Ma_b_c_1_1", "Ma_b_c_2"] ∧
      ((prepare {} {} collision).2.toOption.map fun p => (Line.declared p.program, Line.callees p.program)) =
        some (["start"], ["a", "a_b", "a"]) := by
    rw [stream_eq, prepare_of_load (Import.load_eq _ _ _ _ _)]
    decide +kernel
  obtain ⟨⟨S, s⟩, hstream, hdeclared⟩ := Option.map_eq_some_iff.1 heval.1
  rw [toOption_eq_some] at hstream
  obtain ⟨hnodup, hmem, p, s₀, fresh, hp, -, -, hfresh, hperm⟩ := stream_declares_once hstream
  have hprogram := heval.2
  rw [hp] at hprogram
  obtain ⟨hroot, hcallees⟩ := Prod.mk.inj (Option.some.inj hprogram)
  refine ⟨S, s, hstream, hdeclared, hnodup, fun x => ?_, fresh, hroot ▸ hperm, ?_⟩
  · rw [hmem x]
    exact hdeclared ▸ Iff.rfl
  · rw [← hfresh.length_eq, hcallees]
    rfl

end Assembly

end Abcout
