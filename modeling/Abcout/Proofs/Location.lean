import Mathlib.Data.List.Dedup
import Mathlib.Data.List.TakeWhile
import Abcout.File.Tree
import Abcout.Import.Clause
import Abcout.Proofs.Outcome

/-!
# Abcout.Proofs.Location — a path means what its parts lead to

A path is looked up part by part (`FileTree.walk`), from the root or from the working directory.  Joining a
directory and a relative path joins their parts (`Path.parts_join`), and the parent of a path has the parts before
the last one, up to parts that carry no meaning (`Path.parent?_spec`).  So whatever way a file is spelled, relative
paths behind its parent are looked up from the one directory that the file is in (`FileTree.locate_join_parent`).
-/

namespace Abcout

/-! ## Parts -/

namespace Path

theorem notMem_of_mem_splitOn {c : Char} {s part : List Char} (h : part ∈ s.splitOn c) : c ∉ part := by
  induction s generalizing part with
  | nil =>
    rw [List.splitOn_nil, List.mem_singleton] at h
    simp [h]
  | cons a s ih =>
    rw [List.splitOn_cons_eq_if_modifyHead] at h
    split_ifs at h with ha
    · rcases List.mem_cons.1 h with rfl | h
      · exact List.not_mem_nil
      · exact ih h
    · -- the first part has one more character in front, which is not `c`
      cases hs : s.splitOn c with
      | nil => exact absurd hs (List.splitOn_ne_nil c s)
      | cons first rest =>
        rw [hs, List.modifyHead_cons] at h
        rcases List.mem_cons.1 h with rfl | h
        · have hfirst := ih (hs ▸ List.mem_cons_self)
          rw [List.mem_cons, not_or]
          exact ⟨fun e => ha (by simp [e]), hfirst⟩
        · exact ih (hs ▸ List.mem_cons_of_mem _ h)

/-- What is put behind a text without a separator goes to its last part. -/
theorem exists_splitOn_append {c : Char} (s : List Char) {e : List Char} (he : c ∉ e) :
    ∃ before last, (s ++ e).splitOn c = before ++ [last] ∧ e <:+ last := by
  induction s with
  | nil => exact ⟨[], e, List.splitOn_eq_singleton he, List.suffix_refl e⟩
  | cons a s ih =>
    obtain ⟨before, last, hsplit, hsuffix⟩ := ih
    rw [List.cons_append, List.splitOn_cons_eq_if_modifyHead, hsplit]
    split_ifs
    · exact ⟨[] :: before, last, rfl, hsuffix⟩
    · cases before with
      | nil => exact ⟨[], a :: last, rfl, hsuffix.trans (List.suffix_cons a last)⟩
      | cons first before => exact ⟨(a :: first) :: before, last, rfl, hsuffix⟩

theorem suffix_intercalate_concat (before : List (List Char)) (last : List Char) :
    last <:+ ['/'].intercalate (before ++ [last]) := by
  induction before with
  | nil => simp
  | cons part before ih =>
    have hne : before ++ [last] ≠ [] := by simp
    obtain ⟨next, rest, hcons⟩ := List.exists_cons_of_ne_nil hne
    rw [hcons] at ih
    rw [List.cons_append, hcons, List.intercalate_cons_cons]
    exact ih.trans (List.suffix_append _ _)

/-- The parts that a directory puts before those of a relative path.  The root puts an empty one there. -/
inductive Front (directory : String) : List (List Char) → Prop
  | root (h : directory.toList = ['/']) : Front directory [[]]
  | names {Q : List (List Char)} (h : directory.toList = ['/'].intercalate Q)
      (hlast : ∀ part ∈ Q.getLast?, part ≠ []) : Front directory Q

/-- Joining a directory, given by its parts, and a relative path joins the parts. -/
theorem parts_join {directory path : String} {Q : List (List Char)} (hd : Front directory Q)
    (hQ : ∀ part ∈ Q, '/' ∉ part) (hp : isAbsolute path = false) :
    (join directory path).toList.splitOn '/' = Q ++ path.toList.splitOn '/' := by
  cases hd with
  | root hd =>
    have hempty : directory.isEmpty = false := by
      rw [Bool.eq_false_iff, Ne, String.isEmpty_iff, ← String.toList_eq_nil_iff, hd]
      exact List.cons_ne_nil _ _
    simp only [join, hp, hempty, hd, Bool.or_self, Bool.false_eq_true, if_false]
    rw [if_pos (by decide), String.toList_append, hd]
    exact List.splitOn_append_cons_self [] path.toList
  | names hd hlast =>
    rcases List.eq_nil_or_concat' Q with rfl | ⟨before, last, rfl⟩
    · have hempty : directory.isEmpty = true := by
        rw [String.isEmpty_iff, ← String.toList_eq_nil_iff]
        exact hd
      simp [join, hempty]
    · have hne : last ≠ [] := hlast last (by simp)
      obtain ⟨front, hfront⟩ := suffix_intercalate_concat before last
      rw [← hd] at hfront
      have hempty : directory.isEmpty = false := by
        rw [Bool.eq_false_iff]
        intro h
        rw [String.isEmpty_iff, ← String.toList_eq_nil_iff, ← hfront] at h
        exact hne (List.append_eq_nil_iff.1 h).2
      have hslash : (directory.toList.getLast? == some '/') = false := by
        rw [← hfront, List.getLast?_append_of_ne_nil _ hne, Bool.eq_false_iff]
        intro h
        exact hQ last (by simp) (List.mem_of_getLast? (by simpa using h))
      simp only [join, hp, hempty, hslash, Bool.or_self, Bool.false_eq_true, if_false]
      rw [String.toList_append, String.toList_append, hd]
      show (['/'].intercalate (before ++ [last]) ++ ['/'] ++ path.toList).splitOn '/' = _
      rw [List.append_assoc, List.singleton_append, List.splitOn_append_cons_self,
        List.splitOn_intercalate '/' hQ (by simp)]

/-- A path of several parts starts at the root if the first of them is empty. -/
theorem isAbsolute_eq {path : String} {first second : List Char} {rest : List (List Char)}
    (h : path.toList.splitOn '/' = first :: second :: rest) : isAbsolute path = first.isEmpty := by
  unfold isAbsolute
  cases hpath : path.toList with
  | nil =>
    rw [hpath, List.splitOn_nil] at h
    cases h
  | cons c cs =>
    rw [hpath, List.splitOn_cons_eq_if_modifyHead] at h
    split_ifs at h with hc
    · obtain ⟨rfl, -⟩ := List.cons.inj h
      rw [eq_of_beq hc]
      rfl
    · obtain ⟨part, parts, hparts⟩ := List.exists_cons_of_ne_nil (List.splitOn_ne_nil '/' cs)
      rw [hparts, List.modifyHead_cons] at h
      obtain ⟨rfl, -⟩ := List.cons.inj h
      simpa using hc

theorem isAbsolute_join {directory path : String} {Q : List (List Char)} (hd : Front directory Q)
    (hQ : ∀ part ∈ Q, '/' ∉ part) (hp : isAbsolute path = false) :
    isAbsolute (join directory path) = (Q.head? == some []) := by
  have hparts := parts_join hd hQ hp
  cases Q with
  | nil =>
    cases hd with
    | names hd _ =>
      have hempty : directory.isEmpty = true := by
        rw [String.isEmpty_iff, ← String.toList_eq_nil_iff]
        exact hd
      simpa [join, hempty] using hp
  | cons first Q =>
    obtain ⟨second, rest, hrest⟩ : ∃ second rest, Q ++ path.toList.splitOn '/' = second :: rest :=
      List.exists_cons_of_ne_nil (List.append_ne_nil_of_right_ne_nil _ (List.splitOn_ne_nil _ _))
    rw [List.cons_append, hrest] at hparts
    rw [isAbsolute_eq hparts]
    cases first <;> rfl

/-- Parts without those at the end that carry no meaning. -/
def trimmed (parts : List (List Char)) : List (List Char) := (parts.reverse.dropWhile isIdle).reverse

theorem exists_trimmed_append (parts : List (List Char)) :
    ∃ idle, parts = trimmed parts ++ idle ∧ ∀ part ∈ idle, isIdle part = true := by
  refine ⟨(parts.reverse.takeWhile isIdle).reverse, ?_, ?_⟩
  · rw [trimmed, ← List.reverse_append, List.takeWhile_append_dropWhile, List.reverse_reverse]
  · intro part hpart
    exact List.mem_takeWhile_imp (List.mem_reverse.1 hpart)

theorem ne_nil_of_mem_getLast?_trimmed {parts : List (List Char)} {part : List Char}
    (h : part ∈ (trimmed parts).getLast?) : part ≠ [] := by
  rw [trimmed, List.getLast?_reverse] at h
  have hidle := List.head?_dropWhile_not isIdle parts.reverse
  rw [h] at hidle
  rintro rfl
  cases hidle

theorem trimmed_cons (part : List Char) (parts : List (List Char)) :
    trimmed (part :: parts) = if trimmed parts = [] then trimmed [part] else part :: trimmed parts := by
  unfold trimmed
  rw [List.reverse_cons, List.dropWhile_append]
  split_ifs with h h' h'
  · rfl
  · exact absurd (by simpa using h) h'
  · exact absurd (by simpa using h') h
  · simp

theorem dropWhile_isIdle_reverse_concat {last : List Char} (parts : List (List Char))
    (hlast : isIdle last = false) : (parts ++ [last]).reverse.dropWhile isIdle = last :: parts.reverse := by
  rw [List.reverse_append, List.reverse_singleton, List.singleton_append,
    List.dropWhile_cons_of_neg (by simp [hlast])]

theorem parent?_of_split {path : String} {head last : List Char} {parts : List (List Char)}
    (h : split path.toList = (head, parts ++ [last])) (hlast : isIdle last = false) :
    parent? path = some (String.ofList (head ++ ['/'].intercalate (trimmed parts))) := by
  simp only [parent?, h, dropWhile_isIdle_reverse_concat parts hlast]
  rfl

theorem fileName?_of_split {path : String} {head last : List Char} {parts : List (List Char)}
    (h : split path.toList = (head, parts ++ [last])) (hlast : isIdle last = false) (hup : last ≠ ['.', '.']) :
    fileName? path = some (String.ofList last) := by
  simp only [fileName?, h, dropWhile_isIdle_reverse_concat parts hlast, if_neg hup]

/-- A path begins with a slash, or with a dot and a slash, or is split as it is. -/
theorem split_cases {path : String} (hdot : path.toList ≠ ['.']) :
    (∃ rest, path.toList = '/' :: rest) ∨ (∃ rest, path.toList = '.' :: '/' :: rest) ∨
      split path.toList = ([], path.toList.splitOn '/') := by
  unfold split
  split
  · rename_i rest hpath
    exact .inl ⟨rest, hpath⟩
  · rename_i hpath
    exact absurd hpath hdot
  · rename_i rest hpath
    exact .inr (.inl ⟨rest, hpath⟩)
  · exact .inr (.inr rfl)

/-- A path whose last part carries a meaning is split before that part; a slash or a dot in front becomes the
head. -/
theorem split_concat {path : String} {before : List (List Char)} {last : List Char}
    (hparts : path.toList.splitOn '/' = before ++ [last]) (hlast : isIdle last = false) :
    (∃ inner, before = [] :: inner ∧ split path.toList = (['/'], inner ++ [last])) ∨
      (∃ inner, before = ['.'] :: inner ∧ split path.toList = (['.'], ([] :: inner) ++ [last])) ∨
      split path.toList = ([], before ++ [last]) := by
  have hdot : path.toList ≠ ['.'] := by
    intro hpath
    rw [hpath] at hparts
    have hdot : [['.']] = before ++ [last] := hparts
    obtain rfl : ['.'] = last := by simpa using congrArg List.getLast? hdot
    cases hlast
  -- a first part in front of a slash: the other parts are those of the rest
  have hinner : ∀ first rest, '/' ∉ first → path.toList = first ++ '/' :: rest →
      ∃ inner, before = first :: inner ∧ rest.splitOn '/' = inner ++ [last] := by
    intro first rest hfirst hpath
    rw [hpath, List.splitOn_append_cons_self_of_not_mem hfirst rest] at hparts
    cases before with
    | nil => exact absurd (List.cons.inj hparts).2 (List.splitOn_ne_nil '/' rest)
    | cons first' inner =>
      obtain ⟨rfl, hinner⟩ := List.cons.inj hparts
      exact ⟨inner, rfl, hinner⟩
  rcases split_cases hdot with ⟨rest, hpath⟩ | ⟨rest, hpath⟩ | hsplit
  · obtain ⟨inner, rfl, hrest⟩ := hinner [] rest List.not_mem_nil hpath
    refine .inl ⟨inner, rfl, ?_⟩
    rw [hpath, ← hrest, split]
  · obtain ⟨inner, rfl, hrest⟩ := hinner ['.'] rest (by decide) hpath
    refine .inr (.inl ⟨inner, rfl, ?_⟩)
    rw [hpath, List.cons_append, ← hrest, split]
    exact congrArg _ (List.splitOn_append_cons_self [] rest)
  · exact .inr (.inr (hparts ▸ hsplit))

/-- A dot in front is the first of the parts. -/
theorem dot_append_intercalate (inner : List (List Char)) :
    ['.'] ++ ['/'].intercalate (trimmed ([] :: inner)) = ['/'].intercalate (['.'] :: trimmed inner) := by
  rw [trimmed_cons]
  split_ifs with h
  · rw [h]
    rfl
  · obtain ⟨first, others, hcons⟩ := List.exists_cons_of_ne_nil h
    rw [hcons, List.intercalate_cons_cons, List.intercalate_cons_cons]
    rfl

/-- A slash in front is an empty part before the others. -/
theorem front_slash (inner : List (List Char)) :
    Front (String.ofList (['/'] ++ ['/'].intercalate (trimmed inner))) ([] :: trimmed inner) := by
  cases htrim : trimmed inner with
  | nil => exact .root (by rw [String.toList_ofList]; rfl)
  | cons first others =>
    refine .names ?_ fun part hpart => ?_
    · rw [String.toList_ofList, List.intercalate_cons_cons]
      rfl
    · rw [List.getLast?_cons_cons, ← htrim] at hpart
      exact ne_nil_of_mem_getLast?_trimmed hpart

theorem ne_nil_of_mem_getLast?_cons {first part : List Char} {parts : List (List Char)} (hfirst : first ≠ [])
    (h : part ∈ (first :: trimmed parts).getLast?) : part ≠ [] := by
  rw [List.getLast?_cons] at h
  cases htrim : (trimmed parts).getLast? with
  | none =>
    rw [htrim] at h
    cases h
    exact hfirst
  | some part' =>
    rw [htrim] at h
    cases h
    exact ne_nil_of_mem_getLast?_trimmed htrim

/-- **The parent of a path** whose last part carries a meaning has the parts before it, less those at the end that
carry none, and starts where the path does. -/
theorem parent?_spec {path : String} {before : List (List Char)} {last : List Char}
    (hparts : path.toList.splitOn '/' = before ++ [last]) (hlast : isIdle last = false) :
    ∃ parent Q idle, parent? path = some parent ∧ before = Q ++ idle ∧ (∀ part ∈ idle, isIdle part = true) ∧
      Front parent Q ∧ isAbsolute path = (Q.head? == some []) := by
  have hfirst : ∀ {first inner}, before = first :: inner → isAbsolute path = first.isEmpty := by
    rintro first inner rfl
    obtain ⟨second, rest, hrest⟩ : ∃ second rest, inner ++ [last] = second :: rest :=
      List.exists_cons_of_ne_nil (by simp)
    exact isAbsolute_eq (hparts.trans (congrArg (first :: ·) hrest))
  rcases split_concat hparts hlast with ⟨inner, rfl, hsplit⟩ | ⟨inner, rfl, hsplit⟩ | hsplit
  · obtain ⟨idle, hidle, hall⟩ := exists_trimmed_append inner
    refine ⟨_, [] :: trimmed inner, idle, parent?_of_split hsplit hlast, ?_, hall, front_slash inner, hfirst rfl⟩
    rw [List.cons_append, ← hidle]
  · obtain ⟨idle, hidle, hall⟩ := exists_trimmed_append inner
    refine ⟨_, ['.'] :: trimmed inner, idle, parent?_of_split hsplit hlast, ?_, hall, .names ?_ fun part =>
      ne_nil_of_mem_getLast?_cons (List.cons_ne_nil _ _), hfirst rfl⟩
    · rw [List.cons_append, ← hidle]
    · rw [String.toList_ofList, dot_append_intercalate]
  · obtain ⟨idle, hidle, hall⟩ := exists_trimmed_append before
    refine ⟨_, trimmed before, idle, parent?_of_split hsplit hlast, hidle, hall, .names ?_ fun part =>
      ne_nil_of_mem_getLast?_trimmed, ?_⟩
    · rw [String.toList_ofList, List.nil_append]
    · -- a path that is split as it is does not start with a slash
      have hrelative : isAbsolute path = false := by
        unfold isAbsolute
        cases hpath : path.toList with
        | nil => rfl
        | cons c cs =>
          by_cases hc : c = '/'
          · rw [hpath, hc, split] at hsplit
            cases (Prod.mk.inj hsplit).1
          · simpa using hc
      rw [hrelative]
      cases htrim : trimmed before with
      | nil => rfl
      | cons first others =>
        rw [htrim] at hidle
        cases first with
        | nil => exact hrelative.symm.trans (hfirst hidle)
        | cons c cs => rfl

/-- **The file name of a path** is its last part, if that is a name. -/
theorem fileName?_spec {path : String} {before : List (List Char)} {last : List Char}
    (hparts : path.toList.splitOn '/' = before ++ [last]) (hlast : isIdle last = false) (hup : last ≠ ['.', '.']) :
    fileName? path = some (String.ofList last) := by
  rcases split_concat hparts hlast with ⟨inner, -, hsplit⟩ | ⟨inner, -, hsplit⟩ | hsplit
  · exact fileName?_of_split hsplit hlast hup
  · exact fileName?_of_split hsplit hlast hup
  · exact fileName?_of_split hsplit hlast hup

end Path

/-! ## Look-up -/

namespace FileTree

variable {t : FileTree} {l l' : Location}

/-- The location that the parts of a path lead to, from a location on. -/
def walk (t : FileTree) (l : Location) (parts : List (List Char)) : Except FileError Location :=
  parts.foldlM (fun l part => t.enter l (String.ofList part)) l

theorem walk_append_eq_ok {xs ys : List (List Char)} :
    t.walk l (xs ++ ys) = .ok l' ↔ ∃ m, t.walk l xs = .ok m ∧ t.walk m ys = .ok l' := by
  unfold walk
  rw [List.foldlM_append, bind_eq_ok]

theorem locate_eq_ok {path : String} (h : t.locate path = .ok l) :
    t.walk (Location.base t.workingDirectory path) (path.toList.splitOn '/') = .ok l := by
  unfold locate at h
  obtain ⟨parts, hparts, h⟩ := bind_eq_ok.1 h
  unfold FileTree.parts at hparts
  split_ifs at hparts
  cases hparts
  rw [List.foldlM_map] at h
  exact h

/-- A part that carries no meaning leads nowhere. -/
theorem eq_of_walk_idle {idle : List (List Char)} (hidle : ∀ part ∈ idle, Path.isIdle part = true)
    (h : t.walk l idle = .ok l') : l' = l := by
  refine (foldlM_keeps (fun m rest => m = l ∧ ∀ part ∈ rest, Path.isIdle part = true) ?_ ⟨rfl, hidle⟩ h).1
  rintro m part rest m' ⟨rfl, hrest⟩ hstep
  obtain ⟨hpart, hrest⟩ := List.forall_mem_cons.1 hrest
  refine ⟨?_, hrest⟩
  have hname : String.ofList part = "" ∨ String.ofList part = "." := by
    rcases Bool.or_eq_true_iff.1 hpart with hempty | hdot
    · rw [List.isEmpty_iff.1 hempty]
      exact .inl rfl
    · rw [eq_of_beq hdot]
      exact .inr rfl
  unfold enter at hstep
  split_ifs at hstep with _ hidle' <;> simp_all

/-- A name leads one step down. -/
theorem eq_of_walk_name {last : List Char} (hlast : Path.isIdle last = false) (hup : last ≠ ['.', '.'])
    (h : t.walk l [last] = .ok l') : l' = l ++ [String.ofList last] := by
  have hstep : t.enter l (String.ofList last) = .ok l' := by
    simpa [walk, bind_pure] using h
  have hempty : String.ofList last ≠ "" := by
    intro e
    rw [String.ofList_eq_empty_iff] at e
    rw [e] at hlast
    cases hlast
  have hdot : String.ofList last ≠ "." := by
    intro e
    obtain rfl : last = ['.'] := String.ofList_injective e
    cases hlast
  have hup' : String.ofList last ≠ ".." := fun e => hup (String.ofList_injective e)
  unfold enter at hstep
  split_ifs at hstep <;> simp_all

/-- **Paths behind the parent of a file** are looked up from the directory that the file is in, or from the root,
whatever way the file is spelled. -/
theorem locate_join_parent {path : String} {before : List (List Char)} {last : List Char}
    (hparts : path.toList.splitOn '/' = before ++ [last]) (hlast : Path.isIdle last = false)
    (hup : last ≠ ['.', '.']) (h : t.locate path = .ok l) :
    ∃ parent, Path.parent? path = some parent ∧ ∀ p l', t.locate (Path.join parent p) = .ok l' →
      t.walk (Location.base l.dropLast p) (p.toList.splitOn '/') = .ok l' := by
  have hwalk := locate_eq_ok h
  obtain ⟨parent, Q, idle, hparent, rfl, hidle, hfront, hroot⟩ := Path.parent?_spec hparts hlast
  refine ⟨parent, hparent, ?_⟩
  -- the parts that the parent is made of lead to the directory of the file
  rw [hparts] at hwalk
  obtain ⟨m, hm, henter⟩ := walk_append_eq_ok.1 hwalk
  obtain ⟨d, hd, hmd⟩ := walk_append_eq_ok.1 hm
  obtain rfl := eq_of_walk_idle hidle hmd
  rw [eq_of_walk_name hlast hup henter, List.dropLast_concat]
  intro p l' hjoin
  have hjoin := locate_eq_ok hjoin
  cases hp : Path.isAbsolute p with
  | true =>
    have hself : Path.join parent p = p := by simp [Path.join, hp]
    rw [hself] at hjoin
    simpa [Location.base, hp] using hjoin
  | false =>
    have hmem : ∀ part ∈ Q, '/' ∉ part := fun part hpart =>
      Path.notMem_of_mem_splitOn (hparts ▸ List.mem_append_left _ (List.mem_append_left _ hpart))
    have hbase : Location.base t.workingDirectory (Path.join parent p) =
        Location.base t.workingDirectory path := by
      rw [Location.base, Location.base, Path.isAbsolute_join hfront hmem hp, hroot]
    rw [Path.parts_join hfront hmem hp, hbase] at hjoin
    obtain ⟨d', hd', hjoin⟩ := walk_append_eq_ok.1 hjoin
    rw [hd] at hd'
    cases hd'
    simpa [Location.base, hp] using hjoin

/-! ## Text files -/

/-- The text of the file at a location, if there is a file and its bytes are UTF-8. -/
def textAt? (t : FileTree) (l : Location) : Option String :=
  match t.get? l with
  | some (.file bytes) => String.fromUTF8? ⟨bytes.toArray⟩
  | _ => none

/-- The locations of the text files of a tree, each once. -/
def readable (t : FileTree) : List Location := (t.locations.filter fun l => (t.textAt? l).isSome).dedup

theorem textFile?_eq_some {path : String} {f : t.TextFile} (h : t.textFile? path = some f) :
    t.locate path = .ok f.location ∧ t.textAt? f.location = some f.text := by
  unfold textFile? at h
  split at h
  · cases h
  · rename_i l hl
    split at h
    · rename_i bytes hget
      obtain ⟨text, htext, rfl⟩ := Option.map_eq_some_iff.1 h
      refine ⟨hl, ?_⟩
      simp only [textAt?, hget]
      exact htext
    · cases h

theorem mem_readable {path : String} {f : t.TextFile} (h : t.textFile? path = some f) :
    f.location ∈ t.readable := by
  rw [readable, List.mem_dedup, List.mem_filter]
  exact ⟨f.mem, by rw [(textFile?_eq_some h).2]; rfl⟩

end FileTree

/-- The path of an import statement ends in a name. -/
theorem ImportClause.exists_parts (c : ImportClause) (directory : String) :
    ∃ before last, (Path.join directory c.fileName).toList.splitOn '/' = before ++ [last] ∧
      Path.isIdle last = false ∧ last ≠ ['.', '.'] := by
  have hname : c.fileName.toList = (c.file ++ ".").toList ++ sourceExtension.toList := String.toList_append
  obtain ⟨front, hfront⟩ : ∃ front, (Path.join directory c.fileName).toList = front ++ sourceExtension.toList := by
    unfold Path.join
    split_ifs
    · exact ⟨_, hname⟩
    · exact ⟨directory.toList ++ (c.file ++ ".").toList, by rw [String.toList_append, hname, List.append_assoc]⟩
    · exact ⟨(directory ++ "/").toList ++ (c.file ++ ".").toList, by
        rw [String.toList_append, hname, List.append_assoc]⟩
  obtain ⟨before, last, hsplit, hsuffix⟩ := Path.exists_splitOn_append front (e := sourceExtension.toList)
    (c := '/') (by decide)
  have hlen : 6 ≤ last.length := hsuffix.length_le
  refine ⟨before, last, hfront ▸ hsplit, ?_, ?_⟩
  · rw [Bool.eq_false_iff]
    intro hidle
    rcases Bool.or_eq_true_iff.1 hidle with hempty | hdot
    · rw [List.isEmpty_iff.1 hempty] at hlen
      exact absurd hlen (by decide)
    · rw [eq_of_beq hdot] at hlen
      exact absurd hlen (by decide)
  · rintro rfl
    exact absurd hlen (by decide)

end Abcout
