import Mathlib.Data.List.Nodup
import Mathlib.Data.List.Perm.Subperm
import Mathlib.Data.Nat.Find
import Std.Data.String.ToNat
import Abcout.Macro.Renaming
import Abcout.Proofs.Table

/-!
# Abcout.Proofs.Renaming — the names of an expansion are fresh

`Renaming.fresh` searches a name for every label.  The candidates of one label are all different
(`candidate_injective`), so that among one more candidates than there are names in use one is free
(`exists_first`).  The search counts in 32 bits, which do for the first candidates (`numbered_eq`), and finds the
first free one (`firstFree_eq`, `FewTaken.freeName_eq`).

`Supply.Good taken owner call done s` is what picking keeps: the labels `done` have names, each one of its
candidates, none of them taken, and no two alike.  For the whole renaming this gives `mem_fresh`,
`apply_fresh_free`, `exists_apply_fresh_eq` and `apply_fresh_inj`.
-/

namespace Abcout

/-- A name with the initial of an expansion's labels. -/
def Reserved (name : String) : Prop := name.toList.head? = some reservedInitial

theorem Reserved.append {base : String} (h : Reserved base) (rest : String) : Reserved (base ++ rest) := by
  unfold Reserved at h ⊢
  rw [String.toList_append, List.head?_append, h, Option.some_or]

namespace Renaming

/-! ## One search -/

theorem candidate_injective (base : String) : Function.Injective (candidate base) := by
  intro m n h
  have hlen : ∀ k, candidate base (k + 1) ≠ base := by
    intro k hk
    have e := congrArg String.length hk
    simp only [candidate, String.length_append] at e
    have hu : "_".length = 1 := rfl
    omega
  cases m with
  | zero =>
    cases n with
    | zero => rfl
    | succ n => exact absurd h.symm (hlen n)
  | succ m =>
    cases n with
    | zero => exact absurd h (hlen m)
    | succ n =>
      have e := congrArg String.toList h
      simp only [candidate, String.toList_append] at e
      exact Nat.repr_injective (String.toList_injective (List.append_cancel_left e))

theorem reserved_candidate (owner label : String) (call n : Nat) :
    Reserved (candidate (mangle owner label call) n) := by
  have hinitial : Reserved reservedInitial.toString := by
    unfold Reserved
    decide
  have hmangle : Reserved (mangle owner label call) :=
    ((((hinitial.append owner).append "_").append label).append "_").append call.repr
  cases n with
  | zero => exact hmangle
  | succ n => exact (hmangle.append "_").append (n + 1).repr

/-- At most `bound` names are taken. -/
def FewTaken (taken : String → Bool) (bound : Nat) : Prop :=
  ∃ L : List String, L.length ≤ bound ∧ ∀ n, taken n = true → n ∈ L

theorem fewTaken_table {α : Type} (t : Std.ExtTreeMap String α) : FewTaken t.contains t.size :=
  ⟨t.keys, by simp, fun _ hn => Std.ExtTreeMap.mem_keys.2 (Std.ExtTreeMap.contains_iff_mem.1 hn)⟩

theorem fewTaken_set (t : NameSet) : FewTaken t.contains t.size :=
  ⟨t.toList, by simp, fun _ hn => Std.ExtTreeSet.mem_toList.2 (Std.ExtTreeSet.contains_iff_mem.1 hn)⟩

theorem FewTaken.mono {taken : String → Bool} {bound bound' : Nat} (h : FewTaken taken bound)
    (hle : bound ≤ bound') : FewTaken taken bound' := by
  obtain ⟨L, hL, hmem⟩ := h
  exact ⟨L, Nat.le_trans hL hle, hmem⟩

theorem FewTaken.or {taken taken' : String → Bool} {bound bound' : Nat} (h : FewTaken taken bound)
    (h' : FewTaken taken' bound') : FewTaken (fun n => taken n || taken' n) (bound + bound') := by
  obtain ⟨L, hL, hmem⟩ := h
  obtain ⟨L', hL', hmem'⟩ := h'
  refine ⟨L ++ L', by rw [List.length_append]; omega, fun n hn => ?_⟩
  rw [List.mem_append]
  rcases Bool.or_eq_true_iff.1 hn with hn | hn
  · exact .inl (hmem n hn)
  · exact .inr (hmem' n hn)

/-- The candidate with number `k` is free, and none before it is. -/
structure IsFirst (taken : String → Bool) (base : String) (k : Nat) : Prop where
  free : taken (candidate base k) = false
  taken_of_lt : ∀ j < k, taken (candidate base j) = true

theorem IsFirst.unique {taken : String → Bool} {base : String} {k k' : Nat} (h : IsFirst taken base k)
    (h' : IsFirst taken base k') : k' = k := by
  rcases Nat.lt_trichotomy k k' with hlt | rfl | hlt
  · exact absurd (h'.taken_of_lt k hlt) (by simp [h.free])
  · rfl
  · exact absurd (h.taken_of_lt k' hlt) (by simp [h'.free])

/-- One more candidates than there are taken names cannot all be taken. -/
theorem FewTaken.exists_first {taken : String → Bool} {bound : Nat} (h : FewTaken taken bound) (base : String) :
    ∃ k ≤ bound, IsFirst taken base k := by
  obtain ⟨L, hL, hmem⟩ := h
  have hfree : ∃ k, k ≤ bound ∧ taken (candidate base k) = false := by
    by_contra hall
    push Not at hall
    have hnd : ((List.range (bound + 1)).map (candidate base)).Nodup :=
      List.nodup_range.map (candidate_injective base)
    have hsub : (List.range (bound + 1)).map (candidate base) ⊆ L := by
      intro x hx
      obtain ⟨k, hk, rfl⟩ := List.mem_map.1 hx
      exact hmem _ (Bool.not_eq_false _ ▸ hall k (Nat.le_of_lt_succ (List.mem_range.1 hk)))
    have hle := (List.subperm_of_subset hnd hsub).length_le
    rw [List.length_map, List.length_range] at hle
    omega
  obtain ⟨hle, hfirst⟩ := Nat.find_spec hfree
  refine ⟨Nat.find hfree, hle, hfirst, fun j hj => ?_⟩
  have hnot := Nat.find_min hfree hj
  rw [← Bool.not_eq_false]
  exact fun hj' => hnot ⟨Nat.le_of_lt (Nat.lt_of_lt_of_le hj hle), hj'⟩

theorem ofNat_succ (n : Nat) : Int32.ofNat n + 1 = Int32.ofNat (n + 1) := (Int32.ofNat_add n 1).symm

/-- As long as there are larger numbers of 32 bits, a counter of 32 bits does. -/
theorem numbered_eq {n : Nat} (h : n < maxSuffix) (base : String) :
    numbered base (Int32.ofNat n + 1) = candidate base (n + 1) := by
  have hlt : n + 1 < 2 ^ 31 := Nat.succ_lt_succ h
  rw [numbered, ofNat_succ]
  show base ++ "_" ++ toString (Int32.ofNat (n + 1)).toInt = _
  rw [Int32.toInt_ofNat_of_lt hlt]
  rfl

/-- **A search finds the first free candidate**, if its number has 32 bits, and else overflows. -/
theorem firstFree_eq {taken : String → Bool} {base : String} {k n left : Nat} (h : IsFirst taken base k)
    (hn : n ≤ k) (hleft : n + left = maxSuffix) : firstFree taken base left (Int32.ofNat n) (candidate base n) =
      if k ≤ maxSuffix then some (candidate base k) else none := by
  induction left generalizing n with
  | zero =>
    obtain rfl : n = maxSuffix := hleft
    unfold firstFree
    rcases Nat.eq_or_lt_of_le hn with rfl | hlt
    · rw [h.free, if_neg Bool.false_ne_true, if_pos (Nat.le_refl _)]
    · rw [h.taken_of_lt _ hlt, if_pos rfl, if_neg (Nat.not_le.2 hlt)]
  | succ left ih =>
    unfold firstFree
    rcases Nat.eq_or_lt_of_le hn with rfl | hlt
    · rw [h.free, if_neg Bool.false_ne_true, if_pos (by omega)]
    · rw [h.taken_of_lt _ hlt, if_pos rfl, numbered_eq (by omega), ofNat_succ]
      exact ih hlt (by omega)

theorem firstFrom_eq {taken : String → Bool} {base : String} {k n tries : Nat} (h : IsFirst taken base k)
    (hn : n ≤ k) (htries : k ≤ n + tries) : firstFrom taken base tries n = candidate base k := by
  induction tries generalizing n with
  | zero =>
    obtain rfl : n = k := Nat.le_antisymm hn htries
    rfl
  | succ tries ih =>
    unfold firstFrom
    rcases Nat.eq_or_lt_of_le hn with rfl | hlt
    · rw [h.free, if_neg Bool.false_ne_true]
    · rw [h.taken_of_lt _ hlt, if_pos rfl]
      exact ih hlt (by omega)

theorem FewTaken.freeName_eq {taken : String → Bool} {bound : Nat} (few : FewTaken taken bound)
    {base : String} {k : Nat} (h : IsFirst taken base k) : freeName taken bound base = candidate base k := by
  obtain ⟨k', hk', hfirst⟩ := few.exists_first base
  obtain rfl := h.unique hfirst
  have hsearch : firstFree taken base maxSuffix 0 base = _ := firstFree_eq hfirst (Nat.zero_le _) (Nat.zero_add _)
  unfold freeName
  rw [hsearch]
  split_ifs with hle
  · rfl
  · exact firstFrom_eq hfirst (Nat.lt_of_not_le hle) (by omega)

/-! ## All labels of an expansion -/

/-- The labels `done` have names that are candidates and not taken, and no two have the same. -/
structure Supply.Good (taken : String → Bool) (owner : String) (call : Nat) (done : List String) (s : Supply) :
    Prop where
  domain : ∀ l : String, l ∈ s.names ↔ l ∈ done
  picked : ∀ l v : String, s.names[l]? = some v → v ∈ s.picked
  free : ∀ l v : String, s.names[l]? = some v → taken v = false
  candidate : ∀ l v : String, s.names[l]? = some v → ∃ k, v = Renaming.candidate (mangle owner l call) k
  inj : ∀ l l' v : String, s.names[l]? = some v → s.names[l']? = some v → l = l'

theorem Supply.good_empty (taken : String → Bool) (owner : String) (call : Nat) :
    Supply.Good taken owner call [] {} where
  domain := by simp
  picked := by simp
  free := by simp
  candidate := by simp
  inj := by simp

variable {taken : String → Bool} {bound : Nat} {owner : String} {call : Nat}

/-- One label gets the first of its candidates that is neither taken nor given before. -/
theorem Supply.pick_eq (few : FewTaken taken bound) (owner : String) (call : Nat) (s : Supply) (label : String) :
    ∃ k ≤ bound + s.picked.size,
      IsFirst (fun n => taken n || s.picked.contains n) (mangle owner label call) k ∧
      s.pick taken bound owner call label =
        ⟨s.names.insert label (Renaming.candidate (mangle owner label call) k),
          s.picked.insert (Renaming.candidate (mangle owner label call) k)⟩ := by
  have hfew := few.or (fewTaken_set s.picked)
  obtain ⟨k, hk, hfirst⟩ := hfew.exists_first (mangle owner label call)
  refine ⟨k, hk, hfirst, ?_⟩
  rw [← hfew.freeName_eq hfirst]
  rfl

/-- **Step**: picking a name for one more label. -/
theorem Supply.Good.pick (few : FewTaken taken bound) {done : List String} {s : Supply}
    (h : s.Good taken owner call done) (label : String) :
    (s.pick taken bound owner call label).Good taken owner call (done ++ [label]) := by
  obtain ⟨k, -, hfirst, hpick⟩ := Supply.pick_eq few owner call s label
  obtain ⟨htaken, hpicked⟩ := Bool.or_eq_false_iff.1 hfirst.free
  generalize hname : Renaming.candidate (mangle owner label call) k = name at htaken hpicked hpick
  have hnew : name ∉ s.picked := NameSet.not_mem_of_contains hpicked
  have hget : ∀ l v, (s.names.insert label name)[l]? = some v →
      (label = l ∧ name = v) ∨ (label ≠ l ∧ s.names[l]? = some v) := by
    intro l v hl
    rw [getElem?_insert_name] at hl
    split_ifs at hl with hc
    · exact .inl ⟨hc, Option.some.inj hl⟩
    · exact .inr ⟨hc, hl⟩
  rw [hpick]
  refine ⟨?_, ?_, ?_, ?_, ?_⟩
  · intro l
    rw [mem_insert_name, h.domain, List.mem_append, List.mem_singleton, or_comm, eq_comm]
  · intro l v hl
    rw [NameSet.mem_insert_name]
    rcases hget l v hl with ⟨-, rfl⟩ | ⟨-, hl⟩
    · exact .inl rfl
    · exact .inr (h.picked l v hl)
  · intro l v hl
    rcases hget l v hl with ⟨-, rfl⟩ | ⟨-, hl⟩
    · exact htaken
    · exact h.free l v hl
  · intro l v hl
    rcases hget l v hl with ⟨rfl, rfl⟩ | ⟨-, hl⟩
    · exact ⟨k, hname.symm⟩
    · exact h.candidate l v hl
  · intro l l' v hl hl'
    rcases hget l v hl with ⟨rfl, rfl⟩ | ⟨-, hl⟩ <;> rcases hget l' _ hl' with ⟨rfl, e⟩ | ⟨-, hl'⟩
    · rfl
    · exact absurd (h.picked _ _ hl') hnew
    · exact absurd (h.picked _ _ (e ▸ hl)) hnew
    · exact h.inj _ _ _ hl hl'

/-- **Run**: picking names for a list of labels. -/
theorem Supply.Good.foldl_pick (few : FewTaken taken bound) (labels : List String) {done : List String}
    {s : Supply} (h : s.Good taken owner call done) :
    (labels.foldl (Supply.pick taken bound owner call) s).Good taken owner call (done ++ labels) := by
  induction labels generalizing done s with
  | nil => simpa using h
  | cons label labels ih =>
    rw [List.append_cons]
    exact ih (h.pick few label)

section Fresh

variable {locals : NameSet} (few : FewTaken taken bound)
include few

theorem good_fresh (owner : String) (locals : NameSet) (call : Nat) :
    ∃ s : Supply, s.names = fresh taken bound owner locals call ∧ s.Good taken owner call locals.toList :=
  ⟨_, rfl, (Supply.good_empty taken owner call).foldl_pick few locals.toList⟩

theorem mem_fresh {l : String} : l ∈ fresh taken bound owner locals call ↔ l ∈ locals := by
  obtain ⟨s, hs, hgood⟩ := good_fresh few owner locals call
  rw [← hs, hgood.domain, Std.ExtTreeSet.mem_toList]

theorem apply_fresh_of_notMem {l : String} (hl : l ∉ locals) :
    (fresh taken bound owner locals call).apply l = l := by
  have hn : l ∉ fresh taken bound owner locals call := fun h => hl ((mem_fresh few).1 h)
  rw [apply, Std.ExtTreeMap.getD_eq_fallback hn]

theorem getElem?_fresh {l : String} (hl : l ∈ locals) :
    (fresh taken bound owner locals call)[l]? = some ((fresh taken bound owner locals call).apply l) := by
  have hm : l ∈ fresh taken bound owner locals call := (mem_fresh few).2 hl
  rw [apply, Std.ExtTreeMap.getElem?_eq_some_getD hm]

/-- The new name of a local label is not taken. -/
theorem apply_fresh_free {l : String} (hl : l ∈ locals) :
    taken ((fresh taken bound owner locals call).apply l) = false := by
  obtain ⟨s, hs, hgood⟩ := good_fresh few owner locals call
  exact hgood.free l _ (hs ▸ getElem?_fresh few hl)

/-- The new name of a local label is made of macro, label and number of the call, and maybe one more number. -/
theorem exists_apply_fresh_eq {l : String} (hl : l ∈ locals) :
    ∃ k, (fresh taken bound owner locals call).apply l = candidate (mangle owner l call) k := by
  obtain ⟨s, hs, hgood⟩ := good_fresh few owner locals call
  exact hgood.candidate l _ (hs ▸ getElem?_fresh few hl)

/-- Different local labels get different names. -/
theorem apply_fresh_inj {l l' : String} (hl : l ∈ locals) (hl' : l' ∈ locals)
    (h : (fresh taken bound owner locals call).apply l = (fresh taken bound owner locals call).apply l') :
    l = l' := by
  obtain ⟨s, hs, hgood⟩ := good_fresh few owner locals call
  exact hgood.inj l l' _ (hs ▸ getElem?_fresh few hl) (hs ▸ h ▸ getElem?_fresh few hl')

end Fresh

end Renaming

end Abcout
