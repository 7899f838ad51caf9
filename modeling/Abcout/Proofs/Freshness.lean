import Mathlib.Data.Set.Finite.List
import Abcout.Proofs.Macros

/-!
# Abcout.Proofs.Freshness — picking names ends while its counter does not overflow

`Renaming.fresh` goes on when its counter overflows.  Here the search is taken by itself, as a relation: it goes on
while names are taken, and raises a counter of 32 bits.  At an overflow the counter wraps around or the search
breaks off, which is left open (`wraps`); `Supply.Run` makes one search for each label.

* `search_iff_firstFree`: a search that breaks off is what `Renaming.firstFree` does.
* `Supply.run_foldl`: while the numbers have 32 bits, all searches end, and find the names of `Renaming.fresh`.
* `fresh_of_few`: so for up to 2 ^ 31 names, the taken ones and the labels together, there is one renaming, and it
  is injective into the names that are free.
* `fresh_overflows`: for one more, there need not be one.
-/

namespace Abcout.Renaming

variable {wraps : Bool} {taken : String → Bool} {bound : Nat} {base last : String}

/-! ## One search -/

/-- A search that has come to a counter and a name ends at the name `last`. -/
inductive Search (wraps : Bool) (taken : String → Bool) (base : String) : Int32 → String → String → Prop
  | found {suffix : Int32} {name : String} (h : taken name = false) : Search wraps taken base suffix name name
  | next {suffix : Int32} {name last : String} (h : taken name = true)
      (hsuffix : wraps = true ∨ suffix < Int32.maxValue)
      (rest : Search wraps taken base (suffix + 1) (numbered base (suffix + 1)) last) :
      Search wraps taken base suffix name last

theorem search_of_free {suffix : Int32} {name : String} (hfree : taken name = false) :
    Search wraps taken base suffix name last ↔ name = last := by
  constructor
  · intro h
    cases h with
    | found => rfl
    | next h => exact absurd (h.symm.trans hfree) (by decide)
  · rintro rfl
    exact .found hfree

theorem search_of_taken {suffix : Int32} {name : String} (ht : taken name = true) :
    Search wraps taken base suffix name last ↔ (wraps = true ∨ suffix < Int32.maxValue) ∧
      Search wraps taken base (suffix + 1) (numbered base (suffix + 1)) last := by
  constructor
  · intro h
    cases h with
    | found h => exact absurd (ht.symm.trans h) (by decide)
    | next _ hsuffix rest => exact ⟨hsuffix, rest⟩
  · exact fun h => .next ht h.1 h.2

theorem Search.unique {suffix : Int32} {name last' : String} (h : Search wraps taken base suffix name last)
    (h' : Search wraps taken base suffix name last') : last' = last := by
  induction h with
  | found h => exact ((search_of_free h).1 h').symm
  | next h _ _ ih => exact ih ((search_of_taken h).1 h').2

theorem ofNat_lt_maxValue_iff {n : Nat} (h : n ≤ maxSuffix) : Int32.ofNat n < Int32.maxValue ↔ n < maxSuffix := by
  have hlt : n < 2 ^ 31 := Nat.lt_succ_of_le h
  rw [Int32.lt_iff_toInt_lt, Int32.toInt_ofNat_of_lt hlt]
  show (n : Int) < 2147483647 ↔ n < 2147483647
  omega

/-- A search that breaks off at an overflow can be computed. -/
theorem search_iff_firstFree_of_add {n left : Nat} (h : n + left = maxSuffix) {name : String} :
    Search false taken base (Int32.ofNat n) name last ↔
      firstFree taken base left (Int32.ofNat n) name = some last := by
  induction left generalizing n name with
  | zero =>
    unfold firstFree
    split_ifs with ht
    · -- there is no larger number
      have hlast : ¬ Int32.ofNat n < Int32.maxValue := fun hlt =>
        Nat.ne_of_lt ((ofNat_lt_maxValue_iff h.le).1 hlt) h
      rw [search_of_taken ht]
      simp [hlast]
    · rw [search_of_free (Bool.eq_false_iff.2 ht), Option.some.injEq]
  | succ left ih =>
    unfold firstFree
    split_ifs with ht
    · have hmore : Int32.ofNat n < Int32.maxValue := (ofNat_lt_maxValue_iff (by omega)).2 (by omega)
      rw [search_of_taken ht, ofNat_succ, ih (by omega)]
      exact and_iff_right (.inr hmore)
    · rw [search_of_free (Bool.eq_false_iff.2 ht), Option.some.injEq]

theorem search_iff_firstFree :
    Search false taken base 0 base last ↔ firstFree taken base maxSuffix 0 base = some last :=
  search_iff_firstFree_of_add (Nat.zero_add maxSuffix)

/-- A search gets past candidates that are taken. -/
theorem Search.skip {n k : Nat} (hn : n ≤ k) (hk : k ≤ maxSuffix)
    (htaken : ∀ j, n ≤ j → j < k → taken (candidate base j) = true)
    (h : Search wraps taken base (Int32.ofNat k) (candidate base k) last) :
    Search wraps taken base (Int32.ofNat n) (candidate base n) last := by
  induction hn using Nat.decreasingInduction with
  | self => exact h
  | of_succ j hj ih =>
    have hlt : j < maxSuffix := Nat.lt_of_lt_of_le hj hk
    refine .next (htaken j (Nat.le_refl j) hj) (.inr ((ofNat_lt_maxValue_iff hlt.le).2 hlt)) ?_
    rw [numbered_eq hlt, ofNat_succ]
    exact ih fun j' hj' => htaken j' (Nat.le_of_succ_le hj')

theorem IsFirst.search {k : Nat} (h : IsFirst taken base k) (hk : k ≤ maxSuffix) :
    Search wraps taken base 0 base (candidate base k) :=
  Search.skip (n := 0) (Nat.zero_le k) hk (fun j _ => h.taken_of_lt j) (.found h.free)

/-! ## All labels of an expansion -/

/-- Names for labels, one after the other, each found by a search. -/
inductive Supply.Run (wraps : Bool) (taken : String → Bool) (owner : String) (call : Nat) :
    Supply → List String → Supply → Prop
  | done (s : Supply) : Run wraps taken owner call s [] s
  | pick {s s' : Supply} {label name : String} {labels : List String}
      (h : Search wraps (fun n => taken n || s.picked.contains n)
        (mangle owner label call) 0 (mangle owner label call) name)
      (rest : Run wraps taken owner call ⟨s.names.insert label name, s.picked.insert name⟩ labels s') :
      Run wraps taken owner call s (label :: labels) s'

namespace Supply

variable {owner : String} {call : Nat} {labels : List String} {s s' : Supply}

theorem Run.unique (h : Run wraps taken owner call s labels s') {s'' : Supply}
    (h' : Run wraps taken owner call s labels s'') : s'' = s' := by
  induction h with
  | done s =>
    cases h'
    rfl
  | pick h _ ih =>
    cases h' with
    | pick h₁ rest₁ =>
      obtain rfl := h.unique h₁
      exact ih rest₁

theorem size_picked_pick_le (taken : String → Bool) (bound : Nat) (owner : String) (call : Nat) (s : Supply)
    (label : String) : (s.pick taken bound owner call label).picked.size ≤ s.picked.size + 1 :=
  Std.ExtTreeSet.size_insert_le

/-- **Run**: while the numbers have 32 bits, all searches end, and find the names that are picked. -/
theorem run_foldl (few : FewTaken taken bound) (wraps : Bool) (owner : String) (call : Nat) (labels : List String)
    (s : Supply) (hsmall : bound + s.picked.size + labels.length ≤ maxSuffix + 1) :
    Run wraps taken owner call s labels (labels.foldl (Supply.pick taken bound owner call) s) := by
  induction labels generalizing s with
  | nil => exact .done s
  | cons label labels ih =>
    rw [List.length_cons] at hsmall
    obtain ⟨k, hk, hfirst, hpick⟩ := pick_eq few owner call s label
    have hsize := size_picked_pick_le taken bound owner call s label
    have hrest := ih (s.pick taken bound owner call label) (by omega)
    rw [List.foldl_cons]
    rw [hpick] at hrest ⊢
    exact .pick (hfirst.search (by omega)) hrest

/-- The number behind a name is less than the number of names that could be in its way. -/
theorem exists_number (few : FewTaken taken bound) {total : Nat} (labels : List String) (s : Supply)
    (hpicked : s.picked.size + labels.length ≤ total)
    (hs : ∀ l v : String, s.names[l]? = some v → ∃ k < bound + total, v = candidate (mangle owner l call) k) :
    ∀ l v : String, (labels.foldl (Supply.pick taken bound owner call) s).names[l]? = some v →
      ∃ k < bound + total, v = candidate (mangle owner l call) k := by
  induction labels generalizing s with
  | nil => exact hs
  | cons label labels ih =>
    rw [List.length_cons] at hpicked
    obtain ⟨k, hk, -, hpick⟩ := pick_eq few owner call s label
    have hsize := size_picked_pick_le taken bound owner call s label
    rw [List.foldl_cons]
    refine ih (s.pick taken bound owner call label) (by omega) fun l v hv => ?_
    rw [hpick, getElem?_insert_name] at hv
    split_ifs at hv with hl
    · subst hl
      exact ⟨k, by omega, (Option.some.inj hv).symm⟩
    · exact hs l v hv

end Supply

/-- What is picked does not depend on the number of taken names that is told. -/
theorem FewTaken.fresh_eq {bound' : Nat} (few : FewTaken taken bound) (few' : FewTaken taken bound')
    (owner : String) (locals : NameSet) (call : Nat) :
    fresh taken bound owner locals call = fresh taken bound' owner locals call := by
  have hpick : Supply.pick taken bound owner call = Supply.pick taken bound' owner call := by
    funext s label
    obtain ⟨k, -, hfirst, heq⟩ := Supply.pick_eq few owner call s label
    obtain ⟨k', -, hfirst', heq'⟩ := Supply.pick_eq few' owner call s label
    rw [heq, heq', hfirst.unique hfirst']
  rw [fresh, fresh, hpick]

theorem fewTaken_of_finite (finite : {n | taken n = true}.Finite) : FewTaken taken finite.toFinset.card := by
  refine ⟨finite.toFinset.toList, (Finset.length_toList _).le, fun n hn => ?_⟩
  rw [Finset.mem_toList, Set.Finite.mem_toFinset]
  exact hn

/-- **Names for the labels of a macro are found**, for every macro and call and every finite set of taken names
that has, together with the local labels, up to 2 ^ 31 members.  Then the searches end without an overflow, and
there is one result.  It is the renaming of every call, for the names in use where it stands.  It names exactly the
local labels of the macro, no two alike; a name is not taken, and is made of macro, label and number of the call,
and maybe one more number. -/
theorem fresh_of_few (owner : String) (m : Macro) (call : Nat) {taken : String → Bool}
    (finite : {n | taken n = true}.Finite) (hsmall : finite.toFinset.card + m.locals.size ≤ 2147483648) :
    ∃ s : Supply, (∀ wraps s', Supply.Run wraps taken owner call {} m.locals.toList s' ↔ s' = s) ∧
      (∀ bound, finite.toFinset.card ≤ bound → fresh taken bound owner m.locals call = s.names) ∧
      (∀ (scope : Scope) labels, scope.inUse labels = taken → scope.nextCall m = call →
        scope.freshNames labels owner m = s.names) ∧
      (∀ l, l ∈ s.names ↔ l ∈ m.locals) ∧
      (∀ l l' v : String, s.names[l]? = some v → s.names[l']? = some v → l = l') ∧
      ∀ l v : String, s.names[l]? = some v → taken v = false ∧
        (v = mangle owner l call ∨
          ∃ k, 0 < k ∧ k < finite.toFinset.card + m.locals.size ∧ v = mangle owner l call ++ "_" ++ k.repr) := by
  have few := fewTaken_of_finite finite
  have hlength : m.locals.toList.length = m.locals.size := Std.ExtTreeSet.length_toList
  set s := m.locals.toList.foldl (Supply.pick taken finite.toFinset.card owner call) {}
  have hrun : ∀ wraps, Supply.Run wraps taken owner call {} m.locals.toList s := by
    refine fun wraps => Supply.run_foldl few wraps owner call m.locals.toList {} ?_
    rw [hlength]
    exact hsmall
  have hgood : s.Good taken owner call m.locals.toList :=
    (Supply.good_empty taken owner call).foldl_pick few m.locals.toList
  refine ⟨s, fun wraps s' => ⟨fun h => (hrun wraps).unique h, fun h => h ▸ hrun wraps⟩, fun bound hbound => ?_, ?_,
    fun l => ?_, hgood.inj, fun l v hv => ⟨hgood.free l v hv, ?_⟩⟩
  · exact (few.mono hbound).fresh_eq few owner m.locals call
  · rintro scope labels rfl rfl
    cases scope with
    | program => exact (fewTaken_table labels).fresh_eq few owner m.locals _
    | definition params locals => exact (fewTaken_set locals).fresh_eq few owner m.locals _
  · rw [hgood.domain, Std.ExtTreeSet.mem_toList]
  · have hpicked : ({} : Supply).picked.size + m.locals.toList.length ≤ m.locals.size := by simp
    obtain ⟨k, hk, rfl⟩ := Supply.exists_number few m.locals.toList {} hpicked (by simp) l v hv
    cases k with
    | zero => exact .inl rfl
    | succ k => exact .inr ⟨k + 1, Nat.succ_pos k, hk, rfl⟩

/-- A macro with two labels, of which the second one is written as the first one with a number behind it. -/
def crossing : Macro :=
  { params := 0, body := [], dependencies := ∅, locals := {"x", "x_1"}, calls := 0, topLevelCalls := 0 }

/-- The first label passes a name that is taken and gets the name that the second one would get; the second one
passes that. -/
theorem fresh_of_few_crossing : {n | ({"Mm_x_1"} : NameSet).contains n = true}.Finite ∧
    ∃ s : Supply, Supply.Run false ({"Mm_x_1"} : NameSet).contains "m" 1 {} crossing.locals.toList s ∧
      s.names["x"]? = some "Mm_x_1_1" ∧ s.names["x_1"]? = some "Mm_x_1_1_1" := by
  have hsub : {n | ({"Mm_x_1"} : NameSet).contains n = true} ⊆ {"Mm_x_1"} := by
    intro n hn
    have hn : ({"Mm_x_1"} : NameSet).contains n = true := hn
    rw [Std.ExtTreeSet.contains_iff_mem] at hn
    exact (by simpa using hn : "Mm_x_1" = n).symm
  have finite := (Set.finite_singleton "Mm_x_1").subset hsub
  have hcard : finite.toFinset.card ≤ 1 := by
    refine Finset.card_le_one.2 fun a ha b hb => ?_
    rw [Set.Finite.mem_toFinset] at ha hb
    exact (hsub ha).trans (hsub hb).symm
  have hsize : crossing.locals.size = 2 := by decide +kernel
  obtain ⟨s, hrun, -, hscope, -⟩ := fresh_of_few "m" crossing 1 finite (by omega)
  refine ⟨finite, s, (hrun false s).2 rfl, ?_⟩
  rw [← hscope (.definition 0 {"Mm_x_1"}) ∅ rfl rfl]
  decide +kernel

/-! ## An overflow -/

/-- Whether a name is one of the first 2 ^ 31 candidates for the label `x` in the first call of the macro `m`. -/
def crowded (name : String) : Bool := (List.range (maxSuffix + 1)).any fun k => candidate "Mm_x_1" k == name

theorem crowded_iff {name : String} : crowded name = true ↔ ∃ k ≤ maxSuffix, candidate "Mm_x_1" k = name := by
  simp only [crowded, List.any_eq_true, List.mem_range, Nat.lt_succ_iff, beq_iff_eq]

theorem isFirst_crowded : IsFirst crowded "Mm_x_1" (maxSuffix + 1) where
  free := by
    rw [Bool.eq_false_iff, Ne, crowded_iff]
    rintro ⟨k, hk, he⟩
    exact absurd (candidate_injective _ he) (by omega)
  taken_of_lt j hj := crowded_iff.2 ⟨j, Nat.le_of_lt_succ hj, rfl⟩

/-- No number without a sign is written as the least number of 32 bits is. -/
theorem append_repr_ne (k : Nat) : "Mm_x_1" ++ "_" ++ k.repr ≠ "Mm_x_1_-2147483648" := by
  intro he
  have hsplit : "Mm_x_1" ++ "_" ++ k.repr = "Mm_x_1" ++ "_" ++ "-2147483648" := he
  have hrepr : k.repr = "-2147483648" := by
    have e := congrArg String.toList hsplit
    rw [String.toList_append, String.toList_append] at e
    exact String.toList_injective (List.append_cancel_left e)
  have hminus : '-' ∈ k.repr.toList := by
    rw [hrepr]
    decide
  rw [Nat.toList_repr] at hminus
  exact absurd (Nat.isDigit_of_mem_toDigits (by decide) (by decide) hminus) (by decide)

theorem search_crowded : Search true crowded "Mm_x_1" 0 "Mm_x_1" "Mm_x_1_-2147483648" := by
  refine Search.skip (n := 0) (Nat.zero_le _) (Nat.le_refl maxSuffix)
    (fun j _ hj => isFirst_crowded.taken_of_lt j (Nat.lt_succ_of_lt hj)) ?_
  refine .next (isFirst_crowded.taken_of_lt _ (Nat.lt_succ_self _)) (.inl rfl) ?_
  have hleast : numbered "Mm_x_1" (Int32.ofNat maxSuffix + 1) = "Mm_x_1_-2147483648" := by decide +kernel
  rw [hleast]
  refine .found (Bool.eq_false_iff.2 fun h => ?_)
  obtain ⟨k, -, he⟩ := crowded_iff.1 h
  cases k with
  | zero => exact absurd he (by decide)
  | succ k => exact append_repr_ne (k + 1) he

/-- A macro with one label. -/
def lone : Macro := { params := 0, body := [], dependencies := ∅, locals := {"x"}, calls := 0, topLevelCalls := 0 }

/-- **The counter can overflow.**  For a finite set of taken names, the search for the name of one label breaks
off, or goes on with the least number of 32 bits, which is negative, and ends there. -/
theorem fresh_overflows : {n | crowded n = true}.Finite ∧ lone.locals.toList = ["x"] ∧
    (∀ s, ¬ Supply.Run false crowded "m" 1 {} lone.locals.toList s) ∧
    (∃ s, Supply.Run true crowded "m" 1 {} lone.locals.toList s) ∧
    (∀ s, Supply.Run true crowded "m" 1 {} lone.locals.toList s → s.names["x"]? = some "Mm_x_1_-2147483648") ∧
    mangle "m" "x" 1 ≠ "Mm_x_1_-2147483648" ∧
    ∀ k : Nat, mangle "m" "x" 1 ++ "_" ++ k.repr ≠ "Mm_x_1_-2147483648" := by
  have hlocals : lone.locals.toList = ["x"] := by decide +kernel
  have hused : (fun n => crowded n || ({} : Supply).picked.contains n) = crowded := by
    funext n
    simp
  have hmangle : mangle "m" "x" 1 = "Mm_x_1" := by decide +kernel
  have hrun : Supply.Run true crowded "m" 1 {} ["x"]
      ⟨({} : Supply).names.insert "x" "Mm_x_1_-2147483648", ({} : Supply).picked.insert "Mm_x_1_-2147483648"⟩ := by
    refine .pick ?_ (.done _)
    rw [hused, hmangle]
    exact search_crowded
  rw [hlocals, hmangle]
  refine ⟨?_, rfl, fun s h => ?_, ⟨_, hrun⟩, fun s h => ?_, by decide, append_repr_ne⟩
  · refine (List.finite_toSet ((List.range (maxSuffix + 1)).map (candidate "Mm_x_1"))).subset fun n hn => ?_
    obtain ⟨k, hk, rfl⟩ := crowded_iff.1 hn
    exact List.mem_map_of_mem (List.mem_range.2 (Nat.lt_succ_of_le hk))
  · cases h with
    | pick h _ =>
      rw [hused, hmangle, search_iff_firstFree] at h
      have hnone := firstFree_eq isFirst_crowded (Nat.zero_le _) (Nat.zero_add maxSuffix)
      rw [if_neg (Nat.not_succ_le_self maxSuffix)] at hnone
      exact absurd (hnone.symm.trans h) (by simp)
  · rw [hrun.unique h]
    exact (getElem?_insert_name _ _ _ _).trans (if_pos rfl)

end Abcout.Renaming
