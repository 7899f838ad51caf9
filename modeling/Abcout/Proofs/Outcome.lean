import Mathlib.Data.List.Forall2
import Mathlib.Tactic.Common
import Abcout.Diagnostic

/-!
# Abcout.Proofs.Outcome — what a success says about the steps before it

Every pass is a chain of steps that may fail.  The lemmas here take a success of the chain apart into successes of
its steps; `foldlM_keeps` is the one induction over the lines of a pass, and `exists_of_foldlM_eq_error` finds the
line at which a pass fails.  `foldlM_perm` says when the order of the steps does not matter, and `foldlM_parts`
which part of the result each step has made.
-/

namespace Abcout

variable {ε ε' α β : Type}

theorem bind_eq_ok {x : Except ε α} {f : α → Except ε β} {b : β} :
    x >>= f = .ok b ↔ ∃ a, x = .ok a ∧ f a = .ok b := by
  cases x with
  | error e =>
    constructor
    · intro h
      cases h
    · rintro ⟨a, h, -⟩
      cases h
  | ok a =>
    constructor
    · intro h
      exact ⟨a, rfl, h⟩
    · rintro ⟨a', h, hb⟩
      cases h
      exact hb

theorem bind_eq_error {x : Except ε α} {f : α → Except ε β} {e : ε} :
    x >>= f = .error e ↔ x = .error e ∨ ∃ a, x = .ok a ∧ f a = .error e := by
  cases x with
  | error e' =>
    constructor
    · intro h
      cases h
      exact .inl rfl
    · rintro (h | ⟨a, h, -⟩)
      · cases h
        rfl
      · cases h
  | ok a =>
    constructor
    · intro h
      exact .inr ⟨a, rfl, h⟩
    · rintro (h | ⟨a', h, he⟩)
      · cases h
      · cases h
        exact he

theorem map_eq_ok {x : Except ε α} {f : α → β} {b : β} : f <$> x = .ok b ↔ ∃ a, x = .ok a ∧ f a = b := by
  cases x with
  | error e =>
    constructor
    · intro h
      cases h
    · rintro ⟨a, h, -⟩
      cases h
  | ok a =>
    constructor
    · intro h
      cases h
      exact ⟨a, rfl, rfl⟩
    · rintro ⟨a', h, rfl⟩
      cases h
      rfl

theorem map_eq_error {x : Except ε α} {f : α → β} {e : ε} : f <$> x = .error e ↔ x = .error e := by
  cases x with
  | error e' => exact ⟨fun h => congrArg _ (Except.error.inj h), fun h => congrArg _ (Except.error.inj h)⟩
  | ok a =>
    constructor
    · intro h
      cases h
    · intro h
      cases h

theorem pure_eq_ok {a b : α} : (pure a : Except ε α) = .ok b ↔ a = b :=
  ⟨fun h => by cases h; rfl, fun h => h ▸ rfl⟩

theorem toOption_eq_some {x : Except ε α} {a : α} : x.toOption = some a ↔ x = .ok a := by
  cases x with
  | error e => exact ⟨nofun, nofun⟩
  | ok a' => exact ⟨fun h => congrArg _ (Option.some.inj h), fun h => congrArg _ (Except.ok.inj h)⟩

theorem check_bind_eq_ok {x : Except ε Unit} {f : Unit → Except ε β} {b : β} :
    x >>= f = .ok b ↔ x = .ok () ∧ f () = .ok b := by
  rw [bind_eq_ok]
  exact ⟨fun ⟨⟨⟩, hx, h⟩ => ⟨hx, h⟩, fun ⟨hx, h⟩ => ⟨(), hx, h⟩⟩

theorem ensure_bind_eq_ok {condition : Bool} {e : ε} {f : Unit → Except ε β} {b : β} :
    ensure condition e >>= f = .ok b ↔ condition = true ∧ f () = .ok b := by
  rw [check_bind_eq_ok, ensure_eq_ok_iff]

@[simp] theorem mapError_eq_ok {x : Except ε α} {f : ε → ε'} {a : α} : x.mapError f = .ok a ↔ x = .ok a := by
  cases x with
  | error e => simp [Except.mapError]
  | ok a' => simp [Except.mapError]

theorem mapError_eq_error {x : Except ε α} {f : ε → ε'} {e : ε'} :
    x.mapError f = .error e ↔ ∃ e', x = .error e' ∧ f e' = e := by
  cases x with
  | error e' => simp [Except.mapError]
  | ok a => simp [Except.mapError]

theorem forM_eq_ok {xs : List α} {f : α → Except ε Unit} : xs.forM f = .ok () ↔ ∀ x ∈ xs, f x = .ok () := by
  induction xs with
  | nil => exact ⟨fun _ x hx => absurd hx List.not_mem_nil, fun _ => rfl⟩
  | cons x xs ih =>
    have hcons : (x :: xs).forM f = f x >>= fun _ => xs.forM f := rfl
    rw [hcons, bind_eq_ok, List.forall_mem_cons, ← ih]
    constructor
    · rintro ⟨⟨⟩, h, hs⟩
      exact ⟨h, hs⟩
    · rintro ⟨h, hs⟩
      exact ⟨(), h, hs⟩

theorem mapM_eq_ok {xs : List α} {f : α → Except ε β} {ys : List β} :
    xs.mapM f = .ok ys ↔ List.Forall₂ (fun x y => f x = .ok y) xs ys := by
  induction xs generalizing ys with
  | nil =>
    rw [List.mapM_nil, pure_eq_ok, List.forall₂_nil_left_iff]
    exact eq_comm
  | cons x xs ih =>
    rw [List.mapM_cons, bind_eq_ok, List.forall₂_cons_left_iff]
    constructor
    · rintro ⟨y, hy, h⟩
      obtain ⟨ys', hys', h⟩ := bind_eq_ok.1 h
      exact ⟨y, ys', hy, ih.1 hys', (pure_eq_ok.1 h).symm⟩
    · rintro ⟨y, ys', hy, hys', rfl⟩
      exact ⟨y, hy, bind_eq_ok.2 ⟨ys', ih.2 hys', rfl⟩⟩

/-- The first element that fails is the one that counts. -/
theorem mapM_eq_error {xs : List α} {f : α → Except ε β} {e : ε} :
    xs.mapM f = .error e ↔ ∃ before x after, xs = before ++ x :: after ∧ (∀ y ∈ before, ∃ b, f y = .ok b) ∧
      f x = .error e := by
  induction xs with
  | nil => simp [pure, Except.pure]
  | cons x xs ih =>
    rw [List.mapM_cons, bind_eq_error]
    constructor
    · rintro (h | ⟨b, hb, h⟩)
      · exact ⟨[], x, xs, rfl, List.forall_mem_nil _, h⟩
      · rcases bind_eq_error.1 h with h | ⟨bs, -, h⟩
        · obtain ⟨before, y, after, rfl, hbefore, hy⟩ := ih.1 h
          exact ⟨x :: before, y, after, rfl, List.forall_mem_cons.2 ⟨⟨b, hb⟩, hbefore⟩, hy⟩
        · cases h
    · rintro ⟨before, y, after, heq, hbefore, hy⟩
      cases before with
      | nil =>
        obtain ⟨rfl, rfl⟩ := List.cons.inj heq
        exact .inl hy
      | cons z before =>
        obtain ⟨rfl, rfl⟩ := List.cons.inj heq
        obtain ⟨⟨b, hb⟩, hbefore⟩ := List.forall_mem_cons.1 hbefore
        exact .inr ⟨b, hb, bind_eq_error.2 (.inl (ih.2 ⟨before, y, after, rfl, hbefore, hy⟩))⟩

theorem exists_of_mem_mapM {xs : List α} {f : α → Except ε β} {ys : List β} (h : xs.mapM f = .ok ys) {y : β}
    (hy : y ∈ ys) : ∃ x ∈ xs, f x = .ok y := by
  rw [mapM_eq_ok] at h
  induction h with
  | nil => exact absurd hy List.not_mem_nil
  | cons hx _ ih =>
    rcases List.mem_cons.1 hy with rfl | hy
    · exact ⟨_, List.mem_cons_self, hx⟩
    · obtain ⟨x, hmem, hfx⟩ := ih hy
      exact ⟨x, List.mem_cons_of_mem _ hmem, hfx⟩

/-- **Run from step**: what every step keeps, told of the state and the lines still to come, holds at the end. -/
theorem foldlM_keeps {step : β → α → Except ε β} (P : β → List α → Prop)
    (hstep : ∀ b x rest b', P b (x :: rest) → step b x = .ok b' → P b' rest) {xs : List α} {b b' : β}
    (h0 : P b xs) (h : xs.foldlM step b = .ok b') : P b' [] := by
  induction xs generalizing b with
  | nil =>
    rw [List.foldlM_nil, pure_eq_ok] at h
    exact h ▸ h0
  | cons x xs ih =>
    rw [List.foldlM_cons, bind_eq_ok] at h
    obtain ⟨b₁, hb₁, h⟩ := h
    exact ih (hstep b x xs b₁ h0 hb₁) h

/-- **Run from step, for two runs**: where each step of the first can be made by the second, which stays related to
it, the second run succeeds with the first. -/
theorem foldlM_simulates {α' β' : Type} {step : β → α → Except ε β} {step' : β' → α' → Except ε' β'}
    (R : β → β' → Prop) (Q : α → α' → Prop)
    (hstep : ∀ b b' x x' c, R b b' → Q x x' → step b x = .ok c → ∃ c', step' b' x' = .ok c' ∧ R c c')
    {xs : List α} {xs' : List α'} (hxs : List.Forall₂ Q xs xs') {b c : β} {b' : β'} (h0 : R b b')
    (h : xs.foldlM step b = .ok c) : ∃ c', xs'.foldlM step' b' = .ok c' ∧ R c c' := by
  induction hxs generalizing b b' with
  | nil =>
    rw [List.foldlM_nil, pure_eq_ok] at h
    exact ⟨b', rfl, h ▸ h0⟩
  | cons hx _ ih =>
    rw [List.foldlM_cons, bind_eq_ok] at h
    obtain ⟨b₁, hb₁, h⟩ := h
    obtain ⟨b₁', hb₁', hR⟩ := hstep _ _ _ _ _ h0 hx hb₁
    obtain ⟨c', hc', hR'⟩ := ih hR h
    exact ⟨c', by rw [List.foldlM_cons, hb₁']; exact hc', hR'⟩

/-- A run that succeeds, at one of its steps. -/
theorem exists_of_foldlM_append_cons {step : β → α → Except ε β} {before after : List α} {x : α} {b b' : β}
    (h : (before ++ x :: after).foldlM step b = .ok b') :
    ∃ b₁ b₂, before.foldlM step b = .ok b₁ ∧ step b₁ x = .ok b₂ ∧ after.foldlM step b₂ = .ok b' := by
  rw [List.foldlM_append, bind_eq_ok] at h
  obtain ⟨b₁, hb₁, h⟩ := h
  rw [List.foldlM_cons, bind_eq_ok] at h
  obtain ⟨b₂, hb₂, h⟩ := h
  exact ⟨b₁, b₂, hb₁, hb₂, h⟩

/-- **The parts of a run**: where each step puts something behind what is there, a run comes apart into its inputs,
each with what was put there for it. -/
theorem foldlM_parts {γ : Type} {step : β → α → Except ε β} (P : β → List α → Prop) (out : β → List γ)
    (hstep : ∀ b x rest b', P b (x :: rest) → step b x = .ok b' → P b' rest)
    (hout : ∀ b x b', step b x = .ok b' → ∃ piece, out b' = out b ++ piece) {xs : List α} {b b' : β} (h0 : P b xs)
    (h : xs.foldlM step b = .ok b') :
    ∃ parts : List (α × List γ), parts.map Prod.fst = xs ∧ out b' = out b ++ parts.flatMap Prod.snd ∧
      ∀ above e below, parts = above ++ e :: below → ∃ b₁ b₂, P b₁ (e.1 :: below.map Prod.fst) ∧
        step b₁ e.1 = .ok b₂ ∧ out b₁ = out b ++ above.flatMap Prod.snd ∧ out b₂ = out b₁ ++ e.2 := by
  induction xs generalizing b with
  | nil =>
    cases h
    exact ⟨[], rfl, (List.append_nil _).symm, by simp⟩
  | cons x xs ih =>
    rw [List.foldlM_cons, bind_eq_ok] at h
    obtain ⟨b₁, hb₁, h⟩ := h
    obtain ⟨piece, hpiece⟩ := hout b x b₁ hb₁
    obtain ⟨parts, rfl, hsnd, hparts⟩ := ih (hstep b x xs b₁ h0 hb₁) h
    refine ⟨(x, piece) :: parts, rfl, by rw [hsnd, hpiece, List.flatMap_cons, List.append_assoc], ?_⟩
    intro above e below hsplit
    cases above with
    | nil =>
      cases hsplit
      exact ⟨b, b₁, h0, hb₁, (List.append_nil _).symm, hpiece⟩
    | cons e' above =>
      cases hsplit
      obtain ⟨b₂, b₃, hP, hb₃, hbefore, hafter⟩ := hparts above e below rfl
      exact ⟨b₂, b₃, hP, hb₃, by rw [hbefore, hpiece, List.flatMap_cons, List.append_assoc], hafter⟩

/-- Every step of a run that succeeds has succeeded. -/
theorem exists_step_of_mem {step : β → α → Except ε β} {xs : List α} {b b' : β} (h : xs.foldlM step b = .ok b')
    {x : α} (hx : x ∈ xs) : ∃ b₁ b₂, step b₁ x = .ok b₂ := by
  obtain ⟨before, after, rfl⟩ := List.append_of_mem hx
  obtain ⟨b₁, b₂, -, hb₂, -⟩ := exists_of_foldlM_append_cons h
  exact ⟨b₁, b₂, hb₂⟩

/-- **Where a run fails**: the steps before it succeed, and one step fails with the fault of the run. -/
theorem exists_of_foldlM_eq_error {step : β → α → Except ε β} {xs : List α} {b : β} {e : ε}
    (h : xs.foldlM step b = .error e) :
    ∃ before x after b', xs = before ++ x :: after ∧ before.foldlM step b = .ok b' ∧ step b' x = .error e := by
  induction xs generalizing b with
  | nil => cases h
  | cons x xs ih =>
    rw [List.foldlM_cons] at h
    cases hx : step b x with
    | error e' =>
      rw [hx] at h
      cases h
      exact ⟨[], x, xs, b, rfl, rfl, hx⟩
    | ok b₁ =>
      rw [hx] at h
      obtain ⟨before, y, after, b', rfl, hbefore, hy⟩ := ih h
      refine ⟨x :: before, y, after, b', rfl, ?_, hy⟩
      rw [List.foldlM_cons, hx]
      exact hbefore

theorem foldlM_of_fixed {step : β → α → Except ε β} {xs : List α} {b : β} (h : ∀ x ∈ xs, step b x = .ok b) :
    xs.foldlM step b = .ok b := by
  induction xs with
  | nil => rfl
  | cons x xs ih =>
    rw [List.foldlM_cons, h x List.mem_cons_self]
    exact ih fun y hy => h y (List.mem_cons_of_mem _ hy)

/-- Inputs that no step takes into account can be left out. -/
theorem foldlM_filter {step : β → α → Except ε β} {p : α → Bool} (h : ∀ b x, p x = false → step b x = .ok b)
    (xs : List α) (b : β) : (xs.filter p).foldlM step b = xs.foldlM step b := by
  induction xs generalizing b with
  | nil => rfl
  | cons x xs ih =>
    cases hx : p x with
    | true =>
      rw [List.filter_cons_of_pos hx, List.foldlM_cons, List.foldlM_cons]
      exact congrArg _ (funext fun b' => ih b')
    | false =>
      rw [List.filter_cons_of_neg (by simp [hx]), List.foldlM_cons, h b x hx]
      exact ih b

/-- **Steps that commute can be made in any order.** -/
theorem foldlM_perm {step : β → α → Except ε β}
    (hcomm : ∀ b x y b₁ b₂, step b x = .ok b₁ → step b₁ y = .ok b₂ →
      ∃ b₁', step b y = .ok b₁' ∧ step b₁' x = .ok b₂)
    {xs ys : List α} (hperm : xs.Perm ys) {b b' : β} (h : xs.foldlM step b = .ok b') :
    ys.foldlM step b = .ok b' := by
  induction hperm generalizing b b' with
  | nil => exact h
  | cons x _ ih =>
    rw [List.foldlM_cons, bind_eq_ok] at h ⊢
    obtain ⟨b₁, hx, h⟩ := h
    exact ⟨b₁, hx, ih h⟩
  | swap x y xs =>
    rw [List.foldlM_cons, bind_eq_ok] at h
    obtain ⟨b₁, hy, h⟩ := h
    rw [List.foldlM_cons, bind_eq_ok] at h
    obtain ⟨b₂, hx, h⟩ := h
    obtain ⟨b₁', hx', hy'⟩ := hcomm b y x b₁ b₂ hy hx
    rw [List.foldlM_cons, bind_eq_ok]
    refine ⟨b₁', hx', ?_⟩
    rw [List.foldlM_cons, hy']
    exact h
  | trans _ _ ih₁ ih₂ => exact ih₂ (ih₁ h)

end Abcout
