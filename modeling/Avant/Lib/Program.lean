import Mathlib.Data.List.Induction
import Mathlib.Tactic.Basic

/-!
# Programs without input

A program is a function `step : σ → Except ε σ`: the next state, or how the program ends. `Runs`
is that it gets from one state to another, `Halts` that it gets to a state in which it ends in a
given way.

`Ends e s s' g` describes a part of a run together with what can go wrong in it: if `g`, the
program gets from `s` to `s'`; if not, it never ends with `e`, because it ends in another way or
goes on for ever. Such statements compose (`Ends.seq`), and at the end they decide when the
program ends with `e` (`Ends.halts_iff`). `Gives` is the same of one computation, such as a step.
-/

namespace Avant.Lib

variable {σ ε α β : Type}

theorem ok_bind (a : α) (f : α → Except ε β) : (.ok a >>= f) = f a := rfl

theorem error_bind (e : ε) (f : α → Except ε β) : (.error e >>= f) = .error e := rfl

theorem forall_getElem?_concat {xs : List α} {x : α} {G : Nat → α → Prop} :
    (∀ k y, (xs ++ [x])[k]? = some y → G k y) ↔
      (∀ k y, xs[k]? = some y → G k y) ∧ G xs.length x := by
  simp only [List.getElem?_append]
  constructor
  · intro hG
    refine ⟨fun k y hk => hG k y ?_, hG xs.length x (by simp)⟩
    rwa [if_pos (List.getElem?_eq_some_iff.mp hk).1]
  · rintro ⟨hG, hx⟩ k y hk
    split at hk
    · exact hG k y hk
    · obtain ⟨hlt, rfl⟩ := List.getElem?_eq_some_iff.mp hk
      obtain rfl : k = xs.length := by
        simp only [List.length_singleton] at hlt
        omega
      simpa using hx

/-- If `g`, the computation gives `a`; otherwise it fails, and not with `e`. -/
structure Gives (e : ε) (m : Except ε α) (a : α) (g : Prop) : Prop where
  ok : g → m = .ok a
  fails : ¬ g → ∃ e', m = .error e' ∧ e' ≠ e

/-- The program gets from one state to another. -/
inductive Runs (step : σ → Except ε σ) : σ → σ → Prop
  | refl (s : σ) : Runs step s s
  | head {s s₁ s' : σ} : step s = .ok s₁ → Runs step s₁ s' → Runs step s s'

/-- The program, started in `s`, ends in `s'` with `e`. -/
def Halts (step : σ → Except ε σ) (e : ε) (s s' : σ) : Prop :=
  Runs step s s' ∧ step s' = .error e

/-- If `g`, the program gets from `s` to `s'`; otherwise it never ends with `e`. -/
structure Ends (step : σ → Except ε σ) (e : ε) (s s' : σ) (g : Prop) : Prop where
  reaches : g → Runs step s s'
  lost : ¬ g → ∀ t, ¬ Halts step e s t

variable {step : σ → Except ε σ} {e e' : ε} {s s₁ s' t : σ} {g g₁ g₂ : Prop}

namespace Gives

variable {m : Except ε α} {f : α → Except ε β} {a : α} {b : β}

theorem of_eq (h : m = .ok a) (hg : g) : Gives e m a g := ⟨fun _ => h, fun h => absurd hg h⟩

theorem pure (hg : g) : Gives e (.ok a) a g := of_eq rfl hg

theorem congr (hg : g ↔ g₁) (h : Gives e m a g) : Gives e m a g₁ where
  ok h₁ := h.ok (hg.mpr h₁)
  fails h₁ := h.fails fun h' => h₁ (hg.mp h')

theorem guard [Decidable g] (e' : ε) (hne : e' ≠ e) :
    Gives e (if g then .ok a else .error e') a g where
  ok hg := if_pos hg
  fails hg := ⟨e', if_neg hg, hne⟩

theorem bind (h : Gives e m a g₁) (hf : g₁ → Gives e (f a) b g₂) :
    Gives e (m >>= f) b (g₁ ∧ g₂) where
  ok hg := by rw [h.ok hg.1, ok_bind, (hf hg.1).ok hg.2]
  fails hg := by
    by_cases hg₁ : g₁
    · rw [h.ok hg₁, ok_bind]
      exact (hf hg₁).fails fun hg₂ => hg ⟨hg₁, hg₂⟩
    · obtain ⟨e', hm, hne⟩ := h.fails hg₁
      exact ⟨e', by rw [hm, error_bind], hne⟩

/-- A computation with something done to its result. -/
theorem bind_ok (h : Gives e m a g) (hf : f a = .ok b) : Gives e (m >>= f) b g where
  ok hg := by rw [h.ok hg, ok_bind, hf]
  fails hg := by
    obtain ⟨e', hm, hne⟩ := h.fails hg
    exact ⟨e', by rw [hm, error_bind], hne⟩

/-- A loop over the indices of a list, if a turn goes from the state for the elements in front of
an element to the state with it. -/
theorem loop (f : β → Nat → Except ε β) (xs : List α) (acc : List α → β) (G : Nat → α → Prop)
    (h : ∀ done x todo, xs = done ++ x :: todo →
      Gives e (f (acc done) done.length) (acc (done ++ [x])) (G done.length x)) :
    Gives e ((List.range xs.length).foldlM f (acc [])) (acc xs)
      (∀ k x, xs[k]? = some x → G k x) := by
  induction xs using List.reverseRecOn with
  | nil => exact .pure fun k x hx => absurd hx (by simp)
  | append_singleton xs x ih =>
    have hxs := ih fun done y todo heq => h done y (todo ++ [x]) (by simp [heq])
    rw [List.length_append, List.length_singleton, List.range_succ, List.foldlM_append]
    refine (hxs.bind fun _ => ?_).congr forall_getElem?_concat.symm
    simp only [List.foldlM_cons, List.foldlM_nil, bind_pure]
    exact h xs x [] rfl

end Gives

theorem Runs.trans (h : Runs step s s₁) (h' : Runs step s₁ s') : Runs step s s' := by
  induction h with
  | refl => exact h'
  | head hstep _ ih => exact .head hstep (ih h')

theorem Halts.of_step (hstep : step s = .ok s₁) (h : Halts step e s t) : Halts step e s₁ t := by
  obtain ⟨hrun, hend⟩ := h
  cases hrun with
  | refl => rw [hend] at hstep; cases hstep
  | head hstep' hrest =>
    obtain rfl : s₁ = _ := Except.ok.inj (hstep.symm.trans hstep')
    exact ⟨hrest, hend⟩

/-- A program ends in one state only. -/
theorem Halts.unique (h : Halts step e s s') (h' : Halts step e s t) : s' = t := by
  obtain ⟨hrun, hend⟩ := h
  induction hrun with
  | refl s =>
    obtain ⟨hrun', -⟩ := h'
    cases hrun' with
    | refl => rfl
    | head hstep _ => rw [hend] at hstep; cases hstep
  | head hstep _ ih => exact ih (h'.of_step hstep) hend

theorem Halts.of_runs (hrun : Runs step s s₁) (h : Halts step e s t) : Halts step e s₁ t := by
  induction hrun with
  | refl => exact h
  | head hstep _ ih => exact ih (h.of_step hstep)

namespace Ends

theorem refl (hg : g) : Ends step e s s g := ⟨fun _ => .refl s, fun h => absurd hg h⟩

theorem head (hstep : step s = .ok s₁) (h : Ends step e s₁ s' g) : Ends step e s s' g where
  reaches hg := .head hstep (h.reaches hg)
  lost hg t ht := h.lost hg t (ht.of_step hstep)

/-- Two parts of a run, one after the other. -/
theorem seq (h₁ : Ends step e s s₁ g₁) (h₂ : g₁ → Ends step e s₁ s' g₂) :
    Ends step e s s' (g₁ ∧ g₂) where
  reaches hg := (h₁.reaches hg.1).trans ((h₂ hg.1).reaches hg.2)
  lost hg t ht := by
    by_cases hg₁ : g₁
    · have hg₂ : ¬ g₂ := fun h => hg ⟨hg₁, h⟩
      exact (h₂ hg₁).lost hg₂ t (ht.of_runs (h₁.reaches hg₁))
    · exact h₁.lost hg₁ t ht

theorem congr (hg : g ↔ g₁) (h : Ends step e s s' g) : Ends step e s s' g₁ where
  reaches h₁ := h.reaches (hg.mpr h₁)
  lost h₁ := h.lost fun h' => h₁ (hg.mp h')

/-- The program ends in another way. -/
theorem stuck (hstep : step s = .error e') (hne : e' ≠ e) (hg : ¬ g) : Ends step e s s' g where
  reaches h := absurd h hg
  lost _ t ht := by
    obtain ⟨hrun, hend⟩ := ht
    cases hrun with
    | refl => exact hne (Except.error.inj (hstep.symm.trans hend))
    | head hstep' _ => rw [hstep] at hstep'; cases hstep'

/-- One step. -/
theorem turn (h : Gives e (step s) s' g) : Ends step e s s' g := by
  by_cases hg : g
  · exact .head (h.ok hg) (.refl hg)
  · obtain ⟨e', hstep, hne⟩ := h.fails hg
    exact .stuck hstep hne hg

/-- A step that is taken only if `g`. -/
theorem guard [Decidable g] (e' : ε) (hstep : step s = if g then .ok s' else .error e')
    (hne : e' ≠ e) : Ends step e s s' g :=
  .turn (hstep ▸ .guard e' hne)

/-- The program goes on for ever, or ends in another way: it keeps to states in which it does not
end with `e`. -/
theorem diverge (I : σ → Prop) (hI : I s) (hstay : ∀ s, I s → step s ≠ .error e)
    (hstep : ∀ s s₁, I s → step s = .ok s₁ → I s₁) (hg : ¬ g) : Ends step e s s' g where
  reaches h := absurd h hg
  lost _ t ht := by
    obtain ⟨hrun, hend⟩ := ht
    induction hrun with
    | refl s => exact hstay s hI hend
    | head h _ ih => exact ih (hstep _ _ hI h) hend

/-- The program ends with `e` exactly if `g`, and then in `s'`. -/
theorem halts_iff (h : Ends step e s s' g) (hend : step s' = .error e) :
    Halts step e s t ↔ g ∧ t = s' := by
  constructor
  · intro ht
    by_cases hg : g
    · exact ⟨hg, ht.unique ⟨h.reaches hg, hend⟩⟩
    · exact absurd ht (h.lost hg t)
  · rintro ⟨hg, rfl⟩
    exact ⟨h.reaches hg, hend⟩

end Ends

end Avant.Lib
