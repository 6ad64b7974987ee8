import Mathlib.Algebra.BigOperators.Group.Finset.Basic
import Mathlib.Algebra.BigOperators.Ring.Finset
import Mathlib.Algebra.Order.BigOperators.Group.Finset
import Mathlib.Data.Fintype.BigOperators

/-!
# Runs of a transition function

A system is a function `step : σ → ι → Option σ`: what a state becomes under a label, `none` when
the label is not enabled. `exec` runs a list of labels. `Along ok` says that every step of a run
meets a condition on the state before it and its label, and `exec_invariant` is the rule of
invariants for such runs. `Reaches` is that there is such a run.

`sum_update` is the bookkeeping of systems of many parts: a step that changes one part changes a
sum over all parts by what it changes there.
-/

namespace Avant.Lib

variable {σ ι : Type}

/-- The state after a run, if all its labels are enabled. -/
def exec (step : σ → ι → Option σ) : σ → List ι → Option σ
  | s, [] => some s
  | s, i :: is => (step s i).bind fun s' => exec step s' is

/-- Every step of the run meets `ok`. -/
def Along (step : σ → ι → Option σ) (ok : σ → ι → Prop) : σ → List ι → Prop
  | _, [] => True
  | s, i :: is => ok s i ∧ ∀ s' ∈ step s i, Along step ok s' is

instance decidableAlong (step : σ → ι → Option σ) (ok : σ → ι → Prop)
    [∀ s i, Decidable (ok s i)] : ∀ s is, Decidable (Along step ok s is)
  | _, [] => isTrue trivial
  | s, i :: is =>
    have : ∀ s', Decidable (Along step ok s' is) := fun s' => decidableAlong step ok s' is
    inferInstanceAs (Decidable (ok s i ∧ ∀ s' ∈ step s i, Along step ok s' is))

variable {step : σ → ι → Option σ} {ok : σ → ι → Prop}

theorem exec_cons_eq_some {s s' : σ} {i : ι} {is : List ι} :
    exec step s (i :: is) = some s' ↔ ∃ s₁, step s i = some s₁ ∧ exec step s₁ is = some s' := by
  rw [exec, Option.bind_eq_some_iff]

/-- **Invariants of guarded runs**: what every step that meets the condition preserves holds at
the end of every run whose steps all do. -/
theorem exec_invariant {Inv : σ → Prop}
    (hstep : ∀ {s i s'}, Inv s → ok s i → step s i = some s' → Inv s') :
    ∀ {is : List ι} {s s' : σ}, Inv s → Along step ok s is → exec step s is = some s' → Inv s'
  | [], s, s', hs, _, hrun => by
    obtain rfl : s = s' := Option.some.inj hrun
    exact hs
  | i :: is, s, s', hs, halong, hrun => by
    obtain ⟨s₁, h₁, hrun'⟩ := exec_cons_eq_some.mp hrun
    exact exec_invariant hstep (hstep hs halong.1 h₁) (halong.2 s₁ h₁) hrun'

/-- A run that ends in a state with a decidable property. -/
theorem exists_exec {s : σ} {is : List ι} {p Q : σ → Prop} [DecidablePred p]
    (h : (exec step s is).any (fun s' => p s') = true)
    (hQ : ∀ s', exec step s is = some s' → p s' → Q s') : ∃ s', exec step s is = some s' ∧ Q s' := by
  cases hrun : exec step s is with
  | none => simp [hrun] at h
  | some s' => exact ⟨s', rfl, hQ s' hrun (by simpa [hrun] using h)⟩

theorem along_true : ∀ (is : List ι) (s : σ), Along step (fun _ _ => True) s is
  | [], _ => trivial
  | _ :: is, _ => ⟨trivial, fun s' _ => along_true is s'⟩

theorem along_of_forall {P : ι → Prop} :
    ∀ {is : List ι} (s : σ), (∀ i ∈ is, P i) → Along step (fun _ i => P i) s is
  | [], _, _ => trivial
  | i :: _, _, h =>
    ⟨h i List.mem_cons_self,
      fun s' _ => along_of_forall s' fun j hj => h j (List.mem_cons_of_mem i hj)⟩

theorem forall_of_along {P : ι → Prop} :
    ∀ {is : List ι} {s s' : σ}, Along step (fun _ i => P i) s is → exec step s is = some s' →
      ∀ i ∈ is, P i
  | [], _, _, _, _ => nofun
  | i :: is, s, s', halong, hrun => by
    obtain ⟨s₁, h₁, hrun'⟩ := exec_cons_eq_some.mp hrun
    exact List.forall_mem_cons.mpr ⟨halong.1, forall_of_along (halong.2 s₁ h₁) hrun'⟩

/-! ## Reachability -/

variable (step ok) in
/-- Some run whose steps all meet `ok` leads from `s` to `s'`. -/
def Reaches (s s' : σ) : Prop := ∃ is, Along step ok s is ∧ exec step s is = some s'

namespace Reaches

variable {s s₁ s' : σ} {i : ι}

theorem refl (s : σ) : Reaches step ok s s := ⟨[], trivial, rfl⟩

theorem head (h : step s i = some s₁) (hok : ok s i) (hr : Reaches step ok s₁ s') :
    Reaches step ok s s' := by
  obtain ⟨is, halong, hrun⟩ := hr
  refine ⟨i :: is, ⟨hok, fun s₂ h₂ => ?_⟩, exec_cons_eq_some.mpr ⟨s₁, h, hrun⟩⟩
  obtain rfl : s₁ = s₂ := Option.some.inj (h.symm.trans h₂)
  exact halong

theorem single (h : step s i = some s') (hok : ok s i) : Reaches step ok s s' :=
  head h hok (refl s')

theorem trans (h : Reaches step ok s s₁) (h' : Reaches step ok s₁ s') : Reaches step ok s s' := by
  obtain ⟨is, halong, hrun⟩ := h
  induction is generalizing s with
  | nil =>
    obtain rfl : s = s₁ := Option.some.inj hrun
    exact h'
  | cons i is ih =>
    obtain ⟨s₂, h₂, hrun'⟩ := exec_cons_eq_some.mp hrun
    exact head h₂ halong.1 (ih (halong.2 s₂ h₂) hrun')

theorem invariant {Inv : σ → Prop}
    (hstep : ∀ {s i s'}, Inv s → ok s i → step s i = some s' → Inv s')
    (h : Reaches step ok s s') (hs : Inv s) : Inv s' := by
  obtain ⟨is, halong, hrun⟩ := h
  exact exec_invariant hstep hs halong hrun

/-- **Progress**: where every state with `I` has `G` or can go on to one with `I` of a smaller
measure, `G` can be reached. -/
theorem of_measure {I G : σ → Prop} (μ : σ → Nat)
    (hstep : ∀ s, I s → G s ∨ ∃ s', Reaches step ok s s' ∧ I s' ∧ μ s' < μ s) (hs : I s) :
    ∃ s', Reaches step ok s s' ∧ I s' ∧ G s' := by
  generalize hn : μ s = n
  induction n using Nat.strongRecOn generalizing s with
  | ind n ih =>
    rcases hstep s hs with hgoal | ⟨s₁, hreach, hs₁, hlt⟩
    · exact ⟨s, refl s, hs, hgoal⟩
    · obtain ⟨s', hreach', hs', hgoal⟩ := ih (μ s₁) (hn ▸ hlt) hs₁ rfl
      exact ⟨s', hreach.trans hreach', hs', hgoal⟩

end Reaches

/-! ## Sums -/

/-- A sum over the parts of a system, when one part changes. -/
theorem sum_update {κ α : Type} [Fintype κ] [DecidableEq κ] (g : κ → α → ℤ) (f : κ → α) (k : κ)
    (a : α) : ∑ j, g j (Function.update f k a j) = ∑ j, g j (f j) - g k (f k) + g k a := by
  have hrest : ∑ j ∈ Finset.univ.erase k, g j (Function.update f k a j) =
      ∑ j ∈ Finset.univ.erase k, g j (f j) := by
    refine Finset.sum_congr rfl fun j hj => ?_
    rw [Function.update_of_ne (Finset.ne_of_mem_erase hj)]
  rw [← Finset.add_sum_erase _ _ (Finset.mem_univ k),
    ← Finset.add_sum_erase _ (fun j => g j (f j)) (Finset.mem_univ k), hrest,
    Function.update_self]
  omega

end Avant.Lib
