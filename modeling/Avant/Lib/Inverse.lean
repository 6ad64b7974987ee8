import Mathlib.Data.List.AList

/-!
# Maps that are inverse to each other

A pair of maps, `f` from `α` to `β` and `g` back, that hold the same pairs. Joining a pair whose
ends are both new, and leaving one, keep them so.
-/

namespace Avant.Lib

variable {α β : Type} [DecidableEq α]

theorem lookup_insert_eq (l : AList (fun _ : α => β)) (a a' : α) (b : β) :
    (l.insert a b).lookup a' = if a' = a then some b else l.lookup a' := by
  by_cases h : a' = a
  · subst h
    rw [if_pos rfl, AList.lookup_insert]
  · rw [if_neg h, AList.lookup_insert_ne h]

theorem lookup_erase_eq (l : AList (fun _ : α => β)) (a a' : α) :
    (l.erase a).lookup a' = if a' = a then none else l.lookup a' := by
  by_cases h : a' = a
  · subst h
    rw [if_pos rfl, AList.lookup_erase]
  · rw [if_neg h, AList.lookup_erase_ne h]

variable [DecidableEq β] {f : α → Option β} {g : β → Option α}

/-- A pair joins two maps that are inverse to each other. -/
theorem inverse_insert (h : ∀ a b, f a = some b ↔ g b = some a) {a : α} {b : β} (ha : f a = none)
    (hb : g b = none) (a' : α) (b' : β) :
    Function.update f a (some b) a' = some b' ↔ Function.update g b (some a) b' = some a' := by
  by_cases haa : a' = a <;> by_cases hbb : b' = b
  · simp [haa, hbb]
  · have hno : g b' ≠ some a := fun hg => by simp [← h, ha] at hg
    simp [haa, hbb, hno, Ne.symm hbb]
  · have hno : f a' ≠ some b := fun hf => by simp [h, hb] at hf
    simp [haa, hbb, hno, Ne.symm haa]
  · simpa [haa, hbb] using h a' b'

/-- A pair leaves two maps that are inverse to each other. -/
theorem inverse_erase (h : ∀ a b, f a = some b ↔ g b = some a) {a : α} {b : β} (hab : f a = some b)
    (a' : α) (b' : β) :
    Function.update f a none a' = some b' ↔ Function.update g b none b' = some a' := by
  have hba : g b = some a := (h a b).mp hab
  by_cases haa : a' = a <;> by_cases hbb : b' = b
  · simp [haa, hbb]
  · have hno : g b' ≠ some a := fun hg => by
      rw [← h, hab] at hg
      exact hbb (Option.some.inj hg).symm
    simp [haa, hbb, hno]
  · have hno : f a' ≠ some b := fun hf => by
      rw [h, hba] at hf
      exact haa (Option.some.inj hf).symm
    simp [haa, hbb, hno]
  · simpa [haa, hbb] using h a' b'

end Avant.Lib
