import Mathlib.Data.List.Nodup

/-!
# Objects behind a raw pointer

A raw pointer that owns what it points to: objects are allocated and stored in it, used through it,
and destroyed, either together with the pointer being cleared (`release`) or behind its back
(`delete`). Nothing but discipline keeps an object from being destroyed twice, used afterwards, or
lost.

Objects are numbered in the order of their allocation. A use that finds no object, or one that was
destroyed, is a `fault`.

* `Sound` is the discipline: what was not destroyed is what the pointer points to;
* each operation but `delete` keeps it, where the pointer is null or not as it should be;
* `Sound.all_destroyed`: when the pointer is null, every object was destroyed, and once.
-/

namespace Avant.Lib

/-- A raw pointer, with the objects that were allocated for it. -/
structure RawPtr where
  /-- the number of the next object -/
  next : Nat := 0
  ptr : Option Nat := none
  destroyed : List Nat := []
  fault : Bool := false
  deriving DecidableEq

namespace RawPtr

/-- The pointer refers to an object that was destroyed. -/
def dangling (p : RawPtr) : Bool := p.ptr.any fun i => p.destroyed.contains i

/-- Code that may use the pointer begins to run. -/
def enter (p : RawPtr) : RawPtr := { p with fault := p.fault || p.dangling }

/-- An object is allocated and stored. -/
def store (p : RawPtr) : RawPtr := { p with ptr := some p.next, next := p.next + 1 }

/-- The object is used. -/
def use (p : RawPtr) : RawPtr := { p with fault := p.fault || p.ptr.isNone || p.dangling }

/-- The object is destroyed, and the pointer left as it is. -/
def delete (p : RawPtr) : RawPtr := { p with destroyed := p.destroyed ++ p.ptr.toList }

/-- The pointer is set to null. -/
def clear (p : RawPtr) : RawPtr := { p with ptr := none }

/-- The object is destroyed, if there is one, and the pointer set to null. -/
def release (p : RawPtr) : RawPtr := if p.ptr.isSome then p.use.delete.clear else p

/-- **What was not destroyed is what the pointer points to**, and nothing was destroyed twice or
used afterwards. -/
structure Sound (p : RawPtr) : Prop where
  fault : p.fault = false
  once : p.destroyed.Nodup
  allocated : ∀ i ∈ p.destroyed, i < p.next
  valid : ∀ i, p.ptr = some i → i < p.next ∧ i ∉ p.destroyed
  owned : ∀ i < p.next, i ∈ p.destroyed ∨ p.ptr = some i

namespace Sound

variable {p : RawPtr}

theorem empty : Sound {} := ⟨rfl, List.nodup_nil, nofun, nofun, nofun⟩

theorem dangling (h : p.Sound) : p.dangling = false := by
  cases hp : p.ptr with
  | none => simp [RawPtr.dangling, hp]
  | some i => simp [RawPtr.dangling, hp, (h.valid i hp).2]

theorem enter_eq (h : p.Sound) : p.enter = p := by
  rw [RawPtr.enter, h.dangling, Bool.or_false]

theorem use_eq (h : p.Sound) (hp : p.ptr ≠ none) : p.use = p := by
  have hsome : p.ptr.isNone = false := by
    rwa [Option.isNone_eq_false_iff, Option.isSome_iff_ne_none]
  rw [RawPtr.use, h.dangling, hsome, Bool.or_false, Bool.or_false]

/-- An object is stored where there is none. -/
theorem store (h : p.Sound) (hp : p.ptr = none) : p.store.Sound := by
  refine ⟨h.fault, h.once, fun i hi => Nat.lt_succ_of_lt (h.allocated i hi), fun i hi => ?_,
    fun i hi => ?_⟩
  · obtain rfl : p.next = i := Option.some.inj hi
    exact ⟨Nat.lt_succ_self _, fun hmem => Nat.lt_irrefl _ (h.allocated _ hmem)⟩
  · rcases Nat.lt_succ_iff_lt_or_eq.mp hi with hi | rfl
    · exact (h.owned i hi).imp_right fun ho => by simp [hp] at ho
    · exact .inr rfl

/-- The object is destroyed once, and all of them are then. -/
theorem release (h : p.Sound) : p.release.Sound ∧ p.release.ptr = none := by
  cases hp : p.ptr with
  | none =>
    rw [RawPtr.release, hp]
    exact ⟨h, hp⟩
  | some i =>
    obtain ⟨hlt, hmem⟩ := h.valid i hp
    rw [RawPtr.release, if_pos (by simp [hp]), h.use_eq (by simp [hp])]
    have hdestroyed : p.delete.clear.destroyed = p.destroyed ++ [i] := by
      show p.destroyed ++ p.ptr.toList = _
      rw [hp]
      rfl
    refine ⟨⟨h.fault, ?_, fun j hj => ?_, nofun, fun j hj => ?_⟩, rfl⟩
    · rw [hdestroyed, List.nodup_append']
      exact ⟨h.once, List.nodup_singleton i, by simpa using hmem⟩
    · rw [hdestroyed, List.mem_append, List.mem_singleton] at hj
      rcases hj with hj | rfl
      · exact h.allocated j hj
      · exact hlt
    · rw [hdestroyed, List.mem_append, List.mem_singleton]
      refine .inl ((h.owned j hj).imp_right fun hj => ?_)
      exact (Option.some.inj (hp.symm.trans hj)).symm

/-- A pointer that is null holds nothing back. -/
theorem all_destroyed (h : p.Sound) (hp : p.ptr = none) : ∀ i < p.next, i ∈ p.destroyed :=
  fun i hi => (h.owned i hi).resolve_right (by simp [hp])

theorem clear_eq (hp : p.ptr = none) : p.clear = p := by
  rw [RawPtr.clear, ← hp]

end Sound

end RawPtr

end Avant.Lib
