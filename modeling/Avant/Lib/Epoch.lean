import Mathlib.Data.List.Nodup
import Mathlib.Data.List.Range

/-!
# Numbers given out per epoch

A counter that starts again at zero in every epoch, and the stamps `(epoch, number)` it has given
out. `turn e` is the moment at which the epoch is read, as `e`; `take n` gives out `n` numbers, and
`skip n` passes over as many.

Nothing orders the epochs, so the stamps are distinct only as long as an epoch that was left with
stamps does not come back: `Distinct` is the invariant of the runs in which none does.
-/

namespace Avant.Lib

/-- The counter and the stamps so far. -/
structure EpochCounter (ε : Type) where
  epoch : ε
  count : Nat
  stamps : List (ε × Nat)

namespace EpochCounter

variable {ε : Type} [DecidableEq ε]

/-- Before the first number. -/
def start (e : ε) : EpochCounter ε := ⟨e, 0, []⟩

/-- The epoch is read, and the count starts again if it has changed. -/
def turn (e : ε) (c : EpochCounter ε) : EpochCounter ε :=
  if e = c.epoch then c else ⟨e, 0, c.stamps⟩

/-- The next `n` stamps. -/
def next (n : Nat) (c : EpochCounter ε) : List (ε × Nat) :=
  (List.range n).map fun i => (c.epoch, c.count + i)

/-- `n` numbers are given out. -/
def take (n : Nat) (c : EpochCounter ε) : EpochCounter ε :=
  ⟨c.epoch, c.count + n, c.stamps ++ c.next n⟩

/-- `n` numbers are passed over. -/
def skip (n : Nat) (c : EpochCounter ε) : EpochCounter ε := ⟨c.epoch, c.count + n, c.stamps⟩

/-- No stamp was given out twice, nor will the current epoch give out one again. -/
structure Distinct (c : EpochCounter ε) : Prop where
  below : ∀ x ∈ c.stamps, x.1 = c.epoch → x.2 < c.count
  nodup : c.stamps.Nodup

variable {c : EpochCounter ε}

omit [DecidableEq ε] in
theorem distinct_start (e : ε) : (start e).Distinct :=
  ⟨by simp [start], List.nodup_nil⟩

/-- A reading keeps the invariant, unless it is of an epoch that was left with stamps. -/
theorem Distinct.turn (h : c.Distinct) {e : ε} (he : e = c.epoch ∨ ∀ x ∈ c.stamps, x.1 ≠ e) :
    (c.turn e).Distinct := by
  unfold EpochCounter.turn
  split
  · exact h
  · rename_i hne
    exact ⟨fun x hx hxe => absurd hxe (he.resolve_left hne x hx), h.nodup⟩

omit [DecidableEq ε] in
theorem Distinct.skip (h : c.Distinct) (n : Nat) : (c.skip n).Distinct :=
  ⟨fun x hx hxe => Nat.lt_add_right n (h.below x hx hxe), h.nodup⟩

omit [DecidableEq ε] in
theorem mem_next {n : Nat} {x : ε × Nat} (hx : x ∈ c.next n) :
    x.1 = c.epoch ∧ c.count ≤ x.2 ∧ x.2 < c.count + n := by
  obtain ⟨i, hi, rfl⟩ := List.mem_map.mp hx
  have := List.mem_range.mp hi
  exact ⟨rfl, Nat.le_add_right _ _, by simpa using this⟩

omit [DecidableEq ε] in
theorem nodup_next (n : Nat) (c : EpochCounter ε) : (c.next n).Nodup := by
  refine List.nodup_range.map fun i j hij => ?_
  have := (Prod.mk.inj hij).2
  omega

omit [DecidableEq ε] in
/-- Giving out numbers keeps the invariant. -/
theorem Distinct.take (h : c.Distinct) (n : Nat) : (c.take n).Distinct := by
  refine ⟨fun x hx hxe => ?_, ?_⟩
  · rcases List.mem_append.mp hx with hx | hx
    · exact Nat.lt_add_right n (h.below x hx hxe)
    · exact (mem_next hx).2.2
  · -- an old stamp of this epoch lies below the count, a new one does not
    refine List.nodup_append'.mpr ⟨h.nodup, nodup_next n c, fun x hx hx' => ?_⟩
    obtain ⟨hepoch, hle, -⟩ := mem_next hx'
    exact absurd (h.below x hx hepoch) (Nat.not_lt.mpr hle)

end EpochCounter

end Avant.Lib
