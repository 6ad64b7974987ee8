import Avant.Lib.BigEndian

/-!
# Memory of blocks

Blocks of bytes that are allocated, read, written and freed. They are numbered in the order of
their allocation, and a number is not used again. Reading or writing outside of a block, or in one
that was freed, gives `none`; so does freeing a block twice.

What is said of a block survives what is done to the others (`get_put_ne`, `get_alloc_ne`).
-/

namespace Avant.Lib

/-- A pointer into a block. -/
structure Ptr where
  block : Nat
  offset : Nat
  deriving DecidableEq

/-- The blocks, `none` for those that were freed. -/
structure Memory where
  blocks : List (Option Bytes) := []
  deriving DecidableEq

namespace Memory

def get (m : Memory) (k : Nat) : Option Bytes := m.blocks[k]?.join

/-- The block `k` gets the bytes `bs`. -/
def put (m : Memory) (k : Nat) (bs : Option Bytes) : Memory := ⟨m.blocks.set k bs⟩

/-- The number of the next block. -/
def next (m : Memory) : Nat := m.blocks.length

/-- A block of `n` zeros. -/
def alloc (m : Memory) (n : Nat) : Memory := ⟨m.blocks ++ [some (List.replicate n 0)]⟩

def free (m : Memory) (k : Nat) : Option Memory := (m.get k).map fun _ => m.put k none

/-- The `n` bytes at `p`. -/
def load (m : Memory) (p : Ptr) (n : Nat) : Option Bytes :=
  (m.get p.block).bind fun bs =>
    if p.offset + n ≤ bs.length then some ((bs.drop p.offset).take n) else none

/-- `src` is written at `p`. -/
def store (m : Memory) (p : Ptr) (src : Bytes) : Option Memory :=
  (m.get p.block).bind fun bs =>
    if p.offset + src.length ≤ bs.length then
      some (m.put p.block (some (bs.take p.offset ++ src ++ bs.drop (p.offset + src.length))))
    else none

variable {m : Memory} {j k : Nat} {bs : Bytes} {v : Option Bytes}

theorem lt_next (h : m.get k = some bs) : k < m.next := by
  by_contra hge
  simp only [next, not_lt] at hge
  simp [get, List.getElem?_eq_none hge] at h

theorem get_next : m.get m.next = none := by
  simp [get, next]

theorem ne_next (h : m.get k = some bs) : k ≠ m.next := (lt_next h).ne

theorem get_put (h : m.get k = some bs) : (m.put k v).get k = v := by
  simp only [get, put, List.getElem?_set_self (lt_next h), Option.join_some]

theorem get_put_ne (h : j ≠ k) : (m.put k v).get j = m.get j := by
  simp only [get, put, List.getElem?_set_ne h.symm]

theorem put_eq_self (h : m.get k = some bs) : m.put k (some bs) = m := by
  have hk := lt_next h
  have hget : m.blocks.get ⟨k, hk⟩ = some bs := by
    rwa [get, List.getElem?_eq_getElem hk, Option.join_some] at h
  rw [put, ← hget, List.get_eq_getElem, List.set_getElem_self]

theorem get_alloc (n : Nat) : (m.alloc n).get m.next = some (List.replicate n 0) := by
  simp [get, alloc, next]

theorem get_alloc_ne (n : Nat) (h : j ≠ m.next) : (m.alloc n).get j = m.get j := by
  simp only [get, alloc, next] at h ⊢
  rcases Nat.lt_or_gt_of_ne h with hlt | hgt
  · rw [List.getElem?_append_left hlt]
  · rw [List.getElem?_eq_none (by simp; omega), List.getElem?_eq_none (by omega)]

theorem free_eq (h : m.get k = some bs) : m.free k = some (m.put k none) := by
  rw [free, h, Option.map_some]

/-- Reading the middle of a block. -/
theorem load_eq {u v w : Bytes} {n i : Nat} (h : m.get k = some (u ++ v ++ w)) (hi : i = u.length)
    (hn : n = v.length) : m.load ⟨k, i⟩ n = some v := by
  subst hi hn
  rw [load, h, Option.bind_some, if_pos (by simp)]
  simp

/-- Writing the middle of a block. -/
theorem store_eq {u v w src : Bytes} {i : Nat} (h : m.get k = some (u ++ v ++ w))
    (hi : i = u.length) (hv : src.length = v.length) :
    m.store ⟨k, i⟩ src = some (m.put k (some (u ++ src ++ w))) := by
  subst hi
  have htake : (u ++ v ++ w).take u.length = u := by simp
  have hdrop : (u ++ v ++ w).drop (u.length + src.length) = w := by
    rw [hv, ← List.length_append, List.drop_left]
  rw [store, h, Option.bind_some, if_pos (by simp [hv]), htake, hdrop]

end Memory

end Avant.Lib
