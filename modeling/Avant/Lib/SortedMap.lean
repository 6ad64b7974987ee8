import Mathlib.Tactic.Basic
import Mathlib.Data.List.Basic

/-!
# Ordered maps

A `std::map`, iterated in the order of its keys, as the list of its entries. `assign` is
`map[key] = value`: an existing entry is overwritten, a new one goes to its place.

* `Sorted.assign`: the entries stay in order, each key once.
* `assign_append`: a key above all others is put at the end, so a map is rebuilt by assigning its
  own entries one after another (`foldl_assign`).

`OrderedMap` carries the order of its entries.
-/

namespace Avant.Lib

variable {κ ν : Type} [LT κ] [DecidableLT κ]

/-- `map[key] = value` -/
def assign (key : κ) (value : ν) : List (κ × ν) → List (κ × ν)
  | [] => [(key, value)]
  | e :: m =>
    if key < e.1 then (key, value) :: e :: m
    else if e.1 < key then e :: assign key value m
    else (e.1, value) :: m

/-- The entries stand in the order of their keys, and no two have the same key. -/
def Sorted (m : List (κ × ν)) : Prop := m.Pairwise fun a b => a.1 < b.1

variable {key : κ} {m : List (κ × ν)} {value : ν}

theorem mem_assign {e : κ × ν} (h : e ∈ assign key value m) :
    e ∈ m ∨ (e.2 = value ∧ (e.1 = key ∨ ∃ a ∈ m, e.1 = a.1)) := by
  induction m with
  | nil =>
    obtain rfl := List.mem_singleton.mp h
    exact .inr ⟨rfl, .inl rfl⟩
  | cons a m ih =>
    simp only [assign] at h
    split at h
    · rcases List.mem_cons.mp h with rfl | h
      · exact .inr ⟨rfl, .inl rfl⟩
      · exact .inl h
    · split at h
      · rcases List.mem_cons.mp h with rfl | h
        · exact .inl (by simp)
        · rcases ih h with h | ⟨hv, h | ⟨b, hb, h⟩⟩
          · exact .inl (List.mem_cons_of_mem _ h)
          · exact .inr ⟨hv, .inl h⟩
          · exact .inr ⟨hv, .inr ⟨b, List.mem_cons_of_mem _ hb, h⟩⟩
      · rcases List.mem_cons.mp h with rfl | h
        · exact .inr ⟨rfl, .inr ⟨a, by simp, rfl⟩⟩
        · exact .inl (List.mem_cons_of_mem _ h)

/-- Every value of the new map is the assigned one or was in the map. -/
theorem value_of_mem_assign {e : κ × ν} (h : e ∈ assign key value m) : e.2 = value ∨ e ∈ m := by
  rcases mem_assign h with h | ⟨h, -⟩
  · exact .inr h
  · exact .inl h

/-- What holds of the keys and of the values is kept. -/
theorem forall_mem_assign {P : κ → Prop} {Q : ν → Prop} (h : ∀ e ∈ m, P e.1 ∧ Q e.2) (hkey : P key)
    (hvalue : Q value) : ∀ e ∈ assign key value m, P e.1 ∧ Q e.2 := by
  intro e he
  rcases mem_assign he with he | ⟨hv, hk | ⟨a, ha, hk⟩⟩
  · exact h e he
  · exact ⟨hk ▸ hkey, hv ▸ hvalue⟩
  · exact ⟨hk ▸ (h a ha).1, hv ▸ hvalue⟩

section Order

variable [LE κ] [Std.LawfulOrderLT κ]

variable {m : List (κ × ν)}

omit [DecidableLT κ] in
/-- A key stands for one entry. -/
theorem Sorted.eq_of_key (h : Sorted m) {a b : κ × ν} (ha : a ∈ m) (hb : b ∈ m) (hkey : a.1 = b.1) :
    a = b := by
  induction m with
  | nil => cases ha
  | cons e m ih =>
    obtain ⟨he, hm⟩ := List.pairwise_cons.mp h
    rcases List.mem_cons.mp ha with rfl | ha' <;> rcases List.mem_cons.mp hb with rfl | hb'
    · rfl
    · exact absurd (hkey ▸ he b hb') Std.lt_irrefl
    · exact absurd (hkey ▸ he a ha') Std.lt_irrefl
    · exact ih hm ha' hb'

theorem assign_append {key : κ} {value : ν} (h : ∀ e ∈ m, e.1 < key) :
    assign key value m = m ++ [(key, value)] := by
  induction m with
  | nil => rfl
  | cons a m ih =>
    have ha : a.1 < key := h a (by simp)
    rw [assign, if_neg (Std.not_gt_of_lt ha), if_pos ha,
      ih fun e he => h e (List.mem_cons_of_mem _ he)]
    rfl

/-- The entry of the last key is overwritten. -/
theorem assign_last {key : κ} {old value : ν} (h : ∀ e ∈ m, e.1 < key) :
    assign key value (m ++ [(key, old)]) = m ++ [(key, value)] := by
  induction m with
  | nil => rw [List.nil_append, assign, if_neg Std.lt_irrefl, if_neg Std.lt_irrefl, List.nil_append]
  | cons a m ih =>
    have ha : a.1 < key := h a (by simp)
    rw [List.cons_append, assign, if_neg (Std.not_gt_of_lt ha), if_pos ha,
      ih fun e he => h e (List.mem_cons_of_mem _ he), List.cons_append]

/-- **A map is rebuilt by assigning its entries in order.** -/
theorem foldl_assign (m acc : List (κ × ν)) (h : Sorted (acc ++ m)) :
    m.foldl (fun obj e => assign e.1 e.2 obj) acc = acc ++ m := by
  induction m generalizing acc with
  | nil => simp
  | cons a m ih =>
    have hlast : ∀ e ∈ acc, e.1 < a.1 := by
      intro e he
      exact (List.pairwise_append.mp h).2.2 e he a (by simp)
    rw [List.foldl_cons, assign_append hlast, ih _ (by simpa using h)]
    simp

variable [Std.IsLinearOrder κ]

theorem Sorted.assign (h : Sorted m) (key : κ) (value : ν) : Sorted (assign key value m) := by
  induction m with
  | nil => exact List.pairwise_singleton _ _
  | cons a m ih =>
    obtain ⟨ha, hm⟩ := List.pairwise_cons.mp h
    simp only [Avant.Lib.assign]
    split
    · next hlt =>
      refine List.pairwise_cons.mpr ⟨?_, h⟩
      intro b hb
      rcases List.mem_cons.mp hb with rfl | hb
      · exact hlt
      · exact Std.lt_trans hlt (ha b hb)
    · split
      · next hgt =>
        refine List.pairwise_cons.mpr ⟨?_, ih hm⟩
        intro b hb
        rcases mem_assign hb with hb | ⟨-, hb | ⟨c, hc, hb⟩⟩
        · exact ha b hb
        · exact hb ▸ hgt
        · exact hb ▸ ha c hc
      · exact List.pairwise_cons.mpr ⟨ha, hm⟩

end Order

/-- A `std::map`. -/
structure OrderedMap (κ ν : Type) [LT κ] where
  entries : List (κ × ν)
  sorted : Sorted entries

namespace OrderedMap

omit [DecidableLT κ] in
theorem ext {m m' : OrderedMap κ ν} (h : m.entries = m'.entries) : m = m' := by
  cases m
  cases m'
  simp only at h
  subst h
  rfl

omit [DecidableLT κ] in
/-- A map without entries. -/
def empty : OrderedMap κ ν := ⟨[], .nil⟩

omit [DecidableLT κ] in
/-- The value of a key. -/
def lookup [DecidableEq κ] (m : OrderedMap κ ν) (key : κ) : Option ν :=
  (m.entries.find? fun e => e.1 = key).map Prod.snd

/-- `map[key] = value` -/
def assign [LE κ] [Std.LawfulOrderLT κ] [Std.IsLinearOrder κ] (m : OrderedMap κ ν) (key : κ)
    (value : ν) : OrderedMap κ ν :=
  ⟨Lib.assign key value m.entries, m.sorted.assign key value⟩

section Lookup

variable [DecidableEq κ] {m : OrderedMap κ ν} {key : κ} {value : ν}

omit [DecidableLT κ] in
theorem mem_of_lookup (h : m.lookup key = some value) : (key, value) ∈ m.entries := by
  obtain ⟨e, he, rfl⟩ := Option.map_eq_some_iff.mp h
  have hkey := List.find?_some he
  obtain rfl : e.1 = key := of_decide_eq_true hkey
  exact List.mem_of_find?_eq_some he

variable [LE κ] [Std.LawfulOrderLT κ]

omit [DecidableLT κ] in
/-- A key above all others. -/
theorem lookup_eq_none (h : ∀ e ∈ m.entries, e.1 < key) : m.lookup key = none := by
  rw [lookup, Option.map_eq_none_iff, List.find?_eq_none]
  intro e he
  simp only [decide_eq_true_eq]
  rintro rfl
  exact Std.lt_irrefl (h e he)

omit [DecidableLT κ] in
/-- The last key. -/
theorem lookup_last {acc : List (κ × ν)} (hm : m.entries = acc ++ [(key, value)])
    (h : ∀ e ∈ acc, e.1 < key) : m.lookup key = some value := by
  have hnone : acc.find? (fun e => e.1 = key) = none := by
    rw [List.find?_eq_none]
    intro e he
    simp only [decide_eq_true_eq]
    rintro rfl
    exact Std.lt_irrefl (h e he)
  rw [lookup, hm, List.find?_append, hnone]
  simp

end Lookup

end OrderedMap

end Avant.Lib
