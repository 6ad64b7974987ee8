import Mathlib.Data.List.Nodup

/-!
# Exactly once

`HitsOnce key l R`: the entries of `l` hit each key with `R` exactly once, and no other key. The rules
below put such lists together: side by side and one for each member of a list without duplicates,
when what they hit does not overlap.
-/

namespace Avant.Lib

variable {α β κ : Type}

/-- The entries of `l` have the keys with `R`, each once. -/
def HitsOnce (key : α → κ) (l : List α) (R : κ → Prop) : Prop :=
  (l.map key).Nodup ∧ ∀ k, k ∈ l.map key ↔ R k

namespace HitsOnce

variable {key : α → κ} {l l' : List α} {R R' : κ → Prop}

theorem nil (h : ∀ k, ¬ R k) : HitsOnce key [] R := ⟨List.nodup_nil, fun k => by simp [h k]⟩

theorem congr (h : HitsOnce key l R) (hR : ∀ k, R k ↔ R' k) : HitsOnce key l R' :=
  ⟨h.1, fun k => (h.2 k).trans (hR k)⟩

/-- Two lists side by side. -/
theorem append (h : HitsOnce key l R) (h' : HitsOnce key l' R') (hR : ∀ k, R k → ¬ R' k) :
    HitsOnce key (l ++ l') fun k => R k ∨ R' k := by
  refine ⟨?_, fun k => ?_⟩
  · rw [List.map_append, List.nodup_append']
    refine ⟨h.1, h'.1, fun k hk hk' => ?_⟩
    exact hR k ((h.2 k).mp hk) ((h'.2 k).mp hk')
  · rw [List.map_append, List.mem_append, h.2, h'.2]

/-- One list for each member of a list. -/
theorem flatMap {f : β → List α} {R : β → κ → Prop} :
    ∀ {bs : List β}, bs.Nodup → (∀ b ∈ bs, HitsOnce key (f b) (R b)) →
      (∀ b ∈ bs, ∀ b' ∈ bs, ∀ k, R b k → R b' k → b = b') →
      HitsOnce key (bs.flatMap f) fun k => ∃ b ∈ bs, R b k
  | [], _, _, _ => nil (by simp)
  | b :: bs, hnodup, h, hdisj => by
    rw [List.nodup_cons] at hnodup
    have hb := h b List.mem_cons_self
    have hrest := flatMap hnodup.2 (fun b' hb' => h b' (List.mem_cons_of_mem b hb'))
      fun b' hb' b'' hb'' => hdisj b' (List.mem_cons_of_mem b hb') b'' (List.mem_cons_of_mem b hb'')
    rw [List.flatMap_cons]
    refine (hb.append hrest ?_).congr fun k => by simp
    rintro k hk ⟨b', hb', hk'⟩
    obtain rfl := hdisj b List.mem_cons_self b' (List.mem_cons_of_mem b hb') k hk hk'
    exact hnodup.1 hb'

/-- One entry for each member with `p` of a list without duplicates. -/
theorem filter_map {f : β → α} {bs : List β} {p : β → Bool} (hbs : bs.Nodup)
    (hf : Function.Injective fun b => key (f b)) :
    HitsOnce key ((bs.filter p).map f) fun k => ∃ b ∈ bs, p b = true ∧ key (f b) = k := by
  refine ⟨?_, fun k => ?_⟩
  · rw [List.map_map]
    exact (hbs.filter p).map hf
  · simp [and_assoc]

theorem perm (h : HitsOnce key l R) (hl : l.Perm l') : HitsOnce key l' R :=
  ⟨(hl.map key).nodup_iff.mp h.1, fun k => by rw [← (hl.map key).mem_iff, h.2 k]⟩

/-- How often a key is hit. -/
theorem count_eq [BEq κ] [LawfulBEq κ] (h : HitsOnce key l R) (k : κ) :
    (R k → (l.map key).count k = 1) ∧ (¬ R k → (l.map key).count k = 0) :=
  ⟨fun hk => List.count_eq_one_of_mem h.1 ((h.2 k).mpr hk),
    fun hk => List.count_eq_zero.mpr fun hmem => hk ((h.2 k).mp hmem)⟩

end HitsOnce

theorem flatMap_ite_singleton (p : β → Bool) (f : β → α) (l : List β) :
    (l.flatMap fun b => if p b then [f b] else []) = (l.filter p).map f := by
  induction l with
  | nil => rfl
  | cons b l ih =>
    rw [List.flatMap_cons, ih]
    cases hp : p b <;> simp [hp]

theorem flatMap_filterMap (f : α → Option β) (g : β → List κ) (l : List α) :
    (l.filterMap f).flatMap g = l.flatMap fun a => ((f a).map g).getD [] := by
  induction l with
  | nil => rfl
  | cons a l ih =>
    rw [List.filterMap_cons, List.flatMap_cons, ← ih]
    cases hf : f a <;> simp

end Avant.Lib
