import Mathlib.Data.List.DropRight
import Mathlib.Tactic.Basic

/-!
# Lines and trimming

`lines sep s` are the lines that `std::getline` reads from `s`: each ends at a separator, and what
stands behind the last separator is a line if it is not empty. `trim p s` is `s` without what has
`p` at its two ends.

* `lines_append`: a line that was written with its separator is read back.
* `Trimmed.trim_append`: what was trimmed is not changed by trimming, also behind further blanks.
-/

namespace Avant.Lib

variable {α : Type}

section Lines

variable [DecidableEq α] {sep : α}

/-- The lines of a text. -/
def lines (sep : α) : List α → List (List α)
  | [] => []
  | c :: s =>
    if c = sep then [] :: lines sep s
    else
      match lines sep s with
      | [] => [[c]]
      | l :: ls => (c :: l) :: ls

theorem lines_append {l : List α} (h : sep ∉ l) (s : List α) :
    lines sep (l ++ sep :: s) = l :: lines sep s := by
  induction l with
  | nil => rw [List.nil_append, lines, if_pos rfl]
  | cons c l ih =>
    obtain ⟨hc, hl⟩ := List.ne_and_not_mem_of_not_mem_cons h
    rw [List.cons_append, lines, if_neg (Ne.symm hc), ih hl]

/-- A text of lines that each end with the separator. -/
theorem lines_flatMap {ls : List (List α)} (h : ∀ l ∈ ls, sep ∉ l) (s : List α) :
    lines sep (ls.flatMap (· ++ [sep]) ++ s) = ls ++ lines sep s := by
  induction ls with
  | nil => rfl
  | cons l ls ih =>
    obtain ⟨hl, hls⟩ := List.forall_mem_cons.mp h
    rw [List.flatMap_cons, List.append_assoc, List.append_assoc, List.singleton_append,
      lines_append hl, ih hls, List.cons_append]

theorem not_mem_of_mem_lines {l s : List α} (h : l ∈ lines sep s) : sep ∉ l := by
  induction s generalizing l with
  | nil => cases h
  | cons c s ih =>
    rw [lines] at h
    split at h
    · rcases List.mem_cons.mp h with rfl | h
      · exact List.not_mem_nil
      · exact ih h
    · next hc =>
      split at h
      · obtain rfl := List.mem_singleton.mp h
        simpa using Ne.symm hc
      · next l' ls hlines =>
        rcases List.mem_cons.mp h with rfl | h
        · have hl := ih (l := l') (by rw [hlines]; exact List.mem_cons_self)
          exact List.not_mem_cons_of_ne_of_not_mem (Ne.symm hc) hl
        · exact ih (by rw [hlines]; exact List.mem_cons_of_mem l' h)

end Lines

section Trim

variable {p : α → Bool} {s ws : List α}

/-- What is left without the ends that have `p`. -/
def trim (p : α → Bool) (s : List α) : List α := (s.dropWhile p).rdropWhile p

/-- Neither end has `p`. -/
structure Trimmed (p : α → Bool) (s : List α) : Prop where
  head : ∀ c, s.head? = some c → p c = false
  last : ∀ c, s.getLast? = some c → p c = false

theorem mem_of_mem_trim {c : α} (h : c ∈ trim p s) : c ∈ s :=
  (List.dropWhile_sublist p).subset ((List.rdropWhile_prefix p _).subset h)

theorem trimmed_trim (p : α → Bool) (s : List α) : Trimmed p (trim p s) := by
  constructor
  · intro c hc
    obtain ⟨t, ht⟩ := List.rdropWhile_prefix p (s.dropWhile p)
    have hhead : (s.dropWhile p).head? = some c := by
      rw [← ht, List.head?_append]
      exact congrArg (Option.or · t.head?) hc
    have hnot := List.head?_dropWhile_not p s
    rwa [hhead] at hnot
  · intro c hc
    have hne : trim p s ≠ [] := by
      rintro hnil
      simp [hnil] at hc
    have hnot := List.rdropWhile_last_not p (s.dropWhile p) hne
    rw [List.getLast?_eq_some_getLast hne] at hc
    rw [← Option.some.inj hc]
    exact Bool.eq_false_iff.mpr hnot

/-- Where nothing is dropped in front, the head stays. -/
theorem head?_trim (h : ∀ c, s.head? = some c → p c = false) : (trim p s).head? = s.head? := by
  cases s with
  | nil => rfl
  | cons c s =>
    have hc : ¬ p c = true := by simp [h c rfl]
    rw [trim, List.dropWhile_cons_of_neg hc]
    have hne : (c :: s).rdropWhile p ≠ [] := by
      rw [ne_eq, List.rdropWhile_eq_nil_iff]
      exact fun hall => hc (hall c List.mem_cons_self)
    obtain ⟨d, t, ht⟩ := List.exists_cons_of_ne_nil hne
    obtain ⟨u, hu⟩ := List.rdropWhile_prefix p (c :: s)
    rw [ht] at hu ⊢
    exact congrArg some (List.cons.inj hu).1

theorem Trimmed.of_ends {a b : List α} (ha : a ≠ []) (hb : b ≠ [])
    (hhead : ∀ c, a.head? = some c → p c = false)
    (hlast : ∀ c, b.getLast? = some c → p c = false) : Trimmed p (a ++ b) where
  head c hc := hhead c (by rwa [List.head?_append_of_ne_nil a ha] at hc)
  last c hc := hlast c (by rwa [List.getLast?_append_of_ne_nil a hb] at hc)

theorem trim_append_left (h : ∀ c ∈ ws, p c = true) : trim p (ws ++ s) = trim p s := by
  rw [trim, List.dropWhile_append_of_pos h, trim]

/-- Blanks behind what was trimmed. -/
theorem Trimmed.trim_append (h : Trimmed p s) (hws : ∀ c ∈ ws, p c = true) :
    trim p (s ++ ws) = s := by
  cases s with
  | nil => rw [List.nil_append, trim, List.dropWhile_eq_nil_iff.mpr hws, List.rdropWhile_nil]
  | cons c s =>
    have hc : ¬ p c = true := by simp [h.head c rfl]
    have hrev : ∀ c ∈ ws.reverse, p c = true := fun c hc => hws c (List.mem_reverse.mp hc)
    have hself : (c :: s).rdropWhile p = c :: s := by
      rw [List.rdropWhile_eq_self_iff]
      intro hne
      simp [h.last _ (List.getLast?_eq_some_getLast hne)]
    rw [trim, List.cons_append, List.dropWhile_cons_of_neg hc, ← List.cons_append, List.rdropWhile,
      List.reverse_append, List.dropWhile_append_of_pos hrev]
    exact hself

theorem Trimmed.trim_eq (h : Trimmed p s) : trim p s = s := by
  simpa using h.trim_append (List.forall_mem_nil _)

end Trim

end Avant.Lib
