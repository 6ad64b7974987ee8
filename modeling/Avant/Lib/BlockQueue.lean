import Mathlib.Data.List.Induction
import Mathlib.Logic.Function.Iterate

/-!
# A queue served one block at a time

Elements join a FIFO queue in batches. After each batch the queue is served once, and one
service hands out the elements up to and including the first *stop* element, or all of them when
there is none (`serve` is what it leaves). `backlog` is the queue after a sequence of batches.

The recursion of `backlog` remembers the whole past. `serve_suffix_backlog` and
`backlog_eq_serve` unwind it: after `n` batches the backlog is the longest of the lists obtained
by forgetting the first `k` batches and serving what came later `n - k` times, all at once. So
the backlog is empty iff no tail of the batches brings more than its own services can hand out
(`backlog_eq_nil_iff`), which `passes` counts: one service per stop element, and one more for
what follows the last one.

`limitedBacklog` gives up when a test on the queue fails before a service; it is the backlog
where the test never fails (`limitedBacklog_eq_some`).
-/

namespace Avant.Lib

variable {α : Type} (stop : α → Bool)

/-- What one service leaves: everything behind the first stop element. -/
def serve : List α → List α
  | [] => []
  | a :: l => if stop a then l else serve l

/-- What one service hands out, the stop element included. -/
def served : List α → List α
  | [] => []
  | a :: l => if stop a then [a] else a :: served l

/-- The number of services a queue needs to be emptied. -/
def passes : List α → Nat
  | [] => 0
  | a :: l => if stop a then passes l + 1 else max (passes l) 1

/-- The queue left after the batches `xs`, served once after each of them. -/
def backlog (xs : List (List α)) : List α := xs.foldl (fun q x => serve stop (q ++ x)) []

/-- The batches behind the first `k`, served as often as there are such batches. -/
def backlogFrom (xs : List (List α)) (k : Nat) : List α :=
  (serve stop)^[xs.length - k] (xs.drop k).flatten

/-- A batch joins the queue and is served, when the two pass a test. -/
def limitedStep {ι : Type} (fits : List α → ι → Bool) (o : Option (List α)) (x : List α × ι) :
    Option (List α) :=
  o.bind fun q => if fits (q ++ x.1) x.2 then some (serve stop (q ++ x.1)) else none

/-- The queue left after the batches `xs` when every batch has to pass the test. -/
def limitedBacklog {ι : Type} (fits : List α → ι → Bool) (xs : List (List α × ι)) :
    Option (List α) :=
  xs.foldl (limitedStep stop fits) (some [])

variable {stop}

@[simp] theorem served_append_serve (l : List α) : served stop l ++ serve stop l = l := by
  induction l with
  | nil => rfl
  | cons a l ih =>
    unfold served serve
    split
    · rfl
    · rw [List.cons_append, ih]

theorem serve_suffix (l : List α) : serve stop l <:+ l :=
  ⟨served stop l, served_append_serve l⟩

/-- Serving a longer queue leaves more. -/
theorem serve_mono {l l' : List α} (h : l <:+ l') : serve stop l <:+ serve stop l' := by
  obtain ⟨p, rfl⟩ := h
  induction p with
  | nil => exact List.suffix_rfl
  | cons a p ih =>
    rw [List.cons_append, serve]
    split
    · exact (serve_suffix l).trans (List.suffix_append p l)
    · exact ih

theorem serve_append_suffix (l x : List α) : serve stop (l ++ x) <:+ serve stop l ++ x := by
  induction l with
  | nil => exact serve_suffix x
  | cons a l ih =>
    rw [List.cons_append]
    unfold serve
    split
    · exact List.suffix_rfl
    · exact ih

/-- A queue that is not emptied was stopped before what comes behind it. -/
theorem serve_append {l : List α} (h : serve stop l ≠ []) (x : List α) :
    serve stop (l ++ x) = serve stop l ++ x := by
  induction l with
  | nil => exact absurd rfl h
  | cons a l ih =>
    rw [List.cons_append]
    unfold serve at h ⊢
    split
    · rfl
    · rename_i ha
      rw [if_neg ha] at h
      exact ih h

theorem iterate_serve_append_suffix (j : Nat) (l x : List α) :
    (serve stop)^[j] (l ++ x) <:+ (serve stop)^[j] l ++ x := by
  induction j generalizing l with
  | zero => exact List.suffix_rfl
  | succ j ih =>
    rw [Function.iterate_succ_apply', Function.iterate_succ_apply']
    exact (serve_mono (ih l)).trans (serve_append_suffix _ x)

@[simp] theorem iterate_serve_nil (j : Nat) : (serve stop)^[j] [] = [] := by
  induction j with
  | zero => rfl
  | succ j ih => rw [Function.iterate_succ_apply', ih, serve]

theorem iterate_serve_append {j : Nat} {l : List α} (h : (serve stop)^[j] l ≠ []) (x : List α) :
    (serve stop)^[j] (l ++ x) = (serve stop)^[j] l ++ x := by
  induction j generalizing l with
  | zero => rfl
  | succ j ih =>
    rw [Function.iterate_succ_apply, Function.iterate_succ_apply] at *
    have hs : serve stop l ≠ [] := by
      intro h0
      rw [h0, iterate_serve_nil] at h
      exact h rfl
    rw [serve_append hs, ih h]

/-! ## The backlog -/

variable (xs : List (List α))

@[simp] theorem backlog_nil : backlog stop [] = [] := rfl

theorem backlog_snoc (x : List α) :
    backlog stop (xs ++ [x]) = serve stop (backlog stop xs ++ x) := by
  simp [backlog]

theorem backlogFrom_snoc {xs : List (List α)} {k : Nat} (hk : k ≤ xs.length) (x : List α) :
    backlogFrom stop (xs ++ [x]) k =
      serve stop ((serve stop)^[xs.length - k] ((xs.drop k).flatten ++ x)) := by
  have hlen : (xs ++ [x]).length - k = xs.length - k + 1 := by simp; omega
  rw [backlogFrom, hlen, Function.iterate_succ_apply', List.drop_append_of_le_length hk,
    List.flatten_append, List.flatten_singleton]

/-- Forgetting the first batches leaves no more than there is. -/
theorem serve_suffix_backlog (k : Nat) : backlogFrom stop xs k <:+ backlog stop xs := by
  induction xs using List.reverseRecOn with
  | nil => simp [backlogFrom]
  | append_singleton xs x ih =>
    by_cases hk : k ≤ xs.length
    · rw [backlogFrom_snoc hk, backlog_snoc]
      apply serve_mono
      refine (iterate_serve_append_suffix _ _ x).trans ?_
      obtain ⟨p, hp⟩ := ih
      exact ⟨p, by rw [← List.append_assoc, ← hp, backlogFrom]⟩
    · have hdrop : (xs ++ [x]).drop k = [] := List.drop_eq_nil_of_le (by simp; omega)
      simp [backlogFrom, hdrop]

/-- **The backlog is reached by forgetting**: some tail of the batches, served once per batch,
leaves exactly it. -/
theorem backlog_eq_serve : ∃ k ≤ xs.length, backlog stop xs = backlogFrom stop xs k := by
  induction xs using List.reverseRecOn with
  | nil => exact ⟨0, Nat.le_refl _, by simp [backlogFrom]⟩
  | append_singleton xs x ih =>
    by_cases h0 : backlog stop xs = []
    · -- nothing was left: the last batch alone decides
      refine ⟨xs.length, by simp, ?_⟩
      rw [backlog_snoc, h0, backlogFrom_snoc (Nat.le_refl _)]
      simp
    · obtain ⟨k, hk, hb⟩ := ih
      refine ⟨k, by simp; omega, ?_⟩
      rw [hb] at h0
      rw [backlog_snoc, backlogFrom_snoc hk, iterate_serve_append h0, hb, backlogFrom]

/-- **No backlog is left iff no tail of the batches brings more than its services hand out.** -/
theorem backlog_eq_nil_iff :
    backlog stop xs = [] ↔ ∀ k ≤ xs.length, backlogFrom stop xs k = [] := by
  constructor
  · intro h k _
    exact List.suffix_nil.mp (h ▸ serve_suffix_backlog xs k)
  · intro h
    obtain ⟨k, hk, hb⟩ : ∃ k ≤ xs.length, backlog stop xs = backlogFrom stop xs k :=
      backlog_eq_serve xs
    rw [hb, h k hk]

/-- A weight that grows with the queue stays below a bound iff it does for every tail. -/
theorem weight_backlog_le_iff {w : List α → Nat} (hw : ∀ {l l'}, l <:+ l' → w l ≤ w l')
    (xs : List (List α)) (B : Nat) :
    w (backlog stop xs) ≤ B ↔ ∀ k ≤ xs.length, w (backlogFrom stop xs k) ≤ B := by
  constructor
  · intro h k _
    exact Nat.le_trans (hw (serve_suffix_backlog xs k)) h
  · intro h
    obtain ⟨k, hk, hb⟩ : ∃ k ≤ xs.length, backlog stop xs = backlogFrom stop xs k :=
      backlog_eq_serve xs
    rw [hb]
    exact h k hk

section Limited

variable {ι : Type} {fits : List α → ι → Bool}

variable (xs : List (List α × ι))

theorem limitedBacklog_snoc (x : List α × ι) :
    limitedBacklog stop fits (xs ++ [x]) = limitedStep stop fits (limitedBacklog stop fits xs) x := by
  simp [limitedBacklog]

theorem foldl_limitedStep_none : xs.foldl (limitedStep stop fits) none = none := by
  induction xs with
  | nil => rfl
  | cons x xs ih => exact ih

/-- **The limited queue is the backlog** when every batch passes the test, and nothing else. -/
theorem limitedBacklog_eq_some (q : List α) :
    limitedBacklog stop fits xs = some q ↔
      q = backlog stop (xs.map Prod.fst) ∧
        ∀ i, ∀ h : i < xs.length,
          fits (backlog stop ((xs.take i).map Prod.fst) ++ xs[i].1) xs[i].2 = true := by
  induction xs using List.reverseRecOn generalizing q with
  | nil =>
    constructor
    · intro h
      exact ⟨(Option.some.inj h).symm, fun i hi => absurd hi (Nat.not_lt_zero i)⟩
    · rintro ⟨rfl, -⟩
      rfl
  | append_singleton xs x ih =>
    have hlast : (xs ++ [x]).take xs.length = xs := List.take_left
    have hsome : limitedBacklog stop fits (xs ++ [x]) = some q ↔
        (∀ i, ∀ h : i < xs.length,
          fits (backlog stop ((xs.take i).map Prod.fst) ++ xs[i].1) xs[i].2 = true) ∧
        fits (backlog stop (xs.map Prod.fst) ++ x.1) x.2 = true ∧
        q = backlog stop ((xs ++ [x]).map Prod.fst) := by
      rw [limitedBacklog_snoc, limitedStep, Option.bind_eq_some_iff, List.map_append,
        List.map_singleton, backlog_snoc]
      constructor
      · rintro ⟨q', hq', hf⟩
        obtain ⟨rfl, hall⟩ := (ih q').mp hq'
        split at hf
        · rename_i hfit
          exact ⟨hall, hfit, (Option.some.inj hf).symm⟩
        · exact absurd hf (by simp)
      · rintro ⟨hall, hfit, rfl⟩
        exact ⟨_, (ih _).mpr ⟨rfl, hall⟩, by rw [if_pos hfit]⟩
    rw [hsome]
    constructor
    · rintro ⟨hall, hfit, hq⟩
      refine ⟨hq, fun i hi => ?_⟩
      by_cases hlt : i < xs.length
      · rw [List.getElem_append_left hlt, List.take_append_of_le_length (Nat.le_of_lt hlt)]
        exact hall i hlt
      · obtain rfl : i = xs.length := by simp at hi; omega
        rw [hlast, List.getElem_concat_length rfl]
        exact hfit
    · rintro ⟨hq, hall⟩
      refine ⟨fun i hi => ?_, ?_, hq⟩
      · have := hall i (by simp; omega)
        rwa [List.getElem_append_left hi, List.take_append_of_le_length (Nat.le_of_lt hi)] at this
      · have := hall xs.length (by simp)
        rwa [hlast, List.getElem_concat_length rfl] at this

end Limited

/-! ## Counting services -/

theorem passes_pos {l : List α} (h : l ≠ []) : 0 < passes stop l := by
  cases l with
  | nil => exact absurd rfl h
  | cons a l => unfold passes; split <;> omega

theorem passes_serve (l : List α) : passes stop (serve stop l) = passes stop l - 1 := by
  induction l with
  | nil => rfl
  | cons a l ih =>
    rw [serve, passes]
    split
    · omega
    · rw [ih]; omega

/-- **`j` services empty a queue iff it needs at most `j`.** -/
theorem iterate_serve_eq_nil {j : Nat} {l : List α} :
    (serve stop)^[j] l = [] ↔ passes stop l ≤ j := by
  induction j generalizing l with
  | zero =>
    rw [Function.iterate_zero_apply, Nat.le_zero]
    constructor
    · rintro rfl; rfl
    · intro h
      by_contra hl
      have : 0 < passes stop l := passes_pos hl
      omega
  | succ j ih =>
    rw [Function.iterate_succ_apply, ih, passes_serve]
    omega

end Avant.Lib
