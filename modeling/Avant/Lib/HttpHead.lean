import Avant.Lib.Chunked
import Avant.Lib.Find

/-!
# The head of an HTTP message

RFC 7230, section 3: a start line and header lines, each ended by CRLF, and an empty line. The
body is what stands behind the first empty line.

* `body_headText`: where no line is empty or has a carriage return in it, the lines are found
  again, and the rest is the body;
* `body_of_prefix`: a message that is cut within its head has no body.
-/

namespace Avant.Lib.Http

open Chunked (crlf)

/-- The text of a head. -/
def headText (lines : List Bytes) : Bytes := lines.flatMap (· ++ crlf) ++ crlf

/-- The bytes behind the first empty line. -/
def body (message : Bytes) : Bytes :=
  match find (crlf ++ crlf) message with
  | none => []
  | some i => message.drop (i + 4)

/-- A line that ends where its CRLF is. -/
def IsLine (l : Bytes) : Prop := l ≠ [] ∧ (13 : UInt8) ∉ l

instance decidableIsLine (l : Bytes) : Decidable (IsLine l) :=
  inferInstanceAs (Decidable (l ≠ [] ∧ (13 : UInt8) ∉ l))

theorem IsLine.append {l v : Bytes} (hl : IsLine l) (hv : (13 : UInt8) ∉ v) : IsLine (l ++ v) :=
  ⟨by simp [hl.1], by simp [hl.2, hv]⟩

variable {lines : List Bytes}

theorem headText_cons (l : Bytes) (lines : List Bytes) :
    headText (l :: lines) = l ++ 13 :: 10 :: headText lines := by
  simp [headText, crlf]

/-- An empty line is not found within a line. -/
theorem find_line {l : Bytes} (hl : (13 : UInt8) ∉ l) (t : Bytes) :
    find (crlf ++ crlf) (l ++ t) = (find (crlf ++ crlf) t).map (· + l.length) := by
  induction l with
  | nil => simp
  | cons c l ih =>
    rw [List.mem_cons, not_or] at hl
    have hnot : ¬ crlf ++ crlf <+: c :: (l ++ t) := by
      intro hp
      exact hl.1 (List.cons_prefix_cons.mp hp).1
    rw [List.cons_append, find, if_neg hnot, ih hl.2, Option.map_map]
    rfl

/-- **The first empty line is the end of the head.** -/
theorem find_headText (hne : lines ≠ []) (hlines : ∀ l ∈ lines, IsLine l) (b : Bytes) :
    ∃ i, find (crlf ++ crlf) (headText lines ++ b) = some i ∧ i + 4 = (headText lines).length := by
  induction lines with
  | nil => exact absurd rfl hne
  | cons l lines ih =>
    have hl : (13 : UInt8) ∉ l := (hlines l List.mem_cons_self).2
    rw [headText_cons, List.append_assoc, find_line hl]
    cases lines with
    | nil =>
      have hzero : find (crlf ++ crlf) (13 :: 10 :: headText [] ++ b) = some 0 :=
        if_pos ⟨b, rfl⟩
      rw [hzero]
      exact ⟨l.length, by simp, by simp [headText, crlf]⟩
    | cons l' lines =>
      obtain ⟨i, hi, hlen⟩ := ih (by simp) fun l'' h'' => hlines l'' (List.mem_cons_of_mem l h'')
      obtain ⟨hne', hcr⟩ := hlines l' (by simp)
      -- the next line does not start with a carriage return
      obtain ⟨c, l'', rfl⟩ := List.exists_cons_of_ne_nil hne'
      have hc : c ≠ 13 := fun h => hcr (h ▸ List.mem_cons_self)
      have hskip : find (crlf ++ crlf) (13 :: 10 :: (headText ((c :: l'') :: lines) ++ b)) =
          some (i + 1 + 1) := by
        have hfirst : ¬ crlf ++ crlf <+: 13 :: 10 :: (headText ((c :: l'') :: lines) ++ b) := by
          rw [headText_cons]
          simp only [crlf, List.cons_append, List.nil_append, List.cons_prefix_cons, true_and]
          exact fun h => hc h.1.symm
        have hsecond : ¬ crlf ++ crlf <+: 10 :: (headText ((c :: l'') :: lines) ++ b) := by
          intro h
          simp [crlf, List.cons_prefix_cons] at h
        rw [find, if_neg hfirst, find, if_neg hsecond, hi]
        rfl
      refine ⟨i + 1 + 1 + l.length, ?_, ?_⟩
      · rw [List.cons_append, List.cons_append, hskip]
        rfl
      · rw [List.length_append, List.length_cons, List.length_cons, ← hlen]
        omega

/-- The body of a message is what stands behind its head. -/
theorem body_headText (hne : lines ≠ []) (hlines : ∀ l ∈ lines, IsLine l) (b : Bytes) :
    body (headText lines ++ b) = b := by
  obtain ⟨i, hi, hlen⟩ := find_headText hne hlines b
  rw [body, hi]
  show (headText lines ++ b).drop (i + 4) = b
  rw [hlen, List.drop_left]

/-- A message that is cut within its head has no body. -/
theorem body_of_prefix (hne : lines ≠ []) (hlines : ∀ l ∈ lines, IsLine l) {p : Bytes}
    (hp : p <+: headText lines) : body p = [] := by
  unfold body
  split
  · rfl
  · rename_i i hi
    obtain ⟨t, ht⟩ := hp
    obtain ⟨j, hj, hlen⟩ := find_headText hne hlines []
    have hij : some i = some j := by
      rw [← hj, List.append_nil, ← ht]
      exact (find_append hi t).symm
    cases hij
    refine List.drop_eq_nil_of_le ?_
    rw [hlen, ← ht, List.length_append]
    omega

end Avant.Lib.Http
