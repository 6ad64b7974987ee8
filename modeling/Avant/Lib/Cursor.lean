import Avant.Lib.BigEndian
import Avant.Lib.Find
import Avant.Lib.Halting

/-!
# Parsers with a cursor

A parser over a fixed text, with the position of its cursor as its state. The primitives are those
of a string: its size, a byte of it, comparing, searching and cutting from a position on, and moving
the cursor. Every access is noted with its position (`Access`), also those of a parser that throws,
so that it can be said of a run that it stays inside the text.

`Takes p s i a j` says that `p` at position `i` of the text `s` returns `a` with the cursor at `j`.
The rules give it for each primitive from the text behind the cursor, `s.drop i`, and compose.
-/

namespace Avant.Lib

/-- What a parser does with the text. -/
inductive Access
  /-- `s[pos]` -/
  | read (pos : Nat)
  /-- `s.compare(pos, ..)`, `s.find(.., pos)`, `s.substr(pos, ..)` -/
  | scan (pos : Nat)
  /-- the cursor is set to `pos` -/
  | move (pos : Nat)
  deriving DecidableEq

/-- How a run of a parser ends: with a value and the cursor, or without; and its accesses. -/
structure Parsed (α : Type) where
  result : Except Stop (α × Nat)
  log : List Access

/-- A parser over a text, with a cursor. -/
def Cursor (α : Type) : Type := Bytes → Nat → Parsed α

variable {α β : Type}

namespace Cursor

instance : Monad Cursor where
  pure a := fun _ i => ⟨.ok (a, i), []⟩
  bind p f := fun s i =>
    match (p s i).result with
    | .ok (a, j) => ⟨(f a s j).result, (p s i).log ++ (f a s j).log⟩
    | .error e => ⟨.error e, (p s i).log⟩

/-- `throw std::logic_error(message)` -/
def throw (message : String) : Cursor α := fun _ _ => ⟨.error (.threw message), []⟩

/-- The turns of a loop are used up. -/
def exhausted : Cursor α := fun _ _ => ⟨.error .exhausted, []⟩

def throwIf (c : Bool) (message : String) : Cursor Unit := if c then throw message else pure ()

/-- The position of the cursor. -/
def idx : Cursor Nat := fun _ i => ⟨.ok (i, i), []⟩

/-- `s.size()` -/
def size : Cursor Nat := fun s i => ⟨.ok (s.length, i), []⟩

/-- `s[pos]`, which is `0` at the end of the text -/
def byteAt (pos : Nat) : Cursor UInt8 := fun s i => ⟨.ok (s[pos]?.getD 0, i), [.read pos]⟩

/-- `s.compare(pos, n, pat) == 0`, which clamps `n` to what is left -/
def compareAt (pos n : Nat) (pat : Bytes) : Cursor Bool := fun s i =>
  if pos ≤ s.length then ⟨.ok (decide ((s.drop pos).take n = pat), i), [.scan pos]⟩
  else ⟨.error (.threw "basic_string::compare"), [.scan pos]⟩

/-- `s.find(pat, pos)` -/
def findFrom (pat : Bytes) (pos : Nat) : Cursor (Option Nat) := fun s i =>
  ⟨.ok ((find pat (s.drop pos)).map (pos + ·), i), [.scan pos]⟩

/-- `s.substr(pos, n)` -/
def substr (pos n : Nat) : Cursor Bytes := fun s i =>
  if pos ≤ s.length then ⟨.ok ((s.drop pos).take n, i), [.scan pos]⟩
  else ⟨.error (.threw "basic_string::substr"), [.scan pos]⟩

def moveTo (pos : Nat) : Cursor Unit := fun _ _ => ⟨.ok ((), pos), [.move pos]⟩

/-- `idx + k < s.size() && p(s[idx + k])` -/
def nextIs (k : Nat) (p : UInt8 → Bool) : Cursor Bool := do
  let i ← idx
  let n ← size
  if i + k < n then do
    let c ← byteAt (i + k)
    pure (p c)
  else pure false

/-- `idx >= s.size()` -/
def atEnd : Cursor Bool := do
  let i ← idx
  let n ← size
  pure (decide (n ≤ i))

/-- `p` at the position `i` of `s` returns `a`, with the cursor at `j`. -/
def Takes (p : Cursor α) (s : Bytes) (i : Nat) (a : α) (j : Nat) : Prop :=
  (p s i).result = .ok (a, j)

variable {p : Cursor α} {f : α → Cursor β} {s : Bytes} {i j k : Nat} {a : α} {b : β}

theorem Takes.pure : Takes (Pure.pure a) s i a i := rfl

/-- **Sequences** of parsers. -/
theorem Takes.bind (h : p.Takes s i a j) (hf : (f a).Takes s j b k) : (p >>= f).Takes s i b k := by
  unfold Takes at *
  simp only [Bind.bind, h, hf]

theorem Takes.idx : Cursor.idx.Takes s i i i := rfl

theorem Takes.size : Cursor.size.Takes s i s.length i := rfl

theorem Takes.moveTo (pos : Nat) : (Cursor.moveTo pos).Takes s i () pos := rfl

theorem Takes.throwIf (message : String) : (Cursor.throwIf false message).Takes s i () i := rfl

/-! ## Accesses, by the text behind the cursor -/

variable {c : UInt8} {t : Bytes}

theorem lt_of_drop (h : s.drop i = c :: t) : i < s.length := by
  by_contra hge
  rw [List.drop_eq_nil_of_le (by omega)] at h
  cases h

variable {u v : Bytes} {q : UInt8 → Bool}

theorem drop_add (h : s.drop i = u ++ v) : s.drop (i + u.length) = v := by
  rw [← List.drop_drop, h, List.drop_left]

theorem drop_succ (h : s.drop i = c :: t) : s.drop (i + 1) = t :=
  drop_add (u := [c]) h

theorem Takes.byteAt (h : s.drop i = c :: t) : (Cursor.byteAt i).Takes s i c i := by
  have hget : s[i]? = some c := by
    rw [← List.head?_drop, h]
    rfl
  simp only [Takes, Cursor.byteAt, hget, Option.getD_some]

theorem Takes.nextIs (k : Nat) (q : UInt8 → Bool) :
    (Cursor.nextIs k q).Takes s i (((s.drop i)[k]?).any q) i := by
  refine Takes.idx.bind (Takes.size.bind ?_)
  rw [List.getElem?_drop]
  split
  · next hlt =>
    refine Takes.bind (a := s[i + k]) (j := i) ?_ ?_
    · simp only [Takes, Cursor.byteAt, List.getElem?_eq_getElem hlt, Option.getD_some]
    · rw [List.getElem?_eq_getElem hlt]
      exact .pure
  · next hge =>
    rw [List.getElem?_eq_none (by omega)]
    exact .pure

theorem Takes.nextIs_head (h : s.drop i = c :: t) (hc : q c = true) :
    (Cursor.nextIs 0 q).Takes s i true i := by
  have hnext := Takes.nextIs (s := s) (i := i) 0 q
  rwa [h, List.getElem?_cons_zero, Option.any_some, hc] at hnext

theorem Takes.nextIs_false (h : s.drop i = t) (ht : ∀ c, t.head? = some c → q c = false) :
    (Cursor.nextIs 0 q).Takes s i false i := by
  have hnext := Takes.nextIs (s := s) (i := i) 0 q
  rw [h, ← List.head?_eq_getElem?] at hnext
  cases hhead : t.head? with
  | none => rwa [hhead] at hnext
  | some c => rwa [hhead, Option.any_some, ht c hhead] at hnext

theorem Takes.nextIs_one {d : UInt8} (h : s.drop i = c :: d :: t) :
    (Cursor.nextIs 1 q).Takes s i (q d) i := by
  have hnext := Takes.nextIs (s := s) (i := i) 1 q
  rwa [h, List.getElem?_cons_succ, List.getElem?_cons_zero, Option.any_some] at hnext

theorem Takes.atEnd (h : s.drop i = c :: t) : Cursor.atEnd.Takes s i false i := by
  have hlt := lt_of_drop h
  refine Takes.idx.bind (Takes.size.bind ?_)
  rw [decide_eq_false (by omega)]
  exact .pure

theorem Takes.atEnd_of_le (h : s.length ≤ i) : Cursor.atEnd.Takes s i true i := by
  refine Takes.idx.bind (Takes.size.bind ?_)
  rw [decide_eq_true h]
  exact .pure

theorem Takes.compareAt (n : Nat) (pat : Bytes) (h : i ≤ s.length) :
    (Cursor.compareAt i n pat).Takes s i (decide ((s.drop i).take n = pat)) i := by
  simp only [Takes, Cursor.compareAt, if_pos h]

/-- The next byte is found where the text in front of it does not have it. -/
theorem Takes.findFrom (h : s.drop k = u ++ c :: v) (hu : c ∉ u) :
    (Cursor.findFrom [c] k).Takes s i (some (k + u.length)) i := by
  simp only [Takes, Cursor.findFrom, h, find_singleton_append hu, Option.map_some]

theorem Takes.substr (h : s.drop k = u ++ v) (hk : k ≤ s.length) :
    (Cursor.substr k u.length).Takes s i u i := by
  simp only [Takes, Cursor.substr, if_pos hk, h, List.take_left]

end Cursor

end Avant.Lib
