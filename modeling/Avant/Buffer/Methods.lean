import Avant.Buffer.Buffer

/-!
# What the methods of a buffer do

`View` is the layout of a buffer: in front of the content what was read, behind it free space. Each
method is described by what it does to a view; together with a moved-from buffer, which has no block,
that is what it does to an object with a content (`Owns`).

`Good s s' c` says that the object has the content `c` afterwards, and that no block but its own was
touched. Each method is summed up by one statement of this kind (`write_ensures`, `read_ensures`, …).
-/

namespace Avant

open Lib

namespace Buffer

/-! ## Running the methods -/

section Run

variable {α β : Type} {p : Method α} {f : α → Method β} {s s' : Object} {a : α}
  {r : EStateM.Result Failure Object β}

/-- **Sequences**: the rest runs from where the first part returned. -/
theorem run_bind (h : p s = .ok a s') (hf : f a s' = r) : (p >>= f) s = r := by
  simp only [bind, EStateM.bind, h, hf]

theorem run_self {f : Buffer → Method β} (hf : f s.this s = r) : (self >>= f) s = r := hf

theorem run_assign {g : Buffer → Buffer} {f : Unit → Method β}
    (hf : f () { s with this := g s.this } = r) : (assign g >>= f) s = r := hf

theorem run_error {e : Failure} (h : p s = .error e s') : (p >>= f) s = .error e s' := by
  simp only [bind, EStateM.bind, h]

theorem run_congr {q : Method α} (h : p s = q s) : (p >>= f) s = (q >>= f) s := by
  simp only [bind, EStateM.bind, h]

theorem run_if_pos {c : Prop} [Decidable c] {q q' : Method β} (hc : c) (h : q s = r) :
    (if c then q else q') s = r := by
  rwa [if_pos hc]

theorem run_if_neg {c : Prop} [Decidable c] {q q' : Method β} (hc : ¬ c) (h : q' s = r) :
    (if c then q else q') s = r := by
  rwa [if_neg hc]

/-! Bytes in the middle of a block. -/

variable {b : Buffer} {m : Memory} {k i n : Nat} {u v w : Bytes}

theorem load_run (h : m.get k = some (u ++ v ++ w)) (hi : i = u.length) (hn : n = v.length) :
    load (some ⟨k, i⟩) n ⟨b, m⟩ = .ok v ⟨b, m⟩ := by
  unfold load
  split
  · next h0 => rw [List.eq_nil_of_length_eq_zero (hn.symm.trans h0)]
  · rw [Option.bind_some, Memory.load_eq h hi hn]

theorem store_run (src : Bytes) (h : m.get k = some (u ++ v ++ w)) (hi : i = u.length)
    (hv : src.length = v.length) :
    store (some ⟨k, i⟩) src ⟨b, m⟩ = .ok () ⟨b, m.put k (some (u ++ src ++ w))⟩ := by
  unfold store
  split
  · next h0 =>
    subst h0
    obtain rfl := List.eq_nil_of_length_eq_zero hv.symm
    rw [Memory.put_eq_self h]
  · rw [Option.bind_some, Memory.store_eq h hi hv]

end Run

/-! ## Layouts -/

/-- The layout of a buffer. -/
structure View where
  limitMax : Nat
  block : Nat
  /-- what was read -/
  front : Bytes
  content : Bytes
  /-- what is free -/
  tail : Bytes

namespace View

def bytes (v : View) : Bytes := v.front ++ v.content ++ v.tail

def buffer (v : View) : Buffer where
  limitMax := v.limitMax
  capacity := v.front.length + v.content.length + v.tail.length
  readPtr := some ⟨v.block, v.front.length⟩
  writePtr := some ⟨v.block, v.front.length + v.content.length⟩
  buffer := some v.block

/-- Bytes appended to the content. -/
def append (v : View) (source : Bytes) : View :=
  { v with content := v.content ++ source, tail := v.tail.drop source.length }

/-- Bytes taken from the content. -/
def skip (v : View) (n : Nat) : View :=
  { v with front := v.front ++ v.content.take n, content := v.content.drop n }

/-- The content at the start of the block. -/
def packed (v : View) : View :=
  { v with front := [], tail := v.bytes.drop v.content.length }

/-- The content at the start of another block. -/
def moved (v : View) (block capacity : Nat) : View :=
  { v with
    block := block
    front := []
    tail := List.replicate (capacity - v.content.length) 0 }

variable {v : View} {m : Memory} {source : Bytes}

theorem diff_run (s : Object) :
    diff v.buffer.writePtr v.buffer.readPtr s = .ok v.content.length s := by
  simp [diff, buffer]

theorem load_run (hm : m.get v.block = some v.bytes) (b : Buffer) :
    load v.buffer.readPtr v.content.length ⟨b, m⟩ = .ok v.content ⟨b, m⟩ :=
  Buffer.load_run hm rfl rfl

theorem afterSize_run : afterSize ⟨v.buffer, m⟩ = .ok v.tail.length ⟨v.buffer, m⟩ := by
  simp [afterSize, self, diff, bind, EStateM.bind, buffer, offset]

theorem checkAndWrite_of_lt (h : v.tail.length < source.length) :
    checkAndWrite source ⟨v.buffer, m⟩ = .ok false ⟨v.buffer, m⟩ := by
  refine run_bind afterSize_run ?_
  exact run_if_neg (by omega) rfl

theorem checkAndWrite_of_le (hm : m.get v.block = some v.bytes)
    (h : source.length ≤ v.tail.length) :
    checkAndWrite source ⟨v.buffer, m⟩ =
      .ok true ⟨(v.append source).buffer, m.put v.block (some (v.append source).bytes)⟩ := by
  have hbytes : v.bytes =
      (v.front ++ v.content) ++ v.tail.take source.length ++ v.tail.drop source.length := by
    rw [List.append_assoc, List.take_append_drop, bytes]
  have hstore := store_run (b := v.buffer) (i := v.front.length + v.content.length) source
    (hbytes ▸ hm) (by simp) (by simp [h])
  have hthis : ({ v.buffer with writePtr := advance v.buffer.writePtr source.length } : Buffer) =
      (v.append source).buffer := by
    ext1
    case capacity => simp only [buffer, append, List.length_append, List.length_drop]; omega
    case writePtr => simp only [buffer, append, advance, Option.map_some, List.length_append,
      Nat.add_assoc]
    all_goals rfl
  have hput : v.front ++ v.content ++ source ++ v.tail.drop source.length =
      (v.append source).bytes := by
    simp only [bytes, append, List.append_assoc]
  rw [← hthis, ← hput]
  refine run_bind afterSize_run ?_
  refine run_if_pos h ?_
  exact run_self (run_bind hstore (run_assign rfl))

theorem moveToBefore_run (hm : m.get v.block = some v.bytes) :
    moveToBefore ⟨v.buffer, m⟩ = .ok () ⟨v.packed.buffer, m.put v.block (some v.packed.bytes)⟩ := by
  have hload := load_run hm v.buffer
  have hbytes : v.bytes = [] ++ v.bytes.take v.content.length ++ v.bytes.drop v.content.length := by
    simp
  have hstore := store_run (b := v.buffer) (i := 0) v.content (hbytes ▸ hm) rfl
    (by simp [bytes]; omega)
  have hthis : ({ v.buffer with
      readPtr := v.buffer.offset 0
      writePtr := v.buffer.offset v.content.length } : Buffer) = v.packed.buffer := by
    ext1
    case capacity => simp only [buffer, packed, bytes, List.length_append, List.length_drop,
      List.length_nil]; omega
    case writePtr => simp only [buffer, packed, offset, Option.map_some, List.length_nil,
      Nat.zero_add]
    all_goals rfl
  rw [← hthis]
  refine run_self (run_bind (diff_run _) (run_bind hload ?_))
  exact run_bind hstore (run_assign rfl)

theorem setBuffer_run {b : Buffer} {bs : Bytes} {old : Nat} (hb : b.buffer = some old)
    (hm : m.get old = some bs) (k : Option Nat) :
    setBuffer k ⟨b, m⟩ = .ok () ⟨{ b with buffer := k }, m.put old none⟩ := by
  simp only [setBuffer, hb, Memory.free_eq hm]

theorem reallocate_run (hm : m.get v.block = some v.bytes) (hfront : v.front = []) {n : Nat}
    (hn : v.content.length ≤ n) {grant : Nat → Bool} (hgrant : grant n = true) :
    reallocate grant n v.content.length ⟨v.buffer, m⟩ =
      .ok () ⟨(v.moved m.next n).buffer,
        ((m.alloc n).put m.next (some (v.moved m.next n).bytes)).put v.block none⟩ := by
  have hne := Memory.ne_next hm
  have hunique : makeUnique grant n ⟨v.buffer, m⟩ = .ok m.next ⟨v.buffer, m.alloc n⟩ :=
    if_pos hgrant
  have hload := Buffer.load_run (b := v.buffer) (u := v.front)
    ((Memory.get_alloc_ne n hne).trans hm) (hfront ▸ rfl : (0 : Nat) = v.front.length) rfl
  have hzeros : List.replicate n (0 : UInt8) = [] ++ List.replicate v.content.length 0 ++
      List.replicate (n - v.content.length) 0 := by
    rw [List.nil_append, List.replicate_append_replicate]
    congr
    omega
  have hstore := store_run (b := v.buffer) (m := m.alloc n) (i := 0) v.content
    ((Memory.get_alloc n).trans (congrArg some hzeros)) rfl (by simp)
  have hbytes : [] ++ v.content ++ List.replicate (n - v.content.length) 0 =
      (v.moved m.next n).bytes := rfl
  have hthis : (v.moved m.next n).buffer =
      { v.buffer with
        readPtr := some ⟨m.next, 0⟩
        writePtr := some ⟨m.next, v.content.length⟩
        capacity := n
        buffer := some m.next } := by
    ext1
    case capacity => simp only [buffer, moved, List.length_nil, List.length_replicate]; omega
    case writePtr => simp only [buffer, moved, List.length_nil, Nat.zero_add]
    all_goals rfl
  rw [hbytes] at hstore
  rw [hthis]
  refine run_bind hunique (run_self (run_bind hload (run_bind hstore ?_)))
  refine run_assign (run_assign (run_assign ?_))
  exact setBuffer_run rfl
    ((Memory.get_put_ne hne).trans ((Memory.get_alloc_ne n hne).trans hm)) _

end View

/-! ## What the methods do to an object -/

/-- What a buffer is to its user: bytes, and the sizes that decide whether it takes more of them. -/
structure Queue where
  content : Bytes := []
  limitMax : Nat := defaultCapacity
  capacity : Nat := defaultCapacity

def View.queue (v : View) : Queue := ⟨v.content, v.limitMax, v.bytes.length⟩

/-- The bytes between the pointers of a buffer, its limit and its capacity are those of the queue. -/
inductive Owns (m : Memory) : Buffer → Queue → Prop
  /-- moved from -/
  | null (limitMax : Nat) : Owns m { limitMax := limitMax } { limitMax := limitMax }
  | view (v : View) (hm : m.get v.block = some v.bytes) : Owns m v.buffer v.queue

/-- Capacity and limit are sizes, and not less than the default. -/
structure Sized (b : Buffer) : Prop where
  capacity : defaultCapacity ≤ b.capacity
  capacity_lt : b.capacity < 2 ^ 64
  limitMax : defaultCapacity ≤ b.limitMax
  limitMax_lt : b.limitMax < 2 ^ 64

/-- A method touches no block but its own, and takes no block but its own or a new one. -/
structure Frame (s s' : Object) : Prop where
  get : ∀ k bs, s.mem.get k = some bs → s.this.buffer ≠ some k → s'.mem.get k = some bs
  buffer : ∀ k, s'.this.buffer = some k → s.this.buffer = some k ∨ s.mem.get k = none

/-- The object is the queue, and nothing else changed. -/
structure Good (s s' : Object) (q : Queue) : Prop where
  owns : Owns s'.mem s'.this q
  sized : Sized s'.this
  frame : Frame s s'

theorem Owns.frame {m m' : Memory} {b : Buffer} {q : Queue} (h : Owns m b q)
    (hm : ∀ k bs, b.buffer = some k → m.get k = some bs → m'.get k = some bs) : Owns m' b q := by
  cases h with
  | null limitMax => exact .null limitMax
  | view v hv => exact .view v (hm _ _ rfl hv)

theorem Frame.refl (s : Object) : Frame s s := ⟨fun _ _ h _ => h, fun _ h => .inl h⟩

theorem Frame.trans {s s₁ s' : Object} (h : Frame s s₁) (h' : Frame s₁ s') : Frame s s' where
  get k bs hk hne := by
    refine h'.get k bs (h.get k bs hk hne) fun hk₁ => ?_
    rcases h.buffer k hk₁ with hown | hnone
    · exact hne hown
    · rw [hk] at hnone
      cases hnone
  buffer k hk := by
    by_cases hown : s.this.buffer = some k
    · exact .inl hown
    · right
      cases hget : s.mem.get k with
      | none => rfl
      | some bs =>
        have hget₁ := h.get k bs hget hown
        rcases h'.buffer k hk with hk₁ | hnone
        · exact absurd ((h.buffer k hk₁).resolve_left hown) (by simp [hget])
        · rw [hget₁] at hnone
          cases hnone

theorem Good.trans {s s₁ s' : Object} {q q' : Queue} (h : Good s s₁ q) (h' : Good s₁ s' q') :
    Good s s' q' :=
  ⟨h'.owns, h'.sized, h.frame.trans h'.frame⟩

section Views

variable {v v' : View} {m : Memory}

theorem View.length_bytes (v : View) : v.bytes.length = v.buffer.capacity := by
  simp only [bytes, buffer, List.length_append]

/-- The pointers of an object move, and the bytes in its block change. -/
theorem Good.put (hm : m.get v.block = some v.bytes) (hs : Sized v.buffer)
    (hblock : v'.block = v.block) (hlimit : v'.limitMax = v.limitMax)
    (hlen : v'.bytes.length = v.bytes.length) :
    Good ⟨v.buffer, m⟩ ⟨v'.buffer, m.put v.block (some v'.bytes)⟩ v'.queue := by
  have hcap : v'.buffer.capacity = v.buffer.capacity := by
    rw [← v'.length_bytes, ← v.length_bytes, hlen]
  refine ⟨.view v' ?_, ?_, ?_, ?_⟩
  · rw [hblock]
    exact Memory.get_put hm
  · exact ⟨hs.capacity.trans_eq hcap.symm, hcap.trans_lt hs.capacity_lt,
      hs.limitMax.trans_eq hlimit.symm, hlimit.trans_lt hs.limitMax_lt⟩
  · intro k bs hk hne
    rwa [Memory.get_put_ne]
    rintro rfl
    exact hne rfl
  · intro k hk
    rw [← hk]
    exact .inl (congrArg some hblock.symm)

/-- The content moves to a new block. -/
theorem Good.moved (hm : m.get v.block = some v.bytes) (hs : Sized v.buffer) {n : Nat}
    (hn : v.content.length ≤ n) (hcap : defaultCapacity ≤ n) (hlt : n < 2 ^ 64) :
    Good ⟨v.buffer, m⟩ ⟨(v.moved m.next n).buffer,
      ((m.alloc n).put m.next (some (v.moved m.next n).bytes)).put v.block none⟩
      (v.moved m.next n).queue := by
  have hne := Memory.ne_next hm
  have hnew : (v.moved m.next n).buffer.capacity = n := by
    simp only [View.buffer, View.moved, List.length_nil, List.length_replicate]
    omega
  refine ⟨.view (v.moved m.next n) ?_,
    ⟨hcap.trans_eq hnew.symm, hnew.trans_lt hlt, hs.limitMax, hs.limitMax_lt⟩, ?_, ?_⟩
  · exact (Memory.get_put_ne hne.symm).trans (Memory.get_put (Memory.get_alloc n))
  · intro k bs hk hown
    have hkv : k ≠ v.block := by
      rintro rfl
      exact hown rfl
    have hkn := Memory.ne_next hk
    exact (Memory.get_put_ne hkv).trans ((Memory.get_put_ne hkn).trans
      ((Memory.get_alloc_ne n hkn).trans hk))
  · intro k hk
    cases hk
    exact .inr Memory.get_next

end Views

/-! ## Writing -/

/-- The loop ends where doubling does not overflow, and further turns change nothing. -/
theorem grow_eq {needed : Nat} (limitMax : Nat) (hneeded : needed ≤ 2 ^ 63) :
    ∀ {t c : Nat}, needed ≤ c * 2 ^ t → c < 2 ^ 64 →
      ∃ c', (∀ turns, t < turns → grow needed limitMax turns c = some c') ∧ c' < 2 ^ 64
  | 0, c, hc, hlt => by
    refine ⟨c, fun turns hturns => ?_, hlt⟩
    obtain ⟨u, rfl⟩ := Nat.exists_eq_add_of_lt hturns
    exact if_neg (by omega)
  | t + 1, c, hc, hlt => by
    by_cases h : c < needed ∧ c < limitMax
    · have hdouble : c * 2 % 2 ^ 64 = c * 2 := Nat.mod_eq_of_lt (by omega)
      obtain ⟨c', hgrow, hlt'⟩ := grow_eq limitMax hneeded
        (t := t) (c := c * 2) (by rwa [Nat.mul_assoc, ← Nat.pow_succ']) (by omega)
      refine ⟨c', fun turns hturns => ?_, hlt'⟩
      obtain ⟨u, rfl⟩ := Nat.exists_eq_add_of_lt hturns
      rw [grow, if_pos h, hdouble]
      exact hgrow _ (by omega)
    · refine ⟨c, fun turns hturns => ?_, hlt⟩
      obtain ⟨u, rfl⟩ := Nat.exists_eq_add_of_lt hturns
      exact if_neg h

namespace Queue

variable (q : Queue)

/-- The capacity for `n` more bytes, as `ensure_capacity` finds it. -/
def room (n : Nat) : Nat :=
  let needed := q.content.length + n
  let newCapacity := (grow needed q.limitMax 64 q.capacity).getD 0
  if needed ≤ q.capacity then q.capacity
  else if newCapacity < needed then needed else newCapacity

def append (source : Bytes) : Queue :=
  { q with content := q.content ++ source, capacity := q.room source.length }

def drop (n : Nat) : Queue := { q with content := q.content.drop n }

/-- The limit only grows. -/
def raise (limitMax : Nat) : Queue :=
  { q with limitMax := max q.limitMax (max defaultCapacity limitMax) }

/-- Whether a `write` takes the bytes, if it gets the memory it needs. -/
def Takes (source : Bytes) : Prop :=
  source ≠ [] ∧ source.length ≤ q.limitMax ∧
    (q.content.length ≤ q.limitMax ∨ q.content.length + source.length ≤ q.capacity)

end Queue

/-- How a method ends: it returns, with `P`, or it fails, with `E`. -/
def Ensures {α : Type} (r : EStateM.Result Failure Object α) (P : α → Object → Prop)
    (E : Failure → Object → Prop) : Prop :=
  match r with
  | .ok a s => P a s
  | .error e s => E e s

section Write

variable {v : View} {m : Memory} {grant : Nat → Bool} {turns : Nat} {source : Bytes}

theorem ensureCapacity_throws (hused : v.limitMax < v.content.length) :
    ensureCapacity grant turns source.length ⟨v.buffer, m⟩ =
      .error (.threw "write: used exceeds limit_max") ⟨v.buffer, m⟩ := by
  refine run_self (run_bind (View.diff_run _) ?_)
  exact run_if_pos hused rfl

theorem ensureCapacity_grow (hused : v.content.length ≤ v.limitMax)
    (hsum : v.content.length + source.length < 2 ^ 64)
    (hmore : v.buffer.capacity < v.content.length + source.length) :
    ensureCapacity grant turns source.length ⟨v.buffer, m⟩ =
      growTo grant v.content.length (v.content.length + source.length)
        (grow (v.content.length + source.length) v.limitMax turns v.buffer.capacity)
        ⟨v.buffer, m⟩ := by
  refine run_self (run_bind (View.diff_run _) ?_)
  refine run_if_neg (Nat.not_lt.mpr hused) ?_
  dsimp only
  rw [Nat.mod_eq_of_lt hsum]
  exact run_if_neg (Nat.not_le.mpr hmore) rfl

/-- The content is moved to a block that is large enough. -/
theorem ensureCapacity_eq (grant : Nat → Bool) (hs : Sized v.buffer) (hturns : 64 ≤ turns)
    (hused : v.content.length ≤ v.limitMax) (hfit : v.content.length + source.length ≤ 2 ^ 63)
    (hmore : v.buffer.capacity < v.content.length + source.length) :
    v.content.length + source.length ≤ v.queue.room source.length ∧
      v.queue.room source.length < 2 ^ 64 ∧
      ensureCapacity grant turns source.length ⟨v.buffer, m⟩ =
        reallocate grant (v.queue.room source.length) v.content.length ⟨v.buffer, m⟩ := by
  have hpow : v.content.length + source.length ≤ v.buffer.capacity * 2 ^ 63 :=
    calc v.content.length + source.length ≤ 1 * 2 ^ 63 := by omega
      _ ≤ v.buffer.capacity * 2 ^ 63 :=
        Nat.mul_le_mul_right _ (le_trans (by decide) hs.capacity)
  obtain ⟨c, hgrow, hlt⟩ := grow_eq v.limitMax hfit hpow hs.capacity_lt
  have hroom : v.queue.room source.length =
      if c < v.content.length + source.length then v.content.length + source.length else c := by
    simp only [Queue.room, View.queue, v.length_bytes, hgrow 64 (by decide), Option.getD_some,
      if_neg (Nat.not_le.mpr hmore)]
  rw [hroom, ensureCapacity_grow hused (by omega) hmore, hgrow turns hturns]
  refine ⟨?_, ?_, rfl⟩
  · split <;> omega
  · split <;> omega

theorem View.length_packed (v : View) : v.packed.bytes.length = v.bytes.length := by
  simp only [packed, bytes, List.length_append, List.length_drop, List.length_nil]
  omega

theorem View.capacity_packed (v : View) : v.packed.buffer.capacity = v.buffer.capacity := by
  rw [← length_bytes, ← length_bytes, v.length_packed]

theorem View.length_packed_tail (v : View) :
    v.packed.tail.length = v.front.length + v.tail.length := by
  simp only [packed, bytes, List.length_append, List.length_drop]
  omega

theorem View.length_append (h : source.length ≤ v.tail.length) :
    (v.append source).bytes.length = v.bytes.length := by
  simp only [append, bytes, List.length_append, List.length_drop]
  omega

/-- The bytes fit behind the content. -/
theorem writeBlock_of_le (hm : m.get v.block = some v.bytes) (h : source.length ≤ v.tail.length) :
    writeBlock grant turns source ⟨v.buffer, m⟩ =
      .ok () ⟨(v.append source).buffer, m.put v.block (some (v.append source).bytes)⟩ :=
  run_bind (View.checkAndWrite_of_le hm h) rfl

/-- They fit once the content was moved to the start. -/
theorem writeBlock_of_le_packed (hm : m.get v.block = some v.bytes)
    (hfull : v.tail.length < source.length) (h : source.length ≤ v.front.length + v.tail.length) :
    writeBlock grant turns source ⟨v.buffer, m⟩ =
      .ok () ⟨(v.packed.append source).buffer,
        (m.put v.block (some v.packed.bytes)).put v.block (some (v.packed.append source).bytes)⟩ := by
  have hpacked : (m.put v.block (some v.packed.bytes)).get v.packed.block = some v.packed.bytes :=
    Memory.get_put hm
  refine run_bind (View.checkAndWrite_of_lt hfull) ?_
  refine run_bind (View.moveToBefore_run hm) ?_
  exact run_bind (View.checkAndWrite_of_le hpacked (h.trans_eq v.length_packed_tail.symm)) rfl

/-- They do not fit: the block has to grow. -/
theorem writeBlock_of_lt (hm : m.get v.block = some v.bytes)
    (hlimit : source.length ≤ v.limitMax)
    (hfull : v.front.length + v.tail.length < source.length) :
    writeBlock grant turns source ⟨v.buffer, m⟩ =
      (do ensureCapacity grant turns source.length
          let _ ← checkAndWrite source
          pure () : Method Unit) ⟨v.packed.buffer, m.put v.block (some v.packed.bytes)⟩ := by
  have htail : v.packed.tail.length < source.length := v.length_packed_tail.trans_lt hfull
  refine run_bind (View.checkAndWrite_of_lt (by omega)) ?_
  refine run_bind (View.moveToBefore_run hm) ?_
  refine run_bind (View.checkAndWrite_of_lt htail) ?_
  exact run_self (run_if_neg (Nat.not_lt.mpr hlimit) rfl)

/-- What is appended, where there is room. -/
theorem View.queue_append (h : source.length ≤ v.tail.length) :
    (v.append source).queue = v.queue.append source := by
  have hle : v.queue.content.length + source.length ≤ v.queue.capacity := by
    simp only [queue, bytes, List.length_append]
    omega
  simp only [Queue.append, Queue.room, if_pos hle]
  rw [queue, length_append h]
  rfl

theorem View.queue_packed (v : View) : v.packed.queue = v.queue := by
  rw [queue, length_packed]
  rfl

/-- The block grows, and the bytes are appended. -/
theorem writeGrown_run (source : Bytes) (hm : m.get v.block = some v.bytes) (hfront : v.front = [])
    (hs : Sized v.buffer) {n : Nat} (hn : v.content.length + source.length ≤ n) (hlt : n < 2 ^ 64)
    (hcap : v.buffer.capacity ≤ n) (hgrant : grant n = true) :
    ∃ s', (do reallocate grant n v.content.length
              let _ ← checkAndWrite source
              pure () : Method Unit) ⟨v.buffer, m⟩ = .ok () s' ∧
      Good ⟨v.buffer, m⟩ s' { v.queue with content := v.content ++ source, capacity := n } := by
  have hle : v.content.length ≤ n := le_trans (Nat.le_add_right _ _) hn
  have hget := (Memory.get_put_ne (v := none) (Memory.ne_next hm).symm).trans
    (Memory.get_put (v := some (v.moved m.next n).bytes) (Memory.get_alloc n))
  have htail : source.length ≤ (v.moved m.next n).tail.length := by
    simp only [View.moved, List.length_replicate]
    omega
  refine ⟨_, run_bind (View.reallocate_run hm hfront hle hgrant)
    (run_bind (View.checkAndWrite_of_le hget htail) rfl), ?_⟩
  have hmoved := Good.moved hm hs hle (hs.capacity.trans hcap) hlt
  have hqueue : ((v.moved m.next n).append source).queue =
      { v.queue with content := v.content ++ source, capacity := n } := by
    rw [View.queue, View.length_append htail]
    simp only [View.append, View.moved, View.queue, View.bytes, List.length_append,
      List.length_replicate, List.length_nil, Queue.mk.injEq, true_and]
    omega
  rw [← hqueue]
  exact hmoved.trans (.put hget hmoved.sized rfl rfl (View.length_append htail))

/-- **Writing into a block**: the bytes are appended; or there is no memory, or more bytes are used
than the limit and the block is too small, and the content stays as it is. -/
theorem writeBlock_ensures (grant : Nat → Bool) (hm : m.get v.block = some v.bytes)
    (hs : Sized v.buffer) (hturns : 64 ≤ turns) (hlimit : source.length ≤ v.limitMax)
    (hfit : v.content.length + source.length ≤ 2 ^ 63) :
    Ensures (writeBlock grant turns source ⟨v.buffer, m⟩)
      (fun _ s' => (v.content.length ≤ v.limitMax ∨
        v.content.length + source.length ≤ v.queue.capacity) ∧
          Good ⟨v.buffer, m⟩ s' (v.queue.append source))
      fun e s' => Good ⟨v.buffer, m⟩ s' v.queue ∧
        (e = .badAlloc ∧ (∃ n, grant n = false) ∨
          e = .threw "write: used exceeds limit_max" ∧ v.limitMax < v.content.length ∧
            v.queue.capacity < v.content.length + source.length) := by
  have hcapacity : v.queue.capacity = v.front.length + v.content.length + v.tail.length := by
    simp only [View.queue, View.bytes, List.length_append]
  by_cases hle : source.length ≤ v.tail.length
  · rw [writeBlock_of_le hm hle]
    refine ⟨.inr (by omega), ?_⟩
    rw [← View.queue_append hle]
    exact .put hm hs rfl rfl (View.length_append hle)
  -- the content is moved to the start of the block
  have hpack :
      Good ⟨v.buffer, m⟩ ⟨v.packed.buffer, m.put v.block (some v.packed.bytes)⟩ v.queue := by
    rw [← v.queue_packed]
    exact .put hm hs rfl rfl v.length_packed
  have hpacked : (m.put v.block (some v.packed.bytes)).get v.packed.block = some v.packed.bytes :=
    Memory.get_put hm
  by_cases hle' : source.length ≤ v.front.length + v.tail.length
  · have htail : source.length ≤ v.packed.tail.length := hle'.trans_eq v.length_packed_tail.symm
    rw [writeBlock_of_le_packed hm (by omega) hle']
    refine ⟨.inr (by omega), hpack.trans ?_⟩
    rw [← v.queue_packed, ← View.queue_append htail]
    exact .put hpacked hpack.sized rfl rfl (View.length_append htail)
  have hmore : v.buffer.capacity < v.content.length + source.length := by
    simp only [View.buffer]
    omega
  rw [writeBlock_of_lt hm hlimit (by omega)]
  by_cases hused : v.limitMax < v.content.length
  · rw [run_error (ensureCapacity_throws (v := v.packed) hused)]
    exact ⟨hpack, .inr ⟨rfl, hused, by rwa [View.queue, v.length_bytes]⟩⟩
  obtain ⟨hn, hlt, heq⟩ := ensureCapacity_eq (v := v.packed)
    (m := m.put v.block (some v.packed.bytes)) grant hpack.sized hturns
    (Nat.le_of_not_lt hused) hfit (v.capacity_packed.trans_lt hmore)
  by_cases hgrant : grant (v.packed.queue.room source.length) = true
  · obtain ⟨s', hrun, hgood⟩ := writeGrown_run source hpacked rfl hpack.sized hn hlt
      (v.capacity_packed.trans_le (hmore.le.trans hn)) hgrant
    rw [run_congr heq, hrun]
    refine ⟨.inl (Nat.le_of_not_lt hused), hpack.trans ?_⟩
    rwa [v.queue_packed] at hgood
  · have hfail : reallocate grant (v.packed.queue.room source.length) v.packed.content.length
        ⟨v.packed.buffer, m.put v.block (some v.packed.bytes)⟩ =
          .error .badAlloc ⟨v.packed.buffer, m.put v.block (some v.packed.bytes)⟩ :=
      run_error (if_neg hgrant)
    rw [run_error (heq.trans hfail)]
    exact ⟨hpack, .inl ⟨rfl, _, by simpa using hgrant⟩⟩

/-- The object of a moved-from buffer after `init_with_capacity`. -/
def fresh (limitMax block : Nat) : View :=
  ⟨limitMax, block, [], [], List.replicate defaultCapacity 0⟩

theorem buffer_fresh (limitMax block : Nat) : (fresh limitMax block).buffer =
    { limitMax := limitMax
      readPtr := some ⟨block, 0⟩
      writePtr := some ⟨block, 0⟩
      buffer := some block } := by
  simp [fresh, View.buffer]

theorem queue_fresh (limitMax block : Nat) :
    (fresh limitMax block).queue = { limitMax := limitMax } := by
  simp [View.queue, View.bytes, fresh]

theorem initWithCapacity_run {limitMax : Nat} (hgrant : grant defaultCapacity = true) :
    initWithCapacity grant defaultCapacity ⟨{ limitMax := limitMax }, m⟩ =
      .ok () ⟨(fresh limitMax m.next).buffer, m.alloc defaultCapacity⟩ := by
  have hunique : makeUnique grant defaultCapacity ⟨{ limitMax := limitMax }, m⟩ =
      .ok m.next ⟨{ limitMax := limitMax }, m.alloc defaultCapacity⟩ := if_pos hgrant
  rw [buffer_fresh]
  exact run_assign (run_bind hunique rfl)

theorem Good.fresh {limitMax : Nat} (hs : Sized { limitMax := limitMax }) :
    Good ⟨{ limitMax := limitMax }, m⟩
      ⟨(fresh limitMax m.next).buffer, m.alloc defaultCapacity⟩ { limitMax := limitMax } := by
  refine ⟨queue_fresh limitMax m.next ▸ .view (Buffer.fresh limitMax m.next) (Memory.get_alloc _), ?_, ?_, ?_⟩
  · rw [buffer_fresh]
    exact { hs with }
  · intro k bs hk _
    exact (Memory.get_alloc_ne _ (Memory.ne_next hk)).trans hk
  · intro k hk
    cases hk
    exact .inr Memory.get_next

variable {b : Buffer} {q : Queue}

theorem Good.refl (h : Owns m b q) (hs : Sized b) : Good ⟨b, m⟩ ⟨b, m⟩ q := ⟨h, hs, .refl _⟩

/-- There is a block then, or there is no memory. -/
theorem lazyInit_ensures (grant : Nat → Bool) (h : Owns m b q) (hs : Sized b) :
    Ensures (lazyInit grant ⟨b, m⟩)
      (fun _ s' => ∃ v : View, s'.this = v.buffer ∧ s'.mem.get v.block = some v.bytes ∧
        v.queue = q ∧ Good ⟨b, m⟩ s' q)
      fun e s' => s' = ⟨b, m⟩ ∧ e = .badAlloc ∧ ∃ n, grant n = false := by
  cases h with
  | null limitMax =>
    by_cases hgrant : grant defaultCapacity = true
    · have hrun : lazyInit grant ⟨{ limitMax := limitMax }, m⟩ = _ :=
        run_self (run_if_pos rfl (initWithCapacity_run hgrant))
      rw [hrun]
      exact ⟨fresh limitMax m.next, rfl, Memory.get_alloc _, queue_fresh _ _, .fresh hs⟩
    · have hrun : lazyInit grant ⟨{ limitMax := limitMax }, m⟩ =
          .error .badAlloc ⟨{ limitMax := limitMax }, m⟩ :=
        run_self (run_if_pos rfl (run_assign (run_error (if_neg hgrant))))
      rw [hrun]
      exact ⟨rfl, rfl, _, by simpa using hgrant⟩
  | view v hm =>
    have hrun : lazyInit grant ⟨v.buffer, m⟩ = .ok () ⟨v.buffer, m⟩ :=
      run_self (run_if_neg nofun rfl)
    rw [hrun]
    exact ⟨v, rfl, hm, rfl, .refl (.view v hm) hs⟩

/-- An exception of the program. -/
def Failure.Thrown (e : Failure) : Prop := e = .badAlloc ∨ ∃ message, e = .threw message

/-- **`write` appends or throws**, and then the content stays as it is: it throws what the queue does
not take, and where there is no memory. -/
theorem write_ensures (h : Owns m b q) (hs : Sized b) (hturns : 64 ≤ turns)
    (hfit : q.content.length + source.length ≤ 2 ^ 63) :
    Ensures (write grant turns (some source) ⟨b, m⟩)
      (fun n s' => q.Takes source ∧ n = source.length ∧ Good ⟨b, m⟩ s' (q.append source))
      fun e s' => Good ⟨b, m⟩ s' q ∧ e.Thrown ∧ (q.Takes source → ∃ n, grant n = false) := by
  unfold write
  dsimp only
  split
  · next hnil => exact ⟨.refl h hs, .inr ⟨_, rfl⟩, fun ht => absurd (by simpa using hnil) ht.1⟩
  next hne =>
  have hinit := lazyInit_ensures grant h hs
  cases hrun : lazyInit grant ⟨b, m⟩ with
  | error e s₁ =>
    rw [hrun] at hinit
    obtain ⟨rfl, rfl, hrefused⟩ := hinit
    rw [run_error hrun]
    exact ⟨.refl h hs, .inl rfl, fun _ => hrefused⟩
  | ok _ s₁ =>
    rw [hrun] at hinit
    obtain ⟨b₁, m₁⟩ := s₁
    obtain ⟨v, hv, hm, rfl, hgood⟩ := hinit
    dsimp only at hv hm
    subst hv
    rw [run_bind hrun (run_self rfl)]
    dsimp only
    split
    · next hlimit => exact ⟨hgood, .inr ⟨_, rfl⟩, fun ht => absurd ht.2.1 (Nat.not_le.mpr hlimit)⟩
    next hlimit =>
    have hblock := writeBlock_ensures grant hm hgood.sized hturns (Nat.le_of_not_lt hlimit) hfit
    cases hwrite : writeBlock grant turns source ⟨v.buffer, m₁⟩ with
    | error e s₂ =>
      rw [hwrite] at hblock
      rw [run_error hwrite]
      obtain ⟨hgood₂, ⟨rfl, hrefused⟩ | ⟨rfl, hused, hmore⟩⟩ := hblock
      · exact ⟨hgood.trans hgood₂, .inl rfl, fun _ => hrefused⟩
      · exact ⟨hgood.trans hgood₂, .inr ⟨_, rfl⟩, fun ht => absurd ht.2.2
          (not_or.mpr ⟨Nat.not_le.mpr hused, Nat.not_le.mpr hmore⟩)⟩
    | ok _ s₂ =>
      rw [hwrite] at hblock
      rw [run_bind hwrite rfl]
      exact ⟨⟨by simpa using hne, Nat.le_of_not_lt hlimit, hblock.1⟩, rfl, hgood.trans hblock.2⟩

/-- A write that the limit allows, of a buffer with a block. -/
theorem write_eq (hpos : source.length ≠ 0) (hlimit : source.length ≤ v.limitMax) :
    write grant turns (some source) ⟨v.buffer, m⟩ =
      (do writeBlock grant turns source
          pure source.length : Method Nat) ⟨v.buffer, m⟩ := by
  refine run_if_neg hpos (run_bind (run_self (run_if_neg nofun rfl)) (run_self ?_))
  exact run_if_neg (Nat.not_lt.mpr hlimit) rfl

end Write

/-! ## Reading -/

section Read

variable {v v' : View} {b : Buffer} {m : Memory} {q : Queue}

/-- The pointers move over the same bytes. -/
theorem Good.point (v' : View) (hm : m.get v.block = some v.bytes) (hs : Sized v.buffer)
    (hblock : v'.block = v.block) (hlimit : v'.limitMax = v.limitMax)
    (hbytes : v'.bytes = v.bytes) : Good ⟨v.buffer, m⟩ ⟨v'.buffer, m⟩ v'.queue := by
  have hgood := Good.put hm hs hblock hlimit (congrArg List.length hbytes)
  rwa [hbytes, Memory.put_eq_self hm] at hgood

theorem View.bytes_skip (v : View) (n : Nat) : (v.skip n).bytes = v.bytes := by
  simp [skip, bytes]

theorem View.queue_skip (v : View) (n : Nat) : (v.skip n).queue = v.queue.drop n := by
  rw [queue, bytes_skip]
  rfl

theorem View.buffer_skip (v : View) {n : Nat} (h : n ≤ v.content.length) :
    (v.skip n).buffer = { v.buffer with readPtr := advance v.buffer.readPtr n } := by
  ext1
  case capacity => rw [← View.length_bytes, bytes_skip, View.length_bytes]
  case readPtr => simp [buffer, skip, advance, h]
  case writePtr => simp [buffer, skip, h]
  all_goals rfl

/-- The first bytes of the content are copied, and the read pointer moves behind them. -/
theorem View.take_run (hm : m.get v.block = some v.bytes) {n : Nat} (hn : n ≤ v.content.length) :
    (if 0 < n then do
        let bytes ← load v.buffer.readPtr n
        assign fun b => { b with readPtr := advance b.readPtr n }
        pure bytes
      else pure [] : Method Bytes) ⟨v.buffer, m⟩ = .ok (v.content.take n) ⟨(v.skip n).buffer, m⟩ := by
  rw [v.buffer_skip hn]
  split
  · have hbytes : v.bytes = v.front ++ v.content.take n ++ (v.content.drop n ++ v.tail) := by
      rw [List.append_assoc, ← List.append_assoc (v.content.take n), List.take_append_drop,
        ← List.append_assoc, bytes]
    have hload := Buffer.load_run (b := v.buffer) (hbytes ▸ hm) rfl (List.length_take_of_le hn).symm
    exact run_bind hload rfl
  · next h0 =>
    obtain rfl : n = 0 := by omega
    rfl

/-- The smaller of the two sizes is read. -/
theorem View.read_run (hm : m.get v.block = some v.bytes) {size : Nat} (hsize : size ≠ 0) :
    read true size ⟨v.buffer, m⟩ =
      .ok (v.content.take size) ⟨(v.skip (min size v.content.length)).buffer, m⟩ := by
  have hmin : (if size < v.content.length then size else v.content.length) =
      min size v.content.length := by
    rw [Nat.min_def]
    split <;> split <;> omega
  have hsome : ¬ (true = false ∨ size = 0 ∨ v.buffer.buffer = none) := by
    simp [hsize, View.buffer]
  have hrun : read true size ⟨v.buffer, m⟩ = _ :=
    run_self (run_if_neg hsome (run_bind (diff_run _) rfl))
  rw [hrun]
  dsimp only
  rw [hmin, take_run hm (Nat.min_le_right _ _), ← List.take_eq_take_min]

variable (h : Owns m b q)

include h

/-- **`read` returns the oldest bytes**, and they are gone. -/
theorem read_ensures (hs : Sized b) (dest : Bool) (size : Nat) :
    Ensures (read dest size ⟨b, m⟩)
      (fun bytes s' => bytes = (if dest then q.content.take size else []) ∧
        Good ⟨b, m⟩ s' (q.drop bytes.length))
      fun _ _ => False := by
  cases h with
  | null limitMax =>
    have hrun : read dest size ⟨{ limitMax := limitMax }, m⟩ = .ok [] _ :=
      run_self (run_if_pos (.inr (.inr rfl)) rfl)
    rw [hrun]
    exact ⟨by simp, .refl (.null limitMax) hs⟩
  | view v hm =>
    by_cases hnone : dest = false ∨ size = 0
    · have hrun : read dest size ⟨v.buffer, m⟩ = .ok [] _ :=
        run_self (run_if_pos (hnone.imp_right .inl) rfl)
      rw [hrun]
      refine ⟨?_, .refl (.view v hm) hs⟩
      rcases hnone with rfl | rfl <;> simp
    · obtain ⟨hdest, hsize⟩ := not_or.mp hnone
      rw [Bool.not_eq_false] at hdest
      subst hdest
      rw [View.read_run hm hsize]
      refine ⟨rfl, ?_⟩
      rw [List.length_take, ← v.queue_skip]
      exact .point _ hm hs rfl rfl (v.bytes_skip _)

/-- `copy_all` returns all bytes, or none if there is not enough room. -/
theorem copyAll_ensures (hs : Sized b) (out : Bool) (outLen : Nat) :
    Ensures (copyAll out outLen ⟨b, m⟩)
      (fun bytes s' => bytes = (if out ∧ q.content.length ≤ outLen then q.content else []) ∧
        Good ⟨b, m⟩ s' q)
      fun _ _ => False := by
  cases h with
  | null limitMax =>
    have hrun : copyAll out outLen ⟨{ limitMax := limitMax }, m⟩ = .ok [] _ :=
      run_self (run_if_pos (.inr rfl) rfl)
    rw [hrun]
    exact ⟨by simp, .refl (.null limitMax) hs⟩
  | view v hm =>
    have hgood := Good.refl (.view v hm) hs
    cases out with
    | false =>
      have hrun : copyAll false outLen ⟨v.buffer, m⟩ = .ok [] _ :=
        run_self (run_if_pos (.inl rfl) rfl)
      rw [hrun]
      exact ⟨by simp, hgood⟩
    | true =>
      have hsome : ¬ (true = false ∨ v.buffer.buffer = none) := by simp [View.buffer]
      have hrun : copyAll true outLen ⟨v.buffer, m⟩ = _ :=
        run_self (run_if_neg hsome (run_bind (View.diff_run _) rfl))
      rw [hrun]
      split
      · exact ⟨by simp [View.queue]; omega, hgood⟩
      · split
        · dsimp only
          rw [View.load_run hm]
          exact ⟨by simp [View.queue]; omega, hgood⟩
        · next hpos =>
          have hnil : v.content = [] := List.eq_nil_of_length_eq_zero (by omega)
          exact ⟨by simp [View.queue, hnil], hgood⟩

/-- `read_ptr_move_n` drops the oldest bytes, if there are as many. -/
theorem readPtrMoveN_ensures (hs : Sized b) (n : Nat) :
    Ensures (readPtrMoveN n ⟨b, m⟩)
      (fun moved s' => moved = decide (n ≤ q.content.length) ∧
        Good ⟨b, m⟩ s' (if moved then q.drop n else q))
      fun _ _ => False := by
  unfold readPtrMoveN
  split
  · next h0 =>
    subst h0
    exact ⟨by simp, .refl h hs⟩
  · next h0 =>
    cases h with
    | null limitMax => exact ⟨by simpa using h0, .refl (.null limitMax) hs⟩
    | view v hm =>
      have hrun : (do
          let b ← self
          if b.buffer = none then pure false
          else do
            let allBytes ← diff b.writePtr b.readPtr
            if allBytes < n then pure false
            else do
              assign fun b => { b with readPtr := advance b.readPtr n }
              pure true : Method Bool) ⟨v.buffer, m⟩ = _ :=
        run_self (run_if_neg nofun (run_bind (View.diff_run _) rfl))
      rw [hrun]
      split
      · next hlt => exact ⟨(decide_eq_false (Nat.not_le.mpr hlt)).symm, .refl (.view v hm) hs⟩
      · next hlt =>
        refine ⟨(decide_eq_true (Nat.le_of_not_lt hlt)).symm, ?_⟩
        have hskip := Good.point (v.skip n) hm hs rfl rfl (v.bytes_skip n)
        rwa [v.buffer_skip (Nat.le_of_not_lt hlt), v.queue_skip] at hskip

theorem readableOf_run (s : Object) : readableOf b s = .ok q.content.length s := by
  cases h with
  | null limitMax => rfl
  | view v hm => exact run_if_neg nofun (View.diff_run s)

theorem canReadableSize_ensures (hs : Sized b) :
    Ensures (canReadableSize ⟨b, m⟩) (fun n s' => n = q.content.length ∧ Good ⟨b, m⟩ s' q)
      fun _ _ => False := by
  have hrun : canReadableSize ⟨b, m⟩ = .ok q.content.length ⟨b, m⟩ := run_self (readableOf_run h _)
  rw [hrun]
  exact ⟨rfl, .refl h hs⟩

theorem clear_ensures (hs : Sized b) :
    Ensures (clear ⟨b, m⟩) (fun _ s' => Good ⟨b, m⟩ s' { q with content := [] })
      fun _ _ => False := by
  cases h with
  | null limitMax => exact .refl (.null limitMax) hs
  | view v hm =>
    have hclear := Good.point { v with front := [], content := [], tail := v.bytes }
      hm hs rfl rfl rfl
    have hthis : ({ v with front := [], content := [], tail := v.bytes } : View).buffer =
        { v.buffer with readPtr := v.buffer.offset 0, writePtr := v.buffer.offset 0 } := by
      ext1
      case capacity => rw [← View.length_bytes, ← View.length_bytes]; rfl
      all_goals rfl
    rw [hthis] at hclear
    exact hclear

theorem setLimitMax_ensures (hs : Sized b) {n : Nat} (hn : n < 2 ^ 64) :
    Ensures (setLimitMax n ⟨b, m⟩) (fun _ s' => Good ⟨b, m⟩ s' (q.raise n)) fun _ _ => False := by
  have howns : ∀ limitMax, Owns m { b with limitMax := limitMax } { q with limitMax := limitMax } := by
    intro limitMax
    cases h with
    | null => exact .null limitMax
    | view v hm => exact .view { v with limitMax := limitMax } hm
  have hlimit : b.limitMax = q.limitMax := by cases h <;> rfl
  have hdefault : (if n < defaultCapacity then defaultCapacity else n) = max defaultCapacity n := by
    split <;> omega
  have hlt : max defaultCapacity n < 2 ^ 64 := max_lt (by decide) hn
  unfold setLimitMax assign
  dsimp only
  rw [hdefault, Queue.raise]
  generalize max defaultCapacity n = l at hlt
  change Good ⟨b, m⟩ ⟨if b.limitMax < l then { b with limitMax := l } else b, m⟩ _
  split
  · next hmore =>
    rw [← hlimit, max_eq_right hmore.le]
    exact ⟨howns l, ⟨hs.capacity, hs.capacity_lt, hs.limitMax.trans hmore.le, hlt⟩,
      fun _ _ h _ => h, fun _ h => .inl h⟩
  · next hless =>
    rw [max_eq_left (hlimit ▸ Nat.le_of_not_lt hless)]
    exact .refl h hs

end Read

/-! ## Copying and moving -/

section Copy

variable {b o : Buffer} {m : Memory} {q d : Queue}

/-- The block that a buffer owns is there. -/
theorem Owns.exists_get (h : Owns m b q) {k : Nat} (hk : b.buffer = some k) :
    ∃ bs, m.get k = some bs := by
  cases h with
  | null => cases hk
  | view v hm =>
    cases hk
    exact ⟨_, hm⟩

theorem Owns.length_le (h : Owns m b q) : q.content.length ≤ b.capacity := by
  cases h with
  | null => exact Nat.zero_le _
  | view v hm =>
    simp only [View.buffer, View.queue]
    omega

/-- Limit and capacity are those of the queue. -/
theorem Owns.sizes (h : Owns m b q) : q.limitMax = b.limitMax ∧ q.capacity = b.capacity := by
  cases h with
  | null => exact ⟨rfl, rfl⟩
  | view v hm => exact ⟨rfl, v.length_bytes⟩

/-- The block that was owned is freed, and no other. -/
theorem setBuffer_frees (h : ∀ k, b.buffer = some k → ∃ bs, m.get k = some bs) (new : Option Nat) :
    ∃ m', setBuffer new ⟨b, m⟩ = .ok () ⟨{ b with buffer := new }, m'⟩ ∧
      ∀ j, b.buffer ≠ some j → m'.get j = m.get j := by
  cases hb : b.buffer with
  | none => exact ⟨m, by simp only [setBuffer, hb], fun _ _ => rfl⟩
  | some k =>
    obtain ⟨bs, hbs⟩ := h k hb
    refine ⟨m.put k none, View.setBuffer_run hb hbs new, fun j hj => Memory.get_put_ne ?_⟩
    rintro rfl
    exact hj rfl

/-- The bytes of another buffer can be read. -/
theorem Owns.load_run (h : Owns m o d) (b : Buffer) :
    load o.readPtr d.content.length ⟨b, m⟩ = .ok d.content ⟨b, m⟩ := by
  cases h with
  | null => rfl
  | view v hm => exact View.load_run hm b

/-- The object has no block yet, or one that is not that of the other. -/
def Apart (b o : Buffer) : Prop := ∀ k, b.buffer = some k → o.buffer ≠ some k

/-- **A copy has the content of the other buffer**, in a block of its own. Without a block for it,
nothing but limit and capacity has changed. -/
theorem copyFrom_ensures (grant : Nat → Bool) (h : Owns m b q) (ho : Owns m o d) (hs : Sized o)
    (hne : Apart b o) :
    Ensures (copyFrom grant o ⟨b, m⟩) (fun _ s' => Good ⟨b, m⟩ s' d)
      fun e s' => s'.mem = m ∧ e = .badAlloc ∧ grant o.capacity = false := by
  by_cases hgrant : grant o.capacity = true
  swap
  · have hrun : copyFrom grant o ⟨b, m⟩ = .error .badAlloc _ :=
      run_assign (run_assign (run_error (if_neg hgrant)))
    rw [hrun]
    exact ⟨rfl, rfl, by simpa using hgrant⟩
  -- the new block, and then the old one is freed
  have hget : ∀ {j bs}, m.get j = some bs → (m.alloc o.capacity).get j = some bs := fun hj =>
    (Memory.get_alloc_ne _ (Memory.ne_next hj)).trans hj
  have hown : ∀ k, b.buffer = some k → ∃ bs, (m.alloc o.capacity).get k = some bs := fun k hk => by
    obtain ⟨bs, hbs⟩ := h.exists_get hk
    exact ⟨bs, hget hbs⟩
  obtain ⟨m₂, hset, hm₂⟩ := setBuffer_frees
    (b := { b with limitMax := o.limitMax, capacity := o.capacity }) hown (some m.next)
  have hnext : b.buffer ≠ some m.next := fun hb => by
    obtain ⟨bs, hbs⟩ := h.exists_get hb
    exact Memory.ne_next hbs rfl
  have hzeros : m₂.get m.next = some ([] ++ List.replicate d.content.length 0 ++
      List.replicate (o.capacity - d.content.length) 0) := by
    rw [hm₂ _ hnext, Memory.get_alloc, List.nil_append, List.replicate_append_replicate,
      Nat.add_sub_cancel' ho.length_le]
  have hother : Owns m₂ o d := ho.frame fun k bs hk hbs =>
    (hm₂ k fun hb => hne k hb hk).trans (hget hbs)
  have hstore := store_run
    (b := { b with limitMax := o.limitMax, capacity := o.capacity, buffer := some m.next }) (i := 0)
    d.content hzeros rfl (by simp)
  let v : View :=
    ⟨o.limitMax, m.next, [], d.content, List.replicate (o.capacity - d.content.length) 0⟩
  have hcap : v.buffer.capacity = o.capacity := by
    have := ho.length_le
    simp only [v, View.buffer, List.length_nil, List.length_replicate]
    omega
  have hthis : v.buffer =
      { limitMax := o.limitMax
        capacity := o.capacity
        readPtr := some ⟨m.next, 0⟩
        writePtr := some ⟨m.next, d.content.length⟩
        buffer := some m.next } := by
    ext1
    case capacity => exact hcap
    case writePtr => simp [v, View.buffer]
    all_goals rfl
  have hqueue : v.queue = d := by
    rw [View.queue, v.length_bytes, hcap, ← ho.sizes.2]
    exact congrArg (Queue.mk d.content · d.capacity) ho.sizes.1.symm
  have hrun : copyFrom grant o ⟨b, m⟩ = .ok () ⟨v.buffer, m₂.put m.next (some v.bytes)⟩ := by
    rw [hthis]
    refine run_assign (run_assign (run_bind (if_pos hgrant) (run_bind hset ?_)))
    refine run_bind (readableOf_run hother _) (run_bind (hother.load_run _) (run_self ?_))
    exact run_bind hstore rfl
  rw [hrun]
  refine ⟨hqueue ▸ .view v (Memory.get_put hzeros), ?_, fun j bs hj hb => ?_, fun k hk => ?_⟩
  · exact ⟨hs.capacity.trans_eq hcap.symm, hcap.trans_lt hs.capacity_lt, hs.limitMax,
      hs.limitMax_lt⟩
  · exact (Memory.get_put_ne (Memory.ne_next hj)).trans ((hm₂ j hb).trans (hget hj))
  · cases hk
    exact .inr Memory.get_next

/-- What a move does: the object has the content of the other one, which has nothing; only blocks of
the two are touched. -/
structure Moved (s : Object) (o : Buffer) (s' : Object) (o' : Buffer) (q : Queue) : Prop where
  owns : Owns s'.mem s'.this q
  sized : Sized s'.this
  other : o' = {}
  get : ∀ k bs, s.mem.get k = some bs → s.this.buffer ≠ some k → o.buffer ≠ some k →
    s'.mem.get k = some bs
  buffer : ∀ k, s'.this.buffer = some k → o.buffer = some k ∨ s.mem.get k = none

/-- **A move transfers the content.** -/
theorem adopt_ensures (h : Owns m b q) (ho : Owns m o d) (hs : Sized o) (hne : Apart b o) :
    Ensures (adopt o ⟨b, m⟩) (fun o' s' => Moved ⟨b, m⟩ o s' o' d) fun _ _ => False := by
  have hinit := lazyInit_ensures (fun _ => true) ho hs
  cases hrun : lazyInit (fun _ => true) ⟨o, m⟩ with
  | error e s₁ =>
    rw [hrun] at hinit
    obtain ⟨-, -, n, hn⟩ := hinit
    cases hn
  | ok _ s₁ =>
    obtain ⟨o₁, m₁⟩ := s₁
    rw [hrun] at hinit
    obtain ⟨v, hv, hm₁, rfl, hgood⟩ := hinit
    dsimp only at hv hm₁
    subst hv
    have honOther : onOther o (lazyInit fun _ => true) ⟨b, m⟩ = .ok v.buffer ⟨b, m₁⟩ := by
      simp only [onOther, hrun]
    -- the block of the object is still there, and it is not that of the other
    have hown : ∀ k, b.buffer = some k → ∃ bs, m₁.get k = some bs := fun k hk => by
      obtain ⟨bs, hbs⟩ := h.exists_get hk
      exact ⟨bs, hgood.frame.get k bs hbs (hne k hk)⟩
    have hblock : b.buffer ≠ some v.block := fun hb => by
      obtain ⟨bs, hbs⟩ := h.exists_get hb
      rcases hgood.frame.buffer v.block rfl with hk | hk
      · exact hne _ hb hk
      · rw [hbs] at hk
        cases hk
    obtain ⟨m₂, hset, hm₂⟩ := setBuffer_frees (b := { v.buffer with buffer := b.buffer }) hown
      (some v.block)
    have hadopt : adopt o ⟨b, m⟩ = .ok {} ⟨v.buffer, m₂⟩ := by
      refine run_bind honOther (run_assign (run_assign (run_assign (run_assign ?_))))
      exact run_bind hset rfl
    rw [hadopt]
    refine ⟨.view v ((hm₂ _ hblock).trans hm₁), hgood.sized, rfl, fun k bs hk hb hk' => ?_,
      hgood.frame.buffer⟩
    exact (hm₂ k hb).trans (hgood.frame.get k bs hk hk')

end Copy

end Buffer

end Avant
