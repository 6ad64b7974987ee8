import Avant.Buffer.Methods
import Avant.Lib.Machine

/-!
# Buffers are byte queues

Programs that make, copy, move, assign and destroy any number of buffers and call their methods
(`Call`, `step`), and what they should see: each buffer is a queue of bytes. `Op.queue` says which
answers a method may give on a queue and what the queue is then, `queues` the same of all calls. A
`write` takes the bytes if limit and capacity allow it, and throws if they do not; a call whose
allocation is refused may throw, and then the queues are as they were. No answer is a fault or a
loop without end.

* `refines_queues`: as long as no buffer is to hold more than 2^63 bytes and the copy assignments get
  their memory, every answer of a run is one that the queues can give, and at the end the buffers
  hold what the queues hold.

A copy assignment takes limit and capacity from the other buffer before it has a block of that size.
If that is refused, the next `write` runs over the end of the old block (`not_refines_queues`).
-/

namespace Avant

open Lib

namespace Buffer

/-- The calls of methods that are of one object, with their arguments. -/
inductive Op
  | write (grant : Nat → Bool) (source : Option Bytes)
  | read (dest : Bool) (size : Nat)
  | canReadableSize
  | copyAll (out : Bool) (outLen : Nat)
  | readPtrMoveN (n : Nat)
  | forceGetPtr (grant : Nat → Bool)
  | setLimitMax (limitMax : Nat)
  | clear

/-- What the caller sees. -/
inductive Answer
  | done
  | size (n : Nat)
  | bytes (bs : Bytes)
  | flag (b : Bool)
  | threw
  | fault
  | exhausted
  deriving DecidableEq

def Failure.answer : Failure → Answer
  | .threw _ => .threw
  | .badAlloc => .threw
  | .fault => .fault
  | .exhausted => .exhausted

/-- The answer, and the object afterwards. -/
def answered : EStateM.Result Failure Object Answer → Answer × Object
  | .ok a s => (a, s)
  | .error e s => (e.answer, s)

def Op.run (turns : Nat) : Op → Method Answer
  | .write grant source => Answer.size <$> Buffer.write grant turns source
  | .read dest size => Answer.bytes <$> Buffer.read dest size
  | .canReadableSize => Answer.size <$> Buffer.canReadableSize
  | .copyAll out outLen => Answer.bytes <$> Buffer.copyAll out outLen
  | .readPtrMoveN n => Answer.flag <$> Buffer.readPtrMoveN n
  | .forceGetPtr grant => (fun _ => .done) <$> Buffer.forceGetPtr grant
  | .setLimitMax limitMax => (fun _ => .done) <$> Buffer.setLimitMax limitMax
  | .clear => (fun _ => .done) <$> Buffer.clear

open scoped Classical in
/-- **The byte queue**: whether it may give an answer, and what it is then. -/
noncomputable def Op.queue : Op → Queue → Answer → Option Queue
  | .write _ (some source), q, .size n =>
    if q.Takes source ∧ n = source.length then some (q.append source) else none
  | .write grant (some source), q, .threw =>
    if q.Takes source → ∃ n, grant n = false then some q else none
  | .write _ none, q, .threw => some q
  | .read dest size, q, .bytes bs =>
    if bs = (if dest then q.content.take size else []) then some (q.drop bs.length) else none
  | .canReadableSize, q, .size n => if n = q.content.length then some q else none
  | .copyAll out outLen, q, .bytes bs =>
    if bs = (if out ∧ q.content.length ≤ outLen then q.content else []) then some q else none
  | .readPtrMoveN n, q, .flag b =>
    if b = decide (n ≤ q.content.length) then some (if b then q.drop n else q) else none
  | .forceGetPtr _, q, .done => some q
  | .forceGetPtr grant, q, .threw => if ∃ n, grant n = false then some q else none
  | .setLimitMax limitMax, q, .done => some (q.raise limitMax)
  | .clear, q, .done => some { q with content := [] }
  | _, _, _ => none

/-- Sizes fit: with the bytes of a `write` the buffer does not hold more than `bound`. -/
def Op.Fits (bound used : Nat) : Op → Prop
  | .write _ (some source) => used + source.length ≤ bound
  | .setLimitMax limitMax => limitMax < 2 ^ 64
  | _ => True

section Ops

variable {m : Memory} {b : Buffer} {q : Queue} {turns : Nat}

theorem ensures_map {α : Type} {p : Method α} {f : α → Answer} {s : Object}
    {P : α → Object → Prop} {E : Failure → Object → Prop} {Q : Answer × Object → Prop}
    (h : Ensures (p s) P E) (hP : ∀ a s', P a s' → Q (f a, s'))
    (hE : ∀ e s', E e s' → Q (e.answer, s')) : Q (answered ((f <$> p) s)) := by
  cases hp : p s with
  | ok a s' =>
    rw [hp] at h
    have hmap : (f <$> p) s = .ok (f a) s' := by simp only [Functor.map, EStateM.map, hp]
    rw [hmap]
    exact hP a s' h
  | error e s' =>
    rw [hp] at h
    have hmap : (f <$> p) s = .error e s' := by simp only [Functor.map, EStateM.map, hp]
    rw [hmap]
    exact hE e s' h

theorem Failure.Thrown.answer {e : Failure} (h : e.Thrown) : e.answer = .threw := by
  rcases h with rfl | ⟨message, rfl⟩ <;> rfl

/-- The queue may give the answer, and the object is what the queue is then. -/
def Op.Refined (op : Op) (s : Object) (q : Queue) (r : Answer × Object) : Prop :=
  ∃ q', op.queue q r.1 = some q' ∧ Good s r.2 q'

/-- **A method of a buffer is that of a byte queue.** -/
theorem Op.run_refines (op : Op) (h : Owns m b q) (hs : Sized b) (hturns : 64 ≤ turns)
    (hfit : op.Fits (2 ^ 63) q.content.length) :
    op.Refined ⟨b, m⟩ q (answered (op.run turns ⟨b, m⟩)) := by
  cases op with
  | write grant source =>
    cases source with
    | none => exact ⟨q, rfl, .refl h hs⟩
    | some source =>
      refine ensures_map (write_ensures h hs hturns hfit) ?_ ?_
      · rintro n s' ⟨htakes, rfl, hgood⟩
        exact ⟨q.append source, if_pos ⟨htakes, rfl⟩, hgood⟩
      · rintro e s' ⟨hgood, hthrown, hrefused⟩
        refine ⟨q, ?_, hgood⟩
        dsimp only
        rw [hthrown.answer]
        exact if_pos hrefused
  | read dest size =>
    refine ensures_map (read_ensures h hs dest size) ?_ fun _ _ => False.elim
    rintro bytes s' ⟨hbytes, hgood⟩
    exact ⟨q.drop bytes.length, if_pos hbytes, hgood⟩
  | canReadableSize =>
    refine ensures_map (canReadableSize_ensures h hs) ?_ fun _ _ => False.elim
    rintro n s' ⟨hn, hgood⟩
    exact ⟨q, if_pos hn, hgood⟩
  | copyAll out outLen =>
    refine ensures_map (copyAll_ensures h hs out outLen) ?_ fun _ _ => False.elim
    rintro bytes s' ⟨hbytes, hgood⟩
    exact ⟨q, if_pos hbytes, hgood⟩
  | readPtrMoveN n =>
    refine ensures_map (readPtrMoveN_ensures h hs n) ?_ fun _ _ => False.elim
    rintro moved s' ⟨hmoved, hgood⟩
    exact ⟨_, if_pos hmoved, hgood⟩
  | forceGetPtr grant =>
    refine ensures_map (lazyInit_ensures grant h hs) ?_ ?_
    · rintro _ s' ⟨v, -, -, -, hgood⟩
      exact ⟨q, rfl, hgood⟩
    · rintro e s' ⟨rfl, rfl, hrefused⟩
      exact ⟨q, if_pos hrefused, .refl h hs⟩
  | setLimitMax limitMax =>
    refine ensures_map (setLimitMax_ensures h hs hfit) ?_ fun _ _ => False.elim
    exact fun _ s' hgood => ⟨q.raise limitMax, rfl, hgood⟩
  | clear =>
    refine ensures_map (clear_ensures h hs) ?_ fun _ _ => False.elim
    exact fun _ s' hgood => ⟨{ q with content := [] }, rfl, hgood⟩

end Ops

/-! ## Programs with many buffers -/

/-- The calls of a program; `x` and `y` are buffers. -/
inductive Call (ι : Type)
  | make (x : ι) (grant : Nat → Bool)
  | copyMake (x y : ι) (grant : Nat → Bool)
  | moveMake (x y : ι)
  | copyAssign (x y : ι) (grant : Nat → Bool)
  | moveAssign (x y : ι)
  | destroy (x : ι)
  | method (x : ι) (op : Op)

/-- The buffers that there are, the memory, and what the program has called and seen. -/
structure State (ι : Type) where
  objs : ι → Option Buffer := fun _ => none
  mem : Memory := {}
  trace : List (Call ι × Answer) := []

variable {ι : Type} [DecidableEq ι]

namespace State

/-- A call that changes the object `x` ends. -/
def put (s : State ι) (call : Call ι) (x : ι) (r : Answer × Object) : State ι where
  objs := Function.update s.objs x (some r.2.this)
  mem := r.2.mem
  trace := s.trace ++ [(call, r.1)]

/-- A constructor of `x` ends; if it throws, there is no object. -/
def made (s : State ι) (call : Call ι) (x : ι) : EStateM.Result Failure Object Unit → State ι
  | .ok _ t => s.put call x (.done, t)
  | .error e t => { s with mem := t.mem, trace := s.trace ++ [(call, e.answer)] }

/-- A call that moves from `y` to `x` ends. -/
def putMoved (s : State ι) (call : Call ι) (x y : ι) (r : EStateM.Result Failure Object Buffer) :
    State ι :=
  match r with
  | .ok other t =>
    { objs := Function.update (Function.update s.objs x (some t.this)) y (some other)
      mem := t.mem
      trace := s.trace ++ [(call, .done)] }
  | .error e t => { s with mem := t.mem, trace := s.trace ++ [(call, e.answer)] }

/-- A call that does nothing. -/
def skip (s : State ι) (call : Call ι) : State ι := { s with trace := s.trace ++ [(call, .done)] }

/-- The destructor of `x` ends. -/
def erase (s : State ι) (call : Call ι) (x : ι) (r : Answer × Object) : State ι where
  objs := Function.update s.objs x none
  mem := r.2.mem
  trace := s.trace ++ [(call, r.1)]

/-- One call. A constructor is called for a buffer that does not exist, everything else for buffers
that do. -/
def step (turns : Nat) (s : State ι) (call : Call ι) : Option (State ι) :=
  match call with
  | .make x grant =>
    if s.objs x = none then
      some (s.made call x (initWithCapacity grant defaultCapacity ⟨{}, s.mem⟩))
    else none
  | .copyMake x y grant =>
    if s.objs x = none then
      (s.objs y).map fun other => s.made call x (copyFrom grant other ⟨{}, s.mem⟩)
    else none
  | .moveMake x y =>
    if s.objs x = none then
      (s.objs y).map fun other => s.putMoved call x y (adopt other ⟨{}, s.mem⟩)
    else none
  | .copyAssign x y grant =>
    (s.objs x).bind fun b => (s.objs y).map fun other =>
      if x = y then s.skip call
      else s.put call x (answered (((fun _ => .done) <$> copyFrom grant other) ⟨b, s.mem⟩))
  | .moveAssign x y =>
    (s.objs x).bind fun b => (s.objs y).map fun other =>
      if x = y then s.skip call else s.putMoved call x y (adopt other ⟨b, s.mem⟩)
  | .destroy x =>
    (s.objs x).map fun b =>
      s.erase call x (answered (((fun _ => .done) <$> setBuffer none) ⟨b, s.mem⟩))
  | .method x op => (s.objs x).map fun b => s.put call x (answered (op.run turns ⟨b, s.mem⟩))

end State

open scoped Classical in
/-- **The queues**: what all calls may answer, and what the queues are then. -/
noncomputable def queues (q : ι → Option Queue) : Call ι × Answer → Option (ι → Option Queue)
  | (.make x _, .done) => if q x = none then some (Function.update q x (some {})) else none
  | (.make x grant, .threw) => if q x = none ∧ ∃ n, grant n = false then some q else none
  | (.copyMake x y _, .done) =>
    if q x = none then (q y).map fun d => Function.update q x (some d) else none
  | (.copyMake x y grant, .threw) =>
    if q x = none ∧ q y ≠ none ∧ ∃ n, grant n = false then some q else none
  | (.moveMake x y, .done) =>
    if q x = none then
      (q y).map fun d => Function.update (Function.update q x (some d)) y (some {})
    else none
  | (.copyAssign x y _, .done) =>
    (q x).bind fun _ => (q y).map fun d => Function.update q x (some d)
  | (.copyAssign x y grant, .threw) =>
    if q x ≠ none ∧ q y ≠ none ∧ ∃ n, grant n = false then some q else none
  | (.moveAssign x y, .done) =>
    (q x).bind fun _ => (q y).map fun d =>
      if x = y then q else Function.update (Function.update q x (some d)) y (some {})
  | (.destroy x, .done) => (q x).map fun _ => Function.update q x none
  | (.method x op, answer) =>
    (q x).bind fun d => (op.queue d answer).map fun d' => Function.update q x (some d')
  | _ => none

/-- The bytes between the pointers. -/
def content (b : Buffer) (m : Memory) : Option Bytes :=
  match b.readPtr, b.writePtr with
  | none, none => some []
  | some r, some w => m.load r (w.offset - r.offset)
  | _, _ => none

/-- The number of bytes between the pointers. -/
def used (b : Buffer) : Nat :=
  match b.readPtr, b.writePtr with
  | some r, some w => w.offset - r.offset
  | _, _ => 0

/-- Sizes fit, and a copy assignment gets its block. -/
def Fits (bound : Nat) (s : State ι) : Call ι → Prop
  | .method x op => ∀ b ∈ s.objs x, op.Fits bound b.used
  | .copyAssign x y grant => x ≠ y → ∀ o ∈ s.objs y, grant o.capacity = true
  | _ => True

variable {b o : Buffer} {c d : Queue} {m : Memory}

theorem Owns.content_eq (h : Owns m b c) : b.content m = some c.content := by
  cases h with
  | null => rfl
  | view v hm => exact Memory.load_eq hm rfl (Nat.add_sub_cancel_left _ _)

theorem Owns.used_eq (h : Owns m b c) : b.used = c.content.length := by
  cases h with
  | null => rfl
  | view v hm => exact Nat.add_sub_cancel_left _ _

/-- A buffer holds what a queue holds, or there is neither. -/
inductive Holds (m : Memory) : Option Buffer → Option Queue → Prop
  | none : Holds m none none
  | some {b : Buffer} {c : Queue} (h : Owns m b c) (hs : Sized b) : Holds m (some b) (some c)

/-- The buffers hold what the queues hold, each in a block of its own. -/
structure Rep (objs : ι → Option Buffer) (m : Memory) (q : ι → Option Queue) : Prop where
  holds : ∀ x, Holds m (objs x) (q x)
  apart : ∀ x y b o, x ≠ y → objs x = some b → objs y = some o → Apart b o

theorem Apart.symm (h : Apart b o) : Apart o b := fun k hk hk' => h k hk' hk

theorem apart_of_null (h : b.buffer = none) : Apart b o := fun k hk => by
  rw [h] at hk
  cases hk

theorem sized_default : Sized {} := ⟨by decide, by decide, by decide, by decide⟩

namespace Rep

variable {objs : ι → Option Buffer} {m m' : Memory} {q : ι → Option Queue} {x y : ι} {b o : Buffer}
  {c d : Queue}

omit [DecidableEq ι] in
theorem exists_owns (h : Rep objs m q) (hx : objs x = some b) :
    ∃ c, q x = some c ∧ Owns m b c ∧ Sized b := by
  have hholds := h.holds x
  rw [hx] at hholds
  generalize q x = r at hholds
  cases hholds with
  | @some _ c howns hs => exact ⟨c, rfl, howns, hs⟩

omit [DecidableEq ι] in
theorem none (h : Rep objs m q) (hx : objs x = none) : q x = none := by
  have hholds := h.holds x
  rw [hx] at hholds
  generalize q x = r at hholds
  cases hholds
  rfl

omit [DecidableEq ι] in
theorem apart_from (h : Rep objs m q) (hx : objs x = some b) (y : ι) (o : Buffer) (hne : y ≠ x)
    (hy : objs y = some o) : Apart b o := h.apart x y b o hne.symm hx hy

/-- One object changes, if no block of another one does and its own block is not that of
another. -/
theorem update (h : Rep objs m q) {b' : Option Buffer} {c' : Option Queue}
    (hframe : ∀ y o, y ≠ x → objs y = some o → ∀ k bs, o.buffer = some k → m.get k = some bs →
      m'.get k = some bs)
    (hholds : Holds m' b' c')
    (hapart : ∀ b, b' = some b → ∀ y o, y ≠ x → objs y = some o → Apart b o) :
    Rep (Function.update objs x b') m' (Function.update q x c') := by
  refine ⟨fun y => ?_, fun y z o o' hne hy hz => ?_⟩
  · by_cases hyx : y = x
    · subst hyx
      rwa [Function.update_self, Function.update_self]
    · rw [Function.update_of_ne hyx, Function.update_of_ne hyx]
      cases ho : objs y with
      | none =>
        rw [h.none ho]
        exact .none
      | some o =>
        obtain ⟨d, hd, howns, hs⟩ := h.exists_owns ho
        rw [hd]
        exact .some (howns.frame (hframe y o hyx ho)) hs
  · by_cases hyx : y = x
    · subst hyx
      rw [Function.update_self] at hy
      rw [Function.update_of_ne hne.symm] at hz
      exact hapart o hy z o' hne.symm hz
    · rw [Function.update_of_ne hyx] at hy
      by_cases hzx : z = x
      · subst hzx
        rw [Function.update_self] at hz
        exact (hapart o' hz y o hyx hy).symm
      · rw [Function.update_of_ne hzx] at hz
        exact h.apart y z o o' hne hy hz

/-- A method of one object, or a constructor. -/
theorem good (h : Rep objs m q) {s' : Object}
    (hb : ∀ y o, y ≠ x → objs y = some o → Apart b o) (hgood : Good ⟨b, m⟩ s' c) :
    Rep (Function.update objs x (some s'.this)) s'.mem (Function.update q x (some c)) := by
  refine h.update (fun y o hne hy k bs hk hbs => ?_) (.some hgood.owns hgood.sized) ?_
  · exact hgood.frame.get k bs hbs fun hbk => hb y o hne hy k hbk hk
  · rintro _ ⟨⟩ y o hne hy k hk hok
    obtain ⟨d, -, howns, -⟩ := h.exists_owns hy
    obtain ⟨bs, hbs⟩ := howns.exists_get hok
    rcases hgood.frame.buffer k hk with hown | hnone
    · exact hb y o hne hy k hown hok
    · exact absurd hbs (by simp [hnone])

/-- A move from `y` to `x`. -/
theorem moved (h : Rep objs m q) {s' : Object} {o' : Buffer} (hne : x ≠ y) (hy : objs y = some o)
    (hb : ∀ y o, y ≠ x → objs y = some o → Apart b o) (hmoved : Moved ⟨b, m⟩ o s' o' d) :
    Rep (Function.update (Function.update objs x (some s'.this)) y (some o')) s'.mem
      (Function.update (Function.update q x (some d)) y (some {})) := by
  -- the buffer `y` lets go of its block before `x` takes it
  have hnull : Rep (Function.update objs y (some {})) m (Function.update q y (some {})) := by
    refine h.update (fun _ _ _ _ _ _ _ hbs => hbs) (.some (.null _) sized_default) ?_
    rintro _ ⟨⟩ z o _ _
    exact apart_of_null rfl
  rw [hmoved.other, Function.update_comm hne, Function.update_comm hne]
  -- what another buffer has is neither the block of `x` nor that of `y`
  have hother : ∀ z o', z ≠ x → Function.update objs y (some {}) z = some o' →
      ∀ k, o'.buffer = some k → b.buffer ≠ some k ∧ o.buffer ≠ some k ∧ ∃ bs, m.get k = some bs := by
    intro z o' hzx hz k hk
    by_cases hzy : z = y
    · subst hzy
      rw [Function.update_self] at hz
      cases hz
      cases hk
    · rw [Function.update_of_ne hzy] at hz
      obtain ⟨e, -, howns, -⟩ := h.exists_owns hz
      exact ⟨fun hbk => hb z o' hzx hz k hbk hk, h.apart z y o' o hzy hz hy k hk,
        howns.exists_get hk⟩
  refine hnull.update (fun z o' hzx hz k bs hk hbs => ?_) (.some hmoved.owns hmoved.sized) ?_
  · obtain ⟨hbk, hok, -⟩ := hother z o' hzx hz k hk
    exact hmoved.get k bs hbs hbk hok
  · rintro _ ⟨⟩ z o' hzx hz k hk hok
    obtain ⟨-, hoy, bs, hbs⟩ := hother z o' hzx hz k hok
    rcases hmoved.buffer k hk with hown | hnone
    · exact hoy hown
    · exact absurd hbs (by simp [hnone])

end Rep

/-! ## Runs -/

/-- The last call of a run, seen as one of the queues. -/
def State.Answers (s s' : State ι) (q : ι → Option Queue) (call : Call ι) : Prop :=
  ∃ answer q', s'.trace = s.trace ++ [(call, answer)] ∧ queues q (call, answer) = some q' ∧
    Rep s'.objs s'.mem q'

/-- What a constructor or an assignment does, which does not fail. -/
theorem ensures_done {p : Method Unit} {s : Object} {P : Object → Prop}
    (h : Ensures (p s) (fun _ s' => P s') fun _ _ => False) :
    ∃ s', answered (((fun _ => .done) <$> p) s) = (.done, s') ∧ P s' :=
  ensures_map (Q := fun r => ∃ s', r = (.done, s') ∧ P s') h (fun _ s' hs => ⟨s', rfl, hs⟩)
    fun _ _ => False.elim

theorem make_ensures (grant : Nat → Bool) :
    Ensures (initWithCapacity grant defaultCapacity ⟨{}, m⟩) (fun _ s' => Good ⟨{}, m⟩ s' {})
      fun e s' => s'.mem = m ∧ e = .badAlloc ∧ grant defaultCapacity = false := by
  by_cases hgrant : grant defaultCapacity = true
  · rw [initWithCapacity_run hgrant]
    exact .fresh sized_default
  · have hrun : initWithCapacity grant defaultCapacity ⟨{}, m⟩ = .error .badAlloc _ :=
      run_assign (run_error (if_neg hgrant))
    rw [hrun]
    exact ⟨rfl, rfl, by simpa using hgrant⟩

/-- A constructor makes the queue, or throws. -/
theorem State.made_refines {s : State ι} {q : ι → Option Queue} (call : Call ι) (x : ι)
    {p : Method Unit} {refused : Prop} (h : Rep s.objs s.mem q)
    (hp : Ensures (p ⟨{}, s.mem⟩) (fun _ s' => Good ⟨{}, s.mem⟩ s' d)
      fun e s' => s'.mem = s.mem ∧ e = .badAlloc ∧ refused) {s' : State ι}
    (hs' : s.made call x (p ⟨{}, s.mem⟩) = s') :
    (s'.trace = s.trace ++ [(call, .done)] ∧
        Rep s'.objs s'.mem (Function.update q x (some d))) ∨
      (refused ∧ s'.trace = s.trace ++ [(call, .threw)] ∧ Rep s'.objs s'.mem q) := by
  subst hs'
  cases hrun : p ⟨{}, s.mem⟩ with
  | ok _ t =>
    rw [hrun] at hp
    exact .inl ⟨rfl, h.good (fun _ _ _ _ => apart_of_null rfl) hp⟩
  | error e t =>
    rw [hrun] at hp
    obtain ⟨hmem, rfl, hrefused⟩ := hp
    refine .inr ⟨hrefused, rfl, ?_⟩
    change Rep s.objs t.mem q
    rwa [hmem]

/-- A destructor frees the block. -/
theorem destroy_ensures (h : Owns m b c) :
    Ensures (setBuffer none ⟨b, m⟩)
      (fun _ s' => ∀ k, b.buffer ≠ some k → s'.mem.get k = m.get k) fun _ _ => False := by
  obtain ⟨m', hset, hm'⟩ := setBuffer_frees (fun _ hk => h.exists_get hk) none
  rw [hset]
  exact hm'

/-- A move from `y` to `x`. -/
theorem State.putMoved_refines {s : State ι} {q : ι → Option Queue} (call : Call ι) {x y : ι}
    (h : Rep s.objs s.mem q) (hne : x ≠ y) (hy : s.objs y = some o)
    (hb : ∀ y o, y ≠ x → s.objs y = some o → Apart b o) (howns : Owns s.mem b c)
    (ho : Owns s.mem o d) (hs : Sized o) :
    (s.putMoved call x y (adopt o ⟨b, s.mem⟩)).trace = s.trace ++ [(call, .done)] ∧
      Rep (s.putMoved call x y (adopt o ⟨b, s.mem⟩)).objs
        (s.putMoved call x y (adopt o ⟨b, s.mem⟩)).mem
        (Function.update (Function.update q x (some d)) y (some {})) := by
  have hadopt := adopt_ensures howns ho hs (hb y o hne.symm hy)
  cases hrun : adopt o ⟨b, s.mem⟩ with
  | ok o' t =>
    rw [hrun] at hadopt
    exact ⟨rfl, h.moved hne hy hb hadopt⟩
  | error e t =>
    rw [hrun] at hadopt
    exact hadopt.elim

/-- A copy assignment that gets its block. -/
theorem State.putCopied_refines {s : State ι} {q : ι → Option Queue} {grant : Nat → Bool} {x y : ι}
    (h : Rep s.objs s.mem q) (hne : x ≠ y) (hx : s.objs x = some b) (hy : s.objs y = some o)
    (hgrant : grant o.capacity = true) :
    s.Answers (s.put (.copyAssign x y grant) x
      (answered (((fun _ => .done) <$> copyFrom grant o) ⟨b, s.mem⟩))) q (.copyAssign x y grant) := by
  obtain ⟨c, hc, howns, -⟩ := h.exists_owns hx
  obtain ⟨d, hd, ho, hs⟩ := h.exists_owns hy
  refine ensures_map (Q := fun r => s.Answers (s.put _ x r) q _)
    (copyFrom_ensures grant howns ho hs (h.apart_from hx y o hne.symm hy)) ?_ ?_
  · refine fun _ t hgood => ⟨.done, _, rfl, ?_, h.good (h.apart_from hx) hgood⟩
    simp only [queues, hc, hd, Option.bind_some, Option.map_some]
  · rintro e t ⟨-, -, hrefused⟩
    rw [hgrant] at hrefused
    cases hrefused

/-- **One call.** -/
theorem State.step_refines {turns : Nat} (hturns : 64 ≤ turns) {s s' : State ι}
    {q : ι → Option Queue} {call : Call ι} (h : Rep s.objs s.mem q) (hfit : Fits (2 ^ 63) s call)
    (hstep : s.step turns call = some s') : s.Answers s' q call := by
  cases call with
  | make x grant =>
    simp only [step] at hstep
    split at hstep
    · next hx =>
      rcases made_refines (.make x grant) x h (make_ensures grant) (Option.some.inj hstep) with
        ⟨htrace, hrep⟩ | ⟨hrefused, htrace, hrep⟩
      · exact ⟨.done, _, htrace, if_pos (h.none hx), hrep⟩
      · exact ⟨.threw, q, htrace, if_pos ⟨h.none hx, _, hrefused⟩, hrep⟩
    · cases hstep
  | copyMake x y grant =>
    simp only [step] at hstep
    split at hstep
    · next hx =>
      obtain ⟨o, hy, hstep⟩ := Option.map_eq_some_iff.mp hstep
      obtain ⟨d, hd, howns, hs⟩ := h.exists_owns hy
      rcases made_refines (.copyMake x y grant) x h (copyFrom_ensures grant (.null defaultCapacity)
        howns hs (apart_of_null rfl)) hstep with ⟨htrace, hrep⟩ | ⟨hrefused, htrace, hrep⟩
      · refine ⟨.done, _, htrace, (if_pos (h.none hx)).trans ?_, hrep⟩
        rw [hd, Option.map_some]
      · exact ⟨.threw, q, htrace, if_pos ⟨h.none hx, by simp [hd], _, hrefused⟩, hrep⟩
    · cases hstep
  | moveMake x y =>
    simp only [step] at hstep
    split at hstep
    · next hx =>
      obtain ⟨o, hy, rfl⟩ := Option.map_eq_some_iff.mp hstep
      obtain ⟨d, hd, ho, hs⟩ := h.exists_owns hy
      have hne : x ≠ y := by
        rintro rfl
        rw [hx] at hy
        cases hy
      -- an object that is made has no block yet
      obtain ⟨htrace, hrep⟩ := putMoved_refines (.moveMake x y) h hne hy
        (fun _ _ _ _ => apart_of_null rfl) (.null defaultCapacity) ho hs
      refine ⟨.done, _, htrace, (if_pos (h.none hx)).trans ?_, hrep⟩
      rw [hd, Option.map_some]
    · cases hstep
  | copyAssign x y grant =>
    obtain ⟨b, hx, hstep⟩ := Option.bind_eq_some_iff.mp hstep
    obtain ⟨o, hy, rfl⟩ := Option.map_eq_some_iff.mp hstep
    by_cases hxy : x = y
    · subst hxy
      rw [if_pos rfl]
      obtain ⟨d, hd, -⟩ := h.exists_owns hx
      refine ⟨.done, q, rfl, ?_, h⟩
      simp only [queues, hd, Option.bind_some, Option.map_some]
      rw [← hd, Function.update_eq_self]
    · rw [if_neg hxy]
      exact putCopied_refines h hxy hx hy (hfit hxy o hy)
  | moveAssign x y =>
    obtain ⟨b, hx, hstep⟩ := Option.bind_eq_some_iff.mp hstep
    obtain ⟨o, hy, rfl⟩ := Option.map_eq_some_iff.mp hstep
    obtain ⟨c, hc, howns, -⟩ := h.exists_owns hx
    obtain ⟨d, hd, ho, hs⟩ := h.exists_owns hy
    by_cases hxy : x = y
    · refine ⟨.done, q, ?_, ?_, ?_⟩
      · rw [if_pos hxy]
        rfl
      · simp only [queues, hc, hd, Option.bind_some, Option.map_some, if_pos hxy]
      · rw [if_pos hxy]
        exact h
    · obtain ⟨htrace, hrep⟩ :=
        putMoved_refines (.moveAssign x y) h hxy hy (h.apart_from hx) howns ho hs
      rw [if_neg hxy]
      refine ⟨.done, _, htrace, ?_, hrep⟩
      simp only [queues, hc, hd, Option.bind_some, Option.map_some, if_neg hxy]
  | destroy x =>
    obtain ⟨b, hx, rfl⟩ := Option.map_eq_some_iff.mp hstep
    obtain ⟨c, hc, howns, -⟩ := h.exists_owns hx
    obtain ⟨t, ht, hget⟩ := ensures_done (destroy_ensures howns)
    rw [ht]
    refine ⟨.done, Function.update q x none, rfl, ?_, h.update ?_ .none nofun⟩
    · simp only [queues, hc, Option.map_some]
    · intro y o hne hy k bs hk hbs
      exact (hget k fun hbk => h.apart_from hx y o hne hy k hbk hk).trans hbs
  | method x op =>
    obtain ⟨b, hx, rfl⟩ := Option.map_eq_some_iff.mp hstep
    obtain ⟨c, hc, howns, hs⟩ := h.exists_owns hx
    obtain ⟨c', hqueue, hgood⟩ := op.run_refines howns hs hturns (howns.used_eq ▸ hfit b hx)
    refine ⟨_, _, rfl, ?_, h.good (h.apart_from hx) hgood⟩
    simp only [queues, hc, Option.bind_some, hqueue, Option.map_some]

/-- **Runs**: what is called and answered is a run of the queues. -/
theorem State.run_refines {turns : Nat} (hturns : 64 ≤ turns) {calls : List (Call ι)} :
    ∀ {s s' : State ι} {q : ι → Option Queue}, Rep s.objs s.mem q →
      Along (step turns) (Fits (2 ^ 63)) s calls → exec (step turns) s calls = some s' →
      ∃ trace q', s'.trace = s.trace ++ trace ∧ trace.map Prod.fst = calls ∧
        exec queues q trace = some q' ∧ Rep s'.objs s'.mem q' := by
  induction calls with
  | nil =>
    intro s s' q h _ hrun
    obtain rfl : s = s' := Option.some.inj hrun
    exact ⟨[], q, by simp, rfl, rfl, h⟩
  | cons call calls ih =>
    intro s s' q h hfit hrun
    obtain ⟨s₁, hstep, hrest⟩ := exec_cons_eq_some.mp hrun
    obtain ⟨answer, q₁, htrace, hqueues, h₁⟩ := step_refines hturns h hfit.1 hstep
    obtain ⟨trace, q', htrace', hcalls, hexec, h'⟩ := ih h₁ (hfit.2 s₁ hstep) hrest
    refine ⟨(call, answer) :: trace, q', ?_, by rw [List.map_cons, hcalls], ?_, h'⟩
    · rw [htrace', htrace, List.append_assoc, List.singleton_append]
    · exact exec_cons_eq_some.mpr ⟨q₁, hqueues, hexec⟩

omit [DecidableEq ι] in
theorem rep_empty : Rep ({} : State ι).objs ({} : State ι).mem fun _ => none :=
  ⟨fun _ => .none, nofun⟩

/-- **Buffers are byte queues**: the calls of a run are answered as queues of bytes can answer them,
and the buffers hold what the queues hold. -/
theorem refines_queues {turns : Nat} (hturns : 64 ≤ turns) {calls : List (Call ι)} {s : State ι}
    (hfit : Along (State.step turns) (Fits (2 ^ 63)) {} calls)
    (hrun : exec (State.step turns) {} calls = some s) :
    s.trace.map Prod.fst = calls ∧
      ∃ q, exec queues (fun _ => none) s.trace = some q ∧
        ∀ x, (s.objs x).isSome = (q x).isSome ∧
          ∀ b, s.objs x = some b → b.content s.mem = (q x).map Queue.content := by
  obtain ⟨trace, q, htrace, hcalls, hexec, hrep⟩ := State.run_refines hturns rep_empty hfit hrun
  obtain rfl : s.trace = trace := htrace
  refine ⟨hcalls, q, hexec, fun x => ?_⟩
  cases hx : s.objs x with
  | none => simp [hrep.none hx]
  | some b =>
    obtain ⟨c, hc, howns, -⟩ := hrep.exists_owns hx
    refine ⟨by simp [hc], fun b' hb' => ?_⟩
    cases hb'
    rw [hc, howns.content_eq, Option.map_some]

instance decidableOpFits (bound used : Nat) : ∀ op : Op, Decidable (op.Fits bound used)
  | .write _ (some source) => inferInstanceAs (Decidable (used + source.length ≤ bound))
  | .setLimitMax limitMax => inferInstanceAs (Decidable (limitMax < 2 ^ 64))
  | .write _ none | .read _ _ | .canReadableSize | .copyAll _ _ | .readPtrMoveN _ | .forceGetPtr _
  | .clear => isTrue trivial

instance decidableFits (bound : Nat) (s : State ι) : ∀ call : Call ι, Decidable (Fits bound s call)
  | .method x op => inferInstanceAs (Decidable (∀ b ∈ s.objs x, op.Fits bound b.used))
  | .copyAssign x y grant =>
    inferInstanceAs (Decidable (x ≠ y → ∀ o ∈ s.objs y, grant o.capacity = true))
  | .make _ _ | .copyMake _ _ _ | .moveMake _ _ | .moveAssign _ _ | .destroy _ => isTrue trivial

/-- A buffer is copied and read; the other grows, after an allocation was refused, and is moved over
it, and takes bytes again. -/
def copyAndMove : List (Call Bool) :=
  [.make false fun _ => true, .make true fun _ => true,
    .method true (.write (fun _ => true) (some [1, 2, 3])), .copyAssign false true fun _ => true,
    .method false (.read true 2), .method true (.setLimitMax 4096),
    .method true (.write (fun _ => false) (some (List.replicate 2000 4))),
    .method true (.write (fun _ => true) (some (List.replicate 2000 5))), .moveAssign false true,
    .method false .canReadableSize, .method true (.write (fun _ => true) (some [6]))]

theorem refines_queues_copy_and_move :
    ∃ s : State Bool, exec (State.step 64) {} copyAndMove = some s ∧
      s.trace.map Prod.snd = [.done, .done, .size 3, .done, .bytes [1, 2], .done, .threw, .size 2000,
        .done, .size 2003, .size 1] ∧
      ∃ q, exec queues (fun _ => none) s.trace = some q ∧
        ∀ x, (s.objs x).isSome = (q x).isSome ∧
          ∀ b, s.objs x = some b → b.content s.mem = (q x).map Queue.content := by
  have hfit : Along (State.step 64) (Fits (2 ^ 63)) ({} : State Bool) copyAndMove := by
    decide +kernel
  exact exists_exec (by decide +kernel) fun s hs h => ⟨h, (refines_queues le_rfl hfit hs).2⟩

/-! ## A copy assignment that throws -/

theorem Op.queue_fault (op : Op) (q : Queue) : op.queue q .fault = none := by
  rcases op with ⟨_, _ | _⟩ | _ <;> rfl

/-- A queue has no fault. -/
theorem fault_notMem {trace : List (Call ι × Answer)} {q q' : ι → Option Queue}
    (h : exec queues q trace = some q') : .fault ∉ trace.map Prod.snd := by
  induction trace generalizing q with
  | nil => exact List.not_mem_nil
  | cons e trace ih =>
    obtain ⟨q₁, hqueues, hrest⟩ := exec_cons_eq_some.mp h
    refine List.not_mem_cons_of_ne_of_not_mem ?_ (ih hrest)
    obtain ⟨call, answer⟩ := e
    rintro rfl
    cases call <;> simp [queues, Op.queue_fault] at hqueues

/-- A buffer that holds 2000 bytes is assigned to a new one, but there is no memory for them; then
the new one is to take 2000 bytes. -/
def failedAssign : List (Call Bool) :=
  [.make false fun _ => true, .make true fun _ => true, .method true (.setLimitMax 4096),
    .method true (.write (fun _ => true) (some (List.replicate 2000 1))),
    .copyAssign false true fun _ => false,
    .method false (.write (fun _ => true) (some (List.replicate 2000 2)))]

/-- **Where a copy assignment throws the buffers are not byte queues**: the next `write` stores
outside of the block. -/
theorem not_refines_queues :
    ∃ s : State Bool, exec (State.step 64) {} failedAssign = some s ∧
      s.trace.map Prod.snd = [.done, .done, .done, .size 2000, .threw, .fault] ∧
      ¬ ∃ q, exec queues (fun _ => none) s.trace = some q := by
  refine exists_exec (by decide +kernel) fun s _ hanswers =>
    ⟨hanswers, fun ⟨q, hq⟩ => fault_notMem hq ?_⟩
  rw [hanswers]
  decide

end Buffer

end Avant
