import Mathlib.Logic.Function.Basic
import Avant.Lib.Machine

/-!
# The event poller

Model of `src/event/event_poller.cpp` on Linux: `ctrl`, `add`, `mod` and `del` of an `event_poller`,
with its map `fd_curr_reg_event`, together with the interest list of its epoll instance in the
kernel. `add` and `mod` skip the system call when the map already has the mask.

The kernel is `epollCtl`. It has no effect when it fails; ADD and MOD may also fail for reasons of
the kernel's own, which is the flag `grant`; DEL fails only when the fd is not registered. Closing
an fd takes it out of the interest list, and a program closes it only if no `add` of it returned 0
since the last `del`.

* `cache_eq_kernel`: the map is the interest list after every call, and a call that returns 0, also
  one that was skipped, leaves its registration in force.

Left out: `create`, `wait` and the reading of events, which do not touch the map; kqueue.
-/

namespace Avant.Event

open Avant.Lib

/-! ## The kernel -/

/-- `EPOLLET` -/
def epollet : UInt32 := 0x80000000

/-- The operations of `epoll_ctl`. -/
inductive CtlOp
  | add
  | mod
  | del
  deriving DecidableEq

/-- Which events are registered for an fd. -/
abbrev EventMap : Type := Int → Option UInt32

/-- `epoll_ctl` on an interest list; `grant` says that the kernel has no other reason to refuse. -/
def epollCtl (interest : EventMap) (op : CtlOp) (fd : Int) (events : UInt32) (grant : Bool) :
    EventMap × Int :=
  match op with
  | .add =>
    if interest fd = none ∧ grant then (Function.update interest fd (some events), 0)
    else (interest, -1)
  | .mod =>
    if interest fd ≠ none ∧ grant then (Function.update interest fd (some events), 0)
    else (interest, -1)
  | .del => if interest fd ≠ none then (Function.update interest fd none, 0) else (interest, -1)

/-! ## The poller -/

/-- An `event_poller`, and what the kernel holds for it. -/
structure EventPoller where
  /-- `m_epfd` -/
  epfd : Int
  fdCurrRegEvent : EventMap := fun _ => none
  interest : EventMap := fun _ => none

namespace EventPoller

/-- The mask of a registration, with `et` -/
def mask (events : UInt32) (et : Bool) : UInt32 := if et then events ||| epollet else events

/-- `event_poller::ctrl` -/
def ctrl (p : EventPoller) (fd : Int) (events : UInt32) (op : CtlOp) (et grant : Bool) :
    EventPoller × Int :=
  if p.epfd < 0 then (p, -999)
  else
    let r := epollCtl p.interest op fd (mask events et) grant
    ({ p with interest := r.1 }, r.2)

/-- `event_poller::add` and `event_poller::mod`, which differ in the operation -/
def register (op : CtlOp) (p : EventPoller) (fd : Int) (events : UInt32) (et grant : Bool) :
    EventPoller × Int :=
  if p.epfd < 0 then (p, -999)
  else
    let events := mask events et
    if p.fdCurrRegEvent fd = some events then (p, 0)
    else
      let r := p.ctrl fd events op et grant
      if r.2 = 0 then
        ({ r.1 with fdCurrRegEvent := Function.update r.1.fdCurrRegEvent fd (some events) }, r.2)
      else r

/-- `event_poller::add` -/
def add (p : EventPoller) (fd : Int) (events : UInt32) (et grant : Bool) : EventPoller × Int :=
  register .add p fd events et grant

/-- `event_poller::mod` -/
def mod (p : EventPoller) (fd : Int) (events : UInt32) (et grant : Bool) : EventPoller × Int :=
  register .mod p fd events et grant

/-- `event_poller::del` -/
def del (p : EventPoller) (fd : Int) : EventPoller × Int :=
  if p.fdCurrRegEvent fd = none then (p, 0)
  else
    let p := { p with fdCurrRegEvent := Function.update p.fdCurrRegEvent fd none }
    p.ctrl fd 0 .del false true

/-! ## Agreement -/

/-- The map of the poller is the interest list, and without an epoll instance both are empty. -/
structure Agree (p : EventPoller) : Prop where
  cache : p.fdCurrRegEvent = p.interest
  unopened : p.epfd < 0 → p.interest = fun _ => none

theorem Agree.init (epfd : Int) : Agree { epfd } := ⟨rfl, fun _ => rfl⟩

theorem mask_mask (events : UInt32) (et : Bool) : mask (mask events et) et = mask events et := by
  cases et with
  | false => rfl
  | true =>
    change events ||| epollet ||| epollet = events ||| epollet
    rw [UInt32.or_assoc, UInt32.or_self]

variable (p : EventPoller) (fd : Int) (events : UInt32) (et grant : Bool) {op : CtlOp}

/-- What a registration does: it is skipped, it fails, or the mask is in force in both maps. -/
theorem register_cases (hop : op ≠ .del) :
    (register op p fd events et grant).1 = p ∧
        ((register op p fd events et grant).2 = 0 →
          p.fdCurrRegEvent fd = some (mask events et)) ∨
      ¬ p.epfd < 0 ∧ (register op p fd events et grant).2 = 0 ∧
        (op = .mod → p.interest fd ≠ none) ∧
        (register op p fd events et grant).1 =
          { p with
            fdCurrRegEvent := Function.update p.fdCurrRegEvent fd (some (mask events et))
            interest := Function.update p.interest fd (some (mask events et)) } := by
  have hctl : epollCtl p.interest op fd (mask events et) grant = (p.interest, -1) ∨
      (op = .mod → p.interest fd ≠ none) ∧
        epollCtl p.interest op fd (mask events et) grant =
          (Function.update p.interest fd (some (mask events et)), 0) := by
    cases op with
    | del => exact absurd rfl hop
    | add =>
      simp only [epollCtl]
      split
      · exact .inr ⟨nofun, rfl⟩
      · exact .inl rfl
    | mod =>
      simp only [epollCtl]
      split
      · next hsome => exact .inr ⟨fun _ => hsome.1, rfl⟩
      · exact .inl rfl
  by_cases hepfd : p.epfd < 0
  · simp [register, hepfd]
  · by_cases hskip : p.fdCurrRegEvent fd = some (mask events et)
    · simp [register, hepfd, hskip]
    · rcases hctl with hctl | ⟨hmod, hctl⟩
      · left
        simp [register, hepfd, hskip, ctrl, mask_mask, hctl]
      · right
        simpa [register, hepfd, hskip, ctrl, mask_mask, hctl] using hmod

variable {p fd events et grant}

theorem Agree.register (h : p.Agree) (hop : op ≠ .del) :
    (EventPoller.register op p fd events et grant).1.Agree ∧
      ((EventPoller.register op p fd events et grant).2 = 0 →
        (EventPoller.register op p fd events et grant).1.interest fd = some (mask events et)) := by
  rcases register_cases p fd events et grant hop with
    ⟨hstay, hskip⟩ | ⟨hepfd, -, -, hset⟩
  · rw [hstay]
    refine ⟨h, fun hzero => ?_⟩
    rw [← h.cache]
    exact hskip hzero
  · rw [hset]
    refine ⟨⟨?_, fun hneg => absurd hneg hepfd⟩, fun _ => Function.update_self ..⟩
    change Function.update p.fdCurrRegEvent fd _ = Function.update p.interest fd _
    rw [h.cache]

/-- Where the two maps agree, a `del` takes the fd out of both. -/
theorem Agree.del (h : p.Agree) (fd : Int) :
    (p.del fd).1.Agree ∧ (p.del fd).1.interest = Function.update p.interest fd none := by
  unfold EventPoller.del
  by_cases hnone : p.fdCurrRegEvent fd = none
  · rw [if_pos hnone]
    refine ⟨h, ?_⟩
    rw [h.cache] at hnone
    rw [← hnone, Function.update_eq_self]
  · rw [if_neg hnone]
    have hsome : p.interest fd ≠ none := h.cache ▸ hnone
    have hepfd : ¬ p.epfd < 0 := fun hneg => hsome (by rw [h.unopened hneg])
    simp only [ctrl, hepfd, if_false, epollCtl, if_pos hsome]
    refine ⟨⟨?_, fun hneg => absurd hneg hepfd⟩, trivial⟩
    change Function.update p.fdCurrRegEvent fd _ = Function.update p.interest fd _
    rw [h.cache]

/-- An fd that is not registered may be closed. -/
theorem Agree.close (h : p.Agree) (hfd : p.interest fd = none) :
    Agree { p with interest := Function.update p.interest fd none } := by
  have hsame : Function.update p.interest fd none = p.interest := by
    rw [← hfd, Function.update_eq_self]
  rw [hsame]
  exact h

end EventPoller

/-! ## Programs -/

open EventPoller

/-- What a program does with a poller and its fds. -/
inductive Call
  | add (fd : Int) (events : UInt32) (et grant : Bool)
  | mod (fd : Int) (events : UInt32) (et grant : Bool)
  | del (fd : Int)
  | close (fd : Int)
  deriving DecidableEq

/-- A poller, and the calls so far with what they returned, the latest first. -/
structure State where
  poller : EventPoller
  log : List (Call × Int) := []

/-- No `add` of the fd returned 0 since its last `del`. -/
def deleted (fd : Int) : List (Call × Int) → Bool
  | [] => true
  | (.del fd', _) :: log => fd' = fd || deleted fd log
  | (.add fd' _ _ _, ret) :: log => !(fd' = fd && ret = 0) && deleted fd log
  | _ :: log => deleted fd log

namespace State

/-- A call, with what it returns. -/
def call (p : EventPoller) : Call → EventPoller × Int
  | .add fd events et grant => p.add fd events et grant
  | .mod fd events et grant => p.mod fd events et grant
  | .del fd => p.del fd
  | .close fd => ({ p with interest := Function.update p.interest fd none }, 0)

/-- An fd is closed only after a `del`. -/
def enabled (s : State) : Call → Bool
  | .close fd => deleted fd s.log
  | _ => true

def step (s : State) (c : Call) : Option State :=
  if s.enabled c then some ⟨(call s.poller c).1, (c, (call s.poller c).2) :: s.log⟩ else none

/-- What holds between the calls. -/
structure Inv (s : State) : Prop where
  agree : s.poller.Agree
  deleted : ∀ fd, deleted fd s.log = true → s.poller.interest fd = none

theorem Inv.init (epfd : Int) : Inv ⟨{ epfd }, []⟩ := ⟨.init epfd, fun _ _ => rfl⟩

/-- **Every call keeps the agreement.** -/
theorem Inv.step {s s' : State} {c : Call} (h : Inv s) (hstep : s.step c = some s') : Inv s' := by
  unfold State.step at hstep
  split at hstep
  case isFalse => cases hstep
  next henabled =>
  cases hstep
  cases c with
  | add fd events et grant =>
    refine ⟨(h.agree.register (by decide)).1, fun fd' hdel => ?_⟩
    simp only [Event.deleted, Bool.and_eq_true] at hdel
    obtain ⟨hne, hdel⟩ := hdel
    have hop : CtlOp.add ≠ .del := by decide
    rcases register_cases s.poller fd events et grant hop with ⟨hstay, -⟩ | ⟨-, hret, -, hset⟩
    · simp only [call, EventPoller.add, hstay]
      exact h.deleted fd' hdel
    · simp only [call, EventPoller.add, hret] at hne
      simp only [call, EventPoller.add, hset]
      have hfd : fd' ≠ fd := by
        rintro rfl
        simp at hne
      rw [Function.update_of_ne hfd]
      exact h.deleted fd' hdel
  | mod fd events et grant =>
    refine ⟨(h.agree.register (by decide)).1, fun fd' hdel => ?_⟩
    have hnone := h.deleted fd' hdel
    have hop : CtlOp.mod ≠ .del := by decide
    rcases register_cases s.poller fd events et grant hop with ⟨hstay, -⟩ | ⟨-, -, hsome, hset⟩
    · simp only [call, EventPoller.mod, hstay]
      exact hnone
    · simp only [call, EventPoller.mod, hset]
      have hfd : fd' ≠ fd := by
        rintro rfl
        exact hsome rfl hnone
      rw [Function.update_of_ne hfd]
      exact hnone
  | del fd =>
    obtain ⟨hagree, hset⟩ := h.agree.del fd
    refine ⟨hagree, fun fd' hdel => ?_⟩
    simp only [Event.deleted, Bool.or_eq_true, decide_eq_true_eq] at hdel
    simp only [call, hset]
    by_cases hfd : fd' = fd
    · rw [hfd, Function.update_self]
    · rw [Function.update_of_ne hfd]
      exact h.deleted fd' (hdel.resolve_left (Ne.symm hfd))
  | close fd =>
    refine ⟨h.agree.close (h.deleted fd henabled), fun fd' hdel => ?_⟩
    simp only [call]
    by_cases hfd : fd' = fd
    · rw [hfd, Function.update_self]
    · rw [Function.update_of_ne hfd]
      exact h.deleted fd' hdel

/-- The program has made the calls, on a poller with the given `m_epfd`. -/
theorem Inv.run {epfd : Int} {calls : List Call} {s : State}
    (h : exec State.step ⟨{ epfd }, []⟩ calls = some s) : Inv s :=
  exec_invariant (fun hs _ hstep => hs.step hstep) (.init epfd) (along_true calls _) h

/-- **The cache is the kernel's interest list** after every sequence of calls. A further `add` or
`mod` that returns 0, whether it was skipped or not, leaves its mask registered. -/
theorem cache_eq_kernel {epfd : Int} {calls : List Call} {s : State}
    (h : exec State.step ⟨{ epfd }, []⟩ calls = some s) :
    s.poller.fdCurrRegEvent = s.poller.interest ∧
      ∀ fd events et grant,
        ((s.poller.add fd events et grant).2 = 0 →
          (s.poller.add fd events et grant).1.interest fd = some (mask events et)) ∧
        ((s.poller.mod fd events et grant).2 = 0 →
          (s.poller.mod fd events et grant).1.interest fd = some (mask events et)) := by
  have hinv := Inv.run h
  refine ⟨hinv.agree.cache, fun fd events et grant => ⟨?_, ?_⟩⟩
  · exact (hinv.agree.register (by decide)).2
  · exact (hinv.agree.register (by decide)).2

/-- An fd is registered, modified, registered again without change, deleted, closed and reused. -/
def reuse : List Call :=
  [.add 5 1 true true, .mod 5 5 true true, .add 5 5 true true, .del 5, .close 5,
    .add 5 1 false true]

theorem cache_eq_kernel_reuse :
    ∃ s, exec State.step ⟨{ epfd := 3 }, []⟩ reuse = some s ∧
      s.poller.interest 5 = some 1 ∧ s.poller.fdCurrRegEvent = s.poller.interest :=
  exists_exec (by decide) fun _ hs h => ⟨h, (cache_eq_kernel hs).1⟩

end State

end Avant.Event
