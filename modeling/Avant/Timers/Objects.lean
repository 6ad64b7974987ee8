import Avant.Timers.Firing

/-!
# Timer objects and their manager

The calls of a program on a `timer_manager`: it makes timers, adds and deletes them, and lets the
manager check them. A timer is an object that the program and the queue share
(`std::shared_ptr<timer>`): `objects` holds what every object that was made is now, and the
callback of a timer in the manager is the number of its object. A pointer that is null is a number
without an object. The `log` has what happened, the latest first.

* `Inv`: a timer in the queue is its object as it is now, was added, and neither deleted nor
  replaced since; an object with a finite count has fired as often as its count went down. Firing
  one timer keeps it (`Inv.fire`), so `check_and_handle` does, and every other call.
* `safe`: what follows for every sequence of calls.
-/

namespace Avant.Timers

/-- What happened to the objects and ids. -/
inductive TimerEvent
  | created (o : Nat) (repeatedTimes : Int)
  | added (o id : Nat)
  | deleted (id : Nat)
  | fired (o id expiredTime now : Nat)
  deriving DecidableEq

/-- The manager, the objects, and the log. -/
structure State where
  manager : Manager Nat := {}
  objects : List (Timer Nat) := []
  log : List TimerEvent := []

/-- A call of the program. -/
inductive Call
  | make (id now : Nat) (repeatedTimes : Int) (interval : Nat)
  | add (o : Nat)
  | markDelete (id : Nat)
  | check (now : Nat)

/-- Times are of type `uint64_t`, and a check is before the end of time. -/
def Call.Ok : Call → Prop
  | .make _ now _ _ => now ≤ uint64Max
  | .check now => now < uint64Max
  | _ => True

instance : DecidablePred Call.Ok := fun c =>
  match c with
  | .make _ now _ _ => inferInstanceAs (Decidable (now ≤ uint64Max))
  | .check now => inferInstanceAs (Decidable (now < uint64Max))
  | .add _ | .markDelete _ => .isTrue trivial

/-- The object of a timer that ran. -/
def runObject (objects : List (Timer Nat)) (t : Timer Nat) : List (Timer Nat) :=
  objects.set t.callback t.run.1

def firedEvent (now : Nat) (t : Timer Nat) : TimerEvent := .fired t.callback t.id t.expiredTime now

namespace State

/-- What a call does. -/
def call (s : State) : Call → State
  | .make id now n interval =>
    let o := s.objects.length
    ⟨s.manager, s.objects ++ [Timer.make id now n interval o], .created o n :: s.log⟩
  | .add o =>
    match s.objects[o]? with
    | none => s
    | some t =>
      let r := s.manager.add t
      if r.2 then ⟨r.1, s.objects, .added o t.id :: s.log⟩ else s
  | .markDelete id => ⟨s.manager.markDelete id, s.objects, .deleted id :: s.log⟩
  | .check now =>
    let r := s.manager.checkAndHandle now
    ⟨r.1, r.2.foldl runObject s.objects, (r.2.map (firedEvent now)).reverse ++ s.log⟩

/-- The state after a sequence of calls. -/
def run (calls : List Call) : State := calls.foldl call {}

end State

/-- The object fires in the event. -/
def TimerEvent.isFired (o : Nat) : TimerEvent → Bool
  | .fired o' _ _ _ => o' = o
  | _ => false

/-- The object was added under the id, which was not deleted and given to no other object since. -/
def AddedAndKept (o id : Nat) (log : List TimerEvent) : Prop :=
  ∃ later earlier, log = later ++ .added o id :: earlier ∧
    ∀ e ∈ later, e ≠ .deleted id ∧ ∀ o', e = .added o' id → o' = o

theorem AddedAndKept.head (o id : Nat) (log : List TimerEvent) :
    AddedAndKept o id (.added o id :: log) :=
  ⟨[], log, rfl, by simp⟩

theorem AddedAndKept.cons {o id : Nat} {log : List TimerEvent} (h : AddedAndKept o id log)
    {e : TimerEvent} (hdel : e ≠ .deleted id) (hadd : ∀ o', e = .added o' id → o' = o) :
    AddedAndKept o id (e :: log) := by
  obtain ⟨later, earlier, rfl, hlater⟩ := h
  exact ⟨e :: later, earlier, rfl, List.forall_mem_cons.mpr ⟨⟨hdel, hadd⟩, hlater⟩⟩

/-- What holds between the calls, and between the timers of a check. -/
structure Inv (s : State) : Prop where
  sound : s.manager.Sound
  objects : ∀ n ∈ s.manager.queue, s.objects[n.timer.callback]? = some n.timer
  numbered : ∀ (o : Nat) (t : Timer Nat), s.objects[o]? = some t →
    t.callback = o ∧ t.expiredTime ≤ uint64Max
  firedObjects : ∀ o, s.objects.length ≤ o → s.log.countP (TimerEvent.isFired o) = 0
  counts : ∀ o n, TimerEvent.created o n ∈ s.log → 0 ≤ n → ∃ t : Timer Nat, s.objects[o]? = some t ∧
    0 ≤ t.repeatedTimes ∧ s.log.countP (TimerEvent.isFired o) + t.repeatedTimes = n
  queued : ∀ n ∈ s.manager.queue, AddedAndKept n.timer.callback n.timer.id s.log
  history : ∀ later earlier o id e now, s.log = later ++ .fired o id e now :: earlier →
    AddedAndKept o id earlier

theorem Inv.empty : Inv {} where
  sound := .empty
  objects := by simp
  numbered := by simp
  firedObjects := by simp
  counts := by simp
  queued := by simp
  history := by simp

/-- The history stays, if the new event is not a firing. -/
theorem history_cons {log : List TimerEvent} {x : TimerEvent}
    (h : ∀ later earlier o id e now, log = later ++ .fired o id e now :: earlier →
      AddedAndKept o id earlier)
    (hx : ∀ o id e now, x = .fired o id e now → AddedAndKept o id log) :
    ∀ later earlier o id e now, x :: log = later ++ .fired o id e now :: earlier →
      AddedAndKept o id earlier := by
  intro later earlier o id e now heq
  cases later with
  | nil =>
    obtain ⟨rfl, rfl⟩ := List.cons.inj heq
    exact hx o id e now rfl
  | cons y later =>
    obtain ⟨-, rfl⟩ := List.cons.inj heq
    exact h later earlier o id e now rfl

section Step

variable {m m' : Manager Nat} {objects : List (Timer Nat)} {log : List TimerEvent}

variable (h : Inv ⟨m, objects, log⟩)

include h

/-- An event that is neither a firing nor a new object keeps the counts. -/
theorem Inv.counts_cons {x : TimerEvent} (hfired : ∀ o, x.isFired o = false)
    (hcreated : ∀ o n, x ≠ .created o n) :
    (∀ o, objects.length ≤ o → (x :: log).countP (TimerEvent.isFired o) = 0) ∧
      ∀ o n, TimerEvent.created o n ∈ x :: log → 0 ≤ n → ∃ t : Timer Nat, objects[o]? = some t ∧
        0 ≤ t.repeatedTimes ∧
          ((x :: log).countP (TimerEvent.isFired o) : Int) + t.repeatedTimes = n := by
  have hcount : ∀ o, (x :: log).countP (TimerEvent.isFired o) =
      log.countP (TimerEvent.isFired o) := by
    intro o
    simp [hfired]
  refine ⟨fun o ho => ?_, fun o n hn hpos => ?_⟩
  · rw [hcount]
    exact h.firedObjects o ho
  · rw [hcount]
    rcases List.mem_cons.mp hn with heq | hn
    · exact absurd heq.symm (hcreated o n)
    · exact h.counts o n hn hpos

/-- Making a timer. -/
theorem Inv.make {id now interval : Nat} {n : Int} (hnow : now ≤ uint64Max) :
    Inv ⟨m, objects ++ [Timer.make id now n interval objects.length],
      .created objects.length n :: log⟩ where
  sound := h.sound
  objects x hx := by
    have hold := h.objects x hx
    rw [List.getElem?_append_left (List.getElem?_eq_some_iff.mp hold).1]
    exact hold
  numbered o t ho := by
    rcases Nat.lt_or_ge o objects.length with hlt | hge
    · rw [List.getElem?_append_left hlt] at ho
      exact h.numbered o t ho
    · rw [List.getElem?_append_right hge] at ho
      obtain ⟨hidx, rfl⟩ := List.getElem?_eq_some_iff.mp ho
      simp only [List.length_singleton] at hidx
      simp only [List.getElem_singleton, Timer.make]
      exact ⟨by omega, Timer.after_le _ hnow⟩
  firedObjects o ho := by
    simp only [List.length_append, List.length_singleton] at ho
    have hold := h.firedObjects o (by simpa using (by omega : objects.length ≤ o))
    simpa [List.countP_cons, TimerEvent.isFired] using hold
  counts o k hk hpos := by
    rcases List.mem_cons.mp hk with heq | hk
    · obtain ⟨rfl, rfl⟩ := TimerEvent.created.inj heq
      refine ⟨_, List.getElem?_concat_length, hpos, ?_⟩
      have hold := h.firedObjects objects.length (Nat.le_refl _)
      simp only at hold
      simp [TimerEvent.isFired, hold, Timer.make]
    · obtain ⟨t, ht, hrep, hcount⟩ := h.counts o k hk hpos
      refine ⟨t, ?_, hrep, by simpa [List.countP_cons, TimerEvent.isFired] using hcount⟩
      rw [List.getElem?_append_left (List.getElem?_eq_some_iff.mp ht).1]
      exact ht
  queued x hx := (h.queued x hx).cons (by simp) (by simp)
  history := history_cons h.history (by simp)

/-- Adding an object. -/
theorem Inv.add {o : Nat} {t : Timer Nat} (ho : objects[o]? = some t) (hadd : (m.add t).2 = true) :
    Inv ⟨(m.add t).1, objects, .added o t.id :: log⟩ := by
  obtain ⟨hnum, hexp⟩ := h.numbered o t ho
  have hmem := @Manager.mem_queue_add Nat m h.sound.toOk t hadd
  obtain ⟨hfired, hcounts⟩ := h.counts_cons (x := .added o t.id) (fun _ => rfl) (by simp)
  refine ⟨h.sound.add hexp, fun x hx => ?_, h.numbered, hfired, hcounts, fun x hx => ?_,
    history_cons h.history (by simp)⟩
  · rcases hmem.mp hx with rfl | ⟨hx, -⟩
    · simpa only [hnum] using ho
    · exact h.objects x hx
  · rcases hmem.mp hx with rfl | ⟨hx, hid⟩
    · simpa only [hnum] using AddedAndKept.head o t.id log
    · refine (h.queued x hx).cons (by simp) fun o' heq => ?_
      exact absurd (TimerEvent.added.inj heq).2.symm hid

/-- Deleting an id. -/
theorem Inv.markDelete (id : Nat) : Inv ⟨m.markDelete id, objects, .deleted id :: log⟩ := by
  have hmem := (Manager.markDelete_spec h.sound.toOk id).2
  obtain ⟨hfired, hcounts⟩ := h.counts_cons (x := .deleted id) (fun _ => rfl) (by simp)
  refine ⟨h.sound.markDelete id, fun x hx => h.objects x ((hmem x).mp hx).1, h.numbered, hfired,
    hcounts, fun x hx => ?_, history_cons h.history (by simp)⟩
  obtain ⟨hx, hid⟩ := (hmem x).mp hx
  refine (h.queued x hx).cons ?_ (by simp)
  intro heq
  exact hid (TimerEvent.deleted.inj heq).symm

omit h

theorem getElem?_runObject_self {t : Timer Nat} (h : objects[t.callback]? = some t) :
    (runObject objects t)[t.callback]? = some t.run.1 :=
  List.getElem?_set_self (List.getElem?_eq_some_iff.mp h).1

theorem getElem?_runObject_ne {t : Timer Nat} {o : Nat} (h : o ≠ t.callback) :
    (runObject objects t)[o]? = objects[o]? :=
  List.getElem?_set_ne (Ne.symm h)

theorem countP_firedEvent (now o : Nat) (t : Timer Nat) :
    (firedEvent now t :: log).countP (TimerEvent.isFired o) =
      log.countP (TimerEvent.isFired o) + if t.callback = o then 1 else 0 := by
  simp [List.countP_cons, TimerEvent.isFired, firedEvent]

/-- **Firing a timer**: it is taken out of the queue or comes back as what it became. -/
theorem Inv.fire (h : Inv ⟨m, objects, log⟩) (hm' : m'.Sound) {n : Node Nat} (hn : n ∈ m.queue)
    (now : Nat)
    (hleft : ∀ x ∈ m'.queue, x ∈ m.queue ∧ x.timer.id ≠ n.timer.id ∨ x.timer = n.timer.run.1) :
    Inv ⟨m', runObject objects n.timer, firedEvent now n.timer :: log⟩ := by
  have hobj : objects[n.timer.callback]? = some n.timer := h.objects n hn
  have hlt : n.timer.callback < objects.length := (List.getElem?_eq_some_iff.mp hobj).1
  have hself := getElem?_runObject_self hobj
  have harmed := h.sound.armed n hn
  refine ⟨hm', fun x hx => ?_, fun o t ho => ?_, fun o ho => ?_, fun o k hk hpos => ?_,
    fun x hx => ?_, history_cons h.history fun o id e now' heq => ?_⟩
  · rcases hleft x hx with ⟨hx, hid⟩ | hx
    · rw [getElem?_runObject_ne]
      · exact h.objects x hx
      · -- two timers of one object have one id
        intro heq
        have hxobj : objects[x.timer.callback]? = some x.timer := h.objects x hx
        rw [heq, hobj] at hxobj
        exact hid (congrArg Timer.id (Option.some.inj hxobj)).symm
    · rw [hx]
      exact hself
  · by_cases heq : o = n.timer.callback
    · subst heq
      obtain rfl := Option.some.inj (hself.symm.trans ho)
      exact ⟨rfl, harmed.run_expiry⟩
    · rw [getElem?_runObject_ne heq] at ho
      exact h.numbered o t ho
  · have hlen : objects.length ≤ o := by simpa [runObject] using ho
    rw [countP_firedEvent, h.firedObjects o hlen, if_neg (by omega)]
  · obtain ⟨u, hu, hrep, hk'⟩ := h.counts o k (by simpa [firedEvent] using hk) hpos
    by_cases heq : o = n.timer.callback
    · subst heq
      obtain rfl := Option.some.inj (hobj.symm.trans hu)
      obtain ⟨hone, hdown⟩ := harmed.run_counted hrep
      refine ⟨_, hself, ?_⟩
      rw [countP_firedEvent, if_pos rfl, hdown]
      simp only at hk'
      push_cast
      omega
    · refine ⟨u, (getElem?_runObject_ne heq).trans hu, hrep, ?_⟩
      rw [countP_firedEvent, if_neg (Ne.symm heq)]
      simpa using hk'
  · rcases hleft x hx with ⟨hx, -⟩ | hx
    · exact (h.queued x hx).cons (by simp [firedEvent]) (by simp [firedEvent])
    · rw [hx]
      exact (h.queued n hn).cons (by simp [firedEvent]) (by simp [firedEvent])
  · obtain ⟨rfl, rfl, -, -⟩ := TimerEvent.fired.inj heq
    exact h.queued n hn

end Step

/-! ## A check -/

/-- The state in the middle of a check. -/
def State.during (s : State) (now : Nat) (w : Walk Nat) : State :=
  ⟨w.result.1, w.ran.foldl runObject s.objects, (w.ran.map (firedEvent now)).reverse ++ s.log⟩

theorem Inv.turn {s : State} {now : Nat} {w w' : Walk Nat} (hnow : now < uint64Max)
    (hgood : w.Good now) (h : Inv (s.during now w)) (hturn : Walk.Turn now w w') :
    Inv (s.during now w') := by
  obtain ⟨n, hn, -, hran, -, hleft⟩ := hgood.turn_spec hturn
  have hfire := h.fire (hgood.turn hnow hturn).sound (List.mem_append_right _ hn) now
    fun x hx => (hleft x hx).imp id And.right
  rw [State.during, hran, List.foldl_append, List.map_append, List.reverse_append]
  exact hfire

theorem Inv.check {s : State} {now : Nat} (h : Inv s) (hnow : now < uint64Max) :
    Inv (s.call (.check now)) := by
  obtain ⟨w', hreach, -, -, heq⟩ := Manager.checkAndHandle_walk hnow h.sound
  have hboth : w'.Good now ∧ Inv (s.during now w') := by
    clear heq
    induction hreach with
    | refl => exact ⟨Walk.good_start h.sound now, h⟩
    | tail _ hturn ih => exact ⟨ih.1.turn hnow hturn, ih.2.turn hnow ih.1 hturn⟩
  rw [State.call, heq]
  exact hboth.2

/-! ## Every sequence of calls -/

theorem Inv.call {s : State} (h : Inv s) {c : Call} (hc : c.Ok) : Inv (s.call c) := by
  cases c with
  | make id now n interval => exact h.make hc
  | add o =>
    simp only [State.call]
    cases ho : s.objects[o]? with
    | none => exact h
    | some t =>
      simp only
      split
      · next hadd => exact h.add ho hadd
      · exact h
  | markDelete id => exact h.markDelete id
  | check now => exact h.check hc

theorem Inv.run {calls : List Call} (h : ∀ c ∈ calls, c.Ok) : Inv (State.run calls) := by
  have hall : ∀ (calls : List Call) (s : State), Inv s → (∀ c ∈ calls, c.Ok) →
      Inv (calls.foldl State.call s) := by
    intro calls
    induction calls with
    | nil => exact fun s hs _ => hs
    | cons c calls ih =>
      intro s hs hcalls
      exact ih _ (hs.call (hcalls c List.mem_cons_self))
        fun c' hc' => hcalls c' (List.mem_cons_of_mem c hc')
  exact hall calls {} .empty h

/-- What the manager promises in a state. -/
structure Safe (s : State) : Prop where
  /-- the index maps exactly the ids of the queue to their nodes -/
  index : s.manager.Ok
  /-- a timer in the queue is its object, under the object's expiry -/
  keys : ∀ n ∈ s.manager.queue,
    s.objects[n.timer.callback]? = some n.timer ∧ n.key = n.timer.expiredTime
  /-- the loop of a check ends by itself -/
  terminates : ∀ now < uint64Max, ∀ fuel, s.manager.turns now ≤ fuel →
    Manager.checkLoop now fuel [] s.manager.queue s.manager.index s.manager.fresh [] =
      s.manager.checkAndHandle now
  /-- timers fire in the order of their expiries -/
  ordered : ∀ now < uint64Max,
    (s.manager.checkAndHandle now).2.Pairwise fun a b => a.expiredTime ≤ b.expiredTime
  /-- and not before them -/
  due : ∀ now < uint64Max, ∀ t ∈ (s.manager.checkAndHandle now).2, t.expiredTime ≤ now
  /-- a timer with a finite count fires at most that often -/
  bounded : ∀ o n, TimerEvent.created o n ∈ s.log → 0 ≤ n → s.log.countP (TimerEvent.isFired o) ≤ n
  /-- a timer that fires was added, and neither deleted nor replaced since -/
  kept : ∀ later earlier o id e now, s.log = later ++ .fired o id e now :: earlier →
    AddedAndKept o id earlier

/-- **Safety of the timer manager**, after every sequence of calls. -/
theorem safe (calls : List Call) (h : ∀ c ∈ calls, c.Ok) : Safe (State.run calls) := by
  have hinv := Inv.run h
  refine ⟨hinv.sound.toOk, fun n hn => ⟨hinv.objects n hn, hinv.sound.keys n hn⟩,
    fun now hnow fuel hfuel => Manager.checkLoop_enough hnow hinv.sound hfuel,
    fun now hnow => Manager.checkAndHandle_ordered hnow hinv.sound,
    fun now hnow => Manager.checkAndHandle_due hnow hinv.sound, fun o n hn hpos => ?_,
    hinv.history⟩
  obtain ⟨t, -, hrep, hcount⟩ := hinv.counts o n hn hpos
  omega

/-- Three timers, two of them with one id; the second replaces the first. -/
def threeTimers : List Call :=
  [.make 1 0 3 5, .make 1 0 (-1) 2, .make 2 0 1 0, .add 0, .check 7, .add 1, .add 2, .check 9,
    .markDelete 1, .check 20, .add 0, .check 30]

theorem safe_threeTimers : Safe (State.run threeTimers) := safe threeTimers (by decide)

end Avant.Timers
