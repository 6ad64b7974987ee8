import Mathlib.Algebra.BigOperators.Group.List.Basic
import Mathlib.Algebra.Order.Ring.Nat
import Mathlib.Data.List.AList

/-!
# Timers

Model of `src/external/avant-timer/timer.cpp` and `timer_manager.cpp`. The queue is a
`std::multimap` from expiry to timer, in the order of its keys and, for equal ones, of insertion;
the index maps a timer's id to its node in the queue. A node is told from others by a `handle`.

`check_and_handle` walks the queue with an iterator. A timer that is re-armed goes to its place
in the queue, which may be before the iterator: what the walk has passed and what it has still to
visit are two lists in `checkLoop`. The callbacks must not touch the manager, so the model returns
the timers whose callbacks ran, in order.

* `Ok`: the index knows every node of the queue, and the ids of two nodes differ; kept by every
  operation.
* `mem_tags_markDelete`, `mem_tags_add`, `checkAndHandle_spec`: what an operation leaves in the
  queue.
-/

namespace Avant.Timers

/-- `UINT64_MAX` -/
def uint64Max : Nat := 2 ^ 64 - 1

/-- `timer`. `κ` is what its callback does. -/
structure Timer (κ : Type) where
  id : Nat
  expiredTime : Nat
  repeatedTimes : Int
  interval : Nat
  callback : κ
  deriving DecidableEq

namespace Timer

variable {κ : Type}

/-- `REPEAT_INFINITE` -/
def repeatInfinite : Int := -1

/-- A time and an interval, added with saturation. -/
def after (time interval : Nat) : Nat :=
  if interval > uint64Max - time then uint64Max else time + interval

/-- The constructor of `timer`. -/
def make (id now : Nat) (repeatedTimes : Int) (interval : Nat) (callback : κ) : Timer κ :=
  ⟨id, after now interval, repeatedTimes, interval, callback⟩

/-- `timer::is_expired`. -/
def isExpired (now : Nat) (t : Timer κ) : Bool := now ≥ t.expiredTime

/-- `timer::run`: the timer behind it, and whether the callback was called. -/
def run (t : Timer κ) : Timer κ × Bool :=
  let n := if t.repeatedTimes ≥ 1 then t.repeatedTimes - 1 else t.repeatedTimes
  ({ t with
      repeatedTimes := n
      expiredTime := if n ≠ 0 then after t.expiredTime t.interval else t.expiredTime },
    t.repeatedTimes = repeatInfinite || t.repeatedTimes ≥ 1)

/-- What a timer keeps while it is run. -/
def tag (t : Timer κ) : Nat × κ := (t.id, t.callback)

end Timer

/-- A node of the queue. -/
structure Node (κ : Type) where
  handle : Nat
  key : Nat
  timer : Timer κ
  deriving DecidableEq

/-- `timer_manager`. -/
structure Manager (κ : Type) where
  /-- `m_queue` -/
  queue : List (Node κ) := []
  /-- `m_timer_index` -/
  index : AList (fun _ : Nat => Nat) := ∅
  /-- the handle of the next node -/
  fresh : Nat := 0

namespace Manager

variable {κ : Type}

/-- `std::multimap::emplace`: behind the nodes whose keys are not greater. -/
def emplace (n : Node κ) : List (Node κ) → List (Node κ)
  | [] => [n]
  | m :: q => if m.key ≤ n.key then m :: emplace n q else n :: m :: q

/-- `timer_manager::mark_delete`. -/
def markDelete (id : Nat) (m : Manager κ) : Manager κ :=
  match m.index.lookup id with
  | none => m
  | some h => { m with queue := m.queue.filter (·.handle ≠ h), index := m.index.erase id }

/-- `timer_manager::add`; `false` when it returns a null pointer. -/
def add (t : Timer κ) (m : Manager κ) : Manager κ × Bool :=
  if t.repeatedTimes ≤ 0 ∧ t.repeatedTimes ≠ Timer.repeatInfinite then (m, false)
  else if t.interval = 0 ∧ t.repeatedTimes ≠ 1 then (m, false)
  else
    let m := m.markDelete t.id
    ({ queue := emplace ⟨m.fresh, t.expiredTime, t⟩ m.queue
       index := m.index.insert t.id m.fresh
       fresh := m.fresh + 1 }, true)

/-- The loop of `check_and_handle`, with the nodes it has passed and those it has still to visit,
and the timers whose callbacks ran. -/
def checkLoop (now : Nat) : Nat → List (Node κ) → List (Node κ) → AList (fun _ : Nat => Nat) →
    Nat → List (Timer κ) → Manager κ × List (Timer κ)
  | 0, passed, ahead, index, fresh, ran => (⟨passed ++ ahead, index, fresh⟩, ran)
  | _ + 1, passed, [], index, fresh, ran => (⟨passed, index, fresh⟩, ran)
  | fuel + 1, passed, n :: ahead, index, fresh, ran =>
    if !n.timer.isExpired now then (⟨passed ++ n :: ahead, index, fresh⟩, ran)
    else
      let index := index.erase n.timer.id
      let r := n.timer.run
      let ran := if r.2 then ran ++ [n.timer] else ran
      if r.1.repeatedTimes ≠ 0 then
        let node := ⟨fresh, r.1.expiredTime, r.1⟩
        let index := index.insert n.timer.id fresh
        -- the iterator is at the head of `ahead`, or at the end of the queue
        if ahead.head?.any (·.key ≤ node.key) then
          checkLoop now fuel passed (emplace node ahead) index (fresh + 1) ran
        else checkLoop now fuel (emplace node passed) ahead index (fresh + 1) ran
      else checkLoop now fuel passed ahead index fresh ran

/-- More turns than `check_and_handle` can take: a timer that is re-armed comes back at a later
time, and is not visited again once that is behind `now`. -/
def turns (now : Nat) (m : Manager κ) : Nat := (m.queue.map fun n => now + 2 - n.key).sum

/-- `timer_manager::check_and_handle`: the timers whose callbacks ran, in order. -/
def checkAndHandle (now : Nat) (m : Manager κ) : Manager κ × List (Timer κ) :=
  checkLoop now (m.turns now) [] m.queue m.index m.fresh []

/-! ## The index and the queue -/

variable {m : Manager κ} {n x : Node κ}

theorem emplace_perm (n : Node κ) (q : List (Node κ)) : (emplace n q).Perm (n :: q) := by
  induction q with
  | nil => exact .refl _
  | cons m q ih =>
    rw [emplace]
    split
    · exact (ih.cons m).trans (.swap n m q)
    · exact .refl _

/-- The index knows every node of the queue, by the id of its timer. -/
structure Ok (m : Manager κ) : Prop where
  handles : (m.queue.map Node.handle).Nodup
  bound : ∀ n ∈ m.queue, n.handle < m.fresh
  index : ∀ id h, m.index.lookup id = some h ↔ ∃ n ∈ m.queue, n.handle = h ∧ n.timer.id = id

theorem Ok.empty : Ok ({} : Manager κ) :=
  ⟨List.nodup_nil, by simp, by simp⟩

/-- Two nodes with one handle are one. -/
theorem Ok.eq_of_handle (h : Ok m) {n' : Node κ} (hn : n ∈ m.queue) (hn' : n' ∈ m.queue)
    (heq : n.handle = n'.handle) : n = n' :=
  List.inj_on_of_nodup_map h.handles hn hn' heq

/-- Two timers with one id are one. -/
theorem Ok.eq_of_id (h : Ok m) {n' : Node κ} (hn : n ∈ m.queue) (hn' : n' ∈ m.queue)
    (heq : n.timer.id = n'.timer.id) : n = n' := by
  have hidx := (h.index n.timer.id n.handle).mpr ⟨n, hn, rfl, rfl⟩
  have hidx' := (h.index n.timer.id n'.handle).mpr ⟨n', hn', rfl, heq.symm⟩
  rw [hidx] at hidx'
  exact h.eq_of_handle hn hn' (Option.some.inj hidx')

/-- A node is taken out of the queue and of the index. -/
theorem Ok.remove (h : Ok m) (hn : n ∈ m.queue) {q : List (Node κ)} (hq : q.Sublist m.queue)
    (hmem : ∀ x ∈ m.queue, x ∈ q ↔ x ≠ n) : Ok ⟨q, m.index.erase n.timer.id, m.fresh⟩ := by
  refine ⟨h.handles.sublist (hq.map Node.handle), fun x hx => h.bound x (hq.subset hx),
    fun id k => ?_⟩
  by_cases hid : id = n.timer.id
  · subst hid
    simp only [AList.lookup_erase, reduceCtorEq, false_iff]
    rintro ⟨x, hx, -, heq⟩
    exact (hmem x (hq.subset hx)).mp hx (h.eq_of_id (hq.subset hx) hn heq)
  · rw [AList.lookup_erase_ne hid, h.index]
    constructor
    · rintro ⟨x, hx, hk, heq⟩
      exact ⟨x, (hmem x hx).mpr fun hxn => hid (by rw [← heq, hxn]), hk, heq⟩
    · rintro ⟨x, hx, hk, heq⟩
      exact ⟨x, hq.subset hx, hk, heq⟩

/-- A node with a new handle goes into the queue and into the index, where no timer has its id. -/
theorem Ok.insert (h : Ok m) (t : Timer κ) (key : Nat) {q : List (Node κ)}
    (hq : q.Perm (⟨m.fresh, key, t⟩ :: m.queue)) (hid : ∀ n ∈ m.queue, n.timer.id ≠ t.id) :
    Ok ⟨q, m.index.insert t.id m.fresh, m.fresh + 1⟩ := by
  refine ⟨(hq.map Node.handle).nodup_iff.mpr (List.nodup_cons.mpr ⟨?_, h.handles⟩), ?_, ?_⟩
  · intro hmem
    obtain ⟨x, hx, hxh⟩ := List.mem_map.mp hmem
    exact absurd hxh (Nat.ne_of_lt (h.bound x hx))
  · intro x hx
    rcases List.mem_cons.mp (hq.mem_iff.mp hx) with rfl | hx'
    · exact Nat.lt_succ_self _
    · exact Nat.lt_succ_of_lt (h.bound x hx')
  · intro id k
    by_cases heq : id = t.id
    · subst heq
      rw [AList.lookup_insert, Option.some.injEq]
      constructor
      · rintro rfl
        exact ⟨_, hq.mem_iff.mpr List.mem_cons_self, rfl, rfl⟩
      · rintro ⟨x, hx, rfl, hxid⟩
        rcases List.mem_cons.mp (hq.mem_iff.mp hx) with rfl | hx'
        · rfl
        · exact absurd hxid (hid x hx')
    · rw [AList.lookup_insert_ne heq, h.index]
      constructor
      · rintro ⟨x, hx, hk, hxid⟩
        exact ⟨x, hq.mem_iff.mpr (List.mem_cons_of_mem _ hx), hk, hxid⟩
      · rintro ⟨x, hx, hk, hxid⟩
        rcases List.mem_cons.mp (hq.mem_iff.mp hx) with rfl | hx'
        · exact absurd hxid.symm heq
        · exact ⟨x, hx', hk, hxid⟩

/-! ## What the operations leave -/

/-- The ids and the callbacks of the timers in the queue. -/
def tags (m : Manager κ) : List (Nat × κ) := m.queue.map (·.timer.tag)

theorem mem_tags {i : Nat} {c : κ} :
    (i, c) ∈ m.tags ↔ ∃ n ∈ m.queue, n.timer.id = i ∧ n.timer.callback = c := by
  simp only [tags, List.mem_map, Timer.tag, Prod.mk.injEq]

/-- `mark_delete` takes out the timer with the id, and leaves the others. -/
theorem markDelete_spec (h : Ok m) (id : Nat) :
    Ok (m.markDelete id) ∧ ∀ x, x ∈ (m.markDelete id).queue ↔ x ∈ m.queue ∧ x.timer.id ≠ id := by
  unfold markDelete
  cases hidx : m.index.lookup id with
  | none =>
    refine ⟨h, fun x => ⟨fun hx => ⟨hx, fun hid => ?_⟩, fun hx => hx.1⟩⟩
    rw [(h.index id x.handle).mpr ⟨x, hx, rfl, hid⟩] at hidx
    simp at hidx
  | some k =>
    obtain ⟨n, hn, rfl, rfl⟩ := (h.index id k).mp hidx
    have hmem : ∀ x ∈ m.queue, x ∈ m.queue.filter (·.handle ≠ n.handle) ↔ x ≠ n := by
      intro x hx
      rw [List.mem_filter, decide_eq_true_eq]
      exact ⟨fun hx' hxn => hx'.2 (hxn ▸ rfl),
        fun hxn => ⟨hx, fun heq => hxn (h.eq_of_handle hx hn heq)⟩⟩
    refine ⟨h.remove hn List.filter_sublist hmem, fun x => ⟨fun hx => ?_, fun hx => ?_⟩⟩
    · have hxq := (List.mem_filter.mp hx).1
      exact ⟨hxq, fun hid => (hmem x hxq).mp hx (h.eq_of_id hxq hn hid)⟩
    · exact (hmem x hx.1).mpr fun hxn => hx.2 (hxn ▸ rfl)

theorem mem_tags_markDelete (h : Ok m) {id i : Nat} {c : κ} :
    (i, c) ∈ (m.markDelete id).tags ↔ (i, c) ∈ m.tags ∧ i ≠ id := by
  simp only [mem_tags, (markDelete_spec h id).2]
  constructor
  · rintro ⟨n, ⟨hn, hne⟩, rfl, hc⟩
    exact ⟨⟨n, hn, rfl, hc⟩, hne⟩
  · rintro ⟨⟨n, hn, rfl, hc⟩, hne⟩
    exact ⟨n, ⟨hn, hne⟩, rfl, hc⟩

theorem Ok.add (h : Ok m) (t : Timer κ) : Ok (m.add t).1 := by
  unfold Manager.add
  split
  · exact h
  · split
    · exact h
    · obtain ⟨hok, hmem⟩ := markDelete_spec h t.id
      exact hok.insert t t.expiredTime (emplace_perm _ _) fun n hn => ((hmem n).mp hn).2

/-- `add` puts the timer in the place of one with its id. -/
theorem mem_tags_add (h : Ok m) {t : Timer κ} (ht : (m.add t).2 = true) {i : Nat} {c : κ} :
    (i, c) ∈ (m.add t).1.tags ↔ (i, c) = t.tag ∨ (i, c) ∈ m.tags ∧ i ≠ t.id := by
  unfold add at ht ⊢
  split_ifs at ht ⊢
  rw [← mem_tags_markDelete h]
  have hperm := (emplace_perm ⟨(m.markDelete t.id).fresh, t.expiredTime, t⟩
    (m.markDelete t.id).queue).map fun n => n.timer.tag
  exact hperm.mem_iff.trans List.mem_cons

/-- The loop of `check_and_handle` keeps the index in step; the timers it runs, and those it
leaves, are timers of the queue. -/
theorem checkLoop_spec {T : List (Nat × κ)} (now : Nat) :
    ∀ (fuel : Nat) (passed ahead : List (Node κ)) (index : AList (fun _ : Nat => Nat)) (fresh : Nat)
      (ran : List (Timer κ)), Ok ⟨passed ++ ahead, index, fresh⟩ →
      (∀ n ∈ passed ++ ahead, n.timer.tag ∈ T) → (∀ t ∈ ran, t.tag ∈ T) →
      let r := checkLoop now fuel passed ahead index fresh ran
      Ok r.1 ∧ (∀ n ∈ r.1.queue, n.timer.tag ∈ T) ∧ ∀ t ∈ r.2, t.tag ∈ T
  | 0, _, _, _, _, _, hok, hT, hran => ⟨hok, hT, hran⟩
  | _ + 1, passed, [], _, _, _, hok, hT, hran => by
    rw [List.append_nil] at hok hT
    exact ⟨hok, hT, hran⟩
  | fuel + 1, passed, n :: ahead, index, fresh, ran, hok, hT, hran => by
    rw [checkLoop]
    split
    · exact ⟨hok, hT, hran⟩
    · have hn : n ∈ passed ++ n :: ahead := by simp
      have hnot : n ∉ passed ++ ahead := by
        have := hok.handles.of_map
        rw [List.nodup_append] at this
        simp only [List.nodup_cons] at this
        rw [List.mem_append, not_or]
        exact ⟨fun h => this.2.2 n h n List.mem_cons_self rfl, this.2.1.1⟩
      have hsub : (passed ++ ahead).Sublist (passed ++ n :: ahead) :=
        List.Sublist.append_left (List.sublist_cons_self n ahead) passed
      have hmem : ∀ x ∈ passed ++ n :: ahead, x ∈ passed ++ ahead ↔ x ≠ n := by
        intro x hx
        refine ⟨fun hx' hxn => hnot (hxn ▸ hx'), fun hxn => ?_⟩
        simp only [List.mem_append, List.mem_cons] at hx ⊢
        tauto
      have hok' := hok.remove hn hsub hmem
      have hT' : ∀ x ∈ passed ++ ahead, x.timer.tag ∈ T := fun x hx => hT x (hsub.subset hx)
      have hran' : ∀ t ∈ if n.timer.run.2 then ran ++ [n.timer] else ran, t.tag ∈ T := by
        split
        · exact List.forall_mem_append.mpr ⟨hran, List.forall_mem_singleton.mpr (hT n hn)⟩
        · exact hran
      -- a timer that is re-armed comes back with its id and its callback
      have hback : ∀ {q : List (Node κ)},
          q.Perm (⟨fresh, n.timer.run.1.expiredTime, n.timer.run.1⟩ :: (passed ++ ahead)) →
          Ok ⟨q, (index.erase n.timer.id).insert n.timer.id fresh, fresh + 1⟩ ∧
            ∀ x ∈ q, x.timer.tag ∈ T := by
        intro q hq
        refine ⟨hok'.insert n.timer.run.1 _ hq fun x hx hid => ?_, fun x hx => ?_⟩
        · exact (hmem x (hsub.subset hx)).mp hx (hok.eq_of_id (hsub.subset hx) hn hid)
        · rcases List.mem_cons.mp (hq.mem_iff.mp hx) with rfl | hx'
          · exact hT n hn
          · exact hT' x hx'
      simp only
      split
      · split
        · obtain ⟨hok'', hT''⟩ := hback (q := passed ++ emplace _ ahead)
            (((emplace_perm _ ahead).append_left passed).trans List.perm_middle)
          exact checkLoop_spec now fuel _ _ _ _ _ hok'' hT'' hran'
        · obtain ⟨hok'', hT''⟩ := hback (q := emplace _ passed ++ ahead)
            ((emplace_perm _ passed).append_right ahead)
          exact checkLoop_spec now fuel _ _ _ _ _ hok'' hT'' hran'
      · exact checkLoop_spec now fuel _ _ _ _ _ hok' hT' hran'

/-- `check_and_handle` runs timers of the queue, and leaves timers of the queue. -/
theorem checkAndHandle_spec (h : Ok m) (now : Nat) :
    Ok (m.checkAndHandle now).1 ∧ (∀ x ∈ (m.checkAndHandle now).1.tags, x ∈ m.tags) ∧
      ∀ t ∈ (m.checkAndHandle now).2, t.tag ∈ m.tags := by
  have hT : ∀ n ∈ m.queue, n.timer.tag ∈ m.tags := fun n hn => List.mem_map_of_mem hn
  obtain ⟨hok, hleft, hran⟩ :=
    checkLoop_spec now (m.turns now) [] m.queue m.index m.fresh [] h hT (by simp)
  refine ⟨hok, fun x hx => ?_, hran⟩
  obtain ⟨n, hn, rfl⟩ := List.mem_map.mp hx
  exact hleft n hn

end Manager

end Avant.Timers
