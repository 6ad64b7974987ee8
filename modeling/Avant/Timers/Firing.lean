import Mathlib.Data.Set.Basic
import Mathlib.Logic.Relation
import Avant.Timers.Manager

/-!
# Which timers fire

A call of `check_and_handle` turn by turn (`Turn`): the timer at the iterator is taken out, run,
and, if it has repetitions left, put back behind the iterator or before it. `Sound` is what holds
of a manager between calls: the queue is in the order of its keys, the key of a node is the expiry
of its timer, and every queued timer is one that `add` lets in.

A timer that is put back before the iterator is not visited again in the call, even if it is due.
That happens when its next expiry is earlier than that of the next timer of the queue, or when
there is no next timer.

* `loop_rests`: with `now` below `UINT64_MAX` the walk comes to an end, after at most
  `turns` turns.
* `Walk.Good`: the timers run in the order of their expiries, none of them early.
* `firesAllDue_iff`: every due timer fires, as often as it itself says, exactly for the timers
  that are not due twice.
-/

namespace Avant.Timers

variable {κ : Type}

/-! ## Timers -/

namespace Timer

theorem le_after {time : Nat} (interval : Nat) (h : time ≤ uint64Max) :
    time ≤ after time interval := by
  unfold after
  split <;> omega

theorem after_le {time : Nat} (interval : Nat) (h : time ≤ uint64Max) :
    after time interval ≤ uint64Max := by
  unfold after
  split <;> omega

theorem lt_after {time interval : Nat} (h : time < uint64Max) (hi : interval ≠ 0) :
    time < after time interval := by
  unfold after
  split <;> omega

/-- A timer that `add` lets in. -/
structure Armed (t : Timer κ) : Prop where
  repeats : t.repeatedTimes = repeatInfinite ∨ 1 ≤ t.repeatedTimes
  interval : t.interval = 0 → t.repeatedTimes = 1
  expiry : t.expiredTime ≤ uint64Max

variable {t : Timer κ}

theorem Armed.called (h : t.Armed) : t.run.2 = true := by
  rcases h.repeats with hrep | hrep <;> simp [run, hrep]

theorem run_id (t : Timer κ) : t.run.1.id = t.id := rfl

/-- A timer is put back unless this was its last repetition. -/
theorem Armed.run_repeats (h : t.Armed) : t.run.1.repeatedTimes = 0 ↔ t.repeatedTimes = 1 := by
  have hrep := h.repeats
  simp only [run, repeatInfinite] at hrep ⊢
  split <;> omega

theorem run_expiredTime (h : t.run.1.repeatedTimes ≠ 0) :
    t.run.1.expiredTime = after t.expiredTime t.interval := by
  unfold run at h ⊢
  exact if_pos h

/-- A timer that is put back is armed. -/
theorem Armed.run (h : t.Armed) (hback : t.run.1.repeatedTimes ≠ 0) : t.run.1.Armed := by
  have hne : t.repeatedTimes ≠ 1 := fun h1 => hback (h.run_repeats.mpr h1)
  refine ⟨?_, fun hi => absurd (h.interval hi) hne, ?_⟩
  · have hrep := h.repeats
    simp only [Timer.run, repeatInfinite] at hrep hback ⊢
    split <;> omega
  · rw [run_expiredTime hback]
    exact after_le _ h.expiry

/-- What a timer became comes due in time, put back or not. -/
theorem Armed.run_expiry (h : t.Armed) : t.run.1.expiredTime ≤ uint64Max := by
  by_cases hback : t.run.1.repeatedTimes = 0
  · have hkeep : t.run.1.expiredTime = t.expiredTime := by
      unfold Timer.run at hback ⊢
      exact if_neg (not_not.mpr hback)
    rw [hkeep]
    exact h.expiry
  · exact (h.run hback).expiry

/-- A count that is not negative goes down by one. -/
theorem Armed.run_counted (h : t.Armed) (hpos : 0 ≤ t.repeatedTimes) :
    1 ≤ t.repeatedTimes ∧ t.run.1.repeatedTimes = t.repeatedTimes - 1 := by
  have hone : 1 ≤ t.repeatedTimes := by
    have hrep := h.repeats
    simp only [repeatInfinite] at hrep
    omega
  refine ⟨hone, ?_⟩
  unfold Timer.run
  exact if_pos hone

/-- A timer that is put back comes due later, unless it was at the end of time. -/
theorem Armed.lt_run (h : t.Armed) (hback : t.run.1.repeatedTimes ≠ 0)
    (hlt : t.expiredTime < uint64Max) : t.expiredTime < t.run.1.expiredTime := by
  rw [run_expiredTime hback]
  exact lt_after hlt fun hi => hback (h.run_repeats.mpr (h.interval hi))

end Timer

namespace Manager

/-! ## The queue in order -/

variable {m : Manager κ}

theorem mem_emplace {n x : Node κ} {q : List (Node κ)} : x ∈ emplace n q ↔ x = n ∨ x ∈ q :=
  (emplace_perm n q).mem_iff.trans List.mem_cons

theorem emplace_sorted (n : Node κ) {q : List (Node κ)}
    (h : q.Pairwise fun a b => a.key ≤ b.key) :
    (emplace n q).Pairwise fun a b => a.key ≤ b.key := by
  induction q with
  | nil => exact List.pairwise_singleton _ _
  | cons m q ih =>
    rw [List.pairwise_cons] at h
    rw [emplace]
    split
    · next hle =>
      refine List.pairwise_cons.mpr ⟨fun x hx => ?_, ih h.2⟩
      rcases mem_emplace.mp hx with rfl | hx
      · exact hle
      · exact h.1 x hx
    · next hlt =>
      refine List.pairwise_cons.mpr ⟨fun x hx => ?_, List.pairwise_cons.mpr h⟩
      rcases List.mem_cons.mp hx with rfl | hx
      · omega
      · have := h.1 x hx
        omega

/-- What holds between two calls. -/
structure Sound (m : Manager κ) : Prop extends Ok m where
  sorted : m.queue.Pairwise fun a b => a.key ≤ b.key
  keys : ∀ n ∈ m.queue, n.key = n.timer.expiredTime
  armed : ∀ n ∈ m.queue, n.timer.Armed

theorem Sound.empty : Sound ({} : Manager κ) :=
  ⟨Ok.empty, List.Pairwise.nil, by simp, by simp⟩

theorem markDelete_sublist (id : Nat) : (m.markDelete id).queue.Sublist m.queue := by
  unfold markDelete
  split
  · exact .refl _
  · exact List.filter_sublist

theorem Sound.markDelete (h : Sound m) (id : Nat) : Sound (m.markDelete id) :=
  ⟨(markDelete_spec h.toOk id).1, h.sorted.sublist (markDelete_sublist id),
    fun n hn => h.keys n ((markDelete_sublist id).subset hn),
    fun n hn => h.armed n ((markDelete_sublist id).subset hn)⟩

/-- `add` refuses a timer that is not armed. -/
theorem armed_of_add {t : Timer κ} (ht : t.expiredTime ≤ uint64Max) (h : (m.add t).2 = true) :
    t.Armed := by
  unfold add at h
  split_ifs at h with hrep hint
  simp only [Timer.repeatInfinite] at hrep
  refine ⟨?_, fun hi => ?_, ht⟩
  · unfold Timer.repeatInfinite
    omega
  · by_contra hne
    exact hint ⟨hi, hne⟩

theorem add_refused {t : Timer κ} (h : (m.add t).2 = false) : (m.add t).1 = m := by
  unfold add at h ⊢
  split_ifs at h ⊢ <;> rfl

/-- The queue after `add`. -/
theorem mem_queue_add (hok : Ok m) {t : Timer κ} (h : (m.add t).2 = true) {x : Node κ} :
    x ∈ (m.add t).1.queue ↔
      x = ⟨(m.markDelete t.id).fresh, t.expiredTime, t⟩ ∨ x ∈ m.queue ∧ x.timer.id ≠ t.id := by
  unfold add at h ⊢
  split_ifs at h ⊢
  rw [← (markDelete_spec hok t.id).2]
  exact mem_emplace

theorem Sound.add (h : Sound m) {t : Timer κ} (ht : t.expiredTime ≤ uint64Max) :
    Sound (m.add t).1 := by
  cases hadd : (m.add t).2 with
  | false => rwa [add_refused hadd]
  | true =>
    have hmem := @mem_queue_add κ m h.toOk t hadd
    refine ⟨h.toOk.add t, ?_, fun n hn => ?_, fun n hn => ?_⟩
    · unfold Manager.add at hadd ⊢
      split_ifs at hadd ⊢
      exact emplace_sorted _ (h.markDelete t.id).sorted
    · rcases hmem.mp hn with rfl | ⟨hn', -⟩
      · rfl
      · exact h.keys n hn'
    · rcases hmem.mp hn with rfl | ⟨hn', -⟩
      · exact armed_of_add ht hadd
      · exact h.armed n hn'

end Manager

/-! ## The walk -/

open Manager

/-- Where `check_and_handle` is: the nodes it has passed, those it has still to visit, and the
timers whose callbacks ran. -/
structure Walk (κ : Type) where
  passed : List (Node κ)
  ahead : List (Node κ)
  index : AList (fun _ : Nat => Nat)
  fresh : Nat
  ran : List (Timer κ)

namespace Walk

variable {w w' : Walk κ} {now : Nat}

/-- The manager and what ran, if the loop ends here. -/
def result (w : Walk κ) : Manager κ × List (Timer κ) :=
  (⟨w.passed ++ w.ahead, w.index, w.fresh⟩, w.ran)

/-- The rest of the loop. -/
def loop (now fuel : Nat) (w : Walk κ) : Manager κ × List (Timer κ) :=
  checkLoop now fuel w.passed w.ahead w.index w.fresh w.ran

/-- The loop ends here. -/
def Rests (now : Nat) (w : Walk κ) : Prop := ∀ n ∈ w.ahead.head?, now < n.timer.expiredTime

/-- The node of a timer that is put back. -/
def back (n : Node κ) (fresh : Nat) : Node κ := ⟨fresh, n.timer.run.1.expiredTime, n.timer.run.1⟩

/-- A turn of the loop: a timer that has no repetition left, and one that is put back behind the
iterator or before it. -/
inductive Turn (now : Nat) : Walk κ → Walk κ → Prop
  | last {passed ahead index fresh ran} {n : Node κ} :
      n.timer.expiredTime ≤ now → n.timer.run.1.repeatedTimes = 0 →
      Turn now ⟨passed, n :: ahead, index, fresh, ran⟩
        ⟨passed, ahead, index.erase n.timer.id, fresh,
          if n.timer.run.2 then ran ++ [n.timer] else ran⟩
  | behind {passed ahead index fresh ran} {n a : Node κ} :
      n.timer.expiredTime ≤ now → n.timer.run.1.repeatedTimes ≠ 0 →
      a ∈ ahead.head? → a.key ≤ (back n fresh).key →
      Turn now ⟨passed, n :: ahead, index, fresh, ran⟩
        ⟨passed, emplace (back n fresh) ahead,
          (index.erase n.timer.id).insert n.timer.id fresh, fresh + 1,
          if n.timer.run.2 then ran ++ [n.timer] else ran⟩
  | before {passed ahead index fresh ran} {n : Node κ} :
      n.timer.expiredTime ≤ now → n.timer.run.1.repeatedTimes ≠ 0 →
      (∀ a ∈ ahead.head?, (back n fresh).key < a.key) →
      Turn now ⟨passed, n :: ahead, index, fresh, ran⟩
        ⟨emplace (back n fresh) passed, ahead,
          (index.erase n.timer.id).insert n.timer.id fresh, fresh + 1,
          if n.timer.run.2 then ran ++ [n.timer] else ran⟩

theorem loop_of_rests (h : w.Rests now) (fuel : Nat) : w.loop now fuel = w.result := by
  obtain ⟨passed, ahead, index, fresh, ran⟩ := w
  cases fuel with
  | zero => rfl
  | succ fuel =>
    cases ahead with
    | nil => simp [loop, checkLoop, result]
    | cons n ahead =>
      have hlt : now < n.timer.expiredTime := h n rfl
      have hexp : n.timer.isExpired now = false := by simp [Timer.isExpired, hlt]
      simp [loop, checkLoop, result, hexp]

/-- The loop ends or takes a turn. -/
theorem rests_or_turn (now : Nat) (w : Walk κ) :
    w.Rests now ∨ ∃ w', Turn now w w' ∧ ∀ fuel, w.loop now (fuel + 1) = w'.loop now fuel := by
  obtain ⟨passed, ahead, index, fresh, ran⟩ := w
  cases ahead with
  | nil =>
    left
    intro n hn
    cases hn
  | cons n ahead =>
    by_cases hdue : n.timer.expiredTime ≤ now
    · right
      have hexp : n.timer.isExpired now = true := decide_eq_true hdue
      by_cases hlast : n.timer.run.1.repeatedTimes = 0
      · refine ⟨_, .last hdue hlast, fun fuel => ?_⟩
        simp [loop, checkLoop, hexp, hlast]
      · cases hhead : ahead.head? with
        | none =>
          refine ⟨_, .before hdue hlast (by simp [hhead]), fun fuel => ?_⟩
          simp [loop, checkLoop, hexp, hlast, hhead, back]
        | some a =>
          by_cases hle : a.key ≤ n.timer.run.1.expiredTime
          · refine ⟨_, .behind hdue hlast hhead hle, fun fuel => ?_⟩
            simp [loop, checkLoop, hexp, hlast, hhead, hle, back]
          · refine ⟨_, .before hdue hlast ?_, fun fuel => ?_⟩
            · intro b hb
              obtain rfl : a = b := Option.some.inj (hhead.symm.trans hb)
              exact Nat.lt_of_not_le hle
            · simp [loop, checkLoop, hexp, hlast, hhead, hle, back]
    · left
      intro a ha
      obtain rfl : n = a := Option.some.inj ha
      omega

/-! ## What a turn keeps -/

/-- What holds during a call: the manager is sound, and the timers that ran were due, in order, and
not later than what is still to come. -/
structure Good (now : Nat) (w : Walk κ) : Prop where
  sound : Sound w.result.1
  due : ∀ t ∈ w.ran, t.expiredTime ≤ now
  ordered : w.ran.Pairwise fun a b => a.expiredTime ≤ b.expiredTime
  before : ∀ t ∈ w.ran, ∀ n ∈ w.ahead, t.expiredTime ≤ n.key

theorem good_start {m : Manager κ} (h : Sound m) (now : Nat) :
    Good now ⟨[], m.queue, m.index, m.fresh, []⟩ :=
  ⟨h, by simp, List.Pairwise.nil, by simp⟩

section Parts

variable {passed ahead : List (Node κ)} {index : AList (fun _ : Nat => Nat)} {fresh : Nat}
  {ran : List (Timer κ)} {n : Node κ}

theorem Good.node_mem : n ∈ passed ++ n :: ahead := by simp

variable (h : Good now ⟨passed, n :: ahead, index, fresh, ran⟩)

include h

/-- The other nodes have other timers. -/
theorem Good.id_ne {x : Node κ} (hx : x ∈ passed ++ ahead) : x.timer.id ≠ n.timer.id := by
  intro hid
  have hxq : x ∈ passed ++ n :: ahead := by
    simp only [List.mem_append, List.mem_cons] at hx ⊢
    tauto
  obtain rfl := h.sound.toOk.eq_of_id hxq node_mem hid
  have hnodup := h.sound.handles.of_map
  simp only [result, List.nodup_append, List.nodup_cons] at hnodup
  rcases List.mem_append.mp hx with hx | hx
  · exact hnodup.2.2 x hx x List.mem_cons_self rfl
  · exact hnodup.2.1.1 hx

omit h in
theorem Good.sublist : (passed ++ ahead).Sublist (passed ++ n :: ahead) :=
  List.Sublist.append_left (List.sublist_cons_self n ahead) passed

/-- The manager while a callback runs. -/
theorem Good.removed : Sound ⟨passed ++ ahead, index.erase n.timer.id, fresh⟩ := by
  have hmem : ∀ x ∈ passed ++ n :: ahead, x ∈ passed ++ ahead ↔ x ≠ n := by
    intro x hx
    refine ⟨fun hx' hxn => h.id_ne hx' (by rw [hxn]), fun hxn => ?_⟩
    simp only [List.mem_append, List.mem_cons] at hx ⊢
    tauto
  exact ⟨h.sound.toOk.remove node_mem sublist hmem, h.sound.sorted.sublist sublist,
    fun x hx => h.sound.keys x (sublist.subset hx),
    fun x hx => h.sound.armed x (sublist.subset hx)⟩

/-- The timer is put back, where the queue stays in order. -/
theorem Good.putBack (hback : n.timer.run.1.repeatedTimes ≠ 0) {q : List (Node κ)}
    (hq : q.Perm (back n fresh :: (passed ++ ahead)))
    (hsorted : q.Pairwise fun a b => a.key ≤ b.key) :
    Sound ⟨q, (index.erase n.timer.id).insert n.timer.id fresh, fresh + 1⟩ := by
  refine ⟨h.removed.toOk.insert n.timer.run.1 _ hq fun x hx => h.id_ne hx, hsorted, ?_, ?_⟩
  · intro x hx
    rcases List.mem_cons.mp (hq.mem_iff.mp hx) with rfl | hx'
    · rfl
    · exact h.removed.keys x hx'
  · intro x hx
    rcases List.mem_cons.mp (hq.mem_iff.mp hx) with rfl | hx'
    · exact (h.sound.armed n node_mem).run hback
    · exact h.removed.armed x hx'

/-- A timer of the queue is run. -/
theorem Good.ran_eq : (if n.timer.run.2 then ran ++ [n.timer] else ran) = ran ++ [n.timer] :=
  if_pos (h.sound.armed n node_mem).called

theorem Good.key_eq : n.key = n.timer.expiredTime :=
  h.sound.keys n node_mem

/-- The nodes in front are the earliest. -/
theorem Good.key_le {x : Node κ} (hx : x ∈ ahead) : n.timer.expiredTime ≤ x.key := by
  have hsorted := (List.pairwise_append.mp h.sound.sorted).2.1
  rw [← h.key_eq]
  exact (List.pairwise_cons.mp hsorted).1 x hx

/-- What ran stays in order, if what is still to come is not earlier. -/
theorem Good.of_ran (hdue : n.timer.expiredTime ≤ now) {passed' ahead' : List (Node κ)}
    {index' : AList (fun _ : Nat => Nat)} {fresh' : Nat}
    (hsound : Sound ⟨passed' ++ ahead', index', fresh'⟩)
    (hahead : ∀ x ∈ ahead', n.timer.expiredTime ≤ x.key) :
    Good now ⟨passed', ahead', index', fresh', ran ++ [n.timer]⟩ := by
  have hran : ∀ t ∈ ran, t.expiredTime ≤ n.timer.expiredTime := fun t ht =>
    h.key_eq ▸ h.before t ht n List.mem_cons_self
  refine ⟨hsound, ?_, ?_, ?_⟩
  · exact List.forall_mem_append.mpr ⟨h.due, List.forall_mem_singleton.mpr hdue⟩
  · refine List.pairwise_append.mpr ⟨h.ordered, List.pairwise_singleton _ _, fun a ha b hb => ?_⟩
    rw [List.mem_singleton.mp hb]
    exact hran a ha
  · exact List.forall_mem_append.mpr
      ⟨fun t ht x hx => (hran t ht).trans (hahead x hx), List.forall_mem_singleton.mpr hahead⟩

end Parts

/-- **A turn keeps the manager sound and what ran in order.** -/
theorem Good.turn (hnow : now < uint64Max) (h : Good now w) (hturn : Turn now w w') :
    Good now w' := by
  cases hturn with
  | last hdue _ =>
    rw [h.ran_eq]
    exact h.of_ran hdue h.removed fun x hx => h.key_le hx
  | @behind passed ahead index fresh ran n a hdue hback hhead hle =>
    rw [h.ran_eq]
    have hsorted := List.pairwise_append.mp h.removed.sorted
    refine h.of_ran hdue (h.putBack hback ?_ ?_) fun x hx => ?_
    · exact ((emplace_perm _ ahead).append_left passed).trans List.perm_middle
    · refine List.pairwise_append.mpr ⟨hsorted.1, emplace_sorted _ hsorted.2.1, fun x hx y hy => ?_⟩
      have hxa := hsorted.2.2 x hx a (List.mem_of_mem_head? hhead)
      rcases mem_emplace.mp hy with rfl | hy
      · exact hxa.trans hle
      · exact hsorted.2.2 x hx y hy
    · rcases mem_emplace.mp hx with rfl | hx
      · have hlt := (h.sound.armed n node_mem).lt_run hback (by omega)
        exact Nat.le_of_lt hlt
      · exact h.key_le hx
  | @before passed ahead index fresh ran n hdue hback hhead =>
    rw [h.ran_eq]
    have hsorted := List.pairwise_append.mp h.removed.sorted
    refine h.of_ran hdue (h.putBack hback ?_ ?_) fun x hx => h.key_le hx
    · exact (emplace_perm _ passed).append_right ahead
    · refine List.pairwise_append.mpr ⟨emplace_sorted _ hsorted.1, hsorted.2.1, fun x hx y hy => ?_⟩
      rcases mem_emplace.mp hx with rfl | hx
      · -- the nodes ahead are not earlier than the first of them
        cases ahead with
        | nil => cases hy
        | cons a ahead =>
          have ha := hhead a rfl
          rcases List.mem_cons.mp hy with rfl | hy
          · exact Nat.le_of_lt ha
          · have := (List.pairwise_cons.mp hsorted.2.1).1 y hy
            omega
      · exact hsorted.2.2 x hx y hy

/-- What a turn does: a timer that is due runs, and comes back if it has repetitions left. -/
theorem Good.turn_spec (h : Good now w) (hturn : Turn now w w') :
    ∃ n ∈ w.ahead, n.timer.expiredTime ≤ now ∧ w'.ran = w.ran ++ [n.timer] ∧
      (∀ x ∈ w.ahead, x ≠ n → x ∈ w'.ahead) ∧
      ∀ x ∈ w'.result.1.queue, x ∈ w.result.1.queue ∧ x.timer.id ≠ n.timer.id ∨
        n.timer.run.1.repeatedTimes ≠ 0 ∧ x.timer = n.timer.run.1 := by
  cases hturn with
  | @last passed ahead index fresh ran n hdue _ =>
    refine ⟨n, List.mem_cons_self, hdue, h.ran_eq, fun x hx hne => ?_, fun x hx => .inl ?_⟩
    · exact (List.mem_cons.mp hx).resolve_left hne
    · exact ⟨sublist.subset hx, h.id_ne hx⟩
  | @behind passed ahead index fresh ran n a hdue hback _ _ =>
    refine ⟨n, List.mem_cons_self, hdue, h.ran_eq, fun x hx hne => ?_, fun x hx => ?_⟩
    · exact mem_emplace.mpr (.inr ((List.mem_cons.mp hx).resolve_left hne))
    · have hmem : x ∈ passed ++ ahead ∨ x = back n fresh := by
        simp only [result, List.mem_append, mem_emplace] at hx ⊢
        tauto
      rcases hmem with hx | rfl
      · exact .inl ⟨sublist.subset hx, h.id_ne hx⟩
      · exact .inr ⟨hback, rfl⟩
  | @before passed ahead index fresh ran n hdue hback _ =>
    refine ⟨n, List.mem_cons_self, hdue, h.ran_eq, fun x hx hne => ?_, fun x hx => ?_⟩
    · exact (List.mem_cons.mp hx).resolve_left hne
    · have hmem : x ∈ passed ++ ahead ∨ x = back n fresh := by
        simp only [result, List.mem_append, mem_emplace] at hx ⊢
        tauto
      rcases hmem with hx | rfl
      · exact .inl ⟨sublist.subset hx, h.id_ne hx⟩
      · exact .inr ⟨hback, rfl⟩

/-! ## The end of the walk -/

/-- The turns the walk has still to take, at most. -/
def turns (now : Nat) (w : Walk κ) : Nat := (w.ahead.map fun n => now + 2 - n.key).sum

theorem turns_lt (hnow : now < uint64Max) (h : Good now w) (hturn : Turn now w w') :
    w'.turns now < w.turns now := by
  cases hturn with
  | @last passed ahead index fresh ran n hdue _ =>
    have hkey := h.key_eq
    simp only [turns, List.map_cons, List.sum_cons]
    omega
  | @behind passed ahead index fresh ran n a hdue hback hhead hle =>
    have hkey := h.key_eq
    have hlt := (h.sound.armed n Good.node_mem).lt_run hback (by omega)
    have hsum := ((emplace_perm (back n fresh) ahead).map fun n => now + 2 - n.key).sum_eq
    simp only [turns, List.map_cons, List.sum_cons] at hsum ⊢
    rw [hsum]
    simp only [back]
    omega
  | @before passed ahead index fresh ran n hdue _ hhead =>
    have hkey := h.key_eq
    simp only [turns, List.map_cons, List.sum_cons]
    omega

/-- **The walk comes to an end**: with enough turns, the loop gives the result of a walk that
ends by itself. -/
theorem loop_rests (hnow : now < uint64Max) (h : Good now w) :
    ∃ w', Relation.ReflTransGen (Turn now) w w' ∧ w'.Rests now ∧ Good now w' ∧
      ∀ fuel, w.turns now ≤ fuel → w.loop now fuel = w'.result := by
  induction hk : w.turns now using Nat.strongRecOn generalizing w with
  | ind k ih =>
    rcases rests_or_turn now w with hrests | ⟨w₁, hturn, hloop⟩
    · exact ⟨w, .refl, hrests, h, fun fuel _ => loop_of_rests hrests fuel⟩
    · have hlt := turns_lt hnow h hturn
      obtain ⟨w', hreach, hrests, hgood, hend⟩ := ih _ (hk ▸ hlt) (h.turn hnow hturn) rfl
      refine ⟨w', .head hturn hreach, hrests, hgood, fun fuel hfuel => ?_⟩
      obtain ⟨fuel, rfl⟩ := Nat.exists_eq_succ_of_ne_zero (n := fuel) (by omega)
      rw [hloop, hend fuel (by omega)]

end Walk

namespace Manager

variable {m : Manager κ} {now : Nat}

/-- A call is a walk that comes to an end. -/
theorem checkAndHandle_walk (hnow : now < uint64Max) (h : Sound m) :
    ∃ w', Relation.ReflTransGen (Walk.Turn now) ⟨[], m.queue, m.index, m.fresh, []⟩ w' ∧
      w'.Rests now ∧ w'.Good now ∧ m.checkAndHandle now = w'.result := by
  obtain ⟨w', hreach, hrests, hgood, hend⟩ := Walk.loop_rests hnow (Walk.good_start h now)
  exact ⟨w', hreach, hrests, hgood, hend _ (Nat.le_refl _)⟩

/-- **`check_and_handle` terminates**: more turns than `turns` change nothing. -/
theorem checkLoop_enough (hnow : now < uint64Max) (h : Sound m) {fuel : Nat}
    (hfuel : m.turns now ≤ fuel) :
    checkLoop now fuel [] m.queue m.index m.fresh [] = m.checkAndHandle now := by
  obtain ⟨w', -, -, -, hend⟩ := Walk.loop_rests hnow (Walk.good_start h now)
  exact (hend fuel hfuel).trans (hend _ (Nat.le_refl _)).symm

/-- Timers fire in the order of their expiries. -/
theorem checkAndHandle_ordered (hnow : now < uint64Max) (h : Sound m) :
    (m.checkAndHandle now).2.Pairwise fun a b => a.expiredTime ≤ b.expiredTime := by
  obtain ⟨w', -, -, hgood, heq⟩ := checkAndHandle_walk hnow h
  rw [heq]
  exact hgood.ordered

/-- No timer fires early. -/
theorem checkAndHandle_due (hnow : now < uint64Max) (h : Sound m) :
    ∀ t ∈ (m.checkAndHandle now).2, t.expiredTime ≤ now := by
  obtain ⟨w', -, -, hgood, heq⟩ := checkAndHandle_walk hnow h
  rw [heq]
  exact hgood.due

end Manager

/-! ## Timers that are due once -/

/-- The timer does not come due a second time by `now`. -/
def Timer.DueOnce (now : Nat) (t : Timer κ) : Prop :=
  t.repeatedTimes = 1 ∨ now < Timer.after t.expiredTime t.interval

instance (now : Nat) (t : Timer κ) : Decidable (t.DueOnce now) :=
  inferInstanceAs (Decidable (_ ∨ _))

namespace Walk

variable {w w' : Walk κ} {now : Nat} {t : Timer κ}

/-- The timer has not run yet, or it has run once and is not due again. -/
inductive Settles (now : Nat) (t : Timer κ) (w : Walk κ) : Prop
  | waiting {n : Node κ} : n ∈ w.ahead → n.timer = t → (∀ r ∈ w.ran, r.id ≠ t.id) → Settles now t w
  | fired : t.expiredTime ≤ now → w.ran.filter (fun r => r.id = t.id) = [t] →
      (∀ n ∈ w.passed ++ w.ahead, n.timer.id = t.id → now < n.timer.expiredTime) → Settles now t w

/-- A turn of a walk with a timer that is not due twice. -/
theorem Settles.turn (ht : t.DueOnce now) (hgood : Good now w) (h : Settles now t w)
    (hturn : Turn now w w') : Settles now t w' := by
  obtain ⟨n, hn, hdue, hran, hkeep, hleft⟩ := hgood.turn_spec hturn
  have hnq : n ∈ w.result.1.queue := List.mem_append_right _ hn
  by_cases hid : n.timer.id = t.id
  · cases h with
    | @waiting x hx hxt hno =>
      -- the timer of the turn is `t`
      obtain rfl : n = x :=
        hgood.sound.toOk.eq_of_id hnq (List.mem_append_right _ hx) (hid.trans (by rw [hxt]))
      obtain rfl := hxt
      refine .fired hdue ?_ fun y hy hyid => ?_
      · have hnone : w.ran.filter (fun r => r.id = n.timer.id) = [] := by
          simpa [List.filter_eq_nil_iff] using hno
        rw [hran, List.filter_append, hnone]
        simp
      · rcases hleft y hy with ⟨-, hne⟩ | ⟨hback, hy⟩
        · exact absurd hyid hne
        · rw [hy, Timer.run_expiredTime hback]
          have harmed := hgood.sound.armed n hnq
          exact ht.resolve_left fun h1 => hback (harmed.run_repeats.mpr h1)
    | fired _ _ hnot => exact absurd hdue (Nat.not_le.mpr (hnot n hnq hid))
  · cases h with
    | @waiting x hx hxt hno =>
      refine .waiting (hkeep x hx fun hxn => hid (by rw [← hxn, hxt])) hxt ?_
      rw [hran]
      exact List.forall_mem_append.mpr ⟨hno, List.forall_mem_singleton.mpr hid⟩
    | fired htdue hone hnot =>
      refine .fired htdue ?_ fun y hy hyid => ?_
      · have hnone : [n.timer].filter (fun r => r.id = t.id) = [] := by simp [hid]
        rw [hran, List.filter_append, hone, hnone, List.append_nil]
      · rcases hleft y hy with ⟨hy, -⟩ | ⟨-, hy⟩
        · exact hnot y hy hyid
        · exact absurd (by rw [← hyid, hy, Timer.run_id]) hid

/-- The same along a walk. -/
theorem Settles.walk (hnow : now < uint64Max) (ht : t.DueOnce now) (hgood : Good now w)
    (h : Settles now t w) (hreach : Relation.ReflTransGen (Turn now) w w') : Settles now t w' := by
  have hboth : Good now w' ∧ Settles now t w' := by
    induction hreach with
    | refl => exact ⟨hgood, h⟩
    | tail _ hturn ih => exact ⟨ih.1.turn hnow hturn, ih.2.turn ht ih.1 hturn⟩
  exact hboth.2

/-- Where the walk ends, nothing ahead is due. -/
theorem Rests.not_due (hrests : w.Rests now) (hgood : Good now w) {n : Node κ} (hn : n ∈ w.ahead) :
    now < n.timer.expiredTime := by
  obtain ⟨passed, ahead, index, fresh, ran⟩ := w
  cases ahead with
  | nil => cases hn
  | cons a ahead =>
    have ha : now < a.timer.expiredTime := hrests a rfl
    rcases List.mem_cons.mp hn with rfl | hn
    · exact ha
    · have hkey : n.key = n.timer.expiredTime :=
        hgood.sound.keys n (List.mem_append_right _ (List.mem_cons_of_mem a hn))
      have := hgood.key_le hn
      omega

end Walk

namespace Manager

variable {m : Manager κ} {now : Nat}

/-- The firings of a timer in a call. -/
def firings (now : Nat) (m : Manager κ) (t : Timer κ) : Nat :=
  ((m.checkAndHandle now).2.filter fun r => r.id = t.id).length

/-- A timer that is not due twice fires once if it is due, and is not due after the call. -/
theorem firings_of_dueOnce (hnow : now < uint64Max) (h : Sound m) {n : Node κ} (hn : n ∈ m.queue)
    (ht : n.timer.DueOnce now) :
    m.firings now n.timer = (if n.timer.expiredTime ≤ now then 1 else 0) ∧
      ∀ x ∈ (m.checkAndHandle now).1.queue, x.timer.id = n.timer.id →
        now < x.timer.expiredTime := by
  obtain ⟨w', hreach, hrests, hgood, heq⟩ := checkAndHandle_walk hnow h
  have hstart : Walk.Settles now n.timer ⟨[], m.queue, m.index, m.fresh, []⟩ :=
    .waiting hn rfl (by simp)
  rw [firings, heq]
  cases hstart.walk hnow ht (Walk.good_start h now) hreach with
  | @waiting x hx hxt hran =>
    have hlt := hrests.not_due hgood hx
    have hnone : w'.ran.filter (fun r => r.id = n.timer.id) = [] := by
      simpa [List.filter_eq_nil_iff] using hran
    refine ⟨?_, fun y hy hid => ?_⟩
    · rw [hxt] at hlt
      simp [Walk.result, hnone, Nat.not_le.mpr hlt]
    · obtain rfl : y = x := hgood.sound.toOk.eq_of_id hy (List.mem_append_right _ hx)
        (by rw [hid, hxt])
      exact hlt
  | fired hdue hran hleft =>
    refine ⟨?_, fun y hy hid => hleft y hy hid⟩
    simp [Walk.result, hran, hdue]

/-- A timer that is alone in the queue and due twice fires once and stays due. -/
theorem checkAndHandle_alone {t : Timer κ} (hdue : t.expiredTime ≤ now)
    (hback : t.run.1.repeatedTimes ≠ 0) {fresh : Nat} {index : AList (fun _ : Nat => Nat)} :
    (checkAndHandle now ⟨[⟨fresh, t.expiredTime, t⟩], index, fresh + 1⟩).1.queue =
      [⟨fresh + 1, t.run.1.expiredTime, t.run.1⟩] := by
  have hexp : t.isExpired now = true := decide_eq_true hdue
  have hturns : turns now ⟨[⟨fresh, t.expiredTime, t⟩], index, fresh + 1⟩ =
      now - t.expiredTime + 2 := by
    simp only [turns, List.map_cons, List.map_nil, List.sum_cons, List.sum_nil]
    omega
  rw [checkAndHandle, hturns]
  simp [checkLoop, hexp, hback, emplace]

/-- Whatever timers of `T` are queued, after the call none of them is due, and how often one
fired depends on that timer and on `now` alone. -/
def FiresAllDue (now : Nat) (T : Set (Timer κ)) : Prop :=
  ∃ count : Timer κ → Nat, ∀ m : Manager κ, Sound m → (∀ n ∈ m.queue, n.timer ∈ T) →
    (∀ n ∈ (m.checkAndHandle now).1.queue, now < n.timer.expiredTime) ∧
      ∀ n ∈ m.queue, m.firings now n.timer = count n.timer

/-- A timer that is due twice does not fire twice if it is alone. -/
theorem FiresAllDue.dueOnce {T : Set (Timer κ)} (h : FiresAllDue now T) {t : Timer κ} (ht : t ∈ T)
    (harmed : t.Armed) : t.DueOnce now := by
  obtain ⟨count, hcount⟩ := h
  by_contra honce
  simp only [Timer.DueOnce, not_or, not_lt] at honce
  obtain ⟨hrep, hagain⟩ := honce
  have hback : t.run.1.repeatedTimes ≠ 0 := fun h0 => hrep (harmed.run_repeats.mp h0)
  have hdue : t.expiredTime ≤ now := (Timer.le_after t.interval harmed.expiry).trans hagain
  let m : Manager κ := ⟨[⟨0, t.expiredTime, t⟩], AList.insert t.id 0 ∅, 0 + 1⟩
  have hm : Sound m := by
    refine ⟨Ok.empty.insert t _ (.refl _) (by simp), List.pairwise_singleton _ _, ?_, ?_⟩
    · exact List.forall_mem_singleton.mpr rfl
    · exact List.forall_mem_singleton.mpr harmed
  have hleft := (hcount m hm (List.forall_mem_singleton.mpr ht)).1
  rw [checkAndHandle_alone hdue hback, List.forall_mem_singleton, Timer.run_expiredTime hback]
    at hleft
  omega

/-- **All due timers fire** exactly where no timer is due twice. -/
theorem firesAllDue_iff (hnow : now < uint64Max) (T : Set (Timer κ)) :
    FiresAllDue now T ↔ ∀ t ∈ T, t.Armed → t.DueOnce now := by
  refine ⟨fun h t ht harmed => h.dueOnce ht harmed, fun h => ?_⟩
  refine ⟨fun t => if t.expiredTime ≤ now then 1 else 0, fun m hm hT => ⟨fun x hx => ?_, ?_⟩⟩
  · have htag : x.timer.tag ∈ m.tags :=
      (checkAndHandle_spec hm.toOk now).2.1 _ (List.mem_map_of_mem hx)
    obtain ⟨n, hn, hid, -⟩ := mem_tags.mp htag
    have hspec := firings_of_dueOnce hnow hm hn (h n.timer (hT n hn) (hm.armed n hn))
    exact hspec.2 x hx hid.symm
  · intro n hn
    exact (firings_of_dueOnce hnow hm hn (h n.timer (hT n hn) (hm.armed n hn))).1

/-- A timer for the fifth second and each second behind it. -/
def everySecond : Timer Unit := ⟨1, 5, Timer.repeatInfinite, 1, ()⟩

theorem firesAllDue_everySecond : FiresAllDue 5 {everySecond} :=
  (firesAllDue_iff (by decide) {everySecond}).mpr fun t ht _ => by
    rw [Set.mem_singleton_iff.mp ht]
    decide

/-- In the tenth second the timer fires once and stays in the queue with an expiry that is past;
with a second timer in the queue it fires twice. -/
theorem not_firesAllDue :
    ¬ FiresAllDue 10 (Set.univ : Set (Timer Unit)) ∧
      (let m := (({} : Manager Unit).add everySecond).1
       m.firings 10 everySecond = 1 ∧
         (m.checkAndHandle 10).1.queue.map (·.timer.expiredTime) = [6]) ∧
      (let m := ((({} : Manager Unit).add everySecond).1.add ⟨2, 6, 1, 1, ()⟩).1
       m.firings 10 everySecond = 2) := by
  refine ⟨fun h => ?_, by decide, by decide⟩
  have honce := h.dueOnce (Set.mem_univ everySecond) ⟨.inl rfl, by decide, by decide⟩
  exact absurd honce (by decide)

end Manager

end Avant.Timers
