import Avant.App.OtherApp
import Avant.Lib.Machine

/-!
# Two processes that dial each other

Every process dials each of its configured peers and accepts what dials it, so two processes share
two connections. On each, the accepting side sends its app id at once, the dialling side answers
with its own, and a side that reads an app id binds it to the connection, unless the app id or the
connection is bound already. A package for a peer goes out on the connection the peer's app id
is bound to, and is dropped at the other end if that connection is not bound **there**.

`System` is the two processes of `OtherApp.lean` with a FIFO queue per connection and direction;
connections do not close. `Abs` is the handshake without gids and packages: how far each
connection is and which connection each side is bound to. `Sim` connects the two.

The sides can bind different connections: each may read the first app id on the connection it
dialled itself. They agree when a side that is not bound yet reads the greeting on its own
connection only while the other side is not bound either (`TakesTurns`).

Results:
* `Abs.Ok.greet`, `Abs.Ok.answer`: the handshake keeps the two sides in agreement (`Abs.Ok`);
* `sim_step`: the processes follow it;
* **`sent_received`**: in every run whose greetings take turns, the packages sent once the
  handshakes are through are received as coming from their sender, in order, or still on their
  way.
-/

namespace Avant.App

open Avant.Lib

/-- One of the two processes; also the connection it dialled. -/
inductive Side
  | a
  | b
  deriving DecidableEq

namespace Side

/-- The other process. -/
def peer : Side → Side
  | a => b
  | b => a

@[simp] theorem peer_peer : ∀ x : Side, x.peer.peer = x
  | a | b => rfl

@[simp] theorem peer_ne : ∀ x : Side, x.peer ≠ x
  | a | b => by simp [peer]

@[simp] theorem ne_peer (x : Side) : x ≠ x.peer := (peer_ne x).symm

theorem eq_or_eq_peer : ∀ x y : Side, x = y ∨ x = y.peer
  | a, a | b, b => .inl rfl
  | a, b | b, a => .inr rfl

end Side

/-! ## The handshake -/

/-- How far a connection is. -/
inductive Phase
  | absent
  /-- dialled, not accepted -/
  | dialled
  /-- the accepting side's app id is on its way -/
  | greeting
  /-- the dialling side's answer is on its way -/
  | answered
  | done
  deriving DecidableEq

/-- The two connections and what each side is bound to. -/
structure Abs where
  phase : Side → Phase := fun _ => .absent
  bound : Side → Option Side := fun _ => none

namespace Abs

/-- The connection is up to the dialling side's answer. -/
def Answered (h : Abs) (d : Side) : Prop := h.phase d = .answered ∨ h.phase d = .done

/-- The two sides are in agreement. A side is bound as soon as it has read an app id; on the
connection of its peer only when the peer is bound to it, too. -/
structure Ok (h : Abs) : Prop where
  dialler : ∀ d, h.Answered d → h.bound d ≠ none
  acceptor : ∀ d, h.phase d = .done → h.bound d.peer ≠ none
  own : ∀ d, h.bound d = some d → h.Answered d
  accepted : ∀ d, h.bound d.peer = some d → h.phase d = .done ∧ h.bound d = some d
  agree : ∀ x c c', h.bound x = some c → h.bound x.peer = some c' → c = c'

/-- The connection dialled by `d` moves on. -/
def move (h : Abs) (d : Side) (p : Phase) : Abs := { h with phase := Function.update h.phase d p }

/-- Side `x` reads an app id on connection `d`. -/
def bind (h : Abs) (x d : Side) : Abs :=
  { h with bound := Function.update h.bound x (some ((h.bound x).getD d)) }

variable {h : Abs} {d : Side}

theorem ok_init : Ok {} :=
  ⟨fun _ h => absurd h (by simp [Answered]), fun _ h => absurd h (by simp),
    fun _ h => absurd h (by simp), fun _ h => absurd h (by simp), fun _ _ _ h => absurd h (by simp)⟩

@[simp] theorem move_phase_self (p : Phase) : (h.move d p).phase d = p := by simp [move]

theorem move_phase_ne {p : Phase} {e : Side} (he : e ≠ d) : (h.move d p).phase e = h.phase e := by
  simp [move, he]

/-- A connection moves on and nobody is bound by it. -/
theorem Ok.move (hok : Ok h) {p : Phase} (hdialler : (h.move d p).Answered d → h.bound d ≠ none)
    (hacceptor : p = .done → h.bound d.peer ≠ none)
    (hown : h.bound d = some d → (h.move d p).Answered d)
    (haccepted : h.bound d.peer = some d → p = .done) : Ok (h.move d p) := by
  refine ⟨fun e he => ?_, fun e he => ?_, fun e he => ?_, fun e he => ?_, hok.agree⟩ <;>
    by_cases hed : e = d
  · subst hed
    exact hdialler he
  · rw [Answered, move_phase_ne hed] at he
    exact hok.dialler e he
  · subst hed
    exact hacceptor (by rwa [move_phase_self] at he)
  · rw [move_phase_ne hed] at he
    exact hok.acceptor e he
  · subst hed
    exact hown he
  · rw [Answered, move_phase_ne hed]
    exact hok.own e he
  · subst hed
    rw [move_phase_self]
    exact ⟨haccepted he, (hok.accepted e he).2⟩
  · rw [move_phase_ne hed]
    exact hok.accepted e he

/-- Up to the greeting nobody is bound to the connection, so nothing about it is at stake. -/
theorem Ok.early (hok : Ok h) {p : Phase} (hd : ¬ h.Answered d) (hp : p ≠ .answered ∧ p ≠ .done) :
    Ok (h.move d p) := by
  refine hok.move (fun he => ?_) (fun he => absurd he hp.2) (fun hb => absurd (hok.own d hb) hd)
    fun hb => absurd (.inr (hok.accepted d hb).1) hd
  rw [Answered, move_phase_self] at he
  exact absurd he (not_or.mpr hp)

/-- Only connection `d` is answered: it is the one that binds. -/
theorem Ok.of_first (hd : h.Answered d) (hpeer : ¬ h.Answered d.peer) (hown : h.bound d = some d)
    (hother : h.bound d.peer = if h.phase d = .done then some d else none) : Ok h := by
  have hall : ∀ e, h.Answered e → e = d := by
    intro e he
    obtain rfl | rfl := Side.eq_or_eq_peer e d
    · rfl
    · exact absurd he hpeer
  have hbound : ∀ e c, h.bound e = some c → c = d := by
    intro e c hc
    obtain rfl | rfl := Side.eq_or_eq_peer e d
    · rw [hown] at hc
      exact (Option.some.inj hc).symm
    · rw [hother] at hc
      split_ifs at hc
      exact (Option.some.inj hc).symm
  refine ⟨fun e he => ?_, fun e he => ?_, fun e he => ?_, fun e he => ?_, fun x c c' hc hc' => ?_⟩
  · obtain rfl := hall e he
    simp [hown]
  · obtain rfl := hall e (.inr he)
    simp [hother, he]
  · obtain rfl := hbound e e he
    exact hd
  · obtain rfl := hbound _ e he
    rw [hother] at he
    split_ifs at he with hdone
    exact ⟨hdone, hown⟩
  · rw [hbound x c hc, hbound _ c' hc']

@[simp] theorem bind_phase (x : Side) : (h.bind x d).phase = h.phase := rfl

@[simp] theorem bind_bound_self (x : Side) :
    (h.bind x d).bound x = some ((h.bound x).getD d) := by simp [bind]

theorem bind_bound_ne {x y : Side} (hy : y ≠ x) : (h.bind x d).bound y = h.bound y := by
  simp [bind, hy]

theorem bind_bound_mono {x y c : Side} (hy : h.bound y = some c) : (h.bind x d).bound y = some c := by
  by_cases hyx : y = x
  · subst hyx
    rw [bind_bound_self, hy, Option.getD_some]
  · rw [bind_bound_ne hyx, hy]

/-- Only the first app id a side reads binds it. -/
theorem bind_of_bound {x c : Side} (hx : h.bound x = some c) : h.bind x d = h := by
  have : Function.update h.bound x (some ((h.bound x).getD d)) = h.bound := by
    rw [hx, Option.getD_some, ← hx, Function.update_eq_self]
  rw [bind, this]

/-- **The dialling side reads the greeting.** If it is not bound yet, the other side must not be. -/
theorem Ok.greet (hok : Ok h) (hd : h.phase d = .greeting)
    (hturn : h.bound d = none → h.bound d.peer = none) : Ok ((h.move d .answered).bind d d) := by
  cases hb : h.bound d with
  | some c =>
    rw [bind_of_bound (show (h.move d .answered).bound d = some c from hb)]
    refine hok.move (fun _ => by simp [hb]) (fun he => by simp at he)
      (fun _ => .inl (move_phase_self _)) fun hc => ?_
    exact absurd (hd.symm.trans (hok.accepted d hc).1) (by simp)
  | none =>
    have hpeer := hturn hb
    refine Ok.of_first (d := d) (.inl (move_phase_self _)) (fun hc => ?_) ?_ ?_
    · -- nobody was bound, so the peer's connection is not answered either
      rw [Answered, bind_phase, move_phase_ne (Side.peer_ne d)] at hc
      exact hok.dialler _ hc hpeer
    · rw [bind_bound_self, show (h.move d .answered).bound d = none from hb, Option.getD_none]
    · rw [bind_bound_ne (Side.peer_ne d), bind_phase, move_phase_self, if_neg (by simp)]
      exact hpeer

/-- **The accepting side reads the answer.** -/
theorem Ok.answer (hok : Ok h) (hd : h.phase d = .answered) :
    Ok ((h.move d .done).bind d.peer d) := by
  have hown := hok.dialler d (.inl hd)
  cases hb : h.bound d.peer with
  | some c =>
    rw [bind_of_bound (show (h.move d .done).bound d.peer = some c from hb)]
    exact hok.move (fun _ => hown) (fun _ => by simp [hb]) (fun _ => .inr (move_phase_self _))
      fun _ => rfl
  | none =>
    refine Ok.of_first (d := d) (.inr (move_phase_self _)) (fun hc => ?_) ?_ ?_
    · rw [Answered, bind_phase, move_phase_ne (Side.peer_ne d)] at hc
      exact hok.dialler _ hc hb
    · -- the dialling side is bound, and not to a connection its peer would be bound to
      rw [bind_bound_ne (Side.ne_peer d)]
      obtain ⟨c, hc⟩ := Option.ne_none_iff_exists'.mp hown
      obtain rfl | rfl := Side.eq_or_eq_peer c d
      · exact hc
      · have := (hok.accepted d.peer (by rwa [Side.peer_peer])).2
        exact absurd (this.symm.trans hb) (by simp)
    · rw [bind_bound_self, show (h.move d .done).bound d.peer = none from hb, Option.getD_none,
        bind_phase, move_phase_self, if_pos rfl]

end Abs

/-! ## The two processes -/

/-- The packages that are not handshakes. -/
def messages {π : Type} (q : List (IpcPackage π)) : List π :=
  q.filterMap fun
    | .message p => some p
    | .handshake _ => none

/-- A value for each process and each connection, changed at one place. -/
def set2 {α : Type} (f : Side → Side → α) (x d : Side) (v : α) : Side → Side → α :=
  Function.update f x (Function.update (f x) d v)

/-- Two processes and their two connections. -/
structure System (π : Type) where
  proc : Side → Other
  /-- the gid of connection `d` in process `x` -/
  gidAt : Side → Side → Option Gid := fun _ _ => none
  /-- the packages on their way to process `x` on connection `d` -/
  queue : Side → Side → List (IpcPackage π) := fun _ _ => []
  /-- what became of the packages each process has read -/
  log : Side → List (IpcOutcome π) := fun _ => []
  /-- the packages each process has sent to the other since the handshakes were through -/
  sent : Side → List π := fun _ => []

/-- What happens next. -/
inductive IpcLabel (π : Type)
  /-- process `d` dials the other, and the connection gets `gid` there -/
  | dial (d : Side) (gid : Gid)
  /-- the other process accepts connection `d`, which gets `gid` there -/
  | accept (d : Side) (gid : Gid)
  /-- process `x` reads the next package of connection `d` -/
  | take (x d : Side)
  /-- process `x` sends a package to the other's app id -/
  | send (x : Side) (p : π)

namespace System

variable {π : Type}

/-- The processes before they dial. -/
def init (id : Side → AppId) : System π := { proc := fun x => { appId := id x } }

/-- Packages are put on the way to process `x` on connection `d`. -/
def push (s : System π) (x d : Side) (ps : List (IpcPackage π)) : System π :=
  { s with queue := set2 s.queue x d (s.queue x d ++ ps) }

/-- Connection `d` is accepted, and no handshake is on its way. -/
def throughOn (s : System π) (d : Side) : Bool :=
  (s.gidAt d d).isSome && (s.gidAt d.peer d).isSome &&
    (s.queue d d).length = (messages (s.queue d d)).length &&
    (s.queue d.peer d).length = (messages (s.queue d.peer d)).length

/-- All handshake packages have been processed. -/
def through (s : System π) : Bool := s.throughOn .a && s.throughOn .b

/-- The package counts as sent if the handshakes are through. -/
def noteSent (s : System π) (x : Side) (p : π) : System π :=
  { s with sent := if s.through then Function.update s.sent x (s.sent x ++ [p]) else s.sent }

/-- One step. Gids are not used twice in a process. -/
def step (s : System π) : IpcLabel π → Option (System π)
  | .dial d gid =>
    if s.gidAt d d = none ∧ s.gidAt d d.peer ≠ some gid then
      ((s.proc d).ipcClientToConnect (s.proc d.peer).appId gid).map fun p =>
        { s with proc := Function.update s.proc d p, gidAt := set2 s.gidAt d d (some gid) }
    else none
  | .accept d gid =>
    if s.gidAt d d ≠ none ∧ s.gidAt d.peer d = none ∧ s.gidAt d.peer d.peer ≠ some gid then
      let r := (s.proc d.peer).onNewIpcClientFd gid
      some ({ s with
        proc := Function.update s.proc d.peer r.1
        gidAt := set2 s.gidAt d.peer d (some gid) }.push d d r.2)
    else none
  | .take x d =>
    match s.gidAt x d, s.queue x d with
    | some gid, pkg :: rest =>
      let r := (s.proc x).onRecvPackage gid pkg
      some ({ s with
        proc := Function.update s.proc x r.1
        queue := set2 s.queue x d rest
        log := Function.update s.log x (s.log x ++ [r.2.2]) }.push x.peer d r.2.1)
    | _, _ => none
  | .send x p =>
    match (s.proc x).otherLuaSendIpcPackage (s.proc x.peer).appId with
    | none => some (s.noteSent x p)
    | some gid =>
      if s.gidAt x x = some gid then some ((s.noteSent x p).push x.peer x [.message p])
      else if s.gidAt x x.peer = some gid then
        some ((s.noteSent x p).push x.peer x.peer [.message p])
      else some (s.noteSent x p)

/-- The packages a log has received as coming from `sender`. -/
def receivedFrom (sender : AppId) (log : List (IpcOutcome π)) : List π :=
  log.filterMap fun
    | .received from' p => if from' = sender then some p else none
    | .handshake | .unauthenticated _ => none

/-- What process `x` received as coming from the other. -/
def heard (s : System π) (x : Side) : List π := receivedFrom (s.proc x.peer).appId (s.log x)

/-- The packages of process `x` on their way to the other. -/
def onTheWay (s : System π) (x : Side) : List π :=
  messages (s.queue x.peer x) ++ messages (s.queue x.peer x.peer)

/-- Of the packages `x` has sent since the handshakes were through, none is lost: the other side
has received them as coming from `x`, in order, or they are on their way. -/
def Heard (s : System π) (x : Side) : Prop := s.sent x <:+ s.heard x.peer ++ s.onTheWay x

/-- A side that has no connection for the other reads the greeting on the connection it dialled
only while the other side has none for it. -/
def TakesTurns (s : System π) : IpcLabel π → Prop
  | .take x d => x = d → (s.queue x d).head? = some (s.proc x.peer).whoami →
    (s.proc x).appid2gid (s.proc x.peer).appId = none →
      (s.proc x.peer).appid2gid (s.proc x).appId = none
  | _ => True

instance (s : System π) [DecidableEq π] (x : Side) : Decidable (s.Heard x) :=
  inferInstanceAs (Decidable (_ <:+ _))

instance (s : System π) [DecidableEq π] : ∀ i, Decidable (s.TakesTurns i)
  | .take _ _ => inferInstanceAs (Decidable (_ → _ → _ → _))
  | .dial _ _ | .accept _ _ | .send _ _ => isTrue trivial

/-! ## The processes follow the handshake -/

section Set2

variable {α : Type} {f : Side → Side → α} {x d : Side} {v : α}

@[simp] theorem set2_self : set2 f x d v x d = v := by simp [set2]

theorem set2_of_ne {y e : Side} (h : ¬ (y = x ∧ e = d)) : set2 f x d v y e = f y e := by
  unfold set2
  by_cases hy : y = x
  · subst hy
    rw [Function.update_self, Function.update_of_ne fun he => h ⟨rfl, he⟩]
  · rw [Function.update_of_ne hy]

theorem set2_row_self : set2 f x d v x = Function.update (f x) d v := by simp [set2]

theorem set2_row_ne {y : Side} (h : y ≠ x) : set2 f x d v y = f y := by simp [set2, h]

end Set2

variable {d x : Side}

@[simp] theorem messages_append (q r : List (IpcPackage π)) :
    messages (q ++ r) = messages q ++ messages r := by
  simp [messages]

@[simp] theorem messages_map (ps : List π) : messages (ps.map .message) = ps := by
  simp [messages]

@[simp] theorem push_queue (s : System π) (x d : Side) (ps : List (IpcPackage π)) :
    (s.push x d ps).queue = set2 s.queue x d (s.queue x d ++ ps) := rfl

@[simp] theorem push_nil (s : System π) (x d : Side) : s.push x d [] = s := by
  simp [push, set2]

/-- Handshakes do not count as messages. -/
theorem messages_push {s : System π} {ps : List (IpcPackage π)} (hps : messages ps = [])
    (y e : Side) : messages ((s.push x d ps).queue y e) = messages (s.queue y e) := by
  rw [push_queue]
  by_cases hc : y = x ∧ e = d
  · obtain ⟨rfl, rfl⟩ := hc
    rw [set2_self, messages_append, hps, List.append_nil]
  · rw [set2_of_ne hc]

/-- The handshake on its way to `x` on connection `d`, from the phase of the connection. -/
def inTransit (id : Side → AppId) (h : Abs) (x d : Side) : List (IpcPackage π) :=
  if h.phase d = (if x = d then .greeting else .answered) then [.handshake (some (id x.peer))]
  else []

@[simp] theorem messages_inTransit (id : Side → AppId) (h : Abs) (x d : Side) :
    messages (inTransit id h x d : List (IpcPackage π)) = [] := by
  unfold inTransit
  split <;> simp [messages]

/-- Process `x` has an end of connection `d`. -/
def Has (h : Abs) (x d : Side) : Prop :=
  h.phase d ≠ .absent ∧ (x ≠ d → h.phase d ≠ .dialled)

/-- The maps of process `x` say what `h` says of it. -/
structure ProcSim (id : Side → AppId) (h : Abs) (gidAt : Side → Option Gid) (x : Side)
    (o : Other) : Prop where
  appId : o.appId = id x
  bound : o.appid2gid (id x.peer) = (h.bound x).bind gidAt
  boundTo : ∀ d gid, gidAt d = some gid →
    o.gid2appid gid = if h.bound x = some d then some (id x.peer) else none
  dialled : ∀ d gid, gidAt d = some gid → o.isThis2remote gid = decide (d = x)
  fresh : ∀ gid, (∀ d, gidAt d ≠ some gid) →
    o.gid2appid gid = none ∧ o.isThis2remote gid = false
  target : o.this2remoteAppid2gid (id x.peer) = gidAt x
  live : ∀ d gid, gidAt d = some gid → o.live gid = true

/-- The system `s` is where the handshake `h` is. -/
structure Sim (id : Side → AppId) (s : System π) (h : Abs) : Prop where
  ok : h.Ok
  proc : ∀ x, ProcSim id h (s.gidAt x) x (s.proc x)
  has : ∀ x d, s.gidAt x d ≠ none ↔ Has h x d
  gid_ne : ∀ x gid, s.gidAt x x = some gid → s.gidAt x x.peer ≠ some gid
  queue : ∀ x d, ∃ ps : List π, s.queue x d = inTransit id h x d ++ ps.map .message ∧
    (ps ≠ [] → h.bound x.peer = some d)
  heard : ∀ x, s.Heard x
  early : (∃ d, h.phase d ≠ .done) → ∀ x, s.sent x = []

/-- The system is where some handshake in agreement is. -/
def Agrees (id : Side → AppId) (s : System π) : Prop := ∃ h, Sim id s h

theorem sim_init (id : Side → AppId) : Sim id (init id : System π) {} :=
  ⟨Abs.ok_init,
    fun x => ⟨rfl, rfl, fun _ _ h => absurd h (by simp [init]), fun _ _ h => absurd h (by simp [init]),
      fun _ _ => ⟨rfl, rfl⟩, rfl, fun _ _ h => absurd h (by simp [init])⟩,
    fun x d => by simp [init, Has], fun _ _ h => absurd h (by simp [init]),
    fun x d => ⟨[], by simp [init, inTransit]; split <;> simp, fun h => absurd rfl h⟩,
    fun x => by simp [Heard, init], fun _ _ => rfl⟩

theorem has_of_bound {h : Abs} (hok : h.Ok) (hb : h.bound x = some d) : Has h x d := by
  obtain rfl | rfl := Side.eq_or_eq_peer x d
  · have := hok.own x hb
    refine ⟨?_, fun hne => absurd rfl hne⟩
    rcases this with h | h <;> simp [h]
  · have := (hok.accepted d hb).1
    simp [Has, this]

namespace ProcSim

variable {id : Side → AppId} {h : Abs} {gidAt : Side → Option Gid} {x : Side} {o : Other}

variable (hp : ProcSim id h gidAt x o)

include hp

theorem congr {h' : Abs} (hb : h'.bound x = h.bound x) : ProcSim id h' gidAt x o := by
  obtain ⟨h₁, h₂, h₃, h₄, h₅, h₆, h₇⟩ := hp
  exact ⟨h₁, by rw [hb]; exact h₂, by rw [hb]; exact h₃, h₄, h₅, h₆, h₇⟩

omit hp in
/-- A connection that the process is not bound to gets its end there. -/
theorem bind_update {d : Side} (hd : h.bound x ≠ some d) (v : Option Gid) :
    (h.bound x).bind (Function.update gidAt d v) = (h.bound x).bind gidAt := by
  cases hb : h.bound x with
  | none => rfl
  | some c =>
    have hcd : c ≠ d := fun hc => hd (by rw [hb, hc])
    simp [Function.update_of_ne hcd]

/-- Connection `d` gets an end `gid` in the process, and no app id with it. -/
theorem newEnd {d : Side} {gid : Gid} {o' : Other} (hd : gidAt d = none)
    (hnew : gidAt d.peer ≠ some gid) (hb : h.bound x ≠ some d) (happId : o'.appId = o.appId)
    (hmaps : o'.appid2gid = o.appid2gid ∧ o'.gid2appid = o.gid2appid)
    (hdialled : ∀ g, o'.isThis2remote g = if g = gid then decide (d = x) else o.isThis2remote g)
    (htarget : o'.this2remoteAppid2gid (id x.peer) = Function.update gidAt d (some gid) x)
    (hlive : o'.live = Function.update o.live gid true) :
    ProcSim id h (Function.update gidAt d (some gid)) x o' := by
  have hfresh : ∀ c, gidAt c ≠ some gid := by
    intro c
    obtain rfl | rfl := Side.eq_or_eq_peer c d
    · simp [hd]
    · exact hnew
  -- an end of the process is the new one, or an old one under another gid
  have hends : ∀ c g, Function.update gidAt d (some gid) c = some g →
      c = d ∧ g = gid ∨ g ≠ gid ∧ gidAt c = some g := by
    intro c g hg
    by_cases hc : c = d
    · subst hc
      rw [Function.update_self, Option.some.injEq] at hg
      exact .inl ⟨rfl, hg.symm⟩
    · rw [Function.update_of_ne hc] at hg
      exact .inr ⟨fun hgid => hfresh c (hgid ▸ hg), hg⟩
  refine ⟨happId.trans hp.appId, ?_, fun c g hg => ?_, fun c g hg => ?_, fun g hg => ?_, htarget,
    fun c g hg => ?_⟩
  · rw [hmaps.1, bind_update hb]
    exact hp.bound
  · rw [hmaps.2]
    obtain ⟨rfl, rfl⟩ | ⟨-, hg⟩ := hends c g hg
    · rw [if_neg hb]
      exact (hp.fresh g hfresh).1
    · exact hp.boundTo c g hg
  · rw [hdialled]
    obtain ⟨rfl, rfl⟩ | ⟨hne, hg⟩ := hends c g hg
    · rw [if_pos rfl]
    · rw [if_neg hne]
      exact hp.dialled c g hg
  · have hne : g ≠ gid := by
      rintro rfl
      exact hg d (by simp)
    rw [hmaps.2, hdialled, if_neg hne]
    refine hp.fresh g fun c hc => hg c ?_
    rwa [Function.update_of_ne fun hcd => by simp [hcd, hd] at hc]
  · rw [hlive]
    obtain ⟨-, rfl⟩ | ⟨hne, hg⟩ := hends c g hg
    · rw [Function.update_self]
    · rw [Function.update_of_ne hne]
      exact hp.live c g hg

/-- Dialling: the connection appears under the peer's app id. -/
theorem dial {gid : Gid} {o' : Other} (hx : gidAt x = none) (hgid : gidAt x.peer ≠ some gid)
    (hb : h.bound x ≠ some x) (ho : o.ipcClientToConnect (id x.peer) gid = some o') :
    ProcSim id h (Function.update gidAt x (some gid)) x o' := by
  unfold Other.ipcClientToConnect at ho
  split_ifs at ho
  cases ho
  refine hp.newEnd hx hgid hb rfl ⟨rfl, rfl⟩ (fun g => ?_) (by simp) rfl
  by_cases hg : g = gid <;> simp [Other.isThis2remote, hg]

/-- Accepting: the connection appears, and nothing is known of it. -/
theorem accept {gid : Gid} (hd : gidAt x.peer = none) (hgid : gidAt x ≠ some gid)
    (hb : h.bound x ≠ some x.peer) :
    ProcSim id h (Function.update gidAt x.peer (some gid)) x
      (o.onNewIpcClientFd gid : Other × List (IpcPackage π)).1 := by
  have hnew : gidAt x.peer.peer ≠ some gid := by rwa [Side.peer_peer]
  refine hp.newEnd hd hnew hb rfl ⟨rfl, rfl⟩ (fun g => ?_) ?_ rfl
  · split
    · next hg =>
      subst hg
      rw [decide_eq_false (Side.peer_ne x)]
      refine (hp.fresh g fun c => ?_).2
      obtain rfl | rfl := Side.eq_or_eq_peer c x
      · exact hgid
      · simp [hd]
    · rfl
  · rw [Function.update_of_ne (Side.ne_peer x)]
    exact hp.target

/-- Reading an app id: the first one is bound to its connection. -/
theorem authenticate (hhas : ∀ c, h.bound x = some c → gidAt c ≠ none) {d : Side} {gid : Gid}
    (hd : gidAt d = some gid) (hne : ∀ c g, gidAt c = some g → g = gid → c = d) :
    ProcSim id (h.bind x d) gidAt x (o.authenticate (id x.peer) gid) := by
  unfold Other.authenticate
  rw [hp.bound, hp.boundTo d gid hd]
  cases hb : h.bound x with
  | some c =>
    obtain ⟨g, hg⟩ := Option.ne_none_iff_exists'.mp (hhas c hb)
    rw [Abs.bind_of_bound hb, Option.bind_some, hg, if_neg (by simp)]
    exact hp
  | none =>
    have hself : (h.bind x d).bound x = some d := by
      rw [Abs.bind_bound_self, hb, Option.getD_none]
    simp only [Option.bind_none, reduceCtorEq, if_true, if_false]
    refine ⟨hp.appId, ?_, ?_, hp.dialled, ?_, hp.target, hp.live⟩
    · rw [hself, Option.bind_some, hd]
      simp
    · intro c g hg
      rw [hself]
      by_cases hgg : g = gid
      · obtain rfl := hne c g hg hgg
        simp [hgg]
      · have hcd : c ≠ d := by
          rintro rfl
          exact hgg (Option.some.inj (hg.symm.trans hd))
        have := hp.boundTo c g hg
        simp [hgg, this, hb, hcd.symm]
    · intro g hg
      have hgg : g ≠ gid := by
        rintro rfl
        exact hg d hd
      have := hp.fresh g hg
      simpa [hgg, Other.isThis2remote] using this

end ProcSim

variable {id : Side → AppId} {s : System π} {h : Abs}

namespace Sim

variable (hs : Sim id s h)

include hs

theorem heard_eq (x : Side) : s.heard x = receivedFrom (id x.peer) (s.log x) := by
  rw [System.heard, (hs.proc x.peer).appId]

theorem heard_iff (x : Side) : s.sent x <:+ receivedFrom (id x) (s.log x.peer) ++ s.onTheWay x := by
  have := hs.heard x
  rwa [System.Heard, hs.heard_eq, Side.peer_peer] at this

/-- A connection that is not answered has no message on its way. -/
theorem queue_eq {x d : Side} (hd : ¬ h.Answered d) : s.queue x d = inTransit id h x d := by
  obtain ⟨ps, hq, hps⟩ := hs.queue x d
  have : ps = [] := by
    by_contra hne
    have hb := hps hne
    obtain rfl | rfl := Side.eq_or_eq_peer x d
    · exact hd (.inr (hs.ok.accepted x hb).1)
    · rw [Side.peer_peer] at hb
      exact hd (hs.ok.own d hb)
  rw [hq, this, List.map_nil, List.append_nil]

/-- The gids of a process tell its connections apart. -/
theorem gid_inj {x c d : Side} {gid : Gid} (hc : s.gidAt x c = some gid)
    (hd : s.gidAt x d = some gid) : c = d := by
  obtain rfl | rfl := Side.eq_or_eq_peer c d
  · rfl
  · exfalso
    obtain rfl | rfl := Side.eq_or_eq_peer x d
    · exact hs.gid_ne x gid hd hc
    · exact hs.gid_ne d.peer gid hc (by rwa [Side.peer_peer])

/-- The handshakes are through iff both connections are done. -/
theorem through_iff : s.through = true ↔ ∀ d, h.phase d = .done := by
  have hon : ∀ d, s.throughOn d = true ↔ h.phase d = .done := by
    intro d
    obtain ⟨ps, hq, -⟩ := hs.queue d d
    obtain ⟨ps', hq', -⟩ := hs.queue d.peer d
    have hown := hs.has d d
    have hacc := hs.has d.peer d
    simp only [throughOn, hq, hq', Bool.and_eq_true, decide_eq_true_eq, messages_append,
      messages_inTransit, messages_map, List.length_append, List.length_map, List.nil_append,
      Option.isSome_iff_ne_none, hown, hacc]
    cases hp : h.phase d <;> simp [Has, inTransit, hp]
  rw [through, Bool.and_eq_true, hon, hon]
  exact ⟨fun hd d => by cases d; exacts [hd.1, hd.2], fun hd => ⟨hd .a, hd .b⟩⟩

end Sim

section Ends

variable {gidAt : Side → Side → Option Gid} {x d : Side} {gid : Gid}

/-- A new gid keeps the gids of a process apart. -/
theorem gid_ne_set2 (hne : ∀ y g, gidAt y y = some g → gidAt y y.peer ≠ some g)
    (hnew : gidAt x d.peer ≠ some gid) (y : Side) (g : Gid)
    (hg : set2 gidAt x d (some gid) y y = some g) : set2 gidAt x d (some gid) y y.peer ≠ some g := by
  by_cases hx : y = x
  · subst hx
    obtain rfl | rfl := Side.eq_or_eq_peer d y
    · obtain rfl : gid = g := by simpa using hg
      rwa [set2_of_ne (by simp)]
    · rw [set2_of_ne (by simp)] at hg
      rw [set2_self]
      rintro h
      cases h
      exact hnew (by rwa [Side.peer_peer])
  · rw [set2_of_ne fun hc => hx hc.1] at hg ⊢
    exact hne y g hg

/-- A connection that moves on and gets an end in process `x`. -/
theorem has_set2 {p : Phase} (hhas : ∀ y e, gidAt y e ≠ none ↔ Has h y e)
    (hself : Has (h.move d p) x d) (hother : ∀ y, y ≠ x → (Has (h.move d p) y d ↔ Has h y d))
    (y e : Side) : set2 gidAt x d (some gid) y e ≠ none ↔ Has (h.move d p) y e := by
  by_cases hc : y = x ∧ e = d
  · obtain ⟨rfl, rfl⟩ := hc
    simp [hself]
  · rw [set2_of_ne hc, hhas]
    by_cases he : e = d
    · subst he
      exact (hother y fun hy => hc ⟨hy, rfl⟩).symm
    · simp only [Has, Abs.move_phase_ne he]

end Ends

variable {gid : Gid} {s' : System π} {rest : List (IpcPackage π)} {p : π}

variable (hs : Sim id s h)

include hs

/-- **A connection that is not answered moves on**: it gets an end in process `x`, and its queues
hold the handshake of its new phase. -/
theorem sim_newEnd {ph : Phase} {o : Other} {q : Side → Side → List (IpcPackage π)}
    (hnot : ¬ h.Answered d) (hph : ph ≠ .answered ∧ ph ≠ .done)
    (hx : ProcSim id h (Function.update (s.gidAt x) d (some gid)) x o)
    (hgid : s.gidAt x d.peer ≠ some gid) (hself : Has (h.move d ph) x d)
    (hother : ∀ y, y ≠ x → (Has (h.move d ph) y d ↔ Has h y d))
    (hqueue : ∀ y, q y d = inTransit id (h.move d ph) y d)
    (hkeep : ∀ y e, e ≠ d → q y e = s.queue y e) :
    Sim id { s with
      proc := Function.update s.proc x o
      gidAt := set2 s.gidAt x d (some gid)
      queue := q } (h.move d ph) := by
  have hproc : ∀ y, ProcSim id h (set2 s.gidAt x d (some gid) y) y (Function.update s.proc x o y) := by
    intro y
    by_cases hy : y = x
    · subst hy
      rwa [set2_row_self, Function.update_self]
    · rw [set2_row_ne hy, Function.update_of_ne hy]
      exact hs.proc y
  have hmsg : ∀ y e, messages (q y e) = messages (s.queue y e) := by
    intro y e
    by_cases he : e = d
    · rw [he, hqueue, hs.queue_eq hnot, messages_inTransit, messages_inTransit]
    · rw [hkeep y e he]
  refine ⟨hs.ok.early hnot hph, fun y => (hproc y).congr rfl, has_set2 hs.has hself hother,
    gid_ne_set2 hs.gid_ne hgid, fun y e => ?_, fun y => ?_,
    fun _ => hs.early ⟨d, fun hdone => hnot (.inr hdone)⟩⟩
  · dsimp only
    by_cases he : e = d
    · subst he
      exact ⟨[], by rw [hqueue, List.map_nil, List.append_nil], fun hne => absurd rfl hne⟩
    · obtain ⟨ps, hq, hps⟩ := hs.queue y e
      refine ⟨ps, ?_, hps⟩
      rw [hkeep y e he, hq]
      simp only [inTransit, Abs.move_phase_ne he]
  · rw [Heard, heard, onTheWay]
    dsimp only
    rw [hmsg, hmsg, Side.peer_peer, (hproc y).appId]
    exact hs.heard_iff y

/-- A side dials. -/
theorem sim_dial (hstep : s.step (.dial d gid) = some s') : Sim id s' (h.move d .dialled) := by
  rw [step] at hstep
  split at hstep
  · rename_i hc
    obtain ⟨hnone, hgid⟩ := hc
    rw [Option.map_eq_some_iff] at hstep
    obtain ⟨o, ho, rfl⟩ := hstep
    rw [(hs.proc d.peer).appId] at ho
    have hphase : h.phase d = .absent := by
      by_contra hne
      exact (hs.has d d).mpr ⟨hne, fun hdd => absurd rfl hdd⟩ hnone
    have hnot : ¬ h.Answered d := by simp [Abs.Answered, hphase]
    refine sim_newEnd hs hnot (by simp)
      ((hs.proc d).dial hnone hgid (fun hb => hnot (hs.ok.own d hb)) ho) hgid (by simp [Has])
      (fun y hy => by simp [Has, hphase, hy]) (fun y => ?_) fun _ _ _ => rfl
    rw [hs.queue_eq hnot]
    by_cases hy : y = d <;> simp [inTransit, hphase, hy]
  · simp at hstep

/-- A side accepts, and says who it is. -/
theorem sim_accept (hstep : s.step (.accept d gid) = some s') : Sim id s' (h.move d .greeting) := by
  rw [step] at hstep
  split at hstep
  · rename_i hc
    obtain ⟨hdial, hnone, hgid⟩ := hc
    cases hstep
    have hphase : h.phase d = .dialled := by
      have hne := ((hs.has d d).mp hdial).1
      by_contra hc
      exact (hs.has d.peer d).mpr ⟨hne, fun _ => hc⟩ hnone
    have hnot : ¬ h.Answered d := by simp [Abs.Answered, hphase]
    have hbound : h.bound d.peer ≠ some d.peer.peer := by
      rw [Side.peer_peer]
      exact fun hb => hnot (.inr (hs.ok.accepted d hb).1)
    have hproc := (hs.proc d.peer).accept (π := π) (by rwa [Side.peer_peer]) hgid hbound
    rw [Side.peer_peer] at hproc
    refine sim_newEnd hs hnot (by simp) hproc hgid (by simp [Has]) (fun y hy => ?_) (fun y => ?_)
      fun y e he => set2_of_ne fun hc => he hc.2
    · obtain rfl | rfl := Side.eq_or_eq_peer y d
      · simp [Has, hphase]
      · exact absurd rfl hy
    · by_cases hy : y = d
      · subst hy
        rw [set2_self]
        dsimp only
        rw [hs.queue_eq hnot]
        simp [inTransit, hphase, Other.onNewIpcClientFd, Other.whoami, (hs.proc _).appId]
      · rw [set2_of_ne fun hc => hy hc.1]
        dsimp only
        rw [hs.queue_eq hnot]
        simp [inTransit, hphase, hy]
  · simp at hstep

/-- A side reads an app id, and answers on the connection it dialled. -/
theorem sim_handshake (hg : s.gidAt x d = some gid)
    (hq : s.queue x d = .handshake (some (id x.peer)) :: rest)
    (hphase : h.phase d = if x = d then .greeting else .answered)
    (hok : ((h.move d (if x = d then .answered else .done)).bind x d).Ok) :
    Sim id ({ s with
      proc := Function.update s.proc x ((s.proc x).authenticate (id x.peer) gid)
      queue := set2 s.queue x d rest
      log := Function.update s.log x (s.log x ++ [IpcOutcome.handshake]) }.push x.peer d
        (if x = d then [(s.proc x).whoami] else []))
      ((h.move d (if x = d then .answered else .done)).bind x d) := by
  have hproc : ∀ y, ProcSim id ((h.move d (if x = d then .answered else .done)).bind x d) (s.gidAt y) y
      (Function.update s.proc x ((s.proc x).authenticate (id x.peer) gid) y) := by
    intro y
    by_cases hy : y = x
    · subst hy
      rw [Function.update_self]
      have hp : ProcSim id (h.move d (if y = d then .answered else .done)) (s.gidAt y) y (s.proc y) :=
        (hs.proc y).congr rfl
      refine hp.authenticate (fun c hc => ?_) hg fun c g hc hgg => ?_
      · exact (hs.has y c).mpr (has_of_bound hs.ok hc)
      · exact hs.gid_inj (hgg ▸ hc) hg
    · rw [Function.update_of_ne hy]
      exact (hs.proc y).congr (Abs.bind_bound_ne hy)
  have hundone : h.phase d ≠ .done := by
    rw [hphase]
    split <;> simp
  refine ⟨hok, hproc, fun y e => ?_, hs.gid_ne, fun y e => ?_, fun y => ?_,
    fun _ => hs.early ⟨d, hundone⟩⟩
  · refine (hs.has y e).trans ?_
    by_cases he : e = d
    · subst he
      by_cases hx : x = e <;> simp [Has, hphase, hx]
    · simp only [Has, Abs.bind_phase, Abs.move_phase_ne he]
  · obtain ⟨ps, hqy, hps⟩ := hs.queue y e
    have hps' : ps ≠ [] →
        ((h.move d (if x = d then .answered else .done)).bind x d).bound y.peer = some e :=
      fun hne => Abs.bind_bound_mono (hps hne)
    rw [push_queue]
    by_cases he : e = d
    · subst he
      obtain rfl | rfl := Side.eq_or_eq_peer y x
      · refine ⟨ps, ?_, hps'⟩
        rw [set2_of_ne (by simp)]
        dsimp only
        rw [set2_self]
        rw [hq] at hqy
        by_cases hx : y = e <;> simp_all [inTransit]
      · rw [set2_self]
        dsimp only
        rw [set2_of_ne (by simp)]
        by_cases hx : x = e
        · subst hx
          rw [hs.queue_eq (by simp [Abs.Answered, hphase])]
          refine ⟨[], ?_, fun hne => absurd rfl hne⟩
          simp [inTransit, hphase, Other.whoami, (hs.proc x).appId]
        · obtain rfl : e = x.peer := (Side.eq_or_eq_peer e x).resolve_left (Ne.symm hx)
          refine ⟨ps, ?_, hps'⟩
          rw [hqy]
          simp [inTransit, hphase]
    · refine ⟨ps, ?_, hps'⟩
      rw [set2_of_ne (fun hc => he hc.2)]
      dsimp only
      rw [set2_of_ne (fun hc => he hc.2), hqy]
      simp only [inTransit, Abs.bind_phase, Abs.move_phase_ne he]
  · have hmsg : ∀ z e, messages (set2 s.queue x d rest z e) = messages (s.queue z e) := by
      intro z e
      by_cases hc : z = x ∧ e = d
      · obtain ⟨rfl, rfl⟩ := hc
        rw [set2_self, hq]
        rfl
      · rw [set2_of_ne hc]
    have hlog : ∀ z, receivedFrom (id y) (Function.update s.log x (s.log x ++ [.handshake]) z) =
        receivedFrom (id y) (s.log z) := by
      intro z
      by_cases hz : z = x
      · subst hz
        simp [receivedFrom]
      · rw [Function.update_of_ne hz]
    have hreply : messages (if x = d then [((s.proc x).whoami : IpcPackage π)] else []) = [] := by
      split <;> rfl
    rw [Heard, heard, onTheWay, messages_push hreply, messages_push hreply]
    dsimp only
    rw [hmsg, hmsg, Side.peer_peer]
    show s.sent y <:+ receivedFrom (Function.update s.proc x _ y).appId
      (Function.update s.log x _ y.peer) ++ s.onTheWay y
    rw [(hproc y).appId, hlog]
    exact hs.heard_iff y

/-- Of the two connections of `x`, only the one its peer is bound to carries messages. -/
theorem Sim.messages_eq_nil {e : Side} (hb : h.bound x.peer = some d) (he : e ≠ d) :
    messages (s.queue x e) = [] := by
  obtain ⟨ps, hq, hps⟩ := hs.queue x e
  have : ps = [] := by
    by_contra hne
    exact he (Option.some.inj ((hps hne).symm.trans hb))
  simp [hq, this]

/-- The messages on their way from `x` are those of the connection it is bound to, also when the
queue of that connection has changed. -/
theorem Sim.onTheWay_eq (hb : h.bound x = some d) {t : System π}
    (ht : ∀ e, e ≠ d → t.queue x.peer e = s.queue x.peer e) :
    t.onTheWay x = messages (t.queue x.peer d) := by
  have hnil : ∀ e, e ≠ d → messages (t.queue x.peer e) = [] := fun e he => by
    rw [ht e he, hs.messages_eq_nil (by rwa [Side.peer_peer]) he]
  rw [onTheWay]
  obtain rfl | rfl := Side.eq_or_eq_peer d x
  · rw [hnil _ (Side.peer_ne d), List.append_nil]
  · rw [hnil _ (Side.ne_peer x), List.nil_append]

/-- A message that is next on connection `d` has only messages behind it. -/
theorem Sim.queue_message (hq : s.queue x d = .message p :: rest) :
    h.phase d ≠ (if x = d then .greeting else .answered) ∧ h.bound x.peer = some d ∧
      ∃ ps : List π, rest = ps.map .message := by
  obtain ⟨ps, hqx, hps⟩ := hs.queue x d
  rw [hq, inTransit] at hqx
  by_cases hphase : h.phase d = if x = d then .greeting else .answered
  · rw [if_pos hphase] at hqx
    simp at hqx
  · rw [if_neg hphase] at hqx
    cases ps with
    | nil => simp at hqx
    | cons p' ps =>
      simp only [List.nil_append, List.map_cons, List.cons.injEq] at hqx
      exact ⟨hphase, hps (by simp), ps, hqx.2⟩

/-- **Agreement**: a message that is next on connection `d` is for a process bound to `d`. -/
theorem Sim.bound_of_message (hq : s.queue x d = .message p :: rest) : h.bound x = some d := by
  obtain ⟨hphase, hpeer, -⟩ := hs.queue_message hq
  obtain rfl | rfl := Side.eq_or_eq_peer d x
  · exact (hs.ok.accepted d hpeer).2
  · -- the answer is ahead of the message, so it has been read
    have hdone : h.phase x.peer = .done := by
      refine (hs.ok.own _ hpeer).resolve_left fun ha => ?_
      simp [ha] at hphase
    have hx := hs.ok.acceptor _ hdone
    rw [Side.peer_peer] at hx
    obtain ⟨c, hc⟩ := Option.ne_none_iff_exists'.mp hx
    rw [hc, hs.ok.agree x c _ hc hpeer]

/-- A side reads a message. -/
theorem sim_message (hg : s.gidAt x d = some gid) (hq : s.queue x d = .message p :: rest) :
    (s.proc x).onRecvPackage gid (.message p) = (s.proc x, [], .received (id x.peer) p) ∧
      Sim id { s with
        queue := set2 s.queue x d rest
        log := Function.update s.log x (s.log x ++ [IpcOutcome.received (id x.peer) p]) } h := by
  obtain ⟨hphase, hpeer, ps, hrest⟩ := hs.queue_message hq
  have hknown : (s.proc x).gid2appid gid = some (id x.peer) := by
    rw [(hs.proc x).boundTo d gid hg, if_pos (hs.bound_of_message hq)]
  refine ⟨by simp [Other.onRecvPackage, hknown], hs.ok, hs.proc, hs.has, hs.gid_ne, fun y e => ?_,
    fun y => ?_, hs.early⟩
  · dsimp only
    by_cases hc : y = x ∧ e = d
    · obtain ⟨rfl, rfl⟩ := hc
      rw [set2_self, inTransit, if_neg hphase]
      exact ⟨ps, hrest, fun _ => hpeer⟩
    · rw [set2_of_ne hc]
      exact hs.queue y e
  · have hheard := hs.heard_iff y
    rw [Heard, heard]
    dsimp only
    rw [Side.peer_peer, (hs.proc y).appId]
    obtain rfl | rfl := Side.eq_or_eq_peer y x
    · rw [Function.update_of_ne (Side.peer_ne y), onTheWay]
      dsimp only
      rw [set2_row_ne (Side.peer_ne y)]
      exact hheard
    · -- the package moves from the way to the log
      rw [hs.onTheWay_eq hpeer fun _ _ => rfl, Side.peer_peer, hq] at hheard
      rw [hs.onTheWay_eq hpeer fun e he => ?_, Side.peer_peer, Function.update_self]
      · simpa [receivedFrom, messages] using hheard
      · exact set2_of_ne fun hc => he hc.2

/-- A side sends a message. -/
theorem sim_send (hstep : s.step (.send x p) = some s') : Sim id s' h := by
  rw [step, (hs.proc x.peer).appId, Other.otherLuaSendIpcPackage, (hs.proc x).bound] at hstep
  cases hb : h.bound x with
  | none =>
    -- not bound, so the handshakes are not through and the package does not count
    have hthrough : s.through = false := by
      rw [Bool.eq_false_iff, ne_eq, hs.through_iff]
      exact fun hall => hs.ok.dialler x (.inr (hall x)) hb
    simp only [hb, Option.bind_none, noteSent, hthrough, Bool.false_eq_true, if_false,
      Option.some.injEq] at hstep
    exact hstep ▸ hs
  | some c =>
    obtain ⟨gid, hg⟩ := Option.ne_none_iff_exists'.mp ((hs.has x c).mpr (has_of_bound hs.ok hb))
    have hlive := (hs.proc x).live c gid hg
    simp only [hb, Option.bind_some, hg, hlive, if_true] at hstep
    have hs' : s' = (s.noteSent x p).push x.peer c [.message p] := by
      obtain rfl | rfl := Side.eq_or_eq_peer c x
      · rw [if_pos hg, Option.some.injEq] at hstep
        exact hstep.symm
      · rw [if_neg fun hx => hs.gid_ne x gid hx hg, if_pos hg, Option.some.injEq] at hstep
        exact hstep.symm
    subst hs'
    have hunsettled : ∀ {d}, h.phase d ≠ .done → s.through = false := fun {d} hd => by
      rw [Bool.eq_false_iff, ne_eq, hs.through_iff]
      exact fun hall => hd (hall d)
    refine ⟨hs.ok, hs.proc, hs.has, hs.gid_ne, fun y e => ?_, fun y => ?_, ?_⟩
    · obtain ⟨ps, hq, hps⟩ := hs.queue y e
      rw [push_queue]
      by_cases hc : y = x.peer ∧ e = c
      · obtain ⟨rfl, rfl⟩ := hc
        refine ⟨ps ++ [p], ?_, fun _ => by rwa [Side.peer_peer]⟩
        rw [set2_self]
        show s.queue x.peer e ++ _ = _
        rw [hq, List.map_append, List.append_assoc]
        rfl
      · rw [set2_of_ne hc]
        exact ⟨ps, hq, hps⟩
    · have hheard := hs.heard_iff y
      rw [Heard, heard]
      show (s.noteSent x p).sent y <:+ receivedFrom (s.proc y.peer.peer).appId (s.log y.peer) ++ _
      rw [Side.peer_peer, (hs.proc y).appId]
      obtain rfl | rfl := Side.eq_or_eq_peer y x
      · have hway : onTheWay ((s.noteSent y p).push y.peer c [.message p]) y = s.onTheWay y ++ [p] := by
          rw [hs.onTheWay_eq hb fun e he => ?_, hs.onTheWay_eq hb fun _ _ => rfl, push_queue,
            set2_self, messages_append]
          · rfl
          · rw [push_queue, set2_of_ne fun hc => he hc.2]
            rfl
        rw [hway, ← List.append_assoc]
        by_cases hthrough : s.through = true
        · simp only [noteSent, hthrough, if_true, Function.update_self]
          obtain ⟨t, ht⟩ := hheard
          exact ⟨t, by rw [← List.append_assoc, ht]⟩
        · have hnone : s.sent y = [] := by
            refine hs.early ?_ y
            rw [hs.through_iff] at hthrough
            exact not_forall.mp hthrough
          simp [noteSent, hthrough, hnone]
      · have hsent : (s.noteSent x p).sent x.peer = s.sent x.peer := by
          rw [noteSent]
          dsimp only
          split
          · rw [Function.update_of_ne (Side.peer_ne x)]
          · rfl
        rw [hsent, onTheWay, push_queue, Side.peer_peer, set2_row_ne (Side.ne_peer x)]
        rw [onTheWay, Side.peer_peer] at hheard
        exact hheard
    · rintro ⟨d, hd⟩ y
      show (s.noteSent x p).sent y = []
      simp only [noteSent, hunsettled hd, Bool.false_eq_true, if_false]
      exact hs.early ⟨d, hd⟩ y

theorem Sim.phase_of_handshake {info : Option AppId} (hq : s.queue x d = .handshake info :: rest) :
    h.phase d = (if x = d then .greeting else .answered) ∧ info = some (id x.peer) := by
  obtain ⟨ps, hqx, -⟩ := hs.queue x d
  rw [hq] at hqx
  by_cases hc : h.phase d = if x = d then .greeting else .answered
  · rw [inTransit, if_pos hc] at hqx
    simp only [List.cons_append, List.cons.injEq, IpcPackage.handshake.injEq] at hqx
    exact ⟨hc, hqx.1⟩
  · rw [inTransit, if_neg hc] at hqx
    cases ps <;> simp at hqx

theorem Sim.bound_eq_none_iff (x : Side) :
    (s.proc x).appid2gid (id x.peer) = none ↔ h.bound x = none := by
  rw [(hs.proc x).bound]
  cases hb : h.bound x with
  | none => simp
  | some c => simpa using (hs.has x c).mpr (has_of_bound hs.ok hb)

theorem Sim.unbound_of_turn (hturn : s.TakesTurns (.take x x))
    (hq : s.queue x x = .handshake (some (id x.peer)) :: rest) :
    h.bound x = none → h.bound x.peer = none := by
  have hpeer := hs.bound_eq_none_iff x.peer
  rw [Side.peer_peer] at hpeer
  have := hturn rfl (by rw [hq, List.head?_cons, Other.whoami, (hs.proc x.peer).appId])
  rw [(hs.proc x.peer).appId, (hs.proc x).appId, hpeer, hs.bound_eq_none_iff] at this
  exact this

/-- **Every step of the processes is a step of the handshake**, or none. -/
theorem sim_step {i : IpcLabel π} (hturn : s.TakesTurns i) (hstep : s.step i = some s') :
    Agrees id s' := by
  cases i with
  | dial d gid => exact ⟨_, sim_dial hs hstep⟩
  | accept d gid => exact ⟨_, sim_accept hs hstep⟩
  | send x p => exact ⟨_, sim_send hs hstep⟩
  | take x d =>
    rw [step] at hstep
    split at hstep
    · rename_i gid pkg rest hg hq
      cases pkg with
      | message p =>
        obtain ⟨hrecv, hsim⟩ := sim_message hs hg hq
        refine ⟨h, ?_⟩
        simp only [hrecv, Function.update_eq_self, push_nil, Option.some.injEq] at hstep
        exact hstep ▸ hsim
      | handshake info =>
        obtain ⟨hphase, rfl⟩ := hs.phase_of_handshake hq
        have hrecv : (s.proc x).onRecvPackage gid (.handshake (some (id x.peer)) : IpcPackage π) =
            ((s.proc x).authenticate (id x.peer) gid, if x = d then [(s.proc x).whoami] else [],
              .handshake) := by
          simp [Other.onRecvPackage, (hs.proc x).dialled d gid hg, eq_comm]
        simp only [hrecv, Option.some.injEq] at hstep
        subst hstep
        refine ⟨_, sim_handshake hs hg hq hphase ?_⟩
        by_cases hx : x = d
        · subst hx
          rw [if_pos rfl] at hphase ⊢
          exact hs.ok.greet hphase (hs.unbound_of_turn hturn hq)
        · obtain rfl : x = d.peer := (Side.eq_or_eq_peer x d).resolve_left hx
          rw [if_neg hx] at hphase ⊢
          exact hs.ok.answer hphase
    · simp at hstep

omit hs

/-- **Packages are received.** In every run of two processes that dial each other, whose greetings
take turns, every package a process sends to the other's app id once the handshakes are through
has been received as coming from that process, in order, or is on its way. -/
theorem sent_received {π : Type} (id : Side → AppId) (ls : List (IpcLabel π)) (s : System π)
    (hturns : Along step TakesTurns (init id) ls) (hrun : exec step (init id) ls = some s)
    (x : Side) : s.Heard x := by
  have hinit : Agrees id (init id : System π) := ⟨_, sim_init id⟩
  obtain ⟨h, hs⟩ :=
    exec_invariant (fun ⟨_, hs⟩ hturn hstep => sim_step hs hturn hstep) hinit hturns hrun
  exact hs.heard x

/-- Two app ids. -/
def idAB : Side → AppId
  | .a => [97]
  | .b => [98]

/-- Both dial, both accept; `a` reads the greeting on its connection and `b` the answer there, then
`b` the greeting on its own connection and `a` the answer there; both send. -/
def inTurn : List (IpcLabel Nat) :=
  [.dial .a 1, .dial .b 1, .accept .a 2, .accept .b 2, .take .a .a, .take .b .a, .take .b .b,
    .take .a .b, .send .a 7, .send .b 8, .take .b .a]

/-- The same, but both read the greeting first. -/
def crossing : List (IpcLabel Nat) :=
  [.dial .a 1, .dial .b 1, .accept .a 2, .accept .b 2, .take .a .a, .take .b .b, .take .b .a,
    .take .a .b, .send .a 7, .take .b .a]

theorem sent_received_in_turn :
    ∃ s, exec step (init idAB) inTurn = some s ∧ s.sent .a = [7] ∧ s.sent .b = [8] ∧
      s.heard .b = [7] ∧ s.Heard .a ∧ s.Heard .b := by
  have hturns : Along step TakesTurns (init idAB) inTurn := by decide +kernel
  refine exists_exec (by decide +kernel) fun s hs
    (h : s.sent .a = [7] ∧ s.sent .b = [8] ∧ s.heard .b = [7]) => ?_
  exact ⟨h.1, h.2.1, h.2.2, sent_received idAB inTurn s hturns hs .a,
    sent_received idAB inTurn s hturns hs .b⟩

/-- When the greetings cross, each side is bound to the connection it dialled, and a package sent
after all handshakes is dropped. -/
theorem sent_received_crossing :
    ∃ s, exec step (init idAB) crossing = some s ∧ s.through ∧ s.sent .a = [7] ∧
      .unauthenticated 7 ∈ s.log .b ∧ ¬ s.Heard .a :=
  exists_exec (by decide +kernel) fun _ _ h => h

end System

end Avant.App
