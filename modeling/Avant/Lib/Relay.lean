import Avant.Lib.Framing
import Avant.Lib.Machine

/-!
# FIFO pipes and a relay with one hub

A `Pipe` is a byte channel with a buffer at either end. Whatever moves from one of its three parts
to the next, its `content`, read from the receiving end, is what was put in and not taken out:
a pipe that carries a stream of frames carries a queue of messages (`content_takeFrame`).

A `Relay` is a network of such queues around a hub. A source puts in a message with the list of
its destinations; the hub picks the messages of a source in order and passes a copy on to one
destination after the other; a destination takes what has been passed on to it. The hub may also
inject messages of its own. `fifo_step` is what such a network promises: between one source and one
destination it is a queue, whatever the others do.
-/

namespace Avant.Lib

/-! ## Pipes -/

/-- A byte channel with a buffer at either end. -/
structure Pipe where
  sendBuf : Bytes := []
  wire : Bytes := []
  recvBuf : Bytes := []
  deriving DecidableEq

namespace Pipe

/-- Everything in the pipe, from the receiving end. -/
def content (p : Pipe) : Bytes := p.recvBuf ++ p.wire ++ p.sendBuf

/-- Bytes are appended to the sending buffer. -/
def append (p : Pipe) (bs : Bytes) : Pipe := { p with sendBuf := p.sendBuf ++ bs }

/-- The channel accepts `n` bytes (all there are, if fewer). -/
def send (p : Pipe) (n : Nat) : Pipe :=
  { p with sendBuf := p.sendBuf.drop n, wire := p.wire ++ p.sendBuf.take n }

/-- The channel delivers `n` bytes (all there are, if fewer). -/
def recv (p : Pipe) (n : Nat) : Pipe :=
  { p with wire := p.wire.drop n, recvBuf := p.recvBuf ++ p.wire.take n }

variable {p : Pipe}

@[simp] theorem content_append (bs : Bytes) : (p.append bs).content = p.content ++ bs := by
  simp [content, append]

@[simp] theorem content_send (n : Nat) : (p.send n).content = p.content := by
  simp [content, send]

@[simp] theorem content_recv (n : Nat) : (p.recv n).content = p.content := by
  simp [content, recv]

theorem content_eq_nil_iff : p.content = [] ↔ p.recvBuf = [] ∧ p.wire = [] ∧ p.sendBuf = [] := by
  simp [content]

/-- **A pipe is a queue**: a complete frame at the receiving end is the first message. -/
theorem content_takeFrame {μ : Type} {F : FrameCodec UInt8 μ} {ms : List μ} {m : μ} {r : Bytes}
    (hc : p.content = F.encAll ms) (h : F.dec p.recvBuf = some (m, r)) :
    ∃ ms', ms = m :: ms' ∧ ({ p with recvBuf := r } : Pipe).content = F.encAll ms' := by
  rw [content, List.append_assoc] at hc
  obtain ⟨ms', hms, hr⟩ := FrameCodec.dec_of_stream hc h
  exact ⟨ms', hms, by rw [← hr, content, List.append_assoc]⟩

/-- The first frame, once received, can be removed later. -/
theorem content_drop {a b : Bytes} (hc : p.content = a ++ b) (hlen : a.length ≤ p.recvBuf.length) :
    ({ p with recvBuf := p.recvBuf.drop a.length } : Pipe).content = b := by
  have hdrop := congrArg (List.drop a.length) hc
  rw [List.drop_left, content, List.append_assoc, List.drop_append_of_le_length hlen] at hdrop
  rw [content, List.append_assoc]
  exact hdrop

end Pipe

/-! ## The relay -/

/-- Queues to and from a hub, between parties `κ`. -/
structure Relay (κ μ : Type) where
  /-- put in by a source and not picked by the hub -/
  up : κ → List (List κ × μ) := fun _ => []
  /-- the copies the hub still has to pass on: source, destination, message -/
  hub : List (κ × κ × μ) := []
  /-- passed on to a destination and not taken -/
  down : κ → List (κ × μ) := fun _ => []
  /-- taken by a destination -/
  out : κ → List (κ × μ) := fun _ => []
  /-- everything a source ever put in -/
  put : κ → List (List κ × μ) := fun _ => []

namespace Relay

variable {κ μ : Type} [DecidableEq κ]

/-- One step. The hub picks only when it has passed on everything, and injects only in the name
of a party that has nothing of its own under way to it. -/
inductive Step : Relay κ μ → Relay κ μ → Prop
  | put (r : Relay κ μ) (s : κ) (ds : List κ) (m : μ) : Step r { r with
      up := Function.update r.up s (r.up s ++ [(ds, m)])
      put := Function.update r.put s (r.put s ++ [(ds, m)]) }
  | pick (r : Relay κ μ) (s : κ) (ds : List κ) (m : μ) (rest : List (List κ × μ))
      (hhub : r.hub = []) (hup : r.up s = (ds, m) :: rest) : Step r { r with
      up := Function.update r.up s rest
      hub := ds.map fun d => (s, d, m) }
  | pass (r : Relay κ μ) (s d : κ) (m : μ) (rest : List (κ × κ × μ))
      (hhub : r.hub = (s, d, m) :: rest) : Step r { r with
      hub := rest
      down := Function.update r.down d (r.down d ++ [(s, m)]) }
  | inject (r : Relay κ μ) (s d : κ) (m : μ) (hup : r.up s = []) (hhub : ∀ c ∈ r.hub, c.1 ≠ s) :
      Step r { r with
      down := Function.update r.down d (r.down d ++ [(s, m)])
      put := Function.update r.put s (r.put s ++ [([d], m)]) }
  | take (r : Relay κ μ) (d : κ) (x : κ × μ) (rest : List (κ × μ)) (hdown : r.down d = x :: rest) :
      Step r { r with
      down := Function.update r.down d rest
      out := Function.update r.out d (r.out d ++ [x]) }

/-! ### A queue between each source and each destination -/

/-- The messages of one source in a queue. -/
def sentBy (s : κ) (q : List (κ × μ)) : List μ :=
  q.filterMap fun x => if x.1 = s then some x.2 else none

/-- The copies from one source to one destination. -/
def copies (s d : κ) (q : List (κ × κ × μ)) : List μ :=
  q.filterMap fun c => if c.1 = s ∧ c.2.1 = d then some c.2.2 else none

/-- The messages for one destination, once for each time it is listed. -/
def addressed (d : κ) (q : List (List κ × μ)) : List μ :=
  q.flatMap fun x => (x.1.filter (· = d)).map fun _ => x.2

/-- What a destination has taken from a source, followed by what is under way, is what the source
put in for it. -/
def Fifo (r : Relay κ μ) (s d : κ) : Prop :=
  sentBy s (r.out d) ++ sentBy s (r.down d) ++ copies s d r.hub ++ addressed d (r.up s) =
    addressed d (r.put s)

@[simp] theorem sentBy_append (s : κ) (q q' : List (κ × μ)) :
    sentBy s (q ++ q') = sentBy s q ++ sentBy s q' := by
  simp [sentBy]

@[simp] theorem addressed_append (d : κ) (q q' : List (List κ × μ)) :
    addressed d (q ++ q') = addressed d q ++ addressed d q' := by
  simp [addressed]

theorem sentBy_singleton_self (s : κ) (m : μ) : sentBy s [(s, m)] = [m] := by simp [sentBy]

variable {s t d : κ} {r : Relay κ μ}

theorem sentBy_singleton_ne (h : t ≠ s) (m : μ) : sentBy s [(t, m)] = [] := by
  simp [sentBy, h]

/-- The hub makes one copy for each listed destination. -/
theorem copies_map (s d : κ) (ds : List κ) (m : μ) :
    copies s d (ds.map fun e => (s, e, m)) = addressed d [(ds, m)] := by
  induction ds with
  | nil => rfl
  | cons e ds ih =>
    simp only [copies, addressed, List.map_cons, List.filterMap_cons, List.flatMap_cons,
      List.flatMap_nil, List.append_nil, true_and] at ih ⊢
    by_cases he : e = d
    · simp [he, ih]
    · simp [he, ih]

theorem copies_map_ne (h : t ≠ s) (d : κ) (ds : List κ) (m : μ) :
    copies s d (ds.map fun e => (t, e, m)) = [] := by
  simp [copies, h]

theorem copies_eq_nil {q : List (κ × κ × μ)} (h : ∀ c ∈ q, c.1 ≠ s) (d : κ) :
    copies s d q = [] := by
  rw [copies, List.filterMap_eq_nil_iff]
  intro c hc
  simp [h c hc]

/-- A message that reaches the queue of `d` in the name of `t`. -/
theorem sentBy_down {e : κ} {m : μ} (s : κ) :
    sentBy s (Function.update r.down d (r.down d ++ [(t, m)]) e) =
      sentBy s (r.down e) ++ if t = s ∧ d = e then [m] else [] := by
  by_cases he : e = d
  · subst he
    rw [Function.update_self, sentBy_append]
    by_cases ht : t = s
    · subst ht
      simp [sentBy_singleton_self]
    · simp [sentBy_singleton_ne ht, ht]
  · rw [Function.update_of_ne he, if_neg fun h => he h.2.symm, List.append_nil]

/-- **One step keeps every pair in order.** -/
theorem fifo_step {r' : Relay κ μ} (hr : ∀ s d, r.Fifo s d) (hstep : Step r r') (s d : κ) :
    r'.Fifo s d := by
  have hsd := hr s d
  unfold Fifo at hsd ⊢
  cases hstep with
  | put t ds m =>
    by_cases ht : s = t
    · subst ht
      simp only [Function.update_self, addressed_append, ← hsd, List.append_assoc]
    · simp only [Function.update_of_ne ht]
      exact hsd
  | pick t ds m rest hhub hup =>
    by_cases ht : s = t
    · subst ht
      rw [hup, hhub] at hsd
      simp only [Function.update_self, copies_map]
      rw [← hsd, show (ds, m) :: rest = [(ds, m)] ++ rest from rfl, addressed_append]
      simp [copies]
    · rw [hhub] at hsd
      simp only [Function.update_of_ne ht, copies_map_ne (Ne.symm ht)]
      exact hsd
  | pass t e m rest hhub =>
    rw [← hsd, hhub, sentBy_down]
    by_cases hc : t = s ∧ e = d
    · simp [copies, hc]
    · simp [copies, hc]
  | inject t e m hup hhub =>
    rw [sentBy_down]
    by_cases ht : s = t
    · subst ht
      rw [hup, copies_eq_nil hhub] at hsd ⊢
      simp only [Function.update_self, addressed_append, ← hsd]
      by_cases he : e = d <;> simp [addressed, he]
    · simp only [Function.update_of_ne ht]
      rw [if_neg fun h => ht h.1.symm, List.append_nil]
      exact hsd
  | take e x rest hdown =>
    by_cases he : d = e
    · subst he
      rw [hdown, show x :: rest = [x] ++ rest from rfl, sentBy_append] at hsd
      simp only [Function.update_self, sentBy_append, ← hsd, List.append_assoc]
    · simp only [Function.update_of_ne he]
      exact hsd

/-- **A queue for each pair.** At every moment the destination has taken the first of the messages
put in for it. -/
theorem Fifo.isPrefix (h : r.Fifo s d) : sentBy s (r.out d) <+: addressed d (r.put s) := by
  rw [← h, List.append_assoc, List.append_assoc]
  exact List.prefix_append _ _

/-- When nothing is under way it has taken them all. -/
theorem Fifo.of_drained (h : r.Fifo s d) (hup : r.up s = []) (hhub : r.hub = [])
    (hdown : r.down d = []) : sentBy s (r.out d) = addressed d (r.put s) := by
  rw [← h, hup, hhub, hdown]
  simp [sentBy, copies, addressed]

end Relay

end Avant.Lib
