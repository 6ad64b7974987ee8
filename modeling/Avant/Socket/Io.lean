import Avant.Lib.BigEndian

/-!
# What the kernel answers

`socket::recv` and `socket::send` (`src/socket/socket.cpp`) return a length and an errno. What a
caller can tell apart is an inductive type here, and the answers an event handler will get are
part of its input: a list, one entry per call, a list that has run out standing for a socket
that would block. With TLS the same answers come from `SSL_read` and `SSL_write`, whose
`WANT_READ` and `WANT_WRITE` are reported as `EAGAIN`.

`recvLoop` is the read loop of `stream_ctx::on_event` and `ipc_stream_ctx::on_event`;
`flushLoop` the send loop of the `try_send_flush` family.
-/

namespace Avant.Socket

open Avant.Lib

/-- An answer of `socket::recv`. -/
inductive RecvResult
  /-- a positive length -/
  | data (bs : Bytes)
  /-- `EAGAIN` or `EWOULDBLOCK` -/
  | again
  /-- `EINTR` -/
  | intr
  /-- end of stream, or any other error -/
  | closed
  deriving DecidableEq

/-- An answer of `socket::send`. -/
inductive SendResult
  /-- a positive length -/
  | sent (n : Nat)
  /-- `EAGAIN` or `EWOULDBLOCK` -/
  | again
  /-- `EINTR` -/
  | intr
  /-- length zero, with no errno -/
  | zero
  /-- any other error -/
  | failed
  deriving DecidableEq

/-- The read loop of a connection: what it gathers in a buffer of `size` bytes, or `none` when
it finds the peer gone. -/
def recvLoop (size : Nat) : List RecvResult → Bytes → Option Bytes
  | [], acc => some acc
  | r :: rs, acc =>
    if acc.length < size then
      match r with
      | .data bs => recvLoop size rs (acc ++ bs)
      | .again => some acc
      | .intr => recvLoop size rs acc
      | .closed => none
    else some acc

/-- The send loop: what is left of the buffer, what reached the socket, and whether the loop
gave up on an error. `EINTR` ends it as `EAGAIN` does. -/
def flushLoop : List SendResult → Bytes → Bytes → Bytes × Bytes × Bool
  | [], buf, wire => (buf, wire, false)
  | r :: rs, buf, wire =>
    if buf = [] then (buf, wire, false)
    else
      match r with
      | .sent n => flushLoop rs (buf.drop n) (wire ++ buf.take n)
      | .again | .intr => (buf, wire, false)
      | .zero | .failed => (buf, wire, true)

/-- The send loop takes some bytes off the front of the buffer and puts them behind the others. -/
theorem flushLoop_eq (rs : List SendResult) (buf wire : Bytes) :
    ∃ n, (flushLoop rs buf wire).1 = buf.drop n ∧
      (flushLoop rs buf wire).2.1 = wire ++ buf.take n := by
  induction rs generalizing buf wire with
  | nil => exact ⟨0, by simp [flushLoop]⟩
  | cons r rs ih =>
    unfold flushLoop
    split
    · exact ⟨0, by simp⟩
    · cases r with
      | sent n =>
        obtain ⟨k, hbuf, hwire⟩ := ih (buf.drop n) (wire ++ buf.take n)
        refine ⟨n + k, ?_, ?_⟩
        · rw [hbuf, List.drop_drop]
        · rw [hwire, List.take_add, List.append_assoc]
      | again | intr | zero | failed => exact ⟨0, by simp⟩

end Avant.Socket
