import Avant.Lib.BigEndian

/-!
# Writing to a FIFO

Model of `fifo::write` (`external/avant-ipc/fifo.h`) and of a caller that retries as the header
says: after a return of `-1` with `EAGAIN` it calls `write` again with the same arguments, until it
returns the length. The answers of `::write` are part of the input, one for each system call; a
list that has run out stands for a call that has not returned yet.

A call that returns `-1` does not say how much it has written. `transmit_pipe` is what enters the
pipe for a message: the parts that the calls with `EAGAIN` have written, and the message.

* `exactly_once_iff`: over all messages this is their concatenation exactly if no `EAGAIN` comes
  behind a short write of the same call (`Clean`).
-/

namespace Avant.Ipc

open Avant.Lib

/-- `errno` -/
inductive Errno
  | eintr
  | eagain
  | epipe
  | einval
  deriving DecidableEq

/-- An answer of `::write`: a number of bytes, of those that it was given, or an error. -/
inductive Answer
  | wrote (n : Nat)
  | failed (errno : Errno)
  deriving DecidableEq

/-- How a call of `fifo::write` ends, with `total_written` at that point, the answers that are left
and the bytes that entered the pipe. `-1` is an error with its `errno`. -/
structure Exit where
  ret : Except Errno Nat
  total : Nat
  answers : List Answer
  pipe : Bytes

/-- The loop of `fifo::write`, with `total_written` -/
def writeLoop (buffer : Bytes) (len : Nat) : List Answer → Nat → Bytes → Option Exit
  | [], total, pipe => if total < len then none else some ⟨.ok total, total, [], pipe⟩
  | answer :: answers, total, pipe =>
    if total < len then
      match answer with
      | .wrote n =>
        let written := min n (len - total)
        writeLoop buffer len answers (total + written)
          (pipe ++ (buffer.drop total).take written)
      | .failed .eintr => writeLoop buffer len answers total pipe
      | .failed errno => some ⟨.error errno, total, answers, pipe⟩
    else some ⟨.ok total, total, answer :: answers, pipe⟩

/-- `fifo::write`; a null pointer has no bytes behind it -/
def write (buffer : Option Bytes) (len : Int) (answers : List Answer) (pipe : Bytes) :
    Option Exit :=
  if len < 0 ∨ (buffer = none ∧ 0 < len) then some ⟨.error .einval, 0, answers, pipe⟩
  else writeLoop (buffer.getD []) len.toNat answers 0 pipe

/-- What a caller has achieved. -/
structure Sent where
  answers : List Answer
  pipe : Bytes

/-- A message is written again until `write` returns its length. A call with `EAGAIN` uses up an
answer, so there are at most as many calls as answers and one more. -/
def transmit (msg : Bytes) : Nat → List Answer → Bytes → Option Sent
  | 0, _, _ => none
  | turns + 1, answers, pipe =>
    match write (some msg) msg.length answers pipe with
    | some ⟨.ok _, _, answers, pipe⟩ => some ⟨answers, pipe⟩
    | some ⟨.error .eagain, _, answers, pipe⟩ => transmit msg turns answers pipe
    | _ => none

/-- The messages one after another. -/
def transmitAll : List Bytes → List Answer → Bytes → Option Sent
  | [], answers, pipe => some ⟨answers, pipe⟩
  | msg :: msgs, answers, pipe =>
    match transmit msg (answers.length + 1) answers pipe with
    | none => none
    | some s => transmitAll msgs s.answers s.pipe

/-- No `EAGAIN` comes after the current call has written a part of its message. `taken` is what the
pipe has taken of the first message since the call began; a message without bytes makes no system
call. -/
def Clean : List Answer → List Bytes → Nat → Prop
  | [], _, _ => True
  | answer :: answers, msgs, taken =>
    match msgs.dropWhile List.isEmpty, answer with
    | [], _ => True
    | msg :: msgs, .wrote n =>
      if msg.length ≤ taken + n then Clean answers msgs 0 else Clean answers (msg :: msgs) (taken + n)
    | msg :: msgs, .failed .eintr => Clean answers (msg :: msgs) taken
    | msg :: msgs, .failed .eagain => taken = 0 ∧ Clean answers (msg :: msgs) 0
    -- the caller gives up
    | _ :: _, .failed _ => True

/-! ## One call -/

/-- The call has written the bytes of the buffer from `total` on, up to `total_written` where it
ends; it returns the length only when all of them are written. -/
structure Exit.Wrote (x : Exit) (buffer : Bytes) (len total : Nat) (answers : List Answer)
    (pipe : Bytes) : Prop where
  bound : total ≤ x.total ∧ x.total ≤ len
  pipe : x.pipe = pipe ++ (buffer.drop total).take (x.total - total)
  done : ∀ n, x.ret = .ok n → n = len ∧ x.total = len
  used : ∀ e, x.ret = .error e → x.answers.length < answers.length

variable {answers : List Answer} {pipe msg : Bytes}

theorem writeLoop_wrote {buffer : Bytes} {len total : Nat} {x : Exit}
    (h : writeLoop buffer len answers total pipe = some x) (hle : total ≤ len) :
    x.Wrote buffer len total answers pipe := by
  induction answers generalizing total pipe with
  | nil =>
    unfold writeLoop at h
    split at h
    · cases h
    · cases h
      obtain rfl : total = len := by omega
      exact ⟨⟨le_refl _, le_refl _⟩, by simp, by simp, nofun⟩
  | cons answer answers ih =>
    unfold writeLoop at h
    split at h
    · -- the loop goes on with what `::write` answered
      match answer with
      | .wrote n =>
        have hrest := ih h (by omega)
        refine ⟨by have := hrest.bound; omega, ?_, hrest.done, fun e he => ?_⟩
        · have hsplit : x.total - total = min n (len - total) +
              (x.total - (total + min n (len - total))) := by
            have := hrest.bound
            omega
          rw [hrest.pipe, hsplit, List.take_add, List.drop_drop, List.append_assoc]
        · exact Nat.lt_succ_of_lt (hrest.used e he)
      | .failed .eintr =>
        have hrest := ih h hle
        exact { hrest with used := fun e he => Nat.lt_succ_of_lt (hrest.used e he) }
      | .failed .eagain | .failed .epipe | .failed .einval =>
        cases h
        exact ⟨⟨le_refl _, hle⟩, by simp, nofun, fun _ _ => Nat.lt_succ_self _⟩
    · cases h
      obtain rfl : total = len := by omega
      exact ⟨⟨le_refl _, le_refl _⟩, by simp, by simp, nofun⟩

/-- A call for a message. -/
theorem write_eq (msg : Bytes) (answers : List Answer) (pipe : Bytes) :
    write (some msg) msg.length answers pipe = writeLoop msg msg.length answers 0 pipe := by
  have hvalid : ¬ ((msg.length : Int) < 0 ∨ (some msg = none ∧ 0 < (msg.length : Int))) := by simp
  rw [write, if_neg hvalid, Int.toNat_natCast, Option.getD_some]

theorem write_wrote {x : Exit} (h : write (some msg) msg.length answers pipe = some x) :
    x.Wrote msg msg.length 0 answers pipe :=
  writeLoop_wrote (write_eq msg answers pipe ▸ h) (Nat.zero_le _)

/-- All is written. -/
theorem writeLoop_done (buffer : Bytes) (len : Nat) (answers : List Answer) (pipe : Bytes) :
    writeLoop buffer len answers len pipe = some ⟨.ok len, len, answers, pipe⟩ := by
  cases answers <;> simp [writeLoop]

/-! ## Messages -/

theorem clean_nil_cons (answers : List Answer) (msgs : List Bytes) :
    Clean answers ([] :: msgs) 0 ↔ Clean answers msgs 0 := by
  cases answers <;> rfl

/-- What `Clean` asks of the answers to a call, and of those behind it. -/
theorem writeLoop_clean (msgs : List Bytes) {total : Nat} {x : Exit}
    (h : writeLoop msg msg.length answers total pipe = some x) (hlt : total < msg.length) :
    (∀ n, x.ret = .ok n → (Clean answers (msg :: msgs) total ↔ Clean x.answers msgs 0)) ∧
      (x.ret = .error .eagain →
        (Clean answers (msg :: msgs) total ↔ x.total = 0 ∧ Clean x.answers (msg :: msgs) 0)) := by
  have hfirst : (msg :: msgs).dropWhile List.isEmpty = msg :: msgs := by
    refine List.dropWhile_cons_of_neg fun hnil => ?_
    rw [List.isEmpty_iff.mp hnil] at hlt
    exact absurd hlt (Nat.not_lt_zero _)
  induction answers generalizing total pipe with
  | nil =>
    unfold writeLoop at h
    rw [if_pos hlt] at h
    cases h
  | cons answer answers ih =>
    unfold writeLoop at h
    rw [if_pos hlt] at h
    match answer with
    | .wrote n =>
      simp only [Clean, hfirst]
      dsimp only at h
      split
      · -- the message is through, and the loop ends
        have hsum : total + min n (msg.length - total) = msg.length := by omega
        rw [hsum, writeLoop_done] at h
        cases h
        exact ⟨fun _ _ => Iff.rfl, nofun⟩
      · have hmin : min n (msg.length - total) = n := by omega
        rw [hmin] at h
        exact ih h (by omega)
    | .failed .eintr =>
      simp only [Clean, hfirst]
      exact ih h hlt
    | .failed .eagain =>
      cases h
      simp only [Clean, hfirst]
      exact ⟨nofun, fun _ => trivial⟩
    | .failed .epipe | .failed .einval =>
      cases h
      exact ⟨nofun, nofun⟩

/-- What entered the pipe for a message: what the calls with `EAGAIN` had written, which is nothing
exactly if the answers are clean, and the message. -/
theorem transmit_pipe {turns : Nat} {s : Sent} (msgs : List Bytes)
    (h : transmit msg turns answers pipe = some s) :
    ∃ parts, s.pipe = pipe ++ (parts ++ msg) ∧
      (Clean answers (msg :: msgs) 0 ↔ parts = [] ∧ Clean s.answers msgs 0) := by
  by_cases hmsg : msg = []
  · -- no system call
    subst hmsg
    cases turns with
    | zero => cases h
    | succ turns =>
      have hwrite : write (some []) ([] : Bytes).length answers pipe = _ :=
        (write_eq [] answers pipe).trans (writeLoop_done [] 0 answers pipe)
      rw [transmit, hwrite] at h
      cases h
      exact ⟨[], by simp, by simp [clean_nil_cons]⟩
  have hpos : 0 < msg.length := List.length_pos_iff.mpr hmsg
  induction turns generalizing answers pipe with
  | zero => cases h
  | succ turns ih =>
    unfold transmit at h
    split at h
    · next n total answers' pipe' hwrite =>
      cases h
      have hwrote := write_wrote hwrite
      have hpipe : pipe' = pipe ++ msg.take total := by simpa using hwrote.pipe
      obtain ⟨-, rfl⟩ : n = msg.length ∧ total = msg.length := hwrote.done n rfl
      refine ⟨[], by rw [hpipe, List.take_length, List.nil_append], ?_⟩
      rw [(writeLoop_clean msgs (write_eq msg answers pipe ▸ hwrite) hpos).1 n rfl]
      simp
    · next total answers' pipe' hwrite =>
      obtain ⟨parts, hpipe, hclean⟩ := ih h
      have hpart : pipe' = pipe ++ msg.take total := by simpa using (write_wrote hwrite).pipe
      refine ⟨msg.take total ++ parts, by rw [hpipe, hpart]; simp, ?_⟩
      rw [(writeLoop_clean msgs (write_eq msg answers pipe ▸ hwrite) hpos).2 rfl, hclean]
      simp [hmsg, and_assoc]
    · cases h

/-- There are at most as many calls with `EAGAIN` as answers. -/
theorem transmit_turns {turns : Nat} (h : answers.length < turns) :
    transmit msg (turns + 1) answers pipe = transmit msg turns answers pipe := by
  induction turns generalizing answers pipe with
  | zero => exact absurd h (Nat.not_lt_zero _)
  | succ turns ih =>
    rw [transmit, transmit]
    split
    · rfl
    · next total answers' pipe' hwrite =>
      have hused : answers'.length < answers.length := (write_wrote hwrite).used .eagain rfl
      rw [ih (by omega)]
    · rfl

/-- What entered the pipe for a list of messages: if something else, then more. -/
theorem transmitAll_pipe {msgs : List Bytes} {s : Sent} (h : transmitAll msgs answers pipe = some s) :
    ∃ n, s.pipe.length = pipe.length + n + msgs.flatten.length ∧
      (n = 0 → s.pipe = pipe ++ msgs.flatten) ∧ (Clean answers msgs 0 ↔ n = 0) := by
  induction msgs generalizing answers pipe with
  | nil =>
    cases h
    refine ⟨0, rfl, fun _ => (List.append_nil pipe).symm, fun _ => rfl, fun _ => ?_⟩
    cases answers <;> trivial
  | cons msg msgs ih =>
    unfold transmitAll at h
    split at h
    · cases h
    · next r hr =>
      obtain ⟨parts, hpipe, hclean⟩ := transmit_pipe msgs hr
      obtain ⟨n, hlen, hsame, hrest⟩ := ih h
      refine ⟨parts.length + n, ?_, fun hzero => ?_, ?_⟩
      · simp only [hlen, hpipe, List.length_append, List.flatten_cons]
        omega
      · have hnil : parts = [] := List.eq_nil_of_length_eq_zero (by omega)
        rw [hsame (by omega), hpipe, hnil]
        simp
      · rw [hclean, hrest, Nat.add_eq_zero_iff, List.length_eq_zero_iff]

/-- **Exactly once.** A caller that retries as documented gets the messages into the pipe, and
nothing else, exactly if no `EAGAIN` comes after a part of the message was written since the call
began. -/
theorem exactly_once_iff {msgs : List Bytes} {answers : List Answer} {s : Sent}
    (h : transmitAll msgs answers [] = some s) : s.pipe = msgs.flatten ↔ Clean answers msgs 0 := by
  obtain ⟨n, hlen, hsame, hclean⟩ := transmitAll_pipe h
  rw [hclean]
  constructor
  · intro hpipe
    rw [hpipe, List.length_nil] at hlen
    omega
  · intro hzero
    simpa using hsame hzero

/-- A short write, an interruption and a full pipe between messages. -/
def sampleAnswers : List Answer :=
  [.failed .eagain, .wrote 1, .failed .eintr, .wrote 2, .wrote 1]

theorem exactly_once_sample :
    ∃ s, transmitAll [[1, 2], [3]] sampleAnswers [] = some s ∧ s.pipe = [1, 2, 3] := by
  have hrun : transmitAll [[1, 2], [3]] sampleAnswers [] = some ⟨[], [1, 2, 3]⟩ := rfl
  have hclean : Clean sampleAnswers [[1, 2], [3]] 0 := by simp [sampleAnswers, Clean]
  exact ⟨_, hrun, (exactly_once_iff hrun).mpr hclean⟩

/-- `EAGAIN` behind a short write of `k` bytes puts them into the pipe twice. -/
theorem transmitAll_again {k : Nat} (hpos : 0 < k) (hlt : k < msg.length) :
    transmitAll [msg] [.wrote k, .failed .eagain, .wrote msg.length] [] =
      some ⟨[], msg.take k ++ msg⟩ := by
  have hmsg : 0 < msg.length := by omega
  have hmin : min k msg.length = k := by omega
  have hvalid : ¬ (msg.length : Int) < 0 := by omega
  simp [transmitAll, transmit, write, writeLoop, hmsg, hmin, hlt, hvalid]

/-- A message of more than `PIPE_BUF` bytes, of which the pipe has room for some. -/
theorem not_exactly_once :
    ∃ msg answers s, transmitAll [msg] answers [] = some s ∧ s.pipe ≠ [msg].flatten := by
  obtain ⟨msg, hmsg⟩ : ∃ msg : Bytes, msg.length = 5000 :=
    ⟨List.replicate 5000 0x61, List.length_replicate⟩
  have hlt : 4096 < msg.length := by omega
  refine ⟨msg, _, _, transmitAll_again (by decide) hlt, fun heq => ?_⟩
  have hlen := congrArg List.length heq
  simp only [List.length_append, List.length_take, List.flatten_singleton] at hlen
  omega

end Avant.Ipc
