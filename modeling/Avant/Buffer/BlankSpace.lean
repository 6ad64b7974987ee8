import Avant.Buffer.Queue

/-!
# The blank space of a buffer

`blank_space` is what was read, what is free, and by how much the block may grow up to the limit.
Any write of that many bytes should succeed. But `write` also refuses what exceeds the limit, and
the block can be larger than the limit: a block that has to grow gets room for the bytes that are
used and for those that come, of which each may be as many as the limit.

* `write_blankSpace_iff`: of a buffer of any run, a write of no more bytes than its blank space
  succeeds exactly if they do not exceed the limit.
-/

namespace Avant

open Lib

namespace Buffer

section Blank

variable {v : View} {m : Memory} {grant : Nat → Bool} {turns : Nat} {source : Bytes}

theorem View.blankSpace_run : blankSpace ⟨v.buffer, m⟩ =
    .ok (v.front.length + v.tail.length +
      if v.buffer.capacity < v.limitMax then v.limitMax - v.buffer.capacity else 0)
      ⟨v.buffer, m⟩ := by
  refine run_self (run_if_neg nofun (run_bind afterSize_run ?_))
  refine run_bind (a := v.front.length) ?_ rfl
  simp [diff, buffer, offset]

/-- What exceeds the limit is refused. -/
theorem write_limit (hlimit : v.limitMax < source.length) :
    write grant turns (some source) ⟨v.buffer, m⟩ =
      .error (.threw "write: size > limit_max") ⟨v.buffer, m⟩ := by
  refine run_if_neg (by omega) (run_bind (run_self (run_if_neg nofun rfl)) (run_self ?_))
  exact run_if_pos hlimit rfl

/-- What the limit allows is written, if there is room or the block may grow. -/
theorem write_succeeds (hm : m.get v.block = some v.bytes) (hs : Sized v.buffer)
    (hturns : 64 ≤ turns) (hpos : 1 ≤ source.length) (hlimit : source.length ≤ v.limitMax)
    (hsum : v.content.length + source.length ≤ 2 ^ 63)
    (hroom : v.content.length + source.length ≤ v.queue.capacity ∨
      v.content.length ≤ v.limitMax) :
    ∃ s', write (fun _ => true) turns (some source) ⟨v.buffer, m⟩ = .ok source.length s' := by
  have hblock := writeBlock_ensures (fun _ => true) hm hs hturns hlimit hsum
  cases hrun : writeBlock (fun _ => true) turns source ⟨v.buffer, m⟩ with
  | ok _ s' => exact ⟨s', (write_eq (by omega) hlimit).trans (run_bind hrun rfl)⟩
  | error e s' =>
    rw [hrun] at hblock
    obtain ⟨-, ⟨-, n, hn⟩ | ⟨-, hused, hmore⟩⟩ := hblock
    · cases hn
    · omega

end Blank

variable {ι : Type} [DecidableEq ι]

/-- **Writing up to the blank space**: it succeeds exactly if the limit allows it. -/
theorem write_blankSpace_iff {turns : Nat} (hturns : 64 ≤ turns) {calls : List (Call ι)}
    {s : State ι} (hfit : Along (State.step turns) (Fits (2 ^ 63)) {} calls)
    (hrun : exec (State.step turns) {} calls = some s) {x : ι} {b : Buffer}
    (hx : s.objs x = some b) {source : Bytes} (hpos : 1 ≤ source.length)
    (hsum : b.used + source.length ≤ 2 ^ 63) :
    ∃ n, blankSpace ⟨b, s.mem⟩ = .ok n ⟨b, s.mem⟩ ∧ (source.length ≤ n →
      ((∃ s', write (fun _ => true) turns (some source) ⟨b, s.mem⟩ = .ok source.length s') ↔
        source.length ≤ b.limitMax)) := by
  obtain ⟨-, q, -, -, -, hrep⟩ := State.run_refines hturns rep_empty hfit hrun
  obtain ⟨d, -, howns, hs⟩ := hrep.exists_owns hx
  rw [howns.used_eq] at hsum
  cases howns with
  | null limitMax => exact ⟨0, rfl, fun h => by omega⟩
  | view v hm =>
    refine ⟨_, View.blankSpace_run, fun hle => ⟨?_, fun hlimit => ?_⟩⟩
    · rintro ⟨s', hwrite⟩
      by_contra hlimit
      rw [write_limit (Nat.lt_of_not_le hlimit)] at hwrite
      cases hwrite
    · refine write_succeeds hm hs hturns hpos hlimit hsum ?_
      -- the content may exceed the limit only if the block does
      have hcap : v.buffer.capacity = v.front.length + v.content.length + v.tail.length := rfl
      have hqueue : v.queue.capacity = v.buffer.capacity := v.length_bytes
      by_cases hless : v.buffer.capacity < v.limitMax
      · exact .inr (by omega)
      · rw [if_neg hless] at hle
        exact .inl (by omega)

/-- A buffer with a limit of 1024 takes 1000 bytes twice and gives back 1500. -/
def overfull : List (Call Unit) :=
  [.make () fun _ => true, .method () (.write (fun _ => true) (some (List.replicate 1000 1))),
    .method () (.write (fun _ => true) (some (List.replicate 1000 2))), .method () (.read true 1500)]

deriving instance DecidableEq for EStateM.Result

theorem exec_overfull : ∃ s : State Unit, exec (State.step 64) {} overfull = some s ∧
    ∃ b ∈ s.objs (), b.used = 500 ∧ b.limitMax = 1024 ∧
      blankSpace ⟨b, s.mem⟩ = .ok 1500 ⟨b, s.mem⟩ ∧
      write (fun _ => true) 64 (some (List.replicate 1500 3)) ⟨b, s.mem⟩ =
        .error (.threw "write: size > limit_max") ⟨b, s.mem⟩ :=
  exists_exec (by decide +kernel) fun _ _ h => h

theorem along_overfull : Along (State.step 64) (Fits (2 ^ 63)) {} overfull := by decide +kernel

/-- Its blank space is 1500, and it takes 1000 bytes. -/
theorem write_blankSpace_overfull : ∃ (s : State Unit) (b : Buffer) (s' : Object),
    exec (State.step 64) {} overfull = some s ∧ s.objs () = some b ∧
      blankSpace ⟨b, s.mem⟩ = .ok 1500 ⟨b, s.mem⟩ ∧
      write (fun _ => true) 64 (some (List.replicate 1000 3)) ⟨b, s.mem⟩ = .ok 1000 s' := by
  obtain ⟨s, hrun, b, hb, hused, hlimit, hblank, -⟩ := exec_overfull
  have hlen : (List.replicate 1000 (3 : UInt8)).length = 1000 := List.length_replicate
  have hpos : 1 ≤ (List.replicate 1000 (3 : UInt8)).length := by rw [hlen]; decide
  obtain ⟨n, hn, hiff⟩ := write_blankSpace_iff le_rfl along_overfull hrun hb hpos
    (by rw [hlen, hused]; decide)
  rw [hblank] at hn
  cases hn
  rw [hlen, hlimit] at hiff
  obtain ⟨s', hs'⟩ := (hiff (by decide)).mpr (by decide)
  exact ⟨s, b, s', hrun, hb, hblank, hs'⟩

/-- But 1500 bytes are refused. -/
theorem not_write_blankSpace : ∃ (s : State Unit) (b : Buffer) (source : Bytes),
    Reaches (State.step 64) (Fits (2 ^ 63)) {} s ∧ s.objs () = some b ∧ source.length = 1500 ∧
      blankSpace ⟨b, s.mem⟩ = .ok 1500 ⟨b, s.mem⟩ ∧
      write (fun _ => true) 64 (some source) ⟨b, s.mem⟩ =
        .error (.threw "write: size > limit_max") ⟨b, s.mem⟩ := by
  obtain ⟨s, hrun, b, hb, -, -, hblank, hwrite⟩ := exec_overfull
  exact ⟨s, b, _, ⟨overfull, along_overfull, hrun⟩, hb, List.length_replicate, hblank, hwrite⟩

end Buffer

end Avant
