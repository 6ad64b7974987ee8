import Avant.Ipc.ShmPool

/-!
# Exclusion in the shared-memory pool

The invariant behind exclusion: the use of a held slot is not zero (`Inv`). An exchange that finds
zero is then one of a slot that nobody holds. Every step keeps the invariant, if the `memset` does
not come upon a held slot.

* `exclusive_of_cleared`: no slot is held twice in a run in which no slot is held when the creator's
  `memset` clears it.
* `not_exclusive`: a run in which two processes hold one slot. The creator writes the header before
  it clears the use-list, so another process may attach and claim a slot in between, and the
  `memset` frees it.
-/

namespace Avant.Ipc

open Avant.Lib

/-! ## The invariant -/

section Fits

variable {Pid : Type}

/-- What holds of a process: the objects that it knows exist, and a slot that it gives back is one
that it holds. -/
structure Proc.Fits (held : List (Pid × Slot)) (next : Nat) (p : Pid) (proc : Proc) : Prop where
  mapped : ∀ o, proc.memPtr = some o → o < next
  object : ∀ o, proc.call.object = some o → o < next
  releasing : ∀ o i, proc.call = .releasing o i → (p, o, i) ∈ held

variable {held : List (Pid × Slot)} {next : Nat} {p : Pid} {proc : Proc}

variable (h : proc.Fits held next p)

include h

theorem Proc.Fits.succ : proc.Fits held (next + 1) p where
  mapped := fun o ho => Nat.lt_succ_of_lt (h.mapped o ho)
  object := fun o ho => Nat.lt_succ_of_lt (h.object o ho)
  releasing := h.releasing

/-- A slot gets a holder. -/
theorem Proc.Fits.cons (e : Pid × Slot) : proc.Fits (e :: held) next p where
  mapped := h.mapped
  object := h.object
  releasing := fun o i hcall => .tail e (h.releasing o i hcall)

/-- Another process gives a slot back. -/
theorem Proc.Fits.erase [DecidableEq Pid] {q : Pid} (hq : p ≠ q) (slot : Slot) :
    proc.Fits (held.erase (q, slot)) next p where
  mapped := h.mapped
  object := h.object
  releasing := fun o i hcall =>
    (List.mem_erase_of_ne fun heq => hq (congrArg Prod.fst heq)).mpr (h.releasing o i hcall)

omit h

/-- One process changes. -/
theorem fits_update [DecidableEq Pid] {procs : Pid → Proc} (hproc : proc.Fits held next p)
    (h : ∀ q, q ≠ p → (procs q).Fits held next q) (q : Pid) :
    (Function.update procs p proc q).Fits held next q :=
  (Function.forall_update_iff procs fun q => Proc.Fits held next q).mpr ⟨hproc, h⟩ q

end Fits

namespace State

variable {Pid : Type} {count : Nat} {s : State Pid} {p : Pid} {o i : Nat}

/-- Held slots are held once, are in use and stay so. -/
structure Inv (count : Nat) (s : State Pid) : Prop where
  nodup : (s.held.map Prod.snd).Nodup
  index : ∀ e ∈ s.held, e.2.2 < count
  used : ∀ e ∈ s.held, (s.objects e.2.1).useList e.2.2 ≠ 0
  object : ∀ e ∈ s.held, e.2.1 < s.next
  name : ∀ o, s.name = some o → o < s.next
  procs : ∀ q, (s.procs q).Fits s.held s.next q

theorem Inv.initial : Inv count ({} : State Pid) :=
  ⟨.nil, nofun, nofun, nofun, nofun, fun _ => ⟨nofun, nofun, nofun⟩⟩

variable (h : Inv count s)

include h

/-- The object that a process is at was made. -/
theorem Inv.object_lt {call : Call} (hcall : (s.procs p).call = call) (ho : call.object = some o) :
    o < s.next :=
  (h.procs p).object o (hcall ▸ ho)

/-! ## Parts of steps -/

/-- A step that changes an object so that held slots stay in use. -/
theorem Inv.modify {f : Object → Object}
    (hf : ∀ e ∈ s.held, e.2.1 = o → (f (s.objects o)).useList e.2.2 ≠ 0) :
    Inv count (s.modify o f) where
  nodup := h.nodup
  index := h.index
  used := by
    intro e he
    change (Function.update s.objects o (f (s.objects o)) e.2.1).useList e.2.2 ≠ 0
    rcases eq_or_ne e.2.1 o with heq | hne
    · rw [heq, Function.update_self]
      exact hf e he heq
    · rw [Function.update_of_ne hne]
      exact h.used e he
  object := h.object
  name := h.name
  procs := h.procs

/-- A step that does not change the use-list. -/
theorem Inv.modify_same {f : Object → Object}
    (hf : (f (s.objects o)).useList = (s.objects o).useList) : Inv count (s.modify o f) := by
  refine h.modify fun e he heq => ?_
  rw [hf, ← heq]
  exact h.used e he

/-- A store to the use-list that does not free a held slot. -/
theorem Inv.setUse {v : UInt8} (hv : v = 0 → ∀ e ∈ s.held, e.2 ≠ (o, i)) :
    Inv count (s.setUse o i v) := by
  refine h.modify fun e he heq => ?_
  change Function.update (s.objects o).useList i v e.2.2 ≠ 0
  rcases eq_or_ne e.2.2 i with hi | hi
  · rw [hi, Function.update_self]
    exact fun hzero => hv hzero e he (Prod.ext heq hi)
  · rw [Function.update_of_ne hi, ← heq]
    exact h.used e he

variable [DecidableEq Pid]

/-- A step of one process that touches nothing shared. -/
theorem Inv.update {proc : Proc} (hproc : proc.Fits s.held s.next p) :
    Inv count { s with procs := Function.update s.procs p proc } where
  nodup := h.nodup
  index := h.index
  used := h.used
  object := h.object
  name := h.name
  procs := fits_update hproc fun q _ => h.procs q

theorem Inv.goto {call : Call} (hobject : ∀ o, call.object = some o → o < s.next)
    (hrelease : ∀ o i, call = .releasing o i → (p, o, i) ∈ s.held) : Inv count (s.goto p call) :=
  h.update ⟨(h.procs p).mapped, hobject, hrelease⟩

theorem Inv.returns (p : Pid) (r : Ret) : Inv count (s.returns p r) :=
  h.goto nofun nofun

theorem Inv.attach (p : Pid) (ho : o < s.next) : Inv count (s.attach p o) := by
  refine h.update ⟨fun o' ho' => ?_, nofun, nofun⟩
  cases ho'
  exact ho

/-! ## `init` -/

theorem Inv.shmOpen (p : Pid) (grant : Bool) : Inv count (s.shmOpen p grant) := by
  unfold State.shmOpen
  split
  · exact h.returns p _
  · exact h.goto nofun nofun
  · next o hname =>
    refine h.goto (fun o' ho' => ?_) nofun
    cases ho'
    exact h.name _ hname

theorem Inv.shmCreate (p : Pid) (grant : Bool) : Inv count (s.shmCreate p grant) := by
  unfold State.shmCreate
  split
  · refine ⟨h.nodup, h.index, h.used, fun e he => Nat.lt_succ_of_lt (h.object e he),
      fun o ho => ?_, ?_⟩
    · cases ho
      exact Nat.lt_succ_self _
    · refine fits_update ⟨(h.procs p).succ.mapped, fun o ho => ?_, nofun⟩
        fun q _ => (h.procs q).succ
      cases ho
      exact Nat.lt_succ_self _
  · exact h.returns p _

theorem Inv.shmUnlink (p : Pid) (grant : Bool) : Inv count (s.shmUnlink p grant) where
  nodup := h.nodup
  index := h.index
  used := h.used
  object := h.object
  name := by
    cases grant
    · exact h.name
    · nofun
  procs := (h.returns p (.bool false)).procs

/-- A process that is at an object goes on there. -/
theorem Inv.goto_object (ho : o < s.next) {call : Call} (hcall : call.object = some o)
    (hrelease : ∀ i, call ≠ .releasing o i) : Inv count (s.goto p call) := by
  refine h.goto (fun o' ho' => ?_) fun o' i hrel => ?_
  · obtain rfl := Option.some.inj (hcall.symm.trans ho')
    exact ho
  · subst hrel
    cases hcall
    exact absurd rfl (hrelease i)

variable {pool : ShmPool}

theorem Inv.truncate (hcall : (s.procs p).call = .truncating o) (grant : Bool) :
    Inv count (s.truncate pool p o grant) := by
  have ho := h.object_lt hcall rfl
  unfold State.truncate
  split
  · exact (h.modify_same (o := o) rfl).goto_object ho rfl nofun
  · exact h.goto nofun nofun

theorem Inv.stat (hcall : (s.procs p).call = .statting o) (grant : Bool) :
    Inv count (s.stat pool p o grant) := by
  have ho := h.object_lt hcall rfl
  unfold State.stat
  split
  · exact h.goto_object ho rfl nofun
  · exact h.returns p _

theorem Inv.map {recreate : Bool} (hcall : (s.procs p).call = .mapping o recreate) (grant : Bool) :
    Inv count (s.map p o recreate grant) := by
  have ho := h.object_lt hcall rfl
  unfold State.map
  split
  · exact h.goto_object ho rfl nofun
  · exact h.goto_object ho rfl nofun
  · exact h.goto nofun nofun
  · exact h.returns p _

theorem Inv.store {field : Field} (hcall : (s.procs p).call = .storing o field) :
    Inv count (s.store pool p o field) := by
  have ho := h.object_lt hcall rfl
  have hstored := h.modify_same (o := o)
    (f := fun object => { object with header := pool.header.store object.header field }) rfl
  cases field <;> exact hstored.goto_object ho rfl nofun

theorem Inv.check {field : Field} (hcall : (s.procs p).call = .checking o field) :
    Inv count (s.check pool p o field) := by
  have ho := h.object_lt hcall rfl
  unfold State.check
  split
  · split
    · exact h.goto_object ho rfl nofun
    · exact h.attach p ho
  · exact h.returns p _

/-- The `memset` does not free a held slot. -/
theorem Inv.clear {s' : State Pid} (hclear : s.ClearsFree (.clear p i))
    (hstep : s.clear p i = some s') : Inv count s' := by
  unfold State.clear at hstep
  split at hstep
  · next o left hcall =>
    split at hstep
    · cases hstep
      have hfree : ∀ e ∈ s.held, e.2 ≠ (o, i) := by
        intro e he heq
        exact hclear (o, i) (by simp [cleared, hcall]) (heq ▸ List.mem_map_of_mem he)
      exact (h.setUse (v := 0) fun _ => hfree).goto_object (h.object_lt hcall rfl) rfl nofun
    · cases hstep
  · cases hstep

/-! ## `alloc` and `back` -/

omit [DecidableEq Pid] in
/-- A slot that is in use and that nobody holds gets a holder. -/
theorem Inv.hold (slot : Slot) (hfree : slot ∉ s.held.map Prod.snd) (hi : slot.2 < count)
    (hused : (s.objects slot.1).useList slot.2 ≠ 0) (ho : slot.1 < s.next) :
    Inv count { s with held := (p, slot) :: s.held } where
  nodup := List.nodup_cons.mpr ⟨hfree, h.nodup⟩
  index := List.forall_mem_cons.mpr ⟨hi, h.index⟩
  used := List.forall_mem_cons.mpr ⟨hused, h.used⟩
  object := List.forall_mem_cons.mpr ⟨ho, h.object⟩
  name := h.name
  procs := fun q => (h.procs q).cons _

/-- A process between its calls does not hold a slot any more. -/
theorem Inv.erase (hidle : (s.procs p).call.idle = true) (slot : Slot) :
    Inv count { s with held := s.held.erase (p, slot) } where
  nodup := (List.erase_sublist.map Prod.snd).nodup h.nodup
  index := fun e he => h.index e (List.mem_of_mem_erase he)
  used := fun e he => h.used e (List.mem_of_mem_erase he)
  object := fun e he => h.object e (List.mem_of_mem_erase he)
  name := h.name
  procs := by
    intro q
    rcases eq_or_ne q p with rfl | hq
    · refine ⟨(h.procs q).mapped, (h.procs q).object, fun o i hcall => ?_⟩
      rw [hcall] at hidle
      cases hidle
    · exact (h.procs q).erase hq slot

/-- The slot that is given back has no other holder. -/
theorem Inv.not_mem_erase {slot : Slot} (hheld : (p, slot) ∈ s.held) :
    ∀ e ∈ s.held.erase (p, slot), e.2 ≠ slot := by
  have hnodup := ((List.perm_cons_erase hheld).map Prod.snd).nodup_iff.mp h.nodup
  rintro e he rfl
  exact (List.nodup_cons.mp hnodup).1 (List.mem_map.mpr ⟨e, he, rfl⟩)

omit h

/-- The exchange of `alloc`: a slot whose use was zero gets a holder. -/
theorem Inv.claim (h : Inv pool.count s) (hcall : (s.procs p).call = .claiming o i) :
    Inv pool.count (s.claim pool p o i) := by
  have ho := h.object_lt hcall rfl
  have hset : Inv pool.count (s.setUse o i 1) := h.setUse fun hzero => absurd hzero (by decide)
  unfold State.claim
  split
  · next hi =>
    split
    · next hzero =>
      refine (hset.returns p _).hold (o, i) ?_ hi ?_ ho
      · intro hmem
        obtain ⟨e, he, heq⟩ := List.mem_map.mp hmem
        refine h.used e he ?_
        rw [heq]
        exact hzero
      · simp [State.setUse, State.modify, State.returns, State.goto]
    · exact hset.goto_object ho rfl nofun
  · exact h.returns p _

/-- The exchange of `back`. -/
theorem Inv.release (h : Inv count s) (hcall : (s.procs p).call = .releasing o i) :
    Inv count (s.release p o i) := by
  have hheld : (p, o, i) ∈ s.held := (h.procs p).releasing o i hcall
  have hreturned := h.returns p (.bool ((s.objects o).useList i = 1))
  have herased := hreturned.erase (p := p) (by simp [State.returns, State.goto, Call.idle]) (o, i)
  exact herased.setUse fun _ => h.not_mem_erase hheld

theorem Inv.init (h : Inv count s) (p : Pid) : Inv count (s.init p) := by
  unfold State.init
  split
  · exact h.goto nofun nofun
  · exact h.returns p _

theorem Inv.alloc (h : Inv count s) (p : Pid) : Inv count (s.alloc p) := by
  unfold State.alloc
  split
  · exact h.returns p _
  · next o hmapped => exact h.goto_object ((h.procs p).mapped o hmapped) rfl nofun

/-- `back` gives back the slot that the process holds. -/
theorem Inv.back (h : Inv pool.count s) {t : Nat} (hholds : s.Holds pool p t) :
    Inv pool.count (s.back pool p t) := by
  obtain ⟨⟨_, o, i⟩, hmem, rfl, hmapped, rfl⟩ := hholds
  unfold State.back
  rw [hmapped, ShmPool.indexOf_objectAt (h.index _ hmem)]
  refine h.goto (fun o' ho' => ?_) fun o' i' hrel => ?_
  · cases ho'
    exact (h.procs _).mapped o hmapped
  · obtain ⟨rfl, rfl⟩ := Call.releasing.inj hrel
    exact hmem

/-! ## Runs -/

variable {types : Pid → ObjectType} {s' : State Pid}

theorem Inv.advance (pool : ShmPool) (h : Inv pool.count s) {grant : Bool}
    (hstep : s.advance pool p grant = some s') : Inv pool.count s' := by
  revert hstep
  unfold State.advance
  cases hcall : (s.procs p).call with
  | returned r => nofun
  | opening => rintro ⟨⟩; exact h.shmOpen p grant
  | creating => rintro ⟨⟩; exact h.shmCreate p grant
  | truncating o => rintro ⟨⟩; exact h.truncate hcall grant
  | unlinking => rintro ⟨⟩; exact h.shmUnlink p grant
  | statting o => rintro ⟨⟩; exact h.stat hcall grant
  | mapping o recreate => rintro ⟨⟩; exact h.map hcall grant
  | storing o field => rintro ⟨⟩; exact h.store hcall
  | clearing o left =>
    intro hstep
    dsimp only at hstep
    split at hstep
    · cases hstep
      exact h.attach p (h.object_lt hcall rfl)
    · cases hstep
  | checking o field => rintro ⟨⟩; exact h.check hcall
  | claiming o i => rintro ⟨⟩; exact h.claim hcall
  | releasing o i => rintro ⟨⟩; exact h.release hcall

/-- **Every step keeps the invariant**, unless it clears a slot that is held. -/
theorem Inv.step {label : Label Pid} (h : Inv count s) (hclear : s.ClearsFree label)
    (hstep : s.step count types label = some s') : Inv count s' := by
  cases label with
  | init p =>
    rw [State.step] at hstep
    split at hstep
    · cases hstep
      exact h.init p
    · cases hstep
  | alloc p =>
    rw [State.step] at hstep
    split at hstep
    · cases hstep
      exact h.alloc p
    · cases hstep
  | back p t =>
    rw [State.step] at hstep
    split at hstep
    · next hguard =>
      cases hstep
      exact h.back hguard.2
    · cases hstep
  | step p grant => exact Inv.advance ⟨count, types p⟩ h hstep
  | clear p i => exact h.clear hclear hstep

/-- **Exclusion**: no slot is held twice, in a run in which no slot is held when the `memset` of the
creator clears it. -/
theorem exclusive_of_cleared {labels : List (Label Pid)}
    (hclear : Along (State.step count types) State.ClearsFree {} labels)
    (hrun : exec (State.step count types) {} labels = some s) : s.Exclusive :=
  (exec_invariant (fun h hok hstep => h.step hok hstep) Inv.initial hclear hrun).nodup

/-- Bytes. -/
def byteType : ObjectType := ⟨1, 1, Nat.one_pos⟩

/-- A call of `init` with `n` steps that all succeed. -/
def initSteps (p : Bool) (n : Nat) : List (Label Bool) := .init p :: List.replicate n (.step p true)

/-- The process `false` creates a pool of two slots. When it has written the header, `true` attaches,
claims a slot and gives it back before the `memset` comes to it; then both claim a slot. -/
def sampleRun : List (Label Bool) :=
  initSteps false 8 ++ [.clear false 1] ++ initSteps true 7 ++
    [.alloc true, .step true true, .back true 26, .step true true, .clear false 0, .step false true,
      .alloc true, .step true true, .alloc false, .step false true, .step false true]

theorem exclusive_of_cleared_sample :
    Along (State.step 2 fun _ => byteType) State.ClearsFree {} sampleRun ∧
    ∃ s, exec (State.step 2 fun _ => byteType) {} sampleRun = some s ∧
      s.held = [(false, 0, 1), (true, 0, 0)] ∧ s.Exclusive := by
  have hclear : Along (State.step 2 fun _ => byteType) State.ClearsFree {} sampleRun := by
    decide
  exact ⟨hclear, exists_exec (by decide) fun s hrun h => ⟨h, exclusive_of_cleared hclear hrun⟩⟩

/-- The process `true` attaches when the creator `false` has written the header of a pool of one
slot, and claims the slot before the creator clears it. -/
def raceRun : List (Label Bool) :=
  initSteps false 8 ++ initSteps true 7 ++ [.alloc true, .step true true] ++
    [.clear false 0, .step false true, .alloc false, .step false true]

/-- **Two processes may hold one slot**, where one of them attaches while the other is in `init`. -/
theorem not_exclusive :
    ∃ s, exec (State.step 1 fun _ => byteType) {} raceRun = some s ∧
      (true, 0, 0) ∈ s.held ∧ (false, 0, 0) ∈ s.held :=
  exists_exec (by decide) fun _ _ h => h

end State

end Avant.Ipc
