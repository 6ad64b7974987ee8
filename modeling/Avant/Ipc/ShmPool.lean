import Mathlib.Logic.Function.Basic
import Avant.Lib.Machine

/-!
# The shared-memory pool

Model of `external/avant-ipc/shm.h`: processes that share a pool by its name and its number of
slots, each with its own type `T`. A process is at a point of `init`, `alloc` or `back` or has
returned from them; a step is one system call, one load or store of a header field, one store of the
`memset` or one atomic exchange, seen by all processes in one order. The stores of the `memset` come
in any order. A system call fails for reasons of its own if it is not granted.

The kernel has the object that the name stands for, and the objects that were created, whose bytes
are zero at first. Pointers are counted from the start of the mapping. `held` is not a variable of
the program: it has the slots that `alloc` returned and that were not given back, with the process
that got them. `back` is called only with a pointer of a slot that the process holds.

Left out: `close`, `unlink`, `reset` and `foreach`, which the processes do not call. Sizes are
natural numbers: a pool has less than 2^64 bytes.
-/

namespace Avant.Ipc

open Avant.Lib

/-! ## The layout of a pool -/

/-- `sizeof(T)` and `std::alignment_of<T>::value` -/
structure ObjectType where
  size : Nat
  alignment : Nat
  size_pos : 0 < size

/-- `shm_pool`: what the constructor is given -/
structure ShmPool where
  count : Nat
  object : ObjectType

namespace ShmPool

/-- `sizeof(header)` -/
def headerSize : Nat := 24

/-- `std::atomic_ref<std::uint8_t>::required_alignment` -/
def useListAlignment : Nat := 1

/-- `use_list_padding` -/
def useListPadding : Nat := (useListAlignment - headerSize % useListAlignment) % useListAlignment

variable (pool : ShmPool)

/-- `pre_obj_size` -/
def preObjSize : Nat := headerSize + useListPadding + pool.count

/-- `padding` -/
def padding : Nat :=
  (pool.object.alignment - pool.preObjSize % pool.object.alignment) % pool.object.alignment

/-- `mem_size` -/
def memSize : Nat := pool.preObjSize + pool.padding + pool.object.size * pool.count

/-- `object_base` -/
def objectBase : Nat := headerSize + useListPadding + pool.count + pool.padding

/-- `&object_ptr[i]` -/
def objectAt (i : Nat) : Nat := pool.objectBase + i * pool.object.size

/-- The index that `back` computes from a pointer, unless it returns false. -/
def indexOf (t : Nat) : Option Nat :=
  if t < pool.objectBase ∨ pool.objectAt pool.count ≤ t then none
  else
    let gap := t - pool.objectBase
    if gap % pool.object.size ≠ 0 then none else some (gap / pool.object.size)

variable {pool}

/-- `back` finds the slot of a pointer that `alloc` returned. -/
theorem indexOf_objectAt {i : Nat} (hi : i < pool.count) :
    pool.indexOf (pool.objectAt i) = some i := by
  have hend : pool.objectAt i < pool.objectAt pool.count :=
    Nat.add_lt_add_left (Nat.mul_lt_mul_of_pos_right hi pool.object.size_pos) _
  have hbase : pool.objectBase ≤ pool.objectAt i := Nat.le_add_right _ _
  have hinside :
      ¬ (pool.objectAt i < pool.objectBase ∨ pool.objectAt pool.count ≤ pool.objectAt i) := by
    omega
  have hgap : pool.objectAt i - pool.objectBase = i * pool.object.size := Nat.add_sub_cancel_left ..
  simp only [indexOf, if_neg hinside, hgap, Nat.mul_mod_left, ne_eq, not_true_eq_false, if_false,
    Nat.mul_div_cancel _ pool.object.size_pos]

end ShmPool

/-! ## Shared memory -/

/-- `header` -/
structure Header where
  magic : UInt64 := 0
  version : UInt32 := 0
  count : UInt32 := 0
  memSize : UInt64 := 0

/-- `M_MAGIC` -/
def magic : UInt64 := 0x314350495641

/-- `M_VERSION` -/
def version : UInt32 := 1

/-- The header of a pool. -/
def ShmPool.header (pool : ShmPool) : Header where
  magic := magic
  version := version
  count := UInt32.ofNat pool.count
  memSize := UInt64.ofNat pool.memSize

/-- The fields of a header. -/
inductive Field
  | magic
  | version
  | count
  | memSize
  deriving DecidableEq

/-- The field that `init` comes to behind another one. -/
def Field.next : Field → Option Field
  | .magic => some .version
  | .version => some .count
  | .count => some .memSize
  | .memSize => none

/-- The store of a field of `h`. -/
def Header.store (h into : Header) : Field → Header
  | .magic => { into with magic := h.magic }
  | .version => { into with version := h.version }
  | .count => { into with count := h.count }
  | .memSize => { into with memSize := h.memSize }

/-- The check of a field against that of `h`. -/
def Header.agrees (h other : Header) : Field → Bool
  | .magic => other.magic = h.magic
  | .version => other.version = h.version
  | .count => other.count = h.count
  | .memSize => other.memSize = h.memSize

/-- A shared-memory object: its size, the header and the use-list. -/
structure Object where
  size : Nat := 0
  header : Header := {}
  useList : Nat → UInt8 := fun _ => 0

/-- A slot of an object. -/
abbrev Slot : Type := Nat × Nat

/-! ## Processes -/

/-- What a call returned. -/
inductive Ret
  | bool (b : Bool)
  | ptr (t : Option Nat)
  deriving DecidableEq

/-- Where a process is. -/
inductive Call
  /-- before its first call, or behind one -/
  | returned (r : Option Ret)
  /-- `shm_open(O_RDWR)` -/
  | opening
  /-- `shm_open(O_RDWR | O_CREAT | O_EXCL)` -/
  | creating
  /-- `ftruncate` -/
  | truncating (o : Nat)
  /-- `shm_unlink` of a creator that failed -/
  | unlinking
  /-- `fstat` -/
  | statting (o : Nat)
  /-- `mmap` -/
  | mapping (o : Nat) (recreate : Bool)
  /-- the stores to the header -/
  | storing (o : Nat) (field : Field)
  /-- the `memset`, with the bytes that it has not stored to -/
  | clearing (o : Nat) (left : List Nat)
  /-- the loads from the header -/
  | checking (o : Nat) (field : Field)
  /-- the loop of `alloc` -/
  | claiming (o i : Nat)
  /-- the exchange of `back` -/
  | releasing (o i : Nat)
  deriving DecidableEq

namespace Call

def idle : Call → Bool
  | .returned _ => true
  | _ => false

/-- The object that the call is about. -/
def object : Call → Option Nat
  | .truncating o | .statting o | .mapping o _ | .storing o _ | .clearing o _ | .checking o _
  | .claiming o _ | .releasing o _ => some o
  | .returned _ | .opening | .creating | .unlinking => none

end Call

/-- A process: the object that it has mapped, `mem_ptr`, and its call. -/
structure Proc where
  memPtr : Option Nat := none
  call : Call := .returned none

/-- The processes and the kernel. -/
structure State (Pid : Type) where
  /-- the object that the name stands for -/
  name : Option Nat := none
  objects : Nat → Object := fun _ => {}
  /-- the next object that is created -/
  next : Nat := 0
  procs : Pid → Proc := fun _ => {}
  held : List (Pid × Slot) := []

/-- A process starts a call, goes on with it, or stores to a byte of the use-list. -/
inductive Label (Pid : Type)
  | init (p : Pid)
  | alloc (p : Pid)
  | back (p : Pid) (t : Nat)
  | step (p : Pid) (grant : Bool)
  | clear (p : Pid) (i : Nat)

namespace State

variable {Pid : Type} [DecidableEq Pid]

/-- The process goes on with `call`. -/
def goto (s : State Pid) (p : Pid) (call : Call) : State Pid :=
  { s with procs := Function.update s.procs p { s.procs p with call } }

/-- The process returns from its call. -/
def returns (s : State Pid) (p : Pid) (r : Ret) : State Pid := s.goto p (.returned (some r))

/-- A successful `init`. -/
def attach (s : State Pid) (p : Pid) (o : Nat) : State Pid :=
  { s with procs := Function.update s.procs p ⟨some o, .returned (some (.bool true))⟩ }

/-- An access to an object. -/
def modify (s : State Pid) (o : Nat) (f : Object → Object) : State Pid :=
  { s with objects := Function.update s.objects o (f (s.objects o)) }

/-- A store to a byte of the use-list. -/
def setUse (s : State Pid) (o i : Nat) (v : UInt8) : State Pid :=
  s.modify o fun object => { object with useList := Function.update object.useList i v }

/-! ## `init` -/

/-- `shm_open(O_RDWR)` -/
def shmOpen (s : State Pid) (p : Pid) (grant : Bool) : State Pid :=
  match grant, s.name with
  | false, _ => s.returns p (.bool false)
  | true, none => s.goto p .creating
  | true, some o => s.goto p (.statting o)

/-- `shm_open(O_RDWR | O_CREAT | O_EXCL)` -/
def shmCreate (s : State Pid) (p : Pid) (grant : Bool) : State Pid :=
  match grant, s.name with
  | true, none => { s.goto p (.truncating s.next) with name := some s.next, next := s.next + 1 }
  | _, _ => s.returns p (.bool false)

/-- `ftruncate` -/
def truncate (pool : ShmPool) (s : State Pid) (p : Pid) (o : Nat) (grant : Bool) : State Pid :=
  if grant then
    (s.modify o fun object => { object with size := pool.memSize }).goto p (.mapping o true)
  else s.goto p .unlinking

/-- `shm_unlink`, whose result is not looked at -/
def shmUnlink (s : State Pid) (p : Pid) (grant : Bool) : State Pid :=
  { s.returns p (.bool false) with name := if grant then none else s.name }

/-- `fstat` -/
def stat (pool : ShmPool) (s : State Pid) (p : Pid) (o : Nat) (grant : Bool) : State Pid :=
  if grant ∧ pool.memSize ≤ (s.objects o).size then s.goto p (.mapping o false)
  else s.returns p (.bool false)

/-- `mmap` -/
def map (s : State Pid) (p : Pid) (o : Nat) (recreate grant : Bool) : State Pid :=
  match grant, recreate with
  | true, true => s.goto p (.storing o .magic)
  | true, false => s.goto p (.checking o .magic)
  | false, true => s.goto p .unlinking
  | false, false => s.returns p (.bool false)

/-- A store to the header; the `memset` is behind the last one. -/
def store (pool : ShmPool) (s : State Pid) (p : Pid) (o : Nat) (field : Field) : State Pid :=
  (s.modify o fun object => { object with header := pool.header.store object.header field }).goto p
    ((field.next.map (.storing o)).getD (.clearing o (List.range pool.count)))

/-- A load from the header, compared. -/
def check (pool : ShmPool) (s : State Pid) (p : Pid) (o : Nat) (field : Field) : State Pid :=
  if pool.header.agrees (s.objects o).header field then
    match field.next with
    | some field => s.goto p (.checking o field)
    | none => s.attach p o
  else s.returns p (.bool false)

/-! ## `alloc` and `back` -/

/-- A turn of the loop of `alloc`. -/
def claim (pool : ShmPool) (s : State Pid) (p : Pid) (o i : Nat) : State Pid :=
  if i < pool.count then
    if (s.objects o).useList i = 0 then
      { (s.setUse o i 1).returns p (.ptr (some (pool.objectAt i))) with
        held := (p, o, i) :: s.held }
    else (s.setUse o i 1).goto p (.claiming o (i + 1))
  else s.returns p (.ptr none)

/-- The exchange of `back`. -/
def release (s : State Pid) (p : Pid) (o i : Nat) : State Pid :=
  { (s.setUse o i 0).returns p (.bool ((s.objects o).useList i = 1)) with
    held := s.held.erase (p, o, i) }

/-! ## Steps -/

/-- The next step of a call, apart from those of the `memset`. -/
def advance (pool : ShmPool) (s : State Pid) (p : Pid) (grant : Bool) : Option (State Pid) :=
  match (s.procs p).call with
  | .returned _ => none
  | .opening => some (s.shmOpen p grant)
  | .creating => some (s.shmCreate p grant)
  | .truncating o => some (s.truncate pool p o grant)
  | .unlinking => some (s.shmUnlink p grant)
  | .statting o => some (s.stat pool p o grant)
  | .mapping o recreate => some (s.map p o recreate grant)
  | .storing o field => some (s.store pool p o field)
  | .clearing o left => if left = [] then some (s.attach p o) else none
  | .checking o field => some (s.check pool p o field)
  | .claiming o i => some (s.claim pool p o i)
  | .releasing o i => some (s.release p o i)

/-- The start of `init`. -/
def init (s : State Pid) (p : Pid) : State Pid :=
  if (s.procs p).memPtr = none then s.goto p .opening else s.returns p (.bool true)

/-- The start of `alloc`. -/
def alloc (s : State Pid) (p : Pid) : State Pid :=
  match (s.procs p).memPtr with
  | none => s.returns p (.ptr none)
  | some o => s.goto p (.claiming o 0)

/-- The start of `back`. -/
def back (pool : ShmPool) (s : State Pid) (p : Pid) (t : Nat) : State Pid :=
  match (s.procs p).memPtr, pool.indexOf t with
  | some o, some i => s.goto p (.releasing o i)
  | _, _ => s.returns p (.bool false)

/-- The pointer is one to a slot that the process holds. -/
def Holds (pool : ShmPool) (s : State Pid) (p : Pid) (t : Nat) : Prop :=
  ∃ e ∈ s.held, e.1 = p ∧ (s.procs p).memPtr = some e.2.1 ∧ t = pool.objectAt e.2.2

instance (pool : ShmPool) (s : State Pid) (p : Pid) (t : Nat) : Decidable (s.Holds pool p t) :=
  inferInstanceAs (Decidable (∃ e ∈ s.held, _))

/-- A store of the `memset`. -/
def clear (s : State Pid) (p : Pid) (i : Nat) : Option (State Pid) :=
  match (s.procs p).call with
  | .clearing o left =>
    if i ∈ left then some ((s.setUse o i 0).goto p (.clearing o (left.erase i))) else none
  | _ => none

variable (count : Nat) (types : Pid → ObjectType)

def step (s : State Pid) : Label Pid → Option (State Pid)
  | .init p => if (s.procs p).call.idle then some (s.init p) else none
  | .alloc p => if (s.procs p).call.idle then some (s.alloc p) else none
  | .back p t =>
    if (s.procs p).call.idle ∧ s.Holds ⟨count, types p⟩ p t then some (s.back ⟨count, types p⟩ p t)
    else none
  | .step p grant => s.advance ⟨count, types p⟩ p grant
  | .clear p i => s.clear p i

/-- The slot whose use is stored to, where the step is one of the `memset`. -/
def cleared (s : State Pid) : Label Pid → Option Slot
  | .clear p i =>
    match (s.procs p).call with
    | .clearing o _ => some (o, i)
    | _ => none
  | _ => none

/-- The `memset` does not store to the use of a slot that is held. -/
def ClearsFree (s : State Pid) (label : Label Pid) : Prop :=
  ∀ slot ∈ s.cleared label, slot ∉ s.held.map Prod.snd

instance (s : State Pid) (label : Label Pid) : Decidable (s.ClearsFree label) :=
  inferInstanceAs (Decidable (∀ slot ∈ s.cleared label, slot ∉ s.held.map Prod.snd))

/-- Every slot is held at most once. -/
def Exclusive (s : State Pid) : Prop := (s.held.map Prod.snd).Nodup

end State

end Avant.Ipc
