import Avant.Lib.Blocks

/-!
# The byte buffer

Model of `external/avant-buffer/buffer.cpp`: three pointers into one allocation, of which the bytes
between the read and the write pointer are the content. The methods are those of the source, over
the memory of `Lib.Blocks`: a method that touches bytes outside of a block, or of a block that was
freed, ends with `fault`.

Sizes are `size_t`: what can overflow is the sum of the used and the incoming bytes and the
doubling of the capacity. The loop that doubles gets a number of turns. An allocation can fail
(`grant`). The moves are `noexcept`: there the program ends with it, so that nothing is left to say,
and `adopt` gets its memory. `memcpy` of no bytes from a null pointer does nothing.
-/

namespace Avant

open Lib

/-- `DEFAULT_CAPACITY` -/
def Buffer.defaultCapacity : Nat := 1024

/-- The fields of a `buffer`, with the block that the `unique_ptr` owns. -/
@[ext]
structure Buffer where
  limitMax : Nat := Buffer.defaultCapacity
  capacity : Nat := Buffer.defaultCapacity
  readPtr : Option Ptr := none
  writePtr : Option Ptr := none
  buffer : Option Nat := none
  deriving DecidableEq

namespace Buffer

/-- How a method ends if it does not return. -/
inductive Failure
  /-- `std::runtime_error` -/
  | threw (message : String)
  /-- `std::bad_alloc` -/
  | badAlloc
  | fault
  /-- the turns given to a loop did not suffice -/
  | exhausted
  deriving DecidableEq

/-- The object a method is called on, and the memory. -/
structure Object where
  this : Buffer
  mem : Memory
  deriving DecidableEq

abbrev Method : Type → Type := EStateM Failure Object

/-! ## Memory and fields -/

def self : Method Buffer := fun s => .ok s.this s

def assign (f : Buffer → Buffer) : Method Unit := fun s => .ok () { s with this := f s.this }

/-- `std::make_unique<char[]>(n)`, where `grant` says which allocations succeed -/
def makeUnique (grant : Nat → Bool) (n : Nat) : Method Nat := fun s =>
  if grant n then .ok s.mem.next { s with mem := s.mem.alloc n } else .error .badAlloc s

/-- `m_buffer = ..`, which frees the block that was owned -/
def setBuffer (k : Option Nat) : Method Unit := fun s =>
  match s.this.buffer with
  | none => .ok () { s with this := { s.this with buffer := k } }
  | some old =>
    match s.mem.free old with
    | none => .error .fault s
    | some mem => .ok () { this := { s.this with buffer := k }, mem := mem }

/-- The bytes that `memcpy` reads. -/
def load (p : Option Ptr) (n : Nat) : Method Bytes := fun s =>
  if n = 0 then .ok [] s
  else
    match p.bind fun p => s.mem.load p n with
    | none => .error .fault s
    | some bs => .ok bs s

/-- The bytes that `memcpy` or `memmove` writes. -/
def store (p : Option Ptr) (src : Bytes) : Method Unit := fun s =>
  if src = [] then .ok () s
  else
    match p.bind fun p => s.mem.store p src with
    | none => .error .fault s
    | some mem => .ok () { s with mem := mem }

/-- `p - q`, of pointers into one block or null pointers -/
def diff (p q : Option Ptr) : Method Nat := fun s =>
  match p, q with
  | none, none => .ok 0 s
  | some p, some q =>
    if p.block = q.block ∧ q.offset ≤ p.offset then .ok (p.offset - q.offset) s
    else .error .fault s
  | _, _ => .error .fault s

/-- `m_buffer.get() + n` -/
def offset (b : Buffer) (n : Nat) : Option Ptr := b.buffer.map fun k => ⟨k, n⟩

/-- `p + n` -/
def advance (p : Option Ptr) (n : Nat) : Option Ptr := p.map fun p => ⟨p.block, p.offset + n⟩

/-! ## The methods -/

/-- `buffer::init_with_capacity` -/
def initWithCapacity (grant : Nat → Bool) (capacity : Nat) : Method Unit := do
  assign fun b => { b with capacity := capacity }
  let k ← makeUnique grant capacity
  setBuffer (some k)
  assign fun b => { b with readPtr := b.offset 0 }
  assign fun b => { b with writePtr := b.offset 0 }

/-- `if (m_buffer == nullptr) init_with_capacity(DEFAULT_CAPACITY);` -/
def lazyInit (grant : Nat → Bool) : Method Unit := do
  let b ← self
  if b.buffer = none then initWithCapacity grant defaultCapacity else pure ()

/-- `buffer::after_size` -/
def afterSize : Method Nat := do
  let b ← self
  diff (b.offset b.capacity) b.writePtr

/-- `buffer::check_and_write` -/
def checkAndWrite (source : Bytes) : Method Bool := do
  let after ← afterSize
  if source.length ≤ after then do
    let b ← self
    store b.writePtr source
    assign fun b => { b with writePtr := advance b.writePtr source.length }
    pure true
  else pure false

/-- `buffer::move_to_before` -/
def moveToBefore : Method Unit := do
  let b ← self
  let readable ← diff b.writePtr b.readPtr
  let bytes ← load b.readPtr readable
  store (b.offset 0) bytes
  assign fun b => { b with writePtr := b.offset readable }
  assign fun b => { b with readPtr := b.offset 0 }

/-- The loop of `ensure_capacity`. -/
def grow (needed limitMax : Nat) : Nat → Nat → Option Nat
  | 0, _ => none
  | turns + 1, newCapacity =>
    if newCapacity < needed ∧ newCapacity < limitMax then
      grow needed limitMax turns (newCapacity * 2 % 2 ^ 64)
    else some newCapacity

/-- The new block of `ensure_capacity`. -/
def reallocate (grant : Nat → Bool) (newCapacity used : Nat) : Method Unit := do
  let k ← makeUnique grant newCapacity
  let b ← self
  let bytes ← load (b.offset 0) used
  store (some ⟨k, 0⟩) bytes
  assign fun b => { b with readPtr := some ⟨k, 0⟩ }
  assign fun b => { b with writePtr := some ⟨k, used⟩ }
  assign fun b => { b with capacity := newCapacity }
  setBuffer (some k)

/-- What follows that loop. -/
def growTo (grant : Nat → Bool) (used needed : Nat) : Option Nat → Method Unit
  | none => throw .exhausted
  | some newCapacity =>
    reallocate grant (if newCapacity < needed then needed else newCapacity) used

/-- `buffer::ensure_capacity` -/
def ensureCapacity (grant : Nat → Bool) (turns incomingSize : Nat) : Method Unit := do
  let b ← self
  let used ← diff b.writePtr b.readPtr
  if b.limitMax < used then throw (.threw "write: used exceeds limit_max")
  else
    let needed := (used + incomingSize) % 2 ^ 64
    if needed ≤ b.capacity then pure ()
    else growTo grant used needed (grow needed b.limitMax turns b.capacity)

/-- `buffer::write` of a source that is not empty, into a block -/
def writeBlock (grant : Nat → Bool) (turns : Nat) (source : Bytes) : Method Unit := do
  let written ← checkAndWrite source
  if written then pure ()
  else do
    moveToBefore
    let written ← checkAndWrite source
    if written then pure ()
    else do
      let b ← self
      if b.limitMax < source.length then throw (.threw "write: size > limit_max")
      else do
        ensureCapacity grant turns source.length
        let _ ← checkAndWrite source
        pure ()

/-- `buffer::write`; the source is `none` for a null pointer -/
def write (grant : Nat → Bool) (turns : Nat) (source : Option Bytes) : Method Nat :=
  match source with
  | none => throw (.threw "write: source == nullptr || size == 0")
  | some source =>
    if source.length = 0 then throw (.threw "write: source == nullptr || size == 0")
    else do
      lazyInit grant
      let b ← self
      if b.limitMax < source.length then throw (.threw "write: size > limit_max")
      else do
        writeBlock grant turns source
        pure source.length

/-- `buffer::read`: the bytes that are written to `dest`, which can be a null pointer -/
def read (dest : Bool) (size : Nat) : Method Bytes := do
  let b ← self
  if dest = false ∨ size = 0 ∨ b.buffer = none then pure []
  else do
    let canReadable ← diff b.writePtr b.readPtr
    let copyBytes := if size < canReadable then size else canReadable
    if 0 < copyBytes then do
      let bytes ← load b.readPtr copyBytes
      assign fun b => { b with readPtr := advance b.readPtr copyBytes }
      pure bytes
    else pure []

/-- `b.can_readable_size()` -/
def readableOf (b : Buffer) : Method Nat :=
  if b.buffer = none then pure 0 else diff b.writePtr b.readPtr

/-- `buffer::can_readable_size` -/
def canReadableSize : Method Nat := do
  let b ← self
  readableOf b

/-- `buffer::copy_all` -/
def copyAll (out : Bool) (outLen : Nat) : Method Bytes := do
  let b ← self
  if out = false ∨ b.buffer = none then pure []
  else do
    let allBytes ← diff b.writePtr b.readPtr
    if outLen < allBytes then pure []
    else if 0 < allBytes then load b.readPtr allBytes
    else pure []

/-- `buffer::read_ptr_move_n` -/
def readPtrMoveN (n : Nat) : Method Bool := do
  if n = 0 then pure true
  else do
    let b ← self
    if b.buffer = none then pure false
    else do
      let allBytes ← diff b.writePtr b.readPtr
      if allBytes < n then pure false
      else do
        assign fun b => { b with readPtr := advance b.readPtr n }
        pure true

/-- `buffer::blank_space` -/
def blankSpace : Method Nat := do
  let b ← self
  if b.buffer = none then pure 0
  else do
    let after ← afterSize
    let consumed ← diff b.readPtr (b.offset 0)
    let canPromoteBytes := if b.capacity < b.limitMax then b.limitMax - b.capacity else 0
    pure (consumed + after + canPromoteBytes)

/-- `buffer::set_limit_max` -/
def setLimitMax (limitMax : Nat) : Method Unit :=
  assign fun b =>
    let limitMax := if limitMax < defaultCapacity then defaultCapacity else limitMax
    if b.limitMax < limitMax then { b with limitMax := limitMax } else b

/-- `buffer::clear` -/
def clear : Method Unit := do
  assign fun b => { b with readPtr := b.offset 0 }
  assign fun b => { b with writePtr := b.offset 0 }

/-- `force_get_read_ptr` and `force_get_write_ptr` of a buffer that is not `const`, but for the
pointer they return -/
def forceGetPtr (grant : Nat → Bool) : Method Unit := lazyInit grant

/-- `buffer::buffer(const buffer &)`, and `operator=` of another buffer. Limit and capacity are
those of the other before there is a block for them. -/
def copyFrom (grant : Nat → Bool) (other : Buffer) : Method Unit := do
  assign fun b => { b with limitMax := other.limitMax }
  assign fun b => { b with capacity := other.capacity }
  let k ← makeUnique grant other.capacity
  setBuffer (some k)
  let copyBytes ← readableOf other
  let bytes ← load other.readPtr copyBytes
  let b ← self
  store (b.offset 0) bytes
  assign fun b => { b with readPtr := b.offset 0 }
  assign fun b => { b with writePtr := b.offset copyBytes }

/-- A method of another object, which returns that object. -/
def onOther (other : Buffer) (p : Method Unit) : Method Buffer := fun s =>
  match p ⟨other, s.mem⟩ with
  | .ok _ t => .ok t.this ⟨s.this, t.mem⟩
  | .error e t => .error e ⟨s.this, t.mem⟩

/-- `buffer::adopt`, and what is left of the other buffer -/
def adopt (other : Buffer) : Method Buffer := do
  let other ← onOther other (lazyInit fun _ => true)
  assign fun b => { b with limitMax := other.limitMax }
  assign fun b => { b with capacity := other.capacity }
  assign fun b => { b with readPtr := other.readPtr }
  assign fun b => { b with writePtr := other.writePtr }
  setBuffer other.buffer
  pure {}

end Buffer

end Avant
