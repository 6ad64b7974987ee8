import Avant.Lua.Message

/-!
# From messages to tables

Model of `lua_plugin::protobuf2lua_nostack` (`src/app/lua_plugin.cpp`): a traversal of a message
with a stack of frames of its own, which builds the table on the Lua stack. A step is one turn of
the outer loop, or one turn of the loop over the elements of a repeated field; `inArray` says which
of the two the program is in.

`Datum.toLua` is the table of a message, by recursion on the message. `Datum.toLuaSlots` counts the
slots of the Lua stack that the traversal uses above a value.

* `converts`: the traversal of a message ends, with its table on the stack, exactly if no
  repeated field of it holds a float and the Lua stack has the slots; the turn for an element of a
  repeated float does not move on to the next element.
* `returns_iff`: the same of the function.
* `balanced_iff`: the function ends with one more value on the stack, a table, exactly then.
-/

namespace Avant.Lua

open Avant.Lib

variable {δ φ : Type}

/-! ## The tables -/

section Spec

variable (E : Env δ φ)

/-- The value pushed for a scalar; an enumeration is read into a `uint32`. -/
def Scalar.toLua : Scalar δ φ → Val δ
  | .int32 v => .integer v
  | .int64 v => .string (Decimal.intText v)
  | .uint32 v => .integer v
  | .uint64 v => .string (Decimal.intText v)
  | .double x => .number x
  | .float x => .number (E.ofFloat x)
  | .bool b => .boolean b
  | .string s => .string s
  | .enum v => .integer (v % 2 ^ 32)

mutual

/-- The value of a datum of a type. -/
def Datum.toLua : CppType → Datum δ φ → Val δ
  | _, .scalar s => s.toLua E
  | .message fields, .message slots => .table (entriesOf fields slots)
  | .scalar _, .message _ => .nil

/-- The entries of the table of a message. -/
def entriesOf : List Field → List (Slot δ φ) → Entries δ
  | f :: fields, slot :: slots => (.string f.name, slot.toLua f.type) :: entriesOf fields slots
  | _, _ => []

def Slot.toLua : CppType → Slot δ φ → Val δ
  | type, .one x => x.toLua type
  | type, .many xs => .table (elementsOf type 1 xs)

/-- The entries of an array, from an index on. -/
def elementsOf : CppType → Nat → List (Datum δ φ) → Entries δ
  | type, i, x :: xs => (.integer i, x.toLua type) :: elementsOf type (i + 1) xs
  | _, _, [] => []

end

/-- The entry of a field. -/
def entryOf (p : Field × Slot δ φ) : Key δ × Val δ := (.string p.1.name, p.2.toLua E p.1.type)

theorem entriesOf_eq (fields : List Field) (slots : List (Slot δ φ)) :
    entriesOf E fields slots = (fields.zip slots).map (entryOf E) := by
  induction fields generalizing slots with
  | nil => simp [entriesOf]
  | cons f fields ih =>
    cases slots with
    | nil => simp [entriesOf]
    | cons slot slots =>
      rw [entriesOf, ih]
      rfl

theorem elementsOf_snoc (type : CppType) (i : Nat) (xs : List (Datum δ φ)) (x : Datum δ φ) :
    elementsOf E type i (xs ++ [x]) =
      elementsOf E type i xs ++ [(.integer (i + xs.length), x.toLua E type)] := by
  induction xs generalizing i with
  | nil => simp [elementsOf]
  | cons y ys ih =>
    have hidx : ((i + 1 : Nat) : Int) + ys.length = i + ((ys.length + 1 : Nat) : Int) := by
      push_cast
      omega
    simp only [List.cons_append, elementsOf, ih, List.length_cons, hidx]

theorem elementsOf_one_snoc (type : CppType) (xs : List (Datum δ φ)) (x : Datum δ φ) :
    elementsOf E type 1 (xs ++ [x]) =
      elementsOf E type 1 xs ++ [(.integer ((xs.length : Int) + 1), x.toLua E type)] := by
  rw [elementsOf_snoc, Nat.cast_one, Int.add_comm]

/-- The keys of an array are the indices of its elements. -/
theorem keys_elementsOf (type : CppType) (i : Nat) (xs : List (Datum δ φ)) (n : Nat) :
    Key.integer n ∈ (elementsOf E type i xs).map Prod.fst ↔ i ≤ n ∧ n < i + xs.length := by
  induction xs generalizing i with
  | nil => simp [elementsOf]
  | cons y ys ih =>
    simp only [elementsOf, List.map_cons, List.mem_cons, ih, Key.integer.injEq, Nat.cast_inj,
      List.length_cons]
    omega

end Spec

/-! ## What the traversal needs -/

mutual

/-- The slots of the Lua stack used above the value while it is built. -/
def Datum.toLuaSlots : Datum δ φ → Nat
  | .scalar _ => 0
  | .message slots => toLuaSlotsOf slots

def toLuaSlotsOf : List (Slot δ φ) → Nat
  | [] => 0
  | slot :: slots => max slot.toLuaSlots (toLuaSlotsOf slots)

/-- A field has its name and its value on the stack, an element of a repeated field its index and
its value as well. -/
def Slot.toLuaSlots : Slot δ φ → Nat
  | .one x => 2 + x.toLuaSlots
  | .many [] => 2
  | .many (x :: xs) => 4 + max x.toLuaSlots (toLuaSlotsOfElements xs)

def toLuaSlotsOfElements : List (Datum δ φ) → Nat
  | [] => 0
  | x :: xs => max x.toLuaSlots (toLuaSlotsOfElements xs)

end

mutual

/-- The kinds of the scalars in repeated fields. -/
def Datum.repeatedKinds : Datum δ φ → List Kind
  | .scalar _ => []
  | .message slots => repeatedKindsOf slots

def repeatedKindsOf : List (Slot δ φ) → List Kind
  | [] => []
  | slot :: slots => slot.repeatedKinds ++ repeatedKindsOf slots

def Slot.repeatedKinds : Slot δ φ → List Kind
  | .one x => x.repeatedKinds
  | .many xs => elementKinds xs

def elementKinds : List (Datum δ φ) → List Kind
  | [] => []
  | .scalar s :: xs => s.kind :: elementKinds xs
  | .message slots :: xs => repeatedKindsOf slots ++ elementKinds xs

end

variable {k : Nat} {xs : List (Datum δ φ)}

theorem toLuaSlotsOf_le {slots : List (Slot δ φ)} :
    toLuaSlotsOf slots ≤ k ↔ ∀ slot ∈ slots, slot.toLuaSlots ≤ k := by
  induction slots with
  | nil => simp [toLuaSlotsOf]
  | cons slot slots ih => simp [toLuaSlotsOf, ih]

theorem toLuaSlotsOfElements_le : toLuaSlotsOfElements xs ≤ k ↔ ∀ x ∈ xs, x.toLuaSlots ≤ k := by
  induction xs with
  | nil => simp [toLuaSlotsOfElements]
  | cons x xs ih => simp [toLuaSlotsOfElements, ih]

theorem toLuaSlots_many_le {limit : Nat} {x : Datum δ φ} :
    k + (Slot.many (x :: xs)).toLuaSlots ≤ limit ↔
      ∀ y ∈ x :: xs, k + (4 + y.toLuaSlots) ≤ limit := by
  have hmany : (Slot.many (x :: xs)).toLuaSlots = 4 + toLuaSlotsOfElements (x :: xs) := rfl
  rw [hmany]
  constructor
  · intro h y hy
    have := toLuaSlotsOfElements_le.mp (Nat.le_refl _) y hy
    omega
  · intro h
    have hx := h x List.mem_cons_self
    have hall : toLuaSlotsOfElements (x :: xs) ≤ limit - (k + 4) := by
      refine toLuaSlotsOfElements_le.mpr fun y hy => ?_
      have := h y hy
      omega
    omega

theorem mem_repeatedKindsOf {k : Kind} {slots : List (Slot δ φ)} :
    k ∈ repeatedKindsOf slots ↔ ∃ slot ∈ slots, k ∈ slot.repeatedKinds := by
  induction slots with
  | nil => simp [repeatedKindsOf]
  | cons slot slots ih => simp [repeatedKindsOf, ih]

/-- In a repeated field of another type, the kind stands in the messages only. -/
theorem mem_elementKinds {k : Kind} (h : ∀ s, Datum.scalar s ∈ xs → s.kind ≠ k) :
    k ∈ elementKinds xs ↔ ∃ x ∈ xs, k ∈ x.repeatedKinds := by
  induction xs with
  | nil => simp [elementKinds]
  | cons x xs ih =>
    have ihx := ih fun s hs => h s (List.mem_cons_of_mem x hs)
    cases x with
    | scalar s =>
      have hne : k ≠ s.kind := Ne.symm (h s List.mem_cons_self)
      simp [elementKinds, Datum.repeatedKinds, ihx, hne]
    | message sub => simp [elementKinds, Datum.repeatedKinds, ihx]

/-! ## The traversal -/

namespace ToLua

/-- `StackFrame`; the message it points to with its descriptor. -/
structure Frame (δ φ : Type) where
  slots : List (Slot δ φ)
  fields : List Field
  nextFieldIdx : Nat
  settableNOnPop : Int
  repeatedLoopIdx : Nat

/-- The Lua stack, the stack of frames, and whether the program is in the loop over the elements
of a repeated field. -/
structure State (δ φ : Type) where
  lua : List (Val δ)
  cpp : List (Frame δ φ)
  inArray : Bool

/-- `next_field_idx++`, `repeated_loop_idx = 0` -/
def Frame.nextField (frame : Frame δ φ) : Frame δ φ :=
  ⟨frame.slots, frame.fields, frame.nextFieldIdx + 1, frame.settableNOnPop, 0⟩

/-- `repeated_loop_idx++` -/
def Frame.nextElement (frame : Frame δ φ) : Frame δ φ :=
  ⟨frame.slots, frame.fields, frame.nextFieldIdx, frame.settableNOnPop, frame.repeatedLoopIdx + 1⟩

/-- The frame of a sub-message. -/
def newFrame (slots : List (Slot δ φ)) (fields : List Field) : Frame δ φ :=
  ⟨slots, fields, 0, -3, 0⟩

variable [DecidableEq δ]

/-- All fields of the frame's message are done. -/
def popFrame (frame : Frame δ φ) (rest : List (Frame δ φ)) (lua : List (Val δ)) :
    Except Exit (State δ φ) :=
  if ¬ (frame.settableNOnPop = 0 ∨ frame.settableNOnPop = -3) then .error .assertion
  else if frame.settableNOnPop ≠ 0 then do
    let lua ← settable lua
    .ok ⟨lua, rest, false⟩
  else .ok ⟨lua, rest, false⟩

variable (E : Env δ φ) (limit : Nat)

/-- A field that is not repeated, its name on the stack. -/
def singularStep (frame : Frame δ φ) (rest : List (Frame δ φ)) (field : Field)
    (lua : List (Val δ)) : Except Exit (State δ φ) :=
  match field.type, frame.slots[frame.nextFieldIdx]? with
  | .scalar _, some (.one (.scalar s)) => do
    let lua ← push limit (s.toLua E) lua
    let lua ← settable lua
    .ok ⟨lua, frame.nextField :: rest, false⟩
  | .message fields, some (.one (.message slots)) => do
    let lua ← push limit (.table []) lua
    .ok ⟨lua, newFrame slots fields :: frame.nextField :: rest, false⟩
  | _, _ => .error .misuse

/-- A repeated field, its name on the stack: a new table for it, unless the program comes back from
an element, and then the loop over the elements. -/
def repeatedStep (frame : Frame δ φ) (rest : List (Frame δ φ)) (lua : List (Val δ)) :
    Except Exit (State δ φ) := do
  let lua ← if frame.repeatedLoopIdx = 0 then push limit (.table []) lua else .ok lua
  match frame.slots[frame.nextFieldIdx]? with
  | some (.many xs) =>
    if xs.length = 0 then do
      let lua ← settable lua
      .ok ⟨lua, frame.nextField :: rest, false⟩
    else .ok ⟨lua, frame :: rest, true⟩
  | _ => .error .misuse

/-- A turn of the outer loop. -/
def fieldStep (frame : Frame δ φ) (rest : List (Frame δ φ)) (lua : List (Val δ)) :
    Except Exit (State δ φ) :=
  match frame.fields[frame.nextFieldIdx]? with
  | none => popFrame frame rest lua
  | some field => do
    let lua ← if frame.repeatedLoopIdx = 0 then push limit (.string (cstr field.name)) lua
      else .ok lua
    if field.repeated then repeatedStep limit frame rest lua
    else singularStep E limit frame rest field lua

/-- A turn of the loop over the elements, or its end. The case of `float` alone does not advance
`repeated_loop_idx`. -/
def elementStep (frame : Frame δ φ) (rest : List (Frame δ φ)) (lua : List (Val δ)) :
    Except Exit (State δ φ) :=
  match frame.fields[frame.nextFieldIdx]?, frame.slots[frame.nextFieldIdx]? with
  | some field, some (.many xs) =>
    match xs[frame.repeatedLoopIdx]? with
    | none => do
      let lua ← settable lua
      .ok ⟨lua, frame.nextField :: rest, false⟩
    | some x => do
      let lua ← push limit (.integer (frame.repeatedLoopIdx + 1)) lua
      match field.type, x with
      | .scalar kind, .scalar s => do
        let lua ← push limit (s.toLua E) lua
        let lua ← settable lua
        .ok ⟨lua, (if kind = .float then frame else frame.nextElement) :: rest, true⟩
      | .message fields, .message slots => do
        let lua ← push limit (.table []) lua
        .ok ⟨lua, newFrame slots fields :: frame.nextElement :: rest, false⟩
      | _, _ => .error .misuse
  | _, _ => .error .misuse

/-- A turn of one of the two loops; the outer one ends when there is no frame left. -/
def step (s : State δ φ) : Except Exit (State δ φ) :=
  match s.cpp with
  | [] => .error .returned
  | frame :: rest =>
    if s.inArray then elementStep E limit frame rest s.lua
    else fieldStep E limit frame rest s.lua

/-- The state in front of the loop. -/
def start (fields : List Field) (slots : List (Slot δ φ)) (lua : List (Val δ)) :
    Except Exit (State δ φ) := do
  let lua ← push limit (.table []) lua
  .ok ⟨lua, [⟨slots, fields, 0, 0, 0⟩], false⟩

/-! ## Fields and elements -/

variable {E limit}

/-- A message on its way: its frame, the frames below it, and the stack below its table. -/
structure Level (δ φ : Type) where
  slots : List (Slot δ φ)
  fields : List Field
  settableNOnPop : Int
  rest : List (Frame δ φ)
  below : List (Val δ)

namespace Level

abbrev frame (c : Level δ φ) (i j : Nat) : Frame δ φ :=
  ⟨c.slots, c.fields, i, c.settableNOnPop, j⟩

/-- In front of a field, with `es` in the table. -/
abbrev atField (c : Level δ φ) (i : Nat) (es : Entries δ) : State δ φ :=
  ⟨.table es :: c.below, c.frame i 0 :: c.rest, false⟩

/-- In front of an element of a repeated field, with `arr` in its array. -/
abbrev atElement (c : Level δ φ) (i j : Nat) (name : Bytes) (es arr : Entries δ) : State δ φ :=
  ⟨.table arr :: .string name :: .table es :: c.below, c.frame i j :: c.rest, true⟩

/-- A sub-message, which goes back to this frame. -/
abbrev sub (c : Level δ φ) (slots : List (Slot δ φ)) (fields : List Field) (i j : Nat)
    (below : List (Val δ)) : Level δ φ :=
  ⟨slots, fields, -3, c.frame i j :: c.rest, below ++ c.below⟩

end Level

variable (E limit) in
/-- The traversal of a sub-message ends with its table in the place the frame leaves it, if the
message has no repeated float and the stack has the slots, and does not end otherwise. -/
def Converts (type : CppType) (x : Datum δ φ) : Prop :=
  ∀ c : Level δ φ, type = .message c.fields → x = .message c.slots →
    ∀ lua', c.below.length + 1 ≤ limit →
      popFrame (c.frame c.fields.length 0) c.rest (x.toLua E type :: c.below) =
        .ok ⟨lua', c.rest, false⟩ →
      Ends (step E limit) .returned (c.atField 0 []) ⟨lua', c.rest, false⟩
        (Kind.float ∉ x.repeatedKinds ∧ c.below.length + 1 + x.toLuaSlots ≤ limit)

section Field

variable {c : Level δ φ} {i j : Nat} {field : Field} {es arr : Entries δ} {below : List (Val δ)}

theorem settable_name (v : Val δ) {name : Bytes} (h : Key.string name ∉ es.map Prod.fst) :
    settable (v :: .string name :: .table es :: below) =
      .ok (.table (es ++ [(.string name, v)]) :: below) :=
  settable_table v below h

theorem settable_index (v : Val δ) {k : Int} (h : Key.integer k ∉ es.map Prod.fst) :
    settable (v :: .integer k :: .table es :: below) =
      .ok (.table (es ++ [(.integer k, v)]) :: below) :=
  settable_table v below h

variable (hfield : c.fields[i]? = some field)

include hfield

/-- A scalar field takes one turn and two slots. -/
theorem ends_scalar {s : Scalar δ φ} {kind : Kind} (hslot : c.slots[i]? = some (.one (.scalar s)))
    (hrep : field.repeated = false) (htype : field.type = .scalar kind)
    (hname : cstr field.name = field.name) (hkey : Key.string field.name ∉ es.map Prod.fst) :
    Ends (step E limit) .returned (c.atField i es)
      (c.atField (i + 1) (es ++ [(.string field.name, s.toLua E)]))
      (c.below.length + 1 + 2 ≤ limit) := by
  refine .guard .stackOverflow ?_ (by decide)
  simp only [step, fieldStep, hfield, hname, hrep, singularStep, htype, hslot, if_true,
    Bool.false_eq_true, if_false, push_push, List.length_cons, settable_name _ hkey, ok_bind]
  rfl

/-- A message field: its table is built on the stack and set when its frame is popped. -/
theorem ends_submessage {sub : List (Slot δ φ)} {subfields : List Field}
    (hslot : c.slots[i]? = some (.one (.message sub))) (hrep : field.repeated = false)
    (htype : field.type = .message subfields) (hname : cstr field.name = field.name)
    (hkey : Key.string field.name ∉ es.map Prod.fst)
    (ih : Converts E limit field.type (.message sub)) :
    Ends (step E limit) .returned (c.atField i es)
      (c.atField (i + 1) (es ++ [(.string field.name, (Datum.message sub).toLua E field.type)]))
      (Kind.float ∉ (Datum.message sub).repeatedKinds ∧
        c.below.length + 1 + (2 + (Datum.message sub).toLuaSlots) ≤ limit) := by
  let c' := c.sub sub subfields (i + 1) 0 [.string field.name, .table es]
  have hopen : Ends (step E limit) .returned (c.atField i es) (c'.atField 0 [])
      (c.below.length + 1 + 2 ≤ limit) := by
    refine .guard .stackOverflow ?_ (by decide)
    simp only [step, fieldStep, hfield, hname, hrep, singularStep, htype, hslot, if_true,
      Bool.false_eq_true, if_false, push_push, List.length_cons]
    rfl
  have hbuild := fun h => ih c' htype rfl _ h (by
    simp only [popFrame, c', List.cons_append, List.nil_append, settable_name _ hkey, ok_bind]
    rfl)
  refine (hopen.seq fun h => hbuild h).congr ?_
  simp only [c', List.length_append, List.length_cons, List.length_nil]
  constructor
  · rintro ⟨-, hfloat, hroom⟩
    exact ⟨hfloat, by omega⟩
  · rintro ⟨hfloat, hroom⟩
    exact ⟨by omega, hfloat, by omega⟩

/-- A repeated field without elements takes one turn and two slots. -/
theorem ends_empty (hslot : c.slots[i]? = some (.many [])) (hrep : field.repeated = true)
    (hname : cstr field.name = field.name) (hkey : Key.string field.name ∉ es.map Prod.fst) :
    Ends (step E limit) .returned (c.atField i es)
      (c.atField (i + 1) (es ++ [(.string field.name, .table [])]))
      (c.below.length + 1 + 2 ≤ limit) := by
  refine .guard .stackOverflow ?_ (by decide)
  simp only [step, fieldStep, hfield, hname, hrep, repeatedStep, hslot, if_true,
    Bool.false_eq_true, if_false, push_push, List.length_cons, List.length_nil,
    settable_name _ hkey, ok_bind]
  rfl

variable {xs : List (Datum δ φ)}

/-- A repeated field with elements: the name and a new table are pushed, and the loop over the
elements begins. -/
theorem ends_array (hslot : c.slots[i]? = some (.many xs)) (hrep : field.repeated = true)
    (hname : cstr field.name = field.name) (hne : xs ≠ []) :
    Ends (step E limit) .returned (c.atField i es) (c.atElement i 0 field.name es [])
      (c.below.length + 1 + 2 ≤ limit) := by
  have hlen : xs.length ≠ 0 := fun h => hne (List.length_eq_zero_iff.mp h)
  refine .guard .stackOverflow ?_ (by decide)
  simp only [step, fieldStep, hfield, hname, hrep, repeatedStep, hslot, if_true,
    Bool.false_eq_true, if_false, push_push, List.length_cons, hlen]

/-- A scalar element takes two more slots, for its index and its value. -/
theorem ends_scalarElement {kind : Kind} {s : Scalar δ φ} (hslot : c.slots[i]? = some (.many xs))
    (hx : xs[j]? = some (.scalar s)) (htype : field.type = .scalar kind) (hfloat : kind ≠ .float)
    (hkey : Key.integer ((j : Int) + 1) ∉ arr.map Prod.fst) :
    Ends (step E limit) .returned (c.atElement i j field.name es arr)
      (c.atElement i (j + 1) field.name es
        (arr ++ [(.integer ((j : Int) + 1), (Datum.scalar s).toLua E (.scalar kind))]))
      (c.below.length + 1 + 4 ≤ limit) := by
  have hadvance : (if kind = .float then c.frame i j else c.frame i (j + 1)) = c.frame i (j + 1) :=
    if_neg hfloat
  refine .guard .stackOverflow ?_ (by decide)
  simp only [step, elementStep, hfield, hslot, hx, htype, if_true, push_push,
    List.length_cons, settable_index _ hkey, ok_bind, Frame.nextElement, hadvance, Datum.toLua]

/-- A message element is converted above its index. -/
theorem ends_messageElement {subfields : List Field} {sub : List (Slot δ φ)}
    (hslot : c.slots[i]? = some (.many xs)) (hrep : field.repeated = true)
    (hx : xs[j]? = some (.message sub)) (htype : field.type = .message subfields)
    (ih : Converts E limit (.message subfields) (.message sub))
    (hkey : Key.integer ((j : Int) + 1) ∉ arr.map Prod.fst) :
    Ends (step E limit) .returned (c.atElement i j field.name es arr)
      (c.atElement i (j + 1) field.name es (arr ++
        [(.integer ((j : Int) + 1), (Datum.message sub).toLua E (.message subfields))]))
      (Kind.float ∉ (Datum.message sub).repeatedKinds ∧
        c.below.length + 1 + (4 + (Datum.message sub).toLuaSlots) ≤ limit) := by
  have hne : xs.length ≠ 0 := by
    intro h
    rw [List.length_eq_zero_iff.mp h] at hx
    cases hx
  let c' := c.sub sub subfields i (j + 1)
    [.integer ((j : Int) + 1), .table arr, .string field.name, .table es]
  have hopen : Ends (step E limit) .returned (c.atElement i j field.name es arr) (c'.atField 0 [])
      (c.below.length + 1 + 4 ≤ limit) := by
    refine .guard .stackOverflow ?_ (by decide)
    simp only [step, elementStep, hfield, hslot, hx, htype, if_true, push_push,
      List.length_cons]
    rfl
  have hbuild := fun h => ih c' rfl rfl _ h (by
    simp only [popFrame, c', List.cons_append, List.nil_append, settable_index _ hkey, ok_bind]
    rfl)
  -- the frame of the array comes back to the loop over the elements
  have hback : ∀ arr' : Entries δ, step E limit
      { c.atElement i (j + 1) field.name es arr' with inArray := false } =
      .ok (c.atElement i (j + 1) field.name es arr') := by
    intro arr'
    simp only [step, fieldStep, hfield, hrep, repeatedStep, hslot, hne, Nat.add_eq_zero_iff,
      Nat.one_ne_zero, and_false, if_false, if_true, Bool.false_eq_true, ok_bind]
  refine (hopen.seq fun h => (hbuild h).seq fun _ => .head (hback _) (.refl trivial)).congr ?_
  simp only [c', List.length_append, List.length_cons, List.length_nil]
  constructor
  · rintro ⟨-, ⟨hfloat, hroom⟩, -⟩
    exact ⟨hfloat, by omega⟩
  · rintro ⟨hfloat, hroom⟩
    exact ⟨by omega, ⟨hfloat, by omega⟩, trivial⟩

/-- An element is converted and set in the array. -/
theorem ends_element {x : Datum δ φ} (hslot : c.slots[i]? = some (.many xs))
    (hrep : field.repeated = true) (hx : xs[j]? = some x)
    (hfit : Datum.OfType field.type x) (hfloat : field.type ≠ .scalar .float)
    (ih : Converts E limit field.type x) (hkey : Key.integer ((j : Int) + 1) ∉ arr.map Prod.fst) :
    Ends (step E limit) .returned (c.atElement i j field.name es arr)
      (c.atElement i (j + 1) field.name es
        (arr ++ [(.integer ((j : Int) + 1), x.toLua E field.type)]))
      (Kind.float ∉ x.repeatedKinds ∧ c.below.length + 1 + (4 + x.toLuaSlots) ≤ limit) := by
  generalize htype : field.type = type at hfit hfloat ih
  cases hfit with
  | scalar hkind =>
    refine (ends_scalarElement hfield hslot hx htype (fun h => hfloat (congrArg _ h)) hkey).congr ?_
    simp [Datum.repeatedKinds, Datum.toLuaSlots]
  | message => exact ends_messageElement hfield hslot hrep hx htype ih hkey

/-- The loop over the elements, from some element on to its end. -/
theorem ends_elements (done : List (Datum δ φ)) {todo : List (Datum δ φ)}
    (hslot : c.slots[i]? = some (.many (done ++ todo))) (hrep : field.repeated = true)
    (hfit : ∀ x ∈ todo, Datum.OfType field.type x) (hfloat : field.type ≠ .scalar .float)
    (ih : ∀ x ∈ todo, Converts E limit field.type x)
    (hkey : Key.string field.name ∉ es.map Prod.fst) :
    Ends (step E limit) .returned
      (c.atElement i done.length field.name es (elementsOf E field.type 1 done))
      (c.atField (i + 1)
        (es ++ [(.string field.name, .table (elementsOf E field.type 1 (done ++ todo)))]))
      (∀ x ∈ todo, Kind.float ∉ x.repeatedKinds ∧
        c.below.length + 1 + (4 + x.toLuaSlots) ≤ limit) := by
  induction todo generalizing done with
  | nil =>
    rw [List.append_nil] at hslot ⊢
    have hend : done[done.length]? = none := by simp
    refine .head ?_ (.refl (by simp))
    simp only [step, elementStep, hfield, hslot, hend, if_true, settable_name _ hkey, ok_bind]
    rfl
  | cons x todo iht =>
    have hx : (done ++ x :: todo)[done.length]? = some x := by simp
    have hindex : Key.integer ((done.length : Int) + 1) ∉
        (elementsOf E field.type 1 done).map Prod.fst := by
      have := keys_elementsOf E field.type 1 done (done.length + 1)
      push_cast at this
      rw [this]
      omega
    have hassoc : done ++ x :: todo = (done ++ [x]) ++ todo := by simp
    refine (Ends.seq (ends_element hfield hslot hrep hx (hfit x (by simp)) hfloat
      (ih x (by simp)) hindex) fun _ => ?_).congr (List.forall_mem_cons).symm
    rw [hassoc] at hslot ⊢
    have hrest := iht (done ++ [x]) hslot (fun y hy => hfit y (by simp [hy]))
      (fun y hy => ih y (by simp [hy]))
    rwa [elementsOf_one_snoc, List.length_append, List.length_singleton] at hrest

/-- The loop over the elements of a repeated float does not end: every turn sets the first element
again. -/
theorem ends_float {x : Scalar δ φ} {s' : State δ φ} {g : Prop}
    (hslot : c.slots[i]? = some (.many (.scalar x :: xs))) (htype : field.type = .scalar .float)
    (hg : ¬ g) : Ends (step E limit) .returned (c.atElement i 0 field.name es arr) s' g := by
  have hturn : ∀ arr : Entries δ, step E limit (c.atElement i 0 field.name es arr) =
        if c.below.length + 1 + 4 ≤ limit then
          .ok (c.atElement i 0 field.name es (rawset (.integer 1) (x.toLua E) arr))
        else .error .stackOverflow := by
    intro arr
    simp only [step, elementStep, hfield, hslot, htype, if_true, push_push, List.length_cons,
      List.getElem?_cons_zero, settable, Val.toKey, ok_bind]
    rfl
  refine .diverge (fun s => ∃ arr, s = c.atElement i 0 field.name es arr) ⟨arr, rfl⟩ ?_ ?_ hg
  · rintro s ⟨arr, rfl⟩
    rw [hturn]
    split <;> simp
  · rintro s s₁ ⟨arr, rfl⟩ h
    rw [hturn] at h
    split at h
    · exact ⟨_, (Except.ok.inj h).symm⟩
    · cases h

/-- A repeated field with elements. -/
theorem ends_many {x : Datum δ φ} (hslot : c.slots[i]? = some (.many (x :: xs)))
    (hrep : field.repeated = true)
    (hfit : ∀ y ∈ x :: xs, Datum.OfType field.type y)
    (ih : ∀ y ∈ x :: xs, Converts E limit field.type y) (hname : cstr field.name = field.name)
    (hkey : Key.string field.name ∉ es.map Prod.fst) :
    Ends (step E limit) .returned (c.atField i es)
      (c.atField (i + 1) (es ++ [(.string field.name, (Slot.many (x :: xs)).toLua E field.type)]))
      (Kind.float ∉ (Slot.many (x :: xs)).repeatedKinds ∧
        c.below.length + 1 + (Slot.many (x :: xs)).toLuaSlots ≤ limit) := by
  by_cases hfloat : field.type = .scalar .float
  · have hx := hfit x List.mem_cons_self
    rw [hfloat] at hx
    cases hx with
    | @scalar _ s hkind =>
      have hbad : Kind.float ∈ (Slot.many (Datum.scalar s :: xs)).repeatedKinds := by
        simp [Slot.repeatedKinds, elementKinds, hkind]
      refine (Ends.seq (ends_array hfield hslot hrep hname (List.cons_ne_nil _ _))
        fun _ => ends_float hfield hslot hfloat not_false).congr ?_
      simp [hbad]
  · have hscalar : ∀ s, Datum.scalar s ∈ x :: xs → s.kind ≠ .float := by
      intro s hs hkind
      generalize field.type = type at hfit hfloat
      cases hfit _ hs with
      | scalar hk => exact hfloat (hk ▸ hkind ▸ rfl)
    refine (Ends.seq (ends_array hfield hslot hrep hname (List.cons_ne_nil x xs)) fun _ =>
      ends_elements hfield [] hslot hrep hfit hfloat ih hkey).congr ?_
    have hkinds : Kind.float ∉ (Slot.many (x :: xs)).repeatedKinds ↔
        ∀ y ∈ x :: xs, Kind.float ∉ y.repeatedKinds := by
      rw [Slot.repeatedKinds, mem_elementKinds hscalar]
      simp only [not_exists, not_and]
    rw [hkinds, toLuaSlots_many_le, ← forall₂_and]
    constructor
    · rintro ⟨-, h⟩
      exact h
    · intro h
      have hx := h x List.mem_cons_self
      exact ⟨by omega, h⟩

/-- A field is set in the table. -/
theorem ends_field {slot : Slot δ φ} (hslot : c.slots[i]? = some slot)
    (hrep : field.repeated = slot.isMany)
    (hfit : ∀ x ∈ slot.data, Datum.OfType field.type x)
    (ih : ∀ x ∈ slot.data, Converts E limit field.type x)
    (hname : cstr field.name = field.name) (hkey : Key.string field.name ∉ es.map Prod.fst) :
    Ends (step E limit) .returned (c.atField i es)
      (c.atField (i + 1) (es ++ [(.string field.name, slot.toLua E field.type)]))
      (Kind.float ∉ slot.repeatedKinds ∧ c.below.length + 1 + slot.toLuaSlots ≤ limit) := by
  cases slot with
  | one x =>
    have hfitx := hfit x (List.mem_singleton_self x)
    have ihx := ih x (List.mem_singleton_self x)
    cases x with
    | scalar s =>
      generalize htype : field.type = type at hfitx
      cases hfitx with
      | scalar hkind =>
        rw [htype.symm]
        refine (ends_scalar hfield hslot hrep htype hname hkey).congr ?_
        simp [Slot.repeatedKinds, Datum.repeatedKinds, Slot.toLuaSlots, Datum.toLuaSlots]
    | message sub =>
      generalize htype : field.type = type at hfitx
      cases hfitx with
      | message hlen hmany hsub =>
        rw [htype.symm]
        exact ends_submessage hfield hslot hrep htype hname hkey ihx
  | many xs =>
    cases xs with
    | nil =>
      refine (ends_empty hfield hslot hrep hname hkey).congr ?_
      simp [Slot.repeatedKinds, elementKinds, Slot.toLuaSlots]
    | cons x xs => exact ends_many hfield hslot hrep hfit ih hname hkey

omit hfield in
/-- The fields of a message from some field on, and the end of its frame. -/
theorem ends_fields (qs ps : List (Field × Slot δ φ)) {lua' : List (Val δ)}
    (hlen : c.fields.length = c.slots.length) (hzip : c.fields.zip c.slots = qs ++ ps)
    (hnodup : (c.fields.map FieldOf.name).Nodup) (hname : ∀ f ∈ c.fields, cstr f.name = f.name)
    (hrep : ∀ p ∈ ps, p.1.repeated = p.2.isMany)
    (hfit : ∀ p ∈ ps, ∀ x ∈ p.2.data, Datum.OfType p.1.type x)
    (ih : ∀ p ∈ ps, ∀ x ∈ p.2.data, Converts E limit p.1.type x)
    (hpop : popFrame (c.frame c.fields.length 0) c.rest
      (.table ((c.fields.zip c.slots).map (entryOf E)) :: c.below) = .ok ⟨lua', c.rest, false⟩) :
    Ends (step E limit) .returned (c.atField qs.length (qs.map (entryOf E))) ⟨lua', c.rest, false⟩
      (∀ p ∈ ps, Kind.float ∉ p.2.repeatedKinds ∧
        c.below.length + 1 + p.2.toLuaSlots ≤ limit) := by
  induction ps generalizing qs with
  | nil =>
    have hall : qs.length = c.fields.length := by
      rw [← List.append_nil qs, ← hzip, List.length_zip, ← hlen, Nat.min_self]
    have hend : c.fields[c.fields.length]? = none := by simp
    rw [hzip, List.append_nil] at hpop
    refine .head ?_ (.refl (by simp))
    rw [hall]
    simp only [step, fieldStep, hend, Bool.false_eq_true, if_false]
    exact hpop
  | cons p ps ihp =>
    obtain ⟨hfield, hslot⟩ := List.getElem?_zip_eq_some.mp
      (show (c.fields.zip c.slots)[qs.length]? = some p by simp [hzip])
    have hkey : Key.string p.1.name ∉ ((qs.map (entryOf E)).map Prod.fst : List (Key δ)) := by
      rw [← List.map_fst_zip (Nat.le_of_eq hlen), hzip] at hnodup
      simp only [List.map_append, List.map_cons, List.map_map] at hnodup
      have hfresh := (List.nodup_append.mp hnodup).2.2
      simp only [List.map_map, List.mem_map, not_exists, not_and]
      intro q hq heq
      refine hfresh q.1.name (List.mem_map.mpr ⟨q, hq, rfl⟩) p.1.name List.mem_cons_self ?_
      exact Key.string.inj heq
    refine (Ends.seq (ends_field hfield hslot (hrep p List.mem_cons_self)
      (hfit p List.mem_cons_self) (ih p List.mem_cons_self)
      (hname p.1 (List.mem_of_getElem? hfield)) hkey) fun _ => ?_).congr List.forall_mem_cons.symm
    have hrest := ihp (qs ++ [p]) (by simp [hzip]) (fun q hq => hrep q (by simp [hq]))
      (fun q hq => hfit q (by simp [hq])) (fun q hq => ih q (by simp [hq]))
    rwa [List.map_append, List.length_append] at hrest

end Field

omit [DecidableEq δ] in
/-- What the fields of a message need, they need together. -/
theorem needs_fields {k : Nat} {fields : List Field} {slots : List (Slot δ φ)}
    (hlen : fields.length = slots.length) (hk : k ≤ limit) :
    (∀ p ∈ fields.zip slots, Kind.float ∉ p.2.repeatedKinds ∧ k + p.2.toLuaSlots ≤ limit) ↔
      Kind.float ∉ repeatedKindsOf slots ∧ k + toLuaSlotsOf slots ≤ limit := by
  have hslots : k + toLuaSlotsOf slots ≤ limit ↔
      ∀ slot ∈ slots, k + slot.toLuaSlots ≤ limit := by
    rw [← Nat.le_sub_iff_add_le' hk, toLuaSlotsOf_le]
    simp only [Nat.le_sub_iff_add_le' hk]
  have hmem : ∀ P : Slot δ φ → Prop, (∀ slot ∈ slots, P slot) ↔ ∀ p ∈ fields.zip slots, P p.2 := by
    intro P
    nth_rewrite 1 [← List.map_snd_zip (Nat.le_of_eq hlen.symm)]
    rw [List.forall_mem_map]
  simp only [hslots, mem_repeatedKindsOf, not_exists, not_and, hmem, forall_and]

/-- **Building a table**: the traversal of a message ends exactly if no repeated field holds a
float and the stack has the slots; it leaves the table of the message. -/
theorem converts {type : CppType} {x : Datum δ φ} (hok : type.Ok) (hfit : x.OfType type) :
    Converts E limit type x := by
  induction hfit with
  | scalar hkind =>
    rintro c h -
    cases h
  | @message fields slots hlen hrep hfits ih =>
    rintro ⟨slots, fields, n, rest, below⟩ ⟨⟩ ⟨⟩ lua' hbelow hpop
    cases hok with
    | message hnodup hident hsub =>
      rw [Datum.toLua, entriesOf_eq] at hpop
      refine (ends_fields [] (fields.zip slots) hlen rfl hnodup
        (fun f hf => cstr_identifier (hident f hf)) hrep hfits
        (fun p hp x hx => ih p hp x hx (hsub p.1 (List.of_mem_zip hp).1)) hpop).congr ?_
      exact needs_fields hlen hbelow

variable (E limit) in
/-- `protobuf2lua_nostack`, called with a Lua stack, returns and leaves another one. -/
def Returns (fields : List Field) (slots : List (Slot δ φ)) (lua lua' : List (Val δ)) : Prop :=
  ∃ s s', start limit fields slots lua = .ok s ∧ Halts (step E limit) .returned s s' ∧ s'.lua = lua'

/-- **`protobuf2lua_nostack`** returns exactly if no repeated field of the message holds a float
and the stack has the slots, and then with the table of the message on the stack. -/
theorem returns_iff {fields : List Field} {slots : List (Slot δ φ)}
    (hok : (CppType.message fields).Ok) (hfit : (Datum.message slots).OfType (.message fields))
    (lua lua' : List (Val δ)) :
    Returns E limit fields slots lua lua' ↔
      (Kind.float ∉ repeatedKindsOf slots ∧ lua.length + 1 + toLuaSlotsOf slots ≤ limit) ∧
        lua' = .table (entriesOf E fields slots) :: lua := by
  by_cases hroom : lua.length + 1 ≤ limit
  · have hstart : start limit fields slots lua =
        .ok ⟨.table [] :: lua, [⟨slots, fields, 0, 0, 0⟩], false⟩ := by
      rw [start, push_bind, if_pos hroom]
    have hends := converts (E := E) hok hfit ⟨slots, fields, 0, [], lua⟩ rfl rfl _ hroom rfl
    constructor
    · rintro ⟨s, s', hs, hhalts, rfl⟩
      obtain rfl := Except.ok.inj (hstart.symm.trans hs)
      obtain ⟨hneeds, rfl⟩ := (hends.halts_iff rfl).mp hhalts
      exact ⟨hneeds, rfl⟩
    · rintro ⟨hneeds, rfl⟩
      exact ⟨_, _, hstart, (hends.halts_iff rfl).mpr ⟨hneeds, rfl⟩, rfl⟩
  · have hstart : start limit fields slots lua = .error .stackOverflow := by
      rw [start, push_bind, if_neg hroom]
    constructor
    · rintro ⟨s, s', hs, -⟩
      cases hstart.symm.trans hs
    · rintro ⟨⟨-, hneeds⟩, -⟩
      exact absurd hneeds (by omega)

/-- **Termination and balance**: for a message of any type without recursion, NaN included, the
conversion ends with one more value on the stack, a table, exactly if no repeated field holds a
float and the stack has the slots. -/
theorem balanced_iff {fields : List Field} {slots : List (Slot δ φ)}
    (hok : (CppType.message fields).Ok) (hfit : (Datum.message slots).OfType (.message fields))
    (lua : List (Val δ)) :
    (∃ es, Returns E limit fields slots lua (.table es :: lua)) ↔
      Kind.float ∉ repeatedKindsOf slots ∧ lua.length + 1 + toLuaSlotsOf slots ≤ limit := by
  constructor
  · rintro ⟨es, h⟩
    exact ((returns_iff hok hfit _ _).mp h).1
  · intro hneeds
    exact ⟨entriesOf E fields slots, (returns_iff hok hfit _ _).mpr ⟨hneeds, rfl⟩⟩

theorem balanced_outer : ∃ es, Returns whole 20 outerFields outerMessage [] [.table es] :=
  (balanced_iff outerFields_ok outerMessage_fits.ofType []).mpr ⟨by decide, by decide⟩

/-- The fields of the first of `n + 1` message types in a chain, each with the next in its field. -/
def chainFields : Nat → List Field
  | 0 => []
  | n + 1 => [⟨[0x61], false, .message (chainFields n)⟩]

def chainMessage : Nat → List (Slot Int Int)
  | 0 => []
  | n + 1 => [.one (.message (chainMessage n))]

theorem chainFields_ok (n : Nat) : (CppType.message (chainFields n)).Ok := by
  induction n with
  | zero => exact .message (by simp [chainFields]) (by simp [chainFields]) (by simp [chainFields])
  | succ n ih => exact .single rfl ih

theorem chainMessage_ofType (n : Nat) :
    (Datum.message (chainMessage n)).OfType (.message (chainFields n)) := by
  induction n with
  | zero => exact .message rfl (by simp [chainFields]) (by simp [chainFields])
  | succ n ih =>
    refine .message rfl (by simp [chainFields, chainMessage, Slot.isMany]) ?_
    simpa [chainFields, chainMessage, Slot.data] using ih

theorem toLuaSlotsOf_chain (n : Nat) : toLuaSlotsOf (chainMessage n) = 2 * n := by
  induction n with
  | zero => rfl
  | succ n ih =>
    simp only [chainMessage, toLuaSlotsOf, Slot.toLuaSlots, Datum.toLuaSlots, ih]
    omega

/-- A repeated float with an element keeps the loop over the elements going, whatever the number of
slots; and eleven messages in a chain need more slots than Lua guarantees. -/
theorem not_balanced :
    (∀ limit lua', ¬ Returns whole limit [⟨[0x61], true, .scalar .float⟩]
      [.many [.scalar (.float 1)]] [] lua') ∧
    ∀ lua', ¬ Returns whole 20 (chainFields 10) (chainMessage 10) [] lua' := by
  refine ⟨fun limit lua' h => ?_, fun lua' h => ?_⟩
  · have hfit : (Datum.message [.many [.scalar (.float 1)]] : Datum Int Int).OfType
        (.message [⟨[0x61], true, .scalar .float⟩]) :=
      .message rfl (by simp [Slot.isMany]) (by simpa [Slot.data] using .scalar rfl)
    have hneeds := ((returns_iff (.single rfl (.scalar _)) hfit _ _).mp h).1
    exact hneeds.1 (by decide)
  · have hneeds := ((returns_iff (chainFields_ok 10) (chainMessage_ofType 10) _ _).mp h).1
    rw [toLuaSlotsOf_chain] at hneeds
    exact absurd hneeds.2 (by decide)

end ToLua

end Avant.Lua
