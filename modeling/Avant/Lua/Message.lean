import Avant.Lua.Api

/-!
# Protobuf messages

Messages as `google::protobuf::Reflection` shows them to `src/app/lua_plugin.cpp`: the fields of a
descriptor in order, and for each of them what its getters return. A type is a finite tree, so it
is not recursive; map and oneof fields are left out.

A message is the list of its fields' contents: one datum of a singular field, the data of a
repeated one. The value of an unset field is the default of proto3, for a sub-message the default
instance, as `GetMessage` returns it; presence itself (`has_…`) is left out. A `Message *` is a
path from the outermost message.

`Datum.OfType` are the messages of a type: data of the right kinds. `Datum.Fits` are those with the
data in the range of their C++ types and without NaN.

* `modifyAt_append`, `messageAt_putAt`: how a message and its sub-messages change through pointers.
-/

namespace Avant.Lua

open Avant.Lib

/-! ## Types -/

/-- `FieldDescriptor::CppType`, apart from messages. -/
inductive Kind
  | int32 | int64 | uint32 | uint64 | double | float | bool | string | enum
  deriving DecidableEq

/-- `FieldDescriptor`, over the types of fields. -/
structure FieldOf (τ : Type) where
  name : Bytes
  repeated : Bool
  type : τ

/-- The type of a field; a message type is the list of its fields. -/
inductive CppType
  | scalar (kind : Kind)
  | message (fields : List (FieldOf CppType))

/-- `FieldDescriptor` -/
abbrev Field := FieldOf CppType

/-- Types as `protoc` accepts them: the names of the fields are identifiers and differ. -/
inductive CppType.Ok : CppType → Prop
  | scalar (kind : Kind) : Ok (.scalar kind)
  | message {fields : List Field} :
      (fields.map FieldOf.name).Nodup → (∀ f ∈ fields, isIdentifier f.name = true) →
      (∀ f ∈ fields, Ok f.type) → Ok (.message fields)

/-! ## Data -/

variable {δ φ : Type}

/-- A value of a field that is not a message. -/
inductive Scalar (δ φ : Type)
  | int32 (v : Int)
  | int64 (v : Int)
  | uint32 (v : Nat)
  | uint64 (v : Nat)
  | double (x : δ)
  | float (x : φ)
  | bool (b : Bool)
  | string (s : Bytes)
  | enum (v : Int)
  deriving DecidableEq

def Scalar.kind : Scalar δ φ → Kind
  | .int32 _ => .int32
  | .int64 _ => .int64
  | .uint32 _ => .uint32
  | .uint64 _ => .uint64
  | .double _ => .double
  | .float _ => .float
  | .bool _ => .bool
  | .string _ => .string
  | .enum _ => .enum

mutual

/-- A scalar, or a message with the contents of its fields. -/
inductive Datum (δ φ : Type)
  | scalar (s : Scalar δ φ)
  | message (slots : List (Slot δ φ))

/-- The contents of a field. -/
inductive Slot (δ φ : Type)
  | one (x : Datum δ φ)
  | many (xs : List (Datum δ φ))

end

/-- The slot is that of a repeated field. -/
def Slot.isMany : Slot δ φ → Bool
  | .one _ => false
  | .many _ => true

/-- The data in a slot. -/
def Slot.data : Slot δ φ → List (Datum δ φ)
  | .one x => [x]
  | .many xs => xs

/-- The datum is a value of the type. -/
inductive Datum.OfType : CppType → Datum δ φ → Prop
  | scalar {kind : Kind} {s : Scalar δ φ} : s.kind = kind → OfType (.scalar kind) (.scalar s)
  | message {fields : List Field} {slots : List (Slot δ φ)} :
      fields.length = slots.length →
      (∀ p ∈ fields.zip slots, p.1.repeated = p.2.isMany) →
      (∀ p ∈ fields.zip slots, ∀ x ∈ p.2.data, OfType p.1.type x) →
      OfType (.message fields) (.message slots)

variable (E : Env δ φ)

/-- The C++ type of the value holds it, and it is not NaN. -/
def Scalar.InRange : Scalar δ φ → Prop
  | .int32 v => -2 ^ 31 ≤ v ∧ v < 2 ^ 31
  | .int64 v => -2 ^ 63 ≤ v ∧ v < 2 ^ 63
  | .uint32 v => v < 2 ^ 32
  | .uint64 v => v < 2 ^ 64
  | .double x => E.isNaN x = false
  | .float x => E.isNaNFloat x = false
  | .bool _ => True
  | .string _ => True
  | .enum v => -2 ^ 31 ≤ v ∧ v < 2 ^ 31

instance (s : Scalar δ φ) : Decidable (s.InRange E) :=
  match s with
  | .int32 v => inferInstanceAs (Decidable (-2 ^ 31 ≤ v ∧ v < 2 ^ 31))
  | .int64 v => inferInstanceAs (Decidable (-2 ^ 63 ≤ v ∧ v < 2 ^ 63))
  | .uint32 v => inferInstanceAs (Decidable (v < 2 ^ 32))
  | .uint64 v => inferInstanceAs (Decidable (v < 2 ^ 64))
  | .double x => inferInstanceAs (Decidable (E.isNaN x = false))
  | .float x => inferInstanceAs (Decidable (E.isNaNFloat x = false))
  | .bool _ => .isTrue trivial
  | .string _ => .isTrue trivial
  | .enum v => inferInstanceAs (Decidable (-2 ^ 31 ≤ v ∧ v < 2 ^ 31))

/-- The datum is a value of the type, without NaN. -/
inductive Datum.Fits : CppType → Datum δ φ → Prop
  | scalar {kind : Kind} {s : Scalar δ φ} :
      s.kind = kind → s.InRange E → Fits (.scalar kind) (.scalar s)
  | message {fields : List Field} {slots : List (Slot δ φ)} :
      fields.length = slots.length →
      (∀ p ∈ fields.zip slots, p.1.repeated = p.2.isMany) →
      (∀ p ∈ fields.zip slots, ∀ x ∈ p.2.data, Fits p.1.type x) →
      Fits (.message fields) (.message slots)

variable {type : CppType}

variable {E} in
theorem Datum.Fits.ofType {x : Datum δ φ} (h : x.Fits E type) : x.OfType type := by
  induction h with
  | scalar hkind _ => exact .scalar hkind
  | message hlen hrep _ ih => exact .message hlen hrep ih

/-! ## Recursion over data -/

/-- A property of all data: it holds of scalars, and of a message if it holds of what its slots
hold. -/
theorem Datum.induction {P : Datum δ φ → Prop} (hscalar : ∀ s, P (.scalar s))
    (hmessage : ∀ slots, (∀ slot ∈ slots, ∀ x ∈ slot.data, P x) → P (.message slots))
    (x : Datum δ φ) : P x :=
  @Datum.rec δ φ P (fun slot => ∀ x ∈ slot.data, P x)
    (fun slots => ∀ slot ∈ slots, ∀ x ∈ slot.data, P x) (fun xs => ∀ x ∈ xs, P x)
    hscalar hmessage (fun _ h => List.forall_mem_singleton.mpr h) (fun _ h => h)
    (List.forall_mem_nil _) (fun _ _ h hs => List.forall_mem_cons.mpr ⟨h, hs⟩)
    (List.forall_mem_nil _) (fun _ _ h hs => List.forall_mem_cons.mpr ⟨h, hs⟩) x

mutual

/-- The scalars at every level. -/
def Datum.scalars : Datum δ φ → List (Scalar δ φ)
  | .scalar s => [s]
  | .message slots => scalarsOf slots

def scalarsOf : List (Slot δ φ) → List (Scalar δ φ)
  | [] => []
  | slot :: slots => slot.scalars ++ scalarsOf slots

def Slot.scalars : Slot δ φ → List (Scalar δ φ)
  | .one x => x.scalars
  | .many xs => elementScalars xs

def elementScalars : List (Datum δ φ) → List (Scalar δ φ)
  | [] => []
  | x :: xs => x.scalars ++ elementScalars xs

end

mutual

/-- Changes the scalars at every level. -/
def Datum.map (f : Scalar δ φ → Scalar δ φ) : Datum δ φ → Datum δ φ
  | .scalar s => .scalar (f s)
  | .message slots => .message (mapSlots f slots)

def mapSlots (f : Scalar δ φ → Scalar δ φ) : List (Slot δ φ) → List (Slot δ φ)
  | [] => []
  | slot :: slots => slot.map f :: mapSlots f slots

def Slot.map (f : Scalar δ φ → Scalar δ φ) : Slot δ φ → Slot δ φ
  | .one x => .one (x.map f)
  | .many xs => .many (mapElements f xs)

def mapElements (f : Scalar δ φ → Scalar δ φ) : List (Datum δ φ) → List (Datum δ φ)
  | [] => []
  | x :: xs => x.map f :: mapElements f xs

end

theorem elementScalars_eq (xs : List (Datum δ φ)) :
    elementScalars xs = xs.flatMap Datum.scalars := by
  induction xs with
  | nil => rfl
  | cons x xs ih => rw [elementScalars, ih, List.flatMap_cons]

theorem Slot.scalars_eq (slot : Slot δ φ) : slot.scalars = slot.data.flatMap Datum.scalars := by
  cases slot with
  | one x => rw [Slot.scalars, Slot.data, List.flatMap_singleton]
  | many xs => exact elementScalars_eq xs

theorem scalarsOf_eq (slots : List (Slot δ φ)) : scalarsOf slots = slots.flatMap Slot.scalars := by
  induction slots with
  | nil => rfl
  | cons slot slots ih => rw [scalarsOf, ih, List.flatMap_cons]

theorem mapElements_eq (f : Scalar δ φ → Scalar δ φ) (xs : List (Datum δ φ)) :
    mapElements f xs = xs.map (Datum.map f) := by
  induction xs with
  | nil => rfl
  | cons x xs ih => rw [mapElements, ih, List.map_cons]

theorem mapSlots_eq (f : Scalar δ φ → Scalar δ φ) (slots : List (Slot δ φ)) :
    mapSlots f slots = slots.map (Slot.map f) := by
  induction slots with
  | nil => rfl
  | cons slot slots ih => rw [mapSlots, ih, List.map_cons]

variable {α : Type} {slot : Slot δ φ}

theorem map_eq_self {f : α → α} {l : List α} : l.map f = l ↔ ∀ a ∈ l, f a = a := by
  nth_rewrite 2 [← List.map_id l]
  exact List.map_inj_left

theorem Slot.map_eq_self {f : Scalar δ φ → Scalar δ φ} :
    slot.map f = slot ↔ ∀ x ∈ slot.data, x.map f = x := by
  cases slot with
  | one x => simp [Slot.map, Slot.data]
  | many xs => rw [Slot.map, Slot.data, mapElements_eq, Slot.many.injEq, Lua.map_eq_self]

/-- A datum does not change exactly if none of its scalars does. -/
theorem Datum.map_eq_self {f : Scalar δ φ → Scalar δ φ} (x : Datum δ φ) :
    x.map f = x ↔ ∀ s ∈ x.scalars, f s = s := by
  induction x using Datum.induction with
  | hscalar s => simp [Datum.map, Datum.scalars]
  | hmessage slots ih =>
    rw [Datum.map, Datum.scalars, mapSlots_eq, scalarsOf_eq, Datum.message.injEq, Lua.map_eq_self,
      List.forall_mem_flatMap]
    refine forall₂_congr fun slot hslot => ?_
    rw [Slot.map_eq_self, Slot.scalars_eq, List.forall_mem_flatMap]
    exact forall₂_congr fun x hx => ih slot hslot x hx

/-! ## Default values -/

def Kind.zero : Kind → Scalar δ φ
  | .int32 => .int32 0
  | .int64 => .int64 0
  | .uint32 => .uint32 0
  | .uint64 => .uint64 0
  | .double => .double (E.ofInteger 0)
  | .float => .float (E.toFloat (E.ofInteger 0))
  | .bool => .bool false
  | .string => .string []
  | .enum => .enum 0

mutual

def CppType.empty : CppType → Datum δ φ
  | .scalar kind => .scalar (kind.zero E)
  | .message fields => .message (emptySlots fields)

/-- A message of which no field is set. -/
def emptySlots : List Field → List (Slot δ φ)
  | [] => []
  | f :: fields => emptySlot f :: emptySlots fields

def emptySlot : Field → Slot δ φ
  | ⟨_, repeated, type⟩ => if repeated then .many [] else .one (CppType.empty type)

end

theorem emptySlots_eq (fields : List Field) :
    emptySlots E fields = fields.map (emptySlot E) := by
  induction fields with
  | nil => rfl
  | cons f fields ih => rw [emptySlots, ih, List.map_cons]

/-! ## Pointers to messages -/

/-- `Message *`: the fields and elements that lead to the message from the outermost one. -/
abbrev Path := List (Nat × Nat)

/-- The message of a singular field, or element `j` of a repeated one. -/
def Slot.message (j : Nat) : Slot δ φ → Option (List (Slot δ φ))
  | .one (.message slots) => some slots
  | .many xs =>
    match xs[j]? with
    | some (.message slots) => some slots
    | _ => none
  | .one (.scalar _) => none

/-- The message a pointer points to. -/
def messageAt : Path → List (Slot δ φ) → Option (List (Slot δ φ))
  | [], slots => some slots
  | (i, j) :: p, slots => (slots[i]?.bind (Slot.message j)).bind (messageAt p)

/-- Changes a message. -/
def Datum.modify (f : List (Slot δ φ) → List (Slot δ φ)) : Datum δ φ → Datum δ φ
  | .message slots => .message (f slots)
  | .scalar s => .scalar s

/-- Changes the message of a singular field, or element `j` of a repeated one. -/
def Slot.modify (j : Nat) (f : List (Slot δ φ) → List (Slot δ φ)) : Slot δ φ → Slot δ φ
  | .one x => .one (x.modify f)
  | .many xs => .many (xs.modify j (Datum.modify f))

/-- Changes the message a pointer points to. -/
def modifyAt : Path → (List (Slot δ φ) → List (Slot δ φ)) → List (Slot δ φ) → List (Slot δ φ)
  | [], f, slots => f slots
  | (i, j) :: p, f, slots => slots.modify i (Slot.modify j (modifyAt p f))

/-- Appends to a repeated field. -/
def Slot.add (x : Datum δ φ) : Slot δ φ → Slot δ φ
  | .many xs => .many (xs ++ [x])
  | .one y => .one y

/-- `Reflection::Set…` -/
def setScalar (p : Path) (i : Nat) (s : Scalar δ φ) : List (Slot δ φ) → List (Slot δ φ) :=
  modifyAt p fun slots => slots.set i (.one (.scalar s))

/-- `Reflection::Add…` -/
def addDatum (p : Path) (i : Nat) (x : Datum δ φ) : List (Slot δ φ) → List (Slot δ φ) :=
  modifyAt p fun slots => slots.modify i (Slot.add x)

/-- `Reflection::FieldSize` -/
def fieldSize (p : Path) (i : Nat) (root : List (Slot δ φ)) : Nat :=
  match (messageAt p root).bind fun slots => slots[i]? with
  | some (.many xs) => xs.length
  | _ => 0

/-- The message at `p` becomes `slots`. -/
def putAt (p : Path) (slots : List (Slot δ φ)) : List (Slot δ φ) → List (Slot δ φ) :=
  modifyAt p fun _ => slots

theorem modifyAt_append (p q : Path) (f : List (Slot δ φ) → List (Slot δ φ)) :
    modifyAt (p ++ q) f = modifyAt p (modifyAt q f) := by
  induction p with
  | nil => rfl
  | cons ij p ih =>
    funext slots
    simp only [List.cons_append, modifyAt, ih]

theorem Datum.modify_modify (f g : List (Slot δ φ) → List (Slot δ φ)) :
    Datum.modify f ∘ Datum.modify g = Datum.modify (f ∘ g) := by
  funext x
  cases x <;> rfl

theorem Slot.modify_modify (j : Nat) (f g : List (Slot δ φ) → List (Slot δ φ)) :
    Slot.modify j f ∘ Slot.modify j g = Slot.modify j (f ∘ g) := by
  funext s
  cases s with
  | one x => exact congrArg Slot.one (congrFun (Datum.modify_modify f g) x)
  | many xs => simp only [Function.comp, Slot.modify, List.modify_modify_eq, Datum.modify_modify]

theorem modifyAt_modifyAt (p : Path) (f g : List (Slot δ φ) → List (Slot δ φ)) :
    modifyAt p f ∘ modifyAt p g = modifyAt p (f ∘ g) := by
  induction p with
  | nil => rfl
  | cons ij p ih =>
    funext slots
    simp only [Function.comp, modifyAt, List.modify_modify_eq, Slot.modify_modify]
    rw [← ih]

/-- Changing a message that has just been put. -/
theorem modifyAt_putAt (p : Path) (f : List (Slot δ φ) → List (Slot δ φ))
    (slots root : List (Slot δ φ)) :
    modifyAt p f (putAt p slots root) = putAt p (f slots) root :=
  congrFun (modifyAt_modifyAt p f fun _ => slots) root

/-- Putting a sub-message into a message that has just been put. -/
theorem putAt_snoc (p : Path) (i j : Nat) (sub slots root : List (Slot δ φ)) :
    putAt (p ++ [(i, j)]) sub (putAt p slots root) =
      putAt p (slots.modify i (Slot.modify j fun _ => sub)) root := by
  rw [putAt, modifyAt_append, modifyAt_putAt]
  rfl

theorem Slot.message_modify {j : Nat} {sub : List (Slot δ φ)}
    (f : List (Slot δ φ) → List (Slot δ φ)) (h : slot.message j = some sub) :
    (slot.modify j f).message j = some (f sub) := by
  cases slot with
  | one x =>
    cases x with
    | scalar s => cases h
    | message ss =>
      obtain rfl : ss = sub := Option.some.inj h
      rfl
  | many xs =>
    simp only [Slot.message, Slot.modify, List.getElem?_modify_eq] at h ⊢
    cases hx : xs[j]? with
    | none => simp [hx] at h
    | some x =>
      cases x with
      | scalar s => simp [hx] at h
      | message ss =>
        simp only [hx, Option.some.injEq] at h
        simp [Datum.modify, h]

variable {p : Path} {root slots : List (Slot δ φ)} {i : Nat} {name : Bytes}

/-- A pointer to a message still points to it after the message has been put there. -/
theorem messageAt_putAt (h : (messageAt p root).isSome = true) :
    messageAt p (putAt p slots root) = some slots := by
  induction p generalizing root with
  | nil => rfl
  | cons ij p ih =>
    obtain ⟨i, j⟩ := ij
    simp only [messageAt, Option.isSome_bind] at h
    obtain ⟨sub, hsub, hrest⟩ : ∃ sub, root[i]?.bind (Slot.message j) = some sub ∧
        (messageAt p sub).isSome = true := by
      cases hs : root[i]?.bind (Slot.message j) with
      | none => simp [hs] at h
      | some sub => exact ⟨sub, rfl, by simpa [hs] using h⟩
    obtain ⟨slot, hslot, hmsg⟩ := Option.bind_eq_some_iff.mp hsub
    have hnext := Slot.message_modify (modifyAt p fun _ => slots) hmsg
    simp only [messageAt, putAt, modifyAt, List.getElem?_modify_eq, hslot, Option.map_eq_map,
      Option.map_some, Option.bind_some, hnext]
    exact ih hrest

theorem messageAt_snoc (p : Path) (i j : Nat) (root : List (Slot δ φ)) :
    messageAt (p ++ [(i, j)]) root =
      (messageAt p root).bind fun slots => slots[i]?.bind (Slot.message j) := by
  induction p generalizing root with
  | nil =>
    simp only [List.nil_append, messageAt, Option.bind_some]
    cases root[i]?.bind (Slot.message j) <;> rfl
  | cons ab p ih =>
    obtain ⟨a, b⟩ := ab
    simp only [List.cons_append, messageAt, Option.bind_assoc]
    congr 1
    funext slot
    congr 1
    funext sub
    exact ih sub

theorem modify_eq_self {l : List α} {f : α → α} (h : ∀ a, l[i]? = some a → f a = a) :
    l.modify i f = l := by
  apply List.ext_getElem?
  intro k
  rw [List.getElem?_modify]
  by_cases hk : i = k
  · subst hk
    cases ha : l[i]? with
    | none => rfl
    | some a => simp [h a ha]
  · simp [hk]

theorem set_eq_self {l : List α} {a : α} (h : l[i]? = some a) : l.set i a = l := by
  obtain ⟨hi, rfl⟩ := List.getElem?_eq_some_iff.mp h
  exact List.set_getElem_self hi

theorem modify_set (l : List α) (i : Nat) (a : α) (f : α → α) :
    (l.set i a).modify i f = l.set i (f a) := by
  apply List.ext_getElem?
  intro k
  by_cases hk : i = k
  · subst hk
    simp [List.getElem?_set]
  · simp [hk]

theorem modify_append (l l' : List α) (a : α) (f : α → α) :
    (l ++ a :: l').modify l.length f = l ++ f a :: l' := by
  induction l with
  | nil => rfl
  | cons b l ih => simp [ih]

theorem Slot.modify_eq_self {j : Nat} {sub : List (Slot δ φ)}
    {f : List (Slot δ φ) → List (Slot δ φ)} (h : slot.message j = some sub) (hf : f sub = sub) :
    slot.modify j f = slot := by
  cases slot with
  | one x =>
    cases x with
    | scalar s => rfl
    | message ss =>
      obtain rfl : ss = sub := Option.some.inj h
      simp only [Slot.modify, Datum.modify, hf]
  | many xs =>
    refine congrArg Slot.many (Lua.modify_eq_self fun x hx => ?_)
    cases x with
    | scalar s => rfl
    | message ss =>
      simp only [Slot.message, hx, Option.some.injEq] at h
      rw [Datum.modify, h, hf]

/-- Putting the message that is there. -/
theorem putAt_self (h : messageAt p root = some slots) : putAt p slots root = root := by
  induction p generalizing root with
  | nil => exact (Option.some.inj h).symm
  | cons ij p ih =>
    obtain ⟨i, j⟩ := ij
    obtain ⟨sub, hsub, hrest⟩ := Option.bind_eq_some_iff.mp h
    obtain ⟨slot, hslot, hmsg⟩ := Option.bind_eq_some_iff.mp hsub
    refine modify_eq_self fun a ha => ?_
    obtain rfl : slot = a := Option.some.inj (hslot.symm.trans ha)
    exact Slot.modify_eq_self hmsg (ih hrest)

theorem fieldSize_putAt {xs : List (Datum δ φ)} (h : (messageAt p root).isSome = true)
    (hslot : slots[i]? = some (.many xs)) : fieldSize p i (putAt p slots root) = xs.length := by
  rw [fieldSize, messageAt_putAt h, Option.bind_some, hslot]

/-! ## A message with nested and repeated fields -/

theorem CppType.Ok.single {repeated : Bool} (hname : isIdentifier name = true) (htype : type.Ok) :
    (CppType.message [⟨name, repeated, type⟩]).Ok :=
  .message (by simp) (by simpa using hname) (by simpa using htype)

theorem Datum.Fits.one {E : Env δ φ} {x : Datum δ φ} (h : x.Fits E type) :
    (Datum.message [.one x]).Fits E (.message [⟨name, false, type⟩]) :=
  .message rfl (by simp [Slot.isMany]) (by simpa [Slot.data] using h)

theorem Datum.Fits.many {E : Env δ φ} {xs : List (Datum δ φ)} (h : ∀ x ∈ xs, x.Fits E type) :
    (Datum.message [.many xs]).Fits E (.message [⟨name, true, type⟩]) :=
  .message rfl (by simp [Slot.isMany]) (by simpa [Slot.data] using h)

/-- The fields of `Outer`, for `message Inner (e: an enumeration)` and
`message Outer (int32 a, string b, repeated int64 c, repeated Inner d)`. -/
def outerFields : List Field :=
  [⟨[0x61], false, .scalar .int32⟩, ⟨[0x62], false, .scalar .string⟩,
    ⟨[0x63], true, .scalar .int64⟩, ⟨[0x64], true, .message [⟨[0x65], false, .scalar .enum⟩]⟩]

def outerMessage : List (Slot Int Int) :=
  [.one (.scalar (.int32 (-5))), .one (.scalar (.string [0x68, 0x69])),
    .many [.scalar (.int64 (-9)), .scalar (.int64 9)],
    .many [.message [.one (.scalar (.enum 2))], .message [.one (.scalar (.enum 0))]]]

theorem outerFields_ok : (CppType.message outerFields).Ok := by
  refine .message (by decide) (by decide) ?_
  simp only [outerFields, List.forall_mem_cons, List.not_mem_nil, false_imp_iff, implies_true,
    and_true]
  exact ⟨.scalar _, .scalar _, .scalar _, .single rfl (.scalar _)⟩

theorem outerMessage_fits : (Datum.message outerMessage).Fits whole (.message outerFields) := by
  refine .message rfl (by decide) ?_
  simp only [outerFields, outerMessage, List.zip_cons_cons, List.zip_nil_left, Slot.data,
    List.forall_mem_cons, List.not_mem_nil, false_imp_iff, implies_true, and_true]
  exact ⟨.scalar rfl (by decide), .scalar rfl trivial,
    ⟨.scalar rfl (by decide), .scalar rfl (by decide)⟩,
    .one (.scalar rfl (by decide)), .one (.scalar rfl (by decide))⟩

end Avant.Lua
