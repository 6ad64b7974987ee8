import Avant.Lua.ToLua

/-!
# From tables to messages

Model of `lua_plugin::lua2protobuf_nostack` (`src/app/lua_plugin.cpp`) for any table: a traversal
with a stack of frames of its own, one for each table that is being visited with `lua_next`. A step
is one turn of its loop. The frames of the elements of a repeated message field are pushed together,
so that the last element is visited first.

The traversal sees types and messages through `Reflection` only. Types may contain themselves there,
and messages may be kept in any way; `trees` are the types and messages of `Message.lean`.

The fields of one kind are handled alike, apart from how a value is read (`readScalar`). What is
left out is the logging, and the build against LuaJIT, which counts the elements of an array where
this one uses `lua_rawlen`.

* `convertible_iff`: the values for which a scalar field is set or left alone, without an exception
  and without an undefined conversion.
* `readScalar_toLua`: what `protobuf2lua_nostack` makes of a scalar is read back as the scalar, a
  string up to its first NUL; a negative enumeration is not.
-/

namespace Avant.Lua

open Avant.Lib

variable {δ φ : Type}

/-! ## Scalars -/

section Scalars

variable (E : Env δ φ)

/-- The value a scalar field is set to, `none` if the Lua value is of another type. -/
def readScalar (kind : Kind) (v : Val δ) : Except Exit (Option (Scalar δ φ)) :=
  match kind with
  | .int32 =>
    match tonumber E v with
    | some x => (toIntegral E (-2 ^ 31) (2 ^ 31 - 1) x).map fun i => some (.int32 i)
    | none => .ok none
  | .int64 =>
    match tostring E v with
    | some s => (orThrow "stoll" (stoll (cstr s))).map fun i => some (.int64 i)
    | none => .ok none
  | .uint32 =>
    match tonumber E v with
    | some x => (toIntegral E 0 (2 ^ 32 - 1) x).map fun i => some (.uint32 i.toNat)
    | none => .ok none
  | .uint64 =>
    match tostring E v with
    | some s => (orThrow "stoull" (stoull (cstr s))).map fun n => some (.uint64 n)
    | none => .ok none
  | .double => .ok ((tonumber E v).map .double)
  | .float => .ok ((tonumber E v).map fun x => .float (E.toFloat x))
  | .bool =>
    match v with
    | .boolean b => .ok (some (.bool b))
    | _ => .ok none
  | .string => .ok ((tostring E v).map fun s => .string (cstr s))
  | .enum =>
    match tonumber E v with
    | some x => (toIntegral E (-2 ^ 31) (2 ^ 31 - 1) x).map fun i => some (.enum i)
    | none => .ok none

/-- The scalar a value is read as; a value of another type is none. -/
def scalarOf (kind : Kind) (v : Val δ) : Option (Scalar δ φ) := (readScalar E kind v).toOption.join

/-- A number for a field of 32 bits is in its range, and a string or number for a field of 64 bits
starts with an integer in its range. A value of another type is skipped. -/
def Convertible (kind : Kind) (v : Val δ) : Prop :=
  match kind with
  | .int32 | .enum => ∀ x ∈ tonumber E v, ∃ i ∈ E.truncate x, -2 ^ 31 ≤ i ∧ i ≤ 2 ^ 31 - 1
  | .uint32 => ∀ x ∈ tonumber E v, ∃ i ∈ E.truncate x, 0 ≤ i ∧ i ≤ 2 ^ 32 - 1
  | .int64 => ∀ s ∈ tostring E v, ∃ r ∈ scanInteger (cstr s),
      -2 ^ 63 ≤ (if r.1 then -r.2 else r.2 : Int) ∧ (if r.1 then -r.2 else r.2 : Int) < 2 ^ 63
  | .uint64 => ∀ s ∈ tostring E v, ∃ r ∈ scanInteger (cstr s), r.2 < 2 ^ 64
  | .double | .float | .bool | .string => True

instance (kind : Kind) (v : Val δ) : Decidable (Convertible E kind v) := by
  unfold Convertible
  split <;> infer_instance

section Convertible

variable {E} {kind : Kind} {v : Val δ}

theorem ite_ok_iff {α : Type} {c : Prop} [Decidable c] {a : α} {e : Exit} :
    (∃ b, (if c then .ok a else .error e : Except Exit α) = .ok b) ↔ c := by
  split <;> simp [*]

theorem map_ok_iff {α β : Type} {m : Except Exit α} {f : α → β} :
    (∃ b, m.map f = .ok b) ↔ ∃ a, m = .ok a := by
  cases m <;> simp [Except.map]

theorem toIntegral_iff {lo hi : Int} {x : δ} :
    (∃ i, toIntegral E lo hi x = .ok i) ↔ ∃ i ∈ E.truncate x, lo ≤ i ∧ i ≤ hi := by
  rw [toIntegral]
  cases E.truncate x with
  | none => simp
  | some i => simp only [ite_ok_iff, Option.mem_def, Option.some.injEq, exists_eq_left']

theorem orThrow_iff {α : Type} {what : String} {o : Option α} :
    (∃ a, orThrow what o = .ok a) ↔ o.isSome = true := by
  cases o <;> simp [orThrow]

theorem stoll_iff {s : Bytes} : (stoll s).isSome = true ↔ ∃ r ∈ scanInteger s,
    -2 ^ 63 ≤ (if r.1 then -r.2 else r.2 : Int) ∧ (if r.1 then -r.2 else r.2 : Int) < 2 ^ 63 := by
  rw [stoll]
  cases scanInteger s <;> simp

theorem stoull_iff {s : Bytes} : (stoull s).isSome = true ↔ ∃ r ∈ scanInteger s, r.2 < 2 ^ 64 := by
  rw [stoull]
  cases scanInteger s <;> simp

theorem convertible_iff : Convertible E kind v ↔ ∃ r, readScalar E kind v = .ok r := by
  cases kind with
  | int32 | uint32 | enum =>
    simp only [Convertible, readScalar]
    cases tonumber E v with
    | none => simp
    | some x =>
      simp only [Option.mem_def, Option.some.injEq, forall_eq', map_ok_iff, toIntegral_iff]
  | int64 =>
    simp only [Convertible, readScalar]
    cases tostring E v with
    | none => simp
    | some s =>
      simp only [Option.mem_def, Option.some.injEq, forall_eq', map_ok_iff, orThrow_iff, stoll_iff]
  | uint64 =>
    simp only [Convertible, readScalar]
    cases tostring E v with
    | none => simp
    | some s =>
      simp only [Option.mem_def, Option.some.injEq, forall_eq', map_ok_iff, orThrow_iff, stoull_iff]
  | double | float | string => simp [Convertible, readScalar]
  | bool => cases v <;> simp [Convertible, readScalar]

theorem map_ne_returned {α β : Type} {m : Except Exit α} {f : α → β} (h : m ≠ .error .returned) :
    m.map f ≠ .error .returned := by
  cases m with
  | ok a => simp [Except.map]
  | error e => simpa [Except.map] using h

/-- Reading a scalar fails with an exception or a conversion. -/
theorem readScalar_ne_returned : readScalar E kind v ≠ .error .returned := by
  have hite : ∀ {α : Type} {c : Prop} [Decidable c] {a : α} {e : Exit}, e ≠ .returned →
      (if c then .ok a else .error e : Except Exit α) ≠ .error .returned := by
    intro α c _ a e he
    split <;> simp [he]
  have hintegral : ∀ lo hi x, toIntegral E lo hi x ≠ .error .returned := by
    intro lo hi x
    rw [toIntegral]
    cases E.truncate x with
    | none => simp
    | some i => exact hite (by decide)
  have hthrow : ∀ {α : Type} (what : String) (o : Option α), orThrow what o ≠ .error .returned := by
    intro α what o
    cases o <;> simp [orThrow]
  cases kind with
  | int32 | uint32 | enum =>
    rw [readScalar]
    split
    · exact map_ne_returned (hintegral _ _ _)
    · simp
  | int64 =>
    rw [readScalar]
    split
    · exact map_ne_returned (hthrow _ _)
    · simp
  | uint64 =>
    rw [readScalar]
    split
    · exact map_ne_returned (hthrow _ _)
    · simp
  | double | float | string => simp [readScalar]
  | bool => cases v <;> simp [readScalar]

/-- **Reading a scalar**: the value is read, or skipped, exactly if it is convertible. -/
theorem gives_readScalar :
    Gives .returned (readScalar E kind v) (scalarOf E kind v) (Convertible E kind v) where
  ok h := by
    obtain ⟨r, hr⟩ := convertible_iff.mp h
    rw [scalarOf, hr]
    rfl
  fails h := by
    cases hr : readScalar E kind v with
    | ok r => exact absurd (convertible_iff.mpr ⟨r, hr⟩) h
    | error e =>
      refine ⟨e, rfl, ?_⟩
      rintro rfl
      exact readScalar_ne_returned hr

end Convertible

/-- What is left of a scalar: a string ends at its first NUL. -/
def Scalar.stored : Scalar δ φ → Scalar δ φ
  | .string s => .string (cstr s)
  | s => s

/-- A scalar that can be read back. -/
def Scalar.readable : Scalar δ φ → Bool
  | .enum v => 0 ≤ v
  | _ => true

theorem not_mem_intText (i : Int) : (0 : UInt8) ∉ Decimal.intText i := by
  have hdigits : (0 : UInt8) ∉ Decimal.decimal i.natAbs := fun h =>
    absurd (Decimal.isDigit_of_mem_decimal 0 h) (by decide)
  rw [Decimal.intText]
  split
  · simpa using hdigits
  · exact hdigits

/-- `strtoll` and `strtoull` read the text of an integer back. -/
theorem scanInteger_intText (i : Int) :
    scanInteger (Decimal.intText i) = some (decide (i < 0), i.natAbs) := by
  obtain ⟨d, ds, hds⟩ := List.exists_cons_of_ne_nil (Decimal.decimal_ne_nil i.natAbs)
  have hall : ∀ b ∈ d :: ds, Decimal.isDigit b = true := hds ▸ Decimal.isDigit_of_mem_decimal
  have hvalue : Decimal.digitsValue (d :: ds) = i.natAbs := by
    rw [← hds, Decimal.digitsValue_decimal]
  rw [Decimal.intText, hds]
  split
  · next hneg =>
    rw [scanInteger_sign (List.cons_ne_nil d ds) hall (.inl rfl), hvalue, decide_eq_true hneg]
    rfl
  · next hneg =>
    rw [scanInteger_digits (List.cons_ne_nil d ds) hall, hvalue, decide_eq_false hneg]

theorem stoll_intText {i : Int} (hlo : -2 ^ 63 ≤ i) (hhi : i < 2 ^ 63) :
    stoll (Decimal.intText i) = some i := by
  have hvalue : (if decide (i < 0) = true then -(i.natAbs : Int) else i.natAbs) = i := by
    by_cases hneg : i < 0
    · rw [if_pos (decide_eq_true hneg)]
      omega
    · rw [if_neg (by simpa using hneg)]
      omega
  simp only [stoll, scanInteger_intText, Option.bind_some, hvalue]
  exact if_pos ⟨hlo, hhi⟩

theorem stoull_intText {n : Nat} (h : n < 2 ^ 64) : stoull (Decimal.intText n) = some n := by
  have hneg : ¬ ((n : Int) < 0) := by omega
  simpa [stoull, scanInteger_intText, hneg] using h

/-- **Scalars**: every scalar is read back as it was, up to the NULs of strings, except for a
negative enumeration, which was turned into a number that is no `int`. -/
theorem readScalar_toLua (hE : E.Lawful) {s : Scalar δ φ} (hrange : s.InRange E) :
    readScalar E s.kind (s.toLua E) =
      if s.readable = true then .ok (some s.stored) else .error .conversion := by
  cases s with
  | int32 v =>
    have hv : -2 ^ 31 ≤ v ∧ v ≤ 2 ^ 31 - 1 := by
      simp only [Scalar.InRange] at hrange
      omega
    have htrunc := hE.truncate_ofInteger v (by omega) (by omega)
    simp only [readScalar, Scalar.kind, Scalar.toLua, tonumber, toIntegral, htrunc, if_pos hv]
    rfl
  | int64 v =>
    have hcstr := cstr_eq_self.mpr (not_mem_intText v)
    simp only [readScalar, Scalar.kind, Scalar.toLua, tostring, hcstr,
      stoll_intText hrange.1 hrange.2]
    rfl
  | uint32 v =>
    have hv : (0 : Int) ≤ v ∧ (v : Int) ≤ 2 ^ 32 - 1 := by
      simp only [Scalar.InRange] at hrange
      omega
    have htrunc := hE.truncate_ofInteger v (by omega) (by omega)
    simp only [readScalar, Scalar.kind, Scalar.toLua, tonumber, toIntegral, htrunc, if_pos hv]
    rfl
  | uint64 v =>
    have hcstr := cstr_eq_self.mpr (not_mem_intText v)
    simp only [readScalar, Scalar.kind, Scalar.toLua, tostring, hcstr, stoull_intText hrange]
    rfl
  | double x => rfl
  | float x =>
    simp only [readScalar, Scalar.kind, Scalar.toLua, tonumber, Option.map_some,
      hE.toFloat_ofFloat x hrange]
    rfl
  | bool b => rfl
  | string t => rfl
  | enum v =>
    have hv : -2 ^ 31 ≤ v ∧ v < 2 ^ 31 := hrange
    have htrunc := hE.truncate_ofInteger (v % 2 ^ 32) (by omega) (by omega)
    simp only [readScalar, Scalar.kind, Scalar.toLua, tonumber, toIntegral, htrunc,
      Scalar.readable, decide_eq_true_eq]
    by_cases hneg : 0 ≤ v
    · have hmod : v % 2 ^ 32 = v := by omega
      rw [hmod, if_pos (by omega), if_pos hneg]
      rfl
    · rw [if_neg (by omega), if_neg hneg]
      rfl

end Scalars

/-! ## Types and messages -/

/-- What the traversal uses of `google::protobuf::Reflection` and of the descriptors, for types
named by `τ` and messages kept in a `σ`. A field is given by the pointer to its message and its
index there. -/
structure Reflection (δ φ τ σ : Type) where
  /-- `cpp_type` of a field: a kind of scalars, or the fields of a message -/
  cppType : τ → Kind ⊕ List (FieldOf τ)
  /-- `Set…` -/
  setScalar : Path → Nat → Scalar δ φ → σ → σ
  /-- `Add…` -/
  addScalar : Path → Nat → Scalar δ φ → σ → σ
  /-- `AddMessage` -/
  addMessage : Path → Nat → τ → σ → σ
  /-- `MutableMessage` -/
  mutableMessage : Path → Nat → τ → σ → σ
  /-- `FieldSize` -/
  fieldSize : Path → Nat → σ → Nat

/-- Types that are trees, and messages in which every sub-message is there. -/
def trees (E : Env δ φ) : Reflection δ φ CppType (List (Slot δ φ)) where
  cppType
    | .scalar kind => .inl kind
    | .message fields => .inr fields
  setScalar := setScalar
  addScalar p i s := addDatum p i (.scalar s)
  addMessage p i type := addDatum p i (type.empty E)
  mutableMessage _ _ _ package := package
  fieldSize := fieldSize

/-! ## The traversal -/

namespace FromLua

variable {τ σ : Type}

/-- `StackFrame`, with the descriptor of the message it points to. -/
structure Frame (τ : Type) where
  packagePtr : Path
  fields : List (FieldOf τ)
  frameInLuastack : Nat
  currKeyIsNil : Bool
  luapopNumOnDestory : Int

/-- The Lua stack, the stack of frames, and the message that is filled. -/
structure State (δ τ σ : Type) where
  lua : List (Val δ)
  cpp : List (Frame τ)
  package : σ

/-- `curr_key_is_nil = false` -/
def Frame.begun (frame : Frame τ) : Frame τ :=
  ⟨frame.packagePtr, frame.fields, frame.frameInLuastack, false, frame.luapopNumOnDestory⟩

/-- What a frame takes off the Lua stack in the end; the outermost one leaves its table. -/
def popFrame (packagePtr : Path) (luapopNumOnDestory : Int) (lua : List (Val δ)) : List (Val δ) :=
  if packagePtr = [] then lua
  else if luapopNumOnDestory = 1 then lua.drop 1
  else if luapopNumOnDestory = 2 then lua.drop 2
  else lua

/-- `Descriptor::FindFieldByName`, with the index of the field. -/
def findFieldByName (fields : List (FieldOf τ)) (name : Bytes) : Option (Nat × FieldOf τ) :=
  (fields.findIdx? fun f => f.name = name).bind fun i => fields[i]?.map fun f => (i, f)

variable (R : Reflection δ φ τ σ) (E : Env δ φ) (limit : Nat)

/-- `this_loop_key`: a number first, as `lua_isstring` holds of numbers too. -/
def thisLoopKey (key : Key δ) : Option Bytes :=
  if (tonumber E key.val).isSome then
    some (Decimal.intText ((tointeger E key.val).getD 0))
  else (tostring E key.val).map cstr

variable [DecidableEq δ]

/-- A turn of the loop over an array of scalars. The element is on the stack while it is read. -/
def addScalar (kind : Kind) (p : Path) (i : Nat) (es : Entries δ) (lua : List (Val δ))
    (package : σ) (k : Nat) : Except Exit σ := do
  let item := rawget (.integer (k + 1)) es
  let _ ← push limit item lua
  match ← readScalar E kind item with
  | some s => .ok (R.addScalar p i s package)
  | none => .ok package

/-- A turn of the loop over an array of messages. An element that is no table is popped again; the
frame of the first one pops the array as well. -/
def addMessage (p : Path) (i : Nat) (type : τ) (fields : List (FieldOf τ)) (es : Entries δ)
    (s : State δ τ σ) (k : Nat) : Except Exit (State δ τ σ) := do
  let item := rawget (.integer (k + 1)) es
  let lua ← push limit item s.lua
  match item with
  | .table _ =>
    let frame : Frame τ :=
      ⟨p ++ [(i, R.fieldSize p i s.package)], fields, lua.length, true, if k = 0 then 2 else 1⟩
    .ok ⟨lua, frame :: s.cpp, R.addMessage p i type s.package⟩
  | _ => .ok s

/-- An entry of the frame's table for a field. The value is on top of the key and `lua`. -/
def fieldStep (frame : Frame τ) (rest : List (Frame τ)) (i : Nat) (field : FieldOf τ) (key : Key δ)
    (value : Val δ) (lua : List (Val δ)) (package : σ) : Except Exit (State δ τ σ) :=
  match R.cppType field.type, field.repeated, value with
  | .inl kind, true, .table es => do
    let package ← (List.range (E.rawlen es)).foldlM
      (addScalar R E limit kind frame.packagePtr i es (value :: key.val :: lua)) package
    .ok ⟨key.val :: lua, frame :: rest, package⟩
  | .inl _, true, _ => .ok ⟨key.val :: lua, frame :: rest, package⟩
  | .inl kind, false, _ => do
    match ← readScalar E kind value with
    | some s => .ok ⟨key.val :: lua, frame :: rest, R.setScalar frame.packagePtr i s package⟩
    | none => .ok ⟨key.val :: lua, frame :: rest, package⟩
  | .inr fields, true, .table es =>
    if E.rawlen es = 0 then .ok ⟨key.val :: lua, frame :: rest, package⟩
    else (List.range (E.rawlen es)).foldlM
      (addMessage R limit frame.packagePtr i field.type fields es)
      ⟨value :: key.val :: lua, frame :: rest, package⟩
  | .inr fields, false, .table _ =>
    .ok ⟨value :: key.val :: lua, ⟨frame.packagePtr ++ [(i, 0)], fields, lua.length + 2, true, 1⟩ ::
      frame :: rest, R.mutableMessage frame.packagePtr i field.type package⟩
  | .inr _, _, _ => .ok ⟨key.val :: lua, frame :: rest, package⟩

/-- The field an entry of the frame's table is for. -/
def fieldOf (fields : List (FieldOf τ)) (key : Key δ) : Option (Nat × FieldOf τ) :=
  (thisLoopKey E key).bind (findFieldByName fields)

/-- An entry of the frame's table. -/
def entryStep (frame : Frame τ) (rest : List (Frame τ)) (key : Key δ) (value : Val δ)
    (lua : List (Val δ)) (package : σ) : Except Exit (State δ τ σ) :=
  match fieldOf E frame.fields key with
  | some (i, field) => fieldStep R E limit frame rest i field key value lua package
  | none => .ok ⟨key.val :: lua, frame :: rest, package⟩

/-- A turn of the loop, which ends when there is no frame left. -/
def step (s : State δ τ σ) : Except Exit (State δ τ σ) :=
  match s.cpp with
  | [] => .error .returned
  | frame :: rest => do
    let lua ← if frame.currKeyIsNil then push limit .nil s.lua else .ok s.lua
    match lua, stackAt lua frame.frameInLuastack with
    | key :: lua, some (.table es) => do
      match ← next E es key with
      | some (key, value) => do
        let _ ← push limit value (key.val :: lua)
        entryStep R E limit frame.begun rest key value lua s.package
      | none =>
        .ok ⟨popFrame frame.packagePtr frame.luapopNumOnDestory lua, rest, s.package⟩
    | _, _ => .error .misuse

/-- The state in front of the loop; the function does nothing for a value that is no table. -/
def start (fields : List (FieldOf τ)) (lua : List (Val δ)) (package : σ) : State δ τ σ :=
  match lua with
  | .table _ :: _ => ⟨lua, [⟨[], fields, 1, true, 0⟩], package⟩
  | _ => ⟨lua, [], package⟩

end FromLua

end Avant.Lua
