import Avant.Lua.Filling

/-!
# Messages through Lua and back

A message is turned into a table by `protobuf2lua_nostack`, and the table fills an empty message of
the same type by `lua2protobuf_nostack`.

* `roundTrips_iff`: the message comes back as it was exactly if no repeated float field of it has an
  element, no string of it holds a NUL, no enumeration of it is negative, and the Lua stack has the
  slots for both traversals.

The four conditions come from the code: the loop over a repeated float does not advance its index;
`lua_tostring` gives a C string where the table holds the bytes with their length; an enumeration
is read into a `uint32` and written from a number that has to be an `int`; and no traversal asks for
stack slots with `lua_checkstack`, of which Lua guarantees `LUA_MINSTACK`.
-/

namespace Avant.Lua

open Avant.Lib

variable {δ φ : Type}

/-- A scalar that comes back from Lua as it was. -/
def Scalar.Plain : Scalar δ φ → Prop
  | .string s => 0 ∉ s
  | .enum v => 0 ≤ v
  | _ => True

instance (s : Scalar δ φ) : Decidable s.Plain :=
  match s with
  | .string s => inferInstanceAs (Decidable (0 ∉ s))
  | .enum v => inferInstanceAs (Decidable (0 ≤ v))
  | .int32 _ | .int64 _ | .uint32 _ | .uint64 _ | .double _ | .float _ | .bool _ => .isTrue trivial

theorem Scalar.plain_iff (s : Scalar δ φ) : s.Plain ↔ s.readable = true ∧ s.stored = s := by
  cases s with
  | string t => simp [Scalar.Plain, Scalar.readable, Scalar.stored, cstr_eq_self]
  | enum v => simp [Scalar.Plain, Scalar.readable, Scalar.stored]
  | _ => simp [Scalar.Plain, Scalar.readable, Scalar.stored]

/-- A message does not change exactly if none of its scalars does. -/
theorem mapSlots_eq_self {f : Scalar δ φ → Scalar δ φ} {slots : List (Slot δ φ)} :
    slots = mapSlots f slots ↔ ∀ s ∈ scalarsOf slots, f s = s := by
  have h := Datum.map_eq_self (f := f) (.message slots)
  rw [Datum.map, Datum.message.injEq] at h
  exact eq_comm.trans h

variable [DecidableEq δ]

/-- The message, converted to a table and back into an empty message, is the same; both conversions
return. -/
def RoundTrips (E : Env δ φ) (limit : Nat) (fields : List Field) (slots : List (Slot δ φ)) :
    Prop :=
  ∃ lua, ToLua.Returns E limit fields slots [] lua ∧
    ∃ lua', FromLua.Returns E limit fields lua (emptySlots E fields) lua' slots

section

variable {E : Env δ φ} {fields : List Field} {slots : List (Slot δ φ)} {limit : Nat}

omit [DecidableEq δ] in
theorem forall_plain_iff : (∀ s ∈ scalarsOf slots, s.Plain) ↔
    (∀ s ∈ scalarsOf slots, s.readable = true) ∧ slots = mapSlots Scalar.stored slots := by
  rw [mapSlots_eq_self, ← forall₂_and]
  exact forall₂_congr fun s _ => s.plain_iff

/-- What a message that comes back as it was has. -/
theorem RoundTrips.needs (hE : E.Lawful) (hok : (CppType.message fields).Ok)
    (hfit : (Datum.message slots).Fits E (.message fields)) (h : RoundTrips E limit fields slots) :
    Kind.float ∉ repeatedKindsOf slots ∧ (∀ s ∈ scalarsOf slots, s.Plain) ∧
      1 + toLuaSlotsOf slots ≤ limit ∧ 1 + (Datum.message slots).fromLuaSlots ≤ limit := by
  obtain ⟨lua, hp, lua', hl⟩ := h
  obtain ⟨⟨hfloat, hroom⟩, rfl⟩ := (ToLua.returns_iff hok hfit.ofType [] lua).mp hp
  obtain ⟨⟨hread, hroom'⟩, -, hsame⟩ := (FromLua.returns_iff hE hok hfit lua' slots).mp hl
  exact ⟨hfloat, forall_plain_iff.mpr ⟨hread, hsame⟩, hroom, hroom'⟩

/-- **The round trip**, for every message of every type without recursion, map and oneof fields and
without NaN. -/
theorem roundTrips_iff (hE : E.Lawful) (hok : (CppType.message fields).Ok)
    (hfit : (Datum.message slots).Fits E (.message fields)) :
    RoundTrips E limit fields slots ↔
      Kind.float ∉ repeatedKindsOf slots ∧ (∀ s ∈ scalarsOf slots, s.Plain) ∧
        1 + toLuaSlotsOf slots ≤ limit ∧ 1 + (Datum.message slots).fromLuaSlots ≤ limit := by
  refine ⟨RoundTrips.needs hE hok hfit, ?_⟩
  rintro ⟨hfloat, hplain, hroom, hroom'⟩
  obtain ⟨hread, hsame⟩ := forall_plain_iff.mp hplain
  refine ⟨_, (ToLua.returns_iff hok hfit.ofType [] _).mpr ⟨⟨hfloat, hroom⟩, rfl⟩,
    [.table (entriesOf E fields slots)], ?_⟩
  exact (FromLua.returns_iff hE hok hfit _ slots).mpr ⟨⟨hread, hroom'⟩, rfl, hsame⟩

end

/-! ## Messages that come back and messages that do not -/

theorem roundTrips_outer : RoundTrips whole 20 outerFields outerMessage := by
  refine (roundTrips_iff whole_lawful outerFields_ok outerMessage_fits).mpr ?_
  exact ⟨by decide, by decide, by decide, by decide⟩

/-- A message with one field does not come back: a repeated float that is not empty, at no number
of slots; a string with a NUL; a negative enumeration; and, with the slots Lua guarantees, a
repeated message field with eighteen elements. -/
theorem not_roundTrips :
    (∀ limit, ¬ RoundTrips whole limit [⟨[0x61], true, .scalar .float⟩]
      [.many [.scalar (.float 1)]]) ∧
    (∀ limit, ¬ RoundTrips whole limit [⟨[0x61], false, .scalar .string⟩]
      [.one (.scalar (.string [0x68, 0, 0x69]))]) ∧
    (∀ limit, ¬ RoundTrips whole limit [⟨[0x61], false, .scalar .enum⟩]
      [.one (.scalar (.enum (-1)))]) ∧
    ¬ RoundTrips whole 20 [⟨[0x61], true, .message []⟩] [.many (List.replicate 18 (.message []))] := by
  refine ⟨fun limit h => ?_, fun limit h => ?_, fun limit h => ?_, fun h => ?_⟩
  · have hfit : ∀ x ∈ [Datum.scalar (.float (1 : Int))], x.Fits whole (.scalar .float) :=
      List.forall_mem_singleton.mpr (.scalar rfl rfl)
    have hneeds := h.needs whole_lawful (.single rfl (.scalar _)) (.many hfit)
    exact hneeds.1 (by decide)
  · have hneeds := h.needs whole_lawful (.single rfl (.scalar _)) (.one (.scalar rfl (by decide)))
    exact absurd hneeds.2.1 (by decide)
  · have hneeds := h.needs whole_lawful (.single rfl (.scalar _)) (.one (.scalar rfl (by decide)))
    exact absurd hneeds.2.1 (by decide)
  · have hfit : ∀ x ∈ List.replicate 18 (Datum.message []), x.Fits whole (.message []) := by
      intro x hx
      rw [List.eq_of_mem_replicate hx]
      exact .message rfl (by simp) (by simp)
    have hneeds := h.needs whole_lawful (.single rfl (.message (by simp) (by simp) (by simp)))
      (.many hfit)
    exact absurd hneeds.2.2.2 (by decide)

end Avant.Lua
