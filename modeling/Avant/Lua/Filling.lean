import Mathlib.Data.List.Nodup
import Mathlib.Data.List.Perm.Basic
import Avant.Lua.AnyTable

/-!
# Filling a message from its table

What `lua2protobuf_nostack` does with the table that `protobuf2lua_nostack` makes of a message, and
an empty message of the same type. `Datum.fromLuaSlots` counts the slots of the Lua stack that the
traversal of a table uses above it: the elements of a repeated message field are all on the stack
before the first of them is visited.

* `fillable_toLua`: the table is fillable exactly if no enumeration is negative and the Lua stack
  has the slots.
* `fill_toLua`: it fills an empty message with the message, with every string up to its first NUL.
  The order in which `lua_next` visits the table does not matter.
* `returns_iff`: the same of the function.
-/

namespace Avant.Lua

open Avant.Lib

variable {δ φ : Type}

/-! ## What the traversal needs -/

mutual

/-- The slots of the Lua stack used above the value while it is visited. -/
def Datum.fromLuaSlots : Datum δ φ → Nat
  | .scalar _ => 0
  | .message slots => max 1 (fromLuaSlotsOf slots)

def fromLuaSlotsOf : List (Slot δ φ) → Nat
  | [] => 0
  | slot :: slots => max slot.fromLuaSlots (fromLuaSlotsOf slots)

/-- The key and the value, and what is above the value. -/
def Slot.fromLuaSlots : Slot δ φ → Nat
  | .one x => 2 + x.fromLuaSlots
  | .many xs => 2 + elementFromLuaSlots xs

/-- A scalar is popped before the next element is pushed, a message is not. -/
def elementFromLuaSlots : List (Datum δ φ) → Nat
  | [] => 0
  | .scalar _ :: xs => max 1 (elementFromLuaSlots xs)
  | .message slots :: xs => 1 + max (max 1 (fromLuaSlotsOf slots)) (elementFromLuaSlots xs)

end

variable {k : Nat} {E : Env δ φ} {xs : List (Datum δ φ)}

theorem fromLuaSlotsOf_le {slots : List (Slot δ φ)} :
    fromLuaSlotsOf slots ≤ k ↔ ∀ slot ∈ slots, slot.fromLuaSlots ≤ k := by
  induction slots with
  | nil => simp [fromLuaSlotsOf]
  | cons slot slots ih => simp [fromLuaSlotsOf, ih]

/-- One more message needs the slots below it. -/
theorem elementFromLuaSlots_snoc {fields : List Field} {x : Datum δ φ}
    (hfit : ∀ y ∈ xs ++ [x], y.Fits E (.message fields)) :
    elementFromLuaSlots (xs ++ [x]) =
      max (elementFromLuaSlots xs) (xs.length + 1 + x.fromLuaSlots) := by
  induction xs with
  | nil =>
    cases hfit x (by simp) with
    | message => simp [elementFromLuaSlots, Datum.fromLuaSlots]
  | cons y ys ih =>
    have hys := ih fun z hz => hfit z (List.mem_cons_of_mem y hz)
    cases hfit y (by simp) with
    | message =>
      simp only [List.cons_append, elementFromLuaSlots, hys, List.length_cons]
      omega

/-- The elements of an array of messages are above each other. -/
theorem elementFromLuaSlots_message {fields : List Field} {limit : Nat}
    (hfit : ∀ y ∈ xs, y.Fits E (.message fields)) :
    k + elementFromLuaSlots xs ≤ limit ↔
      k ≤ limit ∧ ∀ j x, xs[j]? = some x → k + 1 + j + x.fromLuaSlots ≤ limit := by
  induction xs using List.reverseRecOn with
  | nil => simp [elementFromLuaSlots]
  | append_singleton xs x ih =>
    have hxs := ih fun y hy => hfit y (List.mem_append_left _ hy)
    rw [elementFromLuaSlots_snoc hfit, forall_getElem?_concat, ← and_assoc, ← hxs]
    omega

/-- An array of scalars needs one slot. -/
theorem elementFromLuaSlots_scalar {kind : Kind} {limit : Nat}
    (hfit : ∀ y ∈ xs, y.Fits E (.scalar kind)) :
    k + elementFromLuaSlots xs ≤ limit ↔ k ≤ limit ∧ ∀ x ∈ xs, k + 1 ≤ limit := by
  induction xs with
  | nil => simp [elementFromLuaSlots]
  | cons y ys ih =>
    have hys := ih fun z hz => hfit z (List.mem_cons_of_mem y hz)
    cases hfit y (by simp) with
    | scalar =>
      simp only [elementFromLuaSlots, List.forall_mem_cons]
      constructor
      · intro h
        exact ⟨by omega, by omega, (hys.mp (by omega)).2⟩
      · rintro ⟨hk, hone, hrest⟩
        have := hys.mpr ⟨hk, hrest⟩
        omega

/-! ## Tables of messages -/

section Tables

variable {E : Env δ φ}

theorem rawlen_elementsOf (hE : E.Lawful) (type : CppType)
    (xs : List (Datum δ φ)) : E.rawlen (elementsOf E type 1 xs) = xs.length := by
  obtain ⟨hin, hout⟩ := hE.rawlen_border (elementsOf E type 1 xs)
  have hsucc := keys_elementsOf E type 1 xs (E.rawlen (elementsOf E type 1 xs) + 1)
  rw [Nat.cast_succ] at hsucc
  rw [keys_elementsOf] at hin
  rw [hsucc] at hout
  omega

variable {type : CppType} {x : Datum δ φ}

theorem rawget_elementsOf [DecidableEq δ] (hx : xs[k]? = some x) :
    rawget (.integer ((k : Int) + 1)) (elementsOf E type 1 xs) = x.toLua E type := by
  have hfrom : ∀ (i k : Nat) (xs : List (Datum δ φ)), xs[k]? = some x →
      rawget (.integer ((k + i : Nat) : Int)) (elementsOf E type i xs) = x.toLua E type := by
    intro i k xs hx
    induction xs generalizing i k with
    | nil => cases hx
    | cons y ys ih =>
      cases k with
      | zero =>
        obtain rfl : y = x := by simpa using hx
        simp [rawget, elementsOf]
      | succ k =>
        have hnext : k + 1 + i = k + (i + 1) := by omega
        have hrest := ih (i + 1) k (by simpa using hx)
        rw [elementsOf, rawget, List.find?_cons_of_neg (by simp; omega), hnext]
        exact hrest
  have hone := hfrom 1 k xs hx
  rwa [Nat.cast_succ] at hone

theorem elements_elementsOf [DecidableEq δ] (hE : E.Lawful) (type : CppType)
    (xs : List (Datum δ φ)) :
    elements E (elementsOf E type 1 xs) = xs.map (Datum.toLua E type) := by
  refine List.ext_getElem? fun k => ?_
  rw [elements, List.getElem?_map, List.getElem?_map, rawlen_elementsOf hE]
  cases hx : xs[k]? with
  | none =>
    rw [List.getElem?_eq_none (by simpa using hx)]
    rfl
  | some x =>
    have hlt := (List.getElem?_eq_some_iff.mp hx).1
    simp [hlt, rawget_elementsOf hx]

theorem nodup_elementsOf (type : CppType) (i : Nat) (xs : List (Datum δ φ)) :
    ((elementsOf E type i xs).map Prod.fst).Nodup := by
  induction xs generalizing i with
  | nil => exact List.nodup_nil
  | cons x xs ih =>
    refine List.nodup_cons.mpr ⟨?_, ih (i + 1)⟩
    rw [keys_elementsOf]
    omega

theorem values_elementsOf (type : CppType) (i : Nat) (xs : List (Datum δ φ)) :
    (elementsOf E type i xs).map Prod.snd = xs.map (Datum.toLua E type) := by
  induction xs generalizing i with
  | nil => rfl
  | cons x xs ih => rw [elementsOf, List.map_cons, List.map_cons, ih]

theorem isTable_scalar (s : Scalar δ φ) : (s.toLua E).isTable = false := by
  cases s <;> rfl

theorem keys_entriesOf {fields : List Field} {slots : List (Slot δ φ)}
    (hlen : fields.length = slots.length) :
    (entriesOf E fields slots).map Prod.fst = (fields.map FieldOf.name).map Key.string := by
  nth_rewrite 2 [← List.map_fst_zip (Nat.le_of_eq hlen)]
  rw [entriesOf_eq, List.map_map, List.map_map, List.map_map]
  rfl

theorem Slot.toLua_ok {slot : Slot δ φ} (h : ∀ x ∈ slot.data, (x.toLua E type).Ok) :
    (slot.toLua E type).Ok := by
  cases slot with
  | one x => exact h x (List.mem_singleton_self x)
  | many xs =>
    refine .table (nodup_elementsOf type 1 xs) (List.forall_mem_map.mp ?_)
    rw [values_elementsOf]
    exact List.forall_mem_map.mpr h

/-- The table of a message is one of Lua's. -/
theorem toLua_ok (hok : type.Ok) (hfit : x.Fits E type) : (x.toLua E type).Ok := by
  induction hfit with
  | scalar hkind hrange => exact .plain (isTable_scalar _)
  | @message fields slots hlen hrep hfits ih =>
    cases hok with
    | message hnames hident hsub =>
      refine .table ?_ ?_
      · rw [keys_entriesOf hlen]
        exact hnames.map fun a b h => Key.string.inj h
      · rw [entriesOf_eq, List.forall_mem_map]
        exact fun p hp => Slot.toLua_ok fun x hx => ih p hp x hx (hsub p.1 (List.of_mem_zip hp).1)

theorem depth_data {fields : List Field} {slots : List (Slot δ φ)} {p : Field × Slot δ φ}
    (hp : p ∈ fields.zip slots) (hx : x ∈ p.2.data) :
    (x.toLua E p.1.type).depth < (Val.table (entriesOf E fields slots)).depth := by
  have hentry : entryOf E p ∈ entriesOf E fields slots := by
    rw [entriesOf_eq]
    exact List.mem_map_of_mem hp
  refine Nat.lt_of_le_of_lt ?_ (depth_lt hentry)
  obtain ⟨field, slot⟩ := p
  cases slot with
  | one y =>
    obtain rfl := List.mem_singleton.mp hx
    exact Nat.le_refl _
  | many xs =>
    have hvalue : x.toLua E field.type ∈ (elementsOf E field.type 1 xs).map Prod.snd := by
      rw [values_elementsOf]
      exact List.mem_map_of_mem hx
    obtain ⟨e, he, heq⟩ := List.mem_map.mp hvalue
    rw [← heq]
    exact Nat.le_of_lt (depth_lt he)

end Tables

namespace FromLua

variable [DecidableEq δ] {E : Env δ φ} {limit : Nat}

variable {fields : List Field} {h n : Nat} {xs : List (Datum δ φ)} {slots : List (Slot δ φ)}

omit [DecidableEq δ] in
/-- The name of a field as a key finds the field. -/
theorem fieldOf_name (hE : E.Lawful) {i : Nat} {field : Field} (hfield : fields[i]? = some field)
    (hident : isIdentifier field.name = true) (hnames : (fields.map FieldOf.name).Nodup) :
    fieldOf E fields (.string field.name) = some (i, field) := by
  have hkey : thisLoopKey E (.string field.name) = some field.name := by
    simp [thisLoopKey, Key.val, tonumber, tostring, hE.identifier _ hident, cstr_identifier hident]
  have hidx : (fields.findIdx? fun f => f.name = field.name) = some i := by
    obtain ⟨hi, hf⟩ := List.getElem?_eq_some_iff.mp hfield
    refine List.findIdx?_eq_some_iff_getElem.mpr ⟨hi, by simp [hf], fun j hj heq => ?_⟩
    have hname : (fields.map FieldOf.name)[i]? = (fields.map FieldOf.name)[j]? := by
      have hj' : j < fields.length := by omega
      simpa [hi, hj', hf] using (of_decide_eq_true heq).symm
    have hij := (List.getElem?_inj (by simpa using hi) hnames).mp hname
    omega
  simp [fieldOf, hkey, findFieldByName, hidx, hfield]

omit [DecidableEq δ] in
theorem convertible_toLua (hE : E.Lawful) {s : Scalar δ φ} (hrange : s.InRange E) :
    Convertible E s.kind (s.toLua E) ↔ s.readable = true := by
  rw [convertible_iff, readScalar_toLua E hE hrange, ite_ok_iff]

omit [DecidableEq δ] in
theorem scalarOf_toLua (hE : E.Lawful) {s : Scalar δ φ} (hrange : s.InRange E)
    (hread : s.readable = true) : scalarOf E s.kind (s.toLua E) = some s.stored := by
  rw [scalarOf, readScalar_toLua E hE hrange, if_pos hread]
  rfl

/-! ## Whether the table is fillable -/

/-- The table of a message is fillable exactly if all its scalars can be read back and the stack has
the slots. -/
def Needs (E : Env δ φ) (limit : Nat) (type : CppType) (x : Datum δ φ) : Prop :=
  ∀ fields slots, type = .message fields → x = .message slots →
    ∀ n h, (x.toLua E type).depth ≤ n →
      (Fillable (trees E) E limit n fields h (entriesOf E fields slots) ↔
        (∀ s ∈ x.scalars, s.readable = true) ∧ h + x.fromLuaSlots ≤ limit)

theorem fieldFits_scalars (hE : E.Lawful) {F : List Field → Nat → Entries δ → Prop} {name : Bytes}
    {kind : Kind} (hfit : ∀ x ∈ xs, x.Fits E (.scalar kind)) :
    FieldFits (trees E) E limit F h ⟨name, true, .scalar kind⟩
        (.table (elementsOf E (.scalar kind) 1 xs)) ↔
      ∀ x ∈ xs, h + 3 ≤ limit ∧ ∀ s ∈ x.scalars, s.readable = true := by
  change (∀ x ∈ elements E _, h + 3 ≤ limit ∧ Convertible E kind x) ↔ _
  rw [elements_elementsOf hE, List.forall_mem_map]
  refine forall₂_congr fun x hx => and_congr_right fun _ => ?_
  cases hfit x hx with
  | @scalar _ s hkind hrange =>
    subst hkind
    simp only [Datum.toLua, convertible_toLua hE hrange, Datum.scalars, List.forall_mem_singleton]

omit [DecidableEq δ] in
theorem length_tablesOf (hfit : ∀ x ∈ xs, x.Fits E (.message fields)) :
    (tablesOf (xs.map (Datum.toLua E (.message fields)))).length = xs.length := by
  induction xs with
  | nil => rfl
  | cons x xs ih =>
    obtain ⟨hx, hxs⟩ := List.forall_mem_cons.mp hfit
    cases hx with
    | message => exact congrArg Nat.succ (ih hxs)

theorem fieldFits_messages (hE : E.Lawful) {name : Bytes}
    (hfit : ∀ x ∈ xs, x.Fits E (.message fields)) (ih : ∀ x ∈ xs, Needs E limit (.message fields) x)
    (hdepth : ∀ x ∈ xs, (x.toLua E (.message fields)).depth ≤ n) :
    FieldFits (trees E) E limit (Fillable (trees E) E limit n) h ⟨name, true, .message fields⟩
        (.table (elementsOf E (.message fields) 1 xs)) ↔
      ∀ k x, xs[k]? = some x → (∀ s ∈ x.scalars, s.readable = true) ∧
        h + 2 + 1 + k + x.fromLuaSlots ≤ limit := by
  have htable : ∀ x ∈ xs, ∃ slots, x = .message slots := by
    intro x hx
    cases hfit x hx with
    | message => exact ⟨_, rfl⟩
  have hfront : ∀ k x, xs[k]? = some x →
      (tablesOf ((xs.map (Datum.toLua E (.message fields))).take k)).length = k := by
    intro k x hx
    have hlt := (List.getElem?_eq_some_iff.mp hx).1
    rw [← List.map_take, length_tablesOf fun y hy => hfit y (List.mem_of_mem_take hy),
      List.length_take_of_le (Nat.le_of_lt hlt)]
  change (∀ v ∈ (elements E _).head?, v.isTable = true) ∧ (∀ y ∈ (elements E _).zipIdx,
    h + 3 + (tablesOf ((elements E _).take y.2)).length ≤ limit ∧ ∀ sub ∈ y.1.entries,
      Fillable (trees E) E limit n fields (h + 3 + (tablesOf ((elements E _).take y.2)).length)
        sub) ↔ _
  rw [elements_elementsOf hE]
  constructor
  · rintro ⟨-, hall⟩ k x hx
    have hmem := List.mem_of_getElem? hx
    have hy := hall (x.toLua E (.message fields), k)
      (List.mem_zipIdx_iff_getElem?.mpr (by simp [hx]))
    obtain ⟨slots, rfl⟩ := htable x hmem
    rw [hfront k _ hx] at hy
    exact (ih _ hmem fields slots rfl rfl n _ (hdepth _ hmem)).mp (hy.2 _ rfl)
  · intro hall
    refine ⟨?_, ?_⟩
    · intro v hv
      rw [List.head?_map] at hv
      obtain ⟨x, hx, rfl⟩ := Option.map_eq_some_iff.mp hv
      obtain ⟨slots, rfl⟩ := htable x (List.mem_of_mem_head? hx)
      rfl
    · rintro ⟨v, k⟩ hv
      rw [List.mem_zipIdx_iff_getElem?, List.getElem?_map] at hv
      obtain ⟨x, hx, rfl⟩ := Option.map_eq_some_iff.mp hv
      have hmem := List.mem_of_getElem? hx
      obtain ⟨slots, rfl⟩ := htable x hmem
      have hneed := hall k _ hx
      rw [hfront k _ hx]
      refine ⟨by omega, fun sub hsub => ?_⟩
      cases hsub
      exact (ih _ hmem fields slots rfl rfl n _ (hdepth _ hmem)).mpr hneed

/-- An entry needs what its slot needs. -/
theorem entryFits_iff (hE : E.Lawful) {i : Nat} {field : Field} {slot : Slot δ φ}
    (hfield : fieldOf E fields (.string field.name) = some (i, field))
    (hrep : field.repeated = slot.isMany) (hfit : ∀ x ∈ slot.data, x.Fits E field.type)
    (ih : ∀ x ∈ slot.data, Needs E limit field.type x)
    (hdepth : ∀ x ∈ slot.data, (x.toLua E field.type).depth ≤ n) :
    EntryFits (trees E) E limit (Fillable (trees E) E limit n) fields h
        (entryOf E (field, slot)) ↔
      (∀ s ∈ slot.scalars, s.readable = true) ∧ h + slot.fromLuaSlots ≤ limit := by
  simp only [EntryFits, entryOf, hfield, Option.mem_def, Option.some.injEq, forall_eq']
  obtain ⟨name, repeated, type⟩ := field
  cases slot with
  | one x =>
    obtain rfl : repeated = false := hrep
    have hmem : x ∈ (Slot.one x).data := List.mem_singleton_self x
    cases hfit x hmem with
    | @scalar kind s hkind hrange =>
      subst hkind
      change h + 2 ≤ limit ∧ Convertible E s.kind (s.toLua E) ↔ _
      rw [convertible_toLua hE hrange, and_comm]
      simp [Slot.scalars, Datum.scalars, Slot.fromLuaSlots, Datum.fromLuaSlots]
    | @message subfields slots hlen hrepeated hsub =>
      change h + 2 ≤ limit ∧
        Fillable (trees E) E limit n subfields (h + 2) (entriesOf E subfields slots) ↔ _
      rw [ih _ hmem subfields slots rfl rfl n (h + 2) (hdepth _ hmem), Slot.scalars,
        Slot.fromLuaSlots]
      constructor
      · rintro ⟨-, hread, hneed⟩
        exact ⟨hread, by omega⟩
      · rintro ⟨hread, hneed⟩
        exact ⟨by omega, hread, by omega⟩
  | many xs =>
    obtain rfl : repeated = true := hrep
    have hscalars : (∀ s ∈ (Slot.many xs).scalars, s.readable = true) ↔
        ∀ x ∈ xs, ∀ s ∈ x.scalars, s.readable = true := by
      rw [Slot.scalars, elementScalars_eq, List.forall_mem_flatMap]
    simp only [Slot.data] at hfit ih hdepth
    rw [hscalars, Slot.fromLuaSlots, ← Nat.add_assoc]
    cases type with
    | scalar kind =>
      rw [elementFromLuaSlots_scalar hfit]
      refine (and_congr_right fun _ => fieldFits_scalars hE hfit).trans ?_
      simp only [forall_and]
      tauto
    | message subfields =>
      rw [elementFromLuaSlots_message hfit]
      refine (and_congr_right fun _ => fieldFits_messages hE hfit ih hdepth).trans ?_
      simp only [imp_and, forall_and, List.mem_iff_getElem?, forall_exists_index]
      tauto

omit [DecidableEq δ] in
/-- What the fields of a message need, they need together. -/
theorem needs_slots (hlen : fields.length = slots.length) :
    (k + 1 ≤ limit ∧ ∀ p ∈ fields.zip slots,
        (∀ s ∈ p.2.scalars, s.readable = true) ∧ k + p.2.fromLuaSlots ≤ limit) ↔
      (∀ s ∈ (Datum.message slots).scalars, s.readable = true) ∧
        k + (Datum.message slots).fromLuaSlots ≤ limit := by
  have hmem : ∀ P : Slot δ φ → Prop, (∀ p ∈ fields.zip slots, P p.2) ↔ ∀ slot ∈ slots, P slot := by
    intro P
    nth_rewrite 2 [← List.map_snd_zip (Nat.le_of_eq hlen.symm)]
    rw [List.forall_mem_map]
  have hneed : k + (Datum.message slots).fromLuaSlots ≤ limit ↔
      k + 1 ≤ limit ∧ ∀ slot ∈ slots, k + slot.fromLuaSlots ≤ limit := by
    rw [Datum.fromLuaSlots]
    constructor
    · intro h
      refine ⟨by omega, fun slot hslot => ?_⟩
      have := fromLuaSlotsOf_le.mp (Nat.le_refl _) slot hslot
      omega
    · rintro ⟨hk, h⟩
      have hall : fromLuaSlotsOf slots ≤ limit - k := fromLuaSlotsOf_le.mpr fun slot hslot => by
        have := h slot hslot
        omega
      omega
  rw [hneed, Datum.scalars, scalarsOf_eq, List.forall_mem_flatMap, forall₂_and,
    hmem fun slot => ∀ s ∈ slot.scalars, s.readable = true,
    hmem fun slot => k + slot.fromLuaSlots ≤ limit]
  exact and_left_comm

omit [DecidableEq δ] in
theorem fieldOf_zip (hE : E.Lawful) {p : Field × Slot δ φ} (hp : p ∈ fields.zip slots)
    (hnames : (fields.map FieldOf.name).Nodup) (hident : ∀ f ∈ fields, isIdentifier f.name = true) :
    ∃ i, fieldOf E fields (.string p.1.name) = some (i, p.1) := by
  have hmem := (List.of_mem_zip hp).1
  obtain ⟨i, hi⟩ := List.getElem?_of_mem hmem
  exact ⟨i, fieldOf_name hE hi (hident p.1 hmem) hnames⟩

/-- **Whether the table of a message is fillable.** -/
theorem fillable_toLua (hE : E.Lawful) {type : CppType} {x : Datum δ φ} (hok : type.Ok)
    (hfit : x.Fits E type) : Needs E limit type x := by
  induction hfit with
  | scalar hkind hrange =>
    rintro fields slots h -
    cases h
  | @message fields slots hlen hrep hfits ih =>
    rintro _ _ ⟨⟩ ⟨⟩ n h hdepth
    cases hok with
    | message hnames hident hsub =>
      obtain ⟨n, rfl⟩ : ∃ m, n = m + 1 := by
        rw [Datum.toLua, Val.depth] at hdepth
        exact ⟨n - 1, by omega⟩
      rw [← needs_slots hlen, Fillable, entriesOf_eq, List.forall_mem_map]
      refine and_congr_right fun _ => forall₂_congr fun p hp => ?_
      obtain ⟨i, hfield⟩ := fieldOf_zip hE hp hnames hident
      refine entryFits_iff hE hfield (hrep p hp) (hfits p hp)
        (fun x hx => ih p hp x hx (hsub p.1 (List.of_mem_zip hp).1)) fun x hx => ?_
      have hlt : (x.toLua E p.1.type).depth < _ := depth_data hp hx
      exact Nat.le_of_lt_succ (Nat.lt_of_lt_of_le hlt hdepth)

/-! ## The message afterwards -/

/-- The table of a message fills an empty message with the message, where all scalars can be read
back. -/
def Stores (E : Env δ φ) (type : CppType) (x : Datum δ φ) : Prop :=
  ∀ fields slots, type = .message fields → x = .message slots →
    ∀ n p root, (x.toLua E type).depth ≤ n → messageAt p root = some (emptySlots E fields) →
      fill (trees E) E n fields p (entriesOf E fields slots) root =
        putAt p (mapSlots Scalar.stored slots) root

section Field

variable {visit : List Field → Path → Entries δ → List (Slot δ φ) → List (Slot δ φ)} {p : Path}
  {i : Nat} {cur root : List (Slot δ φ)} {name : Bytes}

theorem fillField_scalar (hE : E.Lawful) {s : Scalar δ φ} (hrange : s.InRange E)
    (hread : s.readable = true) :
    fillField (trees E) E visit p i ⟨name, false, .scalar s.kind⟩ (s.toLua E) (putAt p cur root) =
      putAt p (cur.set i ((Slot.one (.scalar s)).map Scalar.stored)) root := by
  have hset : setScalar p i s.stored (putAt p cur root) =
      putAt p (cur.set i ((Slot.one (.scalar s)).map Scalar.stored)) root :=
    modifyAt_putAt _ _ _ _
  simp only [fillField, trees, scalarOf_toLua hE hrange hread, hset]

omit [DecidableEq δ] in
theorem addDatum_putAt {done : List (Datum δ φ)} (x : Datum δ φ) :
    addDatum p i x (putAt p (cur.set i (.many done)) root) =
      putAt p (cur.set i (.many (done ++ [x]))) root := by
  rw [addDatum, modifyAt_putAt, modify_set]
  rfl

omit [DecidableEq δ] in
variable (p i cur root) in
theorem foldl_addDatum (hE : E.Lawful) {kind : Kind} (hfit : ∀ x ∈ xs, x.Fits E (.scalar kind))
    (hread : ∀ x ∈ xs, ∀ s ∈ x.scalars, s.readable = true) (done : List (Datum δ φ)) :
    ((xs.map (Datum.toLua E (.scalar kind))).filterMap (scalarOf E kind)).foldl
        (fun package s => addDatum p i (.scalar s) package)
        (putAt p (cur.set i (.many done)) root) =
      putAt p (cur.set i (.many (done ++ xs.map (Datum.map Scalar.stored)))) root := by
  induction xs generalizing done with
  | nil => simp
  | cons x xs ih =>
    obtain ⟨hx, hxs⟩ := List.forall_mem_cons.mp hfit
    obtain ⟨hreadx, hreadxs⟩ := List.forall_mem_cons.mp hread
    cases hx with
    | @scalar _ s hkind hrange =>
      subst hkind
      have hs : scalarOf E s.kind ((Datum.scalar s).toLua E (.scalar s.kind)) = some s.stored :=
        scalarOf_toLua hE hrange (hreadx s (by simp [Datum.scalars]))
      rw [List.map_cons, List.filterMap_cons_some hs, List.foldl_cons, addDatum_putAt,
        ih hxs hreadxs, List.map_cons, List.append_assoc]
      rfl

/-- The array of a repeated scalar field is added element by element. -/
theorem fillField_scalars (hE : E.Lawful) {kind : Kind} (hfit : ∀ x ∈ xs, x.Fits E (.scalar kind))
    (hread : ∀ x ∈ xs, ∀ s ∈ x.scalars, s.readable = true) (hcur : cur[i]? = some (.many [])) :
    fillField (trees E) E visit p i ⟨name, true, .scalar kind⟩
        ((Slot.many xs).toLua E (.scalar kind)) (putAt p cur root) =
      putAt p (cur.set i ((Slot.many xs).map Scalar.stored)) root := by
  have hfold := foldl_addDatum p i cur root hE hfit hread []
  rw [set_eq_self hcur, List.nil_append] at hfold
  simp only [fillField, trees, Slot.toLua, elements_elementsOf hE, hfold, Slot.map, mapElements_eq]

theorem fillField_message {subfields : List Field}
    (ih : Stores E (.message subfields) (.message slots))
    (hdepth : ((Datum.message slots).toLua E (.message subfields)).depth ≤ n)
    (hp : (messageAt p root).isSome = true)
    (hcur : cur[i]? = some (.one (CppType.empty E (.message subfields)))) :
    fillField (trees E) E (fill (trees E) E n) p i ⟨name, false, .message subfields⟩
        ((Datum.message slots).toLua E (.message subfields)) (putAt p cur root) =
      putAt p (cur.set i ((Slot.one (.message slots)).map Scalar.stored)) root := by
  have hempty : messageAt (p ++ [(i, 0)]) (putAt p cur root) = some (emptySlots E subfields) := by
    simp [messageAt_snoc, messageAt_putAt hp, hcur, Slot.message, CppType.empty]
  have hfill := ih subfields slots rfl rfl n _ _ hdepth hempty
  have hput : putAt (p ++ [(i, 0)]) (mapSlots Scalar.stored slots) (putAt p cur root) =
      putAt p (cur.set i ((Slot.one (.message slots)).map Scalar.stored)) root := by
    rw [putAt_snoc, ← set_eq_self hcur, modify_set, List.set_set]
    rfl
  exact hfill.trans hput

variable {fields : List Field} {xs : List (Datum δ φ)}

omit [DecidableEq δ] in
/-- Empty messages are added for the elements of a repeated message field. -/
theorem addTables_toLua (hfit : ∀ x ∈ xs, x.Fits E (.message fields))
    (hcur : cur[i]? = some (.many [])) :
    (addTables (trees E) p i (.message fields) (xs.map (Datum.toLua E (.message fields)))
        (putAt p cur root)).2 =
      putAt p (cur.set i (.many (xs.map fun _ => CppType.empty E (.message fields)))) root := by
  induction xs using List.reverseRecOn with
  | nil => rw [List.map_nil, List.map_nil, set_eq_self hcur]; rfl
  | append_singleton xs x ih =>
    cases hfit x (by simp) with
    | @message _ slots hlen hrep hsub =>
      rw [List.map_append, List.map_singleton, Datum.toLua, addTables_table,
        ih fun y hy => hfit y (List.mem_append_left _ hy), List.map_append]
      exact addDatum_putAt _

/-- They are filled from the last to the first. -/
theorem foldl_fill (hfit : ∀ x ∈ xs, x.Fits E (.message fields))
    (ih : ∀ x ∈ xs, Stores E (.message fields) x)
    (hdepth : ∀ x ∈ xs, (x.toLua E (.message fields)).depth ≤ n)
    (hp : (messageAt p root).isSome = true) (hcur : cur[i]? = some (.many []))
    (done : List (Datum δ φ)) :
    (addTables (trees E) p i (.message fields) (xs.map (Datum.toLua E (.message fields)))
        (putAt p cur root)).1.foldl
        (fun package q => fill (trees E) E n fields q.1 q.2 package)
        (putAt p (cur.set i (.many (xs.map (fun _ => CppType.empty E (.message fields)) ++ done)))
          root) =
      putAt p (cur.set i (.many (xs.map (Datum.map Scalar.stored) ++ done))) root := by
  have hi : i < cur.length := (List.getElem?_eq_some_iff.mp hcur).1
  induction xs using List.reverseRecOn generalizing done with
  | nil => rfl
  | append_singleton xs x ihxs =>
    have hfront : ∀ y ∈ xs, y ∈ xs ++ [x] := fun y hy => List.mem_append_left _ hy
    have hx : x ∈ xs ++ [x] := by simp
    have ihx := ih x hx
    have hdepthx := hdepth x hx
    cases hfit x hx with
    | @message _ slots hlen hrep hsub =>
      have hsize : (trees E).fieldSize p i (addTables (trees E) p i (.message fields)
          (xs.map (Datum.toLua E (.message fields))) (putAt p cur root)).2 = xs.length := by
        rw [addTables_toLua (fun y hy => hfit y (hfront y hy)) hcur]
        exact (fieldSize_putAt hp (List.getElem?_set_self hi)).trans (List.length_map _)
      have hempty : messageAt (p ++ [(i, xs.length)]) (putAt p (cur.set i (.many
          ((xs ++ [Datum.message slots]).map (fun _ => CppType.empty E (.message fields)) ++ done)))
          root) = some (emptySlots E fields) := by
        simp [messageAt_snoc, messageAt_putAt hp, hi, Slot.message, CppType.empty]
      have hput : putAt (p ++ [(i, xs.length)]) (mapSlots Scalar.stored slots)
          (putAt p (cur.set i (.many ((xs ++ [Datum.message slots]).map
            (fun _ => CppType.empty E (.message fields)) ++ done))) root) =
            putAt p (cur.set i (.many (xs.map (fun _ => CppType.empty E (.message fields)) ++
              (Datum.message slots).map Scalar.stored :: done))) root := by
        have hlen : xs.length = (xs.map fun _ => (CppType.empty E (.message fields))).length := by
          rw [List.length_map]
        rw [putAt_snoc, modify_set, List.map_append, List.append_assoc, List.map_singleton,
          List.singleton_append, Slot.modify, hlen, modify_append]
        rfl
      have hlast := (ihx fields slots rfl rfl n _ _ hdepthx hempty).trans hput
      rw [List.map_append (f := Datum.toLua E (.message fields)), List.map_singleton, Datum.toLua,
        addTables_table, List.foldl_cons, hsize, hlast,
        ihxs (fun y hy => hfit y (hfront y hy)) (fun y hy => ih y (hfront y hy))
          (fun y hy => hdepth y (hfront y hy)), List.map_append, List.append_assoc]
      rfl

theorem fillField_messages (hE : E.Lawful) (hfit : ∀ x ∈ xs, x.Fits E (.message fields))
    (ih : ∀ x ∈ xs, Stores E (.message fields) x)
    (hdepth : ∀ x ∈ xs, (x.toLua E (.message fields)).depth ≤ n)
    (hp : (messageAt p root).isSome = true) (hcur : cur[i]? = some (.many [])) :
    fillField (trees E) E (fill (trees E) E n) p i ⟨name, true, .message fields⟩
        ((Slot.many xs).toLua E (.message fields)) (putAt p cur root) =
      putAt p (cur.set i ((Slot.many xs).map Scalar.stored)) root := by
  have hfold := foldl_fill hfit ih hdepth hp hcur []
  rw [List.append_nil, List.append_nil, ← addTables_toLua hfit hcur] at hfold
  rw [Slot.map, mapElements_eq, ← hfold, Slot.toLua, ← elements_elementsOf hE]
  rfl

/-- An entry stores its slot. -/
theorem fillEntry_slot (hE : E.Lawful) {field : Field} {slot : Slot δ φ}
    (hfield : fieldOf E fields (.string field.name) = some (i, field))
    (hrep : field.repeated = slot.isMany) (hfit : ∀ x ∈ slot.data, x.Fits E field.type)
    (hread : ∀ s ∈ slot.scalars, s.readable = true)
    (ih : ∀ x ∈ slot.data, (∀ s ∈ x.scalars, s.readable = true) → Stores E field.type x)
    (hdepth : ∀ x ∈ slot.data, (x.toLua E field.type).depth ≤ n)
    (hp : (messageAt p root).isSome = true) (hcur : cur[i]? = some (emptySlot E field)) :
    fillEntry (trees E) E (fill (trees E) E n) fields p (putAt p cur root)
        (entryOf E (field, slot)) =
      putAt p (cur.set i (slot.map Scalar.stored)) root := by
  rw [Slot.scalars_eq, List.forall_mem_flatMap] at hread
  simp only [fillEntry, entryOf, hfield]
  obtain ⟨name, repeated, type⟩ := field
  cases slot with
  | one x =>
    obtain rfl : repeated = false := hrep
    have hmem : x ∈ (Slot.one x).data := List.mem_singleton_self x
    have hreadx := hread x hmem
    have ihx := ih x hmem hreadx
    cases hfit x hmem with
    | @scalar kind s hkind hrange =>
      subst hkind
      exact fillField_scalar hE hrange (hreadx s (by simp [Datum.scalars]))
    | @message subfields slots hlen hrepeated hsub =>
      exact fillField_message ihx (hdepth _ hmem) hp hcur
  | many xs =>
    obtain rfl : repeated = true := hrep
    cases type with
    | scalar kind => exact fillField_scalars hE hfit hread hcur
    | message subfields =>
      exact fillField_messages hE hfit (fun x hx => ih x hx (hread x hx)) hdepth hp hcur

end Field

/-- The entries that are still to come are stored. `target` is the message with all fields stored;
the other fields of `cur` are as they are there. -/
theorem foldl_fillEntry (hE : E.Lawful) {p : Path} {cur target root : List (Slot δ φ)}
    (qs : List ((Field × Slot δ φ) × Nat)) (hp : (messageAt p root).isSome = true)
    (hfield : ∀ q ∈ qs, fieldOf E fields (.string q.1.1.name) = some (q.2, q.1.1))
    (hrep : ∀ q ∈ qs, q.1.1.repeated = q.1.2.isMany)
    (hfit : ∀ q ∈ qs, ∀ x ∈ q.1.2.data, x.Fits E q.1.1.type)
    (hread : ∀ q ∈ qs, ∀ s ∈ q.1.2.scalars, s.readable = true)
    (ih : ∀ q ∈ qs, ∀ x ∈ q.1.2.data, (∀ s ∈ x.scalars, s.readable = true) → Stores E q.1.1.type x)
    (hdepth : ∀ q ∈ qs, ∀ x ∈ q.1.2.data, (x.toLua E q.1.1.type).depth ≤ n)
    (hnodup : (qs.map Prod.snd).Nodup) (hcur : ∀ q ∈ qs, cur[q.2]? = some (emptySlot E q.1.1))
    (htarget : ∀ q ∈ qs, target[q.2]? = some (q.1.2.map Scalar.stored))
    (hdone : ∀ k, k ∉ qs.map Prod.snd → cur[k]? = target[k]?) :
    (qs.map fun q => entryOf E q.1).foldl (fillEntry (trees E) E (fill (trees E) E n) fields p)
        (putAt p cur root) = putAt p target root := by
  induction qs generalizing cur with
  | nil =>
    obtain rfl : cur = target := List.ext_getElem? fun k => hdone k (by simp)
    rfl
  | cons q qs ihq =>
    obtain ⟨hfresh, hnodup'⟩ := List.nodup_cons.mp hnodup
    have hi : q.2 < cur.length := (List.getElem?_eq_some_iff.mp (hcur q List.mem_cons_self)).1
    have hrest : ∀ r ∈ qs, r ∈ q :: qs := fun r hr => List.mem_cons_of_mem q hr
    rw [List.map_cons, List.foldl_cons, fillEntry_slot hE (hfield q List.mem_cons_self)
      (hrep q List.mem_cons_self) (hfit q List.mem_cons_self) (hread q List.mem_cons_self)
      (ih q List.mem_cons_self) (hdepth q List.mem_cons_self) hp (hcur q List.mem_cons_self)]
    refine ihq (fun r hr => hfield r (hrest r hr)) (fun r hr => hrep r (hrest r hr))
      (fun r hr => hfit r (hrest r hr)) (fun r hr => hread r (hrest r hr))
      (fun r hr => ih r (hrest r hr)) (fun r hr => hdepth r (hrest r hr)) hnodup' ?_
      (fun r hr => htarget r (hrest r hr)) ?_
    · intro r hr
      have hne : q.2 ≠ r.2 := fun h => hfresh (h ▸ List.mem_map_of_mem hr)
      rw [List.getElem?_set_ne hne]
      exact hcur r (hrest r hr)
    · intro k hk
      by_cases hq : q.2 = k
      · subst hq
        rw [List.getElem?_set_self hi, htarget q List.mem_cons_self]
      · rw [List.getElem?_set_ne hq]
        exact hdone k (by simpa [Ne.symm hq] using hk)

omit [DecidableEq δ] in
/-- The entries of the table of a message, in the order of `lua_next`, with the indices of their
fields. -/
theorem exists_order (hE : E.Lawful) (ps : List (Field × Slot δ φ)) :
    ∃ qs : List ((Field × Slot δ φ) × Nat),
      E.order (ps.map (entryOf E)) = qs.map (fun q => entryOf E q.1) ∧ qs.Perm ps.zipIdx := by
  have hindexed : ps.map (entryOf E) = ps.zipIdx.map fun q => entryOf E q.1 := by
    nth_rewrite 1 [← List.zipIdx_map_fst 0 ps]
    rw [List.map_map]
    rfl
  have hperm := hE.order_perm (ps.map (entryOf E))
  nth_rewrite 2 [hindexed] at hperm
  exact (congrFun (congrFun (List.eq_map_comp_perm _) _) _).mpr hperm

/-- **The message the table of a message fills an empty one with.** -/
theorem fill_toLua (hE : E.Lawful) {type : CppType} {x : Datum δ φ} (hok : type.Ok)
    (hfit : x.Fits E type) (hread : ∀ s ∈ x.scalars, s.readable = true) : Stores E type x := by
  induction hfit with
  | scalar hkind hrange =>
    rintro fields slots h -
    cases h
  | @message fields slots hlen hrep hfits ih =>
    rintro _ _ ⟨⟩ ⟨⟩ n p root hdepth hempty
    cases hok with
    | message hnames hident hsub =>
      obtain ⟨n, rfl⟩ : ∃ m, n = m + 1 := by
        rw [Datum.toLua, Val.depth] at hdepth
        exact ⟨n - 1, by omega⟩
      obtain ⟨qs, horder, hqs⟩ := exists_order hE (fields.zip slots)
      have hmem : ∀ q ∈ qs, q.1 ∈ fields.zip slots ∧ fields[q.2]? = some q.1.1 ∧
          slots[q.2]? = some q.1.2 := by
        intro q hq
        have hq' := List.mem_zipIdx_iff_getElem?.mp (hqs.mem_iff.mp hq)
        exact ⟨List.mem_of_getElem? hq', List.getElem?_zip_eq_some.mp hq'⟩
      have hfields : ∀ q ∈ qs, q.1.1 ∈ fields := fun q hq =>
        List.mem_of_getElem? (hmem q hq).2.1
      have hindices : (qs.map Prod.snd).Perm (List.range fields.length) := by
        have := hqs.map Prod.snd
        rw [List.zipIdx_map_snd, List.length_zip, ← hlen, Nat.min_self] at this
        rwa [List.range_eq_range']
      have hscalars : ∀ q ∈ qs, ∀ s ∈ q.1.2.scalars, s.readable = true := by
        intro q hq s hs
        refine hread s ?_
        rw [Datum.scalars, scalarsOf_eq]
        exact List.mem_flatMap.mpr ⟨q.1.2, List.mem_of_getElem? (hmem q hq).2.2, hs⟩
      have hsome : (messageAt p root).isSome = true := by rw [hempty]; rfl
      rw [fill, entriesOf_eq, horder]
      nth_rewrite 1 [← putAt_self hempty]
      refine foldl_fillEntry hE qs hsome
        (fun q hq => fieldOf_name hE (hmem q hq).2.1 (hident _ (hfields q hq)) hnames)
        (fun q hq => hrep q.1 (hmem q hq).1) (fun q hq => hfits q.1 (hmem q hq).1) hscalars
        (fun q hq x hx => ih q.1 (hmem q hq).1 x hx (hsub q.1.1 (hfields q hq)))
        (fun q hq x hx => Nat.le_of_lt_succ
          (Nat.lt_of_lt_of_le (depth_data (hmem q hq).1 hx) hdepth))
        (hindices.nodup_iff.mpr List.nodup_range)
        (fun q hq => by rw [emptySlots_eq, List.getElem?_map, (hmem q hq).2.1]; rfl)
        (fun q hq => by rw [mapSlots_eq, List.getElem?_map, (hmem q hq).2.2]; rfl) fun k hk => ?_
      have hout : fields.length ≤ k := by simpa [hindices.mem_iff] using hk
      rw [emptySlots_eq, mapSlots_eq, List.getElem?_eq_none (by simpa using hout),
        List.getElem?_eq_none (by simpa [← hlen] using hout)]

/-! ## The function -/

/-- `lua2protobuf_nostack`, called with a Lua stack and a message, returns and leaves others. -/
def Returns (E : Env δ φ) (limit : Nat) (fields : List Field) (lua : List (Val δ))
    (package : List (Slot δ φ)) (lua' : List (Val δ)) (package' : List (Slot δ φ)) : Prop :=
  Finishes (trees E) E limit fields lua package lua' package'

/-- **`lua2protobuf_nostack`**, called with the table of a message alone on the stack and an empty
message, returns exactly if no enumeration is negative and the stack has the slots. It leaves the
stack as it was, and the message with every string up to its first NUL. -/
theorem returns_iff (hE : E.Lawful) (hok : (CppType.message fields).Ok)
    (hfit : (Datum.message slots).Fits E (.message fields)) (lua' : List (Val δ))
    (package' : List (Slot δ φ)) :
    Returns E limit fields [.table (entriesOf E fields slots)] (emptySlots E fields)
        lua' package' ↔
      ((∀ s ∈ scalarsOf slots, s.readable = true) ∧
        1 + (Datum.message slots).fromLuaSlots ≤ limit) ∧
      lua' = [.table (entriesOf E fields slots)] ∧ package' = mapSlots Scalar.stored slots := by
  have hdepth := Nat.le_refl ((Datum.message slots).toLua E (.message fields)).depth
  refine (finishes_iff hE (toLua_ok hok hfit) hdepth lua' package').trans ?_
  refine (and_congr_left' (fillable_toLua hE hok hfit fields slots rfl rfl _ 1 hdepth)).trans ?_
  refine and_congr_right fun hneed => ?_
  rw [fill_toLua hE hok hfit hneed.1 fields slots rfl rfl _ [] (emptySlots E fields) hdepth rfl]
  rfl

end FromLua

end Avant.Lua
