import Mathlib.Data.List.Nodup
import Mathlib.Data.List.Perm.Subperm
import Avant.Lib.CString
import Avant.Lib.Program

/-!
# The Lua API

The part of Lua's C API that `src/app/lua_plugin.cpp` uses to convert messages: values, tables and
the stack of a C function, and the conversions of `<string>` and of C++ that it applies to them. The
build is the default one, with the Lua of `external/lua` (`AVANT_NO_JIT_VERSION`).

The stack is a list with its top in front. Lua gives a C function a number of slots (at least
`LUA_MINSTACK`), and a function that needs more has to ask for them with `lua_checkstack`, which
`lua_plugin.cpp` never does: a push beyond the `limit` is undefined (`Exit.stackOverflow`). A table
is the list of its entries. Nothing the plugin does depends on the identity of a table: the tables
it builds are on the stack until they are complete, and the tables it reads do not change.

What the library decides is a parameter (`Env`): the order in which `lua_next` visits a table, the
border `lua_rawlen` finds, which strings are numerals, and the arithmetic of doubles and floats.
`Env.Lawful` states what is used of it.
-/

namespace Avant.Lua

open Avant.Lib

/-- How a function ends. -/
inductive Exit
  | returned
  /-- a push beyond the slots of the stack: undefined -/
  | stackOverflow
  /-- a double converted to an integer type that cannot hold it: undefined -/
  | conversion
  /-- an exception of `std::stoll` or `std::stoull`, with its `what()` -/
  | threw (what : String)
  /-- an error raised by Lua -/
  | luaError
  /-- a function called with a value it is not defined for -/
  | misuse
  /-- `ASSERT_LOG_EXIT` -/
  | assertion
  deriving DecidableEq

/-! ## Values -/

/-- A key of a table; a table, function, userdata or thread by its identity. -/
inductive Key (δ : Type)
  | integer (i : Int)
  | number (x : δ)
  | string (s : Bytes)
  | boolean (b : Bool)
  | other (id : Nat)
  deriving DecidableEq

/-- A Lua value; `other` stands for a function, userdata or thread. -/
inductive Val (δ : Type)
  | nil
  | boolean (b : Bool)
  | integer (i : Int)
  | number (x : δ)
  | string (s : Bytes)
  | table (entries : List (Key δ × Val δ))
  | other (id : Nat)

variable {δ φ : Type}

/-- The entries of a table. -/
abbrev Entries (δ : Type) := List (Key δ × Val δ)

def Key.val : Key δ → Val δ
  | .integer i => .integer i
  | .number x => .number x
  | .string s => .string s
  | .boolean b => .boolean b
  | .other id => .other id

/-- The value as a key, `none` for `nil` and for a table whose identity is not kept. -/
def Val.toKey : Val δ → Option (Key δ)
  | .integer i => some (.integer i)
  | .number x => some (.number x)
  | .string s => some (.string s)
  | .boolean b => some (.boolean b)
  | .other id => some (.other id)
  | .nil | .table _ => none

theorem Key.toKey_val (k : Key δ) : k.val.toKey = some k := by
  cases k <;> rfl

/-! ## The library -/

/-- What Lua, the C library and the processor decide. -/
structure Env (δ φ : Type) where
  /-- the entries in the order of `lua_next` -/
  order : Entries δ → Entries δ
  /-- `lua_rawlen` of a table -/
  rawlen : Entries δ → Nat
  /-- `luaO_str2num`: the integer or double a string is a numeral of -/
  str2number : Bytes → Option (Int ⊕ δ)
  /-- the text of a double, as `lua_tolstring` makes it -/
  numberText : δ → Bytes
  /-- `lua_Number` to `lua_Integer`, for a whole number in range -/
  numberToInteger : δ → Option Int
  /-- an integer as a double -/
  ofInteger : Int → δ
  /-- a double without its fraction, `none` for an infinity or NaN -/
  truncate : δ → Option Int
  /-- `static_cast<float>` -/
  toFloat : δ → φ
  /-- `static_cast<double>` -/
  ofFloat : φ → δ
  /-- `std::isnan` on doubles -/
  isNaN : δ → Bool
  /-- `std::isnan` on floats -/
  isNaNFloat : φ → Bool

/-- A letter or underscore first, then letters, digits and underscores. -/
def isIdentifier (s : Bytes) : Bool :=
  let letter (c : UInt8) : Bool := (0x41 ≤ c && c ≤ 0x5A) || (0x61 ≤ c && c ≤ 0x7A) || c = 0x5F
  s.head?.any letter && s.all fun c => letter c || Decimal.isDigit c

/-- What is used of the library: `lua_next` visits every entry once; `lua_rawlen` finds a border;
no identifier is a numeral (`l_str2d` refuses `inf` and `nan`); an integer of 33 bits is exact as a
double; a float that is not NaN is exact as a double. -/
structure Env.Lawful (E : Env δ φ) : Prop where
  order_perm : ∀ es, (E.order es).Perm es
  rawlen_border : ∀ es : Entries δ,
    (0 < E.rawlen es → Key.integer (E.rawlen es) ∈ es.map Prod.fst) ∧
      Key.integer (E.rawlen es + 1) ∉ es.map Prod.fst
  identifier : ∀ s, isIdentifier s = true → E.str2number s = none
  truncate_ofInteger : ∀ i : Int, -2 ^ 32 ≤ i → i ≤ 2 ^ 32 → E.truncate (E.ofInteger i) = some i
  toFloat_ofFloat : ∀ x, E.isNaNFloat x = false → E.toFloat (E.ofFloat x) = x

variable (E : Env δ φ)

/-- `lua_tonumber`, `none` if `lua_isnumber` is false. -/
def tonumber : Val δ → Option δ
  | .integer i => some (E.ofInteger i)
  | .number x => some x
  | .string s => (E.str2number s).map (Sum.elim E.ofInteger id)
  | _ => none

/-- `lua_tointeger`, `none` if there is no integer. -/
def tointeger : Val δ → Option Int
  | .integer i => some i
  | .number x => E.numberToInteger x
  | .string s => (E.str2number s).bind (Sum.elim some E.numberToInteger)
  | _ => none

/-- `lua_tostring`, `none` if `lua_isstring` is false. -/
def tostring : Val δ → Option Bytes
  | .string s => some s
  | .integer i => some (Decimal.intText i)
  | .number x => some (E.numberText x)
  | _ => none

/-- `std::string(const char *)`: up to the first NUL. -/
def cstr (s : Bytes) : Bytes := s.takeWhile (· ≠ 0)

theorem cstr_eq_self {s : Bytes} : cstr s = s ↔ 0 ∉ s := by
  rw [cstr, List.takeWhile_eq_self_iff]
  constructor
  · intro h h0
    simpa using h 0 h0
  · intro h b hb
    have hne : b ≠ 0 := fun h0 => h (h0 ▸ hb)
    simpa using hne

theorem cstr_identifier {s : Bytes} (h : isIdentifier s = true) : cstr s = s := by
  rw [cstr_eq_self]
  intro h0
  have hall := (Bool.and_eq_true _ _ ▸ h).2
  exact absurd (List.all_eq_true.mp hall 0 h0) (by decide)

/-! ## The stack -/

/-- `lua_push…`, `lua_newtable`, `lua_rawgeti` -/
def push (limit : Nat) (v : Val δ) (lua : List (Val δ)) : Except Exit (List (Val δ)) :=
  if lua.length + 1 ≤ limit then .ok (v :: lua) else .error .stackOverflow

theorem push_bind {α : Type} (limit : Nat) (v : Val δ) (lua : List (Val δ))
    (f : List (Val δ) → Except Exit α) :
    (push limit v lua >>= f) =
      if lua.length + 1 ≤ limit then f (v :: lua) else .error .stackOverflow := by
  rw [push]
  split <;> rfl

/-- Two pushes need two slots. -/
theorem push_push {α : Type} (limit : Nat) (u v : Val δ) (lua : List (Val δ))
    (f : List (Val δ) → Except Exit α) :
    (push limit u lua >>= fun lua => push limit v lua >>= f) =
      if lua.length + 2 ≤ limit then f (v :: u :: lua) else .error .stackOverflow := by
  rw [push_bind, push_bind, List.length_cons]
  by_cases h : lua.length + 2 ≤ limit
  · rw [if_pos h, if_pos (by omega)]
  · rw [if_neg h]
    split <;> rfl

/-- The value at a positive index. -/
def stackAt (lua : List (Val δ)) (idx : Nat) : Option (Val δ) :=
  if idx = 0 then none else lua.reverse[idx - 1]?

theorem stackAt_append (above below : List (Val δ)) (v : Val δ) :
    stackAt (above ++ v :: below) (below.length + 1) = some v := by
  simp [stackAt]

variable [DecidableEq δ]

/-- `t[key] = value` -/
def rawset (key : Key δ) (value : Val δ) : Entries δ → Entries δ
  | [] => [(key, value)]
  | e :: es => if e.1 = key then (key, value) :: es else e :: rawset key value es

/-- `t[key]` -/
def rawget (key : Key δ) (es : Entries δ) : Val δ :=
  ((es.find? fun e => e.1 = key).map Prod.snd).getD .nil

/-- `lua_settable(L, -3)` on a table without a metatable, with a value that is not `nil`. -/
def settable : List (Val δ) → Except Exit (List (Val δ))
  | value :: key :: .table es :: lua =>
    match key.toKey with
    | some key => .ok (.table (rawset key value es) :: lua)
    | none => .error .luaError
  | _ => .error .misuse

/-- `lua_next`: the entry behind the key, the first one for `nil`. -/
def next (es : Entries δ) : Val δ → Except Exit (Option (Key δ × Val δ))
  | .nil => .ok (E.order es).head?
  | key =>
    match key.toKey with
    | none => .error .luaError
    | some key =>
      match (E.order es).dropWhile fun e => e.1 ≠ key with
      | [] => .error .luaError
      | _ :: es => .ok es.head?

theorem rawset_append {key : Key δ} {es : Entries δ} (value : Val δ)
    (h : key ∉ es.map Prod.fst) : rawset key value es = es ++ [(key, value)] := by
  induction es with
  | nil => rfl
  | cons e es ih =>
    simp only [List.map_cons, List.mem_cons, not_or] at h
    rw [rawset, if_neg (Ne.symm h.1), ih h.2]
    rfl

theorem settable_table {key : Key δ} {es : Entries δ} (value : Val δ) (lua : List (Val δ))
    (h : key ∉ es.map Prod.fst) :
    settable (value :: key.val :: .table es :: lua) =
      .ok (.table (es ++ [(key, value)]) :: lua) := by
  simp only [settable, key.toKey_val, rawset_append value h]

/-! ## Conversions of C++ -/

/-- The exception of `std::stoll` or `std::stoull`. -/
def orThrow {α : Type} (what : String) : Option α → Except Exit α
  | some a => .ok a
  | none => .error (.threw what)

/-- A double converted to an integer type with values from `lo` to `hi`. -/
def toIntegral (lo hi : Int) (x : δ) : Except Exit Int :=
  match E.truncate x with
  | some i => if lo ≤ i ∧ i ≤ hi then .ok i else .error .conversion
  | none => .error .conversion

/-! ## A library with whole numbers -/

/-- The first index without an element behind it. -/
def firstBorder (es : Entries Int) : Nat :=
  ((List.range (es.length + 1)).find? fun n : Nat =>
    Key.integer ((n : Int) + 1) ∉ es.map Prod.fst).getD 0

/-- A library with doubles and floats that are whole numbers, tables visited in the order of their
entries, and no string that is a numeral. -/
def whole : Env Int Int where
  order := id
  rawlen := firstBorder
  str2number _ := none
  numberText := Decimal.intText
  numberToInteger := some
  ofInteger := id
  truncate := some
  toFloat := id
  ofFloat := id
  isNaN _ := false
  isNaNFloat _ := false

theorem firstBorder_spec (es : Entries Int) :
    (0 < firstBorder es → Key.integer (firstBorder es) ∈ es.map Prod.fst) ∧
      Key.integer (firstBorder es + 1) ∉ es.map Prod.fst := by
  -- a table has fewer entries than `es.length + 1`, so one of the indices is free
  have hfree : ∃ n ∈ List.range (es.length + 1),
      Key.integer ((n : Int) + 1) ∉ es.map Prod.fst := by
    by_contra hall
    push Not at hall
    have hnodup : ((List.range (es.length + 1)).map fun n : Nat =>
        (Key.integer ((n : Int) + 1) : Key Int)).Nodup :=
      List.nodup_range.map fun a b h => by simpa using h
    have hsub := (List.subperm_of_subset hnodup (List.forall_mem_map.mpr hall)).length_le
    simp at hsub
  obtain ⟨n, hn, hfree⟩ := hfree
  cases hfind : (List.range (es.length + 1)).find? fun n : Nat =>
      Key.integer ((n : Int) + 1) ∉ es.map Prod.fst with
  | none => exact absurd (List.find?_eq_none.mp hfind n hn) (by simpa using hfree)
  | some r =>
    have hr : firstBorder es = r := by rw [firstBorder, hfind]; rfl
    obtain ⟨hfirst, -, hbefore⟩ := List.find?_range_eq_some.mp hfind
    rw [hr]
    refine ⟨fun hpos => ?_, by simpa using hfirst⟩
    have hpred := hbefore (r - 1) (by omega)
    have hcast : ((r - 1 : Nat) : Int) + 1 = r := by omega
    rw [hcast] at hpred
    simpa using hpred

theorem whole_lawful : whole.Lawful where
  order_perm _ := .refl _
  rawlen_border := firstBorder_spec
  identifier _ _ := rfl
  truncate_ofInteger _ _ _ := rfl
  toFloat_ofFloat _ _ := rfl

end Avant.Lua
