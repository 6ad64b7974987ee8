import Mathlib.Data.List.Infix
import Avant.Lua.FromLua

/-!
# Filling a message from any table

What `lua2protobuf_nostack` does with a table that a script made: any keys, any values, tables
nested in any way without a cycle, for a message of any type.

`fill` is the message afterwards: the entries are stored in the order of `lua_next`, and an entry
is skipped if its key names no field or its value is not of the field's type. The elements of a
repeated message field are added first and filled from the last to the first.

`Fillable` are the tables for which the traversal comes to its end: every value for an integer field
can be converted, every array for a repeated message field starts with a table, and the Lua stack
has the slots.

* `visits`: the traversal of a table ends exactly if the table is fillable, with the message filled.
* `fills_iff`: `lua2protobuf_nostack` returns, leaves the stack as it was and fills the message,
  exactly if the table is fillable.
-/

namespace Avant.Lua

open Avant.Lib

variable {δ φ τ σ : Type}

/-! ## Tables -/

section Tables

def Val.isTable : Val δ → Bool
  | .table _ => true
  | .nil | .boolean _ | .integer _ | .number _ | .string _ | .other _ => false

/-- The entries of a table. -/
def Val.entries : Val δ → Option (Entries δ)
  | .table es => some es
  | .nil | .boolean _ | .integer _ | .number _ | .string _ | .other _ => none

mutual

/-- How deep tables are nested in the value. -/
def Val.depth : Val δ → Nat
  | .table es => depthOf es + 1
  | .nil | .boolean _ | .integer _ | .number _ | .string _ | .other _ => 0

def depthOf : List (Key δ × Val δ) → Nat
  | [] => 0
  | e :: es => max (entryDepth e) (depthOf es)

def entryDepth : Key δ × Val δ → Nat
  | (_, v) => v.depth

end

/-- Tables as they are in Lua: no key twice, at any depth. -/
inductive Val.Ok : Val δ → Prop
  | table {es : Entries δ} : (es.map Prod.fst).Nodup → (∀ e ∈ es, Ok e.2) → Ok (.table es)
  | plain {v : Val δ} : v.isTable = false → Ok v

/-- The tables in a list of values. -/
def tablesOf (xs : List (Val δ)) : List (Entries δ) := xs.filterMap Val.entries

variable {es : Entries δ} {v x : Val δ}

theorem entries_eq_some : v.entries = some es ↔ v = .table es := by
  cases v <;> simp [Val.entries]

theorem depth_lt {e : Key δ × Val δ} (h : e ∈ es) : e.2.depth < (Val.table es).depth := by
  rw [Val.depth, Nat.lt_succ_iff]
  induction es with
  | nil => cases h
  | cons a es ih =>
    rw [depthOf]
    rcases List.mem_cons.mp h with rfl | h
    · obtain ⟨key, v⟩ := e
      rw [entryDepth]
      exact Nat.le_max_left _ _
    · exact Nat.le_trans (ih h) (Nat.le_max_right _ _)

theorem Val.Ok.keys (h : (Val.table es).Ok) : (es.map Prod.fst).Nodup := by
  cases h with
  | table hkeys _ => exact hkeys
  | plain h => cases h

theorem Val.Ok.entry {e : Key δ × Val δ} (h : (Val.table es).Ok) (he : e ∈ es) : e.2.Ok := by
  cases h with
  | table _ hentries => exact hentries e he
  | plain h => cases h

theorem Val.Ok.single {key : Key δ} (h : v.Ok) : (Val.table [(key, v)]).Ok :=
  .table (List.nodup_singleton _) (List.forall_mem_singleton.mpr h)

variable [DecidableEq δ] (E : Env δ φ)

/-- The elements of an array, as `lua_rawlen` and `lua_rawgeti` give them. -/
def elements (es : Entries δ) : List (Val δ) :=
  (List.range (E.rawlen es)).map fun k : Nat => rawget (.integer ((k : Int) + 1)) es

variable {E}

theorem length_elements : (elements E es).length = E.rawlen es := by
  rw [elements, List.length_map, List.length_range]

theorem rawget_of_elements {done todo : List (Val δ)} (h : elements E es = done ++ x :: todo) :
    rawget (.integer ((done.length : Int) + 1)) es = x := by
  have hlt : done.length < E.rawlen es := by
    rw [← length_elements, h]
    simp
  have hx : (elements E es)[done.length]? = some x := by simp [h]
  simpa [elements, hlt] using hx

theorem rawget_cases (key : Key δ) (es : Entries δ) :
    rawget key es = .nil ∨ ∃ e ∈ es, rawget key es = e.2 := by
  rw [rawget]
  cases h : es.find? fun e => e.1 = key with
  | none => exact .inl rfl
  | some e => exact .inr ⟨e, List.mem_of_find?_eq_some h, rfl⟩

/-- What holds of `nil` and of the values of a table holds of its elements. -/
theorem forall_elements {P : Val δ → Prop} (hnil : P .nil) (h : ∀ e ∈ es, P e.2) :
    ∀ x ∈ elements E es, P x := by
  intro x hx
  obtain ⟨k, -, rfl⟩ := List.mem_map.mp hx
  rcases rawget_cases (.integer ((k : Int) + 1)) es with hk | ⟨e, he, hk⟩
  · rwa [hk]
  · rw [hk]
    exact h e he

end Tables

namespace FromLua

variable [DecidableEq δ] (R : Reflection δ φ τ σ) (E : Env δ φ) (limit : Nat)

/-! ## The message afterwards -/

/-- Messages are added for the tables of an array. Gives pointers to them with their tables, the
last one first. -/
def addTables (p : Path) (i : Nat) (type : τ) (xs : List (Val δ)) (package : σ) :
    List (Path × Entries δ) × σ :=
  (tablesOf xs).foldl (fun (qs, package) es =>
    ((p ++ [(i, R.fieldSize p i package)], es) :: qs, R.addMessage p i type package)) ([], package)

/-- The message after an entry for a field; `visit` is the message after a table. -/
def fillField (visit : List (FieldOf τ) → Path → Entries δ → σ → σ) (p : Path) (i : Nat)
    (field : FieldOf τ) (v : Val δ) (package : σ) : σ :=
  match R.cppType field.type, field.repeated, v with
  | .inl kind, false, v =>
    match scalarOf E kind v with
    | some s => R.setScalar p i s package
    | none => package
  | .inl kind, true, .table es =>
    ((elements E es).filterMap (scalarOf E kind)).foldl
      (fun package s => R.addScalar p i s package) package
  | .inr fields, false, .table es =>
    visit fields (p ++ [(i, 0)]) es (R.mutableMessage p i field.type package)
  | .inr fields, true, .table es =>
    let (qs, package) := addTables R p i field.type (elements E es) package
    qs.foldl (fun package q => visit fields q.1 q.2 package) package
  | _, _, _ => package

def fillEntry (visit : List (FieldOf τ) → Path → Entries δ → σ → σ) (fields : List (FieldOf τ))
    (p : Path) (package : σ) (e : Key δ × Val δ) : σ :=
  match fieldOf E fields e.1 with
  | some (i, field) => fillField R E visit p i field e.2 package
  | none => package

/-- The message after a table that is nested at most `n` deep. -/
def fill : Nat → List (FieldOf τ) → Path → Entries δ → σ → σ
  | 0, _, _, _, package => package
  | n + 1, fields, p, es, package =>
    (E.order es).foldl (fillEntry R E (fill n) fields p) package

/-! ## What the traversal needs -/

/-- What an entry for a field needs, with `h` slots up to the table; `F` is what a table needs. The
value is in slot `h + 2`. The elements of an array of scalars are in the slot above it one after the
other; an element of an array of messages is above the tables in front of it. -/
def FieldFits (F : List (FieldOf τ) → Nat → Entries δ → Prop) (h : Nat) (field : FieldOf τ)
    (v : Val δ) : Prop :=
  match R.cppType field.type, field.repeated, v with
  | .inl kind, false, v => Convertible E kind v
  | .inl kind, true, .table es => ∀ x ∈ elements E es, h + 3 ≤ limit ∧ Convertible E kind x
  | .inr fields, false, .table es => F fields (h + 2) es
  | .inr fields, true, .table es =>
    (∀ x ∈ (elements E es).head?, x.isTable = true) ∧
      ∀ y ∈ (elements E es).zipIdx,
        h + 3 + (tablesOf ((elements E es).take y.2)).length ≤ limit ∧
          ∀ sub ∈ y.1.entries, F fields (h + 3 + (tablesOf ((elements E es).take y.2)).length) sub
  | _, _, _ => True

def EntryFits (F : List (FieldOf τ) → Nat → Entries δ → Prop) (fields : List (FieldOf τ)) (h : Nat)
    (e : Key δ × Val δ) : Prop :=
  h + 2 ≤ limit ∧ ∀ r ∈ fieldOf E fields e.1, FieldFits R E limit F h r.2 e.2

/-- What a table in slot `h` needs that is nested at most `n` deep. -/
def Fillable : Nat → List (FieldOf τ) → Nat → Entries δ → Prop
  | 0, _, _, _ => False
  | n + 1, fields, h, es =>
    h + 1 ≤ limit ∧ ∀ e ∈ es, EntryFits R E limit (Fillable n) fields h e

section Decide

variable (F : List (FieldOf τ) → Nat → Entries δ → Prop)
  [∀ fields h es, Decidable (F fields h es)]

instance (h : Nat) (field : FieldOf τ) (v : Val δ) :
    Decidable (FieldFits R E limit F h field v) := by
  unfold FieldFits
  split <;> infer_instance

instance (fields : List (FieldOf τ)) (h : Nat) (e : Key δ × Val δ) :
    Decidable (EntryFits R E limit F fields h e) := by
  unfold EntryFits
  infer_instance

instance Fillable.decidable : ∀ (n : Nat) (fields : List (FieldOf τ)) (h : Nat) (es : Entries δ),
    Decidable (Fillable R E limit n fields h es)
  | 0, _, _, _ => inferInstanceAs (Decidable False)
  | n + 1, fields, h, es =>
    have := Fillable.decidable n
    inferInstanceAs (Decidable (h + 1 ≤ limit ∧
      ∀ e ∈ es, EntryFits R E limit (Fillable R E limit n) fields h e))

end Decide

/-! ## Visiting a table -/

section Next

omit [DecidableEq δ]

/-- Where `lua_next` is in a table: the entries that are still to come, whether the key is `nil`,
and the key on the stack. -/
inductive Cursor (es : Entries δ) : Entries δ → Bool → List (Val δ) → Prop
  | first : Cursor es (E.order es) true []
  | behind (done : Entries δ) {todo : Entries δ} {e : Key δ × Val δ} :
      E.order es = done ++ e :: todo → Cursor es todo false [e.1.val]

variable {R E} {es todo : Entries δ} {e : Key δ × Val δ} {b : Bool} {ks : List (Val δ)}

/-- Going on by an entry. -/
theorem Cursor.succ (h : Cursor E es (e :: todo) b ks) : Cursor E es todo false [e.1.val] := by
  generalize hes : e :: todo = l at h
  cases h with
  | first => exact .behind [] hes.symm
  | @behind done _ e' horder =>
    subst hes
    exact .behind (done ++ [e']) (by simp [horder])

variable [DecidableEq δ]

theorem next_behind {done : Entries δ} (h : E.order es = done ++ e :: todo)
    (hnodup : ((E.order es).map Prod.fst).Nodup) : next E es e.1.val = .ok todo.head? := by
  have hdrop : (E.order es).dropWhile (fun a => a.1 ≠ e.1) = e :: todo := by
    rw [h, List.map_append, List.nodup_append] at hnodup
    rw [h, List.dropWhile_append_of_pos]
    · simp
    · intro a ha
      have hne := hnodup.2.2 a.1 (List.mem_map_of_mem ha) e.1 (by simp)
      simpa using hne
  obtain ⟨key, value⟩ := e
  -- a key on the stack is never nil
  cases key <;> simp only [next, Key.val, Val.toKey, hdrop]

variable {limit} {p : Path} {fields : List (FieldOf τ)} {m : Int} {below : List (Val δ)}
  {rest : List (Frame τ)} {package : σ}

/-- A turn of the loop for the table of the frame on top. -/
theorem step_cursor (h : Cursor E es todo b ks) (hnodup : ((E.order es).map Prod.fst).Nodup)
    (hroom : below.length + 2 ≤ limit) :
    step R E limit
        ⟨ks ++ .table es :: below, ⟨p, fields, below.length + 1, b, m⟩ :: rest, package⟩ =
      match todo.head? with
      | some e => do
        let _ ← push limit e.2 (e.1.val :: .table es :: below)
        entryStep R E limit ⟨p, fields, below.length + 1, false, m⟩ rest e.1 e.2
          (.table es :: below) package
      | none => .ok ⟨popFrame p m (.table es :: below), rest, package⟩ := by
  cases h with
  | first =>
    have htable := stackAt_append [Val.nil] below (.table es)
    have hpush : push limit Val.nil (.table es :: below) = .ok (.nil :: .table es :: below) :=
      if_pos hroom
    simp only [List.singleton_append] at htable
    simp only [step, List.nil_append, if_true, hpush, ok_bind, htable, next]
    cases (E.order es).head? <;> rfl
  | @behind done _ e' horder =>
    have htable := stackAt_append [e'.1.val] below (.table es)
    simp only [List.singleton_append] at htable
    simp only [step, List.singleton_append, Bool.false_eq_true, if_false, ok_bind, htable,
      next_behind horder hnodup]
    cases todo.head? <;> rfl

omit [DecidableEq δ] in
theorem gives_push {v : Val δ} {lua : List (Val δ)} :
    Gives .returned (push limit v lua) (v :: lua) (lua.length + 1 ≤ limit) :=
  .guard Exit.stackOverflow (by decide)

/-- A turn of the loop for an entry. -/
theorem ends_turn {s' : State δ τ σ} {g : Prop} (hcursor : Cursor E es (e :: todo) b ks)
    (hkeys : ((E.order es).map Prod.fst).Nodup) (hroom : below.length + 2 ≤ limit)
    (h : Gives .returned (entryStep R E limit ⟨p, fields, below.length + 1, false, m⟩ rest e.1 e.2
      (.table es :: below) package) s' g) :
    Ends (step R E limit) .returned
      ⟨ks ++ .table es :: below, ⟨p, fields, below.length + 1, b, m⟩ :: rest, package⟩ s'
      (below.length + 1 + 2 ≤ limit ∧ g) := by
  refine .turn ?_
  rw [step_cursor hcursor hkeys hroom]
  exact gives_push.bind fun _ => h

end Next

/-! ## Fields -/

section Field

variable {R E limit} {visit : List (FieldOf τ) → Path → Entries δ → σ → σ}
  {F : List (FieldOf τ) → Nat → Entries δ → Prop} {frame : Frame τ} {rest : List (Frame τ)}
  {i : Nat} {field : FieldOf τ} {key : Key δ} {v : Val δ} {lua : List (Val δ)} {package : σ}
  {kind : Kind} {fields : List (FieldOf τ)} {es : Entries δ}

/-- A value that is not a table, for a field that needs one, is skipped. -/
theorem gives_skip (hv : v.isTable = false)
    (hfield : field.repeated = true ∨ ∃ fields, R.cppType field.type = .inr fields) :
    Gives .returned (fieldStep R E limit frame rest i field key v lua package)
      ⟨key.val :: lua, frame :: rest, fillField R E visit frame.packagePtr i field v package⟩
      (FieldFits R E limit F lua.length field v) := by
  cases v with
  | table es => cases hv
  | _ =>
    cases htype : R.cppType field.type with
    | inr fields =>
      cases hrep : field.repeated <;> simp only [fieldStep, fillField, FieldFits, htype, hrep] <;>
        exact .pure trivial
    | inl kind =>
      have hrep : field.repeated = true := by simpa [htype] using hfield
      simp only [fieldStep, fillField, FieldFits, htype, hrep]
      exact .pure trivial

/-- A scalar field is set. -/
theorem gives_scalar (htype : R.cppType field.type = .inl kind) (hrep : field.repeated = false) :
    Gives .returned (fieldStep R E limit frame rest i field key v lua package)
      ⟨key.val :: lua, frame :: rest, fillField R E visit frame.packagePtr i field v package⟩
      (FieldFits R E limit F lua.length field v) := by
  simp only [fieldStep, fillField, FieldFits, htype, hrep]
  refine gives_readScalar.bind_ok ?_
  cases scalarOf E kind v <;> rfl

/-- The array of a repeated scalar field is added element by element. -/
theorem gives_scalars (htype : R.cppType field.type = .inl kind) (hrep : field.repeated = true) :
    Gives .returned (fieldStep R E limit frame rest i field key (.table es) lua package)
      ⟨key.val :: lua, frame :: rest,
        fillField R E visit frame.packagePtr i field (.table es) package⟩
      (FieldFits R E limit F lua.length field (.table es)) := by
  have hloop := Gives.loop (e := Exit.returned) (addScalar R E limit kind frame.packagePtr i es
      (.table es :: key.val :: lua)) (elements E es)
    (fun done => (done.filterMap (scalarOf E kind)).foldl
      (fun package s => R.addScalar frame.packagePtr i s package) package)
    (fun _ x => lua.length + 3 ≤ limit ∧ Convertible E kind x)
    fun done x todo hxs => by
      rw [addScalar, rawget_of_elements hxs]
      refine gives_push.bind fun _ => gives_readScalar.bind_ok ?_
      rw [List.filterMap_append, List.foldl_append]
      cases hx : scalarOf E kind x <;> simp [hx]
  rw [length_elements] at hloop
  simp only [fieldStep, fillField, FieldFits, htype, hrep]
  refine (hloop.bind_ok (by rfl)).congr ?_
  simp only [List.mem_iff_getElem?, forall_exists_index]
  exact forall_comm

end Field

/-! ## Arrays of messages -/

section Elements

omit [DecidableEq δ]

/-- The frames of the tables of an array, the last one first, above `base` values. The frame of the
first table pops `first` values. -/
def pendingFrames (fields : List (FieldOf τ)) (base : Nat) (first : Int) :
    List (Path × Entries δ) → List (Frame τ)
  | [] => []
  | q :: qs => ⟨q.1, fields, base + qs.length + 1, true, if qs.isEmpty then first else 1⟩ ::
      pendingFrames fields base first qs

/-- The tables of an array are on the stack, with their frames. -/
def onStack (fields : List (FieldOf τ)) (first : Int) (lua : List (Val δ)) (cpp : List (Frame τ))
    (pending : List (Path × Entries δ) × σ) : State δ τ σ :=
  ⟨pending.1.map (fun q => .table q.2) ++ lua,
    pendingFrames fields lua.length first pending.1 ++ cpp, pending.2⟩

/-- What the frame of the first table of an array pops: the array as well if the table is the first
element. -/
def firstPop (xs : List (Val δ)) : Int := if xs.head?.any Val.isTable then 2 else 1

variable {R E limit} {p : Path} {i : Nat} {type : τ} {fields : List (FieldOf τ)} {package : σ}
  {xs done todo : List (Val δ)} {x : Val δ} {es sub : Entries δ} {lua : List (Val δ)}
  {cpp : List (Frame τ)}

theorem forall_cons_suffix {α : Type} {P : α → List α → Prop} {a : α} {l : List α} :
    (∀ b m, b :: m <:+ a :: l → P b m) ↔ P a l ∧ ∀ b m, b :: m <:+ l → P b m := by
  simp only [List.suffix_cons_iff, List.cons.injEq, or_imp, forall_and]
  refine and_congr_left fun _ => ⟨fun h => h a l ⟨rfl, rfl⟩, ?_⟩
  rintro h b m ⟨rfl, rfl⟩
  exact h

theorem tablesOf_snoc : tablesOf (xs ++ [x]) = tablesOf xs ++ x.entries.toList := by
  rw [tablesOf, List.filterMap_append]
  cases h : x.entries <;> simp [tablesOf, h]

theorem addTables_skip (hx : x.entries = none) :
    addTables R p i type (xs ++ [x]) package = addTables R p i type xs package := by
  rw [addTables, tablesOf_snoc, hx, Option.toList_none, List.append_nil, addTables]

theorem addTables_table :
    addTables R p i type (xs ++ [.table es]) package =
      ((p ++ [(i, R.fieldSize p i (addTables R p i type xs package).2)], es) ::
          (addTables R p i type xs package).1,
        R.addMessage p i type (addTables R p i type xs package).2) := by
  rw [addTables, tablesOf_snoc, List.foldl_append]
  rfl

theorem length_addTables :
    (addTables R p i type xs package).1.length = (tablesOf xs).length := by
  induction xs using List.reverseRecOn with
  | nil => rfl
  | append_singleton xs x ih =>
    cases hx : x.entries with
    | none => rw [addTables_skip hx, ih, tablesOf_snoc, hx, Option.toList_none, List.append_nil]
    | some es =>
      obtain rfl := entries_eq_some.mp hx
      rw [addTables_table, List.length_cons, ih, tablesOf_snoc, hx, List.length_append]
      rfl

/-- What is pending is below the message, for a table of the array. -/
theorem mem_addTables {q : Path × Entries δ} (h : q ∈ (addTables R p i type xs package).1) :
    q.1 ≠ [] ∧ .table q.2 ∈ xs := by
  induction xs using List.reverseRecOn with
  | nil => cases h
  | append_singleton xs x ih =>
    cases hx : x.entries with
    | none =>
      rw [addTables_skip hx] at h
      exact ⟨(ih h).1, List.mem_append_left _ (ih h).2⟩
    | some es =>
      obtain rfl := entries_eq_some.mp hx
      rw [addTables_table] at h
      rcases List.mem_cons.mp h with rfl | h
      · exact ⟨by simp, by simp⟩
      · exact ⟨(ih h).1, List.mem_append_left _ (ih h).2⟩

/-- The pending tables with the numbers of tables in front of them are the elements that are tables
with the numbers of tables in front of them. -/
theorem forall_addTables {P : Nat → Entries δ → Prop} :
    (∀ q qs, q :: qs <:+ (addTables R p i type xs package).1 → P qs.length q.2) ↔
      ∀ k x, xs[k]? = some x → ∀ sub ∈ x.entries, P (tablesOf (xs.take k)).length sub := by
  induction xs using List.reverseRecOn with
  | nil => simp [addTables, tablesOf]
  | append_singleton xs x ih =>
    have hfront : (∀ k y, xs[k]? = some y → ∀ sub ∈ y.entries,
        P (tablesOf ((xs ++ [x]).take k)).length sub) ↔
          ∀ k y, xs[k]? = some y → ∀ sub ∈ y.entries, P (tablesOf (xs.take k)).length sub := by
      refine forall₃_congr fun k y hk => ?_
      rw [List.take_append_of_le_length (Nat.le_of_lt (List.getElem?_eq_some_iff.mp hk).1)]
    rw [forall_getElem?_concat, hfront, ← ih, List.take_left]
    cases hx : x.entries with
    | none => simp [addTables_skip hx]
    | some es =>
      obtain rfl := entries_eq_some.mp hx
      have hlen : (addTables R p i type xs package).1.length = (tablesOf xs).length :=
        length_addTables
      rw [addTables_table, forall_cons_suffix, hlen, and_comm]
      simp

theorem firstPop_eq (hxs : xs = done ++ .table sub :: todo) :
    (if (addTables R p i type done package).1.isEmpty then firstPop xs else 1) =
      if done.length = 0 then (2 : Int) else 1 := by
  subst hxs
  cases done with
  | nil => rfl
  | cons y ys =>
    have hlen : (y :: ys).length ≠ 0 := Nat.succ_ne_zero _
    rw [if_neg hlen]
    split
    case isFalse => rfl
    case isTrue hempty =>
      have hnone : tablesOf (y :: ys) = [] := by
        rw [← List.length_eq_zero_iff, ← length_addTables, List.isEmpty_iff.mp hempty]
        rfl
      have hy : y.isTable = false := by
        cases y <;> first | rfl | cases hnone
      simp [firstPop, hy]

variable [DecidableEq δ]

/-- A turn of the loop over an array of messages. -/
theorem gives_addMessage (hxs : elements E es = done ++ x :: todo) :
    Gives .returned (addMessage R limit p i type fields es (onStack fields
        (firstPop (elements E es)) lua cpp (addTables R p i type done package)) done.length)
      (onStack fields (firstPop (elements E es)) lua cpp
        (addTables R p i type (done ++ [x]) package))
      (lua.length + 1 + (tablesOf done).length ≤ limit) := by
  rw [addMessage, rawget_of_elements hxs]
  refine (gives_push.bind_ok ?_).congr ?_
  · cases hx : x.entries with
    | none =>
      rw [addTables_skip hx]
      cases x <;> first | rfl | cases hx
    | some sub =>
      obtain rfl := entries_eq_some.mp hx
      have hlen : (addTables R p i type done package).1.length = (tablesOf done).length :=
        length_addTables
      simp only [addTables_table, onStack, pendingFrames, firstPop_eq hxs]
      simp [hlen, Nat.add_comm]
  · simp only [onStack, List.length_append, List.length_map, length_addTables]
    omega

/-- The tables of the array of a repeated message field are pushed. -/
theorem gives_messages {frame : Frame τ} {rest : List (Frame τ)} {field : FieldOf τ} {key : Key δ}
    (htype : R.cppType field.type = .inr fields) (hrep : field.repeated = true)
    (hne : elements E es ≠ []) :
    Gives .returned (fieldStep R E limit frame rest i field key (.table es) lua package)
      (onStack fields (firstPop (elements E es)) (.table es :: key.val :: lua) (frame :: rest)
        (addTables R frame.packagePtr i field.type (elements E es) package))
      (∀ k x, (elements E es)[k]? = some x →
        lua.length + 3 + (tablesOf ((elements E es).take k)).length ≤ limit) := by
  have hloop := Gives.loop (e := Exit.returned)
    (addMessage R limit frame.packagePtr i field.type fields es) (elements E es)
    (fun done => onStack fields (firstPop (elements E es)) (.table es :: key.val :: lua)
      (frame :: rest) (addTables R frame.packagePtr i field.type done package))
    (fun k _ => lua.length + 3 + (tablesOf ((elements E es).take k)).length ≤ limit)
    fun done x todo hxs => by
      refine (gives_addMessage hxs).congr ?_
      rw [hxs, List.take_left]
      simp only [List.length_cons]
  have hlen : E.rawlen es ≠ 0 := by
    rwa [← length_elements, ne_eq, List.length_eq_zero_iff]
  rw [length_elements] at hloop
  simp only [fieldStep, htype, hrep, if_neg hlen]
  exact hloop

end Elements

/-! ## The traversal -/

omit [DecidableEq δ] in
theorem popFrame_one {p : Path} (hp : p ≠ []) (v : Val δ) (lua : List (Val δ)) :
    popFrame p 1 (v :: lua) = lua := by
  simp [popFrame, hp]

omit [DecidableEq δ] in
theorem popFrame_two {p : Path} (hp : p ≠ []) (v w : Val δ) (lua : List (Val δ)) :
    popFrame p 2 (v :: w :: lua) = lua := by
  simp [popFrame, hp]

/-- The traversal of a table nested at most `n` deep ends, with the message filled, if the table is
fillable, and does not end otherwise. -/
def Visits (n : Nat) : Prop :=
  ∀ es, (Val.table es).Ok → (Val.table es).depth ≤ n → ∀ fields below p m rest package,
    Ends (step R E limit) .returned
      ⟨.table es :: below, ⟨p, fields, below.length + 1, true, m⟩ :: rest, package⟩
      ⟨popFrame p m (.table es :: below), rest, fill R E n fields p es package⟩
      (Fillable R E limit n fields (below.length + 1) es)

section Visit

variable {R E limit} {n : Nat} {es : Entries δ} {fields : List (FieldOf τ)}

/-- The tables of an array are visited, the last one first. -/
theorem ends_pending (hvisit : Visits R E limit n) {first : Int} {lua lua' : List (Val δ)}
    {cpp : List (Frame τ)} {v : Val δ} {qs : List (Path × Entries δ)} {package : σ}
    (hok : ∀ q ∈ qs, (Val.table q.2).Ok ∧ (Val.table q.2).depth ≤ n) (hpath : ∀ q ∈ qs, q.1 ≠ [])
    (hpop : ∀ q ∈ qs, ∀ w, popFrame q.1 first (w :: v :: lua) = lua')
    (hnil : qs = [] → lua' = v :: lua) :
    Ends (step R E limit) .returned (onStack fields first (v :: lua) cpp (qs, package))
      ⟨lua', cpp, qs.foldl (fun package q => fill R E n fields q.1 q.2 package) package⟩
      (∀ q qs', q :: qs' <:+ qs →
        Fillable R E limit n fields (lua.length + 2 + qs'.length) q.2) := by
  induction qs generalizing package with
  | nil =>
    rw [hnil rfl]
    exact .refl (by simp)
  | cons q qs ih =>
    obtain ⟨hq, hqs⟩ := List.forall_mem_cons.mp hok
    have htop := hvisit q.2 hq.1 hq.2 fields (qs.map (fun q => .table q.2) ++ v :: lua) q.1
      (if qs.isEmpty then first else 1) (pendingFrames fields (lua.length + 1) first qs ++ cpp)
      package
    have hheight : (qs.map (fun q => Val.table q.2) ++ v :: lua).length + 1 =
        lua.length + 2 + qs.length := by
      simp only [List.length_append, List.length_map, List.length_cons]
      omega
    have hstate : onStack fields first (v :: lua) cpp (q :: qs, package) =
        ⟨.table q.2 :: (qs.map (fun q => .table q.2) ++ v :: lua),
          ⟨q.1, fields, lua.length + 2 + qs.length, true, if qs.isEmpty then first else 1⟩ ::
            (pendingFrames fields (lua.length + 1) first qs ++ cpp), package⟩ := by
      simp only [onStack, pendingFrames, List.map_cons, List.cons_append, List.length_cons]
      congr 3
      omega
    rw [hheight] at htop
    rw [hstate, forall_cons_suffix, List.foldl_cons]
    by_cases hempty : qs = []
    · subst hempty
      rw [List.isEmpty_nil, if_pos rfl, List.map_nil, List.nil_append,
        hpop q List.mem_cons_self] at htop
      exact htop.congr (by simp)
    · have hpop' : popFrame q.1 (if qs.isEmpty then first else 1)
          (.table q.2 :: (qs.map (fun q => .table q.2) ++ v :: lua)) =
            qs.map (fun q => .table q.2) ++ v :: lua := by
        rw [if_neg (by simpa using hempty), popFrame_one (hpath q List.mem_cons_self)]
      rw [hpop'] at htop
      exact htop.seq fun _ => ih hqs (fun r hr => hpath r (List.mem_cons_of_mem q hr))
        (fun r hr => hpop r (List.mem_cons_of_mem q hr)) fun h => absurd h hempty

variable {below : List (Val δ)} {p : Path} {m : Int} {rest : List (Frame τ)} {i : Nat}
  {field : FieldOf τ} {key : Key δ} {v : Val δ} {package : σ} {s₀ : State δ τ σ}

variable {arr : Entries δ} {subfields : List (FieldOf τ)}

/-- A table that was left on the stack is no key for `lua_next`, which raises an error. -/
theorem step_table :
    step R E limit ⟨.table arr :: key.val :: .table es :: below,
      ⟨p, fields, below.length + 1, false, m⟩ :: rest, package⟩ = .error .luaError := by
  have htable := stackAt_append [Val.table arr, key.val] below (.table es)
  simp only [List.cons_append, List.nil_append] at htable
  simp only [step, Bool.false_eq_true, if_false, ok_bind, htable, next, Val.toKey]
  rfl

/-- When the array of a repeated message field fits, said of the tables that are pending. -/
theorem fieldFits_pending (p : Path) (i : Nat) (package : σ) {base : Nat}
    (htype : R.cppType field.type = .inr subfields) (hrep : field.repeated = true) :
    FieldFits R E limit (Fillable R E limit n) base field (.table arr) ↔
      (∀ x ∈ (elements E arr).head?, x.isTable = true) ∧
        (∀ k x, (elements E arr)[k]? = some x →
          base + 3 + (tablesOf ((elements E arr).take k)).length ≤ limit) ∧
        ∀ q qs, q :: qs <:+ (addTables R p i field.type (elements E arr) package).1 →
          Fillable R E limit n subfields (base + 3 + qs.length) q.2 := by
  rw [forall_addTables (P := fun j sub => Fillable R E limit n subfields (base + 3 + j) sub)]
  simp only [FieldFits, htype, hrep, Prod.forall, List.mem_zipIdx_iff_getElem?, imp_and,
    forall_and]
  rw [forall_comm, forall_comm (α := Val δ)]

/-- The tables that are pending are tables of the array, so not as deep. -/
theorem addTables_ok {type : τ} (hv : (Val.table arr).Ok) (hdepth : (Val.table arr).depth ≤ n)
    {q : Path × Entries δ} (hq : q ∈ (addTables R p i type (elements E arr) package).1) :
    (Val.table q.2).Ok ∧ (Val.table q.2).depth ≤ n := by
  refine forall_elements (P := fun v => v.Ok ∧ v.depth ≤ n) ?_ (fun e he => ?_) _
    (mem_addTables hq).2
  · exact ⟨.plain rfl, Nat.zero_le n⟩
  · have := depth_lt he
    exact ⟨hv.entry he, by omega⟩

section Messages

-- the entry of a message field, and its turn
variable (hvisit : Visits R E limit n) (hv : (Val.table arr).Ok)
  (hdepth : (Val.table arr).depth ≤ n) (htype : R.cppType field.type = .inr subfields)
  (hturn : ∀ {s' : State δ τ σ} {g : Prop},
    Gives .returned (fieldStep R E limit ⟨p, fields, below.length + 1, false, m⟩ rest i field key
      (.table arr) (.table es :: below) package) s' g →
    Ends (step R E limit) .returned s₀ s' (below.length + 1 + 2 ≤ limit ∧ g))

include hvisit hv hdepth htype hturn

/-- A sub-message is filled from its table. -/
theorem ends_message (hrep : field.repeated = false) :
    Ends (step R E limit) .returned s₀
      ⟨key.val :: .table es :: below, ⟨p, fields, below.length + 1, false, m⟩ :: rest,
        fillField R E (fill R E n) p i field (.table arr) package⟩
      (below.length + 1 + 2 ≤ limit ∧
        FieldFits R E limit (Fillable R E limit n) (below.length + 1) field (.table arr)) := by
  have hsub := hvisit arr hv hdepth subfields (key.val :: .table es :: below) (p ++ [(i, 0)]) 1
    (⟨p, fields, below.length + 1, false, m⟩ :: rest) (R.mutableMessage p i field.type package)
  rw [popFrame_one (by simp)] at hsub
  simp only [fieldStep, htype, hrep] at hturn
  simp only [fillField, FieldFits, htype, hrep]
  exact ((hturn (.pure trivial)).seq fun _ => hsub).congr (by simp)

/-- The messages of a repeated field are filled from their tables, if the array starts with one. If
it does not, the array is left on the stack. -/
theorem ends_messages (hrep : field.repeated = true) :
    Ends (step R E limit) .returned s₀
      ⟨key.val :: .table es :: below, ⟨p, fields, below.length + 1, false, m⟩ :: rest,
        fillField R E (fill R E n) p i field (.table arr) package⟩
      (below.length + 1 + 2 ≤ limit ∧
        FieldFits R E limit (Fillable R E limit n) (below.length + 1) field (.table arr)) := by
  rw [fieldFits_pending p i package htype hrep]
  by_cases hne : elements E arr = []
  · have hzero : E.rawlen arr = 0 := by rw [← length_elements, hne]; rfl
    simp only [fieldStep, htype, hrep, hzero, if_true] at hturn
    simp only [fillField, htype, hrep, hne]
    exact (hturn (.pure trivial)).congr (by simp [addTables, tablesOf])
  have hpush := hturn (gives_messages htype hrep hne)
  have hok : ∀ q ∈ (addTables R p i field.type (elements E arr) package).1,
      (Val.table q.2).Ok ∧ (Val.table q.2).depth ≤ n := fun q hq => addTables_ok hv hdepth hq
  have hpath : ∀ q ∈ (addTables R p i field.type (elements E arr) package).1, q.1 ≠ [] :=
    fun q hq => (mem_addTables hq).1
  have hfill : fillField R E (fill R E n) p i field (.table arr) package =
      (addTables R p i field.type (elements E arr) package).1.foldl
        (fun package q => fill R E n subfields q.1 q.2 package)
        (addTables R p i field.type (elements E arr) package).2 := by
    simp only [fillField, htype, hrep]
  obtain ⟨x, xs, hxs⟩ := List.exists_cons_of_ne_nil hne
  rw [hfill]
  cases hx : x.entries with
  | some sub =>
    obtain rfl := entries_eq_some.mp hx
    have hpop : firstPop (elements E arr) = 2 := by rw [hxs]; rfl
    have hsome : (addTables R p i field.type (elements E arr) package).1 ≠ [] := by
      rw [ne_eq, ← List.length_eq_zero_iff, length_addTables, hxs]
      simp [tablesOf, hx]
    rw [hpop] at hpush
    refine (hpush.seq fun _ => ends_pending hvisit hok hpath
      (fun q hq w => popFrame_two (hpath q hq) w (.table arr) _) fun h => absurd h hsome).congr ?_
    rw [and_assoc]
    exact and_congr_right fun _ => ⟨fun h => ⟨by simp [hxs, Val.isTable], h⟩, fun h => h.2⟩
  | none =>
    have hbad : x.isTable = false := by cases x <;> first | rfl | cases hx
    have hpop : firstPop (elements E arr) = 1 := by simp [hxs, firstPop, hbad]
    rw [hpop] at hpush
    have hleft := hpush.seq fun _ => ends_pending hvisit hok hpath
      (fun q hq w => popFrame_one (hpath q hq) w (.table arr :: key.val :: .table es :: below))
      fun _ => rfl
    refine (hleft.seq fun _ => .stuck step_table (by decide) not_false).congr ?_
    simp [hxs, hbad]

end Messages

/-- An entry for a field. -/
theorem ends_field (hvisit : Visits R E limit n) (hv : v.Ok) (hdepth : v.depth ≤ n)
    (hturn : ∀ {s' : State δ τ σ} {g : Prop},
      Gives .returned (fieldStep R E limit ⟨p, fields, below.length + 1, false, m⟩ rest i field key
        v (.table es :: below) package) s' g →
      Ends (step R E limit) .returned s₀ s' (below.length + 1 + 2 ≤ limit ∧ g)) :
    Ends (step R E limit) .returned s₀
      ⟨key.val :: .table es :: below, ⟨p, fields, below.length + 1, false, m⟩ :: rest,
        fillField R E (fill R E n) p i field v package⟩
      (below.length + 1 + 2 ≤ limit ∧
        FieldFits R E limit (Fillable R E limit n) (below.length + 1) field v) := by
  cases htype : R.cppType field.type with
  | inl kind =>
    cases hrep : field.repeated with
    | false => exact hturn (gives_scalar htype hrep)
    | true =>
      cases v with
      | table arr => exact hturn (gives_scalars htype hrep)
      | _ => exact hturn (gives_skip rfl (.inl hrep))
  | inr subfields =>
    cases v with
    | table arr =>
      cases hrep : field.repeated with
      | false => exact ends_message hvisit hv hdepth htype hturn hrep
      | true => exact ends_messages hvisit hv hdepth htype hturn hrep
    | _ => exact hturn (gives_skip rfl (.inr ⟨subfields, htype⟩))

/-- An entry of the table on top. -/
theorem ends_entry (hvisit : Visits R E limit n) {todo : Entries δ} {b : Bool} {ks : List (Val δ)}
    {e : Key δ × Val δ} (hcursor : Cursor E es (e :: todo) b ks)
    (hkeys : ((E.order es).map Prod.fst).Nodup) (hroom : below.length + 2 ≤ limit) (hv : e.2.Ok)
    (hdepth : e.2.depth ≤ n) :
    Ends (step R E limit) .returned
      ⟨ks ++ .table es :: below, ⟨p, fields, below.length + 1, b, m⟩ :: rest, package⟩
      ⟨e.1.val :: .table es :: below, ⟨p, fields, below.length + 1, false, m⟩ :: rest,
        fillEntry R E (fill R E n) fields p package e⟩
      (EntryFits R E limit (Fillable R E limit n) fields (below.length + 1) e) := by
  have hturn : ∀ {s' : State δ τ σ} {g : Prop},
      Gives .returned (entryStep R E limit ⟨p, fields, below.length + 1, false, m⟩ rest e.1 e.2
        (.table es :: below) package) s' g →
      Ends (step R E limit) .returned
        ⟨ks ++ .table es :: below, ⟨p, fields, below.length + 1, b, m⟩ :: rest, package⟩ s'
        (below.length + 1 + 2 ≤ limit ∧ g) :=
    ends_turn hcursor hkeys hroom
  cases hfield : fieldOf E fields e.1 with
  | none =>
    simp only [entryStep, hfield] at hturn
    simp only [fillEntry, EntryFits, hfield]
    exact (hturn (.pure trivial)).congr (by simp)
  | some r =>
    obtain ⟨i, field⟩ := r
    simp only [entryStep, hfield] at hturn
    simp only [fillEntry, EntryFits, hfield]
    refine (ends_field hvisit hv hdepth hturn).congr (and_congr_right fun _ => ?_)
    simp

/-- The entries that are still to come, and the end of the frame. -/
theorem ends_entries (hvisit : Visits R E limit n) {todo : Entries δ} {b : Bool}
    {ks : List (Val δ)} (hcursor : Cursor E es todo b ks)
    (hkeys : ((E.order es).map Prod.fst).Nodup) (hroom : below.length + 2 ≤ limit)
    (hv : ∀ e ∈ todo, e.2.Ok ∧ e.2.depth ≤ n) :
    Ends (step R E limit) .returned
      ⟨ks ++ .table es :: below, ⟨p, fields, below.length + 1, b, m⟩ :: rest, package⟩
      ⟨popFrame p m (.table es :: below), rest,
        todo.foldl (fillEntry R E (fill R E n) fields p) package⟩
      (∀ e ∈ todo, EntryFits R E limit (Fillable R E limit n) fields (below.length + 1) e) := by
  induction todo generalizing b ks package with
  | nil =>
    refine .head ?_ (.refl (by simp))
    rw [step_cursor hcursor hkeys hroom]
    rfl
  | cons e todo ih =>
    obtain ⟨he, htodo⟩ := List.forall_mem_cons.mp hv
    refine (Ends.seq (ends_entry hvisit hcursor hkeys hroom he.1 he.2) fun _ => ?_).congr
      List.forall_mem_cons.symm
    exact ih hcursor.succ htodo

end Visit

variable {R E limit}

/-- **Visiting a table**: the traversal of a table ends exactly if the table is fillable; it fills
the message the frame points to. -/
theorem visits (hE : E.Lawful) (n : Nat) : Visits R E limit n := by
  induction n with
  | zero =>
    intro es _ hdepth
    rw [Val.depth] at hdepth
    omega
  | succ n ih =>
    intro es hok hdepth fields below p m rest package
    by_cases hroom : below.length + 2 ≤ limit
    · have hkeys : ((E.order es).map Prod.fst).Nodup :=
        ((hE.order_perm es).map Prod.fst).nodup_iff.mpr hok.keys
      have hv : ∀ e ∈ E.order es, e.2.Ok ∧ e.2.depth ≤ n := by
        intro e he
        have hmem := (hE.order_perm es).mem_iff.mp he
        have hlt := depth_lt hmem
        exact ⟨hok.entry hmem, by omega⟩
      refine (ends_entries ih Cursor.first hkeys hroom hv).congr ?_
      simp only [Fillable, (hE.order_perm es).mem_iff]
      exact (and_iff_right hroom).symm
    · have hfull : step R E limit ⟨.table es :: below,
          ⟨p, fields, below.length + 1, true, m⟩ :: rest, package⟩ = .error .stackOverflow := by
        simp only [step, if_true, push, List.length_cons, if_neg hroom]
        rfl
      exact .stuck hfull (by decide) fun h => hroom h.1

/-! ## The function -/

variable (R E limit) in
/-- `lua2protobuf_nostack`, called with a Lua stack and a message, returns and leaves others. -/
def Finishes (fields : List (FieldOf τ)) (lua : List (Val δ)) (package : σ) (lua' : List (Val δ))
    (package' : σ) : Prop :=
  Halts (step R E limit) .returned (start fields lua package) ⟨lua', [], package'⟩

variable {fields : List (FieldOf τ)} {es : Entries δ} {package : σ}

/-- `lua2protobuf_nostack`, called with a table alone on the stack, returns exactly if the table is
fillable, and then with the stack as it was and the message filled. -/
theorem finishes_iff (hE : E.Lawful) (hok : (Val.table es).Ok) {n : Nat}
    (hn : (Val.table es).depth ≤ n) (lua' : List (Val δ)) (package' : σ) :
    Finishes R E limit fields [.table es] package lua' package' ↔
      Fillable R E limit n fields 1 es ∧
        lua' = [.table es] ∧ package' = fill R E n fields [] es package := by
  have hends : Ends (step R E limit) .returned (start fields [.table es] package)
      ⟨[.table es], [], fill R E n fields [] es package⟩ _ :=
    visits hE n es hok hn fields [] [] 0 [] package
  refine (hends.halts_iff rfl).trans (and_congr_right fun _ => ?_)
  simp only [State.mk.injEq, true_and]

end FromLua

end Avant.Lua
