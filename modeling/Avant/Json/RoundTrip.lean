import Avant.Json.Reads

/-!
# Writing and reading back

`to_string` writes a text of the grammar that stands for the value it was given
(`toString_reads`), by induction on the value; what `parse` makes of the text then follows from
what the parser accepts.

* `parse_toString`: a value that can be built is written and read back as itself;
* `ok_of_parse`: what `parse` returns is a value that can be built;
* `parse_rewritten`: so it can be written again, and is then read as itself.
-/

namespace Avant.Json

open Avant.Lib Avant.Lib.Decimal Avant.Lib.Rfc8259

variable {δ : Type} {D : Doubles δ}

/-! ## Numbers -/

/-- The number `std::to_string` writes. -/
def integerNumber (i : Int) : Number where
  minus := i < 0
  int := ⟨decimal i.natAbs, decimal_ne_nil _, isDigit_of_mem_decimal⟩
  noLeadingZero := by
    intro h
    rcases Nat.eq_zero_or_pos i.natAbs with h0 | hpos
    · rw [h0]
      decide
    · exact absurd h (head_decimal hpos)
  frac := none
  exp := none

theorem integerNumber_bytes (i : Int) : (integerNumber i).bytes = intText i := by
  rw [Number.bytes_of_isInteger rfl, intText, Number.signBytes, integerNumber]
  by_cases h : i < 0 <;> simp [h]

theorem integerNumber_value (i : Int) : (integerNumber i).value = i := by
  simp only [Number.value, integerNumber, digitsValue_decimal, decide_eq_true_eq]
  split <;> omega

variable {n : Nat} {x : Number} {v : Json δ}

theorem reads_integer {i : Int} (h : IsInt64 i) : Reads D n (intText i) (.integer i) := by
  have hvalue : numberValue D (integerNumber i) = some (.integer i) := by
    have hi : IsInt64 (integerNumber i).value := (integerNumber_value i).symm ▸ h
    have hint : (integerNumber i).isInteger = true := rfl
    rw [numberValue, if_pos hint, if_pos hi, integerNumber_value]
  rw [← integerNumber_bytes]
  exact .number hvalue

/-- An integer with `.0` behind it. -/
def withPoint (x : Number) : Number := { x with frac := some Digits.zero }

theorem withPoint_bytes (h : x.isInteger = true) : (withPoint x).bytes = x.bytes ++ ascii ".0" := by
  have hexp : x.exp = none := by
    simp only [Number.isInteger, Bool.and_eq_true, Option.isNone_iff_eq_none] at h
    exact h.2
  rw [Number.bytes_of_isInteger h]
  simp only [Number.bytes, withPoint, Number.signBytes, Number.fracBytes, Number.expBytes, hexp,
    Option.map_none, Option.getD_none, Option.map_some, Option.getD_some, List.append_nil,
    List.append_assoc]
  rfl

theorem reads_double (hD : D.Lawful) {d : δ} (h : D.isfinite d = true) :
    ∃ t, doubleText D d = .ok t ∧ Reads D n t (.double d) := by
  obtain ⟨x, hx⟩ := hD.number d h
  have hback := hD.roundTrip d h
  rw [hx] at hback
  have hreal : ∀ y : Number, y.isInteger = false → D.strtod y.bytes = d →
      Reads D n y.bytes (.double d) := by
    intro y hy hd
    refine .number ?_
    rw [numberValue, if_neg (by simp [hy]), hd, if_pos h]
  rw [doubleText, if_neg (by simp [h]), hx]
  by_cases hpoint : 0x2E ∉ x.bytes ∧ 0x65 ∉ x.bytes ∧ 0x45 ∉ x.bytes
  · have hint := Number.isInteger_of_notMem hpoint.1 hpoint.2.1 hpoint.2.2
    refine ⟨_, congrArg Except.ok (if_pos hpoint), ?_⟩
    rw [← withPoint_bytes hint]
    refine hreal _ rfl ?_
    rw [withPoint_bytes hint, hD.point x hint, hback]
  · refine ⟨_, congrArg Except.ok (if_neg hpoint), hreal x ?_ hback⟩
    by_contra hint
    have hdig := Number.isDigit_of_isInteger (Bool.not_eq_false _ ▸ hint)
    refine hpoint ⟨?_, ?_, ?_⟩ <;> intro hmem <;> rcases hdig _ hmem with h | h <;>
      exact absurd h (by decide)

/-! ## Strings -/

theorem hex04_control : ∀ n < 32, (hex04 n).all isHex = true ∧ hexFold 0 (hex04 n) = n := by
  decide

/-- What a byte is written as: one character of a string, which stands for the byte. -/
theorem escapeChar_spec (ch : UInt8) :
    ∃ c : StrChar, c.bytes = escapeChar ch ∧ charText c = [ch] ∧ c.isHigh = false ∧
      c.isLow = false := by
  have hletter : ∀ (e : UInt8) (h : isEscape e = true), escapeChar ch = [0x5C, e] →
      escapeByte e = some ch →
      ∃ c : StrChar, c.bytes = escapeChar ch ∧ charText c = [ch] ∧ c.isHigh = false ∧
        c.isLow = false := by
    intro e h hesc hb
    exact ⟨.escaped e h, hesc.symm, by simp [charText, hb], rfl, rfl⟩
  by_cases h1 : ch = 0x22
  · subst h1
    exact hletter 0x22 (by decide) (by decide) (by decide)
  by_cases h2 : ch = 0x5C
  · subst h2
    exact hletter 0x5C (by decide) (by decide) (by decide)
  by_cases h3 : ch = 0x08
  · subst h3
    exact hletter 0x62 (by decide) (by decide) (by decide)
  by_cases h4 : ch = 0x0C
  · subst h4
    exact hletter 0x66 (by decide) (by decide) (by decide)
  by_cases h5 : ch = 0x0A
  · subst h5
    exact hletter 0x6E (by decide) (by decide) (by decide)
  by_cases h6 : ch = 0x0D
  · subst h6
    exact hletter 0x72 (by decide) (by decide) (by decide)
  by_cases h7 : ch = 0x09
  · subst h7
    exact hletter 0x74 (by decide) (by decide) (by decide)
  have hrest : escapeChar ch = if ch < 0x20 then ascii "\\u" ++ hex04 ch.toNat else [ch] := by
    simp only [escapeChar, h1, h2, h3, h4, h5, h6, h7, if_false]
  rw [hrest]
  by_cases h8 : ch < 0x20
  · have hlt : ch.toNat < 32 := UInt8.lt_iff_toNat_lt.mp h8
    obtain ⟨hall, hfold⟩ := hex04_control _ hlt
    obtain ⟨a, b, c, d, hdigits⟩ : ∃ a b c d, hex04 ch.toNat = [a, b, c, d] := ⟨_, _, _, _, rfl⟩
    rw [hdigits] at hall hfold
    have hunit : (StrChar.unicode a b c d hall).unit = ch.toNat := by rw [unit_unicode, hfold]
    refine ⟨.unicode a b c d hall, ?_, ?_, ?_, ?_⟩
    · rw [if_pos h8, hdigits]
      rfl
    · rw [charText, hunit, utf8, if_pos (by omega), UInt8.ofNat_toNat]
    · rw [StrChar.isHigh, hunit]
      simp only [Bool.and_eq_false_iff, decide_eq_false_iff_not]
      omega
    · rw [StrChar.isLow, hunit]
      simp only [Bool.and_eq_false_iff, decide_eq_false_iff_not]
      omega
  · have hraw : isUnescaped ch = true := by
      simp only [isUnescaped, Bool.and_eq_true, decide_eq_true_eq]
      exact ⟨⟨UInt8.not_lt.mp h8, h1⟩, h2⟩
    exact ⟨.unescaped ch hraw, (if_neg h8).symm, rfl, rfl, rfl⟩

/-- The text of a string is a string that stands for it. -/
theorem stringToken_quoted (s : Bytes) : ∃ cs, Decodes cs s ∧ stringToken s = quoted cs := by
  suffices ∃ cs, Decodes cs s ∧ appendEscapedBody s = strBytes cs by
    obtain ⟨cs, hdec, hbody⟩ := this
    exact ⟨cs, hdec, by rw [stringToken, quoted, hbody]⟩
  induction s with
  | nil => exact ⟨[], .nil, rfl⟩
  | cons ch s ih =>
    obtain ⟨cs, hdec, hbody⟩ := ih
    obtain ⟨c, hbytes, htext, hhi, hlo⟩ := escapeChar_spec ch
    have hdec' := Decodes.char hhi hlo hdec
    rw [htext] at hdec'
    refine ⟨c :: cs, hdec', ?_⟩
    have hsplit : appendEscapedBody (ch :: s) = escapeChar ch ++ appendEscapedBody s := rfl
    rw [hsplit, hbody, ← hbytes]
    rfl

/-! ## Arrays and objects -/

/-- The text of a value stands for the value. -/
def Written (D : Doubles δ) (n : Nat) (v : Json δ) : Prop :=
  ∃ t, v.toString D = .ok t ∧ Reads D n t v

theorem elementsLoop_reads {xs : List (Json δ)} (h : ∀ x ∈ xs, Written D n x) :
    ∃ es : List (Elem × Json δ), es.map Prod.snd = xs ∧ (∀ e ∈ es, e.1.Spaced) ∧
      (∀ e ∈ es, Reads D n e.1.text e.2) ∧
      elementsLoop D true xs = .ok (commaSeparated (es.map fun e => e.1.bytes)) ∧
      elementsLoop D false xs = .ok ((es.map fun e => e.1.bytes).flatMap fun y => 0x2C :: y) := by
  induction xs with
  | nil => exact ⟨[], rfl, by simp, by simp, by rw [elementsLoop]; rfl, by rw [elementsLoop]; rfl⟩
  | cons x xs ih =>
    obtain ⟨t, ht, hread⟩ := h x (by simp)
    obtain ⟨es, rfl, hsp, hrd, -, hloop⟩ := ih fun y hy => h y (List.mem_cons_of_mem _ hy)
    refine ⟨(⟨[], t, []⟩, x) :: es, rfl, ?_, ?_, ?_, ?_⟩
    · simpa using ⟨⟨ws_nil, ws_nil⟩, fun a b => hsp (a, b)⟩
    · simpa using ⟨hread, fun a b => hrd (a, b)⟩
    · rw [elementsLoop, ht, ok_bind, hloop, ok_bind]
      simp [commaSeparated, Elem.bytes]
    · rw [elementsLoop, ht, ok_bind, hloop, ok_bind]
      simp [Elem.bytes]

theorem membersLoop_reads {m : List (Bytes × Json δ)} (h : ∀ e ∈ m, Written D n e.2) :
    ∃ ms : List (Member × Bytes × Json δ), ms.map Prod.snd = m ∧
      (∀ e ∈ ms, e.1.Spaced ∧ Decodes e.1.name e.2.1) ∧
      (∀ e ∈ ms, Reads D n e.1.value.text e.2.2) ∧
      membersLoop D true m = .ok (commaSeparated (ms.map fun e => e.1.bytes)) ∧
      membersLoop D false m = .ok ((ms.map fun e => e.1.bytes).flatMap fun y => 0x2C :: y) := by
  induction m with
  | nil => exact ⟨[], rfl, by simp, by simp, by rw [membersLoop]; rfl, by rw [membersLoop]; rfl⟩
  | cons e m ih =>
    obtain ⟨key, x⟩ := e
    obtain ⟨t, ht, hread⟩ := h (key, x) (by simp)
    obtain ⟨cs, hdec, hkey⟩ := stringToken_quoted key
    obtain ⟨ms, rfl, hsp, hrd, -, hloop⟩ := ih fun y hy => h y (List.mem_cons_of_mem _ hy)
    refine ⟨(⟨[], cs, [], ⟨[], t, []⟩⟩, key, x) :: ms, rfl, ?_, ?_, ?_, ?_⟩
    · exact List.forall_mem_cons.mpr ⟨⟨⟨ws_nil, ws_nil, ws_nil, ws_nil⟩, hdec⟩, hsp⟩
    · exact List.forall_mem_cons.mpr ⟨hread, hrd⟩
    · rw [membersLoop, ht, ok_bind, hloop, ok_bind, hkey]
      simp [commaSeparated, Member.bytes, Elem.bytes]
    · rw [membersLoop, ht, ok_bind, hloop, ok_bind, hkey]
      simp [Member.bytes, Elem.bytes]

/-- **`to_string` writes a text of the grammar that stands for the value.** -/
theorem toString_reads (hD : D.Lawful) (h : v.Ok D n) : Written D n v := by
  induction h with
  | null => exact ⟨_, by rw [toString], .nullLit⟩
  | bool b =>
    cases b with
    | true => exact ⟨_, by rw [toString]; rfl, .trueLit⟩
    | false => exact ⟨_, by rw [toString]; rfl, .falseLit⟩
  | integer hi => exact ⟨_, by rw [toString], reads_integer hi⟩
  | double hd =>
    obtain ⟨t, ht, hread⟩ := reads_double hD hd
    exact ⟨t, by rw [toString, ht], hread⟩
  | string s =>
    obtain ⟨cs, hdec, htext⟩ := stringToken_quoted s
    exact ⟨_, by rw [toString, htext], .string hdec⟩
  | @array n xs _ ih =>
    obtain ⟨es, rfl, hsp, hrd, hloop, -⟩ := elementsLoop_reads ih
    refine ⟨_, by rw [toString, hloop, ok_bind], ?_⟩
    cases es with
    | nil => exact .emptyArray ws_nil
    | cons e es => exact .array (by simp) hsp hrd
  | @object n m hs _ ih =>
    obtain ⟨ms, rfl, hsp, hrd, hloop, -⟩ := membersLoop_reads ih
    refine ⟨_, by rw [toString, hloop, ok_bind], ?_⟩
    cases ms with
    | nil => exact .emptyObject ws_nil
    | cons e es =>
      have hread := Reads.object (by simp) hsp hrd
      have hbuild := foldl_assign ((e :: es).map Prod.snd) [] (by simpa using hs)
      rw [List.foldl_map, List.nil_append] at hbuild
      rw [hbuild] at hread
      exact hread

/-- **The round trip.** A value built from null, booleans, 64-bit integers, finite doubles, byte
strings, arrays and objects, nested at most 512 deep, has a text, and parsing the text gives the
value back: the same nodes of the same types, equal by `operator==`. -/
theorem parse_toString (hD : D.Lawful) (v : Json δ) (h : v.Ok D 512) :
    ∃ text, v.toString D = .ok text ∧ parse D text = .ok v ∧ v.operatorEq D v = true := by
  obtain ⟨t, ht, hread⟩ := toString_reads hD h
  refine ⟨t, ht, ?_, operatorEq_self hD h⟩
  exact parse_of_readsText ⟨[], t, [], ws_nil, hread, ws_nil, by simp⟩

/-- Whole doubles, each as its integer: printed by `%.17g` without point and exponent, and read up
to the point. -/
def wholeDoubles : Doubles Int where
  format := intText
  strtod text :=
    let digits := (if text.head? = some 0x2D then text.tail else text).takeWhile isDigit
    if text.head? = some 0x2D then -digitsValue digits else digitsValue digits
  isfinite _ := true
  eq a b := a == b

theorem wholeDoubles_strtod (h : x.isInteger = true) (rest : Bytes)
    (hrest : rest.head?.any isDigit = false) : wholeDoubles.strtod (x.bytes ++ rest) = x.value := by
  have hassoc : x.bytes ++ rest = x.signBytes ++ (x.int.bytes ++ rest) := by
    rw [Number.bytes_of_isInteger h, List.append_assoc]
  have hhead := signBytes_head x rest
  have hdigits := congrArg Prod.fst (scanDigits_bytes x.int.digits hrest)
  simp only [scanDigits] at hdigits
  rw [hassoc, wholeDoubles, Number.value]
  cases hm : x.minus with
  | true =>
    simp only [Number.signBytes, hm, if_true, List.singleton_append, List.head?_cons, List.tail_cons,
      hdigits]
  | false =>
    rw [hm, decide_eq_false_iff_not] at hhead
    simp only [hhead, if_false, Bool.false_eq_true]
    simp only [Number.signBytes, hm, Bool.false_eq_true, if_false, List.nil_append, hdigits]

theorem wholeDoubles_lawful : wholeDoubles.Lawful where
  number d _ := ⟨integerNumber d, (integerNumber_bytes d).symm⟩
  roundTrip d _ := by
    have hread := wholeDoubles_strtod (x := integerNumber d) rfl [] rfl
    rw [List.append_nil, integerNumber_bytes, integerNumber_value] at hread
    exact hread
  point x hx := by
    have hread := wholeDoubles_strtod hx [] rfl
    rw [List.append_nil] at hread
    rw [hread, wholeDoubles_strtod hx _ (by decide)]
  eq_self d _ := beq_self_eq_true d

/-- `[3.0, {"a": -7, "b\n": "\u0000ÿ"}, null]` -/
theorem parse_toString_nested :
    let v : Json Int := .array [.double 3,
      .object [(ascii "a", .integer (-7)), (ascii "b\n", .string [0x00, 0xFF])], .null]
    ∃ text, v.toString wholeDoubles = .ok text ∧ parse wholeDoubles text = .ok v ∧
      v.operatorEq wholeDoubles v = true := by
  refine parse_toString wholeDoubles_lawful _ (.array ?_)
  intro x hx
  simp only [List.mem_cons, List.not_mem_nil, or_false] at hx
  rcases hx with rfl | rfl | rfl
  · exact .double rfl
  · refine .object (by unfold Sorted; decide) ?_
    intro e he
    simp only [List.mem_cons, List.not_mem_nil, or_false] at he
    rcases he with rfl | rfl
    · exact .integer (by decide)
    · exact .string _
  · exact .null

/-! ## What is read can be written again -/

theorem ok_of_numberValue (h : numberValue D x = some v) : v.Ok D n := by
  rw [numberValue] at h
  split at h
  · split at h
    · next hv =>
      cases h
      exact .integer hv
    · cases h
  · split at h
    · next hd =>
      cases h
      exact .double hd
    · cases h

/-- Assigning members one after another keeps the keys in order and the values built. -/
theorem sorted_members (ms : List (Member × Bytes × Json δ)) (obj : List (Bytes × Json δ))
    (hs : Sorted obj) (hobj : ∀ e ∈ obj, e.2.Ok D n) (hms : ∀ m ∈ ms, m.2.2.Ok D n) :
    let built := ms.foldl (fun obj m => assign m.2.1 m.2.2 obj) obj
    Sorted built ∧ ∀ e ∈ built, e.2.Ok D n := by
  induction ms generalizing obj with
  | nil => exact ⟨hs, hobj⟩
  | cons m ms ih =>
    refine ih _ (hs.assign _ _) ?_ fun y hy => hms y (List.mem_cons_of_mem _ hy)
    intro e he
    rcases value_of_mem_assign he with h | h
    · exact h ▸ hms m (by simp)
    · exact hobj e h

theorem Reads.ok {t : Bytes} (h : Reads D n t v) : v.Ok D n := by
  induction h with
  | nullLit => exact .null
  | trueLit => exact .bool _
  | falseLit => exact .bool _
  | number hx => exact ok_of_numberValue hx
  | string => exact .string _
  | emptyArray => exact .array (by simp)
  | array _ _ _ ih =>
    refine .array ?_
    intro x hx
    obtain ⟨p, hp, rfl⟩ := List.mem_map.mp hx
    exact ih p hp
  | emptyObject => exact .object List.Pairwise.nil (by simp)
  | object _ _ _ ih =>
    obtain ⟨hs, hok⟩ := sorted_members _ [] List.Pairwise.nil (by simp) ih
    exact .object hs hok

/-- What `parse` returns is a value that can be built, nested at most 512 deep. -/
theorem ok_of_parse {s : Bytes} (h : parse D s = .ok v) : v.Ok D 512 := by
  obtain ⟨-, t, -, -, hread, -, -⟩ := (parse_eq_ok_iff s v).mp h
  exact hread.ok

/-- **Writing what was read** gives a text that is read as the same value, whatever text it was. -/
theorem parse_rewritten (hD : D.Lawful) {s : Bytes} (h : parse D s = .ok v) :
    ∃ text, v.toString D = .ok text ∧ parse D text = .ok v := by
  obtain ⟨t, ht, hread⟩ := toString_reads hD (ok_of_parse h)
  exact ⟨t, ht, parse_of_readsText ⟨[], t, [], ws_nil, hread, ws_nil, by simp⟩⟩

/-- A text with a key that comes twice, escapes and a double. -/
def keyTwice : Bytes := ascii "\x7b\"k\":1, \"k\":[\"\\u0041\\n\", 5.0]\x7d"

theorem parse_rewritten_escapes :
    ∃ v, parse wholeDoubles keyTwice = .ok v ∧
      v.operatorEq wholeDoubles (.object [(ascii "k", .array [.string [0x41, 0x0A], .double 5])]) =
        true ∧
      ∃ text, v.toString wholeDoubles = .ok text ∧ parse wholeDoubles text = .ok v := by
  have h : (parse wholeDoubles keyTwice).toOption.any (·.operatorEq wholeDoubles
      (.object [(ascii "k", .array [.string [0x41, 0x0A], .double 5])])) = true := by
    decide +kernel
  cases hparse : parse wholeDoubles keyTwice with
  | error e =>
    rw [hparse] at h
    cases h
  | ok v =>
    rw [hparse] at h
    exact ⟨v, rfl, h, parse_rewritten wholeDoubles_lawful hparse⟩

end Avant.Json
