import Avant.Json.Parser

/-!
# What the parser's tokens are

`scan_number` and `parse_string` against the grammar of numbers and strings. Each function has
two statements: what it returns has a spelling in the grammar (a `Yields`, which says as well that
the turns suffice), and every spelling of the grammar is read to its end, if what follows cannot
be taken for a continuation of it (`NumberEnd`).

* `scanNumber_sound`, `scanNumber_bytes`: the scanner takes exactly the numbers of the grammar.
* `parseNumber_eq`, `parseNumber_yields`: a number becomes what `numberValue` says, or is out of range.
* `parseString_yields`, `parseString_strBytes`: a string body is read as `Decodes` says.
-/

namespace Avant.Json

open Avant.Lib Avant.Lib.Decimal Avant.Lib.Rfc8259

/-! ## White space -/

theorem isWhiteSpace_eq (c : UInt8) : isWhiteSpace c = isWs c := by
  simp only [isWhiteSpace, isWs]
  cases decide (c = 0x20) <;> cases decide (c = 0x0D) <;> cases decide (c = 0x0A) <;>
    cases decide (c = 0x09) <;> rfl

theorem skipWhiteSpaces_split (s : Bytes) : ∃ w, Ws w ∧ s = w ++ skipWhiteSpaces s := by
  refine ⟨s.takeWhile isWhiteSpace, ?_, List.takeWhile_append_dropWhile.symm⟩
  intro b hb
  rw [← isWhiteSpace_eq]
  exact List.all_eq_true.mp List.all_takeWhile b hb

variable {s ds rest text : Bytes} {c : UInt8}

theorem skipWhiteSpaces_append {w : Bytes} (hw : Ws w) :
    skipWhiteSpaces (w ++ s) = skipWhiteSpaces s := by
  refine List.dropWhile_append_of_pos ?_
  intro b hb
  rw [isWhiteSpace_eq]
  exact hw b hb

theorem skipWhiteSpaces_cons (hc : isWs c = false) : skipWhiteSpaces (c :: s) = c :: s := by
  rw [skipWhiteSpaces, List.dropWhile_cons_of_neg]
  simp [isWhiteSpace_eq, hc]

theorem getNextToken_yields (s : Bytes) :
    Yields (getNextToken s) fun r => ∃ w, Ws w ∧ s = w ++ r.1 :: r.2 := by
  obtain ⟨w, hw, hs⟩ := skipWhiteSpaces_split s
  rw [getNextToken]
  generalize skipWhiteSpaces s = t at hs
  cases t with
  | nil => exact .threw _
  | cons ch t => exact ⟨w, hw, hs⟩

theorem getNextToken_of_skip {t : Bytes} (h : skipWhiteSpaces s = c :: t) :
    getNextToken s = .ok (c, t) := by
  rw [getNextToken, h]

theorem getNextToken_append {w : Bytes} (hw : Ws w) (hc : isWs c = false) :
    getNextToken (w ++ c :: s) = .ok (c, s) :=
  getNextToken_of_skip ((skipWhiteSpaces_append hw).trans (skipWhiteSpaces_cons hc))

/-! ## Numbers -/

theorem scanDigits_append (s : Bytes) : (scanDigits s).1 ++ (scanDigits s).2 = s :=
  List.takeWhile_append_dropWhile

theorem isDigit_of_mem_scanDigits : ∀ b ∈ (scanDigits s).1, isDigit b = true :=
  List.all_eq_true.mp List.all_takeWhile

theorem scanDigits_bytes (hds : ∀ b ∈ ds, isDigit b = true) (hrest : rest.head?.any isDigit = false) :
    scanDigits (ds ++ rest) = (ds, rest) := by
  have hstop : rest.takeWhile isDigit = [] ∧ rest.dropWhile isDigit = rest := by
    cases rest with
    | nil => exact ⟨rfl, rfl⟩
    | cons c rest =>
      have hc : ¬ isDigit c = true := by simpa using hrest
      exact ⟨List.takeWhile_cons_of_neg hc, List.dropWhile_cons_of_neg hc⟩
  rw [scanDigits, List.takeWhile_append_of_pos hds, List.dropWhile_append_of_pos hds, hstop.1,
    hstop.2, List.append_nil]

theorem scanDigits1_sound (h : scanDigits1 s = some (ds, rest)) :
    s = ds ++ rest ∧ ∃ x : Digits, x.bytes = ds := by
  rw [scanDigits1] at h
  split at h
  · next hhead =>
    have hs : scanDigits s = (ds, rest) := Option.some.inj h
    have hsplit := scanDigits_append s
    have hdig := isDigit_of_mem_scanDigits (s := s)
    rw [hs] at hsplit hdig
    refine ⟨hsplit.symm, ⟨ds, ?_, hdig⟩, rfl⟩
    rintro rfl
    cases s with
    | nil => simp at hhead
    | cons c s =>
      have hc : isDigit c = true := by simpa using hhead
      have := congrArg Prod.fst hs
      rw [scanDigits, List.takeWhile_cons_of_pos hc] at this
      cases this
  · cases h

theorem scanDigits1_bytes (x : Digits) (hrest : rest.head?.any isDigit = false) :
    scanDigits1 (x.bytes ++ rest) = some (x.bytes, rest) := by
  have hhead : (x.bytes ++ rest).head?.any isDigit = true := by
    have hne := x.nonempty
    have hdig := x.digits
    generalize x.bytes = ds at hne hdig
    cases ds with
    | nil => exact absurd rfl hne
    | cons d ds => exact hdig d (by simp)
  rw [scanDigits1, if_pos hhead, scanDigits_bytes x.digits hrest]

theorem scanInt_sound {int : Bytes} (h : scanInt s = some (int, rest)) :
    s = int ++ rest ∧ ∃ x : Digits, x.bytes = int ∧ (int.head? = some 0x30 → int = [0x30]) := by
  cases s with
  | nil => cases h
  | cons c s =>
    rw [scanInt] at h
    split at h
    · next hc =>
      split at h
      · cases h
      · obtain ⟨rfl, rfl⟩ : [c] = int ∧ s = rest := by simpa using h
        subst hc
        exact ⟨rfl, Digits.zero, rfl, fun _ => rfl⟩
    · next hc =>
      split at h
      · next hrange =>
        obtain ⟨rfl, rfl⟩ : c :: (scanDigits s).1 = int ∧ (scanDigits s).2 = rest := by
          simpa using h
        have hdig : isDigit c = true := by
          simp only [isDigit, Bool.and_eq_true, decide_eq_true_eq]
          exact ⟨UInt8.le_trans (by decide) hrange.1, hrange.2⟩
        refine ⟨by rw [List.cons_append, scanDigits_append], ⟨_, by simp, ?_⟩, rfl, ?_⟩
        · intro b hb
          rcases List.mem_cons.mp hb with rfl | hb
          · exact hdig
          · exact isDigit_of_mem_scanDigits b hb
        · intro h0
          exact absurd (by simpa using h0) hc
      · cases h

theorem scanInt_bytes {x : Digits} (h0 : x.bytes.head? = some 0x30 → x.bytes = [0x30])
    (hrest : rest.head?.any isDigit = false) :
    scanInt (x.bytes ++ rest) = some (x.bytes, rest) := by
  obtain ⟨ds, hne, hdig⟩ := x
  cases ds with
  | nil => exact absurd rfl hne
  | cons d ds =>
    simp only [List.cons_append, scanInt]
    split
    · next hd =>
      subst hd
      obtain rfl : ds = [] := by simpa using h0 rfl
      rw [List.nil_append, if_neg (by simp [hrest])]
    · next hd =>
      have hd' := isDigit_toNat (hdig d (by simp))
      have hne0 : d.toNat ≠ 48 := fun h => hd (UInt8.toNat_inj.mp h)
      have hrange : 0x31 ≤ d ∧ d ≤ 0x39 := by
        simp only [UInt8.le_iff_toNat_le]
        exact ⟨by simp; omega, hd'.2⟩
      rw [if_pos hrange, scanDigits_bytes (fun b hb => hdig b (by simp [hb])) hrest]

theorem scanFrac_sound {frac : Bytes} (h : scanFrac s = some (frac, rest)) :
    s = frac ++ rest ∧
      ∃ x : Option Digits, (x.map fun ds => 0x2E :: ds.bytes).getD [] = frac := by
  cases s with
  | nil =>
    obtain ⟨rfl, rfl⟩ : [] = frac ∧ [] = rest := by simpa [scanFrac] using h
    exact ⟨rfl, none, rfl⟩
  | cons c s =>
    rw [scanFrac] at h
    split at h
    · next hc =>
      obtain ⟨⟨ds, t⟩, hds, hr⟩ := Option.map_eq_some_iff.mp h
      obtain ⟨rfl, rfl⟩ : c :: ds = frac ∧ t = rest := by simpa using hr
      obtain ⟨rfl, x, rfl⟩ := scanDigits1_sound hds
      subst hc
      exact ⟨rfl, some x, rfl⟩
    · obtain ⟨rfl, rfl⟩ : [] = frac ∧ c :: s = rest := by simpa using h
      exact ⟨rfl, none, rfl⟩

theorem scanExp_sound {exp : Bytes} (h : scanExp s = some (exp, rest)) :
    s = exp ++ rest ∧ ∃ x : Option Exponent, (x.map Exponent.bytes).getD [] = exp := by
  cases s with
  | nil =>
    obtain ⟨rfl, rfl⟩ : [] = exp ∧ [] = rest := by simpa [scanExp] using h
    exact ⟨rfl, none, rfl⟩
  | cons c s =>
    rw [scanExp] at h
    split at h
    · next hc =>
      have hsign : ∃ o : Option UInt8, (∀ b ∈ o, b = 0x2B ∨ b = 0x2D) ∧
          o.toList = (scanSign s).1 ∧ s = o.toList ++ (scanSign s).2 := by
        cases s with
        | nil => exact ⟨none, by simp, rfl, rfl⟩
        | cons b s =>
          rw [scanSign]
          split
          · next hb => exact ⟨some b, by simpa using hb, rfl, rfl⟩
          · exact ⟨none, by simp, rfl, rfl⟩
      obtain ⟨o, ho, hfst, hs⟩ := hsign
      obtain ⟨⟨ds, t⟩, hds, hr⟩ := Option.map_eq_some_iff.mp h
      obtain ⟨rfl, rfl⟩ : c :: ((scanSign s).1 ++ ds) = exp ∧ t = rest := by simpa using hr
      obtain ⟨ht, x, rfl⟩ := scanDigits1_sound hds
      have hE : c = 0x65 ∨ c = 0x45 := by simpa [isExponentChar] using hc
      refine ⟨?_, some ⟨c, hE, o, ho, x⟩, ?_⟩
      · rw [List.cons_append, List.append_assoc, ← ht, ← hfst, ← hs]
      · simp [Exponent.bytes, hfst]
    · obtain ⟨rfl, rfl⟩ : [] = exp ∧ c :: s = rest := by simpa using h
      exact ⟨rfl, none, rfl⟩

/-- What the scanner returns is a number at the front of the text. -/
theorem scanNumber_sound {sign : Bool} (h : scanNumber s = some (sign, text, rest)) :
    ∃ x : Number, x.minus = sign ∧ x.bytes = text ∧ s = text ++ rest := by
  rw [scanNumber] at h
  generalize hsign : decide (s.head? = some 0x2D) = b at h
  have hs : s = (if b then [0x2D] else []) ++ (if b then s.tail else s) := by
    cases b with
    | false => simp
    | true =>
      obtain ⟨t, rfl⟩ := List.head?_eq_some_iff.mp (of_decide_eq_true hsign)
      rfl
  generalize (if b then s.tail else s) = s1 at h hs
  obtain ⟨⟨int, s2⟩, hint, h⟩ := Option.bind_eq_some_iff.mp h
  obtain ⟨⟨frac, s3⟩, hfrac, h⟩ := Option.bind_eq_some_iff.mp h
  obtain ⟨⟨exp, s4⟩, hexp, h⟩ := Option.bind_eq_some_iff.mp h
  obtain ⟨rfl, rfl, rfl⟩ :
      b = sign ∧ (if b then [0x2D] else []) ++ (int ++ (frac ++ exp)) = text ∧ s4 = rest := by
    simpa using h
  obtain ⟨rfl, x, rfl, h0⟩ := scanInt_sound hint
  obtain ⟨rfl, f, rfl⟩ := scanFrac_sound hfrac
  obtain ⟨rfl, e, rfl⟩ := scanExp_sound hexp
  refine ⟨⟨b, x, h0, f, e⟩, rfl, rfl, ?_⟩
  rw [hs]
  simp

/-- The bytes behind a number that cannot be taken for a part of it. -/
def NumberEnd (rest : Bytes) : Prop :=
  ∀ c ∈ rest.head?, isDigit c = false ∧ c ≠ 0x2E ∧ isExponentChar c = false

theorem NumberEnd.notDigit (h : NumberEnd rest) : rest.head?.any isDigit = false := by
  cases rest with
  | nil => rfl
  | cons c rest => exact (h c rfl).1

variable (x : Number)

theorem scanFrac_bytes (hpoint : 0x2E ∉ rest.head?) (hdigit : rest.head?.any isDigit = false) :
    scanFrac (x.fracBytes ++ rest) = some (x.fracBytes, rest) := by
  cases hx : x.frac with
  | none =>
    simp only [Number.fracBytes, hx, Option.map_none, Option.getD_none, List.nil_append]
    cases rest with
    | nil => rfl
    | cons c rest =>
      have hc : c ≠ 0x2E := by simpa [eq_comm] using hpoint
      rw [scanFrac, if_neg hc]
  | some ds =>
    simp only [Number.fracBytes, hx, Option.map_some, Option.getD_some, List.cons_append,
      scanFrac, if_pos, scanDigits1_bytes ds hdigit]

theorem scanExp_bytes (hrest : NumberEnd rest) :
    scanExp (x.expBytes ++ rest) = some (x.expBytes, rest) := by
  cases hx : x.exp with
  | none =>
    simp only [Number.expBytes, hx, Option.map_none, Option.getD_none, List.nil_append]
    cases rest with
    | nil => rfl
    | cons c rest => rw [scanExp, if_neg (by simp [(hrest c rfl).2.2])]
  | some ex =>
    have hE : isExponentChar ex.e = true := by simpa [isExponentChar] using ex.isE
    have hsign : scanSign (ex.sign.toList ++ (ex.digits.bytes ++ rest)) =
        (ex.sign.toList, ex.digits.bytes ++ rest) := by
      cases hs : ex.sign with
      | some b => simp [scanSign, ex.isSign b hs]
      | none =>
        have hne := ex.digits.nonempty
        have hdig := ex.digits.digits
        generalize ex.digits.bytes = ds at hne hdig
        cases ds with
        | nil => exact absurd rfl hne
        | cons d ds =>
          have hd := isDigit_toNat (hdig d (by simp))
          have hns : ¬ (d = 0x2B ∨ d = 0x2D) := by
            rintro (rfl | rfl) <;> simp at hd
          simp [scanSign, hns]
    simp only [Number.expBytes, hx, Option.map_some, Option.getD_some, Exponent.bytes,
      List.cons_append, List.append_assoc, scanExp, hE, if_true, hsign,
      scanDigits1_bytes ex.digits hrest.notDigit]

theorem expBytes_head (hrest : NumberEnd rest) :
    ∀ c ∈ (x.expBytes ++ rest).head?, isDigit c = false ∧ c ≠ 0x2E := by
  intro c hc
  cases hx : x.exp with
  | none =>
    have := hrest c (by simpa [Number.expBytes, hx] using hc)
    exact ⟨this.1, this.2.1⟩
  | some ex =>
    have : ex.e = c := by simpa [Number.expBytes, hx, Exponent.bytes] using hc
    subst this
    rcases ex.isE with h | h <;> rw [h] <;> decide

theorem fracBytes_head (hrest : NumberEnd rest) :
    (x.fracBytes ++ (x.expBytes ++ rest)).head?.any isDigit = false := by
  cases hx : x.frac with
  | none =>
    simp only [Number.fracBytes, hx, Option.map_none, Option.getD_none, List.nil_append]
    cases h : (x.expBytes ++ rest).head? with
    | none => rfl
    | some c => exact (expBytes_head x hrest c h).1
  | some ds => simp only [Number.fracBytes, hx, Option.map_some, Option.getD_some]; rfl

theorem signBytes_head (rest : Bytes) :
    decide ((x.signBytes ++ (x.int.bytes ++ rest)).head? = some 0x2D) = x.minus := by
  cases hx : x.minus with
  | true => simp [Number.signBytes, hx]
  | false =>
    have hne := x.int.nonempty
    have hdig := x.int.digits
    simp only [Number.signBytes, hx, Bool.false_eq_true, if_false, List.nil_append]
    generalize x.int.bytes = ds at hne hdig
    cases ds with
    | nil => exact absurd rfl hne
    | cons d ds =>
      have hd := isDigit_toNat (hdig d (by simp))
      simp only [List.cons_append, List.head?_cons, decide_eq_false_iff_not, Option.some.injEq]
      rintro rfl
      simp at hd

/-- The scanner takes a number to its end. -/
theorem scanNumber_bytes (hrest : NumberEnd rest) :
    scanNumber (x.bytes ++ rest) = some (x.minus, x.bytes, rest) := by
  have hassoc : x.bytes ++ rest =
      x.signBytes ++ (x.int.bytes ++ (x.fracBytes ++ (x.expBytes ++ rest))) := by
    simp [Number.bytes]
  have htail : (if x.minus = true then (x.signBytes ++ (x.int.bytes ++ (x.fracBytes ++
        (x.expBytes ++ rest)))).tail else x.signBytes ++ (x.int.bytes ++ (x.fracBytes ++
        (x.expBytes ++ rest)))) = x.int.bytes ++ (x.fracBytes ++ (x.expBytes ++ rest)) := by
    cases hx : x.minus <;> simp [Number.signBytes, hx]
  have hexp : (x.expBytes ++ rest).head?.any isDigit = false := by
    cases h : (x.expBytes ++ rest).head? with
    | none => rfl
    | some c => exact (expBytes_head x hrest c h).1
  have hpoint : 0x2E ∉ (x.expBytes ++ rest).head? := fun h => (expBytes_head x hrest _ h).2 rfl
  simp only [scanNumber, hassoc, signBytes_head, htail,
    scanInt_bytes x.noLeadingZero (fracBytes_head x hrest), scanFrac_bytes x hpoint hexp,
    scanExp_bytes x hrest, Option.pure_def, Option.bind_eq_bind, Option.bind_some]
  rfl

variable {δ : Type} (D : Doubles δ)

/-- The node of a number, `none` if the number is out of range. -/
def numberValue (x : Number) : Option (Json δ) :=
  if x.isInteger then
    if IsInt64 x.value then some (.integer x.value) else none
  else if D.isfinite (D.strtod x.bytes) then some (.double (D.strtod x.bytes))
  else none

theorem not_isInt64_of_long {x : Number} (h : 19 < x.int.bytes.length) : ¬ IsInt64 x.value := by
  have hbig : 10 ^ 19 ≤ x.value.natAbs := Number.pow_le_natAbs_value (by decide) h
  rintro ⟨hlo, hhi⟩
  omega

/-- What `parse_number` makes of a number it has scanned. -/
theorem parseNumber_eq {x : Number} (h : scanNumber s = some (x.minus, x.bytes, rest)) :
    parseNumber D s = match numberValue D x with
      | none => logicError "number out of range"
      | some v => .ok (v, rest) := by
  have hbody : (if x.minus = true then x.bytes.tail else x.bytes) =
      x.int.bytes ++ (x.fracBytes ++ x.expBytes) := by
    cases hx : x.minus <;> simp [Number.bytes, Number.signBytes, hx]
  have hdigits : (x.int.bytes ++ (x.fracBytes ++ x.expBytes)).takeWhile isDigit = x.int.bytes := by
    have hend : NumberEnd [] := by
      intro c hc
      cases hc
    have := congrArg Prod.fst (scanDigits_bytes x.int.digits (fracBytes_head x hend))
    simpa [scanDigits] using this
  have hint : (decide (x.int.bytes.length < (x.int.bytes ++ (x.fracBytes ++ x.expBytes)).length)) =
      !x.isInteger := by
    cases hf : x.frac <;> cases he : x.exp <;>
      simp [Number.isInteger, Number.fracBytes, Number.expBytes, hf, he, Exponent.bytes]
  simp only [parseNumber, h, hbody, hdigits, hint, Bool.not_not, numberValue]
  by_cases hx : x.isInteger = true
  · rw [if_pos hx, if_pos hx]
    by_cases hlong : 19 < x.int.bytes.length
    · rw [if_pos hlong, if_neg (not_isInt64_of_long hlong)]
    · have hread : strtoll x.minus x.int.bytes =
          if IsInt64 x.value then some x.value else none := rfl
      rw [if_neg hlong, hread]
      by_cases hv : IsInt64 x.value
      · rw [if_pos hv, if_pos hv]
      · rw [if_neg hv, if_neg hv]
  · rw [if_neg hx, if_neg hx]
    cases D.isfinite (D.strtod x.bytes) <;> rfl

theorem parseNumber_yields (s : Bytes) :
    Yields (parseNumber D s) fun r =>
      ∃ x : Number, numberValue D x = some r.1 ∧ s = x.bytes ++ r.2 := by
  cases h : scanNumber s with
  | none =>
    rw [parseNumber, h]
    exact .threw _
  | some r =>
    obtain ⟨sign, text, rest⟩ := r
    obtain ⟨x, rfl, rfl, hs⟩ := scanNumber_sound h
    rw [parseNumber_eq D h]
    cases hv : numberValue D x with
    | none => exact .threw _
    | some v => exact .ok ⟨x, hv, hs⟩

/-! ## Strings -/

variable {d a b : UInt8} {lo : StrChar}

theorem isHex_iff : isHex d = true ↔ nibble d < 16 := by
  simp only [isHex, hexValue, nibble, UInt8.le_iff_toNat_le, UInt8.reduceToNat]
  split_ifs <;> simp <;> omega

theorem nibble_eq (h : isHex d = true) : nibble d = (hexValue d).getD 0 := by
  simp only [isHex, hexValue, nibble, UInt8.le_iff_toNat_le, UInt8.reduceToNat] at h ⊢
  split_ifs at h ⊢ <;> simp at h ⊢ <;> omega

theorem hexLoop_yields (ds : Bytes) (value : Nat) :
    Yields (hexLoop ds value) fun r => ds.all isHex = true ∧ r = hexFold value ds := by
  induction ds generalizing value with
  | nil => exact .ok ⟨rfl, rfl⟩
  | cons d ds ih =>
    rw [hexLoop]
    refine .ite (fun _ => .threw _) ?_
    intro hd
    have hhex : isHex d = true := isHex_iff.mpr (by omega)
    refine (ih _).mono ?_
    rintro r ⟨hall, rfl⟩
    exact ⟨by simp [hhex, hall], by rw [nibble_eq hhex]; rfl⟩

theorem hexLoop_hex (h : ds.all isHex = true) (value : Nat) :
    hexLoop ds value = .ok (hexFold value ds) := by
  induction ds generalizing value with
  | nil => rfl
  | cons d ds ih =>
    obtain ⟨hd, hds⟩ : isHex d = true ∧ ds.all isHex = true := by simpa using h
    rw [hexLoop, if_neg (by have := isHex_iff.mp hd; omega), nibble_eq hd, ih hds]
    rfl

theorem unit_unicode (h : [a, b, c, d].all isHex = true) :
    (StrChar.unicode a b c d h).unit = hexFold 0 [a, b, c, d] := rfl

theorem hexDigits_yields (ended : String) (s : Bytes) :
    Yields (hexDigits ended s) fun r => ∃ a b c d, ∃ h : [a, b, c, d].all isHex = true,
      s = a :: b :: c :: d :: r.2 ∧ r.1 = (StrChar.unicode a b c d h).unit := by
  rw [hexDigits]
  refine .ite (fun _ => .threw _) ?_
  intro hlen
  match s, hlen with
  | [], hlen | [_], hlen | [_, _], hlen | [_, _, _], hlen => simp at hlen
  | a :: b :: c :: d :: s, _ =>
    refine (hexLoop_yields [a, b, c, d] 0).bind ?_
    rintro r ⟨hall, rfl⟩
    exact .ok ⟨a, b, c, d, hall, rfl, (unit_unicode hall).symm⟩

theorem hexDigits_hex (h : [a, b, c, d].all isHex = true) (ended : String) (s : Bytes) :
    hexDigits ended (a :: b :: c :: d :: s) = .ok ((StrChar.unicode a b c d h).unit, s) := by
  rw [hexDigits, if_neg (by simp)]
  simp only [List.take_succ_cons, List.take_zero, List.drop_succ_cons, List.drop_zero,
    hexLoop_hex h, unit_unicode h]
  rfl

/-- The bytes a character of a string stands for. -/
def charText : StrChar → Bytes
  | .unescaped b _ => [b]
  | .escaped b _ => (escapeByte b).toList
  | .unicode a b c d h => utf8 (StrChar.unicode a b c d h).unit

/-- What the characters between the quotation marks stand for; two escapes that form a surrogate
pair stand for one code point. -/
inductive Decodes : List StrChar → Bytes → Prop
  | nil : Decodes [] []
  | char {c : StrChar} {cs : List StrChar} {out : Bytes} :
      c.isHigh = false → c.isLow = false → Decodes cs out → Decodes (c :: cs) (charText c ++ out)
  | pair {hi lo : StrChar} {cs : List StrChar} {out : Bytes} :
      hi.isHigh = true → lo.isLow = true → Decodes cs out →
      Decodes (hi :: lo :: cs) (utf8 (surrogatePair hi.unit lo.unit) ++ out)

theorem isEscape_iff : isEscape b = true ↔ (escapeByte b).isSome = true := by
  have hletters : ascii "\"\\/bfnrt" = [0x22, 0x5C, 0x2F, 0x62, 0x66, 0x6E, 0x72, 0x74] := by
    decide
  simp only [isEscape, escapeByte, hletters, List.contains_eq_mem, List.mem_cons,
    List.not_mem_nil, or_false, decide_eq_true_eq]
  split_ifs <;> simp_all

/-- What an escape sequence can be: one character, or a surrogate pair. -/
inductive Escaped (s : Bytes) : Bytes × Bytes → Prop
  | char (c : StrChar) (rest : Bytes) : c.isHigh = false → c.isLow = false →
      0x5C :: s = c.bytes ++ rest → Escaped s (charText c, rest)
  | pair (hi lo : StrChar) (rest : Bytes) : hi.isHigh = true → lo.isLow = true →
      0x5C :: s = hi.bytes ++ (lo.bytes ++ rest) →
      Escaped s (utf8 (surrogatePair hi.unit lo.unit), rest)

theorem lowSurrogate_yields (hi : Nat) (s : Bytes) :
    Yields (lowSurrogate hi s) fun r => ∃ lo : StrChar, lo.isLow = true ∧
      s = lo.bytes ++ r.2 ∧ r.1 = surrogatePair hi lo.unit := by
  rw [lowSurrogate]
  refine .ite (fun _ => .threw _) ?_
  intro hu
  have hs : s = ascii "\\u" ++ s.drop 2 := by
    rw [← not_not.mp hu, List.take_append_drop]
  refine (hexDigits_yields _ _).bind ?_
  rintro ⟨lo, rest⟩ ⟨a, b, c, d, h, hrest, hlo⟩
  refine .ite (fun _ => .threw _) ?_
  intro hrange
  refine .ok ⟨.unicode a b c d h, ?_, ?_, ?_⟩
  · rw [StrChar.isLow, ← hlo]
    simp only [Bool.and_eq_true, decide_eq_true_eq]
    omega
  · rw [hs, hrest]
    rfl
  · rw [← hlo]

theorem unicodeEscape_yields (s : Bytes) : Yields (unicodeEscape s) (Escaped (0x75 :: s)) := by
  refine (hexDigits_yields _ _).bind ?_
  rintro ⟨hi, rest⟩ ⟨a, b, c, d, h, rfl, hhi⟩
  simp only at hhi
  subst hhi
  refine .ite ?_ ?_
  · intro hhigh
    refine (lowSurrogate_yields _ _).bind ?_
    rintro ⟨cp, rest'⟩ ⟨lo, hlo, hrest, hcp⟩
    have hhi : (StrChar.unicode a b c d h).isHigh = true := by
      simpa [StrChar.isHigh] using hhigh
    have hpair := Escaped.pair (.unicode a b c d h) lo rest' hhi hlo rfl
    rw [← hcp, ← hrest] at hpair
    exact Yields.ok hpair
  · intro hhigh
    refine .ite (fun _ => .threw _) ?_
    intro hlow
    refine Yields.ok (Escaped.char (.unicode a b c d h) rest ?_ ?_ rfl)
    · simpa [StrChar.isHigh] using hhigh
    · simpa [StrChar.isLow] using hlow

theorem escapeSequence_yields (s : Bytes) : Yields (escapeSequence s) (Escaped s) := by
  cases s with
  | nil => exact .threw _
  | cons esc s =>
    rw [escapeSequence]
    cases h : escapeByte esc with
    | some b =>
      have hesc : isEscape esc = true := isEscape_iff.mpr (by simp [h])
      have htext : charText (.escaped esc hesc) = [b] := by simp [charText, h]
      exact .ok (htext ▸ .char (.escaped esc hesc) s rfl rfl rfl)
    | none =>
      refine .ite ?_ (fun _ => .threw _)
      rintro rfl
      exact unicodeEscape_yields s

/-- A string body is read as `Decodes` says, and the turns suffice. -/
theorem stringLoop_yields {turns : Nat} {out : Bytes} (h : s.length < turns) :
    Yields (stringLoop turns out s) fun r => ∃ cs text, Decodes cs text ∧
      s = strBytes cs ++ 0x22 :: r.2 ∧ r.1 = out ++ text := by
  induction turns generalizing out s with
  | zero => omega
  | succ turns ih =>
    cases s with
    | nil => exact .threw _
    | cons ch s =>
      simp only [List.length_cons] at h
      rw [stringLoop]
      refine .ite ?_ ?_
      · rintro rfl
        exact .ok ⟨[], [], .nil, rfl, (List.append_nil _).symm⟩
      · intro hquote
        refine .ite ?_ ?_
        · intro hslash
          refine .ite (fun _ => .threw _) ?_
          intro hctl
          have hraw : isUnescaped ch = true := by
            simp only [isUnescaped, Bool.and_eq_true, decide_eq_true_eq]
            exact ⟨⟨UInt8.not_lt.mp hctl, hquote⟩, hslash⟩
          refine (ih (by omega)).mono ?_
          rintro r ⟨cs, text, hdec, rfl, hr⟩
          exact ⟨.unescaped ch hraw :: cs, [ch] ++ text, .char rfl rfl hdec, rfl, by simp [hr]⟩
        · intro hslash
          obtain rfl : ch = 0x5C := not_not.mp hslash
          refine (escapeSequence_yields s).bind ?_
          rintro _ (⟨c, rest, hhi, hlo, hs⟩ | ⟨hi, lo, rest, hhi, hlo, hs⟩)
          · have hlen := congrArg List.length hs
            have hpos := c.bytes_length_pos
            simp only [List.length_cons, List.length_append] at hlen
            refine (ih (by omega)).mono ?_
            rintro r ⟨cs, text, hdec, rfl, hr⟩
            exact ⟨c :: cs, charText c ++ text, .char hhi hlo hdec, by rw [hs]; simp [strBytes],
              by simp [hr]⟩
          · have hlen := congrArg List.length hs
            have hpos := hi.bytes_length_pos
            simp only [List.length_cons, List.length_append] at hlen
            refine (ih (by omega)).mono ?_
            rintro r ⟨cs, text, hdec, rfl, hr⟩
            exact ⟨hi :: lo :: cs, _, .pair hhi hlo hdec, by rw [hs]; simp [strBytes],
              by simp [hr]⟩

theorem parseString_yields (s : Bytes) :
    Yields (parseString s) fun r => ∃ cs, Decodes cs r.1 ∧ s = strBytes cs ++ 0x22 :: r.2 := by
  refine (stringLoop_yields (Nat.lt_succ_self _)).mono ?_
  rintro r ⟨cs, text, hdec, hs, hr⟩
  exact ⟨cs, by rw [hr]; exact hdec, hs⟩

theorem unicode_of_isHigh {c : StrChar} (h : c.isHigh = true) :
    ∃ a b d e hx, c = .unicode a b d e hx := by
  cases c with
  | unicode a b d e hx => exact ⟨a, b, d, e, hx, rfl⟩
  | unescaped | escaped => cases h

theorem unicode_of_isLow {c : StrChar} (h : c.isLow = true) :
    ∃ a b d e hx, c = .unicode a b d e hx := by
  cases c with
  | unicode a b d e hx => exact ⟨a, b, d, e, hx, rfl⟩
  | unescaped | escaped => cases h

theorem unicodeEscape_char {h : [a, b, c, d].all isHex = true}
    (hhi : (StrChar.unicode a b c d h).isHigh = false)
    (hlo : (StrChar.unicode a b c d h).isLow = false) (rest : Bytes) :
    unicodeEscape (a :: b :: c :: d :: rest) =
      .ok (utf8 (StrChar.unicode a b c d h).unit, rest) := by
  simp only [StrChar.isHigh, StrChar.isLow, Bool.and_eq_false_iff, decide_eq_false_iff_not] at hhi hlo
  rw [unicodeEscape, hexDigits_hex h]
  exact (if_neg (by omega)).trans (if_neg (by omega))

theorem lowSurrogate_char {hi : Nat} (hlo : lo.isLow = true) (rest : Bytes) :
    lowSurrogate hi (lo.bytes ++ rest) = .ok (surrogatePair hi lo.unit, rest) := by
  obtain ⟨a, b, c, d, h, rfl⟩ := unicode_of_isLow hlo
  have hrange : ¬ ((StrChar.unicode a b c d h).unit < 0xDC00 ∨
      (StrChar.unicode a b c d h).unit > 0xDFFF) := by
    simp only [StrChar.isLow, Bool.and_eq_true, decide_eq_true_eq] at hlo
    omega
  have hu : ((StrChar.unicode a b c d h).bytes ++ rest).take 2 = ascii "\\u" := rfl
  rw [lowSurrogate, if_neg (not_not.mpr hu)]
  simp only [StrChar.bytes, List.cons_append, List.nil_append, List.drop_succ_cons,
    List.drop_zero, hexDigits_hex h]
  exact if_neg hrange

theorem unicodeEscape_pair {h : [a, b, c, d].all isHex = true}
    (hhi : (StrChar.unicode a b c d h).isHigh = true) (hlo : lo.isLow = true) (rest : Bytes) :
    unicodeEscape (a :: b :: c :: d :: (lo.bytes ++ rest)) =
      .ok (utf8 (surrogatePair (StrChar.unicode a b c d h).unit lo.unit), rest) := by
  simp only [StrChar.isHigh, Bool.and_eq_true, decide_eq_true_eq] at hhi
  rw [unicodeEscape, hexDigits_hex h]
  refine (if_pos hhi).trans ?_
  rw [lowSurrogate_char hlo]
  rfl

/-- One character of a string body, a pair of surrogates apart, takes one turn. -/
theorem stringLoop_char {c : StrChar} (hhi : c.isHigh = false) (hlo : c.isLow = false)
    (turns : Nat) (out s : Bytes) :
    stringLoop (turns + 1) out (c.bytes ++ s) = stringLoop turns (out ++ charText c) s := by
  cases c with
  | unescaped b h =>
    simp only [isUnescaped, Bool.and_eq_true, decide_eq_true_eq] at h
    simp only [StrChar.bytes, List.cons_append, List.nil_append, stringLoop, if_neg h.1.2,
      if_pos h.2, if_neg (UInt8.not_lt.mpr h.1.1), charText]
  | escaped b h =>
    obtain ⟨e, he⟩ := Option.isSome_iff_exists.mp (isEscape_iff.mp h)
    simp only [StrChar.bytes, List.cons_append, List.nil_append, stringLoop, escapeSequence, he,
      charText, Option.toList_some]
    rfl
  | unicode a b d e h =>
    have hu : escapeByte 0x75 = none := by decide
    simp only [StrChar.bytes, List.cons_append, List.nil_append, stringLoop, escapeSequence, hu,
      if_true, unicodeEscape_char hhi hlo, charText]
    rfl

theorem stringLoop_pair {hi : StrChar} (hhi : hi.isHigh = true) (hlo : lo.isLow = true)
    (turns : Nat) (out s : Bytes) :
    stringLoop (turns + 1) out (hi.bytes ++ (lo.bytes ++ s)) =
      stringLoop turns (out ++ utf8 (surrogatePair hi.unit lo.unit)) s := by
  obtain ⟨a, b, c, d, h, rfl⟩ := unicode_of_isHigh hhi
  have hu : escapeByte 0x75 = none := by decide
  have hbytes : (StrChar.unicode a b c d h).bytes ++ (lo.bytes ++ s) =
      0x5C :: 0x75 :: a :: b :: c :: d :: (lo.bytes ++ s) := rfl
  rw [hbytes, stringLoop, if_neg (by decide), if_neg (by decide), escapeSequence, hu]
  simp only [if_true, unicodeEscape_pair hhi hlo, ok_bind]

/-- Every string body is read to its closing quotation mark. -/
theorem stringLoop_strBytes {cs : List StrChar} (h : Decodes cs text) {turns : Nat}
    (ht : cs.length < turns) (out rest : Bytes) :
    stringLoop turns out (strBytes cs ++ 0x22 :: rest) = .ok (out ++ text, rest) := by
  induction h generalizing turns out with
  | nil =>
    cases turns with
    | zero => omega
    | succ turns => simp [strBytes, stringLoop]
  | @char c cs text hhi hlo _ ih =>
    simp only [List.length_cons] at ht
    cases turns with
    | zero => omega
    | succ turns =>
      have hbytes : strBytes (c :: cs) ++ 0x22 :: rest =
          c.bytes ++ (strBytes cs ++ 0x22 :: rest) := by simp [strBytes]
      rw [hbytes, stringLoop_char hhi hlo, ih (by omega), List.append_assoc]
  | @pair hi lo cs text hhi hlo _ ih =>
    simp only [List.length_cons] at ht
    cases turns with
    | zero => omega
    | succ turns =>
      have hbytes : strBytes (hi :: lo :: cs) ++ 0x22 :: rest =
          hi.bytes ++ (lo.bytes ++ (strBytes cs ++ 0x22 :: rest)) := by simp [strBytes]
      rw [hbytes, stringLoop_pair hhi hlo, ih (by omega), List.append_assoc]

theorem parseString_strBytes {cs : List StrChar} (h : Decodes cs text) (rest : Bytes) :
    parseString (strBytes cs ++ 0x22 :: rest) = .ok (text, rest) := by
  refine stringLoop_strBytes h ?_ [] rest
  have : 1 * cs.length ≤ (strBytes cs).length := mul_length_le_flatMap fun c _ => c.bytes_length_pos
  simp only [List.length_append]
  omega

/-- A string can be decoded exactly when its surrogates are paired. -/
theorem decodes_iff_paired (cs : List StrChar) : (∃ text, Decodes cs text) ↔ Paired cs := by
  constructor
  · rintro ⟨text, h⟩
    induction h with
    | nil => exact .nil
    | char hhi hlo _ ih => exact .char hhi hlo ih
    | pair hhi hlo _ ih => exact .pair hhi hlo ih
  · intro h
    induction h with
    | nil => exact ⟨[], .nil⟩
    | char hhi hlo _ ih =>
      obtain ⟨text, h⟩ := ih
      exact ⟨_, .char hhi hlo h⟩
    | pair hhi hlo _ ih =>
      obtain ⟨text, h⟩ := ih
      exact ⟨_, .pair hhi hlo h⟩

end Avant.Json
