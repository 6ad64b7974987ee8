import Avant.Lib.Binary64
import Avant.Lib.CString
import Avant.Lib.Limbs

/-!
# Big integers in Lua

Model of `bin/lua/Numeric/NumericBigIntLogic.lua`. A `NumericBigInt` is a sign and a list of chunks
of seven decimal digits, the lowest chunk first. Every number that the script computes is a double,
so the functions are computations of `Lib/Binary64.lean`: each result of an operation on chunks
and signs is rounded, and `math.floor` of a quotient takes the floor of a rounded quotient. An
integer of Lua 5.3 and later holds the same value as long as the values stay below `2 ^ 53`.

Loops over chunks are recursions over their lists, from the low end or, where the script counts
down, over the reversed list. The `while` loops have a number of turns and stop as `exhausted` if
it does not suffice. A copy of a big integer is the big integer. Left out are the counters of the
loops, a chunk that is not made of digits (`tonumber` then answers `nil` or reads another
notation), and the limits of the Lua state: its memory, and the stack that `unpack` copies through.

* `denote`: the integer a big integer stands for.
* `Normal`: chunks in range and no zero chunk at the high end, as the operations need it;
  `Canonical`: besides, zero has the sign `1`.
* `compare_spec`: comparison of canonical big integers is comparison of the integers.
-/

namespace Avant.Numeric

open Avant.Lib Avant.Lib.Binary64 Avant.Lib.Limbs

/-- `CHUNK_SIZE` -/
def chunkSize : Nat := 7

/-- `BASE` -/
def base : ℤ := 10 ^ 7

/-- `NumericBigInt` -/
structure BigInt where
  chunks : List ℤ
  sign : ℤ
  deriving DecidableEq

namespace BigInt

/-- The value without the sign. -/
def mag (x : BigInt) : ℤ := val base x.chunks

/-- The integer the chunks and the sign stand for. -/
def denote (x : BigInt) : ℤ := x.sign * x.mag

/-- `NumericBigInt:IsZero` -/
def isZero (x : BigInt) : Bool := x.chunks = [0]

/-- `NumericBigInt:Trim` -/
def trim (x : BigInt) : BigInt :=
  let chunks := (trimLoop x.chunks.reverse).reverse
  ⟨chunks, if chunks = [0] then 1 else x.sign⟩

/-! ## Construction -/

/-- `tonumber` of a run of digits. -/
def tonumber (s : Bytes) : Calc ℤ :=
  if s ≠ [] ∧ s.all Decimal.isDigit then .number (Decimal.digitsValue s)
  else .raise "not a run of digits"

/-- The loop of `FromString`, over the reversed string. -/
def chunkLoop : Nat → Bytes → Calc (List ℤ)
  | 0, _ => pure []
  | turns + 1, rev => do
    let c ← tonumber (rev.take chunkSize).reverse
    let cs ← chunkLoop turns (rev.drop chunkSize)
    pure (c :: cs)

/-- `NumericBigInt:FromString` -/
def fromString (str : Bytes) : Calc BigInt := do
  let str := str.filter fun c => !isSpace c
  if str = [] then pure ⟨[0], 1⟩
  else
    let sign : ℤ := if str.head? = some 0x2D then -1 else 1
    let str := if str.head? = some 0x2D ∨ str.head? = some 0x2B then str.tail else str
    let str := str.dropWhile (· = 0x30)
    let str := if str = [] then [0x30] else str
    let chunks ← chunkLoop ((str.length + chunkSize - 1) / chunkSize) str.reverse
    pure ⟨chunks, sign⟩

/-- The loop of `FromNumber`. -/
def numberLoop : Nat → ℤ → Calc (List ℤ)
  | 0, _ => .exhausted
  | fuel + 1, num =>
    if num > 0 then do
      let c ← Calc.mod num base
      let num ← Calc.floorDiv num base
      let cs ← numberLoop fuel num
      pure (c :: cs)
    else pure []

/-- `NumericBigInt:FromNumber` -/
def fromNumber (num : ℤ) : Calc BigInt :=
  if num = 0 then pure ⟨[0], 1⟩
  else do
    let sign : ℤ := if num < 0 then -1 else 1
    let chunks ← numberLoop (num.natAbs + 1) num.natAbs
    pure ⟨chunks, sign⟩

/-! ## Texts -/

/-- `string.format("%.0f", c)` -/
def formatChunk (c : ℤ) : Bytes := Decimal.intText c

/-- `string.format("%07.0f", c)` -/
def formatPadded (c : ℤ) : Bytes :=
  let digits := Decimal.decimal c.natAbs
  if c < 0 then 0x2D :: (List.replicate (chunkSize - 1 - digits.length) 0x30 ++ digits)
  else List.replicate (chunkSize - digits.length) 0x30 ++ digits

/-- `NumericBigInt:ToString` -/
def toString (x : BigInt) : Bytes :=
  match x.chunks.reverse with
  | [] => [0x30]
  | top :: rest =>
    if rest = [] ∧ top = 0 then [0x30]
    else (if x.sign = -1 then [0x2D] else []) ++ formatChunk top ++ rest.flatMap formatPadded

/-! ## Comparison -/

/-- `NumericBigInt:CompareAbs` -/
def compareAbs (x y : BigInt) : ℤ :=
  if x.chunks.length > y.chunks.length then 1
  else if x.chunks.length < y.chunks.length then -1
  else compareLoop x.chunks.reverse y.chunks.reverse

/-- `NumericBigInt:Compare` -/
def compare (x y : BigInt) : Calc ℤ :=
  if x.sign ≠ y.sign then pure x.sign else Calc.mul x.sign (x.compareAbs y)

/-- `NumericBigInt:__eq` -/
def eq (x y : BigInt) : Calc Bool := do
  let c ← x.compare y
  pure (c = 0)

/-- `NumericBigInt:__lt` -/
def lt (x y : BigInt) : Calc Bool := do
  let c ← x.compare y
  pure (c < 0)

/-- `NumericBigInt:__le` -/
def le (x y : BigInt) : Calc Bool := do
  let c ← x.compare y
  pure (c ≤ 0)

/-! ## Sums -/

/-- The loop of `AddAbs`, and the chunk for the last carry. -/
def addLoop : Nat → List ℤ → List ℤ → ℤ → Calc (List ℤ)
  | 0, _, _, carry => if carry > 0 then pure [carry] else pure []
  | len + 1, xs, ys, carry => do
    let sum ← Calc.add (xs.headD 0) (ys.headD 0)
    let sum ← Calc.add sum carry
    if sum ≥ base then do
      let sum ← Calc.sub sum base
      let rest ← addLoop len xs.tail ys.tail 1
      pure (sum :: rest)
    else do
      let rest ← addLoop len xs.tail ys.tail 0
      pure (sum :: rest)

/-- `NumericBigInt:AddAbs` -/
def addAbs (x y : BigInt) : Calc BigInt := do
  let chunks ← addLoop (max x.chunks.length y.chunks.length) x.chunks y.chunks 0
  pure ⟨chunks, 1⟩

/-- The loop of `SubAbs`. -/
def subLoop : List ℤ → List ℤ → ℤ → Calc (List ℤ)
  | [], _, _ => pure []
  | x :: xs, ys, borrow => do
    let diff ← Calc.sub x (ys.headD 0)
    let diff ← Calc.sub diff borrow
    if diff < 0 then do
      let diff ← Calc.add diff base
      let rest ← subLoop xs ys.tail 1
      pure (diff :: rest)
    else do
      let rest ← subLoop xs ys.tail 0
      pure (diff :: rest)

/-- `NumericBigInt:SubAbs` -/
def subAbs (x y : BigInt) : Calc BigInt := do
  let chunks ← subLoop x.chunks y.chunks 0
  pure (trim ⟨chunks, 1⟩)

/-- `NumericBigInt:__add` -/
def add (x y : BigInt) : Calc BigInt :=
  if x.sign = y.sign then do
    let res ← x.addAbs y
    pure ⟨res.chunks, x.sign⟩
  else if x.compareAbs y ≥ 0 then do
    let res ← x.subAbs y
    pure ⟨res.chunks, x.sign⟩
  else do
    let res ← y.subAbs x
    pure ⟨res.chunks, y.sign⟩

/-- `NumericBigInt:__sub` -/
def sub (x y : BigInt) : Calc BigInt := do
  let sign ← Calc.number (-y.sign)
  x.add ⟨y.chunks, sign⟩

/-- `NumericBigInt:__unm` -/
def unm (x : BigInt) : Calc BigInt := do
  let sign ← Calc.number (-x.sign)
  pure ⟨x.chunks, sign⟩

/-! ## Products -/

/-- The inner loop of `__mul`: adds the product of a chunk and `ys` to the chunks of the result
from that chunk's place on, and the last carry behind them. -/
def mulRow (x : ℤ) : List ℤ → List ℤ → ℤ → Calc (List ℤ)
  | [], rs, carry =>
    if carry > 0 then do
      let r ← Calc.add (rs.headD 0) carry
      pure (r :: rs.tail)
    else pure rs
  | y :: ys, rs, carry => do
    let prod ← Calc.mul x y
    let prod ← Calc.add prod (rs.headD 0)
    let prod ← Calc.add prod carry
    let r ← Calc.mod prod base
    let carry ← Calc.floorDiv prod base
    let rest ← mulRow x ys rs.tail carry
    pure (r :: rest)

/-- The outer loop of `__mul`, with the chunks of the result from the place of the next chunk on;
the chunks below it do not change any more. -/
def mulLoop : List ℤ → List ℤ → List ℤ → Calc (List ℤ)
  | [], _, rs => pure rs
  | x :: xs, ys, rs => do
    let rs ← mulRow x ys rs 0
    let rest ← mulLoop xs ys rs.tail
    pure (rs.headD 0 :: rest)

/-- `NumericBigInt:__mul` -/
def mul (x y : BigInt) : Calc BigInt :=
  if x.isZero ∨ y.isZero then fromNumber 0
  else do
    let chunks ← mulLoop x.chunks y.chunks
      (List.replicate (x.chunks.length + y.chunks.length) 0)
    let sign ← Calc.mul x.sign y.sign
    pure (trim ⟨chunks, sign⟩)

/-! ## Quotients -/

/-- The loop of `DivSmall`, with the highest chunk first: the chunks of the quotient, and the
remainder. -/
def divSmallLoop (absNum : ℤ) : List ℤ → ℤ → List ℤ → Calc (List ℤ × ℤ)
  | [], remainder, res => pure (res, remainder)
  | c :: cs, remainder, res => do
    let current ← Calc.mul remainder base
    let current ← Calc.add current c
    let q ← Calc.floorDiv current absNum
    let remainder ← Calc.mod current absNum
    divSmallLoop absNum cs remainder (q :: res)

/-- `NumericBigInt:DivSmall` -/
def divSmall (x : BigInt) (num : ℤ) : Calc (BigInt × ℤ) :=
  if num = 0 then .raise "Division by zero"
  else do
    let (chunks, remainder) ← divSmallLoop num.natAbs x.chunks.reverse 0 []
    let sign ← Calc.mul x.sign (if num < 0 then -1 else 1)
    let r ← Calc.mul remainder x.sign
    pure (trim ⟨chunks, sign⟩, r)

/-- The binary search of `__div` for a chunk of the quotient. -/
def searchLoop (divisor remainder : BigInt) : Nat → ℤ → ℤ → ℤ → Calc ℤ
  | 0, _, _, _ => .exhausted
  | fuel + 1, low, high, q =>
    if low ≤ high then do
      let mid ← Calc.add low high
      let mid ← Calc.floorDiv mid 2
      let temp ← fromNumber mid
      let temp ← divisor.mul temp
      let c ← temp.compare remainder
      if c ≤ 0 then do
        let low ← Calc.add mid 1
        searchLoop divisor remainder fuel low high mid
      else do
        let high ← Calc.sub mid 1
        searchLoop divisor remainder fuel low high q
    else pure q

/-- The loop of `__div`, with the highest chunk of the dividend first. -/
def divLoop (divisor : BigInt) : List ℤ → BigInt → List ℤ → Calc (List ℤ)
  | [], _, quotient => pure quotient
  | c :: cs, remainder, quotient => do
    let remainder := trim ⟨c :: remainder.chunks, remainder.sign⟩
    let high ← Calc.sub base 1
    let q ← searchLoop divisor remainder (base.toNat + 1) 0 high 0
    let temp ← fromNumber q
    let temp ← divisor.mul temp
    let remainder ← remainder.sub temp
    divLoop divisor cs remainder (q :: quotient)

/-- `NumericBigInt:__div` -/
def div (x y : BigInt) : Calc BigInt :=
  if y.isZero then .raise "Division by zero"
  else if x.isZero then fromNumber 0
  else if x.compareAbs y < 0 then fromNumber 0
  else if y.chunks.length = 1 then do
    let num ← Calc.mul (y.chunks.headD 0) y.sign
    let (q, _) ← x.divSmall num
    pure q
  else do
    let sign ← Calc.mul x.sign y.sign
    let remainder ← fromNumber 0
    let quotient ← divLoop ⟨y.chunks, 1⟩ x.chunks.reverse remainder []
    pure (trim ⟨quotient, sign⟩)

/-- `NumericBigInt:__mod` -/
def mod (x y : BigInt) : Calc BigInt :=
  if y.isZero then .raise "Modulo by zero"
  else if y.chunks.length = 1 then do
    let num ← Calc.mul (y.chunks.headD 0) y.sign
    let (_, r) ← x.divSmall num
    fromNumber r
  else do
    let quotient ← x.div y
    let product ← quotient.mul y
    x.sub product

/-! ## Powers and common divisors -/

/-- The loop of `__pow`. -/
def powLoop : Nat → BigInt → BigInt → ℤ → Calc BigInt
  | 0, _, _, _ => .exhausted
  | fuel + 1, result, factor, n =>
    if n > 0 then do
      let bit ← Calc.mod n 2
      let result ← if bit = 1 then result.mul factor else pure result
      let factor ← factor.mul factor
      let n ← Calc.floorDiv n 2
      powLoop fuel result factor n
    else pure result

/-- `NumericBigInt:__pow` -/
def pow (x : BigInt) (exp : ℤ) : Calc BigInt :=
  if exp < 0 then .raise "Negative exponent not supported for integers"
  else if exp = 0 then fromNumber 1
  else if exp = 1 then pure x
  else do
    let result ← fromNumber 1
    powLoop (exp.toNat + 1) result x exp

/-- `NumericBigInt:Abs` -/
def abs (x : BigInt) : BigInt := ⟨x.chunks, 1⟩

/-- The loop of `GCD`. -/
def gcdLoop : Nat → BigInt → BigInt → Calc BigInt
  | 0, _, _ => .exhausted
  | fuel + 1, a, b =>
    if b.isZero then pure a
    else do
      let r ← a.mod b
      gcdLoop fuel b r

/-- `NumericBigInt:GCD` -/
def gcd (x y : BigInt) : Calc BigInt := gcdLoop (y.mag.toNat + 1) x.abs y.abs

/-! ## Shifts -/

/-- `NumericBigInt:ShiftLeft` -/
def shiftLeft (x : BigInt) (n : ℤ) : Calc BigInt :=
  if n ≤ 0 then pure x
  else do
    let fullChunks ← Calc.floorDiv n chunkSize
    let partialShift ← Calc.mod n chunkSize
    let res : BigInt := ⟨List.replicate fullChunks.toNat 0 ++ x.chunks, x.sign⟩
    if partialShift > 0 then do
      let power ← Calc.number (10 ^ partialShift.toNat)
      let factor ← fromNumber power
      res.mul factor
    else pure res

/-- The loop of `ShiftRight`, `none` where the function returns zero at once. -/
def dropLoop : Nat → List ℤ → Option (List ℤ)
  | 0, cs => some cs
  | n + 1, _ :: d :: cs => dropLoop n (d :: cs)
  | _ + 1, _ => none

/-- `NumericBigInt:ShiftRight` -/
def shiftRight (x : BigInt) (n : ℤ) : Calc BigInt :=
  if n ≤ 0 then pure x
  else do
    let fullChunks ← Calc.floorDiv n chunkSize
    let partialShift ← Calc.mod n chunkSize
    match dropLoop fullChunks.toNat x.chunks with
    | none => pure ⟨[0], 1⟩
    | some chunks =>
      if partialShift > 0 then do
        let power ← Calc.number (10 ^ partialShift.toNat)
        let factor ← fromNumber power
        let res ← div ⟨chunks, x.sign⟩ factor
        pure res.trim
      else pure (trim ⟨chunks, x.sign⟩)

/-! ## Well-formed big integers -/

/-- Chunks in range without a zero at the high end, and a sign. -/
structure Normal (x : BigInt) : Prop where
  digits : Digits base x.chunks
  trimmed : Trimmed x.chunks
  sign : x.sign = 1 ∨ x.sign = -1

/-- Chunks in range, zeros at the high end included. -/
structure Loose (x : BigInt) : Prop where
  digits : Digits base x.chunks
  nonempty : x.chunks ≠ []
  sign : x.sign = 1 ∨ x.sign = -1

/-- Besides, zero is positive. -/
structure Canonical (x : BigInt) : Prop extends Normal x where
  zero : x.mag = 0 → x.sign = 1

instance (x : BigInt) : Decidable x.Normal :=
  decidable_of_iff (Digits base x.chunks ∧ Trimmed x.chunks ∧ (x.sign = 1 ∨ x.sign = -1))
    ⟨fun h => ⟨h.1, h.2.1, h.2.2⟩, fun h => ⟨h.digits, h.trimmed, h.sign⟩⟩

instance (x : BigInt) : Decidable x.Canonical :=
  decidable_of_iff (x.Normal ∧ (x.mag = 0 → x.sign = 1))
    ⟨fun h => ⟨h.1, h.2⟩, fun h => ⟨h.toNormal, h.zero⟩⟩

theorem base_pos : 0 < base := by decide

variable {x y : BigInt} (h : x.Normal)

include h

theorem Normal.loose : x.Loose := ⟨h.digits, h.trimmed.1, h.sign⟩

theorem Normal.mag_nonneg : 0 ≤ x.mag := val_nonneg h.digits

theorem Normal.natAbs_denote : (x.denote.natAbs : ℤ) = x.mag := by
  have hmag := h.mag_nonneg
  rcases h.sign with hs | hs <;> rw [denote, hs] <;> omega

theorem Normal.isZero_iff : x.isZero = true ↔ x.mag = 0 := by
  rw [isZero, decide_eq_true_iff, mag, h.trimmed.val_eq_zero h.digits]

theorem Normal.denote_eq_zero : x.denote = 0 ↔ x.mag = 0 := by
  rcases h.sign with hs | hs <;> rw [denote, hs] <;> omega

theorem Normal.isZero_iff_denote : x.isZero = true ↔ x.denote = 0 :=
  h.isZero_iff.trans h.denote_eq_zero.symm

/-- Another sign. -/
theorem Normal.withSign {s : ℤ} (hs : s = 1 ∨ s = -1) : Normal ⟨x.chunks, s⟩ :=
  ⟨h.digits, h.trimmed, hs⟩

omit h

/-- The sign of a canonical big integer is that of the integer. -/
theorem Canonical.sign_iff (h : x.Canonical) : x.sign = 1 ↔ 0 ≤ x.denote := by
  have hmag := h.mag_nonneg
  rcases h.sign with hs | hs
  · rw [denote, hs]
    omega
  · have hne : x.mag ≠ 0 := fun h0 => absurd (h.zero h0) (by omega)
    rw [denote, hs]
    omega

/-- A canonical big integer is determined by the integer it stands for. -/
theorem Canonical.eq_of_denote (hx : x.Canonical) (hy : y.Canonical)
    (h : x.denote = y.denote) : x = y := by
  have hmag : x.mag = y.mag := by
    rw [← hx.natAbs_denote, ← hy.natAbs_denote, h]
  have hchunks := hx.trimmed.eq_of_val hy.trimmed hx.digits hy.digits hmag
  have hsign : x.sign = y.sign := by
    have hxs := hx.sign_iff
    have hys := hy.sign_iff
    rw [h] at hxs
    rcases hx.sign with h1 | h1 <;> rcases hy.sign with h2 | h2 <;> omega
  obtain ⟨xc, xs⟩ := x
  obtain ⟨yc, ys⟩ := y
  simp only at hchunks hsign
  rw [hchunks, hsign]

/-- `Trim` makes canonical what is well-formed but for zeros at the high end. -/
theorem trim_spec {chunks : List ℤ} {sign : ℤ} (hd : Digits base chunks) (hne : chunks ≠ [])
    (hs : sign = 1 ∨ sign = -1) :
    (trim ⟨chunks, sign⟩).Canonical ∧ (trim ⟨chunks, sign⟩).denote = sign * val base chunks := by
  have htrim : Trimmed (trimLoop chunks.reverse).reverse := trimmed_trimLoop (by simpa using hne)
  have hdig : Digits base (trimLoop chunks.reverse).reverse :=
    Digits.reverse.mpr (Digits.reverse.mpr hd).trimLoop
  have hval : val base (trimLoop chunks.reverse).reverse = val base chunks := by
    rw [val_trimLoop, List.reverse_reverse]
  by_cases h0 : (trimLoop chunks.reverse).reverse = [0]
  · have hzero : val base chunks = 0 := by rw [← hval, h0]; rfl
    have heq : trim ⟨chunks, sign⟩ = ⟨[0], 1⟩ := by simp only [trim, h0, if_true]
    rw [heq, hzero, mul_zero]
    exact ⟨by decide, rfl⟩
  · have heq : trim ⟨chunks, sign⟩ = ⟨(trimLoop chunks.reverse).reverse, sign⟩ := by
      simp only [trim, h0, if_false]
    rw [heq]
    refine ⟨⟨⟨hdig, htrim, hs⟩, fun hmag => ?_⟩, by rw [denote, mag, hval]⟩
    exact absurd ((htrim.val_eq_zero hdig).mp hmag) h0

/-- `Trim` does not change what is canonical. -/
theorem Canonical.trim_eq (h : x.Canonical) : x.trim = x := by
  have hspec := trim_spec h.digits h.trimmed.1 h.sign
  exact hspec.1.eq_of_denote h hspec.2

theorem Normal.trim (h : x.Normal) : x.trim.Canonical ∧ x.trim.denote = x.denote :=
  trim_spec h.digits h.trimmed.1 h.sign

/-- `CompareAbs` compares the values without the signs. -/
theorem compareAbs_eq (hx : x.Normal) (hy : y.Normal) :
    x.compareAbs y = Int.sign (x.mag - y.mag) := by
  unfold compareAbs
  split
  · next hgt =>
    have := val_lt_of_length_lt hy.digits hx.digits hx.trimmed hy.trimmed.1 hgt
    exact (Int.sign_eq_one_of_pos (by unfold mag; omega)).symm
  · split
    · next hlt =>
      have := val_lt_of_length_lt hx.digits hy.digits hy.trimmed hx.trimmed.1 hlt
      exact (Int.sign_eq_neg_one_of_neg (by unfold mag; omega)).symm
    · next hgt hlt =>
      have hlen : x.chunks.reverse.length = y.chunks.reverse.length := by
        simp only [List.length_reverse]
        omega
      rw [compareLoop_eq (Digits.reverse.mpr hx.digits) (Digits.reverse.mpr hy.digits) hlen,
        List.reverse_reverse, List.reverse_reverse]
      rfl

/-- **`Compare`** compares the integers. -/
theorem compare_spec (hx : x.Canonical) (hy : y.Canonical) :
    (x.compare y).Yields (· = Int.sign (x.denote - y.denote)) := by
  have hxs := hx.sign_iff
  have hys := hy.sign_iff
  unfold compare
  refine .ite (fun hne => ?_) fun heq => ?_
  · rcases hx.sign with h1 | h1
    · have hlt : y.denote < 0 := by omega
      exact .pure (by rw [h1, Int.sign_eq_one_of_pos (by omega)])
    · have hlt : x.denote < 0 := by omega
      have hle : 0 ≤ y.denote := hys.mp (hy.sign.resolve_right (by omega))
      exact .pure (by rw [h1, Int.sign_eq_neg_one_of_neg (by omega)])
  · have hsame : y.sign = x.sign := by omega
    rw [compareAbs_eq hx.toNormal hy.toNormal, denote, denote, hsame, ← mul_sub, Int.sign_mul]
    have hsign : Int.sign x.sign = x.sign := by rcases hx.sign with h | h <;> rw [h] <;> rfl
    rw [hsign]
    refine .mul ?_
    rw [← hsign, ← Int.sign_mul]
    rcases Int.sign_trichotomy (x.sign * (x.mag - y.mag)) with h | h | h <;> rw [h] <;> decide

theorem fromNumber_zero : fromNumber 0 = pure ⟨[0], 1⟩ := rfl

theorem canonical_zero : Canonical ⟨[0], 1⟩ := by decide

theorem denote_zero : denote ⟨[0], 1⟩ = 0 := rfl

/-- The chunks of a positive number. -/
theorem numberLoop_spec (fuel : Nat) {num : ℤ} (h0 : 0 ≤ num) (hlt : num < 2 ^ 53)
    (hfuel : num < fuel) :
    (numberLoop fuel num).Yields fun cs =>
      Digits base cs ∧ val base cs = num ∧ cs.getLast? ≠ some 0 := by
  induction fuel generalizing num with
  | zero => exact absurd hfuel (by omega)
  | succ fuel ih =>
    unfold numberLoop
    refine .ite (fun hpos => ?_) fun hpos => ?_
    · have hdm := Int.emod_add_mul_ediv num base
      have hmod := Int.emod_nonneg num base_pos.ne'
      have hmod' := Int.emod_lt_of_pos num base_pos
      have hdiv : 0 ≤ num / base := Int.ediv_nonneg h0 base_pos.le
      have hless : num / base < num := Int.ediv_lt_self_of_pos_of_ne_one (by omega) (by decide)
      refine (Calc.Yields.mod base_pos (by decide)).andThen ?_
      refine (Calc.Yields.floorDiv h0 hlt base_pos (by decide)).andThen ?_
      refine (ih hdiv (by omega) (by push_cast at hfuel; omega)).bind ?_
      rintro cs ⟨hd, hval, hlast⟩
      refine .pure ⟨Digits.cons.mpr ⟨⟨hmod, hmod'⟩, hd⟩, by rw [val_cons, hval, hdm], ?_⟩
      cases cs with
      | nil =>
        -- the highest chunk is the whole number
        simp only [val_nil] at hval
        rw [← hval, mul_zero, add_zero] at hdm
        rw [List.getLast?_singleton, hdm]
        exact fun h => absurd (Option.some.inj h) (by omega)
      | cons c cs => simpa using hlast
    · exact .pure ⟨Digits.nil, by rw [val_nil]; omega, by simp⟩

/-- `FromNumber` -/
theorem fromNumber_spec {num : ℤ} (h : |num| < 2 ^ 53) :
    (fromNumber num).Yields fun x => x.Canonical ∧ x.denote = num := by
  unfold fromNumber
  refine .ite (fun h0 => ?_) fun h0 => ?_
  · subst h0
    exact .pure ⟨canonical_zero, rfl⟩
  · have habs : (num.natAbs : ℤ) = |num| := Int.natCast_natAbs num
    refine (numberLoop_spec _ (by omega) (by omega) (by push_cast; omega)).bind ?_
    rintro cs ⟨hd, hval, hlast⟩
    have hne : cs ≠ [] := by
      rintro rfl
      simp only [val_nil] at hval
      omega
    have hs : (if num < 0 then (-1 : ℤ) else 1) * num.natAbs = num := by
      split <;> omega
    refine .pure ⟨⟨⟨hd, ⟨hne, fun _ => hlast⟩, ?_⟩, fun hmag => ?_⟩, ?_⟩
    · by_cases hneg : num < 0 <;> simp [hneg]
    · exact absurd (hval.symm.trans hmag) (by omega)
    · rw [denote, mag, hval, hs]

end BigInt

end Avant.Numeric
