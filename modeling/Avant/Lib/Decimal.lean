import Avant.Lib.BigEndian

/-!
# Decimal digits

The digits of a number as ASCII bytes, and the number they denote. `intText` is the text of an
integer as `std::to_string` writes it.

* `digitsValue_decimal`: reading the digits of a number gives the number.
* `decimal_append`: digits written behind those of a number.
* `pow_le_digitsValue`: a run of digits that does not start with zero is at least a power of ten.
-/

namespace Avant.Lib.Decimal

def isDigit (b : UInt8) : Bool := 0x30 ≤ b && b ≤ 0x39

/-- The number a run of digits denotes. -/
def digitsValue (ds : Bytes) : Nat := ds.foldl (fun n d => n * 10 + (d.toNat - 0x30)) 0

theorem isDigit_toNat {d : UInt8} (h : isDigit d = true) : 48 ≤ d.toNat ∧ d.toNat ≤ 57 := by
  simp only [isDigit, Bool.and_eq_true, decide_eq_true_eq, UInt8.le_iff_toNat_le] at h
  exact h

theorem digitsValue_snoc (ds : Bytes) (d : UInt8) :
    digitsValue (ds ++ [d]) = digitsValue ds * 10 + (d.toNat - 0x30) := by
  simp [digitsValue]

theorem digitsValue_append (ds es : Bytes) :
    digitsValue (ds ++ es) = digitsValue ds * 10 ^ es.length + digitsValue es := by
  induction es using List.reverseRecOn with
  | nil => simp [digitsValue]
  | append_singleton es e ih =>
    rw [← List.append_assoc, digitsValue_snoc, digitsValue_snoc, ih, List.length_append,
      List.length_singleton, pow_succ]
    ring

/-- A run of digits that does not start with zero is at least a power of ten. -/
theorem pow_le_digitsValue {d : UInt8} (ds : Bytes) (hd : isDigit d = true) (h0 : d ≠ 0x30) :
    10 ^ ds.length ≤ digitsValue (d :: ds) := by
  have hpos : 1 ≤ digitsValue [d] := by
    have hbound := isDigit_toNat hd
    have hne : d.toNat ≠ 48 := fun h => h0 (UInt8.toNat_inj.mp h)
    simp only [digitsValue, List.foldl_cons, List.foldl_nil]
    omega
  calc 10 ^ ds.length = 1 * 10 ^ ds.length := (Nat.one_mul _).symm
    _ ≤ digitsValue [d] * 10 ^ ds.length := Nat.mul_le_mul_right _ hpos
    _ ≤ digitsValue ([d] ++ ds) := by rw [digitsValue_append]; exact Nat.le_add_right _ _

theorem digitsValue_lt {ds : Bytes} (h : ∀ d ∈ ds, isDigit d = true) :
    digitsValue ds < 10 ^ ds.length := by
  induction ds using List.reverseRecOn with
  | nil => exact Nat.one_pos
  | append_singleton ds d ih =>
    obtain ⟨hds, hd⟩ := List.forall_mem_append.mp h
    have hlt := ih hds
    have hbound := isDigit_toNat (hd d (List.mem_singleton_self d))
    rw [digitsValue_snoc, List.length_append, List.length_singleton, pow_succ]
    omega

/-- Leading zeros do not count. -/
theorem digitsValue_dropWhile (ds : Bytes) :
    digitsValue (ds.dropWhile (· = 0x30)) = digitsValue ds := by
  induction ds with
  | nil => rfl
  | cons d ds ih =>
    rw [List.dropWhile_cons]
    split
    · next hd =>
      rw [ih, of_decide_eq_true hd]
      rfl
    · rfl

/-- The digits of `n` that `turns` divisions by ten give. -/
def decimalLoop : Nat → Nat → Bytes
  | 0, _ => []
  | turns + 1, n =>
    if n < 10 then [UInt8.ofNat (0x30 + n)]
    else decimalLoop turns (n / 10) ++ [UInt8.ofNat (0x30 + n % 10)]

/-- `n` in decimal, without leading zeros. -/
def decimal (n : Nat) : Bytes := decimalLoop (n + 1) n

theorem decimalLoop_turns {turns n : Nat} (h : n < turns) : decimalLoop turns n = decimal n := by
  suffices ∀ t t' n, n < t → n < t' → decimalLoop t n = decimalLoop t' n from
    this turns (n + 1) n h (Nat.lt_succ_self n)
  intro t
  induction t with
  | zero => intro t' n h; omega
  | succ t ih =>
    intro t' n h h'
    cases t' with
    | zero => omega
    | succ t' =>
      simp only [decimalLoop]
      split
      · rfl
      · rw [ih t' (n / 10) (by omega) (by omega)]

theorem decimal_eq (n : Nat) :
    decimal n = if n < 10 then [UInt8.ofNat (0x30 + n)]
      else decimal (n / 10) ++ [UInt8.ofNat (0x30 + n % 10)] := by
  rw [decimal, decimalLoop]
  split
  · rfl
  · rw [decimalLoop_turns (by omega)]

theorem isDigit_ofNat : ∀ {n : Nat}, n < 10 → isDigit (UInt8.ofNat (0x30 + n)) = true := by decide

theorem isDigit_of_mem_decimal {n : Nat} : ∀ b ∈ decimal n, isDigit b = true := by
  induction n using Nat.strong_induction_on with
  | _ n ih =>
    intro b hb
    rw [decimal_eq] at hb
    split at hb
    · next h =>
      obtain rfl := List.mem_singleton.mp hb
      exact isDigit_ofNat h
    · rcases List.mem_append.mp hb with hb | hb
      · exact ih (n / 10) (by omega) b hb
      · obtain rfl := List.mem_singleton.mp hb
        exact isDigit_ofNat (Nat.mod_lt n (by decide))

/-- Reading the digits of `n` gives `n`. -/
theorem digitsValue_decimal (n : Nat) : digitsValue (decimal n) = n := by
  have hdigit : ∀ k < 10, (UInt8.ofNat (0x30 + k)).toNat - 0x30 = k := by decide
  induction n using Nat.strong_induction_on with
  | _ n ih =>
    rw [decimal_eq]
    split
    · next h => simpa [digitsValue] using hdigit n h
    · rw [digitsValue_snoc, ih (n / 10) (by omega), hdigit _ (Nat.mod_lt n (by decide))]
      omega

theorem decimal_ne_nil (n : Nat) : decimal n ≠ [] := by
  rw [decimal_eq]
  split <;> simp

/-- The digits of a positive number do not start with zero. -/
theorem head_decimal {n : Nat} (h : 0 < n) : (decimal n).head? ≠ some 0x30 := by
  induction n using Nat.strong_induction_on with
  | _ n ih =>
    rw [decimal_eq]
    split
    · next hn =>
      intro h0
      have := congrArg UInt8.toNat (Option.some.inj h0)
      rw [UInt8.toNat_ofNat'] at this
      simp at this
      omega
    · have hrec := ih (n / 10) (by omega) (by omega)
      cases hd : decimal (n / 10) with
      | nil => exact absurd hd (decimal_ne_nil _)
      | cons d ds => simpa [hd] using hrec

/-- `std::to_string(long long)` -/
def intText (i : Int) : Bytes :=
  if i < 0 then 0x2D :: decimal i.natAbs else decimal i.natAbs

end Avant.Lib.Decimal
