import Mathlib.Data.Nat.Digits.Defs

/-! Numbers and bytes as text: decimal numbers that are parsed with a bound on their size, and
bytes as pairs of hexadecimal digits. -/

namespace Tarantula.Text

section Decimal

def digitByte (d : Nat) : UInt8 := UInt8.ofNat (48 + d)

def formatNat (n : Nat) : List UInt8 :=
  if n = 0 then [digitByte 0] else (Nat.digits 10 n).reverse.map digitByte

def formatInt (n : Int) : List UInt8 := if n < 0 then 45 :: formatNat n.natAbs else formatNat n.natAbs

inductive NumError
  | malformed | outOfRange
  deriving DecidableEq, Repr

def isDigit (c : UInt8) : Bool := 48 ≤ c && c ≤ 57

/-- The number that the digits put after `n` make, which stops at the first byte that is not a
digit or leads above `maxVal`. -/
def readDigits (maxVal : Nat) : Nat → List UInt8 → Except NumError Nat
  | n, [] => .ok n
  | n, c :: s =>
    if isDigit c then
      if n * 10 + (c.toNat - 48) ≤ maxVal then readDigits maxVal (n * 10 + (c.toNat - 48)) s
      else .error .outOfRange
    else .error .malformed

/-- An unsigned number, which has at least one digit. -/
def parseUint (bitSize : Nat) (s : List UInt8) : Except NumError Nat :=
  if s = [] then .error .malformed else readDigits (2 ^ bitSize - 1) 0 s

def parseInt (bitSize : Nat) (s : List UInt8) : Except NumError Int :=
  if s.head? = some 45 then
    match parseUint bitSize s.tail with
    | .error e => .error e
    | .ok n => if 2 ^ (bitSize - 1) < n then .error .outOfRange else .ok (-n)
  else
    match parseUint bitSize (if s.head? = some 43 then s.tail else s) with
    | .error e => .error e
    | .ok n => if 2 ^ (bitSize - 1) ≤ n then .error .outOfRange else .ok n

theorem toNat_digitByte {d : Nat} (hd : d < 10) : (digitByte d).toNat = 48 + d := by
  rw [digitByte, UInt8.toNat_ofNat']
  omega

theorem isDigit_digitByte {d : Nat} (hd : d < 10) : isDigit (digitByte d) = true := by
  simp only [isDigit, Bool.and_eq_true, decide_eq_true_eq, UInt8.le_iff_toNat_le, toNat_digitByte hd]
  exact ⟨Nat.le_add_right 48 d, Nat.add_le_add_left (Nat.le_of_lt_succ hd) 48⟩

def value (n : Nat) (ds : List Nat) : Nat := ds.foldl (fun n d => n * 10 + d) n

theorem le_value (n : Nat) (ds : List Nat) : n ≤ value n ds := by
  induction ds generalizing n with
  | nil => exact le_rfl
  | cons d ds ih =>
    have h := ih (n * 10 + d)
    rw [value, List.foldl_cons]
    rw [value] at h
    omega

theorem value_reverse_digits (n : Nat) : value 0 (Nat.digits 10 n).reverse = n := by
  have hfold : ∀ ds : List Nat, value 0 ds.reverse = Nat.ofDigits 10 ds := by
    intro ds
    rw [value, List.foldl_reverse]
    induction ds with
    | nil => rfl
    | cons d ds ih =>
      rw [List.foldr_cons, ih, Nat.ofDigits_cons]
      omega
  rw [hfold, Nat.ofDigits_digits]

theorem readDigits_map {maxVal n : Nat} {ds : List Nat} (hd : ∀ d ∈ ds, d < 10) (hv : value n ds ≤ maxVal) :
    readDigits maxVal n (ds.map digitByte) = .ok (value n ds) := by
  induction ds generalizing n with
  | nil => rfl
  | cons d ds ih =>
    have hlt := hd d List.mem_cons_self
    have hle := le_value (n * 10 + d) ds
    have hv' : value (n * 10 + d) ds ≤ maxVal := hv
    rw [List.map_cons, readDigits, if_pos (isDigit_digitByte hlt), toNat_digitByte hlt,
      Nat.add_sub_cancel_left, if_pos (hle.trans hv'), ih
        (fun d hd' => hd d (List.mem_cons_of_mem _ hd')) hv']
    rfl

theorem exists_digits (n : Nat) : ∃ ds : List Nat, ds ≠ [] ∧ (∀ d ∈ ds, d < 10) ∧
    formatNat n = ds.map digitByte ∧ value 0 ds = n := by
  by_cases hn : n = 0
  · exact ⟨[0], by simp, by simp, by simp [formatNat, hn], by simp [value, hn]⟩
  · refine ⟨(Nat.digits 10 n).reverse, ?_, ?_, by simp [formatNat, hn], value_reverse_digits n⟩
    · simpa using Nat.digits_ne_nil_iff_ne_zero.mpr hn
    · intro d hd
      exact Nat.digits_lt_base (by omega) (List.mem_reverse.mp hd)

theorem formatNat_bytes {n : Nat} : formatNat n ≠ [] ∧ ∀ c ∈ formatNat n, isDigit c = true := by
  obtain ⟨ds, hne, hd, heq, -⟩ := exists_digits n
  rw [heq]
  refine ⟨by simpa using hne, fun c hc => ?_⟩
  obtain ⟨d, hmem, rfl⟩ := List.mem_map.mp hc
  exact isDigit_digitByte (hd d hmem)

theorem head?_formatNat {n : Nat} {c : UInt8} (hc : isDigit c = false) : (formatNat n).head? ≠ some c := by
  intro h
  rw [formatNat_bytes.2 c (List.mem_of_mem_head? h)] at hc
  cases hc

theorem parseUint_formatNat {bitSize n : Nat} (hn : n < 2 ^ bitSize) :
    parseUint bitSize (formatNat n) = .ok n := by
  have hne := (formatNat_bytes (n := n)).1
  obtain ⟨ds, -, hd, heq, hval⟩ := exists_digits n
  have hread : readDigits (2 ^ bitSize - 1) 0 (ds.map digitByte) = .ok (value 0 ds) :=
    readDigits_map hd (by rw [hval]; omega)
  rw [parseUint, if_neg hne, heq, hread, hval]

theorem parseInt_formatInt {bitSize : Nat} (hb : 0 < bitSize) {n : Int} (hlo : -2 ^ (bitSize - 1) ≤ n)
    (hhi : n < 2 ^ (bitSize - 1)) : parseInt bitSize (formatInt n) = .ok n := by
  obtain ⟨b, rfl⟩ : ∃ b, bitSize = b + 1 := ⟨bitSize - 1, by omega⟩
  rw [Nat.add_sub_cancel] at hlo hhi
  have hpow : (2 : Int) ^ b = ((2 ^ b : Nat) : Int) := by norm_cast
  have hdouble : 2 ^ (b + 1) = 2 * 2 ^ b := by rw [Nat.pow_succ, Nat.mul_comm]
  have hpos : 0 < 2 ^ b := Nat.two_pow_pos b
  rw [hpow] at hlo hhi
  have huint : parseUint (b + 1) (formatNat n.natAbs) = .ok n.natAbs := parseUint_formatNat (by omega)
  by_cases hn : n < 0
  · rw [formatInt, if_pos hn, parseInt, List.head?_cons, if_pos rfl, List.tail_cons, huint]
    dsimp only
    rw [Nat.add_sub_cancel, if_neg (by omega)]
    congr 1
    omega
  · rw [formatInt, if_neg hn, parseInt, if_neg (head?_formatNat (by decide)),
      if_neg (head?_formatNat (by decide)), huint]
    dsimp only
    rw [Nat.add_sub_cancel, if_neg (by omega)]
    congr 1
    omega

theorem formatInt_not_mem {n : Int} {c : UInt8} (hc : isDigit c = false) (hsign : c ≠ 45) :
    c ∉ formatInt n := by
  have hnat : c ∉ formatNat n.natAbs := fun h => by simp [formatNat_bytes.2 c h] at hc
  rw [formatInt]
  split
  · simp [hsign, hnat]
  · exact hnat

end Decimal

section Hex

def hexDigit (n : Nat) : UInt8 := if n < 10 then UInt8.ofNat (48 + n) else UInt8.ofNat (87 + n)

def hexEncode (bytes : List UInt8) : List UInt8 :=
  bytes.flatMap fun b => [hexDigit (b.toNat / 16), hexDigit (b.toNat % 16)]

inductive HexError
  | invalidByte (c : UInt8) | oddLength
  deriving DecidableEq, Repr

def hexValue (c : UInt8) : Option Nat :=
  if 48 ≤ c ∧ c ≤ 57 then some (c.toNat - 48)
  else if 97 ≤ c ∧ c ≤ 102 then some (c.toNat - 87)
  else if 65 ≤ c ∧ c ≤ 70 then some (c.toNat - 55)
  else none

def hexDecode : List UInt8 → Except HexError (List UInt8)
  | [] => .ok []
  | [c] => if hexValue c = none then .error (.invalidByte c) else .error .oddLength
  | a :: b :: s =>
    match hexValue a, hexValue b with
    | none, _ => .error (.invalidByte a)
    | some _, none => .error (.invalidByte b)
    | some hi, some lo =>
      match hexDecode s with
      | .error e => .error e
      | .ok bytes => .ok (UInt8.ofNat (hi * 16 + lo) :: bytes)

theorem hexValue_hexDigit {n : Nat} (hn : n < 16) : hexValue (hexDigit n) = some n := by
  have hall : ∀ n < 16, hexValue (hexDigit n) = some n := by decide
  exact hall n hn

theorem hexDecode_hexEncode (bytes : List UInt8) : hexDecode (hexEncode bytes) = .ok bytes := by
  induction bytes with
  | nil => rfl
  | cons b bytes ih =>
    have hlt := b.toNat_lt
    have hhalves : b.toNat / 16 * 16 + b.toNat % 16 = b.toNat := by omega
    rw [hexEncode, List.flatMap_cons, ← hexEncode, List.cons_append, List.singleton_append, hexDecode,
      hexValue_hexDigit (by omega), hexValue_hexDigit (by omega), ih]
    dsimp only
    rw [hhalves, UInt8.ofNat_toNat]

end Hex

end Tarantula.Text
