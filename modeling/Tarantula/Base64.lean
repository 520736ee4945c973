/-! Base64 with the URL alphabet and padding: three bytes as four characters of six bits each. A
decoder returns what it has read before the first error. -/

namespace Tarantula.Base64

def char (n : Nat) : UInt8 :=
  if n < 26 then UInt8.ofNat (65 + n)
  else if n < 52 then UInt8.ofNat (71 + n)
  else if n < 62 then UInt8.ofNat (n - 4)
  else if n = 62 then 45
  else 95

def pad : UInt8 := 61

def value (c : UInt8) : Option Nat :=
  if 65 ≤ c ∧ c ≤ 90 then some (c.toNat - 65)
  else if 97 ≤ c ∧ c ≤ 122 then some (c.toNat - 71)
  else if 48 ≤ c ∧ c ≤ 57 then some (c.toNat + 4)
  else if c = 45 then some 62
  else if c = 95 then some 63
  else none

def encode : List UInt8 → List UInt8
  | [] => []
  | [a] => [char (a.toNat / 4), char (a.toNat % 4 * 16), pad, pad]
  | [a, b] => [char (a.toNat / 4), char (a.toNat % 4 * 16 + b.toNat / 16), char (b.toNat % 16 * 4), pad]
  | a :: b :: c :: rest =>
    char (a.toNat / 4) :: char (a.toNat % 4 * 16 + b.toNat / 16) ::
      char (b.toNat % 16 * 4 + c.toNat / 64) :: char (c.toNat % 64) :: encode rest

/-- The bytes of four characters: one for each of the last three that is not missing. -/
def quantum (w x y z : Nat) : UInt8 × UInt8 × UInt8 :=
  (UInt8.ofNat (w * 4 + x / 16), UInt8.ofNat (x % 16 * 16 + y / 4), UInt8.ofNat (y % 4 * 64 + z))

def decodeQuanta : List UInt8 → List UInt8
  | w :: x :: y :: z :: rest =>
    match value w, value x, value y, value z with
    | some w, some x, some y, some z =>
      (quantum w x y z).1 :: (quantum w x y z).2.1 :: (quantum w x y z).2.2 :: decodeQuanta rest
    | some w, some x, some y, none => if z = pad then [(quantum w x y 0).1, (quantum w x y 0).2.1] else []
    | some w, some x, none, none => if y = pad ∧ z = pad then [(quantum w x 0 0).1] else []
    | _, _, _, _ => []
  | _ => []

/-- Ends of lines are skipped. -/
def decode (text : List UInt8) : List UInt8 := decodeQuanta (text.filter fun c => c ≠ 10 ∧ c ≠ 13)

theorem value_char {n : Nat} (hn : n < 64) : value (char n) = some n := by
  have hall : ∀ n < 64, value (char n) = some n := by decide
  exact hall n hn

theorem value_pad : value pad = none := by decide

theorem mem_encode {bytes : List UInt8} {c : UInt8} (h : c ∈ encode bytes) :
    (∃ n < 64, c = char n) ∨ c = pad := by
  induction bytes using encode.induct with
  | case1 => cases h
  | case2 a =>
    have ha := a.toNat_lt
    simp only [encode, List.mem_cons, List.not_mem_nil, or_false] at h
    rcases h with rfl | rfl | rfl | rfl
    · exact .inl ⟨_, by omega, rfl⟩
    · exact .inl ⟨_, by omega, rfl⟩
    · exact .inr rfl
    · exact .inr rfl
  | case3 a b =>
    have ha := a.toNat_lt
    have hb := b.toNat_lt
    simp only [encode, List.mem_cons, List.not_mem_nil, or_false] at h
    rcases h with rfl | rfl | rfl | rfl
    · exact .inl ⟨_, by omega, rfl⟩
    · exact .inl ⟨_, by omega, rfl⟩
    · exact .inl ⟨_, by omega, rfl⟩
    · exact .inr rfl
  | case4 a b c' rest ih =>
    have ha := a.toNat_lt
    have hb := b.toNat_lt
    have hc := c'.toNat_lt
    simp only [encode, List.mem_cons] at h
    rcases h with rfl | rfl | rfl | rfl | h
    · exact .inl ⟨_, by omega, rfl⟩
    · exact .inl ⟨_, by omega, rfl⟩
    · exact .inl ⟨_, by omega, rfl⟩
    · exact .inl ⟨_, by omega, rfl⟩
    · exact ih h

theorem not_mem_encode {c : UInt8} (hc : ∀ n < 64, c ≠ char n) (hpad : c ≠ pad) (bytes : List UInt8) :
    c ∉ encode bytes := by
  intro h
  rcases mem_encode h with ⟨n, hn, heq⟩ | heq
  · exact hc n hn heq
  · exact hpad heq

theorem quantum_eq (a b c : UInt8) :
    quantum (a.toNat / 4) (a.toNat % 4 * 16 + b.toNat / 16) (b.toNat % 16 * 4 + c.toNat / 64) (c.toNat % 64) =
      (a, b, c) := by
  have ha := a.toNat_lt
  have hb := b.toNat_lt
  have hc := c.toNat_lt
  simp only [quantum, Prod.mk.injEq]
  refine ⟨?_, ?_, ?_⟩ <;> apply UInt8.toNat_inj.mp <;> rw [UInt8.toNat_ofNat'] <;> omega

theorem decodeQuanta_encode (bytes : List UInt8) : decodeQuanta (encode bytes) = bytes := by
  induction bytes using encode.induct with
  | case1 => rfl
  | case2 a =>
    have ha := a.toNat_lt
    have hq := quantum_eq a 0 0
    simp only [UInt8.toNat_zero, Nat.zero_div, Nat.zero_mod, Nat.add_zero, Nat.zero_mul] at hq
    have hw := value_char (n := a.toNat / 4) (by omega)
    have hx := value_char (n := a.toNat % 4 * 16) (by omega)
    simp [encode, decodeQuanta, hw, hx, value_pad, hq]
  | case3 a b =>
    have ha := a.toNat_lt
    have hb := b.toNat_lt
    have hq := quantum_eq a b 0
    simp only [UInt8.toNat_zero, Nat.zero_div, Nat.zero_mod, Nat.add_zero] at hq
    have hw := value_char (n := a.toNat / 4) (by omega)
    have hx := value_char (n := a.toNat % 4 * 16 + b.toNat / 16) (by omega)
    have hy := value_char (n := b.toNat % 16 * 4) (by omega)
    simp [encode, decodeQuanta, hw, hx, hy, value_pad, hq]
  | case4 a b c rest ih =>
    have ha := a.toNat_lt
    have hb := b.toNat_lt
    have hc := c.toNat_lt
    have hw := value_char (n := a.toNat / 4) (by omega)
    have hx := value_char (n := a.toNat % 4 * 16 + b.toNat / 16) (by omega)
    have hy := value_char (n := b.toNat % 16 * 4 + c.toNat / 64) (by omega)
    have hz := value_char (n := c.toNat % 64) (by omega)
    simp [encode, decodeQuanta, hw, hx, hy, hz, quantum_eq, ih]

theorem decode_encode (bytes : List UInt8) : decode (encode bytes) = bytes := by
  have hfilter : (encode bytes).filter (fun c => c ≠ 10 ∧ c ≠ 13) = encode bytes := by
    rw [List.filter_eq_self]
    intro c hc
    have hlf : c ≠ 10 := fun h => not_mem_encode (by decide) (by decide) bytes (h ▸ hc)
    have hcr : c ≠ 13 := fun h => not_mem_encode (by decide) (by decide) bytes (h ▸ hc)
    simp [hlf, hcr]
  rw [decode, hfilter, decodeQuanta_encode]

end Tarantula.Base64
