import Mathlib.Data.List.Induction
import Tarantula.ByteBuffer

/-! Records that are written field by field into a bounded buffer, and read back. A field is
a list of pieces. The writer stops at the first piece that overflows, with the answer that
belongs to its field; the pieces before it stay in the buffer. -/

namespace Tarantula

def stringField (s : Bytes) : List Bytes := [beBytes 4 (Int32.ofNat s.length).toUInt32.toNat, s]

namespace ByteBuffer

def putEach : ByteBuffer → List Bytes → ByteBuffer × Option Fault
  | b, [] => (b, none)
  | b, x :: xs =>
    match b.put x with
    | none => (b, some .error)
    | some b => b.putEach xs

/-- Each field with what the writer returns if the field cannot be written. -/
def writeFields : ByteBuffer → List (List Bytes × Option Fault) → ByteBuffer × Option Fault
  | b, [] => (b, none)
  | b, (field, e) :: fields =>
    match b.putEach field with
    | (b, some _) => (b, e)
    | (b, none) => b.writeFields fields

structure Wrote (b : ByteBuffer) (x : Bytes) (b' : ByteBuffer) : Prop where
  capacity : b'.capacity = b.capacity
  bytes : b'.bytes = b.bytes ++ x

/-- There was no room for all of `x`, and only a part of it has been written. -/
structure WrotePart (b : ByteBuffer) (x : Bytes) (b' : ByteBuffer) : Prop where
  capacity : b'.capacity = b.capacity
  bytes : ∃ n < x.length, b'.bytes = b.bytes ++ x.take n
  full : b.capacity < (b.bytes ++ x).length

section Parts

variable {b b₁ b₂ : ByteBuffer} {x y : Bytes}

theorem Wrote.nothing : Wrote b [] b := ⟨rfl, (List.append_nil _).symm⟩

theorem Wrote.trans (h : Wrote b x b₁) (h' : Wrote b₁ y b₂) : Wrote b (x ++ y) b₂ :=
  ⟨h'.capacity.trans h.capacity, by rw [h'.bytes, h.bytes, List.append_assoc]⟩

theorem Wrote.part (h : Wrote b x b₁) (h' : WrotePart b₁ y b₂) : WrotePart b (x ++ y) b₂ := by
  obtain ⟨n, hn, hbytes⟩ := h'.bytes
  refine ⟨h'.capacity.trans h.capacity, ⟨x.length + n, ?_, ?_⟩, ?_⟩
  · rw [List.length_append]
    omega
  · rw [hbytes, h.bytes, List.take_length_add_append, List.append_assoc]
  · rw [← List.append_assoc, ← h.bytes, ← h.capacity]
    exact h'.full

theorem WrotePart.append (h : WrotePart b x b₁) (y : Bytes) : WrotePart b (x ++ y) b₁ := by
  obtain ⟨n, hn, hbytes⟩ := h.bytes
  refine ⟨h.capacity, ⟨n, ?_, ?_⟩, ?_⟩
  · rw [List.length_append]
    omega
  · rw [hbytes, List.take_append_of_le_length (by omega)]
  · have hfull := h.full
    simp only [List.length_append] at hfull ⊢
    omega

theorem put_wrote (b : ByteBuffer) (x : Bytes) :
    (∃ b', b.put x = some b' ∧ Wrote b x b') ∨ b.put x = none ∧ WrotePart b x b := by
  by_cases hx : (b.bytes ++ x).length ≤ b.capacity
  · exact .inl ⟨_, dif_pos hx, rfl, rfl⟩
  · have hfit := b.fits
    refine .inr ⟨dif_neg hx, rfl, ⟨0, ?_, by simp⟩, by omega⟩
    rw [List.length_append] at hx
    omega

end Parts

theorem putEach_wrote (b : ByteBuffer) (xs : List Bytes) :
    ((b.putEach xs).2 = none ∧ Wrote b xs.flatten (b.putEach xs).1) ∨
      (b.putEach xs).2 = some .error ∧ WrotePart b xs.flatten (b.putEach xs).1 := by
  induction xs generalizing b with
  | nil => exact .inl ⟨rfl, .nothing⟩
  | cons x xs ih =>
    rw [List.flatten_cons]
    rcases put_wrote b x with ⟨b', hput, hw⟩ | ⟨hput, hp⟩
    · simp only [putEach, hput]
      rcases ih b' with ⟨he, hw'⟩ | ⟨he, hp⟩
      · exact .inl ⟨he, hw.trans hw'⟩
      · exact .inr ⟨he, hw.part hp⟩
    · simp only [putEach, hput]
      exact .inr ⟨trivial, hp.append _⟩

/-- The fields are all written, or the first that is not determines what is returned. -/
theorem writeFields_wrote (b : ByteBuffer) (fields : List (List Bytes × Option Fault)) :
    let all := (fields.map fun f => f.1.flatten).flatten
    ((b.writeFields fields).2 = none ∧ Wrote b all (b.writeFields fields).1) ∨
      ∃ f ∈ fields, (b.writeFields fields).2 = f.2 ∧ WrotePart b all (b.writeFields fields).1 := by
  induction fields generalizing b with
  | nil => exact .inl ⟨rfl, .nothing⟩
  | cons f fields ih =>
    simp only [List.map_cons, List.flatten_cons]
    rcases putEach_wrote b f.1 with ⟨he, hw⟩ | ⟨he, hp⟩
    · have hstep : b.writeFields (f :: fields) = (b.putEach f.1).1.writeFields fields := by
        rw [writeFields, show b.putEach f.1 = ((b.putEach f.1).1, none) from Prod.ext rfl he]
      rw [hstep]
      rcases ih (b.putEach f.1).1 with ⟨he', hw'⟩ | ⟨g, hg, he', hp⟩
      · exact .inl ⟨he', hw.trans hw'⟩
      · exact .inr ⟨g, List.mem_cons_of_mem _ hg, he', hw.part hp⟩
    · have hstep : b.writeFields (f :: fields) = ((b.putEach f.1).1, f.2) := by
        rw [writeFields, show b.putEach f.1 = ((b.putEach f.1).1, some .error) from Prod.ext rfl he]
      rw [hstep]
      exact .inr ⟨f, List.mem_cons_self .., rfl, hp.append _⟩

end ByteBuffer

theorem toInt_size (n : Nat) : (Int32.ofNat n).toInt =
    if n % 4294967296 < 2147483648 then ((n % 4294967296 : Nat) : Int)
    else (n % 4294967296 : Nat) - 4294967296 := by
  rw [Int32.toInt_ofNat', Int.bmod_def, Int32.size]
  split_ifs <;> omega

theorem readSome_zero (r : Bytes) : readSome 0 r = .ok (r, []) := by simp [readSome]

section Reading

variable {r r' x : Bytes}

theorem beBytes_beNat (x : Bytes) : beBytes x.length (beNat x) = x := by
  induction x using List.reverseRecOn with
  | nil => rfl
  | append_singleton x v ih =>
    have hv : v.toNat < 256 := v.toNat_lt
    have hlast : beNat (x ++ [v]) = 256 * beNat x + v.toNat := by
      simp [beNat, List.foldl_append]
    have hdiv : (256 * beNat x + v.toNat) / 256 = beNat x := by omega
    have hbyte : UInt8.ofNat (256 * beNat x + v.toNat) = v := by
      apply UInt8.toNat_inj.mp
      rw [UInt8.toNat_ofNat']
      omega
    rw [List.length_append, List.length_singleton, beBytes, hlast, hdiv, ih, hbyte]

theorem getBytes_some_iff {n : Nat} : getBytes n r = some (x, r') ↔ x.length = n ∧ r = x ++ r' := by
  constructor
  · intro h
    unfold getBytes at h
    split at h
    · next hn =>
      obtain ⟨rfl, rfl⟩ := Prod.mk.inj (Option.some.inj h)
      exact ⟨by rw [List.length_take]; omega, (List.take_append_drop n r).symm⟩
    · cases h
  · rintro ⟨hn, rfl⟩
    exact getBytes_append hn r'

theorem readUInt32_exact {v : UInt32} (h : readUInt32 r = some (v, r')) :
    ∃ x, x.length = 4 ∧ v = UInt32.ofNat (beNat x) ∧ r = x ++ r' := by
  obtain ⟨⟨x, rest⟩, hx, he⟩ := Option.map_eq_some_iff.mp h
  obtain ⟨rfl, rfl⟩ := Prod.mk.inj he
  obtain ⟨hlen, hr⟩ := getBytes_some_iff.mp hx
  exact ⟨x, hlen, rfl, hr⟩

theorem beNat_lt (x : Bytes) : beNat x < 256 ^ x.length := by
  have h := beNat_beBytes x.length (beNat x)
  rw [beBytes_beNat] at h
  rw [h]
  exact Nat.mod_lt _ (Nat.pow_pos (by decide))

theorem readInt32_sign (hx : x.length = 4) : readInt32 (x ++ r) = some ((UInt32.ofNat (beNat x)).toInt32, r) ∧
    (UInt32.ofNat (beNat x)).toInt32.toInt =
      if beNat x < 2 ^ 31 then (beNat x : Int) else beNat x - 2 ^ 32 := by
  have hlt : beNat x < 2 ^ 32 := by
    have := beNat_lt x
    rwa [hx] at this
  refine ⟨?_, ?_⟩
  · simp only [readInt32, readUInt32, getBytes_append hx, Option.map_some]
  · have hint : (UInt32.ofNat (beNat x)).toInt32 = Int32.ofNat (beNat x) := rfl
    rw [hint, toInt_size]
    split_ifs <;> omega

theorem readInt32_exact {n : Int32} (h : readInt32 r = some (n, r')) :
    ∃ x, x.length = 4 ∧ n.toInt = (if beNat x < 2 ^ 31 then (beNat x : Int) else beNat x - 2 ^ 32) ∧
      r = x ++ r' := by
  obtain ⟨⟨v, rest⟩, hv, he⟩ := Option.map_eq_some_iff.mp h
  obtain ⟨rfl, rfl⟩ := Prod.mk.inj he
  obtain ⟨x, hx, rfl, hr⟩ := readUInt32_exact hv
  exact ⟨x, hx, (readInt32_sign (r := rest) hx).2, hr⟩

theorem readString_crash_iff : readString r = .error .crash ↔
    ∃ x rest, x.length = 4 ∧ 2 ^ 31 ≤ beNat x ∧ r = x ++ rest := by
  constructor
  · intro h
    unfold readString at h
    split at h
    · cases h
    · next n rest hn =>
      obtain ⟨x, hx, hsign, rfl⟩ := readInt32_exact hn
      split at h
      · next hneg =>
        refine ⟨x, rest, hx, ?_, rfl⟩
        rw [Int32.lt_iff_toInt_lt, hsign, Int32.toInt_zero] at hneg
        split_ifs at hneg <;> omega
      · split at h <;> cases h
  · rintro ⟨x, rest, hx, hbig, rfl⟩
    obtain ⟨hread, hsign⟩ := readInt32_sign (r := rest) hx
    have hlt := beNat_lt x
    have hneg : (UInt32.ofNat (beNat x)).toInt32 < 0 := by
      rw [Int32.lt_iff_toInt_lt, hsign, Int32.toInt_zero, if_neg (by omega)]
      rw [hx] at hlt
      omega
    simp only [readString, hread, hneg, if_true]

theorem readString_ok_iff {s : Bytes} : readString r = .ok (s, r') ↔
    s.length < 2 ^ 31 ∧ r = (stringField s).flatten ++ r' := by
  constructor
  · intro h
    unfold readString at h
    split at h
    · cases h
    · next n rest hn =>
      obtain ⟨x, hx, hsign, rfl⟩ := readInt32_exact hn
      split at h
      · cases h
      · next hpos =>
        split at h
        · cases h
        · next p hp =>
          obtain rfl := Except.ok.inj h
          obtain ⟨hlen, rfl⟩ := getBytes_some_iff.mp hp
          rw [Int32.lt_iff_toInt_lt, hsign, Int32.toInt_zero] at hpos
          rw [hsign] at hlen
          have hlt := beNat_lt x
          rw [hx] at hlt
          have hs : s.length = beNat x ∧ beNat x < 2 ^ 31 := by
            split_ifs at hpos hlen <;> omega
          have hword : beBytes 4 (Int32.ofNat s.length).toUInt32.toNat = x := by
            have hnat : (Int32.ofNat s.length).toUInt32.toNat = beNat x := by
              rw [hs.1]
              exact UInt32.toNat_ofNat_of_lt' (by omega)
            rw [hnat, ← hx, beBytes_beNat]
          refine ⟨by omega, ?_⟩
          rw [stringField, hword]
          simp
  · rintro ⟨hs, rfl⟩
    simpa [stringField] using readString_append hs r'

end Reading

/-- The kinds of fields: strings, and words of a number of bytes. -/
inductive FieldKind
  | string
  | word (n : Nat)

namespace FieldKind

/-- The bytes of a field, and what follows them. -/
def read : FieldKind → Bytes → Except Fault (Bytes × Bytes)
  | string, r => readString r
  | word n, r =>
    match getBytes n r with
    | none => .error .error
    | some p => .ok p

/-- The bytes begin like the fields, up to a string with a negative size. -/
def NegativeSize : List FieldKind → Bytes → Prop
  | [], _ => False
  | string :: kinds, r =>
    (∃ x rest, x.length = 4 ∧ 2 ^ 31 ≤ beNat x ∧ r = x ++ rest) ∨
      ∃ s rest, s.length < 2 ^ 31 ∧ r = (stringField s).flatten ++ rest ∧ NegativeSize kinds rest
  | word n :: kinds, r => ∃ x rest, x.length = n ∧ r = x ++ rest ∧ NegativeSize kinds rest

theorem negativeSize_cons (k : FieldKind) (kinds : List FieldKind) (r : Bytes) :
    NegativeSize (k :: kinds) r ↔ k.read r = .error .crash ∨
      ∃ x r', k.read r = .ok (x, r') ∧ NegativeSize kinds r' := by
  cases k with
  | string => simp only [NegativeSize, read, readString_crash_iff, readString_ok_iff, and_assoc]
  | word n =>
    have hread (x r') : read (word n) r = .ok (x, r') ↔ x.length = n ∧ r = x ++ r' := by
      rw [← getBytes_some_iff, read]
      cases getBytes n r <;> simp
    have hsafe : read (word n) r ≠ .error .crash := by
      rw [read]
      cases getBytes n r <;> simp
    simp only [NegativeSize, hsafe, false_or, hread, and_assoc]

end FieldKind

section Records

variable {α β : Type}

def readWord (read : Bytes → Option (β × Bytes)) (r : Bytes) : Except Fault (β × Bytes) :=
  match read r with
  | none => .error .error
  | some p => .ok p

/-- A value is read and assigned to a field of a record. -/
def readInto (read : Bytes → Except Fault (β × Bytes)) (assign : α → β → α) (a : α) (r : Bytes) :
    Except Fault (α × Bytes) :=
  match read r with
  | .error e => .error e
  | .ok (b, r) => .ok (assign a b, r)

/-- The fields are assigned one by one: an error leaves the record half read. -/
def readFields : List (α → Bytes → Except Fault (α × Bytes)) → α → Bytes → α × Option Fault
  | [], a, _ => (a, none)
  | field :: fields, a, r =>
    match field a r with
    | .error e => (a, some e)
    | .ok (a, r) => readFields fields a r

theorem readFields_into {read : Bytes → Except Fault (β × Bytes)} {r r' : Bytes} {b : β}
    (h : read r = .ok (b, r')) (assign : α → β → α)
    (fields : List (α → Bytes → Except Fault (α × Bytes))) (a : α) :
    readFields (readInto read assign :: fields) a r = readFields fields (assign a b) r' := by
  simp only [readFields, readInto, h]

def Reads (k : FieldKind) (field : α → Bytes → Except Fault (α × Bytes)) : Prop :=
  ∀ a r, match k.read r with
    | .error e => field a r = .error e
    | .ok (_, r') => ∃ a', field a r = .ok (a', r')

theorem reads_string (assign : α → Bytes → α) : Reads .string (readInto readString assign) := by
  intro a r
  simp only [FieldKind.read, readInto]
  cases readString r with
  | error e => rfl
  | ok p => exact ⟨_, rfl⟩

theorem reads_word {n : Nat} {read : Bytes → Option (β × Bytes)}
    (h : ∀ r, (read r).map Prod.snd = (getBytes n r).map Prod.snd) (assign : α → β → α) :
    Reads (.word n) (readInto (readWord read) assign) := by
  intro a r
  have hr := h r
  simp only [FieldKind.read, readInto, readWord]
  cases hget : getBytes n r with
  | none =>
    rw [hget, Option.map_none, Option.map_eq_none_iff] at hr
    simp only [hr]
  | some p =>
    rw [hget, Option.map_some] at hr
    obtain ⟨⟨b, r'⟩, hb, rfl⟩ := Option.map_eq_some_iff.mp hr
    simp only [hb]
    exact ⟨_, rfl⟩

/-- Reading a record panics exactly at the negative size of a string. -/
theorem readFields_crash_iff {kinds : List FieldKind}
    {fields : List (α → Bytes → Except Fault (α × Bytes))} (h : List.Forall₂ Reads kinds fields) (a : α)
    (r : Bytes) : (readFields fields a r).2 = some .crash ↔ FieldKind.NegativeSize kinds r := by
  induction h generalizing a r with
  | nil => simp [readFields, FieldKind.NegativeSize]
  | @cons k field kinds fields hk _ ih =>
    rw [FieldKind.negativeSize_cons]
    have hread := hk a r
    cases hr : k.read r with
    | error e =>
      simp only [hr] at hread
      simp [readFields, hread]
    | ok p =>
      obtain ⟨x, r'⟩ := p
      simp only [hr] at hread
      obtain ⟨a', ha'⟩ := hread
      simp only [readFields, ha', ih, reduceCtorEq, false_or, Except.ok.injEq, Prod.mk.injEq]
      constructor
      · intro hn
        exact ⟨x, r', ⟨rfl, rfl⟩, hn⟩
      · rintro ⟨_, _, ⟨rfl, rfl⟩, hn⟩
        exact hn

end Records

end Tarantula
