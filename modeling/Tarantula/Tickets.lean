import Mathlib.Tactic.IntervalCases
import Tarantula.AuthManager

/-! When the validation of a ticket panics, and when an access key expires. -/

namespace Tarantula

/-- The text of a ticket is hexadecimal and too short for a nonce. -/
def ShortTicket (g : Aead) (ticket : Bytes) : Prop :=
  ∃ bytes, Text.hexDecode ticket = .ok bytes ∧ bytes.length < g.nonceSize

section Totality

variable {g : Aead} {s : AuthManager} {now : Int}

theorem Aes.decrypt_eq_none_iff {ticket : Bytes} : decrypt g ticket = none ↔ ShortTicket g ticket := by
  rw [decrypt, ShortTicket]
  cases Text.hexDecode ticket with
  | error e => simp
  | ok bytes =>
    dsimp only
    split
    · next hlt => simpa using hlt
    · next hge => cases g.opened (bytes.take g.nonceSize) (bytes.drop g.nonceSize) <;> simpa using hge

theorem AuthManager.validateTicket_eq_none_iff {ticket : Bytes} :
    s.validateTicket now ticket = none ↔ s.cipher.decrypt ticket = none := by
  rw [validateTicket]
  cases s.cipher.decrypt ticket with
  | none => simp
  | some r =>
    cases r with
    | error e => simp
    | ok data =>
      dsimp only
      split <;> simp

theorem audit_eq_none_iff {ρ : Type} {refuse : AuthFail → Unauthenticated} {md : Option (String → List Bytes)}
    {handler : ρ} :
    audit refuse s now md handler = none ↔
      ∃ hd ticket rest, md = some hd ∧ hd rpcTicketHeader = ticket :: rest ∧
        s.cipher.decrypt ticket = none := by
  cases md with
  | none => simp [audit]
  | some hd =>
    cases hticks : hd rpcTicketHeader with
    | nil => simp [audit, hticks]
    | cons ticket rest =>
      have hv : s.validateTicket now ticket = none ↔ s.cipher.decrypt ticket = none :=
        s.validateTicket_eq_none_iff
      cases hr : s.validateTicket now ticket with
      | none => simpa [audit, hticks, hr] using hv
      | some r =>
        obtain ⟨session, err⟩ := r
        have hne : s.cipher.decrypt ticket ≠ none := fun h => by simp [hv.mpr h] at hr
        cases err <;> simp [audit, hticks, hr, hne]

end Totality

/-- The validation of a ticket, and with it the audit of a call or a stream, returns except on a
hexadecimal text that is too short for a nonce, where it panics. -/
theorem ticket_validation_panics_iff {s : AuthManager} {g : Aead} (hs : s.cipher = Aes.cipher g) (now : Int) :
    (∀ ticket, s.validateTicket now ticket = none ↔ ShortTicket g ticket) ∧
    ∀ (ρ : Type) (md : Option (String → List Bytes)) (handler : ρ),
      (auditCall s now md handler = none ↔
        ∃ hd ticket rest, md = some hd ∧ hd rpcTicketHeader = ticket :: rest ∧ ShortTicket g ticket) ∧
      (auditStreaming s now md handler = none ↔
        ∃ hd ticket rest, md = some hd ∧ hd rpcTicketHeader = ticket :: rest ∧ ShortTicket g ticket) := by
  have hshort : ∀ ticket, s.cipher.decrypt ticket = none ↔ ShortTicket g ticket := fun ticket => by
    rw [hs]
    exact Aes.decrypt_eq_none_iff
  refine ⟨fun ticket => s.validateTicket_eq_none_iff.trans (hshort ticket), fun ρ md handler => ?_⟩
  simp only [auditCall, auditStreaming, audit_eq_none_iff, hshort, and_self]

def plainAead : Aead := ⟨12, fun _ clearText => clearText, fun _ cipherText => some cipherText⟩

theorem plainAead_roundTrips : plainAead.RoundTrips := fun _ _ _ => rfl

/-- Signing without a key, over a codec that writes the fields one after another. -/
def plainHMac : JwtHMac where
  alg := utf8 "SHS256"
  mac _ := []
  encode := Text.hexEncode
  decode c := (Text.hexDecode c).toOption.getD []
  marshalHeader h := h.kid
  marshalPayload p := Text.formatInt p.exp.toInt ++ [dot] ++ p.aud
  unmarshalHeader c := ⟨[], [], c⟩
  unmarshalPayload c :=
    ⟨(c.dropWhile (· ≠ dot)).tail, Int64.ofInt ((Text.parseInt 64 (c.takeWhile (· ≠ dot))).toOption.getD 0)⟩

def plainManager : AuthManager := ⟨utf8 "kid", plainHMac, Aes.cipher plainAead⟩

theorem ticket_validation_returns_sample :
    plainManager.validateTicket 0 (utf8 "000000000000000000000000") ≠ none := by
  have hs : plainManager.cipher = Aes.cipher plainAead := rfl
  rw [ne_eq, (ticket_validation_panics_iff hs 0).1]
  rintro ⟨bytes, hb, hlt⟩
  have hdec : Text.hexDecode (utf8 "000000000000000000000000") = .ok (List.replicate 12 0) := by
    decide +kernel
  rw [hdec] at hb
  cases hb
  exact absurd hlt (by decide)

/-- A call whose ticket is empty, or any hexadecimal text of less than 24 digits, panics before its
handler. -/
theorem short_ticket_panics :
    plainManager.validateTicket 0 [] = none ∧ plainManager.validateTicket 0 (utf8 "00ff") = none ∧
      auditCall plainManager 0 (some fun _ => [[]]) () = none ∧
      auditStreaming plainManager 0 (some fun _ => [[]]) () = none := by decide +kernel

section Expiry

/-- The time at which an access key that is asked for at `now` expires. -/
def keyExpiry (now expiryTime : Int) : Int :=
  (AuthManager.expiry now (AuthManager.minute * wholeSeconds (timeUntil expiryTime now))).toInt

variable {now expiryTime : Int}

theorem wholeSeconds_timeUntil (h : now ≤ expiryTime) :
    (wholeSeconds (timeUntil expiryTime now)).toInt = min ((expiryTime - now) / 1000) 9223372036 := by
  have huntil : (timeUntil expiryTime now).toInt = min (2 ^ 63 - 1) ((expiryTime - now) * 1000000) := by
    rw [timeUntil, Int64.toInt_ofInt_of_le] <;> omega
  have hdiv : (1000000000 : Int64).toInt = 1000000000 := rfl
  rw [wholeSeconds, Int64.toInt_div, huntil, hdiv, Int.tdiv_eq_ediv_of_nonneg (by omega),
    Int.bmod_eq_of_le_mul_two] <;> omega

theorem toInt_expiry {d : Int64} (hnow : -2 ^ 62 ≤ now ∧ now < 2 ^ 62) :
    (AuthManager.expiry now d).toInt = now + d.toInt / 1000000 := by
  have hlo := d.le_toInt
  have hhi := d.toInt_lt
  rw [AuthManager.expiry, Int64.toInt_ofInt_of_le] <;> omega

/-- The seconds count as minutes, and their product with a minute wraps up to thirty times. -/
theorem minutes_wrap (h : now ≤ expiryTime) :
    ∃ k, 0 ≤ k ∧ k ≤ 30 ∧
      (AuthManager.minute * wholeSeconds (timeUntil expiryTime now)).toInt =
        60000000000 * min ((expiryTime - now) / 1000) 9223372036 - k * 2 ^ 64 := by
  have hm : AuthManager.minute.toInt = 60000000000 := rfl
  rw [Int64.toInt_mul, hm, wholeSeconds_timeUntil h]
  generalize hx : 60000000000 * min ((expiryTime - now) / 1000) 9223372036 = x
  have hlo := Int.le_bmod (x := x) (m := 2 ^ 64) (by decide)
  have hhi := Int.bmod_lt (x := x) (m := 2 ^ 64) (by decide)
  have hmod := Int.bmod_emod (x := x) (m := 2 ^ 64)
  refine ⟨(x - Int.bmod x (2 ^ 64)) / 2 ^ 64, ?_, ?_, ?_⟩ <;> omega

/-- Where the product has wrapped, it comes to the time asked for only after 4377193509 seconds, when
it has wrapped fourteen times. -/
theorem wrapped_iff {ahead wait k : Int} (h : 0 ≤ ahead) (hk : 0 ≤ k) (hk' : k ≤ 30)
    (hwait : wait = 60000000000 * min (ahead / 1000) 9223372036 - k * 2 ^ 64)
    (hlo : -2 ^ 63 ≤ wait) (hhi : wait < 2 ^ 63) :
    wait / 1000000 ≤ ahead ∧ (ahead < 1000 ∨ ahead - 1000 ≤ wait / 1000000) ↔
      ahead < 1000 ∨ 4377193509000 ≤ ahead ∧ ahead ≤ 4377193509066 := by
  rcases le_total (ahead / 1000) 9223372036 with hle | hle
  · rw [min_eq_left hle] at hwait
    interval_cases k <;> omega
  · rw [min_eq_right hle] at hwait
    interval_cases k <;> omega

theorem keyExpiry_eq (hnow : -2 ^ 62 ≤ now ∧ now < 2 ^ 62) (hle : now ≤ expiryTime)
    (hlt : expiryTime < now + 153722868000) :
    keyExpiry now expiryTime = now + 60000 * ((expiryTime - now) / 1000) := by
  obtain ⟨k, hk, hk', hwait⟩ := minutes_wrap hle
  have hlo := (AuthManager.minute * wholeSeconds (timeUntil expiryTime now)).le_toInt
  have hhi := (AuthManager.minute * wholeSeconds (timeUntil expiryTime now)).toInt_lt
  rw [keyExpiry, toInt_expiry hnow]
  rw [min_eq_left (by omega)] at hwait
  omega

theorem keyExpiry_within_iff (hnow : -2 ^ 62 ≤ now ∧ now < 2 ^ 62) (hle : now ≤ expiryTime) :
    keyExpiry now expiryTime ≤ expiryTime ∧
        (expiryTime < now + 1000 ∨ expiryTime - 1000 ≤ keyExpiry now expiryTime) ↔
      expiryTime < now + 1000 ∨
        now + 4377193509000 ≤ expiryTime ∧ expiryTime ≤ now + 4377193509066 := by
  obtain ⟨k, hk, hk', hwait⟩ := minutes_wrap hle
  have hwrapped := wrapped_iff (by omega) hk hk' hwait (Int64.le_toInt _) (Int64.toInt_lt _)
  rw [keyExpiry, toInt_expiry hnow]
  omega

theorem validateTicket_createTicket {g : Aead} (hg : g.RoundTrips) {s : AuthManager}
    (hs : s.cipher = Aes.cipher g) {nonce : Bytes} (hn : nonce.length = g.nonceSize) (now : Int)
    (rs : OnSession) (durationMinutes : Int64) (v : Int) :
    s.validateTicket v (s.createTicket nonce now rs.systemId rs.stub rs.accessControl durationMinutes) =
      some ({ rs with successful := false },
        if (AuthManager.expiry now (AuthManager.minute * durationMinutes)).toInt < v
        then some .tokenTimeout else none) := by
  apply AuthManager.validateTicket_of_decrypt
  rw [AuthManager.createTicket, hs]
  exact Aes.decrypt_encrypt hg hn _

end Expiry

/-- The ticket is accepted at the time `v`, for the session it was made for. -/
def Accepts (s : AuthManager) (v : Int) (ticket : Bytes) (rs : OnSession) : Prop :=
  s.validateTicket v ticket = some ({ rs with successful := false }, none)

def Rejects (s : AuthManager) (v : Int) (ticket : Bytes) : Prop :=
  ∃ session e, s.validateTicket v ticket = some (session, some e)

section

variable {s : AuthManager} {v exp : Int} {ticket : Bytes} {rs : OnSession}
  (h : s.validateTicket v ticket =
    some ({ rs with successful := false }, if exp < v then some .tokenTimeout else none))

include h

theorem rejects_iff_of_expiry : Rejects s v ticket ↔ exp < v := by
  rw [Rejects, h]
  by_cases hv : exp < v <;> simp [hv]

theorem accepts_iff_of_expiry : Accepts s v ticket rs ↔ v ≤ exp := by
  rw [Accepts, h]
  by_cases hv : exp < v
  · simp [hv]
  · simp [hv, not_lt.mp hv]

end

/-- A key for a time at or after `now` is rejected after it and accepted up to a second before it
exactly if less than a second was asked for, or 4377193509 seconds and at most 66 milliseconds, where
the wrapped product happens to be right. As long as the product does not wrap, the key is accepted
for sixty times the seconds asked for. -/
theorem access_key_expires_iff {g : Aead} (hg : g.RoundTrips) {s : AuthManager}
    (hs : s.cipher = Aes.cipher g) {nonce : Bytes} (hn : nonce.length = g.nonceSize) (rs : OnSession)
    {now expiryTime : Int} (hnow : -2 ^ 62 ≤ now ∧ now < 2 ^ 62) (hle : now ≤ expiryTime) :
    ∃ key, adminCreateAccessKey s nonce now now now rs (some expiryTime) = .key expiryTime key ∧
      ((∀ v, expiryTime < v → Rejects s v key) ∧
          (∀ v, now ≤ v → v ≤ expiryTime - 1000 → Accepts s v key rs) ↔
        expiryTime < now + 1000 ∨
          now + 4377193509000 ≤ expiryTime ∧ expiryTime ≤ now + 4377193509066) ∧
      (expiryTime < now + 153722868000 →
        ∀ v, Accepts s v key rs ↔ v ≤ now + 60000 * ((expiryTime - now) / 1000)) := by
  have hvalid := validateTicket_createTicket hg hs hn now rs (wholeSeconds (timeUntil expiryTime now))
  rw [← keyExpiry] at hvalid
  generalize hkey : s.createTicket nonce now rs.systemId rs.stub rs.accessControl
    (wholeSeconds (timeUntil expiryTime now)) = key at hvalid
  have hrejects : ∀ v, Rejects s v key ↔ keyExpiry now expiryTime < v := fun v =>
    rejects_iff_of_expiry (hvalid v)
  have haccepts : ∀ v, Accepts s v key rs ↔ v ≤ keyExpiry now expiryTime := fun v =>
    accepts_iff_of_expiry (hvalid v)
  refine ⟨key, ?_, ?_, fun hlt v => ?_⟩
  · rw [adminCreateAccessKey]
    dsimp only
    rw [if_neg (not_lt.mpr hle), hkey]
  · rw [← keyExpiry_within_iff hnow hle]
    simp only [hrejects, haccepts]
    constructor
    · intro ⟨hrej, hacc⟩
      have hlate := hrej (expiryTime + 1) (by omega)
      refine ⟨by omega, ?_⟩
      by_cases h : expiryTime < now + 1000
      · exact .inl h
      · exact .inr (hacc (expiryTime - 1000) (by omega) le_rfl)
    · intro ⟨hhi, hlo⟩
      exact ⟨fun v hv => by omega, fun v hv hv' => by omega⟩
  · rw [haccepts, keyExpiry_eq hnow hle hlt]

/-- A key for the next 138 years, which is accepted until shortly before their end. -/
theorem access_key_expires_sample :
    ∃ key, adminCreateAccessKey plainManager (List.replicate 12 7) 1000 1000 1000 ⟨true, 5, 1, 30⟩
        (some 4377193510050) = .key 4377193510050 key ∧
      Accepts plainManager 4377193509050 key ⟨true, 5, 1, 30⟩ ∧
      Rejects plainManager 4377193510051 key := by
  have hs : plainManager.cipher = Aes.cipher plainAead := rfl
  have hn : (List.replicate 12 (7 : UInt8)).length = plainAead.nonceSize := rfl
  obtain ⟨key, hkey, hiff, -⟩ := access_key_expires_iff plainAead_roundTrips hs hn ⟨true, 5, 1, 30⟩
    (show -2 ^ 62 ≤ (1000 : Int) ∧ (1000 : Int) < 2 ^ 62 by decide)
    (show (1000 : Int) ≤ 4377193510050 by decide)
  obtain ⟨hrejects, haccepts⟩ := hiff.mpr (.inr (by decide))
  exact ⟨key, hkey, haccepts 4377193509050 (by decide) (by decide),
    hrejects 4377193510051 (by decide)⟩

/-- A key that is asked for one hour is accepted for sixty hours. -/
theorem access_key_outlives_its_hour :
    ∃ key, adminCreateAccessKey plainManager (List.replicate 12 7) 0 0 0 ⟨true, 5, 1, 30⟩
        (some 3600000) = .key 3600000 key ∧
      Accepts plainManager 216000000 key ⟨true, 5, 1, 30⟩ ∧ Rejects plainManager 216000001 key := by
  refine ⟨plainManager.createTicket (List.replicate 12 7) 0 5 1 30 3600, by decide +kernel, ?_, ?_⟩
  · unfold Accepts
    decide +kernel
  · exact ⟨⟨false, 5, 1, 30⟩, .tokenTimeout, by decide +kernel⟩

end Tarantula
