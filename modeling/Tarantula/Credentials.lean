import Tarantula.Base64
import Tarantula.Tokens

/-! Credentials are read back as they were issued, over base64 and a cipher that opens what it has
sealed. -/

namespace Tarantula

/-- The manager encrypts with AES and writes tokens with the URL alphabet of base64. -/
structure AuthManager.Standard (s : AuthManager) (g : Aead) : Prop where
  opens : g.RoundTrips
  aes : s.cipher = Aes.cipher g
  encode : s.tkn.encode = Base64.encode
  decode : s.tkn.decode = Base64.decode

section Standard

variable {s : AuthManager} {g : Aead}

theorem decrypt_cipherText (h : s.Standard g) {i : Issue} (hn : i.nonce.length = g.nonceSize) :
    s.cipher.decrypt (i.cipherText s) = some (.ok i.clearText) := by
  rw [Issue.cipherText, h.aes]
  exact Aes.decrypt_encrypt h.opens hn i.clearText

theorem dot_not_mem_encode (h : s.Standard g) (b : Bytes) : dot ∉ s.tkn.encode b := by
  rw [h.encode]
  exact Base64.not_mem_encode (by decide) (by decide) b

theorem readsBack_of_json (h : s.Standard g) {p : JwtPayload}
    (hjson : s.tkn.unmarshalPayload (s.tkn.marshalPayload p) = p) : s.tkn.ReadsBack p := by
  rw [JwtHMac.ReadsBack, h.encode, h.decode, Base64.decode_encode, hjson]

end Standard

/-- The numbers before the fourth are parsed first, and each of them may be what is wrong. -/
theorem readToken_rejects {now : Int} {jp : JwtPayload} {parts : List Bytes} {field : Bytes}
    (hfield : parts[3]? = some field) (hne : AuthManager.parseInt field 64 ≠ .ok jp.exp.toInt) :
    ∃ e, AuthManager.readToken now jp parts = some (.error e) := by
  match parts, hfield with
  | sysId :: stub :: acc :: exp :: rest, hfield =>
    have hexp : exp = field := Option.some.inj hfield
    subst hexp
    simp only [AuthManager.readToken, List.getElem?_cons_zero, List.getElem?_cons_succ,
      Option.bind_eq_bind, Option.bind_some, Option.pure_def]
    cases AuthManager.parseInt sysId 64 with
    | error e => exact ⟨e, rfl⟩
    | ok =>
      cases AuthManager.parseInt stub 32 with
      | error e => exact ⟨e, rfl⟩
      | ok =>
        cases AuthManager.parseInt acc 32 with
        | error e => exact ⟨e, rfl⟩
        | ok =>
          cases hread : AuthManager.parseInt exp 64 with
          | error e => exact ⟨e, rfl⟩
          | ok n =>
            have hn : n ≠ jp.exp.toInt := fun h => hne (h ▸ hread)
            exact ⟨.invalidTimestamp, by simp [hn]⟩

/-- A token in which the two expiry times differ is rejected, whether it is signed or not. -/
theorem validateToken_rejects {s : AuthManager} {v : Int} {token head part sum aud field : Bytes}
    (htoken : token.splitOn dot = [head, part, sum])
    (haud : s.cipher.decrypt (s.tkn.unmarshalPayload (s.tkn.decode part)).aud = some (.ok aud))
    (hfield : (aud.splitOn dot)[3]? = some field)
    (hne : AuthManager.parseInt field 64 ≠ .ok (s.tkn.unmarshalPayload (s.tkn.decode part)).exp.toInt) :
    ∃ e, s.validateToken v token = some (.error e) := by
  rw [AuthManager.validateToken, JwtHMac.verify, htoken]
  dsimp only
  by_cases hsum : s.tkn.encode (s.tkn.mac (head ++ [dot] ++ part)) ≠ sum
  · exact ⟨.signature, by rw [if_pos hsum]⟩
  · rw [if_neg hsum]
    dsimp only
    rw [haud]
    exact readToken_rejects hfield hne

/-- Tickets and tokens give back, up to the time at which they expire, the session they were made for,
and a token is rejected at every time if its payload has another expiry time than what it encrypts. -/
theorem credentials_round_trip {s : AuthManager} {g : Aead} (h : s.Standard g) {nonce : Bytes}
    (hn : nonce.length = g.nonceSize) (now : Int) (systemId : Int64) (stub accessControl : Int32) :
    (∀ durationMinutes v, v ≤ (AuthManager.expiry now (AuthManager.minute * durationMinutes)).toInt →
      s.validateTicket v (s.createTicket nonce now systemId stub accessControl durationMinutes) =
        some (⟨false, systemId, stub, accessControl⟩, none)) ∧
    (s.tkn.unmarshalPayload (s.tkn.marshalPayload (s.tokenPayload nonce now systemId stub accessControl)) =
        s.tokenPayload nonce now systemId stub accessControl →
      ∀ v, v ≤ (AuthManager.expiry now (AuthManager.hour * AuthManager.tokenTimeOutHours)).toInt →
        s.validateToken v (s.createToken nonce now systemId stub accessControl) =
          some (.ok ⟨true, systemId, stub, accessControl⟩)) ∧
    ∀ token head part sum aud field : Bytes, token.splitOn dot = [head, part, sum] →
      s.cipher.decrypt (s.tkn.unmarshalPayload (s.tkn.decode part)).aud = some (.ok aud) →
      (aud.splitOn dot)[3]? = some field →
      AuthManager.parseInt field 64 ≠ .ok (s.tkn.unmarshalPayload (s.tkn.decode part)).exp.toInt →
      ∀ v, ∃ e, s.validateToken v token = some (.error e) := by
  refine ⟨fun durationMinutes v hv => ?_, fun hjson v hv => ?_, ?_⟩
  · have hdec := decrypt_cipherText h
      (i := .ticket nonce now systemId stub accessControl durationMinutes) hn
    have hlive : ¬ (Issue.ticket nonce now systemId stub accessControl durationMinutes).exp.toInt < v :=
      not_lt.mpr hv
    have hvalid := AuthManager.validateTicket_of_decrypt hdec v
    rw [if_neg hlive] at hvalid
    exact hvalid
  · have hdec := decrypt_cipherText h (i := .token nonce now systemId stub accessControl) hn
    have hlive : ¬ (Issue.token nonce now systemId stub accessControl).exp.toInt < v := not_lt.mpr hv
    have hvalid := validateToken_createToken (dot_not_mem_encode h) hdec (readsBack_of_json h hjson) v
    rw [if_neg hlive] at hvalid
    exact hvalid
  · intro token head part sum aud field htoken haud hfield hne v
    exact validateToken_rejects htoken haud hfield hne

section Sample

def base64HMac : JwtHMac := { plainHMac with encode := Base64.encode, decode := Base64.decode }

def base64Manager : AuthManager := ⟨utf8 "kid", base64HMac, Aes.cipher plainAead⟩

theorem base64Manager_standard : base64Manager.Standard plainAead where
  opens := plainAead_roundTrips
  aes := rfl
  encode := rfl
  decode := rfl

/-- A token and a ticket with the least numbers, and a token that asks for one millisecond more. -/
theorem credentials_round_trip_sample :
    base64Manager.validateTicket 60000 (base64Manager.createTicket (List.replicate 12 7) 0
        (-9223372036854775808) (-2147483648) (-2147483648) 1) =
      some (⟨false, -9223372036854775808, -2147483648, -2147483648⟩, none) ∧
    base64Manager.validateToken 86400000 (base64Manager.createToken (List.replicate 12 7) 0
        (-9223372036854775808) (-2147483648) (-2147483648)) =
      some (.ok ⟨true, -9223372036854775808, -2147483648, -2147483648⟩) ∧
    ∃ token e, base64Manager.validateToken 0 token = some (.error e) := by
  have hn : (List.replicate 12 (7 : UInt8)).length = plainAead.nonceSize := rfl
  have hround := credentials_round_trip base64Manager_standard hn 0 (-9223372036854775808) (-2147483648)
    (-2147483648)
  refine ⟨hround.1 1 60000 (by decide +kernel), hround.2.1 (by decide +kernel) 86400000
    (by decide +kernel), ?_⟩
  have htoken : (utf8 "" ++ [dot] ++ Base64.encode (utf8 "5.000000000000000000000000" ++
      Text.hexEncode (utf8 "1.2.3.4")) ++ [dot]).splitOn dot =
      [[], Base64.encode (utf8 "5.000000000000000000000000" ++ Text.hexEncode (utf8 "1.2.3.4")), []] := by
    decide +kernel
  exact ⟨_, hround.2.2 _ _ _ _ (utf8 "1.2.3.4") (utf8 "4") htoken (by decide +kernel) (by decide +kernel)
    (by decide +kernel) 0⟩

end Sample

end Tarantula
