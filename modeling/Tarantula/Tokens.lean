import Tarantula.Tickets

/-! What can be read out of the credentials that were issued, and what of it is accepted as a
ticket. Tokens and tickets share the cipher and the text that is encrypted. -/

namespace Tarantula

/-- A call that issues a credential, with its nonce and the time it reads. -/
inductive Issue
  | token (nonce : Bytes) (now : Int) (systemId : Int64) (stub accessControl : Int32)
  | ticket (nonce : Bytes) (now : Int) (systemId : Int64) (stub accessControl : Int32)
      (durationMinutes : Int64)
  deriving DecidableEq, Repr

namespace Issue

def isTicket : Issue → Bool
  | token .. => false
  | ticket .. => true

def nonce : Issue → Bytes
  | token nonce .. | ticket nonce .. => nonce

def exp : Issue → Int64
  | token _ now _ _ _ => AuthManager.expiry now (AuthManager.hour * AuthManager.tokenTimeOutHours)
  | ticket _ now _ _ _ durationMinutes => AuthManager.expiry now (AuthManager.minute * durationMinutes)

def session : Issue → OnSession
  | token _ _ systemId stub accessControl | ticket _ _ systemId stub accessControl _ =>
    ⟨false, systemId, stub, accessControl⟩

def clearText (i : Issue) : Bytes :=
  AuthManager.credential i.session.systemId i.session.stub i.session.accessControl i.exp

def cipherText (s : AuthManager) (i : Issue) : Bytes := s.cipher.encrypt i.nonce i.clearText

def output (s : AuthManager) : Issue → Bytes
  | token nonce now systemId stub accessControl => s.createToken nonce now systemId stub accessControl
  | ticket nonce now systemId stub accessControl durationMinutes =>
    s.createTicket nonce now systemId stub accessControl durationMinutes

theorem output_of_isTicket {s : AuthManager} {i : Issue} (h : i.isTicket = true) :
    i.output s = i.cipherText s := by
  cases i with
  | token => cases h
  | ticket => rfl

end Issue

/-- `Decrypt` accepts exactly what `Encrypt` has produced in these calls. -/
def Ideal (s : AuthManager) (calls : List Issue) : Prop :=
  ∀ c p, s.cipher.decrypt c = some (.ok p) ↔ ∃ i ∈ calls, c = i.cipherText s ∧ p = i.clearText

/-- The strings that can be read out of the credentials: their pieces, what base64 decodes them
to, and the fields of a token. -/
inductive Readable (s : AuthManager) (calls : List Issue) : Bytes → Prop
  | issued {i : Issue} (hi : i ∈ calls) : Readable s calls (i.output s)
  | piece {c d : Bytes} (hc : Readable s calls c) (hd : d <:+: c) : Readable s calls d
  | decoded {c : Bytes} (hc : Readable s calls c) : Readable s calls (s.tkn.decode c)
  | header {c : Bytes} (hc : Readable s calls c) {field : Bytes}
      (hf : field ∈ [(s.tkn.unmarshalHeader c).alg, (s.tkn.unmarshalHeader c).typ,
        (s.tkn.unmarshalHeader c).kid]) : Readable s calls field
  | aud {c : Bytes} (hc : Readable s calls c) : Readable s calls (s.tkn.unmarshalPayload c).aud
  | exp {c : Bytes} (hc : Readable s calls c) :
      Readable s calls (Text.formatInt (s.tkn.unmarshalPayload c).exp.toInt)

/-- A payload is read back from the token. -/
def JwtHMac.ReadsBack (j : JwtHMac) (p : JwtPayload) : Prop :=
  j.unmarshalPayload (j.decode (j.encode (j.marshalPayload p))) = p

section Tokens

variable {s : AuthManager} {calls : List Issue} {v : Int}

theorem readable_aud {nonce : Bytes} {now : Int} {systemId : Int64} {stub accessControl : Int32}
    (hi : .token nonce now systemId stub accessControl ∈ calls)
    (hread : s.tkn.ReadsBack (s.tokenPayload nonce now systemId stub accessControl)) :
    Readable s calls ((Issue.token nonce now systemId stub accessControl).cipherText s) := by
  have hout : Readable s calls (s.createToken nonce now systemId stub accessControl) := .issued hi
  have hpiece : ∀ head part sum : Bytes, part <:+: head ++ [dot] ++ part ++ [dot] ++ sum :=
    fun head part sum => ⟨head ++ [dot], [dot] ++ sum, by simp⟩
  have hpart : Readable s calls
      (s.tkn.encode (s.tkn.marshalPayload (s.tokenPayload nonce now systemId stub accessControl))) :=
    .piece hout (hpiece _ _ _)
  have haud := Readable.aud (.decoded hpart)
  rw [hread] at haud
  exact haud

theorem verify_token {j : JwtHMac} (hdot : ∀ b, dot ∉ j.encode b)
    (jp : JwtHeader → JwtPayload → JwtHeader × JwtPayload) :
    j.verify (j.token jp) =
      let (h, p) := jp ⟨j.alg, utf8 "JWT", []⟩ ⟨[], 0⟩
      .ok (j.unmarshalHeader (j.decode (j.encode (j.marshalHeader h))),
        j.unmarshalPayload (j.decode (j.encode (j.marshalPayload p)))) := by
  have hparts : ∀ head part sum : Bytes, dot ∉ head → dot ∉ part → dot ∉ sum →
      (head ++ [dot] ++ part ++ [dot] ++ sum).splitOn dot = [head, part, sum] := by
    intro head part sum hh hp hs
    have hjoin : head ++ [dot] ++ part ++ [dot] ++ sum = [dot].intercalate [head, part, sum] := by
      simp [List.intercalate]
    rw [hjoin, List.splitOn_intercalate dot (by simp [hh, hp, hs]) (by simp)]
  rw [JwtHMac.verify, JwtHMac.token, hparts _ _ _ (hdot _) (hdot _) (hdot _)]
  simp

theorem validateToken_createToken (hdot : ∀ b, dot ∉ s.tkn.encode b) {nonce : Bytes}
    {now : Int} {systemId : Int64} {stub accessControl : Int32}
    (hdec : s.cipher.decrypt ((Issue.token nonce now systemId stub accessControl).cipherText s) =
      some (.ok (Issue.token nonce now systemId stub accessControl).clearText))
    (hread : s.tkn.ReadsBack (s.tokenPayload nonce now systemId stub accessControl)) (v : Int) :
    s.validateToken v (s.createToken nonce now systemId stub accessControl) =
      some (if (Issue.token nonce now systemId stub accessControl).exp.toInt < v then .error .tokenTimeout
        else .ok ⟨true, systemId, stub, accessControl⟩) := by
  have haud : (s.tokenPayload nonce now systemId stub accessControl).aud =
      (Issue.token nonce now systemId stub accessControl).cipherText s := rfl
  rw [AuthManager.validateToken, AuthManager.createToken, verify_token hdot]
  dsimp only
  rw [hread, haud, hdec]
  dsimp only
  rw [Issue.clearText, AuthManager.splitOn_credential, AuthManager.readToken]
  simp only [List.getElem?_cons_zero, List.getElem?_cons_succ, Option.bind_eq_bind, Option.bind_some,
    AuthManager.parseInt_int64, AuthManager.parseInt_int32, Int64.ofInt_toInt, Int32.ofInt_toInt,
    Option.pure_def]
  have hexp : (Issue.token nonce now systemId stub accessControl).exp =
      (s.tokenPayload nonce now systemId stub accessControl).exp := rfl
  rw [if_neg (not_not.mpr (congrArg Int64.toInt hexp))]
  split <;> rfl

theorem validateTicket_cipherText (h : Ideal s calls) {i : Issue} (hi : i ∈ calls) (v : Int) :
    s.validateTicket v (i.cipherText s) =
      some (i.session, if i.exp.toInt < v then some .tokenTimeout else none) := by
  have hdec : s.cipher.decrypt (i.cipherText s) = some (.ok i.clearText) := (h _ _).mpr ⟨i, hi, rfl, rfl⟩
  have hsession : i.session = ⟨false, i.session.systemId, i.session.stub, i.session.accessControl⟩ := by
    cases i <;> rfl
  rw [hsession]
  exact AuthManager.validateTicket_of_decrypt hdec v

/-- What is accepted was encrypted in one of the calls and has not expired. -/
theorem exists_issue_of_accepted (h : Ideal s calls) {c : Bytes} {session : OnSession}
    (hv : s.validateTicket v c = some (session, none)) :
    ∃ i ∈ calls, c = i.cipherText s ∧ v ≤ i.exp.toInt := by
  have hdec : ∃ p, s.cipher.decrypt c = some (.ok p) := by
    cases hd : s.cipher.decrypt c with
    | none => simp [AuthManager.validateTicket, hd] at hv
    | some r =>
      cases r with
      | error e => simp [AuthManager.validateTicket, hd] at hv
      | ok p => exact ⟨p, rfl⟩
  obtain ⟨p, hp⟩ := hdec
  obtain ⟨i, hi, rfl, -⟩ := (h c p).mp hp
  refine ⟨i, hi, rfl, ?_⟩
  rw [validateTicket_cipherText h hi] at hv
  by_contra hlt
  simp [not_le.mp hlt] at hv

end Tokens

/-- Of what can be read out of the credentials only tickets are accepted as tickets exactly when
every token has expired, or what it encrypts is a ticket too. -/
theorem tokens_are_not_tickets_iff {s : AuthManager} {calls : List Issue} (h : Ideal s calls)
    (hread : ∀ nonce now systemId stub accessControl, .token nonce now systemId stub accessControl ∈ calls →
      s.tkn.ReadsBack (s.tokenPayload nonce now systemId stub accessControl)) (v : Int) :
    (∀ c, Readable s calls c → ∀ session, s.validateTicket v c = some (session, none) →
      ∃ i ∈ calls, i.isTicket = true ∧ c = i.output s) ↔
    ∀ i ∈ calls, i.isTicket = false →
      i.exp.toInt < v ∨ ∃ j ∈ calls, j.isTicket = true ∧ i.cipherText s = j.output s := by
  constructor
  · intro honly i hi htoken
    by_cases hexp : i.exp.toInt < v
    · exact .inl hexp
    · have hvalid := validateTicket_cipherText h hi v
      rw [if_neg hexp] at hvalid
      cases i with
      | token nonce now systemId stub accessControl =>
        exact .inr (honly _ (readable_aud hi (hread _ _ _ _ _ hi)) _ hvalid)
      | ticket => cases htoken
  · intro htokens c _ session hv
    obtain ⟨i, hi, rfl, hexp⟩ := exists_issue_of_accepted h hv
    cases hticket : i.isTicket with
    | true => exact ⟨i, hi, hticket, (i.output_of_isTicket hticket).symm⟩
    | false =>
      rcases htokens i hi hticket with hlt | hj
      · exact absurd hlt (not_lt.mpr hexp)
      · exact hj

section Sample

def oneCipher (nonce clearText : Bytes) : Cipher :=
  ⟨fun nonce clearText => nonce ++ clearText,
    fun c => some (if c = nonce ++ clearText then .ok clearText else .error .authentication)⟩

def sampleToken : Issue := .token (utf8 "nonce") 0 5 1 1

def tokenManager : AuthManager :=
  ⟨utf8 "kid", plainHMac, oneCipher sampleToken.nonce sampleToken.clearText⟩

theorem tokenManager_ideal : Ideal tokenManager [sampleToken] := by
  intro c p
  have hdec : tokenManager.cipher.decrypt c =
      some (if c = sampleToken.cipherText tokenManager then .ok sampleToken.clearText
        else .error .authentication) := rfl
  rw [hdec]
  by_cases hc : c = sampleToken.cipherText tokenManager
  · simp [hc, eq_comm]
  · simp [hc]

theorem tokenManager_reads {nonce : Bytes} {now : Int} {systemId : Int64} {stub accessControl : Int32}
    (h : .token nonce now systemId stub accessControl ∈ [sampleToken]) :
    tokenManager.tkn.ReadsBack (tokenManager.tokenPayload nonce now systemId stub accessControl) := by
  obtain ⟨rfl, rfl, rfl, rfl, rfl⟩ := Issue.token.inj (List.mem_singleton.mp h)
  unfold JwtHMac.ReadsBack
  decide +kernel

/-- After a day nothing that can be read out of the token is accepted. -/
theorem tokens_are_not_tickets_sample :
    Ideal tokenManager [sampleToken] ∧ ∀ c, Readable tokenManager [sampleToken] c → ∀ session,
      tokenManager.validateTicket 86400001 c ≠ some (session, none) := by
  have hiff := tokens_are_not_tickets_iff tokenManager_ideal (fun _ _ _ _ _ => tokenManager_reads) 86400001
  have hexp : sampleToken.exp.toInt < 86400001 := by decide +kernel
  have honly := hiff.mpr fun i hi _ => .inl (List.mem_singleton.mp hi ▸ hexp)
  refine ⟨tokenManager_ideal, fun c hc session hv => ?_⟩
  obtain ⟨i, hi, hticket, -⟩ := honly c hc session hv
  rw [List.mem_singleton.mp hi] at hticket
  cases hticket

/-- Only a token was issued. The `aud` of its payload is accepted as a ticket, and a call with it
reaches its handler. -/
theorem token_yields_a_ticket :
    Ideal tokenManager [sampleToken] ∧
      ∃ c, Readable tokenManager [sampleToken] c ∧
        tokenManager.validateTicket 1000 c = some (⟨false, 5, 1, 1⟩, none) ∧
        auditCall tokenManager 1000 (some fun _ => [c]) () = some (.ok ()) ∧
        ¬ ∃ i ∈ [sampleToken], i.isTicket = true ∧ c = i.output tokenManager := by
  refine ⟨tokenManager_ideal, sampleToken.cipherText tokenManager,
    readable_aud List.mem_cons_self (tokenManager_reads List.mem_cons_self), by decide +kernel,
    by decide +kernel, ?_⟩
  rintro ⟨i, hi, hticket, -⟩
  rw [List.mem_singleton.mp hi] at hticket
  cases hticket

end Sample

end Tarantula
