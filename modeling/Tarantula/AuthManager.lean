import Tarantula.MemberHashRing
import Tarantula.Text

/-! Tickets and tokens, and the check of the ticket that every call to a postoffice carries. Times
are in milliseconds. The result of a function that slices or indexes its input is `none` where
it panics. -/

namespace Tarantula

/-- `cipher.AEAD`: `opened` is `none` for an error. -/
structure Aead where
  nonceSize : Nat
  sealed : Bytes → Bytes → Bytes
  opened : Bytes → Bytes → Option Bytes

inductive AuthFail
  | hex (e : Text.HexError)
  | authentication -- the error of the cipher
  | number (num : Bytes) (e : Text.NumError)
  | ticketFormat (data : Bytes) -- `wrong ticket format %s`
  | tokenFormat -- `bad token format`
  | signature -- `bad signature`
  | invalidTimestamp -- `invalid timestamp`
  | tokenTimeout -- `token timeout`
  deriving DecidableEq, Repr

/-- What credentials are encrypted with: a text under a random nonce. -/
structure Cipher where
  encrypt : Bytes → Bytes → Bytes
  decrypt : Bytes → Option (Except AuthFail Bytes)

namespace Aes

def encrypt (g : Aead) (nonce clearText : Bytes) : Bytes :=
  Text.hexEncode (nonce ++ g.sealed nonce clearText)

/-- The bytes after the nonce are sliced without a look at the length. -/
def decrypt (g : Aead) (cipherText : Bytes) : Option (Except AuthFail Bytes) :=
  match Text.hexDecode cipherText with
  | .error e => some (.error (.hex e))
  | .ok pendingText =>
    if pendingText.length < g.nonceSize then none
    else
      match g.opened (pendingText.take g.nonceSize) (pendingText.drop g.nonceSize) with
      | none => some (.error .authentication)
      | some clearText => some (.ok clearText)

def cipher (g : Aead) : Cipher := ⟨encrypt g, decrypt g⟩

end Aes

structure JwtHeader where
  alg : Bytes
  typ : Bytes
  kid : Bytes
  deriving DecidableEq, Repr

structure JwtPayload where
  aud : Bytes
  exp : Int64
  deriving DecidableEq, Repr

/-- The signing of tokens, over the codecs of the standard library: `encode` and `decode` are base64,
`decode` and the readers of JSON leave what they have read before an error. -/
structure JwtHMac where
  alg : Bytes
  mac : Bytes → Bytes
  encode : Bytes → Bytes
  decode : Bytes → Bytes
  marshalHeader : JwtHeader → Bytes
  marshalPayload : JwtPayload → Bytes
  unmarshalHeader : Bytes → JwtHeader
  unmarshalPayload : Bytes → JwtPayload

/-- `.`, between the parts of a token and of the text of a credential. -/
def dot : UInt8 := 46

namespace JwtHMac

variable (j : JwtHMac)

def token (jp : JwtHeader → JwtPayload → JwtHeader × JwtPayload) : Bytes :=
  let (h, p) := jp ⟨j.alg, utf8 "JWT", []⟩ ⟨[], 0⟩
  let sb := j.encode (j.marshalHeader h) ++ [dot] ++ j.encode (j.marshalPayload p)
  sb ++ [dot] ++ j.encode (j.mac sb)

def verify (token : Bytes) : Except AuthFail (JwtHeader × JwtPayload) :=
  match token.splitOn dot with
  | [h, p, sum] =>
    if j.encode (j.mac (h ++ [dot] ++ p)) ≠ sum then .error .signature
    else .ok (j.unmarshalHeader (j.decode h), j.unmarshalPayload (j.decode p))
  | _ => .error .tokenFormat

end JwtHMac

structure OnSession where
  successful : Bool
  systemId : Int64
  stub : Int32
  accessControl : Int32
  deriving DecidableEq, Repr

def OnSession.empty : OnSession := ⟨false, 0, 0, 0⟩

structure AuthManager where
  kid : Bytes
  tkn : JwtHMac
  cipher : Cipher

namespace AuthManager

def tokenTimeOutHours : Int64 := 24

/-- `time.Minute` and `time.Hour` -/
def minute : Int64 := 60000000000
def hour : Int64 := 3600000000000

/-- `UnixMilli` of the time `d` nanoseconds after `now`. -/
def expiry (now : Int) (d : Int64) : Int64 := Int64.ofInt (now + d.toInt / 1000000)

def credential (systemId : Int64) (stub accessControl : Int32) (exp : Int64) : Bytes :=
  [dot].intercalate [Text.formatInt systemId.toInt, Text.formatInt stub.toInt,
    Text.formatInt accessControl.toInt, Text.formatInt exp.toInt]

def parseInt (part : Bytes) (bitSize : Nat) : Except AuthFail Int :=
  match Text.parseInt bitSize part with
  | .error e => .error (.number part e)
  | .ok n => .ok n

variable (s : AuthManager)

def tokenPayload (nonce : Bytes) (now : Int) (systemId : Int64) (stub accessControl : Int32) : JwtPayload :=
  let exp := expiry now (hour * tokenTimeOutHours)
  ⟨s.cipher.encrypt nonce (credential systemId stub accessControl exp), exp⟩

def createToken (nonce : Bytes) (now : Int) (systemId : Int64) (stub accessControl : Int32) : Bytes :=
  s.tkn.token fun h _ => ({ h with kid := s.kid }, s.tokenPayload nonce now systemId stub accessControl)

/-- The parts are indexed one after another, so that the first number that cannot be parsed ends
it before a part is missed. -/
def readToken (now : Int) (jp : JwtPayload) (parts : List Bytes) : Option (Except AuthFail OnSession) := do
  match parseInt (← parts[0]?) 64 with
  | .error e => return .error e
  | .ok sysId =>
    match parseInt (← parts[1]?) 32 with
    | .error e => return .error e
    | .ok stub =>
      match parseInt (← parts[2]?) 32 with
      | .error e => return .error e
      | .ok acc =>
        match parseInt (← parts[3]?) 64 with
        | .error e => return .error e
        | .ok exp =>
          if exp ≠ jp.exp.toInt then return .error .invalidTimestamp
          else if exp < now then return .error .tokenTimeout
          else return .ok ⟨true, Int64.ofInt sysId, Int32.ofInt stub, Int32.ofInt acc⟩

def validateToken (now : Int) (token : Bytes) : Option (Except AuthFail OnSession) :=
  match s.tkn.verify token with
  | .error e => some (.error e)
  | .ok (_, jp) =>
    match s.cipher.decrypt jp.aud with
    | none => none
    | some (.error e) => some (.error e)
    | some (.ok aud) => readToken now jp (aud.splitOn dot)

def createTicket (nonce : Bytes) (now : Int) (systemId : Int64) (stub accessControl : Int32)
    (durationMinutes : Int64) : Bytes :=
  s.cipher.encrypt nonce (credential systemId stub accessControl (expiry now (minute * durationMinutes)))

/-- The session is filled field by field, also where an error follows. -/
def readTicket (now : Int) (sysId stub acc exp : Bytes) : OnSession × Option AuthFail :=
  let session := OnSession.empty
  match parseInt sysId 64 with
  | .error e => (session, some e)
  | .ok sysId =>
    let session := { session with systemId := Int64.ofInt sysId }
    match parseInt stub 32 with
    | .error e => (session, some e)
    | .ok stub =>
      let session := { session with stub := Int32.ofInt stub }
      match parseInt acc 32 with
      | .error e => (session, some e)
      | .ok acc =>
        let session := { session with accessControl := Int32.ofInt acc }
        match parseInt exp 64 with
        | .error e => (session, some e)
        | .ok exp => if exp < now then (session, some .tokenTimeout) else (session, none)

def validateTicket (now : Int) (ticket : Bytes) : Option (OnSession × Option AuthFail) :=
  match s.cipher.decrypt ticket with
  | none => none
  | some (.error e) => some (.empty, some e)
  | some (.ok data) =>
    match data.splitOn dot with
    | [sysId, stub, acc, exp] => some (readTicket now sysId stub acc exp)
    | _ => some (.empty, some (.ticketFormat data))

end AuthManager

section Audit

def rpcTicketHeader : String := "ticket"

/-- The status `Unauthenticated` with its text. -/
inductive Unauthenticated
  | noTicketHeader -- `no ticket header`
  | invalidTicket -- `invalid ticket`
  | invalidTicketError (e : AuthFail) -- `invalid ticket %s`
  deriving DecidableEq, Repr

/-- What the two audits share: the first ticket of the metadata of a call is validated before the
handler runs. -/
def audit {ρ : Type} (refuse : AuthFail → Unauthenticated) (s : AuthManager) (now : Int)
    (md : Option (String → List Bytes)) (handler : ρ) : Option (Except Unauthenticated ρ) :=
  match md with
  | none => some (.error .noTicketHeader)
  | some hd =>
    match hd rpcTicketHeader with
    | [] => some (.error .noTicketHeader)
    | ticket :: _ =>
      match s.validateTicket now ticket with
      | none => none
      | some (_, some e) => some (.error (refuse e))
      | some (_, none) => some (.ok handler)

def auditCall {ρ : Type} (s : AuthManager) (now : Int) (md : Option (String → List Bytes)) (handler : ρ) :
    Option (Except Unauthenticated ρ) := audit (fun _ => .invalidTicket) s now md handler

def auditStreaming {ρ : Type} (s : AuthManager) (now : Int) (md : Option (String → List Bytes))
    (handler : ρ) :
    Option (Except Unauthenticated ρ) := audit .invalidTicketError s now md handler

end Audit

inductive KeyReply
  | malformed -- the error of the decoder
  | expired (expiryTime : Int) -- `time already expired :%v`
  | key (expiryTime : Int) (key : Bytes)
  deriving DecidableEq, Repr

/-- `time.Until` in nanoseconds, which stops at the bounds of a duration. -/
def timeUntil (t now : Int) : Int64 :=
  Int64.ofInt (max (-2 ^ 63) (min (2 ^ 63 - 1) ((t - now) * 1000000)))

/-- `Seconds` of a duration as an integer: a float has room for the milliseconds. -/
def wholeSeconds (d : Int64) : Int64 := d / 1000000000

/-- `AdminCreateAccessKey.Request` with the decoded time, if the body could be decoded, and the three
readings of the clock that it takes. -/
def adminCreateAccessKey (s : AuthManager) (nonce : Bytes) (checked asked created : Int) (rs : OnSession)
    (body : Option Int) : KeyReply :=
  match body with
  | none => .malformed
  | some expiryTime =>
    if expiryTime < checked then .expired expiryTime
    else
      let dur := wholeSeconds (timeUntil expiryTime asked)
      .key expiryTime (s.createTicket nonce created rs.systemId rs.stub rs.accessControl dur)

namespace AuthManager

section Credentials

theorem splitOn_credential (systemId : Int64) (stub accessControl : Int32) (exp : Int64) :
    (credential systemId stub accessControl exp).splitOn dot =
      [Text.formatInt systemId.toInt, Text.formatInt stub.toInt, Text.formatInt accessControl.toInt,
        Text.formatInt exp.toInt] := by
  refine List.splitOn_intercalate dot (fun l hl => ?_) (by simp)
  have hno : ∀ n : Int, dot ∉ Text.formatInt n := fun n => Text.formatInt_not_mem (by decide) (by decide)
  simp only [List.mem_cons, List.not_mem_nil, or_false] at hl
  rcases hl with rfl | rfl | rfl | rfl <;> exact hno _

theorem parseInt_int64 (n : Int64) : parseInt (Text.formatInt n.toInt) 64 = .ok n.toInt := by
  have hread : Text.parseInt 64 (Text.formatInt n.toInt) = .ok n.toInt :=
    Text.parseInt_formatInt (by decide) n.le_toInt n.toInt_lt
  rw [parseInt, hread]

theorem parseInt_int32 (n : Int32) : parseInt (Text.formatInt n.toInt) 32 = .ok n.toInt := by
  have hread : Text.parseInt 32 (Text.formatInt n.toInt) = .ok n.toInt :=
    Text.parseInt_formatInt (by decide) n.le_toInt n.toInt_lt
  rw [parseInt, hread]

theorem validateTicket_of_decrypt {s : AuthManager} {ticket : Bytes} {systemId : Int64}
    {stub accessControl : Int32} {exp : Int64}
    (h : s.cipher.decrypt ticket = some (.ok (credential systemId stub accessControl exp))) (now : Int) :
    s.validateTicket now ticket = some (⟨false, systemId, stub, accessControl⟩,
      if exp.toInt < now then some .tokenTimeout else none) := by
  rw [validateTicket, h]
  dsimp only
  rw [splitOn_credential]
  dsimp only [readTicket]
  rw [parseInt_int64, parseInt_int32, parseInt_int32, parseInt_int64]
  dsimp only
  rw [Int64.ofInt_toInt, Int32.ofInt_toInt, Int32.ofInt_toInt]
  split <;> rfl

end Credentials

end AuthManager

/-- The cipher opens what it has sealed. -/
def Aead.RoundTrips (g : Aead) : Prop :=
  ∀ nonce clearText, nonce.length = g.nonceSize → g.opened nonce (g.sealed nonce clearText) = some clearText

theorem Aes.decrypt_encrypt {g : Aead} (hg : g.RoundTrips) {nonce : Bytes} (hn : nonce.length = g.nonceSize)
    (clearText : Bytes) : decrypt g (encrypt g nonce clearText) = some (.ok clearText) := by
  rw [decrypt, encrypt, Text.hexDecode_hexEncode]
  dsimp only
  rw [if_neg (by simp [hn]), List.take_left' hn, List.drop_left' hn, hg nonce clearText hn]

end Tarantula
