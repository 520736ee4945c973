import Tarantula.Runs
import Tarantula.Tokens

/-! The accounts of the admin service: the table of logins, the requests that work on it, and the check
of the token before a handler is called. -/

namespace Tarantula

def publicAccessControl : Int32 := 0
def protectedAccessControl : Int32 := 1
def adminAccessControl : Int32 := 30
def sudoAccessControl : Int32 := 100

structure LoginObject where
  name : Bytes
  password : Bytes
  id : UInt32
  systemId : UInt64
  accessControl : UInt32
  deriving DecidableEq, Repr, Inhabited

structure LoginRow where
  id : Int32
  name : Bytes
  hash : Bytes
  accessControl : Int32
  deriving DecidableEq, Repr

/-- The table `login`: the names are unique, and `next` is the value of the sequence of the ids. -/
structure LoginTable where
  rows : List LoginRow
  next : Nat
  deriving DecidableEq, Repr

/-- `bcrypt`: the hash of a password under a salt, and its check. -/
structure Passwords where
  hash : Bytes → Bytes → Option Bytes
  validate : Bytes → Bytes → Bool

inductive LoginFail
  | malformed -- the error of the decoder
  | database -- the error of the database
  | notExisted -- `login not existed`
  | badPassword -- `bad password`
  | hashing -- the error of `bcrypt`
  | overPermission -- `over permission`
  | currentPassword -- `invalid current password`
  | passwordNotSaved -- `password cannot be saved`
  deriving DecidableEq, Repr

/-- What becomes of a statement that writes: it is done, it fails, or it is done and its reply lost. -/
inductive Sql
  | done | failed | lost
  deriving DecidableEq, Repr

/-- What becomes of a query: its rows are read, it fails, or the rows cannot be read, which looks as if
there were none. -/
inductive SqlRead
  | done | failed | cut
  deriving DecidableEq, Repr

namespace LoginTable

/-- A level above the largest `INTEGER` is refused before the statement is sent. -/
def saveLogin (t : LoginTable) (login : LoginObject) (sql : Sql) : LoginTable × Option LoginFail :=
  if sql = .failed ∨ 2 ^ 31 ≤ login.accessControl.toNat ∨ 2 ^ 31 ≤ t.next then (t, some .database)
  else if t.rows.any (fun r => r.name = login.name) then ({ t with next := t.next + 1 }, some .database)
  else
    (⟨t.rows ++ [⟨Int32.ofNat t.next, login.name, login.password, login.accessControl.toInt32⟩],
      t.next + 1⟩, if sql = .lost then some .database else none)

/-- Without a row the login is left as it was given, its id included. -/
def loadLogin (t : LoginTable) (login : LoginObject) (read : SqlRead) : LoginObject × Option LoginFail :=
  if read = .failed then (login, some .database)
  else
    let login :=
      match if read = .done then t.rows.find? (fun r => r.name = login.name) else none with
      | none => login
      | some r =>
        { login with
          password := r.hash, id := r.id.toUInt32, accessControl := r.accessControl.toUInt32 }
    (login, if login.id = 0 then some .notExisted else none)

def updatePassword (t : LoginTable) (login : LoginObject) (sql : Sql) : LoginTable × Option LoginFail :=
  if sql = .failed then (t, some .database)
  else
    ({ t with
        rows := t.rows.map fun r => if r.name = login.name then { r with hash := login.password } else r },
      if sql = .lost then some .database
      else if t.rows.any (fun r => r.name = login.name) then none else some .passwordNotSaved)

end LoginTable

section Requests

variable (pw : Passwords) (t : LoginTable)

def rootLogin (hash : Bytes) : LoginObject := ⟨utf8 "root", hash, 0, 0, sudoAccessControl.toUInt32⟩

/-- `AdminLogin.Request` with the decoded body: the token that is created. -/
def adminLogin (nonce : Bytes) (now : Int) (read : SqlRead) (body : Option LoginObject) :
    Except LoginFail Issue :=
  match body with
  | none => .error .malformed
  | some login =>
    let pwd := login.password
    match t.loadLogin login read with
    | (_, some e) => .error e
    | (login, none) =>
      if pw.validate pwd login.password then
        .ok (.token nonce now login.systemId.toInt64 login.id.toInt32 login.accessControl.toInt32)
      else .error .badPassword

/-- `SudoAddLogin.Request` with what the decoder has left of the body. -/
def sudoAddLogin (rs : OnSession) (salt : Bytes) (sql : Sql) (login : LoginObject) :
    LoginTable × Option LoginFail :=
  if rs.accessControl.toUInt32 < login.accessControl then (t, some .overPermission)
  else
    let login :=
      if login.accessControl ≤ 0 then { login with accessControl := protectedAccessControl.toUInt32 }
      else login
    match pw.hash salt login.password with
    | none => (t, some .hashing)
    | some hash => t.saveLogin { login with password := hash } sql

structure ChangePassword where
  login : Bytes
  oldPwd : Bytes
  newPwd : Bytes
  deriving DecidableEq, Repr

/-- `AdminChangePwd.Request` up to the write of the new hash, before which other requests may run. -/
def adminChangePwd (salt : Bytes) (read : SqlRead) (cp : ChangePassword) : Except LoginFail LoginObject :=
  match t.loadLogin ⟨cp.login, [], 0, 0, 0⟩ read with
  | (_, some e) => .error e
  | (login, none) =>
    if pw.validate cp.oldPwd login.password then
      match pw.hash salt cp.newPwd with
      | none => .error .hashing
      | some hash => .ok { login with password := hash }
    else .error .currentPassword

end Requests

/-- Why a handler is not called, with the code of the event that is published for the request. -/
inductive Refusal
  | illegalToken | invalidToken | illegalAccess
  deriving DecidableEq, Repr

def Refusal.code : Refusal → Nat
  | illegalToken => 400101
  | invalidToken => 400102
  | illegalAccess => 400103

/-- The second of the two words of the header `Authorization`. -/
def bearer (header : Bytes) : Option Bytes :=
  match header.splitOn 32 with
  | [_, token] => some token
  | _ => none

/-- `Logging` for a handler of the given level: the session its handler is called with. -/
def logging (s : AuthManager) (now : Int) (level : Int32) (header : Bytes) :
    Option (Except Refusal OnSession) :=
  if level = publicAccessControl then some (.ok .empty)
  else
    match bearer header with
    | none => some (.error .illegalToken)
    | some token =>
      match s.validateToken now token with
      | none => none
      | some (.error _) => some (.error .invalidToken)
      | some (.ok session) =>
        if session.accessControl < level then some (.error .illegalAccess) else some (.ok session)

def openedText (s : AuthManager) (header : Bytes) : Option Bytes :=
  match bearer header with
  | none => none
  | some token =>
    match s.tkn.verify token with
    | .error _ => none
    | .ok (_, jp) =>
      match s.cipher.decrypt jp.aud with
      | some (.ok aud) => some aud
      | _ => none

/-- What the token of the header encrypts was encrypted in one of these calls. -/
def Authentic (s : AuthManager) (issued : List Issue) (header : Bytes) : Prop :=
  ∀ aud ∈ openedText s header, aud ∈ issued.map Issue.clearText

instance (s : AuthManager) (issued : List Issue) (header : Bytes) : Decidable (Authentic s issued header) :=
  inferInstanceAs (Decidable (∀ aud ∈ openedText s header, _))

section Table

variable {t : LoginTable}

theorem saveLogin_cases (t : LoginTable) (login : LoginObject) (sql : Sql) :
    (t.saveLogin login sql).1.rows = t.rows ∧ t.next ≤ (t.saveLogin login sql).1.next ∨
      t.next < 2 ^ 31 ∧ login.accessControl.toNat < 2 ^ 31 ∧ (∀ r ∈ t.rows, r.name ≠ login.name) ∧
        (t.saveLogin login sql).1 =
          ⟨t.rows ++ [⟨Int32.ofNat t.next, login.name, login.password, login.accessControl.toInt32⟩],
            t.next + 1⟩ := by
  unfold LoginTable.saveLogin
  split
  · exact .inl ⟨rfl, le_rfl⟩
  · next hfree =>
    split
    · exact .inl ⟨rfl, Nat.le_succ _⟩
    · next hname =>
      simp only [not_or, not_le] at hfree
      simp only [List.any_eq_true, decide_eq_true_eq, not_exists, not_and] at hname
      exact .inr ⟨hfree.2.2, hfree.2.1, hname, rfl⟩

theorem loadLogin_ok {login loaded : LoginObject} {read : SqlRead}
    (h : t.loadLogin login read = (loaded, none)) :
    (∃ r ∈ t.rows, r.name = login.name ∧ loaded =
      { login with password := r.hash, id := r.id.toUInt32, accessControl := r.accessControl.toUInt32 }) ∨
    loaded = login ∧ login.id ≠ 0 := by
  unfold LoginTable.loadLogin at h
  by_cases hread : read = .failed
  · simp [hread] at h
  · rw [if_neg hread] at h
    cases hfind : if read = .done then t.rows.find? (fun r => r.name = login.name) else none with
    | none =>
      simp only [hfind, Prod.mk.injEq] at h
      exact .inr ⟨h.1.symm, fun hid => by simp [hid] at h⟩
    | some r =>
      simp only [hfind, Prod.mk.injEq] at h
      refine .inl ⟨r, ?_, ?_, h.1.symm⟩ <;> by_cases hdone : read = .done
      · rw [if_pos hdone] at hfind
        exact List.mem_of_find?_eq_some hfind
      · simp [hdone] at hfind
      · rw [if_pos hdone] at hfind
        simpa using List.find?_some hfind
      · simp [hdone] at hfind

end Table

section Checks

variable {pw : Passwords} {t : LoginTable}

theorem adminLogin_ok (hself : ∀ pwd, pw.validate pwd pwd = false) {nonce : Bytes} {now : Int}
    {read : SqlRead} {body : Option LoginObject} {i : Issue}
    (h : adminLogin pw t nonce now read body = .ok i) :
    ∃ login ∈ body, ∃ r ∈ t.rows, r.name = login.name ∧ pw.validate login.password r.hash = true ∧
      i = .token nonce now login.systemId.toInt64 r.id r.accessControl := by
  cases body with
  | none => cases h
  | some login =>
    cases hload : t.loadLogin login read with
    | mk loaded err =>
      cases err with
      | some e => simp [adminLogin, hload] at h
      | none =>
        simp only [adminLogin, hload] at h
        split at h
        · next hvalid =>
          have hi := (Except.ok.inj h).symm
          rcases loadLogin_ok hload with ⟨r, hr, hname, rfl⟩ | ⟨rfl, -⟩
          · exact ⟨login, rfl, r, hr, hname, hvalid, by simpa using hi⟩
          · -- no row was read: the password would have to be its own hash
            rw [hself] at hvalid
            cases hvalid
        · cases h

theorem adminChangePwd_ok {salt : Bytes} {read : SqlRead} {cp : ChangePassword} {login : LoginObject}
    (h : adminChangePwd pw t salt read cp = .ok login) :
    ∃ r ∈ t.rows, r.name = cp.login ∧ pw.validate cp.oldPwd r.hash = true ∧ login.name = cp.login ∧
      pw.hash salt cp.newPwd = some login.password := by
  cases hload : t.loadLogin ⟨cp.login, [], 0, 0, 0⟩ read with
  | mk loaded err =>
    cases err with
    | some e => simp [adminChangePwd, hload] at h
    | none =>
      simp only [adminChangePwd, hload] at h
      rcases loadLogin_ok hload with ⟨r, hr, hname, rfl⟩ | ⟨-, hid⟩
      · split at h
        · next hvalid =>
          cases hhash : pw.hash salt cp.newPwd with
          | none => simp [hhash] at h
          | some hash =>
            simp only [hhash] at h
            rw [← Except.ok.inj h]
            exact ⟨r, hr, hname, hvalid, rfl, rfl⟩
        · cases h
      · exact absurd rfl hid

theorem readToken_clearText {now : Int} {jp : JwtPayload} {i : Issue} {session : OnSession}
    (h : AuthManager.readToken now jp (i.clearText.splitOn dot) = some (.ok session)) :
    session = { i.session with successful := true } ∧ now ≤ i.exp.toInt := by
  rw [Issue.clearText, AuthManager.splitOn_credential, AuthManager.readToken] at h
  simp only [List.getElem?_cons_zero, List.getElem?_cons_succ, Option.bind_eq_bind, Option.bind_some,
    AuthManager.parseInt_int64, AuthManager.parseInt_int32, Int64.ofInt_toInt, Int32.ofInt_toInt,
    Option.pure_def] at h
  split at h
  · cases h
  · split at h
    · cases h
    · next hexp =>
      exact ⟨(Except.ok.inj (Option.some.inj h)).symm, not_lt.mp hexp⟩

/-- A handler that is not public is called for a credential that was issued, is not expired and has at
least the level of the handler. -/
theorem logging_ok {s : AuthManager} {issued : List Issue} {now : Int} {level : Int32} {header : Bytes}
    {session : OnSession} (hlevel : level ≠ publicAccessControl) (hg : Authentic s issued header)
    (h : logging s now level header = some (.ok session)) :
    ∃ i ∈ issued, session = { i.session with successful := true } ∧ now ≤ i.exp.toInt ∧
      level ≤ i.session.accessControl := by
  unfold logging at h
  rw [if_neg hlevel] at h
  cases hb : bearer header with
  | none => simp [hb] at h
  | some token =>
    cases hv : s.validateToken now token with
    | none => simp [hb, hv] at h
    | some r =>
      cases r with
      | error e => simp [hb, hv] at h
      | ok found =>
        simp only [hb, hv] at h
        split at h
        · cases h
        · next hacc =>
          obtain rfl : found = session := Except.ok.inj (Option.some.inj h)
          unfold AuthManager.validateToken at hv
          cases hverify : s.tkn.verify token with
          | error e => simp [hverify] at hv
          | ok p =>
            cases hdec : s.cipher.decrypt p.2.aud with
            | none => simp [hverify, hdec] at hv
            | some q =>
              cases q with
              | error e => simp [hverify, hdec] at hv
              | ok aud =>
                simp only [hverify, hdec] at hv
                have hopen : aud ∈ openedText s header := by simp [openedText, hb, hverify, hdec]
                obtain ⟨i, hi, rfl⟩ := List.mem_map.mp (hg aud hopen)
                obtain ⟨rfl, hexp⟩ := readToken_clearText hv
                exact ⟨i, hi, rfl, hexp, Int32.not_lt.mp hacc⟩

end Checks

end Tarantula
