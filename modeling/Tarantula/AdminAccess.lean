import Tarantula.Credentials
import Tarantula.Logins

/-! The admin service over whole runs: requests come in any order, with any headers and bodies, and
the service is started again at any time. -/

namespace Tarantula

/-- The table, the credentials that the handlers issued, the password changes that are checked and not
yet written, and the tickets that the cluster client made for its calls. -/
structure Admin where
  logins : LoginTable
  issued : List Issue
  changes : List LoginObject
  rpcTickets : List Issue

inductive AdminEvent
  | start (salt : Bytes) (sql : Sql)
  | login (nonce : Bytes) (now : Int) (read : SqlRead) (body : Option LoginObject)
  | addLogin (header : Bytes) (now : Int) (salt : Bytes) (sql : Sql) (body : LoginObject)
  | changePwd (header : Bytes) (now : Int) (salt : Bytes) (read : SqlRead) (cp : ChangePassword)
  | storePwd (login : LoginObject) (sql : Sql)
  | accessKey (header nonce : Bytes) (now checked asked created : Int) (body : Option Int)
  | rpc (nonce : Bytes) (now : Int) -- the cluster client calls another node

def rpcTicketTimeoutSeconds : Int64 := 10

/-- The ticket of `RpcConnPool.setup`. Its seconds are given where minutes are taken. -/
def rpcTicket (nonce : Bytes) (now : Int) : Issue :=
  .ticket nonce now 100 100 adminAccessControl rpcTicketTimeoutSeconds

namespace Admin

def empty : Admin := ⟨⟨[], 1⟩, [], [], []⟩

def keyIssue (nonce : Bytes) (rs : OnSession) (expiryTime asked created : Int) : Issue :=
  .ticket nonce created rs.systemId rs.stub rs.accessControl (wholeSeconds (timeUntil expiryTime asked))

/-- The session a handler of the given level is called with. -/
def admitted (s : AuthManager) (now : Int) (level : Int32) (header : Bytes) : Option OnSession :=
  match logging s now level header with
  | some (.ok rs) => some rs
  | _ => none

def step (s : AuthManager) (pw : Passwords) (st : Admin) : AdminEvent → Option Admin
  | .start salt sql =>
    match pw.hash salt (utf8 "password") with
    | none => some st
    | some hash => some { st with logins := (st.logins.saveLogin (rootLogin hash) sql).1 }
  | .login nonce now read body =>
    match adminLogin pw st.logins nonce now read body with
    | .error _ => some st
    | .ok i => some { st with issued := i :: st.issued }
  | .addLogin header now salt sql body =>
    match admitted s now sudoAccessControl header with
    | none => some st
    | some rs => some { st with logins := (sudoAddLogin pw st.logins rs salt sql body).1 }
  | .changePwd header now salt read cp =>
    match admitted s now adminAccessControl header with
    | none => some st
    | some _ =>
      match adminChangePwd pw st.logins salt read cp with
      | .error _ => some st
      | .ok login => some { st with changes := login :: st.changes }
  | .storePwd login sql =>
    if login ∈ st.changes then
      some { st with
        logins := (st.logins.updatePassword login sql).1, changes := st.changes.erase login }
    else none
  | .accessKey header nonce now checked asked created body =>
    match admitted s now adminAccessControl header with
    | none => some st
    | some rs =>
      match adminCreateAccessKey s nonce checked asked created rs body with
      | .key expiryTime _ =>
        some { st with issued := keyIssue nonce rs expiryTime asked created :: st.issued }
      | _ => some st
  | .rpc nonce now => some { st with rpcTickets := rpcTicket nonce now :: st.rpcTickets }

end Admin

def AdminEvent.header : AdminEvent → Option Bytes
  | .addLogin header .. | .changePwd header .. | .accessKey header .. => some header
  | _ => none

/-- No token is forged: what it encrypts was encrypted by a handler, and not for a call to another node. -/
def Admin.Unforged (s : AuthManager) (st : Admin) (e : AdminEvent) : Prop :=
  ∀ header ∈ e.header, Authentic s st.issued header

instance (s : AuthManager) (st : Admin) (e : AdminEvent) : Decidable (st.Unforged s e) :=
  inferInstanceAs (Decidable (∀ header ∈ e.header, _))

/-- The two rows are of one account, whatever its password. -/
structure LoginRow.SameAccount (r r' : LoginRow) : Prop where
  id : r.id = r'.id
  name : r.name = r'.name
  accessControl : r.accessControl = r'.accessControl

theorem LoginRow.SameAccount.refl (r : LoginRow) : r.SameAccount r := ⟨rfl, rfl, rfl⟩

def Issue.For (i : Issue) (r : LoginRow) : Prop :=
  i.session.stub = r.id ∧ i.session.accessControl = r.accessControl

namespace Admin

/-- The row is the one of `root`, put there by a start. -/
def ByStart (e : AdminEvent) (r : LoginRow) : Prop :=
  ∃ salt sql, e = .start salt sql ∧ r.name = utf8 "root" ∧ r.accessControl = sudoAccessControl

/-- The row is added with a credential of a `sudo` account, and has at most its level. -/
def ByCreator (st : Admin) (e : AdminEvent) (r : LoginRow) : Prop :=
  ∃ header now salt sql body, e = .addLogin header now salt sql body ∧ r.name = body.name ∧
    ∃ creator ∈ st.logins.rows, creator.accessControl = sudoAccessControl ∧
      r.accessControl ≤ creator.accessControl ∧ ∃ i ∈ st.issued, i.For creator ∧ now ≤ i.exp.toInt

/-- The credential is a token for the account whose password is given. -/
def ByPassword (pw : Passwords) (st : Admin) (e : AdminEvent) (i : Issue) : Prop :=
  ∃ nonce now read login, e = .login nonce now read (some login) ∧ ∃ r ∈ st.logins.rows,
    r.name = login.name ∧ pw.validate login.password r.hash = true ∧ i.For r ∧
      i.session.systemId = login.systemId.toInt64

def ByOldPassword (pw : Passwords) (st : Admin) (e : AdminEvent) (c : LoginObject) : Prop :=
  ∃ header now salt read cp, e = .changePwd header now salt read cp ∧ c.name = cp.login ∧
    ∃ r ∈ st.logins.rows, r.name = cp.login ∧ pw.validate cp.oldPwd r.hash = true

/-- What a request does to the accounts and the credentials. -/
structure Lawful (pw : Passwords) (st : Admin) (e : AdminEvent) (st' : Admin) : Prop where
  kept : ∀ r ∈ st.logins.rows, ∃ r' ∈ st'.logins.rows, r.SameAccount r' ∧
    (r'.hash = r.hash ∨ ∃ login sql, e = .storePwd login sql ∧ login ∈ st.changes ∧
      login.name = r.name ∧ r'.hash = login.password)
  added : ∀ r' ∈ st'.logins.rows, (∃ r ∈ st.logins.rows, r.SameAccount r') ∨ ByStart e r' ∨ st.ByCreator e r'
  issued : ∀ i ∈ st'.issued, i ∈ st.issued ∨ st.ByPassword pw e i ∨ ∃ j ∈ st.issued, j.session = i.session
  checked : ∀ c ∈ st'.changes, c ∈ st.changes ∨ st.ByOldPassword pw e c
  called : ∀ i ∈ st'.rpcTickets, i ∈ st.rpcTickets ∨ ∃ nonce now, e = .rpc nonce now ∧ i = rpcTicket nonce now

/-- What holds of the accounts and the credentials at any time. -/
structure Accounted (st : Admin) : Prop where
  names : (st.logins.rows.map (·.name)).Nodup
  ids : (st.logins.rows.map (·.id)).Nodup
  taken : ∀ r ∈ st.logins.rows, 0 < r.id.toInt ∧ r.id.toInt < st.logins.next
  next : 0 < st.logins.next
  levels : ∀ r ∈ st.logins.rows, protectedAccessControl ≤ r.accessControl ∧
    r.accessControl ≤ sudoAccessControl
  credentials : ∀ i ∈ st.issued, ∃ r ∈ st.logins.rows, i.For r
  rpc : ∀ i ∈ st.rpcTickets, i.session = ⟨false, 100, 100, adminAccessControl⟩

theorem accounted_empty : Accounted empty := by
  constructor <;> simp [empty]

inductive Change (pw : Passwords) (st : Admin) (e : AdminEvent) : Admin → Prop
  | nothing {t : LoginTable} (hrows : t.rows = st.logins.rows) (hnext : st.logins.next ≤ t.next) :
      Change pw st e { st with logins := t }
  | added {r : LoginRow} (hnext : st.logins.next < 2 ^ 31) (hid : r.id = Int32.ofNat st.logins.next)
      (hname : ∀ r' ∈ st.logins.rows, r'.name ≠ r.name)
      (hlevel : protectedAccessControl ≤ r.accessControl ∧ r.accessControl ≤ sudoAccessControl)
      (hby : ByStart e r ∨ st.ByCreator e r) :
      Change pw st e { st with logins := ⟨st.logins.rows ++ [r], st.logins.next + 1⟩ }
  | issued {i : Issue} (hi : st.ByPassword pw e i ∨ ∃ j ∈ st.issued, j.session = i.session) :
      Change pw st e { st with issued := i :: st.issued }
  | checked {c : LoginObject} (hc : st.ByOldPassword pw e c) :
      Change pw st e { st with changes := c :: st.changes }
  | stored {login : LoginObject} {sql : Sql} (he : e = .storePwd login sql) (hc : login ∈ st.changes) :
      Change pw st e { st with
        logins := (st.logins.updatePassword login sql).1, changes := st.changes.erase login }
  | called {nonce : Bytes} {now : Int} (he : e = .rpc nonce now) :
      Change pw st e { st with rpcTickets := rpcTicket nonce now :: st.rpcTickets }

section Levels

theorem level_of_le {x : UInt32} (hlo : 1 ≤ x.toNat) (hhi : x.toNat ≤ 100) :
    protectedAccessControl ≤ x.toInt32 ∧ x.toInt32 ≤ sudoAccessControl := by
  have hx : x.toInt32.toInt = x.toNat := by
    calc x.toInt32.toInt = (UInt32.ofNat x.toNat).toInt32.toInt := by rw [UInt32.ofNat_toNat]
      _ = x.toNat := by rw [UInt32.toInt32_ofNat', Int32.toInt_ofNat_of_lt (by omega)]
  have hlow : protectedAccessControl.toInt = 1 := rfl
  have hhigh : sudoAccessControl.toInt = 100 := rfl
  rw [Int32.le_iff_toInt_le, Int32.le_iff_toInt_le]
  omega

theorem toNat_added_level {x : UInt32} (h : ¬ sudoAccessControl.toUInt32 < x) :
    1 ≤ (if x ≤ 0 then protectedAccessControl.toUInt32 else x).toNat ∧
      (if x ≤ 0 then protectedAccessControl.toUInt32 else x).toNat ≤ 100 := by
  have hsudo : sudoAccessControl.toUInt32.toNat = 100 := rfl
  have hzero : (0 : UInt32).toNat = 0 := rfl
  rw [UInt32.lt_iff_toNat_lt, hsudo] at h
  split
  · exact ⟨by decide, by decide⟩
  · next hx =>
    rw [UInt32.le_iff_toNat_le, hzero] at hx
    omega

end Levels

section Steps

variable {s : AuthManager} {pw : Passwords} {st st' : Admin} {e : AdminEvent}

theorem admitted_cases {now : Int} {level : Int32} {header : Bytes} {rs : OnSession}
    (hlevel : level ≠ publicAccessControl) (hg : Authentic s st.issued header)
    (h : admitted s now level header = some rs) :
    ∃ i ∈ st.issued, rs = { i.session with successful := true } ∧ now ≤ i.exp.toInt ∧
      level ≤ i.session.accessControl := by
  unfold admitted at h
  split at h
  · next hl =>
    obtain rfl := Option.some.inj h
    exact logging_ok hlevel hg hl
  · cases h

theorem change_of_save {login : LoginObject} {sql : Sql}
    (hlevel : protectedAccessControl ≤ login.accessControl.toInt32 ∧
      login.accessControl.toInt32 ≤ sudoAccessControl)
    (hby : ∀ r : LoginRow, r.name = login.name → r.accessControl = login.accessControl.toInt32 →
      ByStart e r ∨ st.ByCreator e r) :
    Change pw st e { st with logins := (st.logins.saveLogin login sql).1 } := by
  rcases saveLogin_cases st.logins login sql with ⟨hrows, hnext⟩ | ⟨hnext, -, hname, hsaved⟩
  · exact .nothing hrows hnext
  · rw [hsaved]
    exact .added hnext rfl hname hlevel (hby _ rfl rfl)

theorem change_of_addLogin (hst : st.Accounted) {now : Int} {salt header : Bytes} {sql : Sql}
    {body : LoginObject} {rs : OnSession} (hg : Authentic s st.issued header)
    (hrs : admitted s now sudoAccessControl header = some rs) :
    Change pw st (.addLogin header now salt sql body)
      { st with logins := (sudoAddLogin pw st.logins rs salt sql body).1 } := by
  obtain ⟨i, hi, rfl, hexp, hsudo⟩ := admitted_cases (by decide) hg hrs
  obtain ⟨creator, hc, hfor⟩ := hst.credentials i hi
  have hlevel : i.session.accessControl = sudoAccessControl :=
    Int32.le_antisymm (hfor.2 ▸ (hst.levels creator hc).2) hsudo
  have hcreator : creator.accessControl = sudoAccessControl := hfor.2.symm.trans hlevel
  unfold sudoAddLogin
  dsimp only
  rw [hlevel]
  split
  · exact .nothing rfl le_rfl
  · next hover =>
    obtain ⟨hlo, hhi⟩ := toNat_added_level hover
    cases hhash : pw.hash salt _ with
    | none => exact .nothing rfl le_rfl
    | some hash =>
      have hstored := level_of_le hlo hhi
      refine change_of_save ?_ fun r hname hr => .inr ⟨header, now, salt, sql, body, rfl, ?_, creator, hc,
        hcreator, ?_, i, hi, hfor, hexp⟩
      · split <;> simp_all
      · split at hname <;> exact hname
      · rw [hr, hcreator]
        split <;> simp_all

theorem change_of_step (hself : ∀ pwd, pw.validate pwd pwd = false) (hst : st.Accounted)
    (hok : st.Unforged s e) (h : step s pw st e = some st') : Change pw st e st' := by
  have hsame : Change pw st e st := .nothing rfl le_rfl
  cases e with
  | start salt sql =>
    simp only [step] at h
    split at h
    · exact Option.some.inj h ▸ hsame
    · next hash _ =>
      obtain rfl := Option.some.inj h
      have hlevel : protectedAccessControl ≤ sudoAccessControl.toUInt32.toInt32 ∧
          sudoAccessControl.toUInt32.toInt32 ≤ sudoAccessControl := by decide
      exact change_of_save hlevel fun r hname hr => .inl ⟨salt, sql, rfl, hname, hr⟩
  | login nonce now read body =>
    simp only [step] at h
    split at h
    · exact Option.some.inj h ▸ hsame
    · next i hi =>
      obtain rfl := Option.some.inj h
      obtain ⟨login, hbody, r, hr, hname, hvalid, rfl⟩ := adminLogin_ok hself hi
      obtain rfl : body = some login := hbody
      exact .issued (.inl ⟨nonce, now, read, login, rfl, r, hr, hname, hvalid, ⟨rfl, rfl⟩, rfl⟩)
  | addLogin header now salt sql body =>
    simp only [step] at h
    split at h
    · exact Option.some.inj h ▸ hsame
    · next rs hrs =>
      obtain rfl := Option.some.inj h
      exact change_of_addLogin hst (hok header rfl) hrs
  | changePwd header now salt read cp =>
    simp only [step] at h
    split at h
    · exact Option.some.inj h ▸ hsame
    · split at h
      · exact Option.some.inj h ▸ hsame
      · next login hlogin =>
        obtain rfl := Option.some.inj h
        obtain ⟨r, hr, hname, hvalid, hlogin, -⟩ := adminChangePwd_ok hlogin
        exact .checked ⟨header, now, salt, read, cp, rfl, hlogin, r, hr, hname, hvalid⟩
  | storePwd login sql =>
    simp only [step] at h
    split at h
    · next hc =>
      obtain rfl := Option.some.inj h
      exact .stored rfl hc
    · cases h
  | accessKey header nonce now checked asked created body =>
    simp only [step] at h
    split at h
    · exact Option.some.inj h ▸ hsame
    · next rs hrs =>
      obtain ⟨i, hi, rfl, -, -⟩ := admitted_cases (by decide) (hok header rfl) hrs
      split at h
      · obtain rfl := Option.some.inj h
        refine .issued (.inr ⟨i, hi, ?_⟩)
        cases i <;> rfl
      · exact Option.some.inj h ▸ hsame
  | rpc nonce now =>
    obtain rfl := Option.some.inj h
    exact .called rfl

theorem updatePassword_map (t : LoginTable) (login : LoginObject) (sql : Sql) :
    (t.updatePassword login sql).1.next = t.next ∧ ∃ g : LoginRow → LoginRow,
      (t.updatePassword login sql).1.rows = t.rows.map g ∧ ∀ r, r.SameAccount (g r) ∧
        ((g r).hash = r.hash ∨ login.name = r.name ∧ (g r).hash = login.password) := by
  unfold LoginTable.updatePassword
  split
  · exact ⟨rfl, id, (List.map_id _).symm, fun r => ⟨.refl r, .inl rfl⟩⟩
  · refine ⟨rfl, _, rfl, fun r => ?_⟩
    split
    · next hname => exact ⟨⟨rfl, rfl, rfl⟩, .inr ⟨hname.symm, rfl⟩⟩
    · exact ⟨.refl r, .inl rfl⟩

theorem Change.lawful (h : Change pw st e st') : Lawful pw st e st' := by
  have hkeep : ∀ r ∈ st.logins.rows, r.SameAccount r ∧ (r.hash = r.hash ∨ ∃ login sql,
      e = .storePwd login sql ∧ login ∈ st.changes ∧ login.name = r.name ∧ r.hash = login.password) :=
    fun r _ => ⟨.refl r, .inl rfl⟩
  have hold : ∀ r ∈ st.logins.rows,
      (∃ r₀ ∈ st.logins.rows, r₀.SameAccount r) ∨ ByStart e r ∨ st.ByCreator e r :=
    fun r hr => .inl ⟨r, hr, .refl r⟩
  cases h with
  | nothing hrows hnext =>
    refine ⟨fun r hr => ⟨r, ?_, hkeep r hr⟩, fun r hr => hold r ?_, fun i hi => .inl hi, fun c hc => .inl hc,
      fun i hi => .inl hi⟩
    · exact hrows ▸ hr
    · exact hrows ▸ hr
  | added hnext hid hname hlevel hby =>
    refine ⟨fun r hr => ⟨r, List.mem_append_left _ hr, hkeep r hr⟩, fun r hr => ?_, fun i hi => .inl hi,
      fun c hc => .inl hc, fun i hi => .inl hi⟩
    rcases List.mem_append.mp hr with hr | hr
    · exact hold r hr
    · exact .inr (List.mem_singleton.mp hr ▸ hby)
  | issued hi =>
    refine ⟨fun r hr => ⟨r, hr, hkeep r hr⟩, hold, fun i' hi' => ?_, fun c hc => .inl hc, fun i hi => .inl hi⟩
    rcases List.mem_cons.mp hi' with rfl | hi'
    · exact .inr hi
    · exact .inl hi'
  | checked hc =>
    refine ⟨fun r hr => ⟨r, hr, hkeep r hr⟩, hold, fun i hi => .inl hi, fun c' hc' => ?_, fun i hi => .inl hi⟩
    rcases List.mem_cons.mp hc' with rfl | hc'
    · exact .inr hc
    · exact .inl hc'
  | @stored login sql he hc =>
    obtain ⟨-, g, hrows, hg⟩ := updatePassword_map st.logins login sql
    refine ⟨fun r hr => ⟨g r, hrows ▸ List.mem_map_of_mem hr, (hg r).1, ?_⟩, fun r' hr' => .inl ?_,
      fun i hi => .inl hi, fun c hc => .inl (List.mem_of_mem_erase hc), fun i hi => .inl hi⟩
    · rcases (hg r).2 with hhash | ⟨hname, hhash⟩
      · exact .inl hhash
      · exact .inr ⟨login, sql, he, hc, hname, hhash⟩
    · obtain ⟨r, hr, rfl⟩ := List.mem_map.mp (hrows ▸ hr')
      exact ⟨r, hr, (hg r).1⟩
  | @called nonce now he =>
    refine ⟨fun r hr => ⟨r, hr, hkeep r hr⟩, hold, fun i hi => .inl hi, fun c hc => .inl hc, fun i hi => ?_⟩
    rcases List.mem_cons.mp hi with rfl | hi
    · exact .inr ⟨nonce, now, he, rfl⟩
    · exact .inl hi

theorem Change.accounted (hst : st.Accounted) (h : Change pw st e st') : st'.Accounted := by
  cases h with
  | @nothing t hrows hnext =>
    refine ⟨?_, ?_, fun r hr => ?_, lt_of_lt_of_le hst.next hnext, fun r hr => ?_, fun i hi => ?_, hst.rpc⟩
    · exact hrows ▸ hst.names
    · exact hrows ▸ hst.ids
    · have htaken := hst.taken r (hrows ▸ hr)
      exact ⟨htaken.1, lt_of_lt_of_le htaken.2 (Int.ofNat_le.mpr hnext)⟩
    · exact hst.levels r (hrows ▸ hr)
    · obtain ⟨r, hr, hfor⟩ := hst.credentials i hi
      exact ⟨r, hrows ▸ hr, hfor⟩
  | @added r hnext hid hname hlevel hby =>
    have hnew : r.id.toInt = st.logins.next := by rw [hid, Int32.toInt_ofNat_of_lt hnext]
    have hpos := hst.next
    refine ⟨?_, ?_, fun r' hr' => ?_, Nat.succ_pos _, fun r' hr' => ?_, fun i hi => ?_, hst.rpc⟩
    · rw [List.map_append, List.map_singleton]
      refine hst.names.append (List.nodup_singleton _) (List.disjoint_singleton.mpr fun hmem => ?_)
      obtain ⟨r', hr', he⟩ := List.mem_map.mp hmem
      exact hname r' hr' he
    · rw [List.map_append, List.map_singleton]
      refine hst.ids.append (List.nodup_singleton _) (List.disjoint_singleton.mpr fun hmem => ?_)
      obtain ⟨r', hr', he⟩ := List.mem_map.mp hmem
      have htaken := (hst.taken r' hr').2
      rw [he, hnew] at htaken
      exact lt_irrefl _ htaken
    · rcases List.mem_append.mp hr' with hr' | hr'
      · have htaken := hst.taken r' hr'
        dsimp only
        omega
      · rw [List.mem_singleton.mp hr', hnew]
        dsimp only
        omega
    · rcases List.mem_append.mp hr' with hr' | hr'
      · exact hst.levels r' hr'
      · exact List.mem_singleton.mp hr' ▸ hlevel
    · obtain ⟨r', hr', hfor⟩ := hst.credentials i hi
      exact ⟨r', List.mem_append_left _ hr', hfor⟩
  | issued hi =>
    refine ⟨hst.names, hst.ids, hst.taken, hst.next, hst.levels, fun i' hi' => ?_, hst.rpc⟩
    rcases List.mem_cons.mp hi' with rfl | hi'
    · rcases hi with ⟨nonce, now, read, login, -, r, hr, -, -, hfor, -⟩ | ⟨j, hj, hsession⟩
      · exact ⟨r, hr, hfor⟩
      · obtain ⟨r, hr, hfor⟩ := hst.credentials j hj
        exact ⟨r, hr, by rw [Issue.For, ← hsession]; exact hfor⟩
    · exact hst.credentials i' hi'
  | checked hc => exact ⟨hst.names, hst.ids, hst.taken, hst.next, hst.levels, hst.credentials, hst.rpc⟩
  | called he =>
    refine ⟨hst.names, hst.ids, hst.taken, hst.next, hst.levels, hst.credentials, fun i hi => ?_⟩
    rcases List.mem_cons.mp hi with rfl | hi
    · rfl
    · exact hst.rpc i hi
  | @stored login sql he hc =>
    obtain ⟨hnext, g, hrows, hg⟩ := updatePassword_map st.logins login sql
    have hmap : ∀ {α : Type} (f : LoginRow → α), (∀ r, f r = f (g r)) →
        (st.logins.updatePassword login sql).1.rows.map f = st.logins.rows.map f := by
      intro α f hf
      rw [hrows, List.map_map]
      exact List.map_congr_left fun r _ => (hf r).symm
    have hback : ∀ r' ∈ (st.logins.updatePassword login sql).1.rows,
        ∃ r ∈ st.logins.rows, r.SameAccount r' := by
      intro r' hr'
      obtain ⟨r, hr, rfl⟩ := List.mem_map.mp (hrows ▸ hr')
      exact ⟨r, hr, (hg r).1⟩
    refine ⟨?_, ?_, fun r' hr' => ?_, hnext ▸ hst.next, fun r' hr' => ?_, fun i hi => ?_, hst.rpc⟩
    · exact hmap _ (fun r => (hg r).1.name) ▸ hst.names
    · exact hmap _ (fun r => (hg r).1.id) ▸ hst.ids
    · obtain ⟨r, hr, hsame⟩ := hback r' hr'
      rw [hnext, ← hsame.id]
      exact hst.taken r hr
    · obtain ⟨r, hr, hsame⟩ := hback r' hr'
      rw [← hsame.accessControl]
      exact hst.levels r hr
    · obtain ⟨r, hr, hfor⟩ := hst.credentials i hi
      exact ⟨g r, hrows ▸ List.mem_map_of_mem hr, hfor.1.trans (hg r).1.id,
        hfor.2.trans (hg r).1.accessControl⟩

theorem accounted_of_reaches (hself : ∀ pwd, pw.validate pwd pwd = false)
    (h : Reaches (step s pw) (Unforged s) empty st) : st.Accounted :=
  h.invariant accounted_empty fun _ _ _ hst hok he => (change_of_step hself hst hok he).accounted hst

/-- Accounts keep their level, which is at most that of `sudo`; only a start and a `sudo` account add
one, and only the password of the account gives a credential for it. So a handler is called for an
account of at least its level, and what a request does to the accounts is lawful. -/
theorem access_controlled (hself : ∀ pwd, pw.validate pwd pwd = false)
    (h : Reaches (step s pw) (Unforged s) empty st) :
    st.Accounted ∧
    (∀ now level header session, level ≠ publicAccessControl → Authentic s st.issued header →
      logging s now level header = some (.ok session) →
      ∃ r ∈ st.logins.rows, r.id = session.stub ∧ level ≤ r.accessControl ∧
        ∃ i ∈ st.issued, i.For r ∧ now ≤ i.exp.toInt) ∧
    ∀ e st', st.Unforged s e → step s pw st e = some st' → Lawful pw st e st' := by
  have hst := accounted_of_reaches hself h
  refine ⟨hst, fun now level header session hlevel hg hl => ?_, fun e st' hok he => ?_⟩
  · obtain ⟨i, hi, rfl, hexp, hacc⟩ := logging_ok hlevel hg hl
    obtain ⟨r, hr, hfor⟩ := hst.credentials i hi
    exact ⟨r, hr, hfor.1.symm, hfor.2 ▸ hacc, i, hi, hfor, hexp⟩
  · exact (change_of_step hself hst hok he).lawful

end Steps

section Sample

/-- Hashes that show the password after a byte. -/
def plainPasswords : Passwords := ⟨fun _ pwd => some (7 :: pwd), fun pwd hash => hash = 7 :: pwd⟩

theorem plainPasswords_self (pwd : Bytes) : plainPasswords.validate pwd pwd = false := by
  simp [plainPasswords]

def sampleHeader : Bytes :=
  utf8 "Bearer " ++ base64Manager.createToken (List.replicate 12 7) 0 5 1 sudoAccessControl

/-- The service is started, calls another node, and `root` logs in and adds a login; then the token opens
a handler of the highest level. -/
theorem access_controlled_sample :
    ∃ st, Reaches (step base64Manager plainPasswords) (Unforged base64Manager) empty st ∧
      st.logins.rows.length = 2 ∧ st.rpcTickets.length = 1 ∧ ∃ session,
        logging base64Manager 1000 sudoAccessControl sampleHeader = some (.ok session) ∧
        ∃ r ∈ st.logins.rows, r.id = session.stub ∧ sudoAccessControl ≤ r.accessControl := by
  obtain ⟨st, hst, hrows, hrpc, hg⟩ := exists_reaches_of_checkedRun (step base64Manager plainPasswords)
    (Unforged base64Manager)
    (fun st => st.logins.rows.length = 2 ∧ st.rpcTickets.length = 1 ∧
      Authentic base64Manager st.issued sampleHeader) empty
    [.start [] .done, .rpc (List.replicate 12 9) 0,
      .login (List.replicate 12 7) 0 .done (some ⟨utf8 "root", utf8 "password", 0, 5, 0⟩),
      .addLogin sampleHeader 500 [] .done ⟨utf8 "ops", utf8 "secret", 9, 0, 30⟩] (by decide +kernel)
  have hl : logging base64Manager 1000 sudoAccessControl sampleHeader =
      some (.ok ⟨true, 5, 1, sudoAccessControl⟩) := by decide +kernel
  obtain ⟨r, hr, hid, hlevel, -⟩ := (access_controlled plainPasswords_self hst).2.1 _ _ _ _ (by decide) hg hl
  exact ⟨st, hst, hrows, hrpc, _, hl, r, hr, hid, hlevel⟩

end Sample

end Admin

end Tarantula
