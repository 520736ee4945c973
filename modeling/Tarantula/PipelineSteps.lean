import Tarantula.ByteBuffer
import Tarantula.Deferred
import Tarantula.ImageRefs
import Tarantula.Protocol

/-! The participants of a pipeline: what each of its steps does to reserve, confirm and cancel, as a
function of its calls to the cluster, the platform, a machine over ssh, the vault and the store. -/

namespace Tarantula

/-- The transaction of a mail, with the bytes of its message. -/
structure MailTransaction where
  mt : Meta
  message : Option Bytes
  deriving DecidableEq, Repr

namespace Pipeline

structure GitKey extends GitAccess where
  key : String

/-- The parts of an `AuthKey` that a step reads itself, where `none` is nil. -/
structure AuthKey where
  git : Option GitKey
  docker : Option DockerAccess

structure Platform where
  sshKey : String
  sshUser : String

inductive Script
  | command (c : Command)
  | setup (text : String)
  | cloneTests (url : String)
  | entrypoint (baseURL appTag : String)
  | clonePromo (url : String)
  | tag (name : String)
  | pushTag (name : String)

def Script.text : Script → String
  | command c => c.text
  | setup text => text
  | cloneTests url => "git clone " ++ url ++ " tests"
  | entrypoint baseURL appTag =>
    "BASE_URL='" ++ baseURL ++ "' APP_TAG='" ++ appTag ++ "' bash tests/entrypoint.sh 2>&1"
  | clonePromo url => "git clone --depth 1 " ++ url ++ " promo"
  | tag name => "git -C promo tag " ++ name
  | pushTag name => "git -C promo push origin " ++ name

inductive Effect
  | authKey (name : String)
  -- checks out and loads `deploy.json`
  | readConfig (repo : RepoObject) (platform name : String) (git : GitKey)
  | listRepos (token org : String)
  | openPlatform (phase : Core.PhaseConfig) (key : AuthKey)
  | closePlatform
  | provision (name : String)
  | remove (name : String)
  | ip (name : String)
  | connect (host user key : String)
  | expired -- `time.Now().After(deadline)`
  | sleep (seconds : Nat)
  | closeSsh
  | run (minutes : Nat) (script : Script)
  | createTemp
  | writeKey (file key : String) -- of the key that `NormalizePemKey` makes
  | closeTemp (file : String)
  | removeTemp (file : String)
  | openKey (file : String)
  | closeKey (file : String)
  | upload (file path mode : String)
  | vaultAuth
  | getSecret (mount path : String)
  | randomPassword
  | putSecret (mount path : String) (data : List (String × String))
  | publish (title source message : String)
  | insert (mt : Meta)

/-- An error that is not nil is `some` text, and what is returned beside an error is not read. -/
abbrev Effect.Ans : Effect → Type
  | authKey _ => Except String AuthKey
  | readConfig .. => Except String Core.DeployConfig
  | listRepos .. => Except String (List String)
  | openPlatform .. => Except String Platform
  | ip _ | createTemp | randomPassword => Except String String
  | provision _ | remove _ | connect .. | writeKey .. | openKey _ | upload .. | vaultAuth | putSecret .. |
    publish .. => Option String
  | expired => Bool
  | run .. => Option (String × String) -- the error and the output
  | getSecret .. => List (String × String) -- none where it is nil, and where there is an error
  | insert _ => Except String Nat -- the number of rows
  | closePlatform | sleep _ | closeSsh | closeTemp _ | removeTemp _ | closeKey _ => Unit

/-- The errors, each with its text in the source. -/
inductive StepFail
  | unmarshal -- the error of the decoder, also for a missing message
  | authKey (name e : String) -- `%s auth key: %w`
  | deployRepo -- `deploy config: deploy repo is required`
  | deployConfig (e : String) -- `deploy config: %w`
  | listRepos (e : String) -- `list repos: %w`
  | notFound (name : String) -- `repository %s not found in org`
  | platformInit (e : String) -- `platform init: %w`
  | provision (name e : String) -- `provision %s: %w`
  | ip (name e : String) -- `get IP: %w`, `test VM IP: %w`, `app instance IP (%s): %w` and the like
  | connect (e : String) -- `ssh connect: %w`
  | timedOut (e : String) -- `ssh connect: timed out: %w`, `ssh to %s: timed out`
  | login (e : String) -- `docker login failed (credentials redacted): %w`
  | tests (e output : String) -- `tests failed: %w — %s`
  | script (text e output : String) -- `cmd %q: %w — %s` and the like
  | tempFile (e : String) -- `create temp key file: %w`
  | writeKey (e : String) -- `write git key: %w`
  | uploadKey (e : String) -- `upload git key: %w`
  | vaultAuth (e : String) -- `seed credentials: vault auth: %w`
  | generate (key e : String) -- `seed credentials: generate %s: %w`
  | putSecret (mount path e : String) -- `seed credentials: put secret %s/%s: %w`
  | insert (e : String) -- the error of the store
  | notInserted (rows : Nat) -- `no meta inserted %d`
  | state (s : TccState) -- `state not supported %d`

abbrev Step := ExceptT StepFail (Body Effect Effect.Ans)

def ask (c : Effect) : Step c.Ans := ExceptT.lift (Body.perform c)

def defer (c : Effect) : Step Unit := ExceptT.lift (Body.defer c)

/-- A nil pointer is read. -/
def panics {α : Type} : Step α := ExceptT.mk Body.panics

/-- A call of a function, which has deferred calls of its own. -/
def func {α : Type} (p : Step α) : Step α := ExceptT.mk (Body.func p.run)

/-- The error that a function returns is only logged. -/
def logged (p : Step Unit) : Step Unit := ExceptT.lift p.run >>= fun _ => pure ()

/-- `if err != nil { return … }` -/
def check (fail : String → StepFail) : Option String → Step Unit
  | none => pure ()
  | some e => throw (fail e)

def value {α : Type} (fail : String → StepFail) : Except String α → Step α
  | .ok a => pure a
  | .error e => throw (fail e)

def notNil {α : Type} : Option α → Step α
  | some a => pure a
  | none => panics

structure Handler where
  vaultKey : String
  vault : VaultAccess
  unmarshal : Bytes → Option PlanObject
  upper : Char → Char -- `unicode.ToUpper`
  sprintf : String → String → String -- `fmt.Sprintf` with one argument

section Parts

def insert (mt : Meta) : Step Unit := do
  let rows ← value .insert (← ask (.insert mt))
  if rows = 1 then pure () else throw (.notInserted rows)

def authKey (name : String) : Step AuthKey := do value (.authKey name) (← ask (.authKey name))

def planOf (h : Handler) (t : MailTransaction) : Step PlanObject :=
  match t.message.bind h.unmarshal with
  | none => throw .unmarshal
  | some plan => pure plan

/-- The key for git and the configuration. The repository is looked at before the key is. -/
def loadConfig (plan : PlanObject) : Step (GitKey × Core.DeployConfig) := do
  let gitKey ← authKey "git"
  match plan.deployRepo with
  | none => throw .deployRepo
  | some repo =>
    if repo.name = "" then throw .deployRepo
    else
      let git ← notNil gitKey.git
      let cfg ← value .deployConfig (← ask (.readConfig repo plan.platform plan.planName git))
      return (git, cfg)

/-- The platform, which is closed when the handler is left. -/
def openPlatform (phase : Core.PhaseConfig) (key : AuthKey) : Step Platform := do
  let platform ← value .platformInit (← ask (.openPlatform phase key))
  defer .closePlatform
  return platform

def sshUser (phase : Core.PhaseConfig) (platform : Platform) : String :=
  if phase.sshUser = "" then platform.sshUser else phase.sshUser

/-- `%s-%02d` -/
def instanceName (namePrefix : String) (seq : Int32) : String :=
  let seq := if seq < 1 then 1 else seq.toInt.toNat
  namePrefix ++ "-" ++ (if seq < 10 then "0" else "") ++ toString seq

def addressOf (name : String) : Step String := do value (.ip name) (← ask (.ip name))

/-- Tries to connect until five minutes are over, which they are after 31 pauses of ten seconds. -/
def awaitSsh (host user key : String) : Nat → Step Unit
  | 0 => do check .timedOut (← ask (.connect host user key))
  | pauses + 1 => do
    match ← ask (.connect host user key) with
    | none => pure ()
    | some e =>
      match ← ask .expired with
      | true => throw (.timedOut e)
      | false =>
        let _ ← ask (.sleep 10)
        awaitSsh host user key pauses

def Script.fail : Script → String → String → StepFail
  | .command (.login ..), e, _ => .login e
  | .entrypoint .., e, output => .tests e output
  | script, e, output => .script script.text e output

def runScript (minutes : Nat) (script : Script) : Step Unit := do
  match ← ask (.run minutes script) with
  | none => pure ()
  | some (e, output) => throw (script.fail e output)

def runScripts (minutes : Script → Nat) : List Script → Step Unit
  | [] => pure ()
  | script :: scripts => do
    runScript (minutes script) script
    runScripts minutes scripts

def commandMinutes : Script → Nat
  | .command (.login ..) | .command (.removeDir _) | .command (.clone _) | .command (.checkout ..) => 2
  | _ => 10

/-- A file with the key, which is removed when the handler is left. -/
def writeKeyFile (git : GitKey) : Step String := do
  let file ← value .tempFile (← ask .createTemp)
  defer (.removeTemp file)
  let err ← ask (.writeKey file git.key)
  let _ ← ask (.closeTemp file)
  check .writeKey err
  return file

def uploadGitKey (user file : String) : Step Unit := func do
  check .uploadKey (← ask (.openKey file))
  defer (.closeKey file)
  check .uploadKey (← ask (.upload file ("/home/" ++ user ++ "/.ssh/id_ed25519") "0600"))

end Parts

namespace Check

def reserve (h : Handler) (t : MailTransaction) : Step Unit := do
  let plan ← planOf h t
  match plan.appRepo with
  | none => insert t.mt
  | some repo =>
    if repo.name = "" then insert t.mt
    else
      let gitKey ← authKey "git"
      let git ← notNil gitKey.git
      let repos ← value .listRepos (← ask (.listRepos git.token git.org))
      if repo.name ∈ repos then insert t.mt else throw (.notFound repo.name)

end Check

namespace Create

/-- The platform of the plan and the name of its instance. -/
def prepare (h : Handler) (t : MailTransaction) : Step String := do
  let plan ← planOf h t
  let (_, cfg) ← loadConfig plan
  let deployPhase := (cfg.resolve plan.env "deploy").1
  let platformKey ← authKey h.vaultKey
  let _ ← openPlatform deployPhase platformKey
  return instanceName deployPhase.namePrefix plan.seq

def reserve (h : Handler) (t : MailTransaction) : Step Unit := do
  let name ← prepare h t
  check (.provision name) (← ask (.provision name))
  insert t.mt

/-- Every error but the one of the store is only logged. -/
def cancel (h : Handler) (t : MailTransaction) : Step Unit := do
  match ← (ExceptT.lift (prepare h t).run : Step (Except StepFail String)) with
  | .error _ => insert t.mt
  | .ok name =>
    let _ ← ask (.remove name)
    insert t.mt

end Create

namespace Update

def installDocker (user : String) : Step Unit :=
  runScripts (fun _ => 10) <| List.map .setup
    ["mkdir -p ~/.ssh && chmod 700 ~/.ssh",
      "sudo apt-get update -qq",
      "sudo apt-get install -y -qq ca-certificates curl",
      "sudo install -m 0755 -d /etc/apt/keyrings",
      "sudo curl -fsSL https://download.docker.com/linux/debian/gpg -o /etc/apt/keyrings/docker.asc",
      "sudo chmod a+r /etc/apt/keyrings/docker.asc",
      "echo \"deb [arch=$(dpkg --print-architecture) signed-by=/etc/apt/keyrings/docker.asc] " ++
        "https://download.docker.com/linux/debian $(. /etc/os-release && echo \"$VERSION_CODENAME\") stable\" " ++
        "| sudo tee /etc/apt/sources.list.d/docker.list > /dev/null",
      "sudo apt-get update -qq",
      "sudo apt-get install -y -qq docker-ce docker-ce-cli containerd.io docker-buildx-plugin " ++
        "docker-compose-plugin git",
      "sudo usermod -aG docker " ++ user,
      "ssh-keyscan github.com >> ~/.ssh/known_hosts"]

def setupInstance (platform : Platform) (name user file : String) : Step Unit := func do
  let ip ← addressOf name
  awaitSsh ip user platform.sshKey 31
  defer .closeSsh
  installDocker user
  uploadGitKey user file

def reserve (h : Handler) (t : MailTransaction) : Step Unit := do
  let plan ← planOf h t
  let (git, cfg) ← loadConfig plan
  let deployPhase := (cfg.resolve plan.env "deploy").1
  let platformKey ← authKey h.vaultKey
  let platform ← openPlatform deployPhase platformKey
  let file ← writeKeyFile git
  let name := instanceName deployPhase.namePrefix plan.seq
  logged (setupInstance platform name (sshUser deployPhase platform) file)
  insert t.mt

end Update

namespace Build

/-- The host for the target of the plan: one of the list, the one host, or an instance. -/
def buildHost (phase : Core.PhaseConfig) (seq : Int32) : Step String :=
  let n := if seq < 1 then 1 else seq.toInt.toNat
  match phase.buildHosts[n - 1]? with
  | some host => pure host
  | none =>
    if phase.buildHost ≠ "" then pure phase.buildHost
    else addressOf (instanceName phase.namePrefix seq)

/-- The credentials are read once the connection is there. -/
def onHost (host key user : String) (git : GitKey) (plan : PlanObject) (docker : Option DockerAccess)
    (services : List Core.GcpServiceConfig) : Step Unit := func do
  awaitSsh host user key 31
  defer .closeSsh
  let docker ← notNil docker
  let deployRepo ← notNil plan.deployRepo
  runScripts commandMinutes ((buildOnHost git.toGitAccess docker plan deployRepo services).map .command)

def reserve (h : Handler) (t : MailTransaction) : Step Unit := do
  let plan ← planOf h t
  let (git, cfg) ← loadConfig plan
  let (buildPhase, cfg) := cfg.resolve plan.env "build"
  let deployPhase := (cfg.resolve plan.env "deploy").1
  let platformKey ← authKey h.vaultKey
  let dockerKey ← authKey "docker"
  let platform ← openPlatform buildPhase platformKey
  let buildIP ← buildHost buildPhase plan.seq
  onHost buildIP platform.sshKey (sshUser buildPhase platform) git plan dockerKey.docker deployPhase.services
  insert t.mt

end Build

namespace Deploy

def secretText (key : String) (field : Core.CredentialField) : Step String :=
  if field.generate then do value (.generate key) (← ask .randomPassword) else pure field.value

/-- The fields of a secret, with a password for those that are to be generated. -/
def secretData : List (String × Core.CredentialField) → Step (List (String × String))
  | [] => pure []
  | (key, field) :: fields => do
    let text ← secretText key field
    let rest ← secretData fields
    return (key, text) :: rest

def seedCredentials (spec : Core.CredentialSpec) : Step Unit := do
  check .vaultAuth (← ask .vaultAuth)
  let existing ← ask (.getSecret spec.vaultMount spec.vaultPath)
  if List.length existing ≠ 0 then return ()
  let data ← secretData spec.fields
  check (.putSecret spec.vaultMount spec.vaultPath) (← ask (.putSecret spec.vaultMount spec.vaultPath data))

def seed (phase : Core.PhaseConfig) : Step Unit :=
  match phase.credentials with
  | none => pure ()
  | some spec => seedCredentials spec

/-- It connects at once, and reads the credentials then. -/
def onInstance (h : Handler) (platform : Platform) (plan : PlanObject) (phase : Core.PhaseConfig)
    (docker : Option DockerAccess) : Step Unit := func do
  let name := instanceName phase.namePrefix plan.seq
  let ip ← addressOf name
  check .connect (← ask (.connect ip (sshUser phase platform) platform.sshKey))
  defer .closeSsh
  let docker ← notNil docker
  runScripts commandMinutes
    ((deployOnInstance h.upper docker h.vault plan (deployRef plan) phase).map .command)

def accessName (plan : PlanObject) (phase : Core.PhaseConfig) : String :=
  match phase.credentials with
  | none => plan.name
  | some spec => if spec.vaultPath ≠ "" then spec.vaultMount ++ "/" ++ spec.vaultPath else plan.name

/-- `publishServiceEvent` for the first target of a service; its errors are only logged. -/
def announce (plan : PlanObject) (phase : Core.PhaseConfig) : Step Unit :=
  if plan.seq ≤ 1 ∧ plan.name ≠ "" then do
    let _ ← ask (.publish plan.name plan.env (accessName plan phase))
    return ()
  else pure ()

def reserve (h : Handler) (t : MailTransaction) : Step Unit := do
  let plan ← planOf h t
  let (_, cfg) ← loadConfig plan
  let deployPhase := (cfg.resolve plan.env "deploy").1
  let platformKey ← authKey h.vaultKey
  let dockerKey ← authKey "docker"
  let platform ← openPlatform deployPhase platformKey
  seed deployPhase
  onInstance h platform plan deployPhase dockerKey.docker
  announce plan deployPhase
  insert t.mt

end Deploy

namespace Test

def installK6 : Step Unit :=
  runScripts (fun _ => 10) <| List.map .setup
    ["sudo apt-get update -qq",
      "sudo apt-get install -y -qq ca-certificates gnupg curl git",
      "sudo mkdir -p /etc/apt/keyrings",
      "curl -fsSL --retry 3 --retry-delay 2 https://dl.k6.io/key.gpg -o /tmp/k6.gpg.asc",
      "sudo gpg --dearmor -o /etc/apt/keyrings/k6-archive-keyring.gpg /tmp/k6.gpg.asc",
      "echo \"deb [signed-by=/etc/apt/keyrings/k6-archive-keyring.gpg] https://dl.k6.io/deb stable main\" " ++
        "| sudo tee /etc/apt/sources.list.d/k6.list",
      "sudo apt-get update -qq",
      "sudo apt-get install -y -qq k6"]

def pushTag (org repo tag : String) : Step Unit :=
  runScripts (fun _ => 2)
    [.clonePromo ("git@github.com:" ++ org ++ "/" ++ repo ++ ".git"), .tag tag, .pushTag tag]

def reportTag (h : Handler) (plan : PlanObject) (phase : Core.PhaseConfig) : String :=
  match phase.promotion with
  | none => plan.env
  | some p => if p.tagPattern ≠ "" then h.sprintf p.tagPattern plan.env else plan.env

/-- Only the first target promotes, and a promotion that fails is only logged. -/
def promote (h : Handler) (git : GitKey) (plan : PlanObject) (phase : Core.PhaseConfig) : Step Unit :=
  if plan.seq ≤ 1 then
    match phase.promotion with
    | none => pure ()
    | some p =>
      if p.repo ≠ "" ∧ p.tagPattern ≠ "" then
        logged (pushTag git.org p.repo (h.sprintf p.tagPattern plan.env))
      else pure ()
  else pure ()

def onMachine (h : Handler) (git : GitKey) (plan : PlanObject) (testPhase deployPhase : Core.PhaseConfig)
    (user : String) : Step Unit := do
  installK6
  let file ← writeKeyFile git
  uploadGitKey user file
  let appPrefix := if testPhase.appPrefix = "" then deployPhase.namePrefix else testPhase.appPrefix
  let appIP ← addressOf (instanceName appPrefix plan.seq)
  runScripts (fun _ => 2)
    [.setup "mkdir -p ~/.ssh && ssh-keyscan github.com >> ~/.ssh/known_hosts 2>/dev/null",
      .cloneTests ("git@github.com:" ++ git.org ++ "/" ++ testPhase.testRepo ++ ".git")]
  runScript 30 (.entrypoint ("http://" ++ appIP ++ ":8080") (reportTag h plan testPhase))
  promote h git plan testPhase

def reserve (h : Handler) (t : MailTransaction) : Step Unit := do
  let plan ← planOf h t
  let (git, cfg) ← loadConfig plan
  let (testPhase, cfg) := cfg.resolve plan.env "test"
  if testPhase.testRepo = "" ∨ testPhase.namePrefix = "" then
    insert t.mt
  else
    let deployPhase := (cfg.resolve plan.env "deploy").1
    let platformKey ← authKey h.vaultKey
    let platform ← openPlatform testPhase platformKey
    let testName := instanceName testPhase.namePrefix plan.seq
    check (.provision testName) (← ask (.provision testName))
    defer (.remove testName)
    let testIP ← addressOf testName
    awaitSsh testIP (sshUser testPhase platform) platform.sshKey 31
    defer .closeSsh
    onMachine h git plan testPhase deployPhase (sshUser testPhase platform)
    insert t.mt

end Test

inductive StepKind
  | check | create | update | build | deploy | test
  deriving DecidableEq, Repr

def reserve (h : Handler) : StepKind → MailTransaction → Step Unit
  | .check => Check.reserve h
  | .create => Create.reserve h
  | .update => Update.reserve h
  | .build => Build.reserve h
  | .deploy => Deploy.reserve h
  | .test => Test.reserve h

/-- All steps but `create` only note that they are canceled. -/
def cancel (h : Handler) : StepKind → MailTransaction → Step Unit
  | .create, t => Create.cancel h t
  | .check, t | .update, t | .build, t | .deploy, t | .test, t => insert t.mt

/-- `OnTransaction` of the listener of a step. -/
def onTransaction (h : Handler) (kind : StepKind) (t : MailTransaction) : Step Unit :=
  match t.mt.state with
  | .reserving => reserve h kind t
  | .confirmed => insert t.mt
  | .canceled => cancel h kind t
  | s => throw (.state s)

/-- All calls go well with this configuration, except for the scripts that fail. -/
def obliging (config : Core.DeployConfig) (failure : Script → Option (String × String)) :
    Body.World Effect Effect.Ans := fun _ c =>
  match c with
  | .authKey _ => .ok ⟨some ⟨⟨"org", "token"⟩, "key"⟩, none⟩
  | .readConfig .. => .ok config
  | .listRepos .. => .ok []
  | .openPlatform .. => .ok ⟨"key", "user"⟩
  | .ip _ | .createTemp | .randomPassword => .ok "a"
  | .provision _ | .remove _ | .connect .. | .writeKey .. | .openKey _ | .upload .. | .vaultAuth
  | .putSecret .. | .publish .. => none
  | .expired => false
  | .run _ script => failure script
  | .getSecret .. => []
  | .insert _ => .ok 1
  | .closePlatform | .sleep _ | .closeSsh | .closeTemp _ | .removeTemp _ | .closeKey _ => ()

end Pipeline

end Tarantula
