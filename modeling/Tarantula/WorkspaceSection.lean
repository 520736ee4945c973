import Mathlib.Data.List.Infix
import Mathlib.Logic.Function.Basic
import Tarantula.PhaseConfigs

/-! The section of a workspace in the configuration of an application. The admin node writes the section
on what its clone of the deploy repository has checked out, and reads the configuration of a plan at the
tag or on the branch of the plan: the section is there only if this is the branch that was written. -/

namespace Tarantula

structure WorkspaceRow where
  name : String
  platform : String
  settings : Std.ExtTreeMap String String
  instanceCount : Int
  sshUser : String
  vaultHost : String
  buildHost : String

namespace WorkspaceRow

def envConfig (ws : WorkspaceRow) (services : List Core.ServiceAccess) : Core.DeployEnvConfig where
  steps := []
  build := { Core.PhaseConfig.empty with buildHost := ws.buildHost }
  deploy := { Core.PhaseConfig.empty with
    sshUser := ws.sshUser, vaultHost := ws.vaultHost, settings := some ws.settings,
    serviceAccesses := services }
  test := .empty

def upsert (ws : WorkspaceRow) (services : List Core.ServiceAccess) (config : Core.DeployConfig) :
    Core.DeployConfig :=
  ⟨config.raw.insert ws.name (ws.envConfig services)⟩

end WorkspaceRow

/-- The files `deploy.json` by platform and application, where the file of the platform itself is that
of the application without a name. The outer error is that of opening the file, the inner one that of
the decoder. -/
abbrev DeployFiles := String → String → Except String (Except String Core.DeployConfig)

def DeployFiles.put (files : DeployFiles) (platform name : String) (config : Core.DeployConfig) :
    DeployFiles :=
  Function.update files platform (Function.update (files platform) name (.ok (.ok config)))

/-- A clone of a deploy repository. The errors are those of the checkouts. -/
structure DeployRepository where
  worktree : DeployFiles
  head : Option String -- no branch where a tag is checked out
  branches : String → Except String DeployFiles
  tags : String → Except String DeployFiles

namespace DeployRepository

/-- Without a branch the commit is on none, and is not pushed with the branches. -/
def commit (r : DeployRepository) (files : DeployFiles) : DeployRepository :=
  { r with
    worktree := files
    branches := r.head.elim r.branches fun branch => Function.update r.branches branch (.ok files) }

def checkoutRef (r : DeployRepository) (tag branch : String) : Except String DeployFiles :=
  if tag ≠ "" then r.tags tag else r.branches branch

theorem checkoutRef_commit (r : DeployRepository) (files : DeployFiles) (tag branch : String) :
    (r.commit files).checkoutRef tag branch =
      if tag = "" ∧ r.head = some branch then .ok files else r.checkoutRef tag branch := by
  by_cases htag : tag = ""
  · cases hhead : r.head with
    | none => simp [checkoutRef, commit, htag, hhead]
    | some head =>
      by_cases hbranch : head = branch
      · simp [checkoutRef, commit, htag, hhead, hbranch]
      · simp [checkoutRef, commit, htag, hhead, hbranch, Function.update_of_ne (Ne.symm hbranch)]
  · simp [checkoutRef, commit, htag]

end DeployRepository

/-- What the git client answers for one repository: the clone of each attempt to write, the outcome of
adding, committing and pushing what was written, and the clone that is then read. -/
structure GitHost where
  cloneOrUpdate : Nat → Except String DeployRepository
  push : Nat → DeployRepository → Except String Unit
  update : DeployRepository → Except String DeployRepository

namespace GitHost

section Upsert

variable (host : GitHost) (ws : WorkspaceRow) (services : List Core.ServiceAccess) (appName : String)

def tryUpsertWorkspaceSection (attempt : Nat) : Except String DeployRepository :=
  match host.cloneOrUpdate attempt with
  | .error e => .error ("clone: " ++ e)
  | .ok clone =>
    match clone.worktree ws.platform appName with
    | .error e => .error ("read deploy.json: " ++ e)
    | .ok (.error e) => .error ("parse deploy.json: " ++ e)
    | .ok (.ok config) =>
      let written := clone.commit (clone.worktree.put ws.platform appName (ws.upsert services config))
      match host.push attempt written with
      | .error e => .error e
      | .ok () => .ok written

def nonFastForward (e : String) : Bool := decide ("non-fast-forward".toList <:+: e.toList)

/-- The loop of two attempts, from an attempt on. -/
def upsertFrom (attempt : Nat) : Nat → Except String DeployRepository
  | 0 => .error "git push: non-fast-forward after retry"
  | left + 1 =>
    match host.tryUpsertWorkspaceSection ws services appName attempt with
    | .ok r => .ok r
    | .error e => if !nonFastForward e then .error e else upsertFrom (attempt + 1) left

def upsertWorkspaceSection : Except String DeployRepository := host.upsertFrom ws services appName 0 2

/-- The clone that was written, and the configuration that was in it. -/
structure Wrote (clone : DeployRepository) (config : Core.DeployConfig) (r : DeployRepository) : Prop where
  cloned : ∃ attempt, host.cloneOrUpdate attempt = .ok clone
  found : clone.worktree ws.platform appName = .ok (.ok config)
  written : r = clone.commit (clone.worktree.put ws.platform appName (ws.upsert services config))

variable {host ws services appName}

theorem wrote_of_try {attempt : Nat} {r : DeployRepository}
    (h : host.tryUpsertWorkspaceSection ws services appName attempt = .ok r) :
    ∃ clone config, host.Wrote ws services appName clone config r := by
  rw [tryUpsertWorkspaceSection] at h
  cases hclone : host.cloneOrUpdate attempt with
  | error e =>
    rw [hclone] at h
    cases h
  | ok clone =>
    simp only [hclone] at h
    cases hfile : clone.worktree ws.platform appName with
    | error e =>
      rw [hfile] at h
      cases h
    | ok file =>
      cases file with
      | error e =>
        rw [hfile] at h
        cases h
      | ok config =>
        simp only [hfile] at h
        split at h
        · cases h
        · exact ⟨clone, config, ⟨attempt, hclone⟩, hfile, (Except.ok.inj h).symm⟩

theorem wrote_of_upsertFrom {attempt left : Nat} {r : DeployRepository}
    (h : host.upsertFrom ws services appName attempt left = .ok r) :
    ∃ clone config, host.Wrote ws services appName clone config r := by
  induction left generalizing attempt with
  | zero => cases h
  | succ left ih =>
    rw [upsertFrom] at h
    cases htry : host.tryUpsertWorkspaceSection ws services appName attempt with
    | ok r' =>
      rw [htry] at h
      obtain rfl := Except.ok.inj h
      exact wrote_of_try htry
    | error e =>
      simp only [htry] at h
      split at h
      · cases h
      · exact ih h

end Upsert

/-- `LoadDeployConfig`, in a clone as it is then. -/
def loadDeployConfig (host : GitHost) (r : DeployRepository) (repo : RepoObject) (platform name : String) :
    Except String Core.DeployConfig :=
  if repo.name = "" then .error "deploy repo is required"
  else
    match host.update r with
    | .error e => .error ("clone/update " ++ repo.name ++ ": " ++ e)
    | .ok clone =>
      match clone.checkoutRef repo.tag repo.branch with
      | .error e => .error ("checkout ref: " ++ e)
      | .ok files =>
        let file := if name ≠ "" ∧ (files platform name).isOk then files platform name else files platform ""
        match file with
        | .error e => .error ("load " ++ platform ++ "/" ++ name ++ " deploy config: " ++ e)
        | .ok (.error e) => .error ("load " ++ platform ++ "/" ++ name ++ " deploy config: " ++ e)
        | .ok (.ok cfg) => .ok cfg

/-- Nothing else is pushed before the configuration is read. -/
def Quiet (host : GitHost) : Prop := ∀ r, host.update r = .ok r

/-- What is read back is the configuration with the section on the branch that was written, and anywhere
else what was there before. -/
theorem load_after_upsert {host : GitHost} (hquiet : host.Quiet) {ws : WorkspaceRow}
    {services : List Core.ServiceAccess} {appName : String} {clone r : DeployRepository}
    {config : Core.DeployConfig} (hw : host.Wrote ws services appName clone config r) {repo : RepoObject}
    (hname : repo.name ≠ "") :
    host.loadDeployConfig r repo ws.platform appName =
      if repo.tag = "" ∧ clone.head = some repo.branch then .ok (ws.upsert services config)
      else host.loadDeployConfig clone repo ws.platform appName := by
  rw [loadDeployConfig, if_neg hname, hquiet, hw.written]
  dsimp only
  rw [DeployRepository.checkoutRef_commit]
  by_cases hbranch : repo.tag = "" ∧ clone.head = some repo.branch
  · rw [if_pos hbranch, if_pos hbranch]
    by_cases happ : appName = ""
    · simp [DeployFiles.put, happ]
    · simp [DeployFiles.put, happ, Except.isOk, Except.toBool]
  · rw [if_neg hbranch, if_neg hbranch, loadDeployConfig, if_neg hname, hquiet]

end GitHost

end Tarantula
