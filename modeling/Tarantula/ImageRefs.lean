import Mathlib.Data.List.Infix
import Tarantula.PhaseConfigs
import Tarantula.Separator

/-! The images of a pipeline. The build step pushes them to the registry from a build server, the deploy
step pulls them on an instance, and each works out the reference of the images from the plan. No command
depends on the output of another one, so that a step is a list of commands that is run up to the first
failure. -/

namespace Tarantula

structure DockerAccess where
  server : String
  username : String
  token : String
  password : String

structure GitAccess where
  org : String
  token : String

structure VaultAccess where
  host : String
  token : String

inductive Command
  | login (cred server user : String)
  | removeDir (dir : String)
  | clone (url : String)
  | checkout (dir ref : String)
  | build (dir image : String)
  | buildService (dir app image : String)
  | push (image : String)
  | pull (image : String)
  | stop (name : String)
  | run (name args image : String)
  deriving DecidableEq, Repr

namespace Command

def text : Command → String
  | login cred server user => s!"printf '%s' '{cred}' | docker login {server} -u {user} --password-stdin"
  | removeDir dir => s!"rm -rf {dir}"
  | clone url => s!"git clone {url}"
  | checkout dir ref => s!"cd {dir} && git checkout {ref}"
  | build dir image => s!"cd {dir} && docker build -t {image} ."
  | buildService dir app image =>
    s!"cd {dir} && docker build -f docker_application_build --build-arg app={app} -t {image} ."
  | push image => s!"docker push {image}"
  | pull image => s!"docker pull {image}"
  | stop name => s!"docker stop {name} 2>/dev/null || true && docker rm {name} 2>/dev/null || true"
  | run name args image => s!"docker run -d --restart unless-stopped --name {name} {args} {image}"

def pushed : Command → Option String
  | push image => some image
  | _ => none

def pulled : Command → Option String
  | pull image => some image
  | _ => none

end Command

/-- Whether a command succeeds after the commands before it. -/
structure Shell where
  run : List String → String → Bool

/-- The commands that were run, and the one that failed. -/
structure Ran where
  commands : List Command
  failed : Option Command
  deriving DecidableEq, Repr

def Shell.execute (ssh : Shell) (done : List Command) : List Command → Ran
  | [] => ⟨done, none⟩
  | cmd :: cmds =>
    if ssh.run (done.map (·.text)) cmd.text then ssh.execute (done ++ [cmd]) cmds
    else ⟨done ++ [cmd], some cmd⟩

namespace DockerAccess

def cred (docker : DockerAccess) : String := if docker.token = "" then docker.password else docker.token

def login (docker : DockerAccess) : Command := .login docker.cred docker.server docker.username

def image (docker : DockerAccess) (name ref : String) : String := docker.username ++ "/" ++ name ++ ":" ++ ref

end DockerAccess

section Build

def appName (name : String) : String :=
  match name.toList.dropWhile (· ≠ '.') with
  | [] => name
  | _ :: rest => String.ofList rest

def buildImages (docker : DockerAccess) (dir ref : String) (services : List Core.GcpServiceConfig) :
    List Command :=
  services.flatMap fun svc =>
    [.buildService dir (appName svc.name) (docker.image svc.name ref), .push (docker.image svc.name ref)]

def buildService (git : GitAccess) (docker : DockerAccess) (env : String) (deployRepo : RepoObject)
    (services : List Core.GcpServiceConfig) : List Command :=
  let ref := if env = "" then "latest" else env
  let repoName := deployRepo.name
  let setupCmds := [.removeDir repoName,
    .clone ("https://x-token:" ++ git.token ++ "@github.com/" ++ git.org ++ "/" ++ repoName ++ ".git")]
  let checkout :=
    if deployRepo.tag ≠ "" ∨ deployRepo.branch ≠ "" then
      [.checkout repoName (if deployRepo.tag = "" then deployRepo.branch else deployRepo.tag)]
    else []
  setupCmds ++ checkout ++ buildImages docker repoName ref services

def buildApp (org : String) (docker : DockerAccess) (repo : RepoObject)
    (services : List Core.GcpServiceConfig) :
    List Command :=
  let ref := if repo.tag = "" then repo.branch else repo.tag
  let ref := if ref = "" then "latest" else ref
  let setupCmds := [.removeDir repo.name, .clone ("https://github.com/" ++ org ++ "/" ++ repo.name ++ ".git"),
    .checkout repo.name ref]
  setupCmds ++
    if services = [] then [.build repo.name (docker.image repo.name ref), .push (docker.image repo.name ref)]
    else buildImages docker repo.name ref services

def buildOnHost (git : GitAccess) (docker : DockerAccess) (plan : PlanObject) (deployRepo : RepoObject)
    (services : List Core.GcpServiceConfig) : List Command :=
  docker.login :: match plan.appRepo with
    | none => buildService git docker plan.env deployRepo services
    | some repo =>
      if repo.name = "" then buildService git docker plan.env deployRepo services
      else buildApp git.org docker repo services

end Build

section Deploy

variable (upper : Char → Char) -- `unicode.ToUpper`

def isPostoffice (name : String) : Bool := decide ("postoffice".toList <:+: name.toList)

def accessFlag (sa : Core.ServiceAccess) : String :=
  "-e " ++ (sa.name.map fun c => upper (if c = '-' then '_' else c)) ++ "_VAULT_PATH='" ++
    sa.vaultAccessName ++ "'"

def runFlags (name network httpBinding : String) (ports : List String)
    (serviceAccesses : List Core.ServiceAccess)
    (vault : VaultAccess) (clusterBootstrap : String) (seq : Int) : List String :=
  (if network ≠ "" then ["--network " ++ network] else []) ++ ports.map ("-p " ++ ·) ++
    ["-e VAULT_HOST='" ++ vault.host ++ "'", "-e VAULT_TOKEN='" ++ vault.token ++ "'",
      "-e SEQ=" ++ toString seq] ++
    (if httpBinding ≠ "" then ["-e HTTP_BINDING='" ++ httpBinding ++ "'"] else []) ++
    (if isPostoffice name then ["-e CLUSTER_BOOTSTRAP='" ++ clusterBootstrap ++ "'"]
      else ["-e POST_OFFICE_HOST=127.0.0.1"]) ++
    serviceAccesses.map (accessFlag upper)

def runContainer (docker : DockerAccess) (name ref : String) (flags : List String) : List Command :=
  [.pull (docker.image name ref), .stop name, .run name (" ".intercalate flags) (docker.image name ref)]

def deployOnInstance (docker : DockerAccess) (vault : VaultAccess) (plan : PlanObject) (ref : String)
    (phase : Core.PhaseConfig) : List Command :=
  let vault := if phase.vaultHost ≠ "" then { vault with host := phase.vaultHost } else vault
  let seq := if plan.seq.toInt < 1 then 1 else plan.seq.toInt
  let clusterBootstrap := (phase.settings.bind (·["clusterBootstrap"]?)).getD ""
  docker.login ::
    if phase.services = [] then
      match plan.appRepo with
      | none => []
      | some repo =>
        if repo.name = "" then []
        else runContainer docker repo.name ref
          (runFlags upper repo.name "" "" phase.ports phase.serviceAccesses vault "" seq)
    else phase.services.flatMap fun svc =>
      runContainer docker svc.name ref
        (runFlags upper svc.name svc.network svc.httpBinding svc.ports phase.serviceAccesses vault
          (if isPostoffice svc.name then clusterBootstrap else "") seq)

def deployRef (plan : PlanObject) : String :=
  let ref := match plan.appRepo with
    | none => plan.env
    | some repo => if repo.tag ≠ "" then repo.tag else if repo.branch ≠ "" then repo.branch else plan.env
  if ref = "" then "latest" else ref

end Deploy

/-- A step has no configuration, and runs no command, without a deploy repository. -/
def PlanObject.withDeployRepo (plan : PlanObject) (run : RepoObject → Ran) : Ran :=
  match plan.deployRepo with
  | none => ⟨[], none⟩
  | some repo => if repo.name = "" then ⟨[], none⟩ else run repo

def buildStep (ssh : Shell) (git : GitAccess) (docker : DockerAccess) (plan : PlanObject)
    (phase : Core.PhaseConfig) :
    Ran :=
  plan.withDeployRepo fun repo => ssh.execute [] (buildOnHost git docker plan repo phase.services)

def deployStep (upper : Char → Char) (ssh : Shell) (docker : DockerAccess) (vault : VaultAccess)
    (plan : PlanObject) (phase : Core.PhaseConfig) : Ran :=
  plan.withDeployRepo fun _ =>
    ssh.execute [] (deployOnInstance upper docker vault plan (deployRef plan) phase)

section Execution

variable {ssh : Shell} {done cmds : List Command}

theorem execute_of_not_failed (h : (ssh.execute done cmds).failed = none) :
    (ssh.execute done cmds).commands = done ++ cmds := by
  induction cmds generalizing done with
  | nil => rw [Shell.execute, List.append_nil]
  | cons cmd cmds ih =>
    rw [Shell.execute] at h ⊢
    split at h
    · next hrun => rw [if_pos hrun, ih h, List.append_assoc, List.singleton_append]
    · cases h

theorem execute_prefix : (ssh.execute done cmds).commands <+: done ++ cmds := by
  induction cmds generalizing done with
  | nil => rw [Shell.execute, List.append_nil]
  | cons cmd cmds ih =>
    rw [Shell.execute]
    split
    · have h : _ <+: done ++ [cmd] ++ cmds := ih
      rwa [List.append_assoc, List.singleton_append] at h
    · exact ⟨cmds, by simp⟩

def Shell.succeeding : Shell := ⟨fun _ _ => true⟩

theorem execute_succeeding : (Shell.succeeding.execute done cmds).failed = none := by
  induction cmds generalizing done with
  | nil => rfl
  | cons cmd cmds ih =>
    have hrun : Shell.succeeding.run (done.map (·.text)) cmd.text = true := rfl
    rw [Shell.execute, if_pos hrun]
    exact ih

end Execution

section Images

variable (git : GitAccess) (docker : DockerAccess) (plan : PlanObject)

def imageNames (services : List Core.GcpServiceConfig) : List String :=
  if services = [] then
    match plan.appRepo with
    | none => []
    | some repo => if repo.name = "" then [] else [repo.name]
  else services.map (·.name)

def buildRef : String :=
  match plan.appRepo with
  | none => if plan.env = "" then "latest" else plan.env
  | some repo =>
    if repo.name = "" then if plan.env = "" then "latest" else plan.env
    else if repo.tag ≠ "" then repo.tag else if repo.branch ≠ "" then repo.branch else "latest"

theorem pushed_buildImages (dir ref : String) (services : List Core.GcpServiceConfig) :
    (buildImages docker dir ref services).filterMap Command.pushed =
      (services.map (·.name)).map fun name => docker.image name ref := by
  induction services with
  | nil => rfl
  | cons svc services ih =>
    rw [List.map_cons, List.map_cons, ← ih]
    rfl

theorem pushed_buildService (env : String) (deployRepo : RepoObject) (services : List Core.GcpServiceConfig) :
    (buildService git docker env deployRepo services).filterMap Command.pushed =
      (services.map (·.name)).map fun name => docker.image name (if env = "" then "latest" else env) := by
  rw [buildService]
  rw [List.filterMap_append, pushed_buildImages]
  split <;> rfl

theorem pushed_buildApp (org : String) (repo : RepoObject) (services : List Core.GcpServiceConfig) :
    (buildApp org docker repo services).filterMap Command.pushed =
      (if services = [] then [repo.name] else services.map (·.name)).map fun name =>
        docker.image name
          (if repo.tag ≠ "" then repo.tag else if repo.branch ≠ "" then repo.branch else "latest") := by
  have href : (if (if repo.tag = "" then repo.branch else repo.tag) = "" then "latest"
      else if repo.tag = "" then repo.branch else repo.tag) =
        if repo.tag ≠ "" then repo.tag else if repo.branch ≠ "" then repo.branch else "latest" := by
    by_cases htag : repo.tag = "" <;> by_cases hbranch : repo.branch = "" <;> simp [htag, hbranch]
  rw [buildApp]
  rw [href, List.filterMap_append]
  by_cases hservices : services = []
  · rw [if_pos hservices, if_pos hservices]
    rfl
  · rw [if_neg hservices, if_neg hservices, pushed_buildImages]
    rfl

theorem pushed_buildOnHost (deployRepo : RepoObject) (services : List Core.GcpServiceConfig) :
    (buildOnHost git docker plan deployRepo services).filterMap Command.pushed =
      (imageNames plan services).map fun name => docker.image name (buildRef plan) := by
  have hnone : (if services = [] then [] else services.map (·.name)) = services.map (·.name) := by
    split
    · next h => rw [h, List.map_nil]
    · rfl
  rw [buildOnHost, imageNames, buildRef, List.filterMap_cons_none rfl]
  cases plan.appRepo with
  | none =>
    dsimp only
    rw [hnone]
    exact pushed_buildService git docker plan.env deployRepo services
  | some repo =>
    dsimp only
    by_cases hname : repo.name = ""
    · rw [if_pos hname, if_pos hname, if_pos hname, hnone]
      exact pushed_buildService git docker plan.env deployRepo services
    · rw [if_neg hname, if_neg hname, if_neg hname]
      exact pushed_buildApp docker git.org repo services

theorem pulled_deployOnInstance (upper : Char → Char) (vault : VaultAccess) (ref : String)
    (phase : Core.PhaseConfig) :
    (deployOnInstance upper docker vault plan ref phase).filterMap Command.pulled =
      (imageNames plan phase.services).map fun name => docker.image name ref := by
  rw [deployOnInstance, imageNames, List.filterMap_cons_none rfl]
  by_cases hservices : phase.services = []
  · rw [if_pos hservices, if_pos hservices]
    cases plan.appRepo with
    | none => rfl
    | some repo =>
      by_cases hname : repo.name = ""
      · simp [hname]
      · simp [hname, runContainer, Command.pulled]
  · rw [if_neg hservices, if_neg hservices]
    induction phase.services with
    | nil => rfl
    | cons svc services ih =>
      rw [List.map_cons, List.map_cons, ← ih]
      rfl

theorem image_eq_iff {docker : DockerAccess} {name name' ref ref' : String} :
    docker.image name ref = docker.image name' ref' ↔
      name.toList ++ ':' :: ref.toList = name'.toList ++ ':' :: ref'.toList := by
  rw [DockerAccess.image, DockerAccess.image, ← String.toList_inj]
  simp only [String.toList_append, List.append_assoc, List.append_cancel_left_eq]
  rfl

/-- With different references some image is pulled that was not pushed, whatever the names are. -/
theorem images_subset_iff {names : List String} (hnames : names ≠ []) {ref ref' : String} :
    (∀ image ∈ names.map (fun name => docker.image name ref),
      image ∈ names.map fun name => docker.image name ref') ↔
      ref = ref' := by
  constructor
  · intro h
    have hmem : ∀ x ∈ names.map String.toList, ∃ y ∈ names.map String.toList,
        x ++ ':' :: ref.toList = y ++ ':' :: ref'.toList := by
      intro x hx
      obtain ⟨name, hname, rfl⟩ := List.mem_map.mp hx
      obtain ⟨name', hname', himage⟩ := List.mem_map.mp (h _ (List.mem_map_of_mem hname))
      exact ⟨name'.toList, List.mem_map_of_mem hname', (image_eq_iff.mp himage).symm⟩
    have hrefs := eq_of_append_mem (mt List.map_eq_nil_iff.mp hnames) hmem
    exact String.toList_inj.mp (List.cons.inj hrefs).2
  · intro h image himage
    rwa [← h]

end Images

/-- What the plan must say for the two steps to work out the same reference, if there are images. -/
def SameImages (plan : PlanObject) (services : List Core.GcpServiceConfig) : Prop :=
  plan.deployRepo.all (·.name = "") ∨ (services = [] ∧ plan.appRepo.all (·.name = "")) ∨
    ∀ repo, plan.appRepo = some repo →
      if repo.name = "" then
        (repo.tag = "" ∧ repo.branch = "") ∨
          (if repo.tag ≠ "" then repo.tag else repo.branch) = if plan.env = "" then "latest" else plan.env
      else repo.tag ≠ "" ∨ repo.branch ≠ "" ∨ plan.env = "" ∨ plan.env = "latest"

theorem refs_eq_iff (plan : PlanObject) :
    deployRef plan = buildRef plan ↔ ∀ repo, plan.appRepo = some repo →
      if repo.name = "" then
        (repo.tag = "" ∧ repo.branch = "") ∨
          (if repo.tag ≠ "" then repo.tag else repo.branch) = if plan.env = "" then "latest" else plan.env
      else repo.tag ≠ "" ∨ repo.branch ≠ "" ∨ plan.env = "" ∨ plan.env = "latest" := by
  rw [deployRef, buildRef]
  cases plan.appRepo with
  | none => simp
  | some repo =>
    by_cases hname : repo.name = "" <;> by_cases htag : repo.tag = "" <;>
      by_cases hbranch : repo.branch = "" <;> by_cases henv : plan.env = "" <;>
      simp [hname, htag, hbranch, henv]

theorem imageNames_eq_nil_iff (plan : PlanObject) (services : List Core.GcpServiceConfig) :
    imageNames plan services = [] ↔ services = [] ∧ plan.appRepo.all (·.name = "") := by
  rw [imageNames]
  by_cases hservices : services = []
  · rw [if_pos hservices]
    cases plan.appRepo with
    | none => simp [hservices]
    | some repo => by_cases hname : repo.name = "" <;> simp [hname, hservices]
  · simp [hservices]

theorem withDeployRepo_of_all {plan : PlanObject} (h : plan.deployRepo.all (·.name = ""))
    (run : RepoObject → Ran) :
    plan.withDeployRepo run = ⟨[], none⟩ := by
  rw [PlanObject.withDeployRepo]
  cases hrepo : plan.deployRepo with
  | none => rfl
  | some repo =>
    rw [hrepo] at h
    exact if_pos (of_decide_eq_true h)

theorem exists_withDeployRepo {plan : PlanObject} (h : ¬ plan.deployRepo.all (·.name = "")) :
    ∃ repo, ∀ run, plan.withDeployRepo run = run repo := by
  cases hrepo : plan.deployRepo with
  | none =>
    rw [hrepo] at h
    exact absurd rfl h
  | some repo =>
    rw [hrepo] at h
    refine ⟨repo, fun run => ?_⟩
    rw [PlanObject.withDeployRepo, hrepo]
    exact if_neg fun hname => h (decide_eq_true hname)

/-- When all commands of the build step succeed, the deploy step pulls only what it pushed, exactly when
the plan leads both to the same reference. -/
theorem deploy_pulls_pushed_iff (upper : Char → Char) (git : GitAccess) (docker : DockerAccess)
    (vault : VaultAccess) (plan : PlanObject) (phase : Core.PhaseConfig) (server : Shell)
    (hbuild : (buildStep server git docker plan phase).failed = none) :
    (∀ node : Shell,
      ∀ image ∈ (deployStep upper node docker vault plan phase).commands.filterMap Command.pulled,
      image ∈ (buildStep server git docker plan phase).commands.filterMap Command.pushed) ↔
      SameImages plan phase.services := by
  by_cases hdeploy : plan.deployRepo.all (·.name = "")
  · refine ⟨fun _ => .inl hdeploy, fun _ node image himage => ?_⟩
    rw [deployStep, withDeployRepo_of_all hdeploy] at himage
    cases himage
  · obtain ⟨repo, hrun⟩ := exists_withDeployRepo hdeploy
    have hpushed : (buildStep server git docker plan phase).commands.filterMap Command.pushed =
        (imageNames plan phase.services).map fun name => docker.image name (buildRef plan) := by
      rw [buildStep, hrun] at hbuild ⊢
      rw [execute_of_not_failed hbuild, List.nil_append, pushed_buildOnHost]
    have hpulled : ∀ node : Shell,
        (deployStep upper node docker vault plan phase).commands.filterMap Command.pulled <+:
        (imageNames plan phase.services).map fun name => docker.image name (deployRef plan) := by
      intro node
      rw [deployStep, hrun, ← pulled_deployOnInstance docker plan upper vault (deployRef plan) phase]
      exact List.IsPrefix.filterMap _ execute_prefix
    have hall : (deployStep upper .succeeding docker vault plan phase).commands.filterMap Command.pulled =
        (imageNames plan phase.services).map fun name => docker.image name (deployRef plan) := by
      rw [deployStep, hrun, execute_of_not_failed execute_succeeding, List.nil_append,
        pulled_deployOnInstance]
    have hsubset : (∀ node : Shell, ∀ image ∈
          (deployStep upper node docker vault plan phase).commands.filterMap Command.pulled,
        image ∈ (buildStep server git docker plan phase).commands.filterMap Command.pushed) ↔
        ∀ image ∈ (imageNames plan phase.services).map (fun name => docker.image name (deployRef plan)),
          image ∈ (imageNames plan phase.services).map fun name => docker.image name (buildRef plan) := by
      rw [hpushed]
      constructor
      · intro h
        have hsucceeding := h .succeeding
        rwa [hall] at hsucceeding
      · intro h node image himage
        exact h image ((hpulled node).subset himage)
    rw [hsubset, SameImages, ← imageNames_eq_nil_iff, ← refs_eq_iff]
    by_cases hnames : imageNames plan phase.services = []
    · simp [hnames]
    · rw [images_subset_iff docker hnames]
      simp [hdeploy, hnames]

section Samples

def sampleDocker : DockerAccess := ⟨"registry", "user", "token", ""⟩

def sampleGit : GitAccess := ⟨"org", "token"⟩

def imagePlan (appRepo : RepoObject) : PlanObject :=
  ⟨"gcp", "dev", some appRepo, some ⟨"deploy", "", "main"⟩, "presence", 1⟩

def imagePhase : Core.PhaseConfig :=
  { Core.PhaseConfig.empty with
    services := [⟨"presence", "host", "", []⟩, ⟨"web.admin", "host", "8080", []⟩] }

end Samples

theorem deploy_pulls_pushed_sample :
    (buildStep .succeeding sampleGit sampleDocker (imagePlan ⟨"app", "v1", ""⟩) imagePhase).failed = none ∧
    ∀ node : Shell, ∀ image ∈ (deployStep id node sampleDocker ⟨"vault", "token"⟩
      (imagePlan ⟨"app", "v1", ""⟩)
        imagePhase).commands.filterMap Command.pulled,
      image ∈ (buildStep .succeeding sampleGit sampleDocker (imagePlan ⟨"app", "v1", ""⟩)
        imagePhase).commands.filterMap Command.pushed := by
  have hbuild : (buildStep .succeeding sampleGit sampleDocker
    (imagePlan ⟨"app", "v1", ""⟩) imagePhase).failed = none :=
    rfl
  refine ⟨hbuild,
    (deploy_pulls_pushed_iff id sampleGit sampleDocker ⟨"vault", "token"⟩ _ imagePhase _ hbuild).mpr ?_⟩
  refine .inr (.inr fun repo hrepo => ?_)
  obtain rfl := Option.some.inj hrepo
  decide

/-- An application repository that has a tag but no name, and one that has a name only. -/
theorem deploy_pulls_another_reference :
    ((buildStep .succeeding sampleGit sampleDocker (imagePlan ⟨"", "v1", ""⟩) imagePhase).failed = none ∧
      (buildStep .succeeding sampleGit sampleDocker (imagePlan ⟨"", "v1", ""⟩)
        imagePhase).commands.filterMap Command.pushed = ["user/presence:dev", "user/web.admin:dev"] ∧
      (deployStep id .succeeding sampleDocker ⟨"vault", "token"⟩ (imagePlan ⟨"", "v1", ""⟩)
        imagePhase).commands.filterMap Command.pulled = ["user/presence:v1", "user/web.admin:v1"]) ∧
    (buildStep .succeeding sampleGit sampleDocker (imagePlan ⟨"app", "", ""⟩) imagePhase).failed = none ∧
      (buildStep .succeeding sampleGit sampleDocker (imagePlan ⟨"app", "", ""⟩)
        imagePhase).commands.filterMap Command.pushed = ["user/presence:latest", "user/web.admin:latest"] ∧
      (deployStep id .succeeding sampleDocker ⟨"vault", "token"⟩ (imagePlan ⟨"app", "", ""⟩)
        imagePhase).commands.filterMap Command.pulled = ["user/presence:dev", "user/web.admin:dev"] := by
  decide +kernel

end Tarantula
