import Mathlib.Data.List.Induction
import Tarantula.Layers

/-! The configuration of a deployment. A phase of an environment is completed from the same phase of
the environment `default`; a map of settings that was loaded is completed in place, so that a call
changes the configuration for the calls after it. -/

namespace Tarantula

structure RepoObject where
  name : String
  tag : String
  branch : String
  deriving DecidableEq, Repr

structure PlanObject where
  platform : String
  env : String
  appRepo : Option RepoObject
  deployRepo : Option RepoObject
  name : String
  seq : Int32
  deriving DecidableEq, Repr

/-- The name under which the configuration of an application is looked up. -/
def PlanObject.planName (plan : PlanObject) : String :=
  if plan.name = "" then (plan.appRepo.map (·.name)).getD plan.name else plan.name

namespace Core

structure PromotionSpec where
  repo : String
  tagPattern : String
  deriving DecidableEq, Repr

structure ServiceAccess where
  name : String
  vaultAccessName : String
  deriving DecidableEq, Repr

structure CredentialField where
  value : String
  generate : Bool
  deriving DecidableEq, Repr

structure CredentialSpec where
  vaultMount : String
  vaultPath : String
  fields : List (String × CredentialField)
  deriving DecidableEq, Repr

structure GcpServiceConfig where
  name : String
  network : String
  httpBinding : String
  ports : List String
  deriving DecidableEq, Repr

/-- A list that is nil and an empty one are not told apart, a map that is nil is `none`. -/
structure PhaseConfig where
  namePrefix : String
  instanceNumber : Int
  sshUser : String
  buildHost : String
  buildHosts : List String
  vaultHost : String
  description : String
  services : List GcpServiceConfig
  ports : List String
  settings : Option (Std.ExtTreeMap String String)
  credentials : Option CredentialSpec
  serviceAccesses : List ServiceAccess
  testRepo : String
  appPrefix : String
  promotion : Option PromotionSpec

def PhaseConfig.empty : PhaseConfig := ⟨"", 0, "", "", [], "", "", [], [], none, none, [], "", "", none⟩

def mergePhase (primary fallback : PhaseConfig) : PhaseConfig where
  namePrefix := firstSet (· == "") primary.namePrefix fallback.namePrefix
  instanceNumber := firstSet (· == 0) primary.instanceNumber fallback.instanceNumber
  sshUser := firstSet (· == "") primary.sshUser fallback.sshUser
  buildHost := firstSet (· == "") primary.buildHost fallback.buildHost
  buildHosts := firstSet (·.isEmpty) primary.buildHosts fallback.buildHosts
  vaultHost := firstSet (· == "") primary.vaultHost fallback.vaultHost
  description := firstSet (· == "") primary.description fallback.description
  services := firstSet (·.isEmpty) primary.services fallback.services
  ports := firstSet (·.isEmpty) primary.ports fallback.ports
  credentials := firstSet (·.isNone) primary.credentials fallback.credentials
  serviceAccesses := firstSet (·.isEmpty) primary.serviceAccesses fallback.serviceAccesses
  testRepo := firstSet (· == "") primary.testRepo fallback.testRepo
  appPrefix := firstSet (· == "") primary.appPrefix fallback.appPrefix
  promotion := firstSet (·.isNone) primary.promotion fallback.promotion
  settings := some (fill (primary.settings.getD ∅) (fallback.settings.getD ∅))

def defaultSteps : List String := ["check", "create", "update", "build", "deploy", "test"]

structure DeployEnvConfig where
  steps : List String
  build : PhaseConfig
  deploy : PhaseConfig
  test : PhaseConfig

structure DeployConfig where
  raw : Std.ExtTreeMap String DeployEnvConfig

def DeployEnvConfig.phase (e : DeployEnvConfig) (phase : String) : PhaseConfig :=
  if phase = "build" then e.build
  else if phase = "deploy" then e.deploy
  else if phase = "test" then e.test
  else .empty

/-- The map of settings is written to; there is none where it is nil. -/
def PhaseConfig.write (p : PhaseConfig) (settings : Std.ExtTreeMap String String) : PhaseConfig :=
  { p with settings := p.settings.map fun _ => settings }

def DeployEnvConfig.write (e : DeployEnvConfig) (phase : String) (settings : Std.ExtTreeMap String String) :
    DeployEnvConfig :=
  if phase = "build" then { e with build := e.build.write settings }
  else if phase = "deploy" then { e with deploy := e.deploy.write settings }
  else if phase = "test" then { e with test := e.test.write settings }
  else e

namespace DeployConfig

def phaseOf (c : DeployConfig) (env phase : String) : PhaseConfig :=
  match c.raw[env]? with
  | none => .empty
  | some envCfg => envCfg.phase phase

def write (c : DeployConfig) (env phase : String) (settings : Std.ExtTreeMap String String) : DeployConfig :=
  match c.raw[env]? with
  | none => c
  | some envCfg => ⟨c.raw.insert env (envCfg.write phase settings)⟩

/-- What `Resolve` returns and the configuration after it. -/
def resolve (c : DeployConfig) (env phase : String) : PhaseConfig × DeployConfig :=
  let default := c.phaseOf "default" phase
  if env = "default" then (default, c)
  else
    let merged := mergePhase (c.phaseOf env phase) default
    (merged, c.write env phase (merged.settings.getD ∅))

def stepsOf (c : DeployConfig) (env : String) : List String := (c.raw[env]?.map (·.steps)).getD []

def resolveSteps (c : DeployConfig) (env : String) : List String :=
  if c.stepsOf env ≠ [] then c.stepsOf env
  else if c.stepsOf "default" ≠ [] then c.stepsOf "default"
  else defaultSteps

end DeployConfig

inductive ConfigCall
  | resolve (env phase : String)
  | resolveSteps (env : String)
  deriving DecidableEq, Repr

inductive ConfigAnswer
  | phase (p : PhaseConfig)
  | steps (steps : List String)

namespace DeployConfig

def call (c : DeployConfig) : ConfigCall → ConfigAnswer × DeployConfig
  | .resolve env phase => (.phase (c.resolve env phase).1, (c.resolve env phase).2)
  | .resolveSteps env => (.steps (c.resolveSteps env), c)

def after (c : DeployConfig) (calls : List ConfigCall) : DeployConfig :=
  calls.foldl (fun c q => (c.call q).2) c

end DeployConfig

section Laws

theorem mergePhase_assoc (a b c : PhaseConfig) :
    mergePhase (mergePhase a b) c = mergePhase a (mergePhase b c) := by
  simp only [mergePhase, firstSet_assoc, Option.getD_some, fill_assoc]

theorem mergePhase_absorb (a b : PhaseConfig) : mergePhase (mergePhase a b) b = mergePhase a b := by
  simp only [mergePhase, firstSet_absorb, Option.getD_some, fill_absorb]

theorem mergePhase_write (a b : PhaseConfig) :
    mergePhase (a.write ((mergePhase a b).settings.getD ∅)) b = mergePhase a b := by
  have hfill : (a.write ((mergePhase a b).settings.getD ∅)).settings =
      a.settings.map fun s => fill s (b.settings.getD ∅) := by
    cases hs : a.settings <;> simp [PhaseConfig.write, mergePhase, hs]
  have hsettings : fill ((a.write ((mergePhase a b).settings.getD ∅)).settings.getD ∅) (b.settings.getD ∅) =
      fill (a.settings.getD ∅) (b.settings.getD ∅) := by
    rw [hfill]
    cases a.settings with
    | none => rfl
    | some s => exact fill_absorb s _
  rw [mergePhase, hsettings]
  rfl

/-- What is set in `a` is the same in `m`. -/
structure Kept (a m : PhaseConfig) : Prop where
  namePrefix : a.namePrefix ≠ "" → m.namePrefix = a.namePrefix
  instanceNumber : a.instanceNumber ≠ 0 → m.instanceNumber = a.instanceNumber
  sshUser : a.sshUser ≠ "" → m.sshUser = a.sshUser
  buildHost : a.buildHost ≠ "" → m.buildHost = a.buildHost
  buildHosts : a.buildHosts ≠ [] → m.buildHosts = a.buildHosts
  vaultHost : a.vaultHost ≠ "" → m.vaultHost = a.vaultHost
  description : a.description ≠ "" → m.description = a.description
  services : a.services ≠ [] → m.services = a.services
  ports : a.ports ≠ [] → m.ports = a.ports
  credentials : a.credentials ≠ none → m.credentials = a.credentials
  serviceAccesses : a.serviceAccesses ≠ [] → m.serviceAccesses = a.serviceAccesses
  testRepo : a.testRepo ≠ "" → m.testRepo = a.testRepo
  appPrefix : a.appPrefix ≠ "" → m.appPrefix = a.appPrefix
  promotion : a.promotion ≠ none → m.promotion = a.promotion
  settings : ∀ k v : String, (a.settings.getD ∅)[k]? = some v → (m.settings.getD ∅)[k]? = some v

theorem kept_mergePhase (a b : PhaseConfig) : Kept a (mergePhase a b) where
  namePrefix h := firstSet_of_ne h _
  instanceNumber h := firstSet_of_ne h _
  sshUser h := firstSet_of_ne h _
  buildHost h := firstSet_of_ne h _
  buildHosts h := firstSet_of_ne_nil h _
  vaultHost h := firstSet_of_ne h _
  description h := firstSet_of_ne h _
  services h := firstSet_of_ne_nil h _
  ports h := firstSet_of_ne_nil h _
  credentials h := firstSet_of_ne_none h _
  serviceAccesses h := firstSet_of_ne_nil h _
  testRepo h := firstSet_of_ne h _
  appPrefix h := firstSet_of_ne h _
  promotion h := firstSet_of_ne_none h _
  settings _ _ h := getElem?_fill_of_some h _

/-- What is not set in `a` is as in `b` in `m`. -/
structure Filled (a b m : PhaseConfig) : Prop where
  namePrefix : a.namePrefix = "" → m.namePrefix = b.namePrefix
  instanceNumber : a.instanceNumber = 0 → m.instanceNumber = b.instanceNumber
  sshUser : a.sshUser = "" → m.sshUser = b.sshUser
  buildHost : a.buildHost = "" → m.buildHost = b.buildHost
  buildHosts : a.buildHosts = [] → m.buildHosts = b.buildHosts
  vaultHost : a.vaultHost = "" → m.vaultHost = b.vaultHost
  description : a.description = "" → m.description = b.description
  services : a.services = [] → m.services = b.services
  ports : a.ports = [] → m.ports = b.ports
  credentials : a.credentials = none → m.credentials = b.credentials
  serviceAccesses : a.serviceAccesses = [] → m.serviceAccesses = b.serviceAccesses
  testRepo : a.testRepo = "" → m.testRepo = b.testRepo
  appPrefix : a.appPrefix = "" → m.appPrefix = b.appPrefix
  promotion : a.promotion = none → m.promotion = b.promotion
  settings : ∀ k : String, (a.settings.getD ∅)[k]? = none →
    (m.settings.getD ∅)[k]? = (b.settings.getD ∅)[k]?

theorem filled_mergePhase (a b : PhaseConfig) : Filled a b (mergePhase a b) := by
  constructor
  case settings =>
    intro k h
    rw [mergePhase, Option.getD_some, getElem?_fill, h, Option.none_or]
  all_goals
    intro h
    rw [mergePhase, h]
    rfl

end Laws

namespace DeployConfig

variable {c c' : DeployConfig} {env phase : String} {settings : Std.ExtTreeMap String String}

theorem phase_write (e : DeployEnvConfig) (phase' : String) :
    (e.write phase settings).phase phase' =
      if phase = phase' then (e.phase phase').write settings else e.phase phase' := by
  by_cases h : phase = phase'
  · subst h
    rw [if_pos rfl]
    unfold DeployEnvConfig.write DeployEnvConfig.phase
    split
    · rfl
    · split
      · rfl
      · split <;> rfl
  · rw [if_neg h]
    unfold DeployEnvConfig.write
    split
    · next h₁ => simp [DeployEnvConfig.phase, show phase' ≠ "build" from fun h' => h (h₁.trans h'.symm)]
    · split
      · next h₂ => simp [DeployEnvConfig.phase, show phase' ≠ "deploy" from fun h' => h (h₂.trans h'.symm)]
      · split
        · next h₃ => simp [DeployEnvConfig.phase, show phase' ≠ "test" from fun h' => h (h₃.trans h'.symm)]
        · rfl

theorem steps_write (e : DeployEnvConfig) : (e.write phase settings).steps = e.steps := by
  unfold DeployEnvConfig.write
  split
  · rfl
  · split
    · rfl
    · split <;> rfl

theorem phaseOf_write (env' phase' : String) :
    (c.write env phase settings).phaseOf env' phase' =
      if env = env' ∧ phase = phase' then (c.phaseOf env' phase').write settings
      else c.phaseOf env' phase' := by
  unfold DeployConfig.write
  cases he : c.raw[env]? with
  | none =>
    dsimp only
    split
    · next h =>
      have hempty : c.phaseOf env' phase' = .empty := by rw [phaseOf, ← h.1, he]
      rw [hempty]
      rfl
    · rfl
  | some e =>
    unfold phaseOf
    dsimp only
    rw [ExtMap.getElem?_insert]
    by_cases henv : env = env'
    · subst henv
      simp [he, phase_write]
    · simp [henv]

theorem steps_of_write (env' : String) :
    (c.write env phase settings).raw[env']?.map (·.steps) = c.raw[env']?.map (·.steps) := by
  unfold DeployConfig.write
  cases he : c.raw[env]? with
  | none => rfl
  | some e =>
    dsimp only
    rw [ExtMap.getElem?_insert]
    split
    · next henv => rw [← henv, he, Option.map_some, Option.map_some, steps_write]
    · rfl

/-- The configuration `c'` answers like `c`. -/
structure Alike (c c' : DeployConfig) : Prop where
  default : ∀ phase, c'.phaseOf "default" phase = c.phaseOf "default" phase
  merged : ∀ env phase, mergePhase (c'.phaseOf env phase) (c.phaseOf "default" phase) =
    mergePhase (c.phaseOf env phase) (c.phaseOf "default" phase)
  steps : ∀ env : String, c'.raw[env]?.map (·.steps) = c.raw[env]?.map (·.steps)

theorem Alike.answer (h : Alike c c') (q : ConfigCall) : (c'.call q).1 = (c.call q).1 := by
  cases q with
  | resolve env phase =>
    have hphase : (c'.resolve env phase).1 = (c.resolve env phase).1 := by
      unfold resolve
      dsimp only
      rw [h.default]
      split
      · rfl
      · exact h.merged env phase
    exact congrArg ConfigAnswer.phase hphase
  | resolveSteps env =>
    have hsteps : c'.resolveSteps env = c.resolveSteps env := by
      unfold resolveSteps stepsOf
      rw [h.steps, h.steps]
    exact congrArg ConfigAnswer.steps hsteps

/-- A call completes settings in place, which no later call can tell. -/
theorem Alike.call (h : Alike c c') (q : ConfigCall) : Alike c (c'.call q).2 := by
  cases q with
  | resolveSteps env => exact h
  | resolve env phase =>
    unfold DeployConfig.call resolve
    dsimp only
    split
    · exact h
    · next henv =>
      refine ⟨fun phase' => ?_, fun env' phase' => ?_, fun env' => ?_⟩
      · rw [phaseOf_write, if_neg fun hs => henv hs.1, h.default]
      · rw [phaseOf_write, h.default]
        split
        · next hs =>
          rw [hs.1, hs.2, mergePhase_write, h.merged]
        · exact h.merged env' phase'
      · rw [steps_of_write, h.steps]

theorem alike_after (c : DeployConfig) (calls : List ConfigCall) : Alike c (c.after calls) := by
  induction calls using List.reverseRecOn with
  | nil => exact ⟨fun _ => rfl, fun _ _ => rfl, fun _ => rfl⟩
  | append_singleton calls q ih =>
    have hafter : c.after (calls ++ [q]) = ((c.after calls).call q).2 := by
      rw [after, List.foldl_append]
      rfl
    rw [hafter]
    exact ih.call q

end DeployConfig

/-- The merge of phases is associative and absorbs what it was merged with, it keeps what is set and
takes the rest from the fallback, and the answer to a call does not depend on the calls before it. -/
theorem config_resolution_is_layered :
    (∀ a b c : PhaseConfig, mergePhase (mergePhase a b) c = mergePhase a (mergePhase b c)) ∧
    (∀ a b : PhaseConfig, mergePhase (mergePhase a b) b = mergePhase a b) ∧
    (∀ a b : PhaseConfig, Kept a (mergePhase a b)) ∧
    (∀ a b : PhaseConfig, Filled a b (mergePhase a b)) ∧
    ∀ (c : DeployConfig) (calls : List ConfigCall) (q : ConfigCall),
      ((c.after calls).call q).1 = (c.call q).1 := by
  refine ⟨mergePhase_assoc, mergePhase_absorb, kept_mergePhase, filled_mergePhase, fun c calls q => ?_⟩
  exact (c.alike_after calls).answer q

end Core

end Tarantula
