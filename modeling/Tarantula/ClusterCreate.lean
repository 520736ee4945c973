import Tarantula.BuilderTree
import Tarantula.WorkspaceSection

/-! The task of a workspace. The admin node writes the section of the workspace, reads the configuration
of the plan back, resolves the pipeline of the workspace in it, and builds a task with one job for each
step. -/

namespace Tarantula

def parallelSteps : List String := ["create", "update", "build", "deploy", "test"]

/-- What is resolved of the configuration, in the order of the calls. -/
structure Pipeline where
  steps : List String
  instanceCount : Nat
  buildCount : Nat
  deriving DecidableEq, Repr

def atLeastOne (n : Int) : Nat := if n < 1 then 1 else n.toNat

def resolvePipeline (cfg : Core.DeployConfig) (env : String) : Pipeline :=
  let steps := cfg.resolveSteps env
  let (deployPhase, cfg) := cfg.resolve env "deploy"
  let (buildPhase, cfg) := cfg.resolve env "build"
  let (testPhase, _) := cfg.resolve env "test"
  ⟨if testPhase.testRepo = "" ∨ testPhase.namePrefix = "" then steps.filter (· ≠ "test") else steps,
    atLeastOne deployPhase.instanceNumber, atLeastOne buildPhase.buildHosts.length⟩

/-- The plans of the transactions of the step at position `i`: the first step is the validator. -/
def Pipeline.plans (pl : Pipeline) (plan : PlanObject) (i : Nat) (step : String) : List PlanObject :=
  if i = 0 then [plan]
  else if step ∈ parallelSteps then
    (List.range' 1 (if step = "build" then pl.buildCount else pl.instanceCount)).map
      fun seq => { plan with seq := Int32.ofNat seq }
  else [plan]

structure AdminNode where
  nodeId : String
  tag : String

def AdminNode.partMeta (s : AdminNode) (name : String) : Meta :=
  { (default : Meta) with nodeId := s.nodeId, tag := s.tag, name := name }

def handlerMeta (step platform : String) : Meta := { (default : Meta) with name := step ++ "_" ++ platform }

/-- The loop over the steps, from position `i` and the `tx`th transaction on. The builder of the step
at position `i` has the number `i`. -/
def stepCalls (s : AdminNode) (pl : Pipeline) (plan : PlanObject) :
    List String → Nat → Nat → List (BuildCall PlanObject)
  | [], _, _ => []
  | step :: steps, i, tx =>
    let mt := some (s.partMeta step)
    let plans := pl.plans plan i step
    (if i = 0 then .validator mt else .job mt) ::
      (messageCalls i (handlerMeta step plan.platform) plans tx ++
        .buildJob i :: stepCalls s pl plan steps (i + 1) (tx + plans.length))

inductive ClusterReply
  | rejected (message : String)
  | issues (mt : Meta) (calls : List (BuildCall PlanObject)) -- the task that is issued is built by the calls
  deriving DecidableEq, Repr

/-- `AdminClusterCreate.Request` for a workspace, up to the call of `Issue`. Without a deploy repository
in the plan its name is read from nil, which is `none`. -/
def adminClusterCreate (s : AdminNode) (host : String → GitHost) (ws : WorkspaceRow)
    (services : List Core.ServiceAccess) (plan : PlanObject) : Option ClusterReply :=
  plan.deployRepo.map fun repo =>
    match (host repo.name).upsertWorkspaceSection ws services plan.planName with
    | .error e => .rejected ("sync workspace: " ++ e)
    | .ok r =>
      let plan := { plan with platform := ws.platform, env := ws.name }
      if plan.platform = "" then .rejected "platform is required"
      else if plan.appRepo.all (·.name = "") ∧ plan.name = "" then
        .rejected "appRepo or service name is required"
      else
        match (host repo.name).loadDeployConfig r repo plan.platform plan.planName with
        | .error e => .rejected ("deploy config: " ++ e)
        | .ok cfg =>
          let pl := resolvePipeline cfg plan.env
          .issues (s.partMeta "cluster-create") (stepCalls s pl plan pl.steps 0 0)

section Loop

open TaskBuilder

variable (s : AdminNode) (pl : Pipeline) (plan : PlanObject)

def Pipeline.job (i : Nat) (step : String) : Wire.Job PlanObject :=
  ⟨some (s.partMeta step),
    (pl.plans plan i step).map fun p => ⟨some (handlerMeta step plan.platform), none, none, some p⟩⟩

theorem run_jobCalls {i : Nat} {name : String} {b : TaskBuilder PlanObject} (hw : b.Whole)
    {jobs : List (Wire.Job PlanObject)} (hlen : jobs.length = i)
    (htree : b.tree = jobs ++ [⟨some (s.partMeta name), []⟩]) (rest : List (BuildCall PlanObject)) :
    ∃ b', (messageCalls i (handlerMeta name plan.platform) (pl.plans plan i name) b.transactions.length ++
        .buildJob i :: rest).foldlM step b = rest.foldlM step b' ∧
      b'.Whole ∧ b'.tree = jobs ++ [pl.job s plan i name] ∧
      b'.transactions.length = b.transactions.length + (pl.plans plan i name).length ∧
      b'.jobs = b.jobs ++ if i = 0 then [] else [i] := by
  have hbuilders : b.builders.length = i + 1 := by
    have h := congrArg List.length htree
    simpa [tree, hlen] using h
  have hlt : i < b.builders.length := by omega
  have hmessages := run_messageCalls (handlerMeta name plan.platform) (pl.plans plan i name) hlt
  have hext := extended_withMessages i (handlerMeta name plan.platform) (pl.plans plan i name) hw
  generalize b.withMessages i (handlerMeta name plan.platform) (pl.plans plan i name) = b₂ at hmessages hext
  have htree₂ : b₂.tree = jobs ++ [pl.job s plan i name] := by
    rw [hext.tree, htree, ← hlen, modify_last]
    rfl
  have hcount := hext.transactions
  rw [List.length_map] at hcount
  have hbuild : b₂.step (.buildJob i) = some { b₂ with jobs := b₂.jobs ++ if i = 0 then [] else [i] } := by
    rw [TaskBuilder.step, if_pos (by rw [hext.builders]; omega)]
    by_cases hi : i = 0
    · simp [hi]
    · simp [hi]
  refine ⟨{ b₂ with jobs := b₂.jobs ++ if i = 0 then [] else [i] }, ?_, hext.whole, htree₂, hcount, ?_⟩
  · rw [List.foldlM_append, hmessages, Option.bind_eq_bind, Option.bind_some, List.foldlM_cons, hbuild]
    rfl
  · rw [← hext.jobs]

theorem run_stepCalls (steps : List String) {i : Nat} (hi : i ≠ 0) {b : TaskBuilder PlanObject} (hw : b.Whole)
    (hlen : b.tree.length = i) :
    ∃ b', (stepCalls s pl plan steps i b.transactions.length).foldlM step b = some b' ∧
      b'.tree = b.tree ++ steps.mapIdx (fun k => pl.job s plan (i + k)) ∧
      b'.jobs = b.jobs ++ List.range' i steps.length := by
  induction steps generalizing i b with
  | nil => exact ⟨b, rfl, by simp, by simp⟩
  | cons name steps ih =>
    let b₁ : TaskBuilder PlanObject := { b with builders := b.builders ++ [⟨some (s.partMeta name), []⟩] }
    have hw₁ : b₁.Whole := hw.append_job _
    have htree₁ : b₁.tree = b.tree ++ [⟨some (s.partMeta name), []⟩] := by
      simp only [b₁, tree, List.map_append]
      rfl
    obtain ⟨b₂, hrun, hw₂, htree₂, hcount, hjobs⟩ := run_jobCalls s pl plan hw₁ hlen htree₁
      (stepCalls s pl plan steps (i + 1) (b.transactions.length + (pl.plans plan i name).length))
    obtain ⟨b', hrest, htree', hjobs'⟩ := ih (i := i + 1) (by omega) hw₂ (by simp [htree₂, hlen])
    refine ⟨b', ?_, ?_, ?_⟩
    · rw [hcount] at hrest
      rw [stepCalls, if_neg hi, List.foldlM_cons]
      exact hrun.trans hrest
    · rw [htree', htree₂, List.mapIdx_cons, List.append_assoc, List.singleton_append, Nat.add_zero]
      congr 3
      funext k
      congr 1
      omega
    · rw [hjobs', hjobs, if_neg hi, List.length_cons, List.range'_succ, List.append_assoc,
        List.singleton_append]

/-- The task has one job for each step, the first of which is the validator. -/
theorem run_clusterCreate (name : String) (steps : List String) (mt : Meta) :
    ∃ b, TaskBuilder.run (some mt) (stepCalls s pl plan (name :: steps) 0 0) = some b ∧
      b.build.allJobs = (name :: steps).mapIdx (pl.job s plan) := by
  let b₁ : TaskBuilder PlanObject := ⟨some mt, [⟨some (s.partMeta name), []⟩], [], []⟩
  have hempty : (⟨some mt, [], [], []⟩ : TaskBuilder PlanObject).Whole := fun x hx => by cases hx
  have hw₁ : b₁.Whole := hempty.append_job _
  obtain ⟨b₂, hrun, hw₂, htree₂, hcount, hjobs⟩ := run_jobCalls s pl plan (i := 0) hw₁ (List.length_nil) rfl
    (stepCalls s pl plan steps 1 (pl.plans plan 0 name).length)
  obtain ⟨b', hrest, htree', hjobs'⟩ := run_stepCalls s pl plan steps Nat.one_ne_zero hw₂ (by simp [htree₂])
  refine ⟨b', ?_, ?_⟩
  · rw [hcount.trans (Nat.zero_add _)] at hrest
    rw [stepCalls, if_pos rfl, TaskBuilder.run, List.foldlM_cons, Nat.zero_add]
    exact hrun.trans hrest
  · have htree : b'.tree = (name :: steps).mapIdx (pl.job s plan) := by
      rw [htree', htree₂, List.mapIdx_cons, List.nil_append, List.singleton_append]
      congr 2
      funext k
      congr 1
      omega
    have hget : ∀ j : Nat, b'.builders[j]?.map b'.target = b'.tree[j]? := by
      intro j
      rw [tree, List.getElem?_map]
    have hnumbers : b'.jobs = List.range' 1 steps.length := by
      rw [hjobs', hjobs]
      rfl
    rw [Wire.Task.allJobs, build]
    simp only [hget]
    rw [hnumbers, filterMap_range', htree, List.take_of_length_le (by simp)]
    simp

end Loop

def instanceSteps : List String := ["create", "update", "deploy"]

/-- The jobs are the steps in their order, and the plans of a step that is done for each instance have
the sequence numbers from 1 to `n`. -/
structure Covers (task : Wire.Task PlanObject) (steps : List String) (n : Nat) : Prop where
  order : (task.allJobs.flatMap (·.mt.toList)).map (·.name) = steps
  instances : ∀ (i : Nat) (step : String), steps[i]? = some step → step ∈ instanceSteps →
    ∃ job, task.allJobs[i]? = some job ∧
      (job.transactions.map fun t => t.message.map (·.seq.toInt)).Perm
        ((List.range' 1 n).map fun seq : Nat => some (seq : Int))

section Sections

/-- The section of an environment, empty where there is none. -/
def Core.DeployConfig.envOf (cfg : Core.DeployConfig) (env : String) : Core.DeployEnvConfig :=
  cfg.raw[env]?.getD ⟨[], .empty, .empty, .empty⟩

/-- The pipeline of an environment, by its section and the section `default`. -/
def pipelineOf (own defaults : Core.DeployEnvConfig) : Pipeline :=
  let steps :=
    if own.steps ≠ [] then own.steps else if defaults.steps ≠ [] then defaults.steps else Core.defaultSteps
  let test := Core.mergePhase own.test defaults.test
  ⟨if test.testRepo = "" ∨ test.namePrefix = "" then steps.filter (· ≠ "test") else steps,
    atLeastOne (Core.mergePhase own.deploy defaults.deploy).instanceNumber,
    atLeastOne (Core.mergePhase own.build defaults.build).buildHosts.length⟩

theorem envOf_upsert (ws : WorkspaceRow) (services : List Core.ServiceAccess) (config : Core.DeployConfig)
    (env : String) :
    (ws.upsert services config).envOf env =
      if ws.name = env then ws.envConfig services else config.envOf env := by
  rw [Core.DeployConfig.envOf, WorkspaceRow.upsert, ExtMap.getElem?_insert, Core.DeployConfig.envOf]
  split <;> rfl

variable (cfg : Core.DeployConfig) (env : String)

theorem phaseOf_eq (phase : String) : cfg.phaseOf env phase = (cfg.envOf env).phase phase := by
  rw [Core.DeployConfig.phaseOf, Core.DeployConfig.envOf]
  cases cfg.raw[env]? with
  | some e => rfl
  | none => simp [Core.DeployEnvConfig.phase]

theorem stepsOf_eq : cfg.stepsOf env = (cfg.envOf env).steps := by
  rw [Core.DeployConfig.stepsOf, Core.DeployConfig.envOf]
  cases cfg.raw[env]? <;> rfl

theorem resolve_eq (phase : String) : (cfg.resolve env phase).1 =
    if env = "default" then (cfg.envOf "default").phase phase
    else Core.mergePhase ((cfg.envOf env).phase phase) ((cfg.envOf "default").phase phase) := by
  rw [Core.DeployConfig.resolve]
  dsimp only
  rw [phaseOf_eq, phaseOf_eq]
  split <;> rfl

theorem resolvePipeline_eq : resolvePipeline cfg env = pipelineOf (cfg.envOf env) (cfg.envOf "default") := by
  have hlater : ∀ (calls : List Core.ConfigCall) (phase : String),
      ((cfg.after calls).resolve env phase).1 = (cfg.resolve env phase).1 := by
    intro calls phase
    exact Core.ConfigAnswer.phase.inj ((cfg.alike_after calls).answer (.resolve env phase))
  have hdeploy := resolve_eq cfg env "deploy"
  have hbuild : ((cfg.resolve env "deploy").2.resolve env "build").1 = _ :=
    (hlater [.resolve env "deploy"] "build").trans (resolve_eq cfg env "build")
  have htest : (((cfg.resolve env "deploy").2.resolve env "build").2.resolve env "test").1 = _ :=
    (hlater [.resolve env "deploy", .resolve env "build"] "test").trans (resolve_eq cfg env "test")
  rw [resolvePipeline, Core.DeployConfig.resolveSteps, stepsOf_eq, stepsOf_eq]
  dsimp only
  rw [hdeploy, hbuild, htest, pipelineOf]
  by_cases henv : env = "default"
  · simp [henv, Core.DeployEnvConfig.phase, Core.mergePhase, firstSet]
  · simp [henv, Core.DeployEnvConfig.phase]

end Sections

/-- A step for each instance is the first one only if there is one instance, and a later one only if the
number of instances that the section of the workspace sets, or else the section `default`, is that of the
workspace. -/
def FansOut (ws : WorkspaceRow) (own defaults : Core.DeployEnvConfig) (plan : PlanObject) : Prop :=
  ∀ (i : Nat) (step : String), (pipelineOf own defaults).steps[i]? = some step → step ∈ instanceSteps →
    if i = 0 then ws.instanceCount = 1 ∧ plan.seq = 1
    else
      let n := if own.deploy.instanceNumber = 0 then defaults.deploy.instanceNumber
        else own.deploy.instanceNumber
      (atLeastOne n : Int) = ws.instanceCount ∧ ws.instanceCount < 2 ^ 31

theorem seqs_perm_iff {c n : Nat} :
    ((List.range' 1 c).map fun seq => some (Int32.ofNat seq).toInt).Perm
      ((List.range' 1 n).map fun seq : Nat => some (seq : Int)) ↔ c = n ∧ n < 2 ^ 31 := by
  constructor
  · intro h
    have hlen := h.length_eq
    simp only [List.length_map, List.length_range'] at hlen
    refine ⟨hlen, ?_⟩
    by_cases hn : n < 2 ^ 31
    · exact hn
    · have hmem : some ((2 ^ 31 : Nat) : Int) ∈ (List.range' 1 n).map fun seq : Nat => some (seq : Int) := by
        apply List.mem_map.mpr
        exact ⟨2 ^ 31, List.mem_range'_1.mpr (by omega), rfl⟩
      obtain ⟨seq, -, hseq⟩ := List.mem_map.mp (h.mem_iff.mpr hmem)
      have hlt := (Int32.ofNat seq).toInt_lt
      have heq := Option.some.inj hseq
      omega
  · rintro ⟨rfl, hn⟩
    apply List.Perm.of_eq
    apply List.map_congr_left
    intro seq hseq
    have hle := (List.mem_range'_1.mp hseq).2
    rw [Int32.toInt_ofNat_of_lt (by omega)]

theorem seq_perm_iff {seq : Int32} {n : Nat} :
    [some seq.toInt].Perm ((List.range' 1 n).map fun seq : Nat => some (seq : Int)) ↔ n = 1 ∧ seq = 1 := by
  constructor
  · intro h
    have hlen := h.length_eq
    simp only [List.length_map, List.length_range', List.length_singleton] at hlen
    subst hlen
    have hmem := h.mem_iff.mp (List.mem_singleton_self _)
    have hseq : seq.toInt = (1 : Int32).toInt := by simpa using hmem
    exact ⟨rfl, Int32.toInt_inj.mp hseq⟩
  · rintro ⟨rfl, rfl⟩
    exact List.Perm.refl _

section Coverage

variable (s : AdminNode) (pl : Pipeline) (plan : PlanObject)

theorem instances_iff {i : Nat} {step : String} (hstep : step ∈ instanceSteps) (n : Nat) :
    ((pl.job s plan i step).transactions.map fun t => t.message.map (·.seq.toInt)).Perm
        ((List.range' 1 n).map fun seq : Nat => some (seq : Int)) ↔
      if i = 0 then n = 1 ∧ plan.seq = 1 else pl.instanceCount = n ∧ n < 2 ^ 31 := by
  have hparallel : step ∈ parallelSteps := by
    revert hstep
    simp only [instanceSteps, parallelSteps, List.mem_cons]
    tauto
  have hbuild : step ≠ "build" := by
    rintro rfl
    revert hstep
    decide
  by_cases hi : i = 0
  · rw [if_pos hi, Pipeline.job, Pipeline.plans, if_pos hi]
    exact seq_perm_iff
  · rw [if_neg hi, Pipeline.job, Pipeline.plans, if_neg hi, if_pos hparallel, if_neg hbuild]
    simp only [List.map_map, Function.comp_def, Option.map_some]
    exact seqs_perm_iff

theorem names_mapIdx (steps : List String) (i : Nat) :
    ((steps.mapIdx fun k => pl.job s plan (i + k)).flatMap (·.mt.toList)).map (·.name) = steps := by
  induction steps generalizing i with
  | nil => rfl
  | cons step steps ih =>
    have hrest : (steps.mapIdx fun k => pl.job s plan (i + (k + 1))) =
        steps.mapIdx fun k => pl.job s plan (i + 1 + k) := by
      congr 1
      funext k
      congr 1
      omega
    rw [List.mapIdx_cons, hrest, List.flatMap_cons, List.map_append, ih (i + 1)]
    rfl

theorem covers_iff {task : Wire.Task PlanObject} {steps : List String} {n : Nat}
    (hjobs : task.allJobs = steps.mapIdx (pl.job s plan)) :
    Covers task steps n ↔ ∀ (i : Nat) (step : String), steps[i]? = some step → step ∈ instanceSteps →
      if i = 0 then n = 1 ∧ plan.seq = 1 else pl.instanceCount = n ∧ n < 2 ^ 31 := by
  have hget : ∀ {i : Nat} {step : String}, steps[i]? = some step →
      task.allJobs[i]? = some (pl.job s plan i step) := by
    intro i step hi
    rw [hjobs, List.getElem?_mapIdx, hi]
    rfl
  constructor
  · intro h i step hi hstep
    obtain ⟨job, hjob, hperm⟩ := h.instances i step hi hstep
    rw [hget hi] at hjob
    obtain rfl := Option.some.inj hjob
    exact (instances_iff s pl plan hstep n).mp hperm
  · intro h
    refine ⟨?_, fun i step hi hstep => ⟨_, hget hi, (instances_iff s pl plan hstep n).mpr
      (h i step hi hstep)⟩⟩
    have hnames := names_mapIdx s pl plan steps 0
    simp only [Nat.zero_add] at hnames
    rw [hjobs]
    exact hnames

end Coverage

theorem covers_iff_fansOut (s : AdminNode) (ws : WorkspaceRow) (plan : PlanObject) (cfg : Core.DeployConfig)
    (hn : 1 ≤ ws.instanceCount) (mt : Meta) :
    ∃ b, TaskBuilder.run (some mt) (stepCalls s (resolvePipeline cfg ws.name)
        { plan with platform := ws.platform, env := ws.name }
          (resolvePipeline cfg ws.name).steps 0 0) = some b ∧
      (Covers b.build (resolvePipeline cfg ws.name).steps ws.instanceCount.toNat ↔
        FansOut ws (cfg.envOf ws.name) (cfg.envOf "default") plan) := by
  rw [resolvePipeline_eq]
  generalize cfg.envOf ws.name = own
  generalize cfg.envOf "default" = defaults
  cases hsteps : (pipelineOf own defaults).steps with
  | nil =>
    -- without a step there is nothing to cover
    refine ⟨_, rfl, ?_, ?_⟩
    · intro _ i step hi _
      rw [hsteps] at hi
      cases hi
    · intro _
      exact ⟨rfl, fun i step hi _ => by cases hi⟩
  | cons name steps =>
    obtain ⟨b, hrun, hjobs⟩ := run_clusterCreate s (pipelineOf own defaults)
      { plan with platform := ws.platform, env := ws.name } name steps mt
    refine ⟨b, hrun, (covers_iff s _ _ hjobs).trans ?_⟩
    have hcount : (pipelineOf own defaults).instanceCount = atLeastOne
        (if own.deploy.instanceNumber = 0 then defaults.deploy.instanceNumber
          else own.deploy.instanceNumber) := by
      simp [pipelineOf, Core.mergePhase, firstSet]
    rw [FansOut, hsteps, hcount]
    dsimp only
    generalize atLeastOne _ = count
    have hcond : ∀ i : Nat,
        (if i = 0 then ws.instanceCount.toNat = 1 ∧ plan.seq = 1
          else count = ws.instanceCount.toNat ∧ ws.instanceCount.toNat < 2 ^ 31) ↔
        if i = 0 then ws.instanceCount = 1 ∧ plan.seq = 1
        else (count : Int) = ws.instanceCount ∧ ws.instanceCount < 2 ^ 31 := by
      intro i
      split
      · exact and_congr_left fun _ => by omega
      · omega
    constructor
    · intro h i step hi hstep
      exact (hcond i).mp (h i step hi hstep)
    · intro h i step hi hstep
      exact (hcond i).mpr (h i step hi hstep)

variable {s : AdminNode} {host : String → GitHost} {ws : WorkspaceRow} {services : List Core.ServiceAccess}
  {plan : PlanObject}

theorem issues_stepCalls {mt : Meta} {calls : List (BuildCall PlanObject)}
    (h : adminClusterCreate s host ws services plan = some (.issues mt calls)) :
    ∃ repo clone config r cfg, plan.deployRepo = some repo ∧ repo.name ≠ "" ∧
      (host repo.name).Wrote ws services plan.planName clone config r ∧
      (host repo.name).loadDeployConfig r repo ws.platform plan.planName = .ok cfg ∧
      calls = stepCalls s (resolvePipeline cfg ws.name) { plan with platform := ws.platform, env := ws.name }
        (resolvePipeline cfg ws.name).steps 0 0 := by
  rw [adminClusterCreate, Option.map_eq_some_iff] at h
  obtain ⟨repo, hrepo, h⟩ := h
  cases hupsert : (host repo.name).upsertWorkspaceSection ws services plan.planName with
  | error e =>
    rw [hupsert] at h
    cases h
  | ok r =>
    obtain ⟨clone, config, hw⟩ := GitHost.wrote_of_upsertFrom hupsert
    simp only [hupsert] at h
    split at h
    · cases h
    · split at h
      · cases h
      · have hname : PlanObject.planName { plan with platform := ws.platform, env := ws.name } =
            plan.planName := rfl
        rw [hname] at h
        cases hload : (host repo.name).loadDeployConfig r repo ws.platform plan.planName with
        | error e =>
          rw [hload] at h
          cases h
        | ok cfg =>
          simp only [hload] at h
          refine ⟨repo, clone, config, r, cfg, hrepo, ?_, hw, hload, (ClusterReply.issues.inj h).2.symm⟩
          intro hempty
          rw [GitHost.loadDeployConfig, if_pos hempty] at hload
          cases hload

/-- The task of a workspace covers each of its instances, exactly when the configuration that is read
back says so. Where nothing else is pushed meanwhile, this is the configuration with the section of the
workspace only on the branch that was written. -/
theorem fan_out_covers_iff (s : AdminNode) (host : String → GitHost) (ws : WorkspaceRow)
    (services : List Core.ServiceAccess) (plan : PlanObject) (hn : 1 ≤ ws.instanceCount) {mt : Meta}
    {calls : List (BuildCall PlanObject)}
    (hreply : adminClusterCreate s host ws services plan = some (.issues mt calls)) :
    ∃ repo clone config r cfg b, plan.deployRepo = some repo ∧
      (host repo.name).Wrote ws services plan.planName clone config r ∧
      (host repo.name).loadDeployConfig r repo ws.platform plan.planName = .ok cfg ∧
      TaskBuilder.run (some mt) calls = some b ∧
      (Covers b.build (resolvePipeline cfg ws.name).steps ws.instanceCount.toNat ↔
        FansOut ws (cfg.envOf ws.name) (cfg.envOf "default") plan) ∧
      ((host repo.name).Quiet →
        if repo.tag = "" ∧ clone.head = some repo.branch then cfg = ws.upsert services config
        else (host repo.name).loadDeployConfig clone repo ws.platform plan.planName = .ok cfg) := by
  obtain ⟨repo, clone, config, r, cfg, hrepo, hname, hw, hload, rfl⟩ := issues_stepCalls hreply
  have hback : (host repo.name).Quiet →
      if repo.tag = "" ∧ clone.head = some repo.branch then cfg = ws.upsert services config
      else (host repo.name).loadDeployConfig clone repo ws.platform plan.planName = .ok cfg := by
    intro hquiet
    have hafter := GitHost.load_after_upsert hquiet hw hname
    rw [hload] at hafter
    split
    · rw [if_pos ‹_›] at hafter
      exact Except.ok.inj hafter
    · rw [if_neg ‹_›] at hafter
      exact hafter.symm
  obtain ⟨b, hrun, hcovers⟩ := covers_iff_fansOut s ws plan cfg hn mt
  exact ⟨repo, clone, config, r, cfg, b, hrepo, hw, hload, hrun, hcovers, hback⟩

section Samples

def sampleAdmin : AdminNode := ⟨"admin.1", "admin"⟩

def sampleWorkspace : WorkspaceRow := ⟨"dev", "gcp", ∅, 3, "ubuntu", "", ""⟩

def sampleSection (n : Int) : Core.DeployEnvConfig :=
  ⟨[], .empty, { Core.PhaseConfig.empty with namePrefix := "web", instanceNumber := n }, .empty⟩

def sampleConfig (n : Int) : Core.DeployConfig :=
  ⟨(∅ : Std.ExtTreeMap String Core.DeployEnvConfig).insert "default" (sampleSection n)⟩

def sampleFiles (n : Int) : DeployFiles :=
  DeployFiles.put (fun _ _ => .error "no such file or directory") "gcp" "web" (sampleConfig n)

/-- One branch, with one application. Its configuration has only the section `default`, with a number of
instances. -/
def sampleHost (n : Int) : GitHost where
  cloneOrUpdate := fun _ =>
    .ok ⟨sampleFiles n, some "main",
      Function.update (fun _ => .error "reference not found") "main" (.ok (sampleFiles n)),
      fun _ => .error "tag not found"⟩
  push := fun _ _ => .ok ()
  update := .ok

def clusterPlan : PlanObject := ⟨"", "", none, some ⟨"deploy", "", "main"⟩, "web", 0⟩

theorem own_sample (n : Int) : (sampleWorkspace.upsert [] (sampleConfig n)).envOf "dev" =
    sampleWorkspace.envConfig [] := by
  rw [envOf_upsert, if_pos (by decide)]

theorem default_sample (n : Int) : (sampleWorkspace.upsert [] (sampleConfig n)).envOf "default" =
    sampleSection n := by
  rw [envOf_upsert, if_neg (by decide), Core.DeployConfig.envOf, sampleConfig, ExtMap.getElem?_insert,
    if_pos rfl]
  rfl

theorem steps_sample (n : Int) :
    (resolvePipeline (sampleWorkspace.upsert [] (sampleConfig n)) "dev").steps =
      ["check", "create", "update", "build", "deploy"] := by
  rw [resolvePipeline_eq, own_sample, default_sample]
  rfl

theorem fansOut_sample (n : Int) :
    FansOut sampleWorkspace ((sampleWorkspace.upsert [] (sampleConfig n)).envOf "dev")
      ((sampleWorkspace.upsert [] (sampleConfig n)).envOf "default") clusterPlan ↔ n = 3 := by
  rw [FansOut, ← resolvePipeline_eq, steps_sample, own_sample, default_sample]
  constructor
  · intro h
    have hcreate := (h 1 "create" rfl (by decide)).1
    change (atLeastOne n : Int) = 3 at hcreate
    rw [atLeastOne] at hcreate
    split at hcreate <;> omega
  · rintro rfl i step hi hstep
    cases i with
    | zero =>
      obtain rfl := Option.some.inj hi
      revert hstep
      decide
    | succ i =>
      rw [if_neg (Nat.succ_ne_zero i)]
      decide

end Samples

theorem fan_out_covers_sample :
    ∃ mt calls b,
      adminClusterCreate sampleAdmin (fun _ => sampleHost 3) sampleWorkspace [] clusterPlan =
        some (.issues mt calls) ∧
      TaskBuilder.run (some mt) calls = some b ∧
      Covers b.build ["check", "create", "update", "build", "deploy"] 3 := by
  obtain ⟨repo, clone, config, r, cfg, b, hrepo, hw, -, hrun, hcovers, hback⟩ :=
    fan_out_covers_iff sampleAdmin (fun _ => sampleHost 3) sampleWorkspace [] clusterPlan (by decide) rfl
  obtain rfl := Option.some.inj hrepo
  obtain ⟨attempt, hclone⟩ := hw.cloned
  obtain rfl := Except.ok.inj hclone
  have hconfig : sampleConfig 3 = config := Except.ok.inj (Except.ok.inj hw.found)
  have hquiet : (sampleHost 3).Quiet := fun r => rfl
  have hcfg := hback hquiet
  rw [if_pos ⟨rfl, rfl⟩, ← hconfig] at hcfg
  subst hcfg
  refine ⟨_, _, b, rfl, hrun, ?_⟩
  have hsample := hcovers.mpr ((fansOut_sample 3).mpr rfl)
  change Covers b.build (resolvePipeline _ "dev").steps 3 at hsample
  rw [steps_sample] at hsample
  exact hsample

/-- A workspace with three instances, in a configuration that has one: one instance is created. -/
theorem workspace_count_is_lost :
    ∃ mt calls b, sampleWorkspace.instanceCount = 3 ∧
      adminClusterCreate sampleAdmin (fun _ => sampleHost 1) sampleWorkspace [] clusterPlan =
        some (.issues mt calls) ∧
      TaskBuilder.run (some mt) calls = some b ∧
      ¬ Covers b.build ["check", "create", "update", "build", "deploy"] 3 := by
  obtain ⟨b, hrun, hcovers⟩ := covers_iff_fansOut sampleAdmin sampleWorkspace clusterPlan
    (sampleWorkspace.upsert [] (sampleConfig 1)) (by decide) (sampleAdmin.partMeta "cluster-create")
  refine ⟨_, _, b, rfl, rfl, hrun, ?_⟩
  intro h
  rw [← steps_sample 1] at h
  have hthree := (fansOut_sample 1).mp (hcovers.mp h)
  revert hthree
  decide

end Tarantula
