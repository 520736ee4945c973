import Tarantula.Decision
import Tarantula.PipelineSteps

/-! What a step of a pipeline holds while it runs. Every step uses a platform, a machine, a connection and
the file of a key only while it has them, writes a secret only where it found none, promotes only what has
passed the tests, and gives back all it holds, however it ends. What it holds is what the calls report: a
machine that exists after `Provision` returned an error is held by nobody. -/

namespace Tarantula

namespace Pipeline

/-- What a step holds, and what it has done, by what its calls reported. -/
structure Held where
  platform : Bool
  machine : Option String
  ssh : Bool
  keyFile : Option String
  reading : Bool
  absent : Bool -- the secret that was asked for is missing
  tested : Bool
  inserted : Bool -- the store reported one row
  deriving DecidableEq, Repr

def Held.nothing : Held := ⟨false, none, false, none, false, false, false, false⟩

/-- The calls that give something back. They may come after the row that notes the end of a step. -/
def Effect.releases : Effect → Bool
  | closePlatform | remove _ | closeSsh | closeTemp _ | removeTemp _ | closeKey _ => true
  | _ => false

/-- What a call needs. A test on a machine ends well only if the tests have passed. -/
def needs (kind : StepKind) (s : Held) : Effect → Prop
  | .openPlatform .. => s.platform = false
  | .closePlatform => s.platform = true ∧ s.ssh = false
  | .provision _ => s.platform = true ∧ s.machine = none
  | .remove name =>
    s.platform = true ∧ s.ssh = false ∧ (s.machine = some name ∨ kind = .create ∧ s.machine = none)
  | .ip _ => s.platform = true
  | .connect .. => s.platform = true ∧ s.ssh = false
  | .closeSsh => s.ssh = true
  | .run _ (.pushTag _) => s.ssh = true ∧ s.tested = true
  | .run .. => s.ssh = true
  | .createTemp => s.keyFile = none
  | .writeKey file _ | .closeTemp file => s.keyFile = some file
  | .removeTemp file | .openKey file => s.keyFile = some file ∧ s.reading = false
  | .closeKey file => s.keyFile = some file ∧ s.reading = true
  | .upload file _ _ => s.ssh = true ∧ s.keyFile = some file ∧ s.reading = true
  | .putSecret .. => s.absent = true
  | .insert _ => kind = .test → s.platform = true → s.tested = true
  | .authKey _ | .readConfig .. | .listRepos .. | .expired | .sleep _ | .vaultAuth | .getSecret .. |
    .randomPassword
  | .publish .. => True

instance needsDecidable (kind : StepKind) (s : Held) (c : Effect) : Decidable (needs kind s c) := by
  unfold needs
  split <;> infer_instance

def after (s : Held) : (c : Effect) → c.Ans → Held
  | .openPlatform .., .ok _ => { s with platform := true }
  | .closePlatform, _ => { s with platform := false }
  | .provision name, none => { s with machine := some name }
  | .remove _, _ => { s with machine := none }
  | .connect .., none => { s with ssh := true }
  | .closeSsh, _ => { s with ssh := false }
  | .run _ (.entrypoint ..), none => { s with tested := true }
  | .createTemp, .ok file => { s with keyFile := some file }
  | .removeTemp _, _ => { s with keyFile := none }
  | .openKey _, none => { s with reading := true }
  | .closeKey _, _ => { s with reading := false }
  | .getSecret .., data => { s with absent := List.isEmpty data }
  | .putSecret .., _ => { s with absent := false }
  | .insert _, .ok n => { s with inserted := n == 1 }
  | _, _ => s

def protocol (kind : StepKind) : Monitor Effect Effect.Ans Held := fun s c x =>
  if (s.inserted = false ∨ c.releases = true) ∧ needs kind s c then some (after s c x) else none

/-- A condition on how a part ends, with what is held and what is deferred then. -/
abbrev Post (α : Type) := Option (Except StepFail α) → Held → List Effect → Prop

section Rules

variable {kind : StepKind} {α β : Type} {s : Held} {cs : List Effect} {p : Step α}
    {f : α → Step β} {Q : Post α}

theorem wp_seq {Q : Post β}
    (h : (protocol kind).wp p.run (Monitor.onward Q fun a s cs => (protocol kind).wp (f a).run Q s cs) s cs) :
    (protocol kind).wp (p >>= f).run Q s cs := (Monitor.wp_run_bind _ _).mpr h

theorem wp_ask {c : Effect} {Q : Post c.Ans} (hi : s.inserted = false) (hn : needs kind s c)
    (h : ∀ x, Q (some (.ok x)) (after s c x) cs) : (protocol kind).wp (ask c).run Q s cs :=
  (Monitor.wp_run_lift _).mpr fun x => ⟨_, if_pos ⟨.inl hi, hn⟩, h x⟩

theorem wp_later {c : Effect} {Q : Post Unit} (h : Q (some (.ok ())) s (c :: cs)) :
    (protocol kind).wp (defer c).run Q s cs := (Monitor.wp_run_lift _).mpr h

theorem wp_passed {fail : String → StepFail} {Q : Post Unit} (h : Q (some (.ok ())) s cs) :
    (protocol kind).wp (check fail none).run Q s cs := h

theorem wp_free {c : Effect} {Q : Post c.Ans} (hi : s.inserted = false) (hn : needs kind s c)
    (ha : ∀ x, after s c x = s) (h : ∀ x, Q (some (.ok x)) s cs) : (protocol kind).wp (ask c).run Q s cs :=
  wp_ask hi hn fun x => (ha x).symm ▸ h x

/-- A failure and a panic are accepted. -/
def Fails (Q : Post α) (s : Held) (cs : List Effect) : Prop :=
  (∀ e, Q (some (.error e)) s cs) ∧ Q none s cs

/-- However the part ends, what is held and what is deferred is as it was. -/
def Keeps (kind : StepKind) (s : Held) (p : Step α) : Prop :=
  ∀ cs, (protocol kind).wp p.run (fun _ s' cs' => s' = s ∧ cs' = cs) s cs

theorem Keeps.wp (hp : Keeps kind s p) (hf : Fails Q s cs) (hok : ∀ a, Q (some (.ok a)) s cs) :
    (protocol kind).wp p.run Q s cs := by
  refine (hp cs).mono fun r s' cs' h => ?_
  obtain ⟨rfl, rfl⟩ := h
  match r with
  | none => exact hf.2
  | some (.error e) => exact hf.1 e
  | some (.ok a) => exact hok a

theorem Keeps.bind (hp : Keeps kind s p) (hf : ∀ a, Keeps kind s (f a)) : Keeps kind s (p >>= f) := fun cs =>
  wp_seq (hp.wp ⟨fun _ => ⟨rfl, rfl⟩, rfl, rfl⟩ fun a => hf a cs)

theorem Keeps.seq {Q : Post β} (hp : Keeps kind s p) (hf : Fails Q s cs)
    (h : ∀ a, (protocol kind).wp (f a).run Q s cs) : (protocol kind).wp (p >>= f).run Q s cs :=
  wp_seq (hp.wp hf h)

theorem keeps_pure (a : α) : Keeps kind s (pure a : Step α) := fun _ => ⟨rfl, rfl⟩

theorem keeps_throw (e : StepFail) : Keeps kind s (throw e : Step α) := fun _ => ⟨rfl, rfl⟩

theorem keeps_ask {c : Effect} (hi : s.inserted = false) (hn : needs kind s c) (ha : ∀ x, after s c x = s) :
    Keeps kind s (ask c) := fun _ => wp_ask hi hn fun x => ⟨ha x, rfl⟩

theorem keeps_call {c : Effect} {f : c.Ans → Step β} (hi : s.inserted = false) (hn : needs kind s c)
    (ha : ∀ x, after s c x = s) (hf : ∀ x, Keeps kind s (f x)) : Keeps kind s (ask c >>= f) :=
  (keeps_ask hi hn ha).bind hf

theorem keeps_check {fail : String → StepFail} {err : Option String} : Keeps kind s (check fail err) := by
  cases err with
  | none => exact keeps_pure ()
  | some e => exact keeps_throw _

theorem keeps_value {fail : String → StepFail} {r : Except String α} : Keeps kind s (value fail r) := by
  cases r with
  | ok a => exact keeps_pure a
  | error e => exact keeps_throw _

theorem keeps_notNil {x : Option α} : Keeps kind s (notNil x) := by
  cases x with
  | some a => exact keeps_pure a
  | none => exact fun _ => ⟨rfl, rfl⟩

theorem keeps_logged {p : Step Unit} (hp : Keeps kind s p) : Keeps kind s (logged p) := fun cs =>
  wp_seq ((Monitor.wp_run_lift _).mpr ((hp cs).mono fun r s cs h => by cases r <;> exact h))

/-- What holds where a function is left that is to keep `s`. -/
def Restores (kind : StepKind) (s : Held) (_ : Option (Except StepFail α)) (s' : Held)
    (ds : List Effect) : Prop :=
  (protocol kind).unwinds (· = s) ds s'

theorem keeps_func (h : (protocol kind).wp p.run (Restores kind s) s []) : Keeps kind s (func p) := fun _ =>
  (Monitor.wp_func _).mpr (h.mono fun _ _ _ hr => hr.mono fun _ hs => ⟨hs, rfl⟩)

theorem Keeps.restores {s' : Held} {ds : List Effect} (hp : Keeps kind s' p)
    (h : (protocol kind).unwinds (· = s) ds s') : (protocol kind).wp p.run (Restores kind s) s' ds :=
  hp.wp ⟨fun _ => h, h⟩ fun _ => h

end Rules

section Parts

variable {kind : StepKind} {α : Type} {s : Held} {cs : List Effect}

theorem keeps_authKey {name : String} (hi : s.inserted = false) : Keeps kind s (authKey name) :=
  keeps_call hi trivial (fun _ => rfl) fun _ => keeps_value

theorem keeps_planOf {h : Handler} {t : MailTransaction} : Keeps kind s (planOf h t) := by
  unfold planOf
  split
  · exact keeps_throw _
  · exact keeps_pure _

theorem keeps_loadConfig {plan : PlanObject} (hi : s.inserted = false) : Keeps kind s (loadConfig plan) := by
  refine (keeps_authKey hi).bind fun key => ?_
  cases plan.deployRepo with
  | none => exact keeps_throw _
  | some repo =>
    dsimp only
    split
    · exact keeps_throw _
    · refine keeps_notNil.bind fun git => ?_
      refine keeps_call hi trivial (fun _ => rfl) fun r => ?_
      exact keeps_value.bind fun cfg => keeps_pure _

theorem keeps_addressOf {name : String} (hi : s.inserted = false) (hp : s.platform = true) :
    Keeps kind s (addressOf name) := keeps_call hi hp (fun _ => rfl) fun _ => keeps_value

theorem keeps_runScripts {minutes : Script → Nat} {scripts : List Script} (hi : s.inserted = false)
    (hn : ∀ script ∈ scripts, ∀ n, needs kind s (.run n script))
    (ha : ∀ script ∈ scripts, ∀ n x, after s (.run n script) x = s) :
    Keeps kind s (runScripts minutes scripts) := by
  induction scripts with
  | nil => exact keeps_pure ()
  | cons script scripts ih =>
    rw [List.forall_mem_cons] at hn ha
    refine Keeps.bind ?_ fun _ => ih hn.2 ha.2
    refine keeps_call hi (hn.1 _) (ha.1 _) fun r => ?_
    cases r with
    | none => exact keeps_pure ()
    | some r => exact keeps_throw _

def Script.Plain : Script → Prop
  | .entrypoint .. | .pushTag _ => False
  | _ => True

theorem keeps_plain {minutes : Script → Nat} {scripts : List Script} (hi : s.inserted = false)
    (hssh : s.ssh = true)
    (h : ∀ script ∈ scripts, script.Plain) : Keeps kind s (runScripts minutes scripts) := by
  refine keeps_runScripts hi (fun script hscript n => ?_) fun script hscript n x => ?_ <;>
    have hplain := h script hscript
  · cases script <;> first | exact hssh | exact hplain.elim
  · cases script <;> first | rfl | exact hplain.elim

theorem keeps_uploadGitKey {user file : String} (hi : s.inserted = false) (hssh : s.ssh = true)
    (hf : s.keyFile = some file) (hr : s.reading = false) : Keeps kind s (uploadGitKey user file) := by
  have hclose : (protocol kind).unwinds (· = s) [.closeKey file] { s with reading := true } := fun _ =>
    ⟨_, if_pos ⟨.inr rfl, hf, rfl⟩, show { s with reading := false } = s by rw [← hr]⟩
  refine keeps_func (wp_seq (wp_ask hi ⟨hf, hr⟩ fun err => ?_))
  cases err with
  | some e => exact (rfl : s = s)
  | none =>
    refine wp_seq (wp_passed (wp_seq (wp_later (Keeps.restores ?_ hclose))))
    exact keeps_call hi ⟨hssh, hf, rfl⟩ (fun _ => rfl) fun _ => keeps_check

section Acquire

theorem wp_openPlatform {phase : Core.PhaseConfig} {key : AuthKey} {Q : Post Platform}
    (hi : s.inserted = false) (hp : s.platform = false) (hf : Fails Q s cs)
    (hok : ∀ platform, Q (some (.ok platform)) { s with platform := true } (.closePlatform :: cs)) :
    (protocol kind).wp (openPlatform phase key).run Q s cs := by
  refine wp_seq (wp_ask hi hp fun r => ?_)
  cases r with
  | ok platform => exact hok platform
  | error e => exact hf.1 _

theorem wp_writeKeyFile {git : GitKey} {Q : Post String}
    (hi : s.inserted = false) (hk : s.keyFile = none) (hnone : Fails Q s cs)
    (hf : ∀ file, Fails Q { s with keyFile := some file } (.removeTemp file :: cs))
    (hok : ∀ file, Q (some (.ok file)) { s with keyFile := some file } (.removeTemp file :: cs)) :
    (protocol kind).wp (writeKeyFile git).run Q s cs := by
  refine wp_seq (wp_ask hi hk fun r => ?_)
  cases r with
  | error e => exact hnone.1 _
  | ok file =>
    refine wp_seq (show (protocol kind).wp (pure file : Step String).run _ _ _ from ?_)
    refine wp_seq (wp_later (wp_seq (wp_free hi rfl (fun _ => rfl) fun err => ?_)))
    refine wp_seq (wp_free hi rfl (fun _ => rfl) fun _ => ?_)
    exact wp_seq (keeps_check.wp (hf file) fun _ => hok file)

variable {Q : Post Unit}

theorem wp_awaitSsh {host user key : String} (hi : s.inserted = false) (hp : s.platform = true)
    (hssh : s.ssh = false) (hf : Fails Q s cs) (hok : Q (some (.ok ())) { s with ssh := true } cs)
    (pauses : Nat) :
    (protocol kind).wp (awaitSsh host user key pauses).run Q s cs := by
  induction pauses with
  | zero =>
    refine wp_seq (wp_ask hi ⟨hp, hssh⟩ fun err => ?_)
    cases err with
    | none => exact hok
    | some e => exact hf.1 _
  | succ pauses ih =>
    refine wp_seq (wp_ask hi ⟨hp, hssh⟩ fun err => ?_)
    cases err with
    | none => exact hok
    | some e =>
      refine wp_seq (wp_ask hi trivial fun late => ?_)
      cases late with
      | true => exact hf.1 _
      | false => exact wp_seq (wp_ask hi trivial fun _ => ih)

end Acquire

section Machine

variable {platform : Platform} {plan : PlanObject} {docker : Option DockerAccess}

theorem wp_connected {rest : Step Unit} (hssh : s.ssh = false)
    (hrest : Keeps kind { s with ssh := true } rest) :
    (protocol kind).wp (defer .closeSsh >>= fun _ => rest).run (Restores kind s) { s with ssh := true } [] :=
  wp_seq (wp_later (hrest.restores fun _ =>
    ⟨_, if_pos ⟨.inr rfl, rfl⟩, show { s with ssh := false } = s by rw [← hssh]⟩))

theorem fails_restores {next : α → Held → List Effect → Prop} :
    Fails (Monitor.onward (β := Unit) (Restores kind s) next) s [] := ⟨fun _ => rfl, rfl⟩

theorem keeps_setupInstance {name user file : String} (hi : s.inserted = false) (hp : s.platform = true)
    (hssh : s.ssh = false) (hf : s.keyFile = some file) (hr : s.reading = false) :
    Keeps kind s (Update.setupInstance platform name user file) := by
  refine keeps_func (wp_seq ((keeps_addressOf hi hp).wp fails_restores fun ip => ?_))
  refine wp_seq (wp_awaitSsh hi hp hssh fails_restores ?_ 31)
  exact wp_connected hssh (.bind (keeps_plain hi rfl (by simp [Script.Plain])) fun _ =>
    keeps_uploadGitKey hi rfl hf hr)

theorem keeps_onHost {host key user : String} {git : GitKey} {services : List Core.GcpServiceConfig}
    (hi : s.inserted = false) (hp : s.platform = true) (hssh : s.ssh = false) :
    Keeps kind s (Build.onHost host key user git plan docker services) := by
  refine keeps_func (wp_seq (wp_awaitSsh hi hp hssh fails_restores ?_ 31))
  exact wp_connected hssh (keeps_notNil.bind fun docker => keeps_notNil.bind fun repo =>
    keeps_plain hi rfl (by simp [Script.Plain]))

theorem keeps_onInstance {h : Handler} {phase : Core.PhaseConfig} (hi : s.inserted = false)
    (hp : s.platform = true) (hssh : s.ssh = false) :
    Keeps kind s (Deploy.onInstance h platform plan phase docker) := by
  refine keeps_func (wp_seq ((keeps_addressOf hi hp).wp fails_restores fun ip => ?_))
  refine wp_seq (wp_ask hi ⟨hp, hssh⟩ fun err => ?_)
  cases err with
  | some e => exact (rfl : s = s)
  | none =>
    exact wp_seq (wp_passed (wp_connected hssh (keeps_notNil.bind fun docker =>
      keeps_plain hi rfl (by simp [Script.Plain]))))

theorem keeps_buildHost {phase : Core.PhaseConfig} {seq : Int32} (hi : s.inserted = false)
    (hp : s.platform = true) :
    Keeps kind s (Build.buildHost phase seq) := by
  unfold Build.buildHost
  dsimp only
  split
  · exact keeps_pure _
  · split
    · exact keeps_pure _
    · exact keeps_addressOf hi hp

theorem keeps_secretData {fields : List (String × Core.CredentialField)} (hi : s.inserted = false) :
    Keeps kind s (Deploy.secretData fields) := by
  induction fields with
  | nil => exact keeps_pure _
  | cons entry fields ih =>
    refine Keeps.bind ?_ fun text => ih.bind fun rest => keeps_pure _
    unfold Deploy.secretText
    split
    · exact keeps_call hi trivial (fun _ => rfl) fun _ => keeps_value
    · exact keeps_pure _

theorem wp_seed {phase : Core.PhaseConfig} {Q : Post Unit}
    (hi : s.inserted = false) (hf : ∀ b, Fails Q { s with absent := b } cs)
    (hok : ∀ b, Q (some (.ok ())) { s with absent := b } cs) :
      (protocol kind).wp (Deploy.seed phase).run Q s cs := by
  unfold Deploy.seed
  cases phase.credentials with
  | none => exact hok s.absent
  | some spec =>
    refine wp_seq (wp_free hi trivial (fun _ => rfl) fun err => ?_)
    refine keeps_check.seq (hf s.absent) fun _ => ?_
    refine wp_seq (wp_ask hi trivial fun existing => ?_)
    show (protocol kind).wp (ite _ _ _ : Step Unit).run Q _ cs
    split
    · exact hok _
    · next hlen =>
      have habsent : List.isEmpty existing = true := by
        rw [List.isEmpty_iff]
        exact List.length_eq_zero_iff.mp (not_not.mp hlen)
      refine wp_seq (Keeps.wp (keeps_secretData hi) (hf _) fun data => ?_)
      exact wp_seq (wp_ask hi habsent fun err => keeps_check.wp (hf false) fun _ => hok false)

theorem keeps_announce {phase : Core.PhaseConfig} (hi : s.inserted = false) :
    Keeps kind s (Deploy.announce plan phase) := by
  unfold Deploy.announce
  split
  · exact keeps_call hi trivial (fun _ => rfl) fun _ => keeps_pure _
  · exact keeps_pure _

theorem keeps_promote {h : Handler} {git : GitKey} {phase : Core.PhaseConfig} (hi : s.inserted = false)
    (hssh : s.ssh = true) (htested : s.tested = true) : Keeps kind s (Test.promote h git plan phase) := by
  unfold Test.promote
  split
  · cases phase.promotion with
    | none => exact keeps_pure _
    | some p =>
      dsimp only
      split
      · refine keeps_logged (keeps_runScripts hi ?_ ?_) <;> simp only [List.forall_mem_cons]
        · exact ⟨fun _ => hssh, fun _ => hssh, fun _ => ⟨hssh, htested⟩, by simp⟩
        · exact ⟨fun _ _ => rfl, fun _ _ => rfl, fun _ _ => rfl, by simp⟩
      · exact keeps_pure _
  · exact keeps_pure _

end Machine

end Parts

/-- All is given back, but for the machine that `create` is to leave. -/
structure Held.Released (kind : StepKind) (s : Held) : Prop where
  platform : s.platform = false
  machine : kind ≠ .create → s.machine = none
  ssh : s.ssh = false
  keyFile : s.keyFile = none
  reading : s.reading = false

/-- The deferred calls give back all that is held. -/
def Exits (kind : StepKind) (ds : List Effect) (s : Held) : Prop :=
  (protocol kind).unwinds (fun s' => s'.Released kind ∧ s'.inserted = s.inserted) ds s

/-- What holds where a handler is left: a success is noted in the store, and nothing else is. -/
def Leaves (kind : StepKind) (r : Option (Except StepFail Unit)) (s : Held) (ds : List Effect) : Prop :=
  Exits kind ds s ∧ (r = some (.ok ()) ↔ s.inserted = true)

section Handlers

variable {kind : StepKind} {s s' : Held} {ds : List Effect} {h : Handler} {t : MailTransaction}

theorem Exits.cons {c : Effect} (hc : c.releases = true) (hn : needs kind s c) (ha : ∀ x, after s c x = s')
    (hi : s'.inserted = s.inserted) (he : Exits kind ds s') : Exits kind (c :: ds) s := by
  intro x
  rw [Exits, hi] at he
  exact ⟨s', (if_pos ⟨.inr hc, hn⟩).trans (congrArg some (ha x)), he⟩

theorem Exits.fails (he : Exits kind ds s) (hi : s.inserted = false) : Fails (Leaves kind) s ds :=
  ⟨fun _ => ⟨he, by simp [hi]⟩, he, by simp [hi]⟩

theorem exits_released (hs : s.Released kind) : Exits kind [] s := ⟨hs, rfl⟩

theorem exits_platform (hp : s.platform = true) (hs : { s with platform := false }.Released kind) :
    Exits kind [.closePlatform] s := .cons rfl ⟨hp, hs.ssh⟩ (fun _ => rfl) rfl (exits_released hs)

theorem wp_finish {mt : Meta} (hi : s.inserted = false)
    (ht : kind = .test → s.platform = true → s.tested = true)
    (he : ∀ b, Exits kind ds { s with inserted := b }) :
    (protocol kind).wp (insert mt).run (Leaves kind) s ds := by
  have hs : { s with inserted := false } = s := by rw [← hi]
  have hf : Fails (Leaves kind) s ds := Exits.fails (hs ▸ he false) hi
  refine wp_seq (wp_ask hi ht fun r => ?_)
  cases r with
  | error e => exact hf.1 _
  | ok n =>
    show (protocol kind).wp (ite (n = 1) _ _ : Step Unit).run _ { s with inserted := n == 1 } _
    split
    · next hn => exact ⟨he _, by simp [hn]⟩
    · next hn =>
      rw [beq_eq_false_iff_ne.mpr hn, hs]
      exact hf.1 _

theorem released_nothing (b : Bool) : { Held.nothing with inserted := b }.Released kind :=
  ⟨rfl, fun _ => rfl, rfl, rfl, rfl⟩

theorem fails_nothing : Fails (Leaves kind) Held.nothing [] :=
  (exits_released (released_nothing false)).fails rfl

theorem wp_note {mt : Meta} : (protocol kind).wp (insert mt).run (Leaves kind) .nothing [] :=
  wp_finish rfl (by simp [Held.nothing]) fun b => exits_released (released_nothing b)

theorem check_reserve : (protocol kind).wp (Check.reserve h t).run (Leaves kind) .nothing [] := by
  refine keeps_planOf.seq fails_nothing fun plan => ?_
  cases plan.appRepo with
  | none => exact wp_note
  | some repo =>
    dsimp only
    split
    · exact wp_note
    · refine (keeps_authKey rfl).seq fails_nothing fun key => ?_
      refine keeps_notNil.seq fails_nothing fun git => ?_
      refine wp_seq (wp_free rfl trivial (fun _ => rfl) fun r => ?_)
      refine keeps_value.seq fails_nothing fun repos => ?_
      show (protocol kind).wp (ite _ _ _ : Step Unit).run _ _ _
      split
      · exact wp_note
      · exact fails_nothing.1 _

def Held.onPlatform : Held := { Held.nothing with platform := true }

theorem wp_prepare {Q : Post String} (hf : Fails Q .nothing [])
    (hok : ∀ name, Q (some (.ok name)) .onPlatform [.closePlatform]) :
    (protocol kind).wp (Create.prepare h t).run Q .nothing [] := by
  refine keeps_planOf.seq hf fun plan => ?_
  refine (keeps_loadConfig rfl).seq hf fun cfg => ?_
  refine (keeps_authKey rfl).seq hf fun key => ?_
  exact wp_seq (wp_openPlatform rfl rfl hf fun platform => hok _)

theorem create_reserve : (protocol .create).wp (Create.reserve h t).run (Leaves .create) .nothing [] := by
  have hexit : ∀ name b,
      Exits .create [.closePlatform] { Held.onPlatform with machine := name, inserted := b } :=
    fun _ _ => exits_platform rfl ⟨rfl, by simp, rfl, rfl, rfl⟩
  refine wp_seq (wp_prepare fails_nothing fun name => ?_)
  refine wp_seq (wp_ask rfl ⟨rfl, rfl⟩ fun err => ?_)
  cases err with
  | some e => exact ((hexit none false).fails rfl).1 _
  | none => exact wp_finish rfl (by simp) fun b => hexit (some name) b

theorem create_cancel : (protocol .create).wp (Create.cancel h t).run (Leaves .create) .nothing [] := by
  refine wp_seq ((Monitor.wp_run_lift _).mpr (wp_prepare ⟨fun e => wp_note, fails_nothing.2⟩ fun name => ?_))
  show (protocol .create).wp (ask (.remove name) >>= fun _ => insert t.mt).run (Leaves .create) .onPlatform _
  refine wp_seq (wp_ask rfl ⟨rfl, rfl, .inr ⟨rfl, rfl⟩⟩ fun err => ?_)
  exact wp_finish rfl (by simp) fun b => exits_platform rfl ⟨rfl, fun _ => rfl, rfl, rfl, rfl⟩

theorem exits_onPlatform (a b : Bool) :
    Exits kind [.closePlatform] { Held.onPlatform with absent := a, inserted := b } :=
  exits_platform rfl ⟨rfl, fun _ => rfl, rfl, rfl, rfl⟩

theorem fails_onPlatform (a : Bool) :
    Fails (Leaves kind) { Held.onPlatform with absent := a } [.closePlatform] :=
  (exits_onPlatform a false).fails rfl

theorem update_reserve (hk : kind ≠ .test) :
    (protocol kind).wp (Update.reserve h t).run (Leaves kind) .nothing [] := by
  have hkey : ∀ file b, Exits kind [.removeTemp file, .closePlatform]
      { Held.onPlatform with keyFile := some file, inserted := b } := fun file b =>
    .cons rfl ⟨rfl, rfl⟩ (fun _ => rfl) rfl (exits_onPlatform false b)
  refine keeps_planOf.seq fails_nothing fun plan => ?_
  refine (keeps_loadConfig rfl).seq fails_nothing fun cfg => ?_
  refine (keeps_authKey rfl).seq fails_nothing fun key => ?_
  refine wp_seq (wp_openPlatform rfl rfl fails_nothing fun platform => ?_)
  have hfails : ∀ file, Fails (Leaves kind) _ _ := fun file => (hkey file false).fails rfl
  refine wp_seq (wp_writeKeyFile rfl rfl (fails_onPlatform false) hfails fun file => ?_)
  refine (keeps_logged (keeps_setupInstance rfl rfl rfl rfl rfl)).seq (hfails file) fun _ => ?_
  exact wp_finish rfl (fun ht => absurd ht hk) (hkey file)

theorem build_reserve (hk : kind ≠ .test) :
    (protocol kind).wp (Build.reserve h t).run (Leaves kind) .nothing [] := by
  refine keeps_planOf.seq fails_nothing fun plan => ?_
  refine (keeps_loadConfig rfl).seq fails_nothing fun cfg => ?_
  refine (keeps_authKey rfl).seq fails_nothing fun key => ?_
  refine (keeps_authKey rfl).seq fails_nothing fun dockerKey => ?_
  refine wp_seq (wp_openPlatform rfl rfl fails_nothing fun platform => ?_)
  refine (keeps_buildHost rfl rfl).seq (fails_onPlatform false) fun host => ?_
  refine (keeps_onHost rfl rfl rfl).seq (fails_onPlatform false) fun _ => ?_
  exact wp_finish rfl (fun ht => absurd ht hk) (exits_onPlatform false)

theorem deploy_reserve (hk : kind ≠ .test) :
    (protocol kind).wp (Deploy.reserve h t).run (Leaves kind) .nothing [] := by
  refine keeps_planOf.seq fails_nothing fun plan => ?_
  refine (keeps_loadConfig rfl).seq fails_nothing fun cfg => ?_
  refine (keeps_authKey rfl).seq fails_nothing fun key => ?_
  refine (keeps_authKey rfl).seq fails_nothing fun dockerKey => ?_
  refine wp_seq (wp_openPlatform rfl rfl fails_nothing fun platform => ?_)
  refine wp_seq (wp_seed rfl fails_onPlatform fun absent => ?_)
  refine (keeps_onInstance rfl rfl rfl).seq (fails_onPlatform absent) fun _ => ?_
  refine (keeps_announce rfl).seq (fails_onPlatform absent) fun _ => ?_
  exact wp_finish rfl (fun ht => absurd ht hk) (exits_onPlatform absent)

section Tests

variable {name : String}

theorem exits_machine (kind : StepKind) (name : String) (file : Option String) (ssh tested b : Bool) :
    Exits kind ((file.map Effect.removeTemp).toList ++ ((if ssh then [.closeSsh] else []) ++
      [.remove name, .closePlatform]))
        { Held.onPlatform with
          machine := some name, ssh := ssh, keyFile := file, tested := tested, inserted := b } := by
  have hmachine : Exits kind [.remove name, .closePlatform]
      { Held.onPlatform with machine := some name, tested := tested, inserted := b } :=
    .cons rfl ⟨rfl, rfl, .inl rfl⟩ (fun _ => rfl) rfl (exits_platform rfl ⟨rfl, fun _ => rfl, rfl, rfl, rfl⟩)
  have hssh : Exits kind ((if ssh then [.closeSsh] else []) ++ [.remove name, .closePlatform])
      { Held.onPlatform with machine := some name, ssh := ssh, tested := tested, inserted := b } := by
    cases ssh with
    | false => exact hmachine
    | true => exact .cons rfl rfl (fun _ => rfl) rfl hmachine
  cases file with
  | none => exact hssh
  | some file => exact .cons rfl ⟨rfl, rfl⟩ (fun _ => rfl) rfl hssh

/-- The part of a test on its machine, up to the row that notes its end. -/
theorem test_onMachine {git : GitKey} {plan : PlanObject} {testPhase deployPhase : Core.PhaseConfig}
    {user : String} : (protocol kind).wp (do
      Test.onMachine h git plan testPhase deployPhase user
      insert t.mt).run (Leaves kind) { Held.onPlatform with machine := some name, ssh := true }
        [.closeSsh, .remove name, .closePlatform] := by
  have hf : Fails (Leaves kind) _ _ := (exits_machine kind name none true false false).fails rfl
  have hkey : ∀ file, Fails (Leaves kind) _ _ :=
    fun file => (exits_machine kind name (some file) true false false).fails rfl
  refine wp_seq ((keeps_plain rfl rfl (by simp [Script.Plain])).seq hf fun _ => ?_)
  refine wp_seq (wp_writeKeyFile rfl rfl hf hkey fun file => ?_)
  refine (keeps_uploadGitKey rfl rfl rfl rfl).seq (hkey file) fun _ => ?_
  refine (keeps_addressOf rfl rfl).seq (hkey file) fun appIP => ?_
  refine (keeps_plain rfl rfl (by simp [Script.Plain])).seq (hkey file) fun _ => ?_
  refine wp_seq (wp_seq (wp_ask rfl rfl fun r => ?_))
  cases r with
  | some r => exact (hkey file).1 _
  | none =>
    have htested := fun b => exits_machine kind name (some file) true true b
    refine (keeps_promote rfl rfl rfl).wp ((htested false).fails rfl) fun _ => ?_
    exact wp_finish rfl (fun _ _ => rfl) htested

end Tests

theorem test_reserve : (protocol kind).wp (Test.reserve h t).run (Leaves kind) .nothing [] := by
  have hmachine : ∀ name, Fails (Leaves kind) { Held.onPlatform with machine := some name }
      [.remove name, .closePlatform] := fun name => (exits_machine kind name none false false false).fails rfl
  refine keeps_planOf.seq fails_nothing fun plan => ?_
  refine (keeps_loadConfig rfl).seq fails_nothing fun cfg => ?_
  show (protocol kind).wp (ite _ _ _ : Step Unit).run _ _ _
  split
  · exact wp_note
  · refine (keeps_authKey rfl).seq fails_nothing fun key => ?_
    refine wp_seq (wp_openPlatform rfl rfl fails_nothing fun platform => ?_)
    refine wp_seq (wp_ask rfl ⟨rfl, rfl⟩ fun err => ?_)
    cases err with
    | some e => exact (fails_onPlatform false).1 _
    | none =>
      refine wp_seq (wp_passed (wp_seq (wp_later ?_)))
      refine (keeps_addressOf rfl rfl).seq (hmachine _) fun testIP => ?_
      refine wp_seq (wp_awaitSsh rfl rfl rfl ?_ ?_ 31)
      · exact hmachine _
      · exact wp_seq (wp_later test_onMachine)

theorem wp_onTransaction (kind : StepKind) :
    (protocol kind).wp (onTransaction h kind t).run (Leaves kind) .nothing [] := by
  unfold onTransaction
  split
  · cases kind with
    | check => exact check_reserve
    | create => exact create_reserve
    | update => exact update_reserve (by decide)
    | build => exact build_reserve (by decide)
    | deploy => exact deploy_reserve (by decide)
    | test => exact test_reserve
  · exact wp_note
  · cases kind with
    | create => exact create_cancel
    | check | update | build | deploy | test => exact wp_note
  · exact fails_nothing.1 _

end Handlers

inductive Resource
  | platform | machine | connection | keyFile
  deriving DecidableEq, Repr

namespace Resource

/-- The call reported that it has the resource. A call that failed has taken nothing, whatever it left. -/
def taken : Resource → Body.Event Effect Effect.Ans → Bool
  | platform, ⟨.openPlatform .., .ok _⟩ => true
  | machine, ⟨.provision _, none⟩ => true
  | connection, ⟨.connect .., none⟩ => true
  | keyFile, ⟨.createTemp, .ok _⟩ => true
  | _, _ => false

def given : Resource → Body.Event Effect Effect.Ans → Bool
  | platform, ⟨.closePlatform, _⟩ => true
  | machine, ⟨.remove _, _⟩ => true
  | connection, ⟨.closeSsh, _⟩ => true
  | keyFile, ⟨.removeTemp _, _⟩ => true
  | _, _ => false

def held : Resource → Held → Nat
  | platform, s => s.platform.toNat
  | machine, s => s.machine.toList.length
  | connection, s => s.ssh.toNat
  | keyFile, s => s.keyFile.toList.length

theorem held_step {r : Resource} {kind : StepKind} (hr : kind = .create → r ≠ machine) (s : Held) (c : Effect)
    (x : c.Ans) (s' : Held) (h : protocol kind s c x = some s') :
    r.held s' + (r.given ⟨c, x⟩).toNat = r.held s + (r.taken ⟨c, x⟩).toNat := by
  obtain ⟨⟨-, hn⟩, rfl⟩ : (_ ∧ needs kind s c) ∧ after s c x = s' := by
    unfold protocol at h
    split at h
    · next hc => exact ⟨hc, Option.some.inj h⟩
    · cases h
  cases c with
  | authKey | readConfig | listRepos | ip | expired | sleep | writeKey | closeTemp | closeKey |
    upload | vaultAuth
  | getSecret | randomPassword | putSecret | publish => cases r <;> rfl
  | openKey | insert => cases x <;> cases r <;> rfl
  | run minutes script => cases script <;> cases x <;> cases r <;> rfl
  | openPlatform | connect | createTemp => cases x <;> cases r <;> simp_all [needs, after, held, given, taken]
  | provision => cases x <;> cases r <;> simp [after, held, given, taken, hn.2]
  | closePlatform => cases r <;> simp [after, held, given, taken, hn.1]
  | closeSsh => cases r <;> simp_all [needs, after, held, given, taken]
  | removeTemp => cases r <;> simp [after, held, given, taken, hn.1]
  | remove =>
    cases r with
    | machine =>
      rcases hn.2.2 with hs | hs
      · simp [after, held, given, taken, hs]
      · exact absurd rfl (hr hs.1)
    | platform | connection | keyFile => rfl

theorem held_of_released {kind : StepKind} {s : Held} (hs : s.Released kind) {r : Resource}
    (hr : kind = .create → r ≠ machine) : r.held s = 0 := by
  cases r with
  | platform => simp [held, hs.platform]
  | machine => simp [held, hs.machine fun hk => hr hk rfl]
  | connection => simp [held, hs.ssh]
  | keyFile => simp [held, hs.keyFile]

end Resource

/-- What the worker reports for a mail: nothing after a panic, which it recovers from. -/
def report (text : StepFail → String) (t : MailTransaction) (r : Option (Except StepFail Unit)) :
    Option Meta :=
  r.bind fun r => handleTranstion t.mt.nodeId t.mt.tag
    (match r with
    | .ok () => none
    | .error e => some (text e)) t.mt

theorem canceled_of_report {text : StepFail → String} {t : MailTransaction}
    {r : Option (Except StepFail Unit)}
    {mt : Meta} (h : report text t r = some mt) : mt.state = .canceled ↔ r ≠ some (.ok ()) := by
  match r with
  | none => cases h
  | some (.error e) =>
    obtain rfl := Option.some.inj h
    simp
  | some (.ok ()) =>
    simp only [report, handleTranstion, Option.bind_some] at h
    split at h <;> cases h <;> simp

/-- Whatever it meets, a step keeps to the protocol and gives back what it has taken, be it that it
succeeds, fails or panics: connections and platforms are closed, the file of a key is removed, and the
removal of a machine is asked for as often as `Provision` returned without an error, except by `create`.
The step succeeds exactly if the store reported that one row was inserted, and what is reported of the
step is a cancel exactly if it did not. -/
theorem steps_release (h : Handler) (kind : StepKind) (t : MailTransaction)
    (w : Body.World Effect Effect.Ans) :
    ∃ s, (protocol kind).follow .nothing ((onTransaction h kind t).run.trace w) = some s ∧
      ((onTransaction h kind t).run.result w = some (.ok ()) ↔ s.inserted = true) ∧
      (∀ text mt, report text t ((onTransaction h kind t).run.result w) = some mt →
        (mt.state = .canceled ↔ s.inserted = false)) ∧
      ∀ r : Resource, (kind = .create → r ≠ .machine) →
        ((onTransaction h kind t).run.trace w).countP r.given =
          ((onTransaction h kind t).run.trace w).countP r.taken := by
  have hwp : (protocol kind).wp (onTransaction h kind t).run.func
      (fun r s _ => s.Released kind ∧ (r = some (.ok ()) ↔ s.inserted = true)) .nothing [] := by
    rw [Monitor.wp_func]
    refine (wp_onTransaction kind).mono fun r s ds hl => ?_
    exact hl.1.mono fun s' hs' => ⟨hs'.1, by rw [hl.2, hs'.2]⟩
  obtain ⟨s, hfollow, hs, hres⟩ := Monitor.wp_sound hwp w
  refine ⟨s, hfollow, hres, fun text mt hmt => ?_, fun r hr => ?_⟩
  · rw [canceled_of_report hmt, ne_eq, hres, Bool.not_eq_true]
  · have hcount := Monitor.follow_count (Resource.held_step hr) hfollow
    rw [Resource.held_of_released hs hr] at hcount
    have hnothing : r.held .nothing = 0 := by cases r <;> rfl
    omega

def failingTests : Body.World Effect Effect.Ans :=
  obliging
    ⟨{("default", ⟨[], .empty, .empty,
      { Core.PhaseConfig.empty with namePrefix := "t", testRepo := "tests" }⟩)}⟩
    fun script => match script with
      | .entrypoint .. => some ("exit status 1", "")
      | _ => none

def testedPlan : PlanObject := ⟨"gcp", "qa", none, some ⟨"deploy", "", "main"⟩, "app", 1⟩

def testedHandler : Handler :=
  ⟨"gcp", ⟨"vault", "token"⟩, fun _ => some testedPlan, id, fun pattern _ => pattern⟩

def testedMail : MailTransaction := ⟨⟨0, 1, 1, 2, "node", "tag", "test", 60, 3, .reserving, ""⟩, some []⟩

theorem steps_release_failing_tests :
    ((onTransaction testedHandler .test testedMail).run.trace failingTests).countP
      Resource.machine.taken = 1 ∧
    ((onTransaction testedHandler .test testedMail).run.trace failingTests).countP
      Resource.machine.given = 1 := by
  obtain ⟨s, -, -, -, hgiven⟩ := steps_release testedHandler .test testedMail failingTests
  have htaken : ((onTransaction testedHandler .test testedMail).run.trace failingTests).countP
      Resource.machine.taken = 1 := by decide +kernel
  exact ⟨htaken, (hgiven .machine (by decide)).trans htaken⟩

end Pipeline

end Tarantula
