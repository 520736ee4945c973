import Tarantula.TaskPersistence

/-! The revision of a task and the bytes stored for it, over the runs of its calls. -/

namespace Tarantula.TaskSetting

variable {t : TaskSetting} {s s' : TaskCalls} {v : Version}

/-- The attempt of the call gets to the primary with the revision that is stored there. -/
def Current (t : TaskSetting) (s : TaskCalls) (link : Link) (call : UpdateCall) : Prop :=
  t.Reached link ∧
    (t.address.row (s.stores t.primary.rpcEndpoint)).map (·.revision) = some call.header.revision

instance (t : TaskSetting) (s : TaskCalls) (link : Link) (call : UpdateCall) :
    Decidable (t.Current s link call) := inferInstanceAs (Decidable (_ ∧ _))

/-- An attempt with the stored revision gets to the primary only while no other call is
between its store and its increment, and the last attempt of a call is such an attempt. -/
def Orderly (t : TaskSetting) (s : TaskCalls) : CallEvent → Prop
  | .attempt c link _ => ∀ call ∈ s.calls[c]?,
      (t.Current s link call → ∀ x ∈ s.calls.toList, x.1 ≠ c → x.2.isStored = false) ∧
        (call.phase = .trying 1 → t.Current s link call)
  | _ => True

instance (t : TaskSetting) (s : TaskCalls) : (e : CallEvent) → Decidable (t.Orderly s e)
  | .attempt .. => inferInstanceAs (Decidable (∀ _ ∈ _, _ ∧ _))
  | .begin .. | .replicate .. | .complete .. => isTrue trivial

/-- The request of a call is about the record of the task, and attempts are left to it. -/
structure CallOk (t : TaskSetting) (call : UpdateCall) : Prop where
  address : call.req.address = t.address
  ids : call.header.SameIds call.req.data.header
  phase : call.phase ≠ .trying 0
  slaves : ∀ rest, call.phase = .replicating rest → rest ⊆ t.slaves

/-- The primary holds `v`, and the revision of the task is the one of `v`, or one less while
a call is between its store and its increment. -/
structure Persisted (t : TaskSetting) (v : Version) (s : TaskCalls) : Prop where
  holds : Holds t.address (s.stores t.primary.rpcEndpoint) (some v)
  updatable : v.updatable = true
  live : v.state ≠ dataStateDeleted
  each : ∀ (c : Nat) (call : UpdateCall), s.calls[c]? = some call → t.CallOk call
  one : ∀ (c c' : Nat) (call call' : UpdateCall), s.calls[c]? = some call →
    s.calls[c']? = some call' → call.isStored = true → call'.isStored = true → c = c'
  idle : (∀ (c : Nat) (call : UpdateCall), s.calls[c]? = some call → call.isStored = false) →
    s.revision = v.revision
  stored : ∀ (c : Nat) (call : UpdateCall), s.calls[c]? = some call → call.isStored = true →
    s.revision + 1 = v.revision ∧ v.value = some call.req.data.value
  completed : ∀ c ∈ s.completed,
    ∃ u, c.held = some u ∧ u.revision = c.revision ∧ u.value = some c.bytes

namespace Persisted

theorem initial {stores : String → Db} (hv : Holds t.address (stores t.primary.rpcEndpoint) (some v))
    (hu : v.updatable = true) (hl : v.state ≠ dataStateDeleted) :
    Persisted t v ⟨stores, v.revision, ∅, []⟩ :=
  ⟨hv, hu, hl, by simp, by simp, fun _ => rfl, by simp, by simp⟩

theorem goOn (h : Persisted t v s) {stores : String → Db} {c : Nat} {call : UpdateCall}
    (hs : stores t.primary.rpcEndpoint = s.stores t.primary.rpcEndpoint) (hc : t.CallOk call)
    (hold : call.isStored = true →
      ∃ old, s.calls[c]? = some old ∧ old.isStored = true ∧ old.req = call.req)
    (hnew : call.isStored = false → ∀ old, s.calls[c]? = some old → old.isStored = false) :
    Persisted t v { s with stores := stores, calls := s.calls.insert c call } := by
  -- a call that has stored was there before, with the same request
  have hback : ∀ (c' : Nat) (call' : UpdateCall), (s.calls.insert c call)[c']? = some call' →
      call'.isStored = true →
      ∃ old, s.calls[c']? = some old ∧ old.isStored = true ∧ old.req = call'.req := by
    intro c' call' hc' hst
    rw [ExtMap.getElem?_insert] at hc'
    split at hc'
    · next he =>
      cases hc'
      exact he ▸ hold hst
    · exact ⟨call', hc', hst, rfl⟩
  have hholds := h.holds
  rw [← hs] at hholds
  refine ⟨hholds, h.updatable, h.live, fun c' call' hc' => ?_,
    fun c₁ c₂ call₁ call₂ h₁ h₂ hs₁ hs₂ => ?_, fun hidle => h.idle fun c' call' hc' => ?_,
    fun c' call' hc' hst => ?_, h.completed⟩
  · rw [ExtMap.getElem?_insert] at hc'
    split at hc'
    · cases hc'
      exact hc
    · exact h.each c' call' hc'
  · obtain ⟨old₁, h₁, hs₁, -⟩ := hback c₁ call₁ h₁ hs₁
    obtain ⟨old₂, h₂, hs₂, -⟩ := hback c₂ call₂ h₂ hs₂
    exact h.one c₁ c₂ old₁ old₂ h₁ h₂ hs₁ hs₂
  · by_cases he : c = c'
    · subst he
      exact hnew (hidle c call (by rw [ExtMap.getElem?_insert, if_pos rfl])) call' hc'
    · exact hidle c' call' (by rw [ExtMap.getElem?_insert, if_neg he]; exact hc')
  · obtain ⟨old, hold, hst, hreq⟩ := hback c' call' hc' hst
    rw [← hreq]
    exact h.stored c' old hold hst

/-- The primary takes what a call carries, while no other call is between its store and its
increment. -/
theorem store (h : Persisted t v s) {stores : String → Db} {c : Nat} {call : UpdateCall}
    (hidle : ∀ (c : Nat) (call : UpdateCall), s.calls[c]? = some call → call.isStored = false)
    (hs : Holds t.address (stores t.primary.rpcEndpoint)
      (some (v.updated call.req.data.value v.revision)))
    (hc : t.CallOk call) (hst : call.isStored = true) :
    Persisted t (v.updated call.req.data.value v.revision)
      { s with stores := stores, calls := s.calls.insert c call } := by
  have hupd : v.updated call.req.data.value v.revision =
      ⟨v.revision + 1, v.state, v.updatable, some call.req.data.value⟩ := by
    rw [Version.updated, if_pos ⟨h.updatable, rfl⟩, shown, if_neg h.live]
  have honly : ∀ (c' : Nat) (call' : UpdateCall), (s.calls.insert c call)[c']? = some call' →
      call'.isStored = true → c = c' ∧ call' = call := by
    intro c' call' hc' hst'
    rw [ExtMap.getElem?_insert] at hc'
    split at hc'
    · next he => exact ⟨he, (Option.some.inj hc').symm⟩
    · rw [hidle c' call' hc'] at hst'
      cases hst'
  refine ⟨hs, by rw [hupd]; exact h.updatable, by rw [hupd]; exact h.live, fun c' call' hc' => ?_,
    fun c₁ c₂ call₁ call₂ h₁ h₂ hs₁ hs₂ => ?_, fun hx => ?_, fun c' call' hc' hst' => ?_, h.completed⟩
  · rw [ExtMap.getElem?_insert] at hc'
    split at hc'
    · cases hc'
      exact hc
    · exact h.each c' call' hc'
  · exact (honly c₁ call₁ h₁ hs₁).1.symm.trans (honly c₂ call₂ h₂ hs₂).1
  · have hx := hx c call (by rw [ExtMap.getElem?_insert, if_pos rfl])
    rw [hst] at hx
    cases hx
  · obtain ⟨-, rfl⟩ := honly c' call' hc' hst'
    rw [hupd]
    exact ⟨by rw [show s.revision = v.revision from h.idle hidle], rfl⟩

theorem complete (h : Persisted t v s) {c : Nat} {call : UpdateCall} (hc : s.calls[c]? = some call)
    (hst : call.isStored = true) :
    Persisted t v { s with
      revision := s.revision + 1
      calls := s.calls.erase c
      completed := ⟨s.revision + 1, call.req.data.value,
        t.address.held (s.stores t.primary.rpcEndpoint)⟩ :: s.completed } := by
  obtain ⟨hrev, hval⟩ := h.stored c call hc hst
  have hnone : ∀ (c' : Nat) (call' : UpdateCall), (s.calls.erase c)[c']? = some call' →
      s.calls[c']? = some call' ∧ call'.isStored = false := by
    intro c' call' hc'
    rw [ExtMap.getElem?_erase] at hc'
    split at hc'
    · cases hc'
    · next he =>
      refine ⟨hc', ?_⟩
      rw [Bool.eq_false_iff]
      exact fun hst' => he (h.one c c' call call' hc hc' hst hst')
  refine ⟨h.holds, h.updatable, h.live, fun c' call' hc' => h.each c' call' (hnone c' call' hc').1,
    fun c₁ c₂ call₁ call₂ h₁ h₂ hs₁ hs₂ => ?_, fun _ => hrev, fun c' call' hc' hst' => ?_,
    fun x hx => ?_⟩
  · rw [(hnone c₁ call₁ h₁).2] at hs₁
    cases hs₁
  · rw [(hnone c' call' hc').2] at hst'
    cases hst'
  · rcases List.mem_cons.mp hx with rfl | hx
    · refine ⟨v, ?_, hrev.symm, hval⟩
      dsimp only
      rw [h.holds.held t.address_fits]
    · exact h.completed x hx

theorem current_iff (h : Persisted t v s) {link : Link} {call : UpdateCall} :
    t.Current s link call ↔ t.Reached link ∧ call.header.revision = v.revision := by
  obtain ⟨d, hd, hrev, -⟩ := h.holds.row t.address_fits
  rw [Current, hd, Option.map_some, hrev, Option.some.injEq, eq_comm (a := v.revision)]

theorem attempt (h : Persisted t v s) {c n : Nat} {link : Link} {now : UInt64} {req : Request}
    {header : Header} (hc : s.calls[c]? = some ⟨req, header, .trying (n + 1)⟩)
    (ho : t.Orderly s (.attempt c link now)) {w : World} {resp : Response} {e : Option Fail}
    (hw : t.client link now ⟨req, header, .trying (n + 1)⟩ t.primary s.stores = (w, ⟨some resp, e⟩)) :
    ∃ v', Persisted t v' { s with
      stores := w.stores
      calls := s.calls.insert c
        ⟨req, w.header, if resp.successful then .replicating t.slaves else .trying n⟩ } := by
  have hok := h.each c _ hc
  have hids : w.header.SameIds req.data.header := by
    have hi : (t.client link now ⟨req, header, .trying (n + 1)⟩ t.primary s.stores).1.header.SameIds
        req.data.header := client_header hok.ids t.primary
    rwa [hw] at hi
  have hcase := client_primary hok.ids hok.address h.holds h.updatable hw
  obtain ⟨halone, hlast⟩ := ho _ hc
  by_cases hcur : t.Reached link ∧ header.revision = v.revision
  · rw [if_pos hcur] at hcase
    rw [hcase.1, if_pos rfl]
    refine ⟨_, h.store (fun c' call' hc' => ?_) hcase.2 ⟨hok.address, hids, by simp, by simp⟩ rfl⟩
    by_cases he : c' = c
    · subst he
      rw [hc] at hc'
      cases hc'
      rfl
    · exact halone (h.current_iff.mpr hcur) (c', call')
        (Std.ExtTreeMap.mem_toList_iff_getElem?_eq_some.mpr hc') he
  · rw [if_neg hcur] at hcase
    rw [hcase.1, if_neg (by simp)]
    refine ⟨v, h.goOn (by rw [hcase.2]) ⟨hok.address, hids, fun hn => hcur ?_, by simp⟩
      (by simp [UpdateCall.isStored]) fun _ old hold => ?_⟩
    · cases hn
      exact h.current_iff.mp (hlast rfl)
    · rw [hc] at hold
      cases hold
      rfl

theorem step (h : Persisted t v s) {e : CallEvent} (ho : t.Orderly s e) (he : t.step s e = some s') :
    ∃ v', Persisted t v' s' := by
  cases e with
  | begin c bytes =>
    simp only [TaskSetting.step] at he
    split at he
    · cases he
    · next hc =>
      split at he
      · cases he
        exact ⟨v, h⟩
      · cases he
        exact ⟨v, h.goOn rfl ⟨rfl, ⟨rfl, rfl⟩, by simp [retryMax], by simp⟩ (by simp [UpdateCall.isStored])
          (by simp [hc])⟩
  | attempt c link now =>
    simp only [TaskSetting.step] at he
    split at he
    · next req header n hc =>
      split at he
      · cases he
      · next w resp e hw =>
        cases he
        exact h.attempt hc ho hw
    · cases he
  | replicate c link now =>
    simp only [TaskSetting.step] at he
    split at he
    · next req header n slaves hc =>
      cases he
      have hok := h.each c _ hc
      have hsub : n :: slaves ⊆ t.slaves := hok.slaves _ rfl
      refine ⟨v, h.goOn (client_stores (t.apart n (hsub (List.mem_cons_self ..))))
        ⟨hok.address, client_header hok.ids n, by simp, ?_⟩ (fun _ => ⟨_, hc, rfl, rfl⟩) (by
          simp [UpdateCall.isStored])⟩
      rintro _ ⟨⟩
      exact fun m hm => hsub (List.mem_cons_of_mem _ hm)
    · cases he
  | complete c =>
    simp only [TaskSetting.step] at he
    split at he
    · next call hc =>
      split at he
      · next hp =>
        cases he
        rcases hp with hp | hp
        · exact absurd hp (h.each c call hc).phase
        · exact ⟨v, h.complete hc (by rw [UpdateCall.isStored, hp])⟩
      · cases he
    · cases he

end Persisted

/-- In every run whose attempts are orderly, each call that completes leaves the revision
of the task at the one the primary holds, with the bytes the call has serialized. -/
theorem completed_persisted {stores : String → Db}
    (hv : Holds t.address (stores t.primary.rpcEndpoint) (some v)) (hu : v.updatable = true)
    (hl : v.state ≠ dataStateDeleted)
    (hr : Reaches t.step t.Orderly ⟨stores, v.revision, ∅, []⟩ s) :
    ∀ c ∈ s.completed, ∃ u, c.held = some u ∧ u.revision = c.revision ∧ u.value = some c.bytes := by
  have hinv : ∃ v, Persisted t v s := by
    refine hr.invariant (I := fun s => ∃ v, Persisted t v s) ⟨v, .initial hv hu hl⟩ ?_
    rintro s e s' ⟨v, h⟩ ho he
    exact h.step ho he
  obtain ⟨v, h⟩ := hinv
  exact h.completed

def sample (self : String) : TaskSetting where
  self := self
  hash32 := Murmur3.sum32
  taskId := 9
  primary := Node.ofEndpoint "a"
  slaves := [Node.ofEndpoint "b"]
  apart := by decide

def sampleData (self : String) : SetData :=
  ⟨(sample self).address.ringPrefix, ((sample self).request [0] 0).data⟩

def sampleStores (self : String) : String → Db := fun _ =>
  (LocalData.create ∅ 900 (sampleData self)).db

def sampleStart (self : String) : TaskCalls := ⟨sampleStores self, 1, ∅, []⟩

theorem sampleStores_holds (self : String) : Holds (sample self).address (sampleStores self "a")
    (some ⟨1, 0, true, some [0]⟩) := by
  have hf : (sampleData self).address.Fits := (sample self).address_fits
  have hn : Holds (sampleData self).address ∅ none := by simp [Holds]
  exact LocalData.create_holds 900 hf hn

/-- Two calls in turn; the second one finds the primary at its second attempt. -/
theorem completed_persisted_sample : ∃ s,
    Reaches (sample "c").step (sample "c").Orderly (sampleStart "c") s ∧
      s.completed.map (fun c => (c.revision, c.bytes)) = [(3, [2]), (2, [1])] ∧
      ∀ c ∈ s.completed, ∃ u, c.held = some u ∧ u.revision = c.revision ∧ u.value = some c.bytes := by
  obtain ⟨s, hr, hs⟩ := exists_reaches_of_checkedRun (sample "c").step (sample "c").Orderly
    (fun s => s.completed.map (fun c => (c.revision, c.bytes)) = [(3, [2]), (2, [1])]) (sampleStart "c")
    [.begin 0 [1], .attempt 0 .up 1000, .replicate 0 .up 1001, .complete 0,
      .begin 1 [2], .attempt 1 .noConn 1002, .attempt 1 .up 1003, .replicate 1 .noConn 1004, .complete 1]
    (by decide +kernel)
  exact ⟨s, hr, hs, completed_persisted (sampleStores_holds "c") rfl (by decide) hr⟩

/-- The primary cannot be reached: the call completes, its callback runs, and no store has
changed. Two calls overlap on the primary: when the first one completes, the revision of
the task is 2 and the primary holds revision 3. -/
theorem completed_not_persisted :
    (∃ s, Reaches (sample "c").step (fun _ _ => True) (sampleStart "c") s ∧
      s.completed = [⟨2, [1], some ⟨1, 0, true, some [0]⟩⟩]) ∧
    ∃ s, Reaches (sample "a").step (fun _ _ => True) (sampleStart "a") s ∧
      s.completed = [⟨2, [1], some ⟨3, 0, true, some [2]⟩⟩] :=
  ⟨exists_reaches_of_checkedRun _ _ (fun s => s.completed = [⟨2, [1], some ⟨1, 0, true, some [0]⟩⟩])
      (sampleStart "c")
      [.begin 0 [1], .attempt 0 .noConn 1000, .attempt 0 .noConn 1001, .attempt 0 .noConn 1002,
        .complete 0] (by decide +kernel),
    exists_reaches_of_checkedRun _ _ (fun s => s.completed = [⟨2, [1], some ⟨3, 0, true, some [2]⟩⟩])
      (sampleStart "a")
      [.begin 0 [1], .begin 1 [2], .attempt 0 .up 1000, .attempt 1 .up 1001, .attempt 1 .up 1002,
        .replicate 0 .up 1003, .complete 0] (by decide +kernel)⟩

end Tarantula.TaskSetting
