import Mathlib.Data.List.Perm.Basic
import Tarantula.Lists
import Tarantula.SubscriptionLog

/-! The order in which a postoffice serves the requests about a subscription. Registrations carry
no version, so the last request wins: a snapshot that was taken before an unsubscription and comes
after it brings the subscription back, and the removal for a stream that ended takes away what the
worker registered again before it. -/

namespace Tarantula

namespace Subscription

/-- The subscription as the registries have it after `Subscribe` at the postoffice. -/
def registeredAt (sub : Subscription) (office : String) : Subscription :=
  { sub with endpoint := office, deleting := false }.routed

variable (sub : Subscription) (office : String)

theorem same_registeredAt (b : Bool) :
    ({ sub with endpoint := office, deleting := b } : Subscription).routed.Same
    (sub.registeredAt office) := by
  unfold registeredAt routed
  dsimp only
  split <;> exact ⟨rfl, rfl, rfl, rfl⟩

end Subscription

namespace Postal

variable {ok : Postal → PostalEvent → Prop} {c₀ c₁ c : Postal}

/-- Nothing gets lost, and a registration of the subscription is served only while a request that
takes it away is still on its way to the same postoffice. -/
def InOrder (c : Postal) (sub : Subscription) : PostalEvent → Prop
  | .deliver i _ => ∀ m ∈ c.flight[i]?, m.2.Registers sub →
      ∃ m' ∈ c.flight, m'.1 = m.1 ∧ m'.2.Clears sub
  | .drop _ => False
  | _ => True

instance (sub : Subscription) (c : Postal) (ev : PostalEvent) : Decidable (c.InOrder sub ev) := by
  cases ev <;> unfold InOrder <;> infer_instance

/-- The postoffice forgot the subscription, or will. -/
def Forgets (sub : Subscription) (e : String) (c : Postal) : Prop :=
  (∃ r, (e, r) ∈ c.flight ∧ r.Clears sub) ∨ ¬ OfficeRequest.RegisteredLast sub (c.servedAt e)

theorem not_registers_of_clears {sub : Subscription} {req : OfficeRequest} (h : req.Clears sub) :
    ¬ req.Registers sub := by
  cases req with
  | register b =>
    intro hr
    have hdel := h.1
    rw [hr.1] at hdel
    cases hdel
  | _ => exact id

theorem Forgets.step {sub : Subscription} {e : String} {c c' : Postal} {ev : PostalEvent}
    (h : Forgets sub e c) (hok : c.InOrder sub ev) (hstep : c.step ev = some c') : Forgets sub e c' := by
  cases stepped hstep with
  | served i members e' req d out hi hserve hoff hflight hsent hserved =>
    unfold Forgets
    rw [servedAt_cons hserved, hflight]
    -- a request that is still on its way stays so unless it is the one that is served now
    by_cases hr : ∃ r, (e, r) ∈ c.flight.eraseIdx i ∧ r.Clears sub
    · obtain ⟨r, hr, hc⟩ := hr
      exact .inl ⟨r, List.mem_append_left _ hr, hc⟩
    · right
      by_cases he : e' = e
      · subst he
        rw [if_pos rfl]
        by_cases hc : req.Clears sub
        · rintro (hreg | ⟨hn, -⟩)
          · exact not_registers_of_clears hc hreg
          · exact hn hc
        · have hnone : ∀ r, (e', r) ∈ c.flight → ¬ r.Clears sub := by
            intro r hr' hcr
            rcases (mem_cons_eraseIdx hi).mp hr' with heq | hmem
            · cases heq
              exact hc hcr
            · exact hr ⟨r, hmem, hcr⟩
          rintro (hreg | ⟨-, hlast⟩)
          · obtain ⟨⟨e'', r⟩, hr', rfl, hcr⟩ := hok (e', req) hi hreg
            exact hnone r hr' hcr
          · rcases h with ⟨r, hr', hcr⟩ | hn
            · exact hnone r hr' hcr
            · exact hn hlast
      · rw [if_neg he]
        rcases h with ⟨r, hr', hcr⟩ | hn
        · rcases (mem_cons_eraseIdx hi).mp hr' with heq | hmem
          · cases heq
            exact absurd rfl he
          · exact absurd ⟨r, hmem, hcr⟩ hr
        · exact hn
  | dropped => exact hok.elim
  | kept msgs _ hflight _ hserved _ =>
    unfold Forgets servedAt
    rw [hflight, hserved]
    exact h.imp_left fun ⟨r, hr, hc⟩ => ⟨r, List.mem_append_left _ hr, hc⟩

/-- Where the registrations of a subscription come before its deletion, no postoffice has it when
all has been delivered. -/
theorem unsubscribed_gone {p : String} {sub : Subscription} {members : List String}
    (h₀ : Reaches step ok start c₀) (h₁ : c₀.step (.unsubscribe p sub members) = some c₁)
    (h : Reaches step (·.InOrder (sub.registeredAt p) ·) c₁ c) (hend : c.flight = []) :
    ∀ e ∈ members, ¬ (c.offices e).subscriptions.Holds (sub.registeredAt p) := by
  intro e he hh
  have hforgets : Forgets (sub.registeredAt p) e c := by
    apply h.invariant
    · cases h₁
      refine .inl ⟨.register { sub with endpoint := p, deleting := true }, ?_, ?_⟩
      · exact List.mem_append_right _ (List.mem_map.mpr ⟨e, he, rfl⟩)
      · exact ⟨Subscription.routed_deleting _, sub.same_registeredAt p true⟩
    · exact fun s ev t hf hok hstep => hf.step hok hstep
  have hrun : Reaches step (fun _ _ => True) start c :=
    ((h₀.weaken fun _ _ _ => trivial).tail ⟨_, trivial, h₁⟩).trans (h.weaken fun _ _ _ => trivial)
  rcases hforgets with ⟨r, hr, -⟩ | hn
  · rw [hend] at hr
    cases hr
  · exact hn (registeredLast_of_holds hrun hh)

def Delivers (_ : Postal) : PostalEvent → Prop
  | .deliver _ _ => True
  | _ => False

instance (c : Postal) (ev : PostalEvent) : Decidable (c.Delivers ev) := by
  cases ev <;> unfold Delivers <;> infer_instance

def snapshotTaken : List PostalEvent :=
  [.nodeAdded "p", .deliver 0 [], .subscribe "p" ⟨0, "w", "t", "T", "", false⟩ ["p", "q"],
    .deliver 0 [], .deliver 0 [], .nodeAdded "p", .deliver 0 ["p", "q"]]

theorem unsubscribed_gone_snapshot_first : ∃ c : Postal,
    .register ⟨0, "w", "t", "T", "p", false⟩ ∈ c.servedAt "q" ∧
    ∀ e ∈ ["p", "q"], ¬ (c.offices e).subscriptions.Holds ⟨0, "w", "t", "T", "p", false⟩ := by
  obtain ⟨c₀, c₁, c, h₀, h₁, h, hend, hserved⟩ := exists_reaches_of_checkedRuns step (fun _ _ => True)
    (·.InOrder ⟨0, "w", "t", "T", "p", false⟩ ·)
    (fun _ c => c.flight = [] ∧ .register ⟨0, "w", "t", "T", "p", false⟩ ∈ c.servedAt "q") start
    snapshotTaken (.unsubscribe "p" ⟨0, "w", "t", "T", "", false⟩ ["p", "q"])
    [.deliver 0 [], .deliver 0 [], .deliver 0 []] (by decide +kernel)
  exact ⟨c, hserved, unsubscribed_gone h₀ h₁ h hend⟩

/-- The snapshot comes after the deletion. -/
theorem unsubscribed_resurrected : ∃ c₀ c₁ c, Reaches step (fun _ _ => True) start c₀ ∧
    c₀.step (.unsubscribe "p" ⟨0, "w", "t", "T", "", false⟩ ["p", "q"]) = some c₁ ∧
    Reaches step Delivers c₁ c ∧ c.flight = [] ∧
    (∀ e ∈ ["p", "q"], .register ⟨0, "w", "t", "T", "p", true⟩ ∈ c.servedAt e) ∧
    (c.offices "q").subscriptions.Holds ⟨0, "w", "t", "T", "p", false⟩ :=
  exists_reaches_of_checkedRuns step (fun _ _ => True) Delivers
    (fun _ c => c.flight = [] ∧
      (∀ e ∈ ["p", "q"], .register ⟨0, "w", "t", "T", "p", true⟩ ∈ c.servedAt e) ∧
      (c.offices "q").subscriptions.Holds ⟨0, "w", "t", "T", "p", false⟩) start
    snapshotTaken (.unsubscribe "p" ⟨0, "w", "t", "T", "", false⟩ ["p", "q"])
    [.deliver 1 [], .deliver 1 [], .deliver 0 []] (by decide +kernel)

end Postal

end Tarantula
