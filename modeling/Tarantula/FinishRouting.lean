import Tarantula.Postal

/-! The way of an AskFinish. The coordinator finds the postoffice by the NodeId that it recorded
when it sent the AskReserve; the goroutine there gives the mail to the first worker of its own pool
that subscribes to the transaction, and each mail moves the pool on. -/

namespace Tarantula

namespace Dispatcher

def next (d : Dispatcher) (tn : String) : Option String :=
  d.listenerPool.find? fun n => tn ∈ d.subsOf n

def HasRoom (d : Dispatcher) (name : String) : Prop :=
  d.listeners[name]?.any (fun ch => !ch.rev.closed && ch.rev.buf.length < ch.rev.cap) = true

instance (d : Dispatcher) (name : String) : Decidable (d.HasRoom name) :=
  inferInstanceAs (Decidable (_ = _))

variable {d : Dispatcher} {tn : String}

open MailRoom (transLoop transLoop_found subsOf_of_getElem?)

theorem transLoop_cons {nk : String} {rest moved : List String} {lk : String} (hnk : nk ∈ d.listeners)
    (hne : lk ≠ nk) :
    (transLoop d.listeners tn (nk :: rest) moved lk).2.map (·.1) =
      if tn ∈ d.subsOf nk then some nk
      else (transLoop d.listeners tn rest (moved ++ [nk]) (if lk = "" then nk else lk)).2.map (·.1) := by
  obtain ⟨nc, hnc⟩ := ExtMap.getElem?_of_mem hnk
  rw [transLoop, if_neg hne, subsOf_of_getElem? hnc]
  simp only [hnc]
  split <;> rfl

theorem transLoop_find {rest moved : List String} {lk : String} (hnd : rest.Nodup)
    (h : ∀ n ∈ rest, n ∈ d.listeners) (hlk : lk ∉ rest) :
    (transLoop d.listeners tn rest moved lk).2.map (·.1) = rest.find? fun n => tn ∈ d.subsOf n := by
  induction rest generalizing moved lk with
  | nil => rfl
  | cons nk rest ih =>
    obtain ⟨hnk, hnd⟩ := List.nodup_cons.mp hnd
    rw [List.mem_cons, not_or] at hlk
    obtain ⟨hne, hlk⟩ := hlk
    rw [transLoop_cons (h nk List.mem_cons_self) hne, List.find?_cons]
    by_cases hs : tn ∈ d.subsOf nk
    · simp [hs]
    · simp only [hs, if_false, decide_false]
      apply ih hnd fun n hn => h n (List.mem_cons_of_mem _ hn)
      split
      · exact hnk
      · exact hlk

theorem transLoop_next (d : Dispatcher) (tn : String) :
    (transLoop d.listeners tn d.listenerPool [] "").2.map (·.1) =
      if d.listenerPool.head? = some "" then none else d.next tn := by
  have hnd := d.pooled.nodup
  have hmem := fun n hn => (d.pooled.mem n).mp hn
  unfold next
  cases hp : d.listenerPool with
  | nil => rfl
  | cons nk rest =>
    rw [hp] at hnd hmem
    by_cases hnk : nk = ""
    · subst hnk
      simp [transLoop]
    · -- the first turn sets `lk` to `nk`, which is not in the rest of the pool
      obtain ⟨hnot, hnd⟩ := List.nodup_cons.mp hnd
      rw [transLoop_cons (hmem nk List.mem_cons_self) (Ne.symm hnk), List.find?_cons]
      simp only [List.head?_cons, Option.some.injEq, hnk, if_false]
      by_cases hs : tn ∈ d.subsOf nk
      · simp [hs]
      · simp only [hs, if_false, if_true, decide_false]
        exact transLoop_find hnd (fun n hn => hmem n (List.mem_cons_of_mem _ hn)) hnot

theorem transMail_posted_iff {mt : Meta} {w : String} :
    (d.transMail mt).2 = [.posted w (.trans mt)] ↔ d.listenerPool.head? ≠ some "" ∧
      d.next (transSubPrefix ++ mt.name) = some w ∧ d.HasRoom w := by
  have hnext := d.transLoop_next (transSubPrefix ++ mt.name)
  unfold transMail
  dsimp only
  split
  · next hnone =>
    rw [hnone] at hnext
    constructor
    · intro h
      cases h
    · rintro ⟨hhead, hw, -⟩
      rw [if_neg hhead, hw] at hnext
      cases hnext
  · next nk nc hsome =>
    have hnc := (transLoop_found hsome).1
    rw [hsome] at hnext
    have hhead : d.listenerPool.head? ≠ some "" := by
      intro hh
      rw [if_pos hh] at hnext
      cases hnext
    rw [if_neg hhead] at hnext
    have hroom : d.HasRoom nk ↔ (!nc.rev.closed && nc.rev.buf.length < nc.rev.cap) = true := by
      rw [HasRoom, hnc]
      rfl
    rw [← hnext, ReceiverAsync.posts_eq]
    constructor
    · intro h
      split at h
      · next hr =>
        cases h
        exact ⟨hhead, rfl, hroom.mpr hr⟩
      · cases h
    · rintro ⟨-, hw, hr⟩
      cases hw
      rw [if_pos (hroom.mp hr)]

theorem transMail_out (d : Dispatcher) (mt : Meta) :
    (d.transMail mt).2 = [] ∨ ∃ nk, (d.transMail mt).2 = [.posted nk (.trans mt)] := by
  unfold transMail
  dsimp only
  split
  · exact .inl rfl
  · next nk nc _ =>
    rw [ReceiverAsync.posts_eq]
    split
    · exact .inr ⟨nk, rfl⟩
    · exact .inl rfl

theorem taskAssign_byNodeId (range : RangeOrder) {nodeId name e : String} (tag : String) (hn : nodeId ≠ "")
    (hex : ∃ sub ∈ d.subscriptions.subs, sub.topic = transSubPrefix ++ name ∧ sub.nodeId = nodeId)
    (hall : ∀ sub ∈ d.subscriptions.subs, sub.topic = transSubPrefix ++ name → sub.nodeId = nodeId →
      sub.endpoint = e) :
    d.taskAssign range nodeId tag name =
      (d, some ⟨0, nodeId, "", transSubPrefix ++ name, e, false⟩) := by
  have hpick : d.subscriptions.pickByNodeId range (transSubPrefix ++ name) nodeId =
      some ⟨0, nodeId, "", transSubPrefix ++ name, e, false⟩ := by
    unfold SubscriptionRegistry.pickByNodeId
    have hp := range.perm d.subscriptions.subs
    cases hf : (range.order d.subscriptions.subs).find?
        fun sub => sub.topic = transSubPrefix ++ name ∧ sub.nodeId = nodeId with
    | none =>
      obtain ⟨sub, hsub, hs⟩ := hex
      have hnone := List.find?_eq_none.mp hf sub (hp.mem_iff.mpr hsub)
      simp [hs] at hnone
    | some sub =>
      have hs := List.find?_some hf
      have hmem := hp.mem_iff.mp (List.mem_of_find?_eq_some hf)
      simp only [decide_eq_true_eq] at hs
      rw [Option.map_some, hall sub hmem hs.1 hs.2]
  unfold taskAssign
  dsimp only
  rw [if_pos hn, hpick]

end Dispatcher

namespace Postal

variable {c c₁ : Postal} {k e w : String} {mt : Meta} {range : RangeOrder}

/-- Where the coordinator knows the recorded NodeId at one postoffice only, the AskFinish goes
there, and it comes to the worker if and only if that is the next one of the pool when the mail is
served, with room in its channel. -/
theorem finish_reaches_worker (hn : mt.nodeId ≠ "")
    (hex : ∃ sub ∈ (c.offices k).subscriptions.subs,
      sub.topic = transSubPrefix ++ mt.name ∧ sub.nodeId = mt.nodeId)
    (hall : ∀ sub ∈ (c.offices k).subscriptions.subs,
      sub.topic = transSubPrefix ++ mt.name → sub.nodeId = mt.nodeId → sub.endpoint = e)
    (h₁ : c.step (.askFinish k mt range) = some c₁) :
    c₁.flight = c.flight ++ [(e, .mail (.trans mt))] ∧
      ∀ (c₂ c₃ : Postal) (i : Nat) (members : List String), c₂.flight[i]? = some (e, .mail (.trans mt)) →
        c₂.step (.deliver i members) = some c₃ →
        (c₃.posted = c₂.posted ++ [(e, w, .trans mt)] ↔
          (c₂.offices e).listenerPool.head? ≠ some "" ∧
            (c₂.offices e).next (transSubPrefix ++ mt.name) = some w ∧ (c₂.offices e).HasRoom w) := by
  constructor
  · unfold step at h₁
    dsimp only at h₁
    rw [Dispatcher.taskAssign_byNodeId range mt.tag hn hex hall] at h₁
    cases h₁
    rfl
  · intro c₂ c₃ i members hi h₂
    rw [← Dispatcher.transMail_posted_iff]
    obtain ⟨e', req, d, out, hi', hd, rfl⟩ := deliver_cases h₂
    cases hi.symm.trans hi'
    have hout := Dispatcher.out_of_serve hd
    dsimp only
    rw [List.append_cancel_left_eq, ← hout]
    rcases (c₂.offices e).transMail_out mt with hnil | ⟨nk, hone⟩
    · rw [hnil]
      simp
    · rw [hone]
      simp [Outgoing.mailed]

def sortedOrder : RangeOrder := ⟨id, fun _ => .refl _⟩

def sampleFinish : Meta := { (default : Meta) with nodeId := "w", name := "X" }

/-- The worker is the only one of its postoffice. -/
theorem finish_reaches_only_worker : ∃ c c₁ c₃, Reaches step (fun _ _ => True) start c ∧
    c.step (.askFinish "p" sampleFinish sortedOrder) = some c₁ ∧
    c₁.flight = [("p", .mail (.trans sampleFinish))] ∧ c₁.step (.deliver 0 []) = some c₃ ∧
    c₃.posted = [("p", "w", .trans sampleFinish)] := by
  obtain ⟨c, hreach, ⟨hex, hall, hidle⟩, hrun⟩ := exists_reaches_of_checkedRun step (fun _ _ => True)
    (fun c => ((∃ sub ∈ (c.offices "p").subscriptions.subs,
        sub.topic = transSubPrefix ++ "X" ∧ sub.nodeId = "w") ∧
      (∀ sub ∈ (c.offices "p").subscriptions.subs,
        sub.topic = transSubPrefix ++ "X" → sub.nodeId = "w" → sub.endpoint = "p") ∧
      c.flight = []) ∧
      (c.step (.askFinish "p" sampleFinish sortedOrder)).any (fun c₁ => decide (c₁.posted = [] ∧
        (c₁.step (.deliver 0 [])).isSome = true ∧ (c₁.offices "p").listenerPool.head? ≠ some "" ∧
        (c₁.offices "p").next (transSubPrefix ++ "X") = some "w" ∧
        (c₁.offices "p").HasRoom "w")) = true) start
    [.receive "p" "w", .deliver 0 [], .subscribe "p" ⟨1, "w", "t", "X", "", false⟩ ["p"], .deliver 0 []]
    (by decide +kernel)
  obtain ⟨c₁, h₁, hc⟩ := (Option.any_eq_true _ _).mp hrun
  obtain ⟨hposted, hsome, hnext⟩ := of_decide_eq_true hc
  obtain ⟨c₃, h₃⟩ := Option.isSome_iff_exists.mp hsome
  obtain ⟨hflight, hiff⟩ := finish_reaches_worker (w := "w") (by decide) hex hall h₁
  rw [hidle, List.nil_append] at hflight
  refine ⟨c, c₁, c₃, hreach, h₁, hflight, h₃, ?_⟩
  have hp := (hiff c₁ c₃ 0 [] (by rw [hflight]; rfl) h₃).mpr hnext
  rwa [hposted] at hp

/-- Two workers at one postoffice: the AskReserve goes to the first, whose NodeId is recorded, and
the AskFinish to the second. -/
theorem finish_reaches_other_worker : ∃ c, Reaches step (fun _ _ => True) start c ∧
    c.streams = [⟨"p", "w₁", 1⟩, ⟨"p", "w₂", 2⟩] ∧ "_t_X" ∈ (c.offices "p").subsOf "w₁" ∧
    c.reserved = [{ (default : Meta) with nodeId := "w₁", name := "X" }] ∧
    c.posted = [("p", "w₁", .trans { (default : Meta) with name := "X", state := .reserving }),
      ("p", "w₂", .trans { (default : Meta) with nodeId := "w₁", name := "X", state := .confirmed })] :=
  exists_reaches_of_checkedRun step (fun _ _ => True)
    (fun c => c.streams = [⟨"p", "w₁", 1⟩, ⟨"p", "w₂", 2⟩] ∧ "_t_X" ∈ (c.offices "p").subsOf "w₁" ∧
      c.reserved = [{ (default : Meta) with nodeId := "w₁", name := "X" }] ∧
      c.posted = [("p", "w₁", .trans { (default : Meta) with name := "X", state := .reserving }),
        ("p", "w₂", .trans { (default : Meta) with nodeId := "w₁", name := "X", state := .confirmed })])
    start
    [.receive "p" "w₁", .deliver 0 [], .receive "p" "w₂", .deliver 0 [],
      .subscribe "p" ⟨1, "w₁", "t", "X", "", false⟩ ["p"], .deliver 0 [],
      .subscribe "p" ⟨1, "w₂", "t", "X", "", false⟩ ["p"], .deliver 0 [],
      .askReserve "p" { (default : Meta) with name := "X" } sortedOrder, .deliver 0 [],
      .askFinish "p" { (default : Meta) with nodeId := "w₁", name := "X", state := .confirmed } sortedOrder,
      .deliver 0 []] (by decide +kernel)

end Postal

end Tarantula
