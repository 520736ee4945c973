import Tarantula.ReadYourWrites

/-! Concurrent updates of a record on one node. The store runs them as transactions in some
serial order, and `update` is a compare-and-swap on the revision of the record. -/

namespace Tarantula

/-- A call of `update` in its turn, with its own request. The store may refuse to commit it
over a conflict. -/
structure UpdateTurn where
  now : UInt64
  sd : SetData
  conflict : Bool

namespace UpdateTurn

def run (db : Db) (c : UpdateTurn) : Db := if c.conflict then db else (LocalData.update db c.now c.sd).db

def Succeeds (db : Db) (c : UpdateTurn) : Prop :=
  c.conflict = false ∧ (LocalData.update db c.now c.sd).err = none

instance (db : Db) (c : UpdateTurn) : Decidable (c.Succeeds db) := inferInstanceAs (Decidable (_ ∧ _))

def carried (c : UpdateTurn) : Nat := c.sd.data.header.revision.toNat

def successes : Db → List UpdateTurn → List UpdateTurn
  | _, [] => []
  | db, c :: calls =>
    if c.Succeeds db then c :: successes (c.run db) calls else successes (c.run db) calls

/-- The record is alive and updatable, at revision `s`. -/
def LiveAt (a : Address) (db : Db) (s : Nat) : Prop :=
  ∃ d, a.row db = some d ∧ d.updatable = true ∧ d.state ≠ dataStateDeleted ∧ d.revision.toNat = s

variable {a : Address} {db : Db} {s : Nat} {c : UpdateTurn} {calls : List UpdateTurn}

theorem run_failed (h : ¬ c.Succeeds db) : c.run db = db := by
  unfold run
  split
  · rfl
  · next hc =>
    refine Write.op_failed .update c.now fun he => ?_
    exact h ⟨by simpa using hc, he⟩

theorem succeeds_iff (h : LiveAt a db s) (ha : c.sd.address = a) :
    c.Succeeds db ↔ c.conflict = false ∧ c.carried = s := by
  obtain ⟨d, hd, hu, -, rfl⟩ := h
  subst ha
  refine and_congr_right fun _ => ?_
  have hrev : (c.sd.data.header.withRow d).revision = d.revision := rfl
  rw [LocalData.update, LocalData.edit_of_row hd LocalData.updated_ids, hu, carried, UInt64.toNat_inj]
  by_cases hr : d.revision = c.sd.data.header.revision
  · simp [LocalData.updated, hrev, hr]
  · simp [LocalData.updated, hrev, hr, Ne.symm hr]

theorem run_succeeded (h : LiveAt a db s) (ha : c.sd.address = a) (hc : c.Succeeds db)
    (hs : s + 1 < 2 ^ 64) :
    LiveAt a (c.run db) (s + 1) ∧ ∃ rev, rev.toNat = s + 1 ∧
      Answers a (c.run db) c.sd.data.value rev true := by
  obtain ⟨d, hd, hu, hlive, rfl⟩ := h
  subst ha
  have hrun : c.run db = (LocalData.update db c.now c.sd).db := by simp [run, hc.1]
  have hr := Write.edit_rewrites LocalData.updated_ids (fun h hf => Write.rewrites_insert db hf) hc.2
  obtain ⟨d', hd', -, hch⟩ := LocalData.edit_ok LocalData.updated_ids hc.2
  obtain rfl : d' = d := Option.some.inj (hd'.symm.trans hd)
  rw [(LocalData.updated_ok hch).2] at hr
  have hnext : (d'.revision + 1).toNat = d'.revision.toNat + 1 := by
    rw [UInt64.toNat_add]
    exact Nat.mod_eq_of_lt hs
  rw [hrun]
  have hans := hr.answers hlive
  dsimp only [Header.withRow] at hans
  rw [hu] at hans
  exact ⟨⟨_, hr.row, hu, hlive, hnext⟩, d'.revision + 1, hnext, hans⟩

/-- After the calls the record is at the revision their successes have counted it up to, they
carry one revision after another, and what is read is the value of the last. -/
structure Outcome (a : Address) (db : Db) (s : Nat) (calls : List UpdateTurn) : Prop where
  live : LiveAt a (calls.foldl run db) (s + (successes db calls).length)
  revisions : (successes db calls).map carried = List.range' s (successes db calls).length
  read : successes db calls = [] ∧ calls.foldl run db = db ∨
    ∃ c rev, (successes db calls).getLast? = some c ∧ rev.toNat = s + (successes db calls).length ∧
      Answers a (calls.foldl run db) c.sd.data.value rev true

theorem Outcome.failed (hno : ¬ c.Succeeds db) (h : Outcome a db s calls) : Outcome a db s (c :: calls) := by
  have hrun : (c :: calls).foldl run db = calls.foldl run db := by rw [List.foldl_cons, run_failed hno]
  have hsucc : successes db (c :: calls) = successes db calls := by
    rw [successes, if_neg hno, run_failed hno]
  refine ⟨?_, ?_, ?_⟩
  · rw [hrun, hsucc]
    exact h.live
  · rw [hsucc]
    exact h.revisions
  · rw [hrun, hsucc]
    exact h.read

theorem Outcome.succeeded (hlive : LiveAt a db s) (ha : c.sd.address = a) (hok : c.Succeeds db)
    (hs : s + 1 < 2 ^ 64) (h : Outcome a (c.run db) (s + 1) calls) : Outcome a db s (c :: calls) := by
  have hsucc : successes db (c :: calls) = c :: successes (c.run db) calls := by
    rw [successes, if_pos hok]
  have hlen : s + (successes db (c :: calls)).length = s + 1 + (successes (c.run db) calls).length := by
    rw [hsucc, List.length_cons]
    omega
  refine ⟨?_, ?_, ?_⟩
  · rw [hlen, List.foldl_cons]
    exact h.live
  · rw [hsucc, List.map_cons, List.length_cons, List.range'_succ, h.revisions,
      ((succeeds_iff hlive ha).mp hok).2]
  · right
    rw [hlen, List.foldl_cons, hsucc]
    rcases h.read with ⟨hnil, hdb⟩ | ⟨c', rev, hlast, hrev, hans⟩
    · obtain ⟨-, rev, hrev, hans⟩ := run_succeeded hlive ha hok hs
      rw [hnil, hdb]
      exact ⟨c, rev, rfl, hrev, hans⟩
    · refine ⟨c', rev, ?_, hrev, hans⟩
      rw [List.getLast?_cons, hlast, Option.getD_some]

theorem outcome (h : LiveAt a db s) (ha : ∀ c ∈ calls, c.sd.address = a)
    (hs : s + (successes db calls).length < 2 ^ 64) : Outcome a db s calls := by
  induction calls generalizing db s with
  | nil => exact ⟨h, rfl, .inl ⟨rfl, rfl⟩⟩
  | cons c calls ih =>
    have hc := ha c List.mem_cons_self
    have hcalls : ∀ c' ∈ calls, c'.sd.address = a := fun c' hc' => ha c' (List.mem_cons_of_mem _ hc')
    rw [successes] at hs
    split at hs
    · next hok =>
      rw [List.length_cons] at hs
      have hnext := (run_succeeded h hc hok (by omega)).1
      exact .succeeded h hc hok (by omega) (ih hnext hcalls (by omega))
    · next hno =>
      rw [run_failed hno] at hs
      exact .failed hno (ih h hcalls hs)

theorem successes_append (db : Db) (pre post : List UpdateTurn) :
    successes db (pre ++ post) = successes db pre ++ successes (pre.foldl run db) post := by
  induction pre generalizing db with
  | nil => rfl
  | cons c pre ih =>
    rw [List.cons_append, successes, successes, List.foldl_cons, ih]
    split <;> rfl

/-- Updates of a live record in any serial order. A call succeeds exactly when it carries the
revision that is stored in its turn, and otherwise changes no row. After `k` successes the
revision is `s + k` and the value that of the last success, and no two successes carry the same
revision. -/
theorem local_compare_and_swap (h : LiveAt a db s) (ha : ∀ c ∈ calls, c.sd.address = a)
    (hs : s + (successes db calls).length < 2 ^ 64) :
    (∀ pre c post, calls = pre ++ c :: post →
      LiveAt a (pre.foldl run db) (s + (successes db pre).length) ∧
      (c.Succeeds (pre.foldl run db) ↔
        c.conflict = false ∧ c.carried = s + (successes db pre).length) ∧
      (¬ c.Succeeds (pre.foldl run db) → c.run (pre.foldl run db) = pre.foldl run db)) ∧
    LiveAt a (calls.foldl run db) (s + (successes db calls).length) ∧
    (∀ c, (successes db calls).getLast? = some c → ∃ rev,
      rev.toNat = s + (successes db calls).length ∧ Answers a (calls.foldl run db) c.sd.data.value rev true) ∧
    ((successes db calls).map carried).Nodup := by
  have hout := outcome h ha hs
  refine ⟨?_, hout.live, ?_, ?_⟩
  · rintro pre c post rfl
    rw [successes_append, List.length_append] at hs
    have hpre := (outcome h (fun c' hc' => ha c' (List.mem_append_left _ hc')) (by omega)).live
    exact ⟨hpre, succeeds_iff hpre (ha c (by simp)), run_failed⟩
  · intro c hc
    rcases hout.read with ⟨hnil, -⟩ | ⟨c', rev, hlast, hrev, hans⟩
    · rw [hnil] at hc
      cases hc
    · obtain rfl : c' = c := Option.some.inj (hlast.symm.trans hc)
      exact ⟨rev, hrev, hans⟩
  · rw [hout.revisions]
    exact List.nodup_range'

/-- Two calls with revision 1, the first of which is refused at its commit, and one with
revision 2. -/
def sampleCalls : List UpdateTurn :=
  [⟨6, sampleCall [2] 1, true⟩, ⟨7, sampleCall [3] 1, false⟩, ⟨8, sampleCall [4] 1, false⟩,
    ⟨9, sampleCall [5] 2, false⟩]

theorem local_compare_and_swap_sample :
    ∃ rev : UInt64, rev.toNat = 3 ∧ Answers ⟨7, 1, 1, [107]⟩
      (sampleCalls.foldl run (LocalData.create ∅ 5 (sampleCall [1] 0)).db) [5] rev true := by
  have hlive : LiveAt ⟨7, 1, 1, [107]⟩ (LocalData.create ∅ 5 (sampleCall [1] 0)).db 1 :=
    ⟨⟨1, 0, 0, 5, 1, true, 0⟩, by decide +kernel, rfl, by decide, rfl⟩
  have hlen : (successes (LocalData.create ∅ 5 (sampleCall [1] 0)).db sampleCalls).length = 2 := by
    decide +kernel
  have hlast : ((successes (LocalData.create ∅ 5 (sampleCall [1] 0)).db sampleCalls).getLast?).map
      (·.sd.data.value) = some [5] := by decide +kernel
  obtain ⟨c, hc, hval⟩ := Option.map_eq_some_iff.mp hlast
  have haddr : ∀ c ∈ sampleCalls, c.sd.address = ⟨7, 1, 1, [107]⟩ := by decide
  obtain ⟨-, -, hread, -⟩ := local_compare_and_swap hlive haddr (by rw [hlen]; decide)
  obtain ⟨rev, hrev, hans⟩ := hread c hc
  rw [hlen] at hrev
  rw [hval] at hans
  exact ⟨rev, hrev, hans⟩

end UpdateTurn

end Tarantula
