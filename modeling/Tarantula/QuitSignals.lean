import Mathlib.Data.List.DropRight
import Mathlib.Data.List.Induction
import Tarantula.MailRoom

/-! The signals by which a `Disconnect` ends a stream. A `Receive` takes one out of the channel
of its listener and returns. Where it returns for another reason, or has returned, the listener
stays, and nothing takes signals out of its channel until the node starts a stream again. -/

namespace Tarantula

/-- `receives` are the `Receive`s that run and their nodes, `replaced` the channels whose listener
was replaced by a later RECEIVER_START of the node. -/
structure Receivers where
  room : MailRoom
  receives : Std.ExtTreeMap Nat String
  replaced : Std.ExtTreeMap Nat (Chan String)

/-- A `Receive` has the number of its RECEIVER_START. It is lost where a send fails or its
context is cancelled. -/
inductive ReceiverEvent
  | start (name : String)
  | quit (stream : Nat)
  | lost (stream : Nat)
  | disconnect (name : String)
  deriving DecidableEq, Repr

namespace Receivers

def empty : Receivers := ⟨.empty, ∅, ∅⟩

def start (s : Receivers) (name : String) : Receivers where
  room := s.room.receiverStart name
  receives := s.receives.insert (s.room.streams + 1) name
  replaced :=
    match s.room.listeners[name]? with
    | none => s.replaced
    | some old => s.replaced.insert old.stream old.q

def quit (s : Receivers) (stream : Nat) : Option Receivers :=
  s.receives[stream]?.bind fun name =>
    match s.room.listeners[name]?.filter (·.stream = stream) with
    | some ch => ch.q.receive.map fun r =>
      { s with room := s.room.listen name { ch with q := r.2 }, receives := s.receives.erase stream }
    | none => s.replaced[stream]?.bind fun q => q.receive.map fun r =>
      { s with replaced := s.replaced.insert stream r.2, receives := s.receives.erase stream }

def lost (s : Receivers) (stream : Nat) : Option Receivers :=
  if stream ∈ s.receives then some { s with receives := s.receives.erase stream } else none

/-- `none` where the goroutine waits for room in the channel. -/
def disconnect (s : Receivers) (name : String) : Option Receivers :=
  (s.room.receiverEnd name).map fun room => { s with room }

def step (s : Receivers) : ReceiverEvent → Option Receivers
  | .start name => some (s.start name)
  | .quit stream => s.quit stream
  | .lost stream => s.lost stream
  | .disconnect name => s.disconnect name

def run (s : Receivers) (es : List ReceiverEvent) : Option Receivers := es.foldlM step s

end Receivers

namespace ReceiverEvent

def isStart : ReceiverEvent → Bool
  | .start _ => true
  | _ => false

section History

variable {n : String} {es : List ReceiverEvent} {e : ReceiverEvent}

def lastStart (n : String) (es : List ReceiverEvent) : Nat :=
  (es.rdropWhile (· ≠ .start n)).countP isStart

def disconnects (n : String) (es : List ReceiverEvent) : Nat :=
  (es.rtakeWhile (· ≠ .start n)).count (.disconnect n)

def quits (n : String) (es : List ReceiverEvent) : Nat := es.count (.quit (lastStart n es))

theorem lastStart_le (n : String) (es : List ReceiverEvent) : lastStart n es ≤ es.countP isStart :=
  (List.rdropWhile_prefix _ _).sublist.countP_le

theorem lastStart_concat (he : e ≠ .start n) : lastStart n (es ++ [e]) = lastStart n es := by
  rw [lastStart, List.rdropWhile_concat_pos _ _ _ (by simpa using he), lastStart]

theorem lastStart_start : lastStart n (es ++ [.start n]) = es.countP isStart + 1 := by
  rw [lastStart, List.rdropWhile_concat_neg _ _ _ (by simp), List.countP_append]
  rfl

theorem disconnects_concat (he : e ≠ .start n) :
    disconnects n (es ++ [e]) = disconnects n es + if e = .disconnect n then 1 else 0 := by
  rw [disconnects, List.rtakeWhile_concat_pos _ _ _ (by simpa using he), List.count_append, disconnects]
  simp [List.count_singleton]

theorem disconnects_start : disconnects n (es ++ [.start n]) = 0 := by
  rw [disconnects, List.rtakeWhile_concat_neg _ _ _ (by simp), List.count_nil]

theorem quits_concat (he : e ≠ .start n) :
    quits n (es ++ [e]) = quits n es + if e = .quit (lastStart n es) then 1 else 0 := by
  rw [quits, lastStart_concat he, List.count_append, quits]
  simp [List.count_singleton]

end History

end ReceiverEvent

namespace MailRoom

variable {m : MailRoom} {name : String}

theorem receiverEnd_isSome_iff : (m.receiverEnd name).isSome ↔
    ∀ ch, m.listeners[name]? = some ch → (!ch.q.closed && ch.q.buf.length < ch.q.cap) = true := by
  unfold receiverEnd
  cases hch : m.listeners[name]? with
  | none => simp
  | some ch =>
    simp only [Option.some.injEq, forall_eq']
    rw [← Chan.send_sent_iff (x := name)]
    cases hs : ch.q.send name <;> simp

end MailRoom

namespace Receivers

open ReceiverEvent

variable {es : List ReceiverEvent} {e : ReceiverEvent} {s t : Receivers} {n name : String}
  {ch : ReceiverAsync}

/-- The channel of a listener has the signals of the disconnects since the stream was started,
without those that ended it. -/
structure Listens (es : List ReceiverEvent) (n : String) (ch : ReceiverAsync) : Prop where
  stream : ch.stream = lastStart n es
  cap : ch.q.cap = 2
  unclosed : ch.q.closed = false
  unread : ch.q.buf.length + quits n es = disconnects n es

/-- A disconnect adds a signal, a `Receive` that ends by one takes it out. -/
theorem Listens.next (h : Listens es n ch) (hs : e ≠ .start n) {q : Chan String} (hcap : q.cap = ch.q.cap)
    (hclosed : q.closed = ch.q.closed)
    (hbuf : q.buf.length + (if e = .quit ch.stream then 1 else 0) =
      ch.q.buf.length + if e = .disconnect n then 1 else 0) :
    Listens (es ++ [e]) n { ch with q } where
  stream := h.stream.trans (lastStart_concat hs).symm
  cap := hcap.trans h.cap
  unclosed := hclosed.trans h.unclosed
  unread := by
    have hunread := h.unread
    show q.buf.length + quits n (es ++ [e]) = disconnects n (es ++ [e])
    rw [quits_concat hs, disconnects_concat hs, ← h.stream]
    omega

theorem Listens.concat (h : Listens es n ch) (hs : e ≠ .start n) (hd : e ≠ .disconnect n)
    (hq : e ≠ .quit ch.stream) : Listens (es ++ [e]) n ch :=
  h.next hs rfl rfl (by rw [if_neg hd, if_neg hq])

/-- What the state is of the history. A `Receive` that runs is of the node whose listener has
its number. -/
structure Tracks (es : List ReceiverEvent) (s : Receivers) : Prop where
  streams : s.room.streams = es.countP isStart
  started : ∀ n, n ∈ s.room.listeners ↔ .start n ∈ es
  listens : ∀ n ch, s.room.listeners[n]? = some ch → Listens es n ch
  owner : ∀ k name, s.receives[k]? = some name →
    k ≤ s.room.streams ∧ ∀ n ch, s.room.listeners[n]? = some ch → ch.stream = k → n = name
  past : ∀ k, .quit k ∈ es → k ≤ s.room.streams

theorem start_streams (s : Receivers) (name : String) :
    (s.start name).room.streams = s.room.streams + 1 := rfl

theorem start_listener (s : Receivers) (name n : String) : (s.start name).room.listeners[n]? =
    if name = n then some (.make (s.room.streams + 1) (s.room.subsOf name)) else s.room.listeners[n]? := by
  rw [start, MailRoom.receiverStart, MailRoom.listen, ExtMap.getElem?_insert]

theorem Tracks.start (h : Tracks es s) (name : String) : Tracks (es ++ [.start name]) (s.start name) where
  streams := by
    rw [List.countP_append, ← h.streams]
    rfl
  started n := by
    have hmem : n ∈ (s.start name).room.listeners ↔ n = name ∨ n ∈ s.room.listeners := ExtMap.mem_insert
    rw [hmem, h.started, List.mem_append, List.mem_singleton, ReceiverEvent.start.injEq, or_comm]
  listens n ch hch := by
    rw [start_listener] at hch
    split at hch
    · next hn =>
      subst hn
      obtain rfl := Option.some.inj hch
      -- no signal has the number of the new stream
      have hnew : (es ++ [ReceiverEvent.start name]).count (.quit (es.countP isStart + 1)) = 0 := by
        rw [List.count_eq_zero, ← h.streams]
        intro hq
        have hle := h.past (s.room.streams + 1) (by simpa using hq)
        omega
      refine ⟨?_, rfl, rfl, ?_⟩
      · rw [lastStart_start, ← h.streams]
        rfl
      · rw [quits, lastStart_start, hnew, disconnects_start]
        rfl
    · next hn =>
      have hs : ReceiverEvent.start name ≠ .start n := fun he => hn (ReceiverEvent.start.inj he)
      exact (h.listens n ch hch).concat hs nofun nofun
  owner k nm hk := by
    have hstreams := s.start_streams name
    rw [Receivers.start, ExtMap.getElem?_insert] at hk
    split at hk
    · next hnew =>
      obtain rfl := Option.some.inj hk
      refine ⟨by omega, fun n ch hch hstream => ?_⟩
      rw [start_listener] at hch
      split at hch
      · next hn => exact hn.symm
      · have hle := lastStart_le n es
        have hlast := (h.listens n ch hch).stream
        have := h.streams
        omega
    · obtain ⟨hle, howner⟩ := h.owner k nm hk
      refine ⟨by omega, fun n ch hch hstream => ?_⟩
      rw [start_listener] at hch
      split at hch
      · obtain rfl := Option.some.inj hch
        have : s.room.streams + 1 = k := hstream
        omega
      · exact howner n ch hch hstream
  past k hk := by
    have hstreams := s.start_streams name
    have := h.past k (by simpa using hk)
    omega

theorem Tracks.next (h : Tracks es s) (he : e.isStart = false) (hstreams : t.room.streams = s.room.streams)
    (hmem : ∀ n ∈ s.room.listeners, n ∈ t.room.listeners)
    (hlistens : ∀ (n : String) (ch : ReceiverAsync), t.room.listeners[n]? = some ch →
      ∃ old, s.room.listeners[n]? = some old ∧ ch.stream = old.stream ∧ Listens (es ++ [e]) n ch)
    (hreceives : ∀ (k : Nat) (nm : String), t.receives[k]? = some nm → s.receives[k]? = some nm)
    (hpast : ∀ k, e = .quit k → k ≤ s.room.streams) : Tracks (es ++ [e]) t where
  streams := by
    rw [hstreams, h.streams, List.countP_append]
    simp [he]
  started n := by
    have hne : ReceiverEvent.start n ≠ e := by
      rintro rfl
      cases he
    rw [List.mem_append, List.mem_singleton, or_iff_left hne, ← h.started]
    constructor
    · intro hn
      obtain ⟨ch, hch⟩ := ExtMap.getElem?_of_mem hn
      obtain ⟨old, hold, -⟩ := hlistens n ch hch
      exact ExtMap.mem_of_getElem? hold
    · exact hmem n
  listens n ch hch := by
    obtain ⟨old, -, -, hl⟩ := hlistens n ch hch
    exact hl
  owner k nm hk := by
    obtain ⟨hle, howner⟩ := h.owner k nm (hreceives k nm hk)
    refine ⟨hstreams ▸ hle, fun n ch hch hk => ?_⟩
    obtain ⟨old, hold, hstream, -⟩ := hlistens n ch hch
    exact howner n old hold (hstream.symm.trans hk)
  past k hk := by
    rw [hstreams]
    rcases List.mem_append.mp hk with hk | hk
    · exact h.past k hk
    · exact hpast k (List.mem_singleton.mp hk).symm

theorem Tracks.same (h : Tracks es s) (he : e.isStart = false) (hroom : t.room = s.room)
    (hlistens : ∀ (n : String) (ch : ReceiverAsync), s.room.listeners[n]? = some ch →
      e ≠ .disconnect n ∧ e ≠ .quit ch.stream)
    (hreceives : ∀ (k : Nat) (nm : String), t.receives[k]? = some nm → s.receives[k]? = some nm)
    (hpast : ∀ k, e = .quit k → k ≤ s.room.streams) : Tracks (es ++ [e]) t := by
  refine h.next he (by rw [hroom]) (by simp [hroom]) (fun n ch hch => ?_) hreceives hpast
  rw [hroom] at hch
  obtain ⟨hd, hq⟩ := hlistens n ch hch
  have hs : e ≠ .start n := by
    rintro rfl
    cases he
  exact ⟨ch, hch, rfl, (h.listens n ch hch).concat hs hd hq⟩

theorem Tracks.listen (h : Tracks es s) (he : e.isStart = false) {q : Chan String}
    (hch : s.room.listeners[name]? = some ch) (hroom : t.room = s.room.listen name { ch with q })
    (hq : Listens (es ++ [e]) name { ch with q })
    (hlistens : ∀ (n : String) (ch : ReceiverAsync), n ≠ name → s.room.listeners[n]? = some ch →
      e ≠ .disconnect n ∧ e ≠ .quit ch.stream)
    (hreceives : ∀ (k : Nat) (nm : String), t.receives[k]? = some nm → s.receives[k]? = some nm)
    (hpast : ∀ k, e = .quit k → k ≤ s.room.streams) : Tracks (es ++ [e]) t := by
  refine h.next he (by rw [hroom]; rfl) (fun n hn => ?_) (fun n ch' hch' => ?_) hreceives hpast
  · rw [hroom, MailRoom.listen, ExtMap.mem_insert_of_getElem? hch]
    exact hn
  · rw [hroom, MailRoom.listen, ExtMap.getElem?_insert] at hch'
    split at hch'
    · next hn =>
      subst hn
      obtain rfl := Option.some.inj hch'
      exact ⟨ch, hch, rfl, hq⟩
    · next hn =>
      obtain ⟨hd, hq⟩ := hlistens n ch' (Ne.symm hn) hch'
      have hs : e ≠ .start n := by
        rintro rfl
        cases he
      exact ⟨ch', hch', rfl, (h.listens n ch' hch').concat hs hd hq⟩

theorem receives_erase {k j : Nat} {nm : String} (h : (s.receives.erase k)[j]? = some nm) :
    s.receives[j]? = some nm := by
  rw [ExtMap.getElem?_erase] at h
  split at h
  · cases h
  · exact h

theorem Tracks.quit (h : Tracks es s) {stream : Nat} (hs : s.quit stream = some t) :
    Tracks (es ++ [.quit stream]) t := by
  obtain ⟨nm, hnm, hs⟩ := Option.bind_eq_some_iff.mp hs
  obtain ⟨hle, howner⟩ := h.owner stream nm hnm
  have hpast (k : Nat) (hk : ReceiverEvent.quit stream = .quit k) : k ≤ s.room.streams :=
    ReceiverEvent.quit.inj hk ▸ hle
  cases hf : s.room.listeners[nm]?.filter (·.stream = stream) with
  | some ch =>
    simp only [hf] at hs
    obtain ⟨⟨o, q⟩, hq, rfl⟩ := Option.map_eq_some_iff.mp hs
    obtain ⟨hch, hstream⟩ := Option.filter_eq_some_iff.mp hf
    have hstream : ch.stream = stream := of_decide_eq_true hstream
    have hl := h.listens nm ch hch
    -- the channel is open, so it is a signal that was received
    obtain ⟨x, rfl⟩ : ∃ x, o = some x := by
      cases o with
      | none => exact absurd (Chan.receive_none hq).1 (by simp [hl.unclosed])
      | some x => exact ⟨x, rfl⟩
    obtain ⟨rest, hbuf, rfl⟩ := Chan.receive_some hq
    have hstart : ReceiverEvent.quit stream ≠ .start nm := nofun
    have hlisten : Listens (es ++ [.quit stream]) nm { ch with q := { ch.q with buf := rest } } :=
      hl.next hstart rfl rfl (by simp [hstream, hbuf])
    refine h.listen rfl hch rfl hlisten (fun n ch' hn hch' => ⟨nofun, ?_⟩)
      (fun _ _ => receives_erase) hpast
    intro heq
    exact hn (howner n ch' hch' (ReceiverEvent.quit.inj heq).symm)
  | none =>
    simp only [hf] at hs
    obtain ⟨q, -, hs⟩ := Option.bind_eq_some_iff.mp hs
    obtain ⟨r, -, rfl⟩ := Option.map_eq_some_iff.mp hs
    refine h.same rfl rfl (fun n ch hch => ⟨nofun, ?_⟩) (fun _ _ => receives_erase) hpast
    -- the listener of the node has another number
    intro heq
    have hstream : ch.stream = stream := (ReceiverEvent.quit.inj heq).symm
    obtain rfl := howner n ch hch hstream
    simp [hch, hstream] at hf

theorem Tracks.lost (h : Tracks es s) {stream : Nat} (hs : s.lost stream = some t) :
    Tracks (es ++ [.lost stream]) t := by
  unfold Receivers.lost at hs
  split at hs
  · obtain rfl := Option.some.inj hs
    exact h.same rfl rfl (fun _ _ _ => ⟨nofun, nofun⟩) (fun _ _ => receives_erase) nofun
  · cases hs

theorem Tracks.disconnect (h : Tracks es s) (hs : s.disconnect name = some t) :
    Tracks (es ++ [.disconnect name]) t := by
  obtain ⟨room, hroom, rfl⟩ := Option.map_eq_some_iff.mp hs
  have hother {n : String} (hn : n ≠ name) : ReceiverEvent.disconnect name ≠ .disconnect n :=
    fun he => hn (ReceiverEvent.disconnect.inj he).symm
  rcases MailRoom.receiverEnd_cases hroom with ⟨hnone, rfl⟩ | ⟨ch, hch, rfl⟩
  · refine h.same rfl rfl (fun n ch hch => ⟨hother ?_, nofun⟩) (fun _ _ hk => hk) nofun
    rintro rfl
    rw [hnone] at hch
    cases hch
  · have hl := h.listens name ch hch
    have hstart : ReceiverEvent.disconnect name ≠ .start name := nofun
    have hlisten : Listens (es ++ [.disconnect name]) name
        { ch with q := { ch.q with buf := ch.q.buf ++ [name] } } :=
      hl.next hstart rfl rfl (by simp)
    exact h.listen rfl hch rfl hlisten (fun n _ hn _ => ⟨hother hn, nofun⟩) (fun _ _ hk => hk) nofun

theorem Tracks.step (h : Tracks es s) (hs : s.step e = some t) : Tracks (es ++ [e]) t := by
  cases e with
  | start name =>
    obtain rfl := Option.some.inj hs
    exact h.start name
  | quit stream => exact h.quit hs
  | lost stream => exact h.lost hs
  | disconnect name => exact h.disconnect hs

theorem Tracks.empty : Tracks [] empty where
  streams := rfl
  started n := by simp [Receivers.empty, MailRoom.empty]
  listens n ch hch := by simp [Receivers.empty, MailRoom.empty] at hch
  owner k nm hk := by simp [Receivers.empty] at hk
  past k hk := by cases hk

theorem tracks_of_run (h : empty.run es = some s) : Tracks es s := by
  induction es using List.reverseRecOn generalizing s with
  | nil =>
    obtain rfl := Option.some.inj h
    exact .empty
  | append_singleton es e ih =>
    rw [run, List.foldlM_append] at h
    obtain ⟨u, hu, h⟩ := Option.bind_eq_some_iff.mp h
    obtain ⟨v, hv, h⟩ := Option.bind_eq_some_iff.mp h
    obtain rfl := Option.some.inj h
    exact (ih hu).step hv

/-- In every run the goroutine has room for the signal of a disconnect exactly where there were
at most one since the node was started, or two if its stream ended by a signal. -/
theorem quit_signal_room_iff (h : empty.run es = some s) (n : String) :
    ((∀ ch, s.room.listeners[n]? = some ch → ch.q.cap = 2 ∧ ch.q.buf.length < 2) ↔
      (.start n ∈ es → disconnects n es < 2 + quits n es)) ∧
    ((s.step (.disconnect n)).isSome ↔ (.start n ∈ es → disconnects n es < 2 + quits n es)) := by
  have ht := tracks_of_run h
  have hroom : (∀ ch, s.room.listeners[n]? = some ch → ch.q.cap = 2 ∧ ch.q.buf.length < 2) ↔
      (.start n ∈ es → disconnects n es < 2 + quits n es) := by
    rw [← ht.started n]
    cases hch : s.room.listeners[n]? with
    | none => simp [ExtMap.not_mem_of_getElem? hch]
    | some ch =>
      have hl := ht.listens n ch hch
      have hunread := hl.unread
      have hmem : n ∈ s.room.listeners := ExtMap.mem_of_getElem? hch
      simp only [Option.some.injEq, forall_eq', hl.cap, true_and, hmem, forall_const]
      omega
  refine ⟨hroom, ?_⟩
  rw [← hroom, step, disconnect, Option.isSome_map, MailRoom.receiverEnd_isSome_iff]
  refine forall_congr' fun ch => forall_congr' fun hch => ?_
  have hl := ht.listens n ch hch
  simp [hl.unclosed, hl.cap]

theorem quit_signal_room_iff_ended :
    ∃ s, empty.run [.start "n", .disconnect "n", .quit 1, .disconnect "n"] = some s ∧
      (s.step (.disconnect "n")).isSome := by
  have hrun : (empty.run [.start "n", .disconnect "n", .quit 1, .disconnect "n"]).isSome := by
    decide +kernel
  obtain ⟨s, hs⟩ := Option.isSome_iff_exists.mp hrun
  exact ⟨s, hs, (quit_signal_room_iff hs "n").2.mpr (by decide)⟩

/-- The stream is lost, so nothing takes out the signals of two disconnects, and the goroutine
waits with the third. -/
theorem third_disconnect_blocks :
    ∃ s, empty.run [.start "n", .lost 1, .disconnect "n", .disconnect "n"] = some s ∧
      s.room.listeners["n"]?.map (fun ch => (ch.q.cap, ch.q.buf)) = some (2, ["n", "n"]) ∧
      s.step (.disconnect "n") = none := by
  have hrun : (empty.run [.start "n", .lost 1, .disconnect "n", .disconnect "n"]).any (fun s =>
      s.room.listeners["n"]?.map (fun ch => (ch.q.cap, ch.q.buf)) = some (2, ["n", "n"]) ∧
        (s.step (.disconnect "n")).isNone) = true := by decide +kernel
  obtain ⟨s, hs, hblocks⟩ := (Option.any_eq_true _ _).mp hrun
  obtain ⟨hq, hnone⟩ := of_decide_eq_true hblocks
  exact ⟨s, hs, hq, Option.isNone_iff_eq_none.mp hnone⟩

end Receivers

end Tarantula
