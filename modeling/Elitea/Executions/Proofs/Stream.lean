/-
A client of the durable event stream reaches its end.

A read from a cursor the client was given is never refused
(`replay_answers`), and it moves past an event unless there is none left
or the next row is hidden (`replay_moves`). So with a terminal output
there, which freezes the node events and decides what stays hidden, each
read brings the client nearer to the end of the log by one event at least
(`ReadingOn.answered`), whatever the janitor deletes meanwhile. The count
of events left is the measure, and `ReadingOn` carries it along a run.

Two things are missed, and both stand at the end: rows pruned between the
two statements of a read, and everything behind a frame that waits for an
agent result when the run ended otherwise.
-/
import Elitea.Executions.Proofs.Reader

namespace Elitea.Executions

open Elitea.Lib Elitea.Lib.PrunedLog

variable {w : World} {events : List DurableEvent} {call : Call}
  {choice : Choice} {a : Answer}

-- ================================================================= progress

/-- How many events of the log lie after the client's cursor. -/
def behind (w : World) : Nat :=
  (w.log.filter fun e => decide (w.client.cursor < e.cursor)).length

/-- A cursor that passes an event has fewer left. -/
theorem behind_lt {log : List ReplayEvent} {c c' : Nat} {e : ReplayEvent}
    (he : e ∈ log) (hc : c < e.cursor) (hc' : e.cursor ≤ c') :
    (log.filter fun e => decide (c' < e.cursor)).length
      < (log.filter fun e => decide (c < e.cursor)).length := by
  have split : (log.filter fun e => decide (c' < e.cursor))
      = (log.filter fun e => decide (c < e.cursor)).filter
          fun e => decide (c' < e.cursor) := by
    rw [List.filter_filter]
    refine List.filter_congr fun x _ => ?_
    by_cases hx : c' < x.cursor
    · rw [decide_eq_true hx, decide_eq_true
        (Nat.lt_trans (Nat.lt_of_lt_of_le hc hc') hx)]
      rfl
    · rw [decide_eq_false hx, Bool.false_and]
  rw [split]
  refine List.length_filter_lt_length_iff_exists.2
    ⟨e, List.mem_filter.2 ⟨he, decide_eq_true hc⟩, ?_⟩
  rw [decide_eq_true_eq]
  exact Nat.not_lt.2 hc'

theorem le_lastCursor {after : Nat} (h : ∀ d ∈ events, after ≤ d.cursor) :
    after ≤ lastCursor after events := by
  rcases lastCursor_mem after events with he | ⟨d, hd, he⟩
  · rw [he]
  · exact he ▸ h d hd

/-- A reset passes everything up to it. -/
theorem Page.reset_le {log : List ReplayEvent} {pruned after : Nat}
    (h : Page log pruned after events) (hlt : after < pruned) :
    pruned ≤ lastCursor after events := by
  cases h with
  | rows hge _ => exact absurd hlt (Nat.not_lt.2 hge)
  | @reset page rest _ hrows =>
      have split : (DurableEvent.reset pruned :: page.map .event)
          = [.reset pruned] ++ page.map .event := rfl
      rw [split, lastCursor_append]
      refine le_lastCursor fun d hd => ?_
      obtain ⟨e, he, rfl⟩ := List.mem_map.1 hd
      exact Nat.le_of_lt (mem_page hrows he).2

section Progress

variable {policy : RetentionPolicy} {seen t : Tables}
  {seenLog log : List ReplayEvent} {after limit : Nat}

/-- A read from a known cursor is answered. -/
theorem replay_answers (hseen : LogInv policy seen seenLog)
    (h : LogInv policy t log) (hk : KnownCursor seen seenLog after)
    (hlimit : 0 < limit ∧ limit ≤ maxReplayBatch)
    (hrace : t.prunedThrough ≤ max after seen.prunedThrough) :
    ∃ events, replay seen t after limit = .ok events := by
  unfold replay
  dsimp only
  rw [if_neg (by
    rw [not_or, not_or, Nat.not_lt, Nat.not_lt]
    exact ⟨Nat.ne_of_gt hlimit.1, hlimit.2, hseen.pruned_le_high⟩)]
  split
  next hlt =>
    rw [Nat.max_eq_right (Nat.le_of_lt hlt)] at hrace
    split
    next => exact ⟨_, rfl⟩
    next =>
      rw [h.deliver_rows _ _ hrace]
      exact ⟨_, rfl⟩
  next hge =>
    rw [Nat.not_lt] at hge
    rw [Nat.max_eq_left hge] at hrace
    obtain ⟨hhigh, hrec⟩ := hk.recognized hseen hge
    rw [hrec, if_neg (by simpa using hhigh)]
    split
    next => exact ⟨_, rfl⟩
    next =>
      rw [h.deliver_rows _ _ hrace]
      exact ⟨_, rfl⟩

/-- A read of a client that has an event left moves past one, if the rows
left are shown. -/
theorem replay_moves (hseen : LogInv policy seen log) (h : LogInv policy t log)
    (hlimit : 0 < limit ∧ limit ≤ maxReplayBatch)
    (hrace : t.prunedThrough ≤ max after seen.prunedThrough)
    (hshown : ∀ e ∈ log, after < e.cursor → t.prunedThrough < e.cursor →
      visible t e = true) (hleft : ∃ e ∈ log, after < e.cursor)
    (hr : replay seen t after limit = .ok events) :
    ∃ e ∈ log, after < e.cursor ∧ e.cursor ≤ lastCursor after events := by
  obtain ⟨e₀, he₀, hlt₀⟩ := hleft
  by_cases hlt : after < seen.prunedThrough
  · -- the reset passes the event whose cursor it carries
    obtain ⟨e, he, -, hc⟩ := hseen.pruned_attained.resolve_left fun h0 =>
      Nat.not_lt_zero _ (h0 ▸ hlt)
    refine ⟨e, he, hc ▸ hlt, ?_⟩
    rw [hc]
    exact (h.replay_page hrace hr).reset_le hlt
  · rw [Nat.max_eq_left (Nat.not_lt.1 hlt)] at hrace
    have hhigh : after < seen.highCursor := by
      rw [hseen.high_eq]
      exact Nat.lt_of_lt_of_le hlt₀ (le_maxCursor he₀)
    unfold replay at hr
    dsimp only at hr
    rw [if_neg hlt] at hr
    split at hr
    next => cases hr
    next =>
      obtain ⟨-, hr⟩ := ite_error_eq_ok.1 hr
      rw [if_neg (Nat.ne_of_lt hhigh), h.deliver_rows _ _ hrace] at hr
      obtain rfl := Except.ok.inj hr
      -- the first row left is delivered
      cases hrows : log.filter fun e => decide (after < e.cursor) with
      | nil =>
          have hm : e₀ ∈ log.filter fun e => decide (after < e.cursor) :=
            List.mem_filter.2 ⟨he₀, decide_eq_true hlt₀⟩
          exact absurd hm (hrows ▸ List.not_mem_nil)
      | cons e rest =>
          have hm : e ∈ log.filter fun e => decide (after < e.cursor) :=
            hrows ▸ List.mem_cons_self
          obtain ⟨he, hlte⟩ := List.mem_filter.1 hm
          have hafter := of_decide_eq_true hlte
          have hv := hshown e he hafter
            (Nat.lt_of_le_of_lt hrace hafter)
          obtain ⟨left, hleft⟩ := page_split (e :: rest) limit (visible t)
          refine ⟨e, he, hafter,
            (lastCursor_page h.kept.ordered (hrows.trans hleft)).1 e ?_⟩
          obtain ⟨n, rfl⟩ := Nat.exists_eq_succ_of_ne_zero
            (Nat.ne_of_gt hlimit.1)
          rw [List.take_succ_cons, List.takeWhile_cons_of_pos hv]
          exact List.mem_cons_self

end Progress

-- ==================================================================== runs

/-- The client's invariant, of the committed state and of what every open
call saw, which was pruned no further. -/
structure Reading (cfg : Config) (s : State) : Prop where
  throughout : Sessions.Throughout
    (fun w => Sound cfg w ∧ ReaderInv w) s
  since : Sessions.Follows (fun _ a b =>
    a.tables.prunedThrough ≤ b.tables.prunedThrough) s

/-- A read a client makes: between one and `maxReplayBatch` rows. -/
def Op.reads : Op → Bool
  | .replay _ limit => decide (0 < limit ∧ limit ≤ maxReplayBatch)
  | _ => false

def Op.attaches : Op → Bool
  | .attach _ => true
  | _ => false

/-- How many reads were answered. -/
def reads (s : State) : Nat :=
  s.answers.countP fun answer => answer.1.reads

/-- The rows the client has not passed are shown. -/
def Shown (w : World) : Prop :=
  ∀ e ∈ w.tables.events, w.client.cursor < e.cursor →
    w.tables.prunedThrough < e.cursor → visible w.tables e = true

instance (w : World) : Decidable (Shown w) :=
  inferInstanceAs (Decidable (∀ e ∈ w.tables.events, _))

/-- The client has every retained row after its start that no reset stands
for, a terminal's among them. -/
def CaughtUp (w : World) : Prop :=
  ∀ e ∈ w.tables.events, w.client.start < e.cursor →
    w.tables.prunedThrough < e.cursor ∨ e.final →
    .event e ∈ w.client.delivered

/-- A step that appends nothing, does not move the client elsewhere and
lets no pruning overtake a read. -/
def ReadsOn (cfg : Config) (s : State) (l : Label) : Prop :=
  Unraced s l
    ∧ (∀ call ∈ Sessions.finishing s l, call.op.attaches = false)
    ∧ ∀ s' ∈ step cfg s l, s'.world.log = s.world.log

instance (cfg : Config) (s : State) (l : Label) :
    Decidable (ReadsOn cfg s l) :=
  inferInstanceAs (Decidable (_ ∧ _ ∧ _))

section Runs

variable {cfg : Config} {s s' u u' : State} {l : Label}

theorem reading_step (hs : Reading cfg s) (hl : Unraced s l)
    (h : step cfg s l = some s') : Reading cfg s' := by
  obtain ⟨hsound, hreader⟩ := hs.throughout.now
  refine ⟨hs.throughout.step h fun i choice call a w e hc he => ?_,
    hs.since.step (fun _ => Nat.le_refl _) h
      fun i choice call a w e hc he other _ hle =>
        Nat.le_trans hle (hsound.pruned_mono (exec_commits he).2.2)⟩
  have hcom := (exec_commits he).2.2
  subst e
  exact ⟨hsound.commit hcom, hreader.commit hsound
    (hs.since call (List.mem_of_getElem? hc)) (hl call hc) hcom⟩

theorem reading_run {scope : Scope} {capability : Capability}
    {prepared : Option Digest} {deadline clock : Nat} {labels : List Label}
    (hun : Meets (step cfg) Unraced
      (start scope capability prepared deadline clock) labels)
    (hrun : run (step cfg) (start scope capability prepared deadline clock)
      labels = some s) : Reading cfg s := by
  refine run_inv (fun _ _ _ hu hl h => reading_step hu hl h) labels _ s
    ⟨?_, Sessions.Follows.begin _ clock⟩ hun hrun
  have begins := (@sound_run cfg _ scope capability prepared deadline clock
    [] rfl).now
  refine Sessions.Throughout.begin clock ⟨begins, .attach _ _,
    fun _ hm => absurd hm List.not_mem_nil,
    fun _ hm => absurd hm List.not_mem_nil, .inl rfl,
    fun _ hm => absurd hm List.not_mem_nil⟩

/-- Nothing left to read: the client is caught up. -/
theorem caughtUp_of_behind (hs : Sound cfg w) (hr : ReaderInv w)
    (h0 : behind w = 0) : CaughtUp w := by
  intro e he hstart habove
  have hlog := hs.log.kept.sub.subset he
  have hle : e.cursor ≤ w.client.cursor := by
    by_contra hgt
    have hm : e ∈ w.log.filter fun e =>
        decide (w.client.cursor < e.cursor) :=
      List.mem_filter.2 ⟨hlog, decide_eq_true (Nat.lt_of_not_le hgt)⟩
    rw [List.length_eq_zero_iff.1 h0] at hm
    exact absurd hm List.not_mem_nil
  refine (hr.reads.complete e hlog hstart hle).resolve_right ?_
  rintro ⟨r, hm, hler⟩
  have hpruned : w.tables.prunedThrough < e.cursor :=
    habove.elim id fun hfin =>
      hs.log.final_above hlog (hr.finals e hlog hfin)
  exact absurd (Nat.le_trans hler (hr.resets r hm))
    (Nat.not_le_of_lt hpruned)

/-- The commit of a read. -/
theorem exec_replay {w' : World} {now after limit : Nat}
    (op : call.op = .replay after limit)
    (h : exec cfg w now call choice = some (a, w')) :
    call.seen.client.cursor = after ∧ w.client.cursor = after
      ∧ ((∃ e, replay call.seen.tables w.tables after limit = .error e
          ∧ w' = w)
        ∨ ∃ events, replay call.seen.tables w.tables after limit
            = .ok events
          ∧ w' = { w with
              given := w.given ++ events.map DurableEvent.cursor
              client := w.client.receive events }) := by
  unfold exec at h
  rw [op] at h
  dsimp only at h
  split at h
  next => cases h
  next =>
    split at h
    next => cases h
    next hat =>
      simp only [not_or, ne_eq, Decidable.not_not] at hat
      refine ⟨hat.1, hat.2, ?_⟩
      split at h
      next e he =>
        cases h
        exact .inl ⟨e, he, rfl⟩
      next events he =>
        cases h
        exact .inr ⟨events, he, rfl⟩

/-- Every other call leaves the client alone. -/
theorem Commits.client_eq {w' : World} {now : Nat}
    (hread : call.op.readsFrom = none) (hatt : call.op.attaches = false)
    (h : Commits cfg w now call choice a w') : w'.client = w.client := by
  cases h with
  | replayed op _ _ _ =>
      rw [op] at hread
      cases hread
  | attached op _ =>
      rw [op] at hatt
      cases hatt
  | _ => rfl

/-- What a run that appends nothing keeps, from the state `s` on. -/
structure ReadingOn (cfg : Config) (s u : State) : Prop where
  reading : Reading cfg u
  log : u.world.log = s.world.log
  /-- A read that is open saw the whole log. -/
  fresh : ∀ call ∈ u.calls, call.op.readsFrom ≠ none →
    call.seen.log = s.world.log
  inbox : u.world.tables.inbox = s.world.tables.inbox
  pruned : s.world.tables.prunedThrough ≤ u.world.tables.prunedThrough
  cursor : s.world.client.cursor ≤ u.world.client.cursor
  nearer : behind u.world + reads u ≤ behind s.world + reads s
    ∨ behind u.world = 0

/-- What is left stays shown: no row is new, and the agent result is
where it was. -/
theorem ReadingOn.shown (hu : ReadingOn cfg s u) (hs : Sound cfg s.world)
    (hshown : Shown s.world) :
    ∀ e ∈ u.world.log, u.world.client.cursor < e.cursor →
      u.world.tables.prunedThrough < e.cursor →
      visible u.world.tables e = true := by
  intro e he hlt hp
  have hagent : u.world.tables.agentResult
      = s.world.tables.agentResult := by
    unfold Tables.agentResult
    rw [hu.inbox]
  have hp' := Nat.lt_of_le_of_lt hu.pruned hp
  have hmem : e ∈ s.world.tables.events := by
    refine hs.log.kept.mem (hu.log ▸ he) ?_
    rw [← prunedThrough_eq]
    exact hp'
  have hv := hshown e hmem (Nat.lt_of_le_of_lt hu.cursor hlt) hp'
  unfold visible at hv ⊢
  rw [hagent]
  exact hv

theorem behind_le {log : List ReplayEvent} {c c' : Nat} (h : c ≤ c') :
    (log.filter fun e => decide (c' < e.cursor)).length
      ≤ (log.filter fun e => decide (c < e.cursor)).length := by
  refine List.Sublist.length_le (List.monotone_filter_right log ?_)
  intro e he
  exact decide_eq_true (Nat.lt_of_le_of_lt h (of_decide_eq_true he))

/-- An answered read of a client with something left brings it nearer. -/
theorem ReadingOn.answered (hu : ReadingOn cfg s u) (hs : Sound cfg s.world)
    (hshown : Shown s.world) {after limit : Nat} (hcall : call ∈ u.calls)
    (op : call.op = .replay after limit) (hrace : u.world.tables.prunedThrough
      ≤ max after call.seen.tables.prunedThrough)
    (he : exec cfg u.world u.clock call choice = some (a, w)) :
    u.world.client.cursor ≤ w.client.cursor
      ∧ (call.op.reads = true → 0 < behind u.world →
          behind w < behind u.world) := by
  obtain ⟨hsound, hreader⟩ := hu.reading.throughout.now
  obtain ⟨hseenSound, hseenReader⟩ := hu.reading.throughout.seen call hcall
  obtain ⟨hasked, hat, hans⟩ := exec_replay op he
  have hlogs : call.seen.log = u.world.log := by
    rw [hu.fresh call hcall (by rw [op]; nofun), hu.log]
  rcases hans with ⟨e, herr, rfl⟩ | ⟨events, hok, rfl⟩
  · refine ⟨Nat.le_refl _, fun hread _ => ?_⟩
    rw [op] at hread
    obtain ⟨events, hev⟩ := replay_answers hseenSound.log hsound.log
      (hasked ▸ hseenReader.known) (of_decide_eq_true hread) hrace
    rw [hev] at herr
    cases herr
  · have hpage := hsound.log.replay_page hrace hok
    have hmono : u.world.client.cursor
        ≤ lastCursor u.world.client.cursor events := by
      rw [hat]
      exact le_lastCursor fun d hd => Nat.le_of_lt (hpage.above d hd)
    refine ⟨hmono, fun hread hpos => ?_⟩
    rw [op] at hread
    obtain ⟨e₀, hm⟩ := List.exists_mem_of_length_pos hpos
    obtain ⟨he₀, hlt₀⟩ := List.mem_filter.1 hm
    obtain ⟨e, hel, hlt, hle⟩ := replay_moves (hlogs ▸ hseenSound.log)
      hsound.log (of_decide_eq_true hread) hrace
      (fun e hel hlt => hu.shown hs hshown e hel (hat ▸ hlt))
      ⟨e₀, he₀, hat ▸ of_decide_eq_true hlt₀⟩ hok
    have hlt' := @behind_lt u.world.log after (lastCursor after events) e
      hel hlt hle
    unfold behind Client.receive
    dsimp only
    rw [hat]
    exact hlt'

theorem readingOn_step (hs : Sound cfg s.world)
    (hin : s.world.tables.inbox ≠ []) (hshown : Shown s.world)
    (hu : ReadingOn cfg s u) (hl : ReadsOn cfg u l)
    (h : step cfg u l = some u') : ReadingOn cfg s u' := by
  have hsound := hu.reading.throughout.now.1
  have hlog : u'.world.log = s.world.log := (hl.2.2 u' h).trans hu.log
  -- all but the client's own place
  have rest : (s.world.client.cursor ≤ u'.world.client.cursor
        ∧ (behind u'.world + reads u' ≤ behind s.world + reads s
          ∨ behind u'.world = 0)) → ReadingOn cfg s u' := by
    rintro ⟨hcursor, hnearer⟩
    refine ⟨reading_step hu.reading hl.1 h, hlog, fun call hm hread => ?_,
      ?_, Nat.le_trans hu.pruned ?_, hcursor, hnearer⟩
    · rcases Sessions.step_calls h call hm with he | ⟨old, ho, he, hop⟩
      · rw [he, hu.log]
      · rw [he]
        exact hu.fresh old ho (hop ▸ hread)
    · exact ((final_step hsound (hu.inbox.symm ▸ hin) h).1).trans hu.inbox
    · rw [prunedThrough_eq, prunedThrough_eq]
      exact (grows_step hsound h).2
  apply rest
  rcases Sessions.step_cases h with
    ⟨i, choice, call, a, w, rfl, hc, -, he, rfl⟩ | ⟨-, hw, ha, -, -⟩
  · have hcall := List.mem_of_getElem? hc
    have hsame : w.log = u.world.log := hlog.trans hu.log.symm
    have hcount : reads ⟨w, u.clock, u.calls.eraseIdx i,
        u.answers ++ [(call.op, a)]⟩
        = reads u + if call.op.reads then 1 else 0 := by
      unfold reads
      rw [List.countP_append, List.countP_singleton]
    rw [hcount]
    cases hread : call.op.readsFrom with
    | none =>
        have hclient := (exec_commits he).2.2.client_eq hread
          (hl.2.1 call hc)
        have hno : call.op.reads = false := by
          revert hread
          cases call.op <;> first | exact fun _ => rfl | exact nofun
        have hbehind : behind w = behind u.world := by
          unfold behind
          rw [hsame, hclient]
        refine ⟨hclient ▸ hu.cursor, ?_⟩
        change behind w + _ ≤ _ ∨ behind w = 0
        rw [hbehind, hno]
        exact hu.nearer
    | some after =>
        obtain ⟨limit, op⟩ : ∃ limit, call.op = .replay after limit := by
          revert hread
          cases call.op <;> intro hread <;> cases hread
          exact ⟨_, rfl⟩
        obtain ⟨hmono, hless⟩ := hu.answered hs hshown hcall op
          (hl.1 call hc after (by rw [hread]; rfl)) he
        refine ⟨Nat.le_trans hu.cursor hmono, ?_⟩
        change behind w + _ ≤ _ ∨ behind w = 0
        have hle : behind w ≤ behind u.world := by
          unfold behind
          rw [hsame]
          exact behind_le hmono
        rcases Nat.eq_zero_or_pos (behind u.world) with h0 | hpos
        · exact .inr (Nat.le_zero.1 (h0 ▸ hle))
        · have hnear := hu.nearer.resolve_right (Nat.ne_of_gt hpos)
          refine .inl ?_
          cases hr : call.op.reads with
          | false =>
              rw [if_neg Bool.false_ne_true]
              omega
          | true =>
              have := hless hr hpos
              rw [if_pos rfl]
              omega
  · have hcount : reads u' = reads u := by
      unfold reads
      rw [ha]
    rw [hw, hcount]
    exact ⟨hu.cursor, hu.nearer⟩

/-- In every run in which no pruning overtakes a read: the cursors the
client received go up, each event from its start to its cursor was
delivered once or lies at or below a reset it received, and from there,
if there is a terminal output and the rows left are shown, the client is
caught up after as many reads as there are events left, in every
continuation that appends nothing. -/
theorem stream_read (scope : Scope) (capability : Capability)
    (prepared : Option Digest) (deadline clock : Nat)
    (labels : List Label)
    (hun : Meets (step cfg) Unraced
      (start scope capability prepared deadline clock) labels)
    (hrun : run (step cfg) (start scope capability prepared deadline clock)
      labels = some s) :
    Reads s.world.log s.world.client
      ∧ s.world.client.delivered.Nodup
      ∧ (s.world.tables.inbox ≠ [] →
          (∀ call ∈ s.calls, call.op.readsFrom = none) → Shown s.world →
          ∀ more u, Meets (step cfg) (ReadsOn cfg) s more →
            run (step cfg) s more = some u →
            reads s + behind s.world ≤ reads u → CaughtUp u.world) := by
  have hs := reading_run hun hrun
  obtain ⟨hsound, hreader⟩ := hs.throughout.now
  refine ⟨hreader.reads, ?_, fun hin hopen hshown more u hmore hto hmany =>
    ?_⟩
  · have hinc := List.pairwise_map.1
      (List.pairwise_cons.1 hreader.reads.increasing).2
    exact hinc.imp fun hlt he =>
      absurd (congrArg DurableEvent.cursor he) (Nat.ne_of_lt hlt)
  · have begins : ReadingOn cfg s s :=
      ⟨hs, rfl, fun call hm hread => absurd (hopen call hm) hread, rfl,
        Nat.le_refl _, Nat.le_refl _, .inl (Nat.le_refl _)⟩
    have hu := run_inv (fun _ _ _ hv hl h =>
      readingOn_step hsound hin hshown hv hl h) more s u begins hmore hto
    obtain ⟨husound, hureader⟩ := hu.reading.throughout.now
    refine caughtUp_of_behind husound hureader ?_
    rcases hu.nearer with hle | h0
    · omega
    · exact h0

end Runs

-- =========================================================== a sample reader

/-- A read by the client of the sample execution. -/
def sampleRead (after limit : Nat) : List Label :=
  alone (.replay after limit) [] 0

/-- Two node events and a failure, of which the client has read two
rows. -/
def sampleHalfRead : List Label :=
  sampleClaimed .agentApplication ++ sampleNodeEvent 1 0
    ++ sampleNodeEvent 2 0 ++ sampleTerminal 3 0 ++ sampleRead 0 2

theorem stream_read_twice :
    ∃ s u, run (step sampleConfig) (sampleStart .agentApplication)
        sampleHalfRead = some s
      ∧ run (step sampleConfig) s (sampleRead 2 2) = some u
      ∧ u.world.tables.events.length = 3 ∧ CaughtUp u.world := by
  have evaluated : (run (step sampleConfig) (sampleStart .agentApplication)
      sampleHalfRead).map (fun s => decide
        (s.world.tables.inbox ≠ []
          ∧ (∀ call ∈ s.calls, call.op.readsFrom = none)
          ∧ Shown s.world
          ∧ Meets (step sampleConfig) (ReadsOn sampleConfig) s
              (sampleRead 2 2)
          ∧ (run (step sampleConfig) s (sampleRead 2 2)).map (fun u =>
              decide (u.world.tables.events.length = 3
                ∧ reads s + behind s.world ≤ reads u)) = some true))
      = some true := by
    decide +kernel
  obtain ⟨s, hs, he⟩ := Option.map_eq_some_iff.1 evaluated
  obtain ⟨hin, hopen, hshown, hmore, hu⟩ := of_decide_eq_true he
  obtain ⟨u, hu, hlast⟩ := Option.map_eq_some_iff.1 hu
  obtain ⟨hlen, hmany⟩ := of_decide_eq_true hlast
  have h := stream_read sampleScope .agentApplication (some [1]) 1000000 0
    sampleHalfRead (by decide +kernel) hs
  exact ⟨s, u, hs, hu, hlen, h.2.2 hin hopen hshown _ u hmore hu hmany⟩

-- ================================================================ two misses

/-- A read whose rows are pruned between its statements: the append of the
third event, five minutes later, deletes the first two. -/
def overtakenRead : List Label :=
  sampleClaimed .agentApplication ++ sampleNodeEvent 1 0
    ++ sampleNodeEvent 2 0
    ++ [.start (.replay 0 100), .tick 300001,
      .start (.nodeEvent (sampleFrame 3)), .acquire 1 .job,
      .acquire 1 (.claim 1), .acquire 1 .replay,
      .finish 1 (sampleChoice 300001), .finish 0 (sampleChoice 300001)]

/-- A full message that waits for the agent result, and a failure instead
of it. -/
def hiddenFrame : List Label :=
  sampleClaimed .agentApplication
    ++ alone (.nodeEvent { sampleFrame 1 with data := ⟨.fullMessage, [1]⟩ })
        [.job, .claim 1, .replay] 0
    ++ sampleTerminal 2 0 ++ sampleRead 0 100

/-- The overtaken read delivers the third event alone, without a reset for
the first two. A client behind the hidden full message gets nothing at
all, though the failure after it is there. -/
theorem stream_misses :
    (run (step sampleConfig) (sampleStart .agentApplication)
        overtakenRead).map (fun s =>
          (s.world.log.map ReplayEvent.cursor,
            s.world.client.delivered.map DurableEvent.cursor))
        = some ([1, 2, 3], [3])
      ∧ (run (step sampleConfig) (sampleStart .agentApplication)
        hiddenFrame).map (fun s =>
          (s.world.tables.events.map ReplayEvent.cursor,
            s.world.client.delivered.map DurableEvent.cursor))
        = some ([1, 2], []) := by
  decide +kernel

end Elitea.Executions
