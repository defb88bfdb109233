/-
The output log of an execution: gap-free, exactly once and bounded.

# The invariant

`LogInv` ties the tables to `World.log`, which keeps every replay event
that was ever appended: the retained rows are part of it and everything
that is missing lies at or below `pruned_through_cursor` (`Kept`, from the
library); its node events are exactly the sequences one to
`last_node_sequence`; the state row describes the last of them and counts
the retained ones. It holds in every run (`LogInv.commit`).

# The terminal

That a terminal follows the last node event is not part of it. The insert
compares a terminal with `last_node_sequence` only if its sequence is
above one, relying on the event id for the rest; once the first node event
is deleted and another is the last one, a terminal of sequence one is
taken (`terminal_after_pruning`).
-/
import Elitea.Lib.PrunedLog
import Elitea.Executions.Proofs.Commits

namespace Elitea.Executions

open Elitea.Lib Elitea.Lib.PrunedLog

variable {e : ReplayEvent} {n now : Nat} {p : ReplayEvent → Bool}

-- ============================================================ lists of events

/-- The node events of a list. -/
def nodes (events : List ReplayEvent) : List ReplayEvent :=
  events.filter fun e => e.type == .nodeEvent

theorem nodes_append (a b : List ReplayEvent) :
    nodes (a ++ b) = nodes a ++ nodes b :=
  List.filter_append ..

theorem nodes_single_node (h : e.type = .nodeEvent) : nodes [e] = [e] :=
  List.filter_eq_self.2 fun x hx => by
    rw [List.mem_singleton.1 hx, h]
    rfl

theorem nodes_single_other (h : e.type ≠ .nodeEvent) : nodes [e] = [] :=
  List.filter_eq_nil_iff.2 fun x hx => by
    rw [List.mem_singleton.1 hx, beq_iff_eq]
    exact h

theorem mem_nodes {events : List ReplayEvent} :
    e ∈ nodes events ↔ e ∈ events ∧ e.type = .nodeEvent := by
  rw [nodes, List.mem_filter, beq_iff_eq]

theorem nodes_filter_comm (events : List ReplayEvent)
    (p : ReplayEvent → Bool) :
    nodes (events.filter p) = (nodes events).filter p := by
  unfold nodes
  rw [List.filter_filter, List.filter_filter]
  exact List.filter_congr fun e _ => Bool.and_comm _ _

/-- Node events that are filtered out of a list are filtered out of its
node events. -/
theorem filter_eq_filter_nodes {events : List ReplayEvent}
    (hp : ∀ e ∈ events, p e = true → e.type = .nodeEvent) :
    events.filter p = (nodes events).filter p := by
  rw [nodes, List.filter_filter]
  refine List.filter_congr fun e he => ?_
  cases hpe : p e with
  | false => rfl
  | true =>
      rw [hp e he hpe]
      rfl

theorem totalSize_append (a b : List ReplayEvent) :
    totalSize (a ++ b) = totalSize a + totalSize b := by
  unfold totalSize
  rw [List.map_append, List.sum_append]

theorem totalSize_filter (events : List ReplayEvent)
    (p : ReplayEvent → Bool) :
    totalSize (events.filter p) + totalSize (events.filter fun e => !p e)
      = totalSize events := by
  induction events with
  | nil => rfl
  | cons e rest ih =>
      have cons : ∀ l, totalSize (e :: l) = e.data.size + totalSize l :=
        fun _ => rfl
      cases hp : p e with
      | true =>
          rw [List.filter_cons_of_pos hp, List.filter_cons_of_neg
            (by rw [hp]; decide), cons, cons, Nat.add_assoc, ih]
      | false =>
          rw [List.filter_cons_of_neg (by rw [hp]; decide),
            List.filter_cons_of_pos (by rw [hp]; rfl), cons, cons,
            Nat.add_left_comm, ih]

theorem totalSize_sublist {a b : List ReplayEvent} (h : a.Sublist b) :
    totalSize a ≤ totalSize b := by
  induction h with
  | slnil => exact Nat.le_refl _
  | cons e _ ih => exact Nat.le_trans ih (Nat.le_add_left _ _)
  | cons_cons e _ ih => exact Nat.add_le_add_left ih _

-- ============================================================ the invariant

def ReplayEvent.receipt (e : ReplayEvent) : NodeReceipt :=
  ⟨e.eventId, e.data, e.cursor⟩

/-- The state row, or the one that would be created. -/
def Tables.replayState (t : Tables) : ReplayState :=
  t.replay.getD .initial

/-- The canonical ids of the first `n` outputs. -/
def firstIds (n : Nat) : List EventId :=
  (List.range n).map fun i => .output (i + 1)

theorem firstIds_succ (n : Nat) :
    firstIds (n + 1) = firstIds n ++ [.output (n + 1)] := by
  unfold firstIds
  rw [List.range_succ, List.map_append]
  rfl

theorem mem_firstIds {id : EventId} :
    id ∈ firstIds n ↔ ∃ k, k < n ∧ id = .output (k + 1) := by
  unfold firstIds
  rw [List.mem_map]
  constructor
  · rintro ⟨k, hk, rfl⟩
    exact ⟨k, List.mem_range.1 hk, rfl⟩
  · rintro ⟨k, hk, rfl⟩
    exact ⟨k, List.mem_range.2 hk, rfl⟩

/-- What the log and the state row say about each other. -/
structure LogInv (policy : RetentionPolicy) (t : Tables)
    (log : List ReplayEvent) : Prop where
  kept : Kept ReplayEvent.cursor log t.events
    t.replayState.prunedThroughCursor
  positive : 0 < t.nextCursor
  cursors : ∀ e ∈ log, 0 < e.cursor ∧ e.cursor < t.nextCursor
  storable : ∀ e ∈ log, e.data.storable = true
  /-- Only node events are deleted. -/
  others : ∀ e ∈ log, e.type ≠ .nodeEvent → e ∈ t.events
  ids : (nodes log).map (·.eventId)
    = firstIds t.replayState.lastNodeSequence
  last : t.replayState.lastNode
    = (nodes log).getLast?.map ReplayEvent.receipt
  events : t.replayState.retainedProgressEvents
    = t.progress.length
  bytes : t.replayState.retainedProgressBytes
    = totalSize t.progress
  maxEvents : t.progress.length ≤ policy.maxProgressEvents
  maxBytes : totalSize t.progress ≤ policy.maxProgressBytes
  /-- Before the terminal output, the only other row is a retirement. -/
  retired : t.inbox = [] → ∀ e ∈ log, e.type ≠ .nodeEvent →
    e.eventId = .retirement
  /-- An output id names one retained row. -/
  unique : ∀ e ∈ t.events, ∀ e' ∈ t.events, e.eventId = e'.eventId →
    e.eventId ≠ .retirement → e = e'
  /-- The state row's receipt is of no other row's id. -/
  apart : ∀ e ∈ log, e.type ≠ .nodeEvent →
    ∀ node ∈ t.replayState.lastNode, e.eventId ≠ node.eventId

theorem logInv_admitted (policy : RetentionPolicy) (scope : Scope)
    (capability : Capability) (prepared : Option Digest)
    (deadline : Nat) :
    LogInv policy (admitted scope capability prepared deadline) [] where
  kept := Kept.nil
  positive := Nat.one_pos
  cursors _ h := absurd h List.not_mem_nil
  storable _ h := absurd h List.not_mem_nil
  others _ h := absurd h List.not_mem_nil
  ids := rfl
  last := rfl
  events := rfl
  bytes := rfl
  maxEvents := Nat.zero_le _
  maxBytes := Nat.zero_le _
  retired _ _ h := absurd h List.not_mem_nil
  unique _ h := absurd h List.not_mem_nil
  apart _ h := absurd h List.not_mem_nil

section Facts

variable {policy : RetentionPolicy} {t : Tables} {log : List ReplayEvent}

theorem LogInv.event_lt (h : LogInv policy t log) (he : e ∈ t.events) :
    e.cursor < t.nextCursor :=
  (h.cursors e (h.kept.sub.subset he)).2

/-- An output id that was used is one of the first, until the terminal
output. -/
theorem LogInv.fresh (h : LogInv policy t log) (hin : t.inbox = [])
    (hn : t.replayState.lastNodeSequence < n) :
    ∀ e ∈ t.events, e.eventId ≠ .output n := by
  intro e he heq
  have hlog := h.kept.sub.subset he
  by_cases hnode : e.type = .nodeEvent
  · have hid : e.eventId ∈ (nodes log).map (·.eventId) :=
      List.mem_map_of_mem (mem_nodes.2 ⟨hlog, hnode⟩)
    rw [h.ids, mem_firstIds] at hid
    obtain ⟨k, hk, hkeq⟩ := hid
    rw [hkeq] at heq
    have := EventId.output.inj heq
    omega
  · rw [h.retired hin e hlog hnode] at heq
    cases heq

/-- The last node event is the one of `last_node_sequence`. -/
theorem LogInv.lastId (h : LogInv policy t log) {node : NodeReceipt}
    (hn : t.replayState.lastNode = some node) :
    node.eventId = .output t.replayState.lastNodeSequence
      ∧ 0 < t.replayState.lastNodeSequence := by
  rw [h.last] at hn
  obtain ⟨e, he, rfl⟩ := Option.map_eq_some_iff.1 hn
  have hlast : ((nodes log).map (·.eventId)).getLast?
      = some e.eventId := by
    rw [List.getLast?_map, he]
    rfl
  rw [h.ids] at hlast
  cases hk : t.replayState.lastNodeSequence with
  | zero =>
      rw [hk] at hlast
      cases hlast
  | succ k =>
      rw [hk, firstIds_succ, List.getLast?_concat] at hlast
      exact ⟨(Option.some.inj hlast).symm, Nat.succ_pos k⟩

/-- While no node event was taken the state row has no receipt, and
conversely. -/
theorem LogInv.last_none (h : LogInv policy t log) :
    t.replayState.lastNode = none
      ↔ t.replayState.lastNodeSequence = 0 := by
  rw [h.last, Option.map_eq_none_iff, List.getLast?_eq_none_iff]
  constructor
  · intro he
    have hids := h.ids
    rw [he] at hids
    have := congrArg List.length hids
    simpa only [firstIds, List.length_map, List.length_range,
      List.map_nil, List.length_nil, eq_comm] using this
  · intro h0
    have hids := h.ids
    rw [h0] at hids
    exact List.map_eq_nil_iff.1 hids

/-- What was pruned lies at or below the last node event. -/
theorem LogInv.pruned_le (h : LogInv policy t log) {node : NodeReceipt}
    (hn : t.replayState.lastNode = some node) :
    t.replayState.prunedThroughCursor ≤ node.cursor := by
  rw [h.last] at hn
  obtain ⟨e, he, rfl⟩ := Option.map_eq_some_iff.1 hn
  rcases h.kept.attained with h0 | ⟨x, hx, hgone, hpos⟩
  · rw [h0]
    exact Nat.zero_le _
  · -- a deleted event is a node event, and so not after the last one
    have hnode : x ∈ nodes log := by
      refine mem_nodes.2 ⟨hx, ?_⟩
      by_contra hne
      exact hgone (h.others x hx hne)
    obtain ⟨front, hfront⟩ := List.getLast?_eq_some_iff.1 he
    have hord : Ordered ReplayEvent.cursor (nodes log) :=
      h.kept.ordered.filter _
    rw [hfront] at hnode hord
    rw [← hpos]
    rcases List.mem_append.1 hnode with hin | hin
    · exact Nat.le_of_lt ((List.pairwise_append.1 hord).2.2 x hin e
        (List.mem_singleton.2 rfl))
    · rw [List.mem_singleton.1 hin]
      exact Nat.le_refl _

/-- `lockReplayExecutionState` never finds the row inconsistent. -/
theorem LogInv.consistent (h : LogInv policy t log) :
    t.replayState.consistent = true := by
  unfold ReplayState.consistent
  rw [h.events, h.bytes, Bool.and_eq_true, Bool.and_eq_true]
  refine ⟨⟨?_, decide_eq_true (Int.natCast_nonneg _)⟩,
    decide_eq_true (Int.natCast_nonneg _)⟩
  split
  next hn => rw [h.last_none.1 hn]; rfl
  next node hn =>
    obtain ⟨-, hpos⟩ := h.lastId hn
    have hcur : 0 < node.cursor := by
      have hl := hn
      rw [h.last] at hl
      obtain ⟨e, he, rfl⟩ := Option.map_eq_some_iff.1 hl
      exact (h.cursors e (mem_nodes.1 (List.mem_of_getLast? he)).1).1
    simp only [Bool.and_eq_true, bne_iff_ne, decide_eq_true_eq]
    exact ⟨⟨Nat.ne_of_gt hpos, Nat.ne_of_gt hcur⟩, h.pruned_le hn⟩

end Facts

-- ================================================================ the moves

/-- Delete rows and account for them in the state row. -/
def Tables.deleted (t : Tables) (gone : ReplayEvent → Bool) : Tables :=
  { t.deleteEvents gone with
    replay := some { t.replayState with
      prunedThroughCursor := max t.replayState.prunedThroughCursor
        (maxCursor (t.events.filter gone))
      retainedProgressEvents := t.replayState.retainedProgressEvents
        - (t.events.filter gone).length
      retainedProgressBytes := t.replayState.retainedProgressBytes
        - totalSize (t.events.filter gone) } }

/-- Append a node event and account for it in the state row. -/
def Tables.noded (t : Tables) (f : NodeEventFrame) (now gap : Nat) :
    Tables :=
  { t.appendEvent now gap f.eventId .nodeEvent f.data with
    replay := some { t.replayState with
      lastNodeSequence := f.sequence
      lastNode := some ⟨f.eventId, f.data, t.nextCursor + gap⟩
      retainedProgressEvents := t.replayState.retainedProgressEvents + 1
      retainedProgressBytes :=
        t.replayState.retainedProgressBytes + f.data.size } }

/-- The append statement deletes and then appends. -/
theorem withNodeEvent_eq (t : Tables) (policy : RetentionPolicy)
    (now gap : Nat) (f : NodeEventFrame) :
    t.withNodeEvent policy now gap f
      = (t.deleted (overRetention policy t now f.data.size)).noded f now
          gap := rfl

/-- What a commit can do to the log. -/
inductive LogMove (policy : RetentionPolicy) (t t' : Tables) : Prop where
  | quiet (state : t'.replayState = t.replayState)
      (events : t'.events = t.events)
      (nextCursor : t'.nextCursor = t.nextCursor)
      (inbox : t'.inbox = [] → t.inbox = [])
  | appended (now gap : Nat) (f : NodeEventFrame)
      (frame : NextFrame policy t f)
      (h : t' = t.withNodeEvent policy now gap f)
  | closed (e : ReplayEvent) (state : t'.replayState = t.replayState)
      (events : t'.events = t.events ++ [e])
      (cursor : t.nextCursor ≤ e.cursor)
      (nextCursor : t'.nextCursor = e.cursor + 1)
      (other : e.type ≠ .nodeEvent) (storable : e.data.storable = true)
      (fresh : e.eventId ≠ .retirement →
        ∀ x ∈ t.events, x.eventId ≠ e.eventId)
      (apart : ∀ node ∈ t.replayState.lastNode, e.eventId ≠ node.eventId)
      (inbox : t'.inbox = [] → t.inbox = [] ∧ e.eventId = .retirement)
  | pruned (now n : Nat)
      (h : pruneExpiredReplayProgress policy t now = .ok (n, t'))

section Steps

variable {policy : RetentionPolicy} {t t' : Tables} {log : List ReplayEvent}

/-- The rows a commit adds to the log: those with a new cursor. -/
def newRows (t t' : Tables) : List ReplayEvent :=
  t'.events.filter fun e => decide (t.nextCursor ≤ e.cursor)

/-- They are the rows at the end. -/
theorem LogInv.newRows_eq (h : LogInv policy t log) {new : List ReplayEvent}
    (hev : t'.events = t.events.filter p ++ new)
    (hnew : ∀ e ∈ new, t.nextCursor ≤ e.cursor) : newRows t t' = new := by
  unfold newRows
  rw [hev, List.filter_append, List.filter_eq_nil_iff.2, List.nil_append,
    List.filter_eq_self.2]
  · exact fun e he => decide_eq_true (hnew e he)
  · intro e he
    rw [decide_eq_true_eq, Nat.not_le]
    exact h.event_lt (List.mem_filter.1 he).1

theorem LogInv.newRows_nil (h : LogInv policy t log)
    (hev : t'.events = t.events.filter p) : log ++ newRows t t' = log := by
  rw [h.newRows_eq (hev.trans (List.append_nil _).symm)
    fun _ hm => absurd hm List.not_mem_nil, List.append_nil]

theorem LogInv.quiet (h : LogInv policy t log)
    (state : t'.replayState = t.replayState)
    (events : t'.events = t.events)
    (next : t'.nextCursor = t.nextCursor)
    (inbox : t'.inbox = [] → t.inbox = []) :
    LogInv policy t' (log ++ newRows t t') := by
  have hprogress : t'.progress = t.progress := by
    unfold Tables.progress
    rw [events]
  rw [h.newRows_nil (events.trans (List.filter_true _).symm)]
  exact {
    kept := by rw [events, state]; exact h.kept
    positive := by rw [next]; exact h.positive
    cursors := by rw [next]; exact h.cursors
    storable := h.storable
    others := by rw [events]; exact h.others
    ids := by rw [state]; exact h.ids
    last := by rw [state]; exact h.last
    events := by rw [state, hprogress]; exact h.events
    bytes := by rw [state, hprogress]; exact h.bytes
    maxEvents := by rw [hprogress]; exact h.maxEvents
    maxBytes := by rw [hprogress]; exact h.maxBytes
    retired := fun hin => h.retired (inbox hin)
    unique := by rw [events]; exact h.unique
    apart := by rw [state]; exact h.apart }

/-- A row with a new output id keeps the ids apart. -/
theorem LogInv.unique_append (h : LogInv policy t log)
    (fresh : e.eventId ≠ .retirement → ∀ x ∈ t.events, x.eventId ≠ e.eventId) :
    ∀ a ∈ t.events ++ [e], ∀ b ∈ t.events ++ [e],
      a.eventId = b.eventId → a.eventId ≠ .retirement → a = b := by
  intro a ha b hb hid hne
  rcases List.mem_append.1 ha with ha | ha <;>
    rcases List.mem_append.1 hb with hb | hb
  · exact h.unique a ha b hb hid hne
  · rw [List.mem_singleton.1 hb] at hid
    exact absurd hid (fresh (hid ▸ hne) a ha)
  · rw [List.mem_singleton.1 ha] at hid hne
    exact absurd hid.symm (fresh hne b hb)
  · rw [List.mem_singleton.1 ha, List.mem_singleton.1 hb]

/-- A row that is no node event closes the log. -/
theorem LogInv.closed (h : LogInv policy t log)
    (state : t'.replayState = t.replayState)
    (events : t'.events = t.events ++ [e]) (cursor : t.nextCursor ≤ e.cursor)
    (next : t'.nextCursor = e.cursor + 1) (other : e.type ≠ .nodeEvent)
    (storable : e.data.storable = true)
    (fresh : e.eventId ≠ .retirement → ∀ x ∈ t.events, x.eventId ≠ e.eventId)
    (apart : ∀ node ∈ t.replayState.lastNode, e.eventId ≠ node.eventId)
    (inbox : t'.inbox = [] → t.inbox = [] ∧ e.eventId = .retirement) :
    LogInv policy t' (log ++ newRows t t') := by
  have hlog : newRows t t' = [e] :=
    h.newRows_eq (events.trans (by rw [List.filter_true]))
      fun x hx => List.mem_singleton.1 hx ▸ cursor
  have hnodes : nodes (log ++ [e]) = nodes log := by
    rw [nodes_append, nodes_single_other other, List.append_nil]
  have hprogress : t'.progress = t.progress := by
    change nodes t'.events = nodes t.events
    rw [events, nodes_append, nodes_single_other other, List.append_nil]
  have hlt : ∀ x ∈ log, x.cursor < e.cursor := fun x hx =>
    Nat.lt_of_lt_of_le (h.cursors x hx).2 cursor
  rw [hlog]
  exact {
    kept := by rw [events, state]; exact h.kept.append hlt
    positive := by rw [next]; exact Nat.succ_pos _
    cursors := by
      intro x hx
      rw [next]
      rcases List.mem_append.1 hx with hx | hx
      · exact ⟨(h.cursors x hx).1, Nat.lt_succ_of_lt (hlt x hx)⟩
      · rw [List.mem_singleton.1 hx]
        exact ⟨Nat.lt_of_lt_of_le h.positive cursor, Nat.lt_succ_self _⟩
    storable := by
      intro x hx
      rcases List.mem_append.1 hx with hx | hx
      · exact h.storable x hx
      · exact List.mem_singleton.1 hx ▸ storable
    others := by
      intro x hx hne
      rw [events]
      rcases List.mem_append.1 hx with hx | hx
      · exact List.mem_append_left _ (h.others x hx hne)
      · exact List.mem_append_right _ hx
    ids := by rw [hnodes, state]; exact h.ids
    last := by rw [hnodes, state]; exact h.last
    events := by rw [state, hprogress]; exact h.events
    bytes := by rw [state, hprogress]; exact h.bytes
    maxEvents := by rw [hprogress]; exact h.maxEvents
    maxBytes := by rw [hprogress]; exact h.maxBytes
    retired := by
      intro hin x hx hne
      rcases List.mem_append.1 hx with hx | hx
      · exact h.retired (inbox hin).1 x hx hne
      · exact List.mem_singleton.1 hx ▸ (inbox hin).2
    unique := by
      rw [events]
      exact h.unique_append fresh
    apart := by
      intro x hx hne
      rw [state]
      rcases List.mem_append.1 hx with hx | hx
      · exact h.apart x hx hne
      · exact List.mem_singleton.1 hx ▸ apart }

-- ================================================================== deletion

/-- Deleting node events takes them from the retained ones. -/
theorem progress_deleteEvents (t : Tables) (gone : ReplayEvent → Bool) :
    (t.deleteEvents gone).progress
      = t.progress.filter fun e => !gone e :=
  nodes_filter_comm t.events _

/-- What deletion leaves and takes adds up. -/
theorem progress_split (t : Tables) {gone : ReplayEvent → Bool}
    (hnode : ∀ e ∈ t.events, gone e = true → e.type = .nodeEvent) :
    (t.events.filter gone).length + (t.deleteEvents gone).progress.length
        = t.progress.length
      ∧ totalSize (t.events.filter gone)
          + totalSize (t.deleteEvents gone).progress
        = totalSize t.progress := by
  rw [progress_deleteEvents, filter_eq_filter_nodes hnode]
  exact ⟨(List.length_eq_length_filter_add _).symm, totalSize_filter _ _⟩

/-- Deleting node events with their account. -/
theorem LogInv.deleted (h : LogInv policy t log)
    {gone : ReplayEvent → Bool}
    (hnode : ∀ e ∈ t.events, gone e = true → e.type = .nodeEvent) :
    LogInv policy (t.deleted gone) log := by
  obtain ⟨hlen, hsize⟩ := progress_split t hnode
  exact {
    kept := h.kept.delete gone
    positive := h.positive
    cursors := h.cursors
    storable := h.storable
    others := by
      intro e he hne
      have hin := h.others e he hne
      refine List.mem_filter.2 ⟨hin, ?_⟩
      cases hg : gone e with
      | false => rfl
      | true => exact absurd (hnode e hin hg) hne
    ids := h.ids
    last := h.last
    events := by
      change t.replayState.retainedProgressEvents
          - ((t.events.filter gone).length : Int)
        = (t.deleteEvents gone).progress.length
      rw [h.events]
      omega
    bytes := by
      change t.replayState.retainedProgressBytes
          - (totalSize (t.events.filter gone) : Int)
        = totalSize (t.deleteEvents gone).progress
      rw [h.bytes]
      omega
    maxEvents := by
      refine Nat.le_trans ?_ h.maxEvents
      change (t.deleteEvents gone).progress.length ≤ _
      omega
    maxBytes := by
      refine Nat.le_trans ?_ h.maxBytes
      change totalSize (t.deleteEvents gone).progress ≤ _
      omega
    retired := h.retired
    unique := fun e he e' he' =>
      h.unique e (List.mem_filter.1 he).1 e' (List.mem_filter.1 he').1
    apart := h.apart }

/-- Appending the next node event where there is room for it. -/
theorem LogInv.noded (h : LogInv policy t log) {f : NodeEventFrame}
    (now gap : Nat)
    (next : f.sequence = t.replayState.lastNodeSequence + 1)
    (noOutput : t.inbox = []) (storable : f.data.storable = true)
    (room : t.progress.length + 1 ≤ policy.maxProgressEvents)
    (fits : totalSize t.progress + f.data.size
      ≤ policy.maxProgressBytes) :
    LogInv policy (t.noded f now gap)
      (log ++ [⟨t.nextCursor + gap, f.eventId, .nodeEvent, f.data,
        now⟩]) := by
  have hcur : t.nextCursor ≤ t.nextCursor + gap := Nat.le_add_right _ _
  have hlt : ∀ x ∈ log, x.cursor < t.nextCursor + gap := fun x hx =>
    Nat.lt_of_lt_of_le (h.cursors x hx).2 hcur
  generalize he : (⟨t.nextCursor + gap, f.eventId, .nodeEvent, f.data,
    now⟩ : ReplayEvent) = e
  have hcursor : e.cursor = t.nextCursor + gap := he ▸ rfl
  have htype : e.type = .nodeEvent := he ▸ rfl
  have hevents : (t.noded f now gap).events = t.events ++ [e] := he ▸ rfl
  have hnodes : nodes (log ++ [e]) = nodes log ++ [e] := by
    rw [nodes_append, nodes_single_node htype]
  have hprogress : (t.noded f now gap).progress = t.progress ++ [e] := by
    change nodes _ = nodes t.events ++ [e]
    rw [hevents, nodes_append, nodes_single_node htype]
  have hsize : totalSize (t.progress ++ [e])
      = totalSize t.progress + f.data.size := by
    rw [totalSize_append, ← he]
    rfl
  exact {
    kept := by
      rw [hevents]
      exact h.kept.append fun x hx => hcursor ▸ hlt x hx
    positive := Nat.succ_pos _
    cursors := by
      intro x hx
      rcases List.mem_append.1 hx with hx | hx
      · exact ⟨(h.cursors x hx).1, Nat.lt_succ_of_lt (hlt x hx)⟩
      · rw [List.mem_singleton.1 hx, hcursor]
        exact ⟨Nat.lt_of_lt_of_le h.positive hcur, Nat.lt_succ_self _⟩
    storable := by
      intro x hx
      rcases List.mem_append.1 hx with hx | hx
      · exact h.storable x hx
      · rw [List.mem_singleton.1 hx, ← he]
        exact storable
    others := by
      intro x hx hne
      rw [hevents]
      rcases List.mem_append.1 hx with hx | hx
      · exact List.mem_append_left _ (h.others x hx hne)
      · exact List.mem_append_right _ hx
    ids := by
      rw [hnodes, List.map_append, h.ids]
      change _ = firstIds f.sequence
      rw [next, firstIds_succ, ← next, ← he]
      rfl
    last := by
      rw [hnodes, List.getLast?_concat, ← he]
      rfl
    events := by
      rw [hprogress, List.length_append]
      change t.replayState.retainedProgressEvents + 1 = _
      rw [h.events]
      rfl
    bytes := by
      rw [hprogress, hsize]
      change t.replayState.retainedProgressBytes + (f.data.size : Int) = _
      rw [h.bytes]
      rfl
    maxEvents := by
      rw [hprogress, List.length_append]
      exact room
    maxBytes := by
      rw [hprogress, hsize]
      exact fits
    retired := by
      intro hin x hx hne
      rcases List.mem_append.1 hx with hx | hx
      · exact h.retired hin x hx hne
      · rw [List.mem_singleton.1 hx] at hne
        exact absurd htype hne
    unique := by
      rw [hevents]
      refine h.unique_append fun _ x hx => ?_
      rw [← he]
      exact h.fresh noOutput (Nat.lt_of_lt_of_eq (Nat.lt_succ_self _)
        next.symm) x hx
    apart := by
      intro x hx hne node hnode hid
      rcases List.mem_append.1 hx with hx | hx
      · rw [h.retired noOutput x hx hne, ← Option.some.inj hnode] at hid
        cases hid
      · rw [List.mem_singleton.1 hx] at hne
        exact absurd htype hne }

/-- The retention bounds leave room for the frame: the oldest row that
stays has few enough rows and bytes from it on. -/
theorem room_of_overRetention (ho : Ordered ReplayEvent.cursor t.progress)
    {size : Nat} (hsize : size ≤ policy.maxProgressBytes) :
    let rest := t.progress.filter fun e => !overRetention policy t now size e
    rest.length + 1 ≤ policy.maxProgressEvents
      ∧ totalSize rest + size ≤ policy.maxProgressBytes := by
  intro rest
  cases hrest : rest with
  | nil =>
      refine ⟨policy.events_pos, ?_⟩
      change 0 + size ≤ _
      rwa [Nat.zero_add]
  | cons oldest others =>
      have hmem : oldest ∈ rest := hrest ▸ List.mem_cons_self
      obtain ⟨hprog, hkeep⟩ := List.mem_filter.1 hmem
      have hnode : oldest.type = .nodeEvent := (mem_nodes.1 hprog).2
      -- everything that stays is as new as the oldest
      have hnewer : ∀ e ∈ rest, oldest.cursor ≤ e.cursor := by
        have hord : Ordered ReplayEvent.cursor rest := ho.filter _
        rw [hrest] at hord ⊢
        intro e he
        rcases List.mem_cons.1 he with rfl | he
        · exact Nat.le_refl _
        · exact Nat.le_of_lt ((List.pairwise_cons.1 hord).1 e he)
      have hsub : rest.Sublist (t.progress.filter fun other =>
          decide (oldest.cursor ≤ other.cursor)) := by
        have hself : rest.filter (fun other =>
            decide (oldest.cursor ≤ other.cursor)) = rest :=
          List.filter_eq_self.2 fun e he => decide_eq_true (hnewer e he)
        rw [← hself]
        exact List.filter_sublist.filter _
      simp only [overRetention, hnode, beq_self_eq_true, Bool.true_and,
        Bool.not_eq_true', Bool.or_eq_false_iff, decide_eq_false_iff_not,
        Nat.not_le, Nat.not_lt] at hkeep
      rw [← hrest]
      refine ⟨Nat.lt_of_le_of_lt hsub.length_le hkeep.1.2, ?_⟩
      exact Nat.le_trans
        (Nat.add_le_add_right (totalSize_sublist hsub) size) hkeep.2

theorem overRetention_node {size : Nat}
    (h : overRetention policy t now size e = true) : e.type = .nodeEvent := by
  unfold overRetention at h
  rw [Bool.and_eq_true, beq_iff_eq] at h
  exact h.1

/-- The append statement keeps the log. -/
theorem LogInv.appended (h : LogInv policy t log) {f : NodeEventFrame}
    (now gap : Nat) (frame : NextFrame policy t f) :
    LogInv policy (t.withNodeEvent policy now gap f)
      (log ++ newRows t (t.withNodeEvent policy now gap f)) := by
  have hnew : newRows t (t.withNodeEvent policy now gap f)
      = [⟨t.nextCursor + gap, f.eventId, .nodeEvent, f.data, now⟩] := by
    refine h.newRows_eq rfl fun e he => ?_
    rw [List.mem_singleton.1 he]
    exact Nat.le_add_right _ _
  have room := @room_of_overRetention now policy t
    (h.kept.keptOrdered.filter _) _ frame.fits
  rw [hnew, withNodeEvent_eq]
  refine (h.deleted fun e _ hg => overRetention_node hg).noded now gap
    frame.next frame.noOutput frame.storable ?_ ?_
  · exact progress_deleteEvents t _ ▸ room.1
  · exact progress_deleteEvents t _ ▸ room.2

-- =================================================================== janitor

theorem withinBytes_sublist (budget : Nat) (events : List ReplayEvent) :
    (withinBytes budget events).Sublist events := by
  induction events generalizing budget with
  | nil => exact .refl []
  | cons e rest ih =>
      unfold withinBytes
      split
      next => exact (ih _).cons_cons e
      next => exact List.nil_sublist _

theorem expiredProgress_sublist (policy : RetentionPolicy) (t : Tables)
    (now : Nat) : (expiredProgress policy t now).Sublist t.progress :=
  (withinBytes_sublist _ _).trans
    ((List.take_sublist _ _).trans List.filter_sublist)

/-- A janitor pass deletes the expired rows with their account. -/
theorem LogInv.pruned_eq (h : LogInv policy t log)
    (hp : pruneExpiredReplayProgress policy t now = .ok (n, t')) :
    t' = t.deleted fun e => (expiredProgress policy t now).contains e := by
  have hsub := expiredProgress_sublist policy t now
  have hfilter : t.events.filter
      (fun e => (expiredProgress policy t now).contains e)
      = expiredProgress policy t now := by
    rw [← filter_eq_of_sublist _ (hsub.trans List.filter_sublist)
      h.kept.keptOrdered fun e _ he => List.contains_iff_mem.1 he]
    exact List.filter_eq_self.2 fun e he => List.contains_iff_mem.2 he
  unfold pruneExpiredReplayProgress at hp
  split at hp
  next => cases hp
  next s hs =>
    split at hp
    next => cases hp
    next =>
      have hstate : t.replayState = s := by
        unfold Tables.replayState
        rw [hs]
        rfl
      obtain ⟨-, rfl⟩ := Prod.mk.inj (Except.ok.inj hp)
      unfold Tables.deleted
      rw [hstate, hfilter]

/-- A janitor pass keeps the log. -/
theorem LogInv.pruned (h : LogInv policy t log)
    (hp : pruneExpiredReplayProgress policy t now = .ok (n, t')) :
    LogInv policy t' (log ++ newRows t t') := by
  rw [h.pruned_eq hp, h.newRows_nil rfl]
  refine h.deleted fun e _ he => ?_
  exact (mem_nodes.1 ((expiredProgress_sublist policy t now).subset
    (List.contains_iff_mem.1 he))).2

/-- Every move keeps the log. -/
theorem LogInv.move (h : LogInv policy t log) (hm : LogMove policy t t') :
    LogInv policy t' (log ++ newRows t t') := by
  cases hm with
  | quiet state events next inbox => exact h.quiet state events next inbox
  | appended now gap f frame he => exact he ▸ h.appended now gap frame
  | closed e state events cursor next other storable fresh apart inbox =>
      exact h.closed state events cursor next other storable fresh apart
        inbox
  | pruned now n hp => exact h.pruned hp

end Steps

end Elitea.Executions
