/-
What a client of the durable event stream has received.

# Nothing is lost silently

A client reads page after page from the last cursor it has. One page is a
contiguous piece of the log (`replay_page`), as long as nothing above the
page's start is pruned between the two statements of the read: the first
one says whether the client fell behind, the second one finds the rows,
and a row that goes in between is missing from the page without a reset.
So the guard of the runs (`Unraced`) is about that gap and nothing else.
`Reads` is what then holds of the client in every state: its cursors go
up, and each event up to the last one was delivered or lies at or below a
reset.

# Cursors stay known

Every cursor a client was given is zero, the cursor of an event of the
log, or one the log has pruned past (`KnownCursor`), and stays so: a read
from it is answered by rows or by a reset, never refused.
-/
import Elitea.Executions.Proofs.OutputLog

namespace Elitea.Executions

open Elitea.Lib Elitea.Lib.PrunedLog

variable {pruned : Nat} {rest : List ReplayEvent} {e : ReplayEvent}

-- ================================================================== one page

section Page

variable {policy : RetentionPolicy} {seen t : Tables}
  {seenLog log : List ReplayEvent} {after limit : Nat}
  {events : List DurableEvent}

theorem prunedThrough_eq (t : Tables) :
    t.prunedThrough = t.replayState.prunedThroughCursor := by
  unfold Tables.prunedThrough Tables.replayState
  cases t.replay <;> rfl

/-- Rows within the bounds are delivered up to the first hidden one. -/
theorem deliver_eq {rows : List ReplayEvent}
    (h : ∀ e ∈ rows, 0 < e.cursor ∧ e.data.storable = true) :
    deliver t rows = .ok ((rows.takeWhile (visible t)).map .event) := by
  induction rows with
  | nil => rfl
  | cons e rest ih =>
      obtain ⟨hpos, hst⟩ := h e List.mem_cons_self
      unfold deliver
      rw [ih fun x hx => h x (List.mem_cons_of_mem e hx), hst,
        decide_eq_false (Nat.ne_of_gt hpos)]
      cases hv : visible t e with
      | false =>
          rw [List.takeWhile_cons_of_neg (by rw [hv]; exact
            Bool.false_ne_true)]
          rfl
      | true =>
          rw [List.takeWhile_cons_of_pos hv]
          rfl

/-- The rows after a cursor that nothing above was pruned of are a page
of the log. -/
theorem LogInv.deliver_rows (h : LogInv policy t log) (base limit : Nat)
    (hbase : t.prunedThrough ≤ base) :
    deliver t (t.rowsAfter base limit)
      = .ok ((((log.filter fun e => decide (base < e.cursor)).take
          limit).takeWhile (visible t)).map .event) := by
  rw [prunedThrough_eq] at hbase
  unfold Tables.rowsAfter
  rw [h.kept.after hbase, deliver_eq]
  intro e he
  have hlog := (List.mem_filter.1 (List.mem_of_mem_take he)).1
  exact ⟨(h.cursors e hlog).1, h.storable e hlog⟩

/-- Delivering part of the rows: what is delivered and what is left. -/
theorem page_split (rows : List ReplayEvent) (limit : Nat)
    (p : ReplayEvent → Bool) :
    ∃ rest, rows = (rows.take limit).takeWhile p ++ rest :=
  ⟨(rows.take limit).dropWhile p ++ rows.drop limit, by
    rw [← List.append_assoc, List.takeWhile_append_dropWhile,
      List.take_append_drop]⟩

theorem mem_page {base : Nat} {page : List ReplayEvent}
    (h : log.filter (fun e => decide (base < e.cursor)) = page ++ rest)
    (he : e ∈ page) : e ∈ log ∧ base < e.cursor := by
  have hm : e ∈ log.filter fun e => decide (base < e.cursor) :=
    h ▸ List.mem_append_left rest he
  exact ⟨(List.mem_filter.1 hm).1,
    of_decide_eq_true (List.mem_filter.1 hm).2⟩

/-- An answer of a read that no pruning overtook: a page of the log, after
the cursor asked from or after a reset. -/
inductive Page (log : List ReplayEvent) (pruned after : Nat) :
    List DurableEvent → Prop where
  | rows {page rest : List ReplayEvent} (current : pruned ≤ after)
      (h : log.filter (fun e => decide (after < e.cursor)) = page ++ rest) :
      Page log pruned after (page.map .event)
  | reset {page rest : List ReplayEvent} (behind : after < pruned)
      (h : log.filter (fun e => decide (pruned < e.cursor))
        = page ++ rest) :
      Page log pruned after (.reset pruned :: page.map .event)

theorem LogInv.replay_page (h : LogInv policy t log)
    (hrace : t.prunedThrough ≤ max after seen.prunedThrough)
    (hr : replay seen t after limit = .ok events) :
    Page log seen.prunedThrough after events := by
  unfold replay at hr
  dsimp only at hr
  split at hr
  next => cases hr
  next =>
    split at hr
    next hlt =>
      rw [Nat.max_eq_right (Nat.le_of_lt hlt)] at hrace
      split at hr
      next =>
        obtain rfl := Except.ok.inj hr
        exact @Page.reset _ _ _ [] _ hlt rfl
      next =>
        rw [h.deliver_rows _ _ hrace] at hr
        obtain rfl := Except.ok.inj hr
        obtain ⟨rest, hrest⟩ := page_split _ _ _
        exact .reset hlt hrest
    next hge =>
      rw [Nat.not_lt] at hge
      rw [Nat.max_eq_left hge] at hrace
      split at hr
      next => cases hr
      next =>
        split at hr
        next =>
          obtain rfl := Except.ok.inj hr
          exact @Page.rows _ _ _ [] _ hge rfl
        next =>
          rw [h.deliver_rows _ _ hrace] at hr
          obtain rfl := Except.ok.inj hr
          obtain ⟨rest, hrest⟩ := page_split _ _ _
          exact .rows hge hrest

end Page

-- ================================================================ the client

/-- The client has what its cursors say. -/
structure Reads (log : List ReplayEvent) (c : Client) : Prop where
  cursor : c.cursor = lastCursor c.start c.delivered
  increasing : (c.start :: c.delivered.map DurableEvent.cursor).Pairwise
    (· < ·)
  real : ∀ e, .event e ∈ c.delivered → e ∈ log
  complete : ∀ e ∈ log, c.start < e.cursor → e.cursor ≤ c.cursor →
    .event e ∈ c.delivered
      ∨ ∃ r, .reset r ∈ c.delivered ∧ e.cursor ≤ r

theorem Reads.attach (log : List ReplayEvent) (cursor : Nat) :
    Reads log ⟨cursor, cursor, []⟩ where
  cursor := rfl
  increasing := List.pairwise_singleton _ _
  real _ h := absurd h List.not_mem_nil
  complete _ _ hlt hle := absurd hlt (Nat.not_lt.2 hle)

section Client

variable {log : List ReplayEvent} {c : Client}

theorem lastCursor_append (after : Nat) (a b : List DurableEvent) :
    lastCursor after (a ++ b) = lastCursor (lastCursor after a) b := by
  unfold lastCursor
  rw [List.getLast?_append]
  cases b.getLast? with
  | none => rfl
  | some x => rfl

theorem receive_append (c : Client) (a b : List DurableEvent) :
    c.receive (a ++ b) = (c.receive a).receive b := by
  simp only [Client.receive, lastCursor_append, List.append_assoc]

/-- The last cursor is the largest. -/
theorem Reads.le_cursor (h : Reads log c) :
    ∀ x ∈ c.start :: c.delivered.map DurableEvent.cursor,
      x ≤ c.cursor := by
  intro x hx
  rw [h.cursor]
  unfold lastCursor
  rcases List.eq_nil_or_concat c.delivered with hnil | ⟨front, d, hd⟩
  · rw [hnil] at hx ⊢
    exact Nat.le_of_eq (List.mem_singleton.1 hx)
  · rw [List.concat_eq_append] at hd
    have hinc := h.increasing
    rw [hd, List.map_append, ← List.cons_append] at hx hinc
    rw [hd, List.getLast?_concat]
    rcases List.mem_append.1 hx with hx | hx
    · exact Nat.le_of_lt ((List.pairwise_append.1 hinc).2.2 x hx _
        (List.mem_singleton.2 rfl))
    · exact Nat.le_of_eq (List.mem_singleton.1 hx)

/-- Further cursors above the last one keep the order. -/
theorem Reads.increasing_append (h : Reads log c)
    {new : List DurableEvent}
    (hnew : (new.map DurableEvent.cursor).Pairwise (· < ·))
    (habove : ∀ d ∈ new, c.cursor < d.cursor) :
    (c.start :: (c.delivered ++ new).map DurableEvent.cursor).Pairwise
      (· < ·) := by
  rw [List.map_append, ← List.cons_append]
  refine List.pairwise_append.2 ⟨h.increasing, hnew, fun x hx y hy => ?_⟩
  obtain ⟨d, hd, rfl⟩ := List.mem_map.1 hy
  exact Nat.lt_of_le_of_lt (h.le_cursor x hx) (habove d hd)

theorem Reads.receive_cursor (h : Reads log c) (new : List DurableEvent) :
    (c.receive new).cursor
      = lastCursor c.start (c.delivered ++ new) := by
  rw [lastCursor_append, ← h.cursor]
  rfl

theorem Reads.reset (h : Reads log c) (hlt : c.cursor < pruned) :
    Reads log (c.receive [.reset pruned]) where
  cursor := h.receive_cursor _
  increasing := by
    refine h.increasing_append (List.pairwise_singleton _ _) fun d hd => ?_
    rw [List.mem_singleton.1 hd]
    exact hlt
  real e he := by
    rcases List.mem_append.1 he with he | he
    · exact h.real e he
    · cases List.mem_singleton.1 he
  complete e _ _ hle := .inr ⟨pruned,
    List.mem_append_right _ (List.mem_singleton.2 rfl), hle⟩

/-- Of a page, the last cursor parts what was delivered from what is
left. -/
theorem lastCursor_page {after : Nat} {page : List ReplayEvent}
    (ho : Ordered ReplayEvent.cursor log)
    (hpage : log.filter (fun e => decide (after < e.cursor)) = page ++ rest) :
    (∀ e ∈ page, e.cursor ≤ lastCursor after (page.map .event))
      ∧ ∀ e ∈ rest, lastCursor after (page.map .event) < e.cursor := by
  have hrows := ho.filter fun e => decide (after < e.cursor)
  rw [hpage] at hrows
  obtain ⟨hfront, -, hsplit⟩ := List.pairwise_append.1 hrows
  rcases List.eq_nil_or_concat page with rfl | ⟨front, x, rfl⟩
  · refine ⟨fun _ he => absurd he List.not_mem_nil, fun e he => ?_⟩
    have hm : e ∈ log.filter fun e => decide (after < e.cursor) :=
      hpage ▸ he
    exact of_decide_eq_true (List.mem_filter.1 hm).2
  · rw [List.concat_eq_append] at hfront hsplit ⊢
    have hlast : lastCursor after ((front ++ [x]).map .event)
        = x.cursor := by
      unfold lastCursor
      rw [List.map_append, List.map_singleton, List.getLast?_concat]
      rfl
    rw [hlast]
    refine ⟨fun e he => ?_, fun e he => hsplit x
      (List.mem_append_right _ (List.mem_singleton.2 rfl)) e he⟩
    rcases List.mem_append.1 he with he | he
    · exact Nat.le_of_lt ((List.pairwise_append.1 hfront).2.2 e he x
        (List.mem_singleton.2 rfl))
    · exact Nat.le_of_eq (congrArg _ (List.mem_singleton.1 he))

theorem Reads.page (h : Reads log c) (ho : Ordered ReplayEvent.cursor log)
    {page : List ReplayEvent}
    (hpage : log.filter (fun e => decide (c.cursor < e.cursor)) = page ++ rest)
    : Reads log (c.receive (page.map .event)) := by
  refine ⟨h.receive_cursor _, ?_, fun e he => ?_, fun e he hs hle => ?_⟩
  · refine h.increasing_append ?_ fun d hd => ?_
    · have hrows := ho.filter fun e => decide (c.cursor < e.cursor)
      rw [hpage] at hrows
      rw [List.map_map]
      exact List.pairwise_map.2 (List.pairwise_append.1 hrows).1
    · obtain ⟨e, he, rfl⟩ := List.mem_map.1 hd
      exact (mem_page hpage he).2
  · rcases List.mem_append.1 he with he | he
    · exact h.real e he
    · obtain ⟨e', he', heq⟩ := List.mem_map.1 he
      cases heq
      exact (mem_page hpage he').1
  · by_cases hold : e.cursor ≤ c.cursor
    · refine (h.complete e he hs hold).imp
        (fun hd => List.mem_append_left _ hd) fun ⟨r, hr, hler⟩ =>
        ⟨r, List.mem_append_left _ hr, hler⟩
    · -- the event is on the page, since what is left lies above it
      have hm : e ∈ page ++ rest :=
        hpage ▸ List.mem_filter.2 ⟨he, decide_eq_true
          (Nat.lt_of_not_le hold)⟩
      rcases List.mem_append.1 hm with hm | hm
      · exact .inl (List.mem_append_right _ (List.mem_map_of_mem hm))
      · exact absurd ((lastCursor_page ho hpage).2 e hm)
          (Nat.not_lt.2 hle)

/-- An answer keeps what the client has. -/
theorem Reads.receive (h : Reads log c) (ho : Ordered ReplayEvent.cursor log)
    {events : List DurableEvent} (hpage : Page log pruned c.cursor events) :
    Reads log (c.receive events) := by
  cases hpage with
  | rows _ hrows => exact h.page ho hrows
  | @reset page rest hlt hrows =>
      have hreset := h.reset hlt
      have split : (DurableEvent.reset pruned :: page.map .event)
          = [.reset pruned] ++ page.map .event := rfl
      rw [split, receive_append]
      exact hreset.page ho hrows

/-- A log that grows above the client's cursor changes nothing for it. -/
theorem Reads.grows (h : Reads log c) {new : List ReplayEvent}
    (hnew : ∀ e ∈ new, c.cursor < e.cursor) : Reads (log ++ new) c where
  cursor := h.cursor
  increasing := h.increasing
  real e he := List.mem_append_left _ (h.real e he)
  complete e he hs hle := by
    rcases List.mem_append.1 he with he | he
    · exact h.complete e he hs hle
    · exact absurd (hnew e he) (Nat.not_lt.2 hle)

end Client

-- ============================================================ known cursors

/-- The log knows the cursor, or has pruned past it. -/
def KnownCursor (t : Tables) (log : List ReplayEvent) (cursor : Nat) : Prop :=
  cursor = 0 ∨ cursor ≤ t.prunedThrough ∨ ∃ e ∈ log, e.cursor = cursor

/-- A terminal's row of the log: neither a node event nor a retirement. -/
def ReplayEvent.final (e : ReplayEvent) : Prop :=
  e.type ≠ .nodeEvent ∧ e.eventId ≠ .retirement

section Cursors

variable {policy : RetentionPolicy} {t : Tables} {log : List ReplayEvent}
  {cursor : Nat}

/-- What was pruned is zero or the cursor of an event of the log. -/
theorem LogInv.pruned_attained (h : LogInv policy t log) :
    t.prunedThrough = 0
      ∨ ∃ e ∈ log, e ∉ t.events ∧ e.cursor = t.prunedThrough := by
  rw [prunedThrough_eq]
  exact h.kept.attained

/-- A known cursor lies below all that is still to come. -/
theorem KnownCursor.lt_next (hk : KnownCursor t log cursor)
    (h : LogInv policy t log) : cursor < t.nextCursor := by
  rcases hk with rfl | hle | ⟨e, he, rfl⟩
  · exact h.positive
  · rcases h.pruned_attained with h0 | ⟨e, he, -, hc⟩
    · exact Nat.lt_of_le_of_lt (h0 ▸ hle) h.positive
    · exact Nat.lt_of_le_of_lt (hc ▸ hle) (h.cursors e he).2
  · exact (h.cursors e he).2

theorem le_maxCursor {events : List ReplayEvent} (h : e ∈ events) :
    e.cursor ≤ maxCursor events :=
  PrunedLog.le_top h

theorem highCursor_eq (t : Tables) :
    t.highCursor
      = max ((t.replayState.lastNode.map NodeReceipt.cursor).getD 0)
          (maxCursor t.events) := by
  unfold Tables.highCursor Tables.replayState
  cases t.replay <;> rfl

/-- The log reaches as far as its largest cursor. -/
theorem LogInv.high_eq (h : LogInv policy t log) :
    t.highCursor = maxCursor log := by
  rw [highCursor_eq, h.last, Option.map_map]
  refine Nat.le_antisymm (Nat.max_le.2 ⟨?_, ?_⟩) (top_le fun e he => ?_)
  · cases hn : (nodes log).getLast? with
    | none => exact Nat.zero_le _
    | some e =>
        exact le_maxCursor (mem_nodes.1 (List.mem_of_getLast? hn)).1
  · exact top_le fun e he => le_maxCursor (h.kept.sub.subset he)
  · -- a node event is not after the last one, all others are retained
    by_cases hnode : e.type = .nodeEvent
    · have hm : e ∈ nodes log := mem_nodes.2 ⟨he, hnode⟩
      cases hn : (nodes log).getLast? with
      | none =>
          rw [List.getLast?_eq_none_iff] at hn
          exact absurd hm (hn ▸ List.not_mem_nil)
      | some x =>
          obtain ⟨front, hf⟩ := List.getLast?_eq_some_iff.1 hn
          have hord : Ordered ReplayEvent.cursor (nodes log) :=
            h.kept.ordered.filter _
          refine Nat.le_trans ?_ (Nat.le_max_left _ _)
          rw [hf] at hm hord
          rcases List.mem_append.1 hm with hm | hm
          · exact Nat.le_of_lt ((List.pairwise_append.1 hord).2.2 e hm x
              (List.mem_singleton.2 rfl))
          · exact Nat.le_of_eq (congrArg _ (List.mem_singleton.1 hm))
    · exact Nat.le_trans (le_maxCursor (h.others e he hnode))
        (Nat.le_max_right _ _)

theorem LogInv.pruned_le_high (h : LogInv policy t log) :
    t.prunedThrough ≤ t.highCursor := by
  rw [h.high_eq]
  rcases h.pruned_attained with h0 | ⟨e, he, -, hc⟩
  · rw [h0]
    exact Nat.zero_le _
  · rw [← hc]
    exact le_maxCursor he

/-- A known cursor at or above what was pruned is recognized. -/
theorem KnownCursor.recognized (hk : KnownCursor t log cursor)
    (h : LogInv policy t log) (hge : t.prunedThrough ≤ cursor) :
    cursor ≤ t.highCursor ∧ t.recognizes cursor = true := by
  have hrec : ∀ c, (c = 0 ∨ c = t.prunedThrough
      ∨ ∃ e ∈ t.events, e.cursor = c) → t.recognizes c = true := by
    intro c hc
    simp only [Tables.recognizes, Bool.or_eq_true, beq_iff_eq,
      List.any_eq_true, or_assoc]
    exact hc
  rcases hk with rfl | hle | ⟨e, he, rfl⟩
  · exact ⟨Nat.zero_le _, hrec 0 (.inl rfl)⟩
  · have heq := Nat.le_antisymm hle hge
    exact ⟨heq ▸ h.pruned_le_high, hrec _ (.inr (.inl heq))⟩
  · refine ⟨h.high_eq ▸ le_maxCursor he, hrec _ ?_⟩
    by_cases hkept : e ∈ t.events
    · exact .inr (.inr ⟨e, hkept, rfl⟩)
    · have hle := h.kept.gone e he hkept
      rw [← prunedThrough_eq] at hle
      exact .inr (.inl (Nat.le_antisymm hle hge))

/-- A terminal's row lies above all that was pruned, if every node event
lies below it. -/
theorem LogInv.final_above (h : LogInv policy t log) (he : e ∈ log)
    (hlast : ∀ x ∈ log, x.type = .nodeEvent → x.cursor < e.cursor) :
    t.prunedThrough < e.cursor := by
  rcases h.pruned_attained with h0 | ⟨x, hx, hgone, hc⟩
  · rw [h0]
    exact (h.cursors e he).1
  · rw [← hc]
    refine hlast x hx ?_
    by_contra hne
    exact hgone (h.others x hx hne)

end Cursors

-- ============================================================== the invariant

/-- What holds of the client in a state. -/
structure ReaderInv (w : World) : Prop where
  reads : Reads w.log w.client
  resets : ∀ r, .reset r ∈ w.client.delivered → r ≤ w.tables.prunedThrough
  given : ∀ c ∈ w.given, KnownCursor w.tables w.log c
  known : KnownCursor w.tables w.log w.client.cursor
  finals : ∀ e ∈ w.log, e.final → ∀ x ∈ w.log, x.type = .nodeEvent →
    x.cursor < e.cursor

/-- The cursor a read asks from. -/
def Op.readsFrom : Op → Option Nat
  | .replay after _ => some after
  | _ => none

/-- No pruning overtakes a read between its two statements. -/
def Unraced (s : State) (l : Label) : Prop :=
  ∀ call ∈ Sessions.finishing s l, ∀ after ∈ call.op.readsFrom,
    s.world.tables.prunedThrough
      ≤ max after call.seen.tables.prunedThrough

instance (s : State) (l : Label) : Decidable (Unraced s l) :=
  inferInstanceAs (Decidable (∀ call ∈ Sessions.finishing s l, _))

section Commit

variable {cfg : Config} {w w' : World} {now : Nat} {call : Call}
  {choice : Choice} {a : Answer}

/-- A commit's new rows lie above all cursors there were. -/
theorem newRows_above {t t' : Tables} :
    ∀ e ∈ newRows t t', t.nextCursor ≤ e.cursor :=
  fun _ he => of_decide_eq_true (List.mem_filter.1 he).2

theorem KnownCursor.grows {t t' : Tables} {log new : List ReplayEvent}
    {cursor : Nat} (h : KnownCursor t log cursor)
    (hle : t.prunedThrough ≤ t'.prunedThrough) :
    KnownCursor t' (log ++ new) cursor := by
  rcases h with h | h | ⟨e, he, h⟩
  · exact .inl h
  · exact .inr (.inl (Nat.le_trans h hle))
  · exact .inr (.inr ⟨e, List.mem_append_left _ he, h⟩)

/-- What was pruned only grows. -/
theorem Sound.pruned_mono (h : Sound cfg w)
    (hc : Commits cfg w now call choice a w') :
    w.tables.prunedThrough ≤ w'.tables.prunedThrough := by
  rw [prunedThrough_eq, prunedThrough_eq]
  cases (hc.logEffect h.claims).logMove h.inbox h.log with
  | quiet state _ _ _ => rw [state]
  | closed e state _ _ _ _ _ _ _ _ => rw [state]
  | appended now gap f frame he =>
      rw [he]
      exact Nat.le_max_left _ _
  | pruned now n hp =>
      rw [h.log.pruned_eq hp]
      exact Nat.le_max_left _ _

/-- Nothing follows a terminal's row but other such rows. -/
theorem ReaderInv.finals_commit (h : ReaderInv w) (hs : Sound cfg w)
    (hc : Commits cfg w now call choice a w') :
    ∀ e ∈ w'.log, e.final → ∀ x ∈ w'.log, x.type = .nodeEvent →
      x.cursor < e.cursor := by
  have hmove := (hc.logEffect hs.claims).logMove hs.inbox hs.log
  rw [hc.log_eq hs.log]
  intro e he hfin x hx hnode
  rcases List.mem_append.1 hx with hx | hx
  · rcases List.mem_append.1 he with he | he
    · exact h.finals e he hfin x hx hnode
    · exact Nat.lt_of_lt_of_le (hs.log.cursors x hx).2
        (newRows_above e he)
  · -- a new node event found no terminal output
    have hin : w'.tables.inbox = [] := by
      by_contra hne
      have hfrozen := (hs.log.frozen hmove hne).2
      rw [nodes_append] at hfrozen
      have hnil := List.append_right_eq_self.1 hfrozen
      exact absurd (mem_nodes.2 ⟨hx, hnode⟩) (hnil ▸ List.not_mem_nil)
    have hret := (hs.log.move hmove).retired hin e he hfin.1
    exact absurd hret hfin.2

/-- A commit that leaves the client alone. -/
theorem ReaderInv.still (h : ReaderInv w) (hs : Sound cfg w)
    (hc : Commits cfg w now call choice a w')
    (hclient : w'.client = w.client) (hgiven : w'.given = w.given) :
    ReaderInv w' := by
  have hlog := hc.log_eq hs.log
  have hmono := hs.pruned_mono hc
  refine ⟨?_, ?_, ?_, ?_, h.finals_commit hs hc⟩
  · rw [hlog, hclient]
    exact h.reads.grows fun e he => Nat.lt_of_lt_of_le
      (h.known.lt_next hs.log) (newRows_above e he)
  · rw [hclient]
    exact fun r hr => Nat.le_trans (h.resets r hr) hmono
  · rw [hgiven, hlog]
    exact fun c hm => (h.given c hm).grows hmono
  · rw [hclient, hlog]
    exact h.known.grows hmono

/-- Every cursor of an answer is known. -/
theorem Page.known {t : Tables} {log : List ReplayEvent} {after : Nat}
    {events : List DurableEvent} (h : Page log pruned after events)
    (hle : pruned ≤ t.prunedThrough) :
    ∀ d ∈ events, KnownCursor t log d.cursor := by
  intro d hd
  cases h with
  | rows _ hrows =>
      obtain ⟨e, he, rfl⟩ := List.mem_map.1 hd
      exact .inr (.inr ⟨e, (mem_page hrows he).1, rfl⟩)
  | reset hlt hrows =>
      rcases List.mem_cons.1 hd with rfl | hd
      · exact .inr (.inl hle)
      · obtain ⟨e, he, rfl⟩ := List.mem_map.1 hd
        exact .inr (.inr ⟨e, (mem_page hrows he).1, rfl⟩)

/-- Every cursor of an answer lies above the one asked from. -/
theorem Page.above {log : List ReplayEvent} {after : Nat}
    {events : List DurableEvent} (h : Page log pruned after events) :
    ∀ d ∈ events, after < d.cursor := by
  intro d hd
  cases h with
  | rows _ hrows =>
      obtain ⟨e, he, rfl⟩ := List.mem_map.1 hd
      exact (mem_page hrows he).2
  | reset hlt hrows =>
      rcases List.mem_cons.1 hd with rfl | hd
      · exact hlt
      · obtain ⟨e, he, rfl⟩ := List.mem_map.1 hd
        exact Nat.lt_trans hlt (mem_page hrows he).2

/-- The last cursor of an answer is one of it, or the one asked from. -/
theorem lastCursor_mem (after : Nat) (events : List DurableEvent) :
    lastCursor after events = after
      ∨ ∃ d ∈ events, d.cursor = lastCursor after events := by
  unfold lastCursor
  cases hl : events.getLast? with
  | none => exact .inl rfl
  | some d => exact .inr ⟨d, List.mem_of_getLast? hl, rfl⟩

/-- The resets of an answer. -/
theorem Page.resets {log : List ReplayEvent} {after : Nat}
    {events : List DurableEvent} (h : Page log pruned after events) {r : Nat}
    (hr : .reset r ∈ events) : r = pruned := by
  cases h with
  | rows _ _ =>
      obtain ⟨e, -, he⟩ := List.mem_map.1 hr
      cases he
  | reset _ _ =>
      rcases List.mem_cons.1 hr with he | hm
      · exact DurableEvent.reset.inj he
      · obtain ⟨e, -, he⟩ := List.mem_map.1 hm
        cases he

theorem ReaderInv.commit (h : ReaderInv w) (hs : Sound cfg w)
    (hseen : call.seen.tables.prunedThrough ≤ w.tables.prunedThrough)
    (hrace : ∀ after ∈ call.op.readsFrom, w.tables.prunedThrough
      ≤ max after call.seen.tables.prunedThrough)
    (hc : Commits cfg w now call choice a w') : ReaderInv w' := by
  have hcom := hc
  cases hc with
  | @replayed after limit events op hasked hat hr =>
      have hpage := hs.log.replay_page
        (hrace after (by rw [op]; rfl)) hr
      have hpage' : Page w.log call.seen.tables.prunedThrough
          w.client.cursor events := hat.symm ▸ hpage
      refine ⟨h.reads.receive hs.log.kept.ordered hpage', ?_, ?_, ?_,
        h.finals⟩
      · intro r hr
        rcases List.mem_append.1 hr with hr | hr
        · exact h.resets r hr
        · rw [hpage.resets hr]
          exact hseen
      · intro c hm
        rcases List.mem_append.1 hm with hm | hm
        · exact h.given c hm
        · obtain ⟨d, hd, rfl⟩ := List.mem_map.1 hm
          exact hpage.known hseen d hd
      · rcases lastCursor_mem w.client.cursor events with
          he | ⟨d, hd, he⟩
        · change KnownCursor _ _ (lastCursor w.client.cursor events)
          rw [he]
          exact h.known
        · change KnownCursor _ _ (lastCursor w.client.cursor events)
          rw [← he]
          exact hpage.known hseen d hd
  | @attached cursor op hg =>
      refine ⟨.attach _ _, fun _ hm => absurd hm List.not_mem_nil,
        h.given, ?_, h.finals⟩
      rcases hg with rfl | hg
      · exact .inl rfl
      · exact h.given cursor hg
  | _ => exact h.still hs hcom rfl rfl

end Commit

end Elitea.Executions
