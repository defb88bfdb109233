/-
What a transaction can do to a thread.

`Row.Step` lists every change of the ownership row, each with the state it
is made in; `Op.exec_row` says that a committed transaction makes one of
them, writes the row of a first send, or publishes. `Op.exec_tables` says
what becomes of the refs and the segments: they are kept, reset together,
or a segment is published. The invariants of a thread are proved from
these two, and open no transaction again.
-/
import Elitea.Handoff.Thread

namespace Elitea.Handoff

open Elitea.Lib

variable {r : TransitionResult}

-- ================================================================== the row

/-- The changes of an ownership row, with the operation that makes them
where that matters: two are made only under the thread's exclusive advisory
lock, and a turn is started by its own operation. -/
inductive Row.Step (now : Time) (op : Op) : Row → Row → Prop
  | kept (row : Row) : Step now op row row
  | sent (row : Row) (record : BeginRecord) :
      op.locksThread → row.state = .stateLocal →
      Step now op row (row.moved now .handingOff 1
        { columns := fun row => row.sent now record })
  | completed (row : Row) (takeBack : Bool) :
      row.state = .handingOff →
      Step now op row (row.moved now .cloudIdle 1
        { columns := fun row => row.completed takeBack })
  | reclaimed (row : Row) (deviceId : String) :
      row.state = .cloudIdle →
      Step now op row (row.moved now .reclaiming 1
        { columns := fun row => row.onDevice deviceId })
  | asked (row : Row) (deviceId : String) :
      row.state = .cloudRunning →
      Step now op row (row.moved now .cloudRunning 0
        { columns := fun row => row.asked now deviceId })
  | restReclaimed (row : Row) (deviceId : String) :
      op.locksThread → row.state = .stateLocal →
      Step now op row (row.moved now .reclaiming 1
        { restPending := some true
          columns := fun row => row.onDevice deviceId })
  | released (row : Row) (grace : Time) (restPending : Bool) :
      row.state = .reclaiming →
      Step now op row (row.moved now .stateLocal 1
        { released := true
          restPending := some restPending
          columns := fun row => row.returned now grace })
  | dueNow (row : Row) :
      row.state = .stateLocal → Step now op row (row.dueNow now)
  | erased (row : Row) :
      row.state ∈ endedStates →
      Step now op row (row.moved now .stateLocal 1 (eraseSet now))
  | turnStarted (row : Row) (executionId : ExecutionId)
      (responseMessageId : MessageId) :
      op = .startCloudTurn row.epoch executionId responseMessageId →
      row.state = .cloudIdle →
      Step now op row (row.moved now .cloudRunning 0
        { columns := fun row => row.running executionId responseMessageId })
  | turnEnded (row : Row) :
      row.state = .cloudRunning → row.reclaimPending = false →
      Step now op row (row.moved now .cloudIdle 0 { columns := Row.turnEnded })
  | turnReclaimed (row : Row) :
      row.state = .cloudRunning →
      Step now op row
        (row.moved now .reclaiming 1 { columns := Row.turnEnded })
  | timed (row : Row) (kind : Timed) :
      row.state ∈ kind.source →
      Step now op row (row.moved now kind.target 1 (kind.assignments now))
  | claimed (row : Row) :
      row.state = .stateLocal → Step now op row { row with updatedAt := now }
  | markedErased (row : Row) (epoch : Nat) :
      Step now op row (markErased now epoch row)

/-- What becomes of the row: it stays absent, it is written by a first
send, it takes a step, or a publish advances it. -/
inductive Row.Steps (now : Time) (op : Op) :
    Option Row → Option Row → Prop
  | absent : Steps now op none none
  | first (record : BeginRecord) :
      op.locksThread → Steps now op none (some (Row.first now record))
  | step {row after : Row} :
      Row.Step now op row after → Steps now op (some row) (some after)
  | published (row : Row) (refs : List RefUpdate) :
      row.state = .handingOff ∨ row.state = .cloudRunning →
      Steps now op (some row)
        (some (row.published now (row.lastSeq + 1) refs))

theorem Row.Steps.refl (now : Time) (op : Op) (row : Option Row) :
    Row.Steps now op row row := by
  cases row with
  | none => exact .absent
  | some row => exact .step (.kept row)

section Operations

variable {now wall : Time} {op : Op} {actor : UserId} {epoch : Nat}
  {deviceId : String} {row : Option Row}

theorem reclaim_step (h : reclaim now actor epoch deviceId row = .ok r) :
    ∃ current, row = some current ∧ Row.Step now op current r.handoff := by
  cases row with
  | none => cases h
  | some current =>
      refine ⟨current, rfl, ?_⟩
      simp only [reclaim, ite_error_eq_ok] at h
      obtain ⟨-, h⟩ := h
      split at h
      case isTrue hidle =>
        obtain ⟨after, htransition, hr⟩ := bind_eq_ok.1 h
        obtain ⟨-, -, rfl⟩ := transition_eq_ok.1 htransition
        cases hr
        exact .reclaimed current deviceId hidle.1
      case isFalse =>
        split at h
        case isTrue hrunning =>
          obtain ⟨after, htransition, hr⟩ := bind_eq_ok.1 h
          obtain ⟨-, -, rfl⟩ := transition_eq_ok.1 htransition
          cases hr
          exact .asked current deviceId hrunning.1
        case isFalse =>
          split at h
          case isTrue =>
            cases h
            exact .kept current
          case isFalse => cases h

/-- A rest take back that moved the row found it released, with turns left,
and no local turn open. -/
theorem reclaimRest_cases {pending : Bool}
    (h : reclaimRest now actor epoch deviceId pending row = .ok r) :
    ∃ current, row = some current
      ∧ (r.handoff = current
        ∨ pending = false ∧ current.state = .stateLocal
          ∧ current.released ∧ current.restPending
          ∧ r.handoff = current.moved now .reclaiming 1
            { restPending := some true
              columns := fun row => row.onDevice deviceId }) := by
  cases row with
  | none => cases h
  | some current =>
      refine ⟨current, rfl, ?_⟩
      simp only [reclaimRest, ite_error_eq_ok] at h
      obtain ⟨-, h⟩ := h
      split at h
      case isTrue =>
        cases h
        exact .inl rfl
      case isFalse =>
        simp only [ite_error_eq_ok, bind_eq_ok] at h
        obtain ⟨hstate, -, hmarks, hpending, after, htransition, hr⟩ := h
        obtain ⟨-, -, rfl⟩ := transition_eq_ok.1 htransition
        cases hr
        have hmarks := not_not.1 hmarks
        exact .inr ⟨Bool.eq_false_of_not_eq_true hpending,
          not_not.1 (not_or.1 hstate).1, hmarks.1, hmarks.2, rfl⟩

theorem reclaimRest_step {pending : Bool} (hop : op.locksThread)
    (h : reclaimRest now actor epoch deviceId pending row = .ok r) :
    ∃ current, row = some current ∧ Row.Step now op current r.handoff := by
  obtain ⟨current, hrow, hkept | ⟨-, hstate, -, -, hmoved⟩⟩ :=
    reclaimRest_cases h
  · refine ⟨current, hrow, ?_⟩
    rw [hkept]
    exact .kept current
  · refine ⟨current, hrow, ?_⟩
    rw [hmoved]
    exact .restReclaimed current deviceId hop hstate

theorem release_step {grace : Time} {restPending : Bool}
    (h : release now actor epoch grace restPending row = .ok r) :
    ∃ current, row = some current ∧ Row.Step now op current r.handoff := by
  cases row with
  | none => cases h
  | some current =>
      refine ⟨current, rfl, ?_⟩
      simp only [release, ite_error_eq_ok] at h
      obtain ⟨-, h⟩ := h
      split at h
      case isTrue =>
        simp only [ite_error_eq_ok] at h
        obtain ⟨-, -, h⟩ := h
        cases h
        exact .kept current
      case isFalse =>
        simp only [ite_error_eq_ok, bind_eq_ok] at h
        obtain ⟨-, hstate, after, htransition, hr⟩ := h
        obtain ⟨-, -, rfl⟩ := transition_eq_ok.1 htransition
        cases hr
        exact .released current grace restPending
          (not_not.1 (not_or.1 hstate).1)

theorem erase_cases {manager : Bool} {r : EraseResult}
    (h : erase now wall actor manager row = .ok r) :
    row = none ∧ r.handoff = none
      ∨ ∃ current after, row = some current ∧ r.handoff = some after
        ∧ Row.Step now op current after := by
  cases row with
  | none =>
      cases h
      exact .inl ⟨rfl, rfl⟩
  | some current =>
      simp only [erase, ite_error_eq_ok] at h
      obtain ⟨-, h⟩ := h
      split at h
      case isTrue hlocal =>
        split at h
        case isTrue =>
          cases h
          exact .inr ⟨current, current, rfl, rfl, .kept current⟩
        case isFalse =>
          cases h
          exact .inr ⟨current, _, rfl, rfl, .dueNow current hlocal⟩
      case isFalse =>
        obtain ⟨after, htransition, hr⟩ := bind_eq_ok.1 h
        obtain ⟨hstate, -, rfl⟩ := transition_eq_ok.1 htransition
        cases hr
        exact .inr ⟨current, _, rfl, rfl, .erased current hstate⟩

theorem startCloudTurn_step {executionId : ExecutionId}
    {responseMessageId : MessageId}
    (h : startCloudTurn now epoch executionId responseMessageId row = .ok r) :
    ∃ current, row = some current ∧ Row.Step now
      (.startCloudTurn epoch executionId responseMessageId) current
      r.handoff := by
  cases row with
  | none => cases h
  | some current =>
      refine ⟨current, rfl, ?_⟩
      rw [startCloudTurn] at h
      split at h
      case isTrue =>
        cases h
        exact .kept current
      case isFalse =>
        simp only [ite_error_eq_ok, bind_eq_ok] at h
        obtain ⟨-, after, htransition, hr⟩ := h
        obtain ⟨hstate, rfl, rfl⟩ := transition_eq_ok.1 htransition
        cases hr
        exact .turnStarted current executionId responseMessageId rfl
          (List.mem_singleton.1 hstate)

theorem finishCloudTurn_step {executionId : ExecutionId} {after : Row}
    (h : finishCloudTurn now epoch executionId row = .ok after) :
    ∃ current, row = some current ∧ Row.Step now op current after := by
  cases row with
  | none => cases h
  | some current =>
      refine ⟨current, rfl, ?_⟩
      simp only [finishCloudTurn, ite_error_eq_ok] at h
      obtain ⟨-, h⟩ := h
      split at h
      case isTrue =>
        obtain ⟨hstate, -, rfl⟩ := transition_eq_ok.1 h
        exact .turnReclaimed current (List.mem_singleton.1 hstate)
      case isFalse hpending =>
        obtain ⟨hstate, -, rfl⟩ := transition_eq_ok.1 h
        exact .turnEnded current (List.mem_singleton.1 hstate)
          (Bool.eq_false_of_not_eq_true hpending)

theorem timed_step {kind : Timed} {after : Row}
    (h : timed now kind epoch row = .ok after) :
    ∃ current, row = some current ∧ Row.Step now op current after := by
  cases row with
  | none => cases h
  | some current =>
      obtain ⟨hstate, -, rfl⟩ := transition_eq_ok.1 h
      exact ⟨current, rfl, .timed current kind hstate⟩

theorem complete_step {record : CompleteRecord} {refs : Refs} {after : Row}
    (h : complete now wall record refs row = .ok after) :
    ∃ current, row = some current ∧ Row.Step now op current after := by
  cases row with
  | none => cases h
  | some current =>
      simp only [complete, ite_error_eq_ok] at h
      obtain ⟨-, -, -, h⟩ := h
      obtain ⟨hstate, -, rfl⟩ := transition_eq_ok.1 h
      exact ⟨current, rfl, .completed current record.takeBackWhenDone
        (List.mem_singleton.1 hstate)⟩

end Operations

-- =================================================================== a send

section Send

variable {now : Time} {conversation : Option Conversation} {used : Nat}
  {record : BeginRecord} {t after : Thread}

/-- A send that went through found no open local turn and a row, if any,
that is `LOCAL`. -/
theorem begin_cases (h : begin now conversation used record t = .ok after) :
    t.pending now = false
      ∧ (∀ row, t.row = some row → row.state = .stateLocal)
      ∧ ∃ row, sentRow now record t.row = .ok row
        ∧ after = { t.superseded now with row := some row, refs := [] } := by
  cases conversation with
  | none => cases h
  | some conversation =>
      simp only [begin, ite_error_eq_ok, bind_eq_ok] at h
      obtain ⟨-, -, _, hsendable, hpending, -, row, hrow, hafter⟩ := h
      refine ⟨Bool.eq_false_of_not_eq_true hpending, ?_, row, hrow,
        (Except.ok.inj hafter).symm⟩
      intro existing hexisting
      rw [hexisting] at hsendable
      simp only [sendable, ite_error_eq_ok] at hsendable
      exact not_not.1 hsendable.2.1

theorem sentRow_step {op : Op} (hop : op.locksThread) {row : Option Row}
    {sent : Row} (h : sentRow now record row = .ok sent) :
    Row.Steps now op row (some sent) := by
  cases row with
  | none =>
      cases h
      exact .first record hop
  | some existing =>
      obtain ⟨hstate, -, rfl⟩ := transition_eq_ok.1 h
      exact .step (.sent existing record hop (List.mem_singleton.1 hstate))

end Send

-- ================================================================ a publish

/-- The writer's fence, by what it lets through. -/
theorem writerFence_eq_ok {caller : Caller} {epoch : Nat} {row : Row} :
    writerFence caller epoch row = .ok ()
      ↔ row.state = caller.writerState ∧ row.epoch = epoch
        ∧ match caller with
          | .desktop user => row.ownerUserId = user
          | .cloudExecutor execution =>
              row.runningExecutionId = some execution := by
  cases caller with
  | desktop user =>
      simp only [writerFence, ite_error_eq_ok, ne_eq, not_or, not_not,
        and_true]
      exact ⟨fun ⟨huser, hstate, hepoch⟩ => ⟨hstate, hepoch, huser⟩,
        fun ⟨hstate, hepoch, huser⟩ => ⟨huser, hstate, hepoch⟩⟩
  | cloudExecutor execution =>
      simp only [writerFence, ite_error_eq_ok, ne_eq, not_or, not_not,
        and_true]

section Publish

variable {now : Time} {used : Nat} {record : PublishRecord}
  {t after : Thread} {row : Row} {result : PublishResult}

theorem publishCheck_fence {found : Option Nat}
    (h : publishCheck record row t = .ok found) :
    writerFence record.caller record.epoch row = .ok () := by
  obtain ⟨_, hfence, -⟩ := bind_eq_ok.1 h
  exact hfence

/-- A publish that is not a replay passed every check. -/
theorem publishCheck_none (h : publishCheck record row t = .ok none) :
    refConflict record.refs t.refs = .ok ()
      ∧ (record.kind = .push → pushAllowed record t.refs
          (t.live.countP fun s => s.kind = .compact)
          (t.live.countP fun s => s.kind = .push) = .ok ()) := by
  simp only [publishCheck, bind_eq_ok, ite_error_eq_ok] at h
  obtain ⟨_, -, -, h⟩ := h
  split at h
  case h_1 => cases h
  case h_2 =>
    simp only [bind_eq_ok] at h
    obtain ⟨_, hconflict, h⟩ := h
    refine ⟨hconflict, ?_⟩
    intro hpush
    rw [if_pos hpush] at h
    obtain ⟨_, hallowed, -⟩ := bind_eq_ok.1 h
    exact hallowed

/-- A publish replays, and changes nothing, or writes what it checked. -/
theorem publish_cases (h : publish now used record t = .ok (after, result)) :
    ∃ row, t.row = some row
      ∧ writerFence record.caller record.epoch row = .ok ()
      ∧ (after = t ∧ result.replayed
        ∨ publishCheck record row t = .ok none
          ∧ after = t.published now record row
          ∧ result.replayed = false) := by
  cases hrow : t.row with
  | none =>
      rw [publish, hrow] at h
      cases h
  | some row =>
      simp only [publish, hrow, bind_eq_ok] at h
      obtain ⟨found, hcheck, h⟩ := h
      refine ⟨row, rfl, publishCheck_fence hcheck, ?_⟩
      cases found with
      | some seq =>
          cases h
          exact .inl ⟨rfl, rfl⟩
      | none =>
          simp only [ite_error_eq_ok] at h
          obtain ⟨-, h⟩ := h
          cases h
          exact .inr ⟨hcheck, rfl, rfl⟩

/-- The writer's state is one of the two a publish is made in. -/
theorem publishCheck_state (h : publishCheck record row t = .ok none) :
    row.state = .handingOff ∨ row.state = .cloudRunning := by
  have hstate := (writerFence_eq_ok.1 (publishCheck_fence h)).1
  cases hcaller : record.caller with
  | desktop user =>
      rw [hcaller] at hstate
      exact .inl hstate
  | cloudExecutor execution =>
      rw [hcaller] at hstate
      exact .inr hstate

end Publish

-- ============================================================ transactions

/-- The seq of the last publish, zero before the first. -/
def Thread.headSeq (t : Thread) : Nat :=
  match t.row with
  | none => 0
  | some row => row.lastSeq

theorem Row.Step.lastSeq {now : Time} {op : Op} {row after : Row}
    (h : Row.Step now op row after) : after.lastSeq = row.lastSeq := by
  cases h with
  | timed kind => cases kind <;> rfl
  | markedErased epoch =>
      rw [markErased]
      split <;> rfl
  | _ => rfl

/-- What becomes of the refs and the segments. -/
inductive Thread.Change (maxPushChain : Int) (now : Time) (t : Thread) :
    Thread → Prop
  | kept {after : Thread} : after.refs = t.refs →
      after.segments = t.segments → after.headSeq = t.headSeq →
      Change maxPushChain now t after
  | reset {after : Thread} : after.refs = [] → after.live = [] →
      after.segments.map SegmentRow.seq = t.segments.map SegmentRow.seq →
      after.headSeq = t.headSeq → Change maxPushChain now t after
  | published (record : PublishRecord) (row : Row) : t.row = some row →
      record.maxPushChain = maxPushChain →
      validPrerequisites (some record.kind) record.prerequisites →
      publishCheck record row t = .ok none →
      Change maxPushChain now t (t.published now record row)

section Segments

variable {now : Time} {segments : List SegmentRow}

theorem live_superseded :
    liveSegments (segments.map (SegmentRow.superseded now)) = [] := by
  apply List.filter_eq_nil_iff.2
  intro s hs
  obtain ⟨s, -, rfl⟩ := List.mem_map.1 hs
  exact of_decide_eq_false rfl

theorem live_retired {t : Thread} :
    (retireThreadSegments now t).live = [] := by
  apply List.filter_eq_nil_iff.2
  intro s hs
  obtain ⟨s, -, rfl⟩ := List.mem_map.1 hs
  exact of_decide_eq_false rfl

theorem seq_retired {t : Thread} :
    (retireThreadSegments now t).segments.map SegmentRow.seq
      = t.segments.map SegmentRow.seq := by
  show (t.segments.map _).map SegmentRow.seq = _
  rw [List.map_map]
  rfl

theorem seq_superseded :
    (segments.map (SegmentRow.superseded now)).map SegmentRow.seq
      = segments.map SegmentRow.seq := by
  rw [List.map_map]
  rfl

end Segments

section Exec

variable {maxPushChain : Int} {now wall : Time} {t after : Thread}

theorem publishRequest_cases {used : Nat} {maxProjectBytes : Int}
    {physicalBucket : String} {request : PublishRequest}
    {result : PublishResult}
    (h : publishRequest now used maxPushChain maxProjectBytes
      physicalBucket request t = .ok (after, result)) :
    ∃ record row, t.row = some row
      ∧ writerFence request.caller request.epoch row = .ok ()
      ∧ record.maxPushChain = maxPushChain
      ∧ validPrerequisites (some record.kind) record.prerequisites
      ∧ (after = t ∨ publishCheck record row t = .ok none
        ∧ after = t.published now record row) := by
  obtain ⟨kind, hvalid, hpublish⟩ := bind_eq_ok.1 h
  obtain ⟨row, hrow, hfence, hcases⟩ := publish_cases hpublish
  refine ⟨request.record kind maxPushChain maxProjectBytes physicalBucket,
    row, hrow, hfence, rfl, ?_, ?_⟩
  · simp only [validatePublish, ite_error_eq_ok] at hvalid
    obtain ⟨-, hvalid⟩ := hvalid
    split at hvalid
    case isTrue =>
      split at hvalid <;> cases hvalid
    case isFalse =>
      simp only [bind_eq_ok, ite_error_eq_ok] at hvalid
      obtain ⟨found, hkind, -, hfound⟩ := hvalid
      simp only [validateKind] at hkind
      split at hkind
      case isFalse => cases hkind
      case isTrue hprerequisites =>
        cases hrequest : request.kind with
        | none =>
            rw [hrequest] at hkind
            cases hkind
        | some given =>
            rw [hrequest] at hkind hprerequisites
            cases hkind
            cases hfound
            exact hprerequisites
  · rcases hcases with ⟨hkept, -⟩ | ⟨hcheck, hafter, -⟩
    · exact .inl hkept
    · exact .inr ⟨hcheck, hafter⟩

/-- The operations that write nothing but the row, and publish nothing. -/
def Op.onlyRow : Op → Bool
  | .begin .. | .publish .. | .retireThreadSegments => false
  | _ => true

/-- A transaction left the row absent, or wrote back what a step made of
it, and kept the rest. -/
def Thread.RowMoves (now : Time) (op : Op) (t after : Thread) : Prop :=
  ∃ row, after = { t with row } ∧ Option.Rel (Row.Step now op) t.row row

theorem Thread.RowMoves.of_step {op : Op} {moved : Row}
    (h : ∃ current, t.row = some current ∧ Row.Step now op current moved) :
    t.RowMoves now op (t.withRow moved) := by
  obtain ⟨current, hrow, hstep⟩ := h
  exact ⟨some moved, rfl, hrow ▸ .some hstep⟩

theorem Op.exec_rowMoves {op : Op} (hop : op.onlyRow = true)
    (h : op.exec maxPushChain now wall t = some after) :
    t.RowMoves now op after := by
  cases op with
  | complete record =>
      obtain ⟨row, hcomplete, rfl⟩ := toOption_map_eq_some.1 h
      exact .of_step (complete_step hcomplete)
  | reclaim actor epoch deviceId =>
      obtain ⟨r, hreclaim, rfl⟩ := toOption_map_eq_some.1 h
      exact .of_step (reclaim_step hreclaim)
  | reclaimRest actor epoch deviceId =>
      obtain ⟨r, hreclaim, rfl⟩ := toOption_map_eq_some.1 h
      exact .of_step (reclaimRest_step rfl hreclaim)
  | release actor epoch grace restPending =>
      obtain ⟨r, hrelease, rfl⟩ := toOption_map_eq_some.1 h
      exact .of_step (release_step hrelease)
  | erase actor manager =>
      obtain ⟨r, herase, rfl⟩ := toOption_map_eq_some.1 h
      refine ⟨r.handoff, rfl, ?_⟩
      rcases erase_cases herase with
        ⟨hrow, hafter⟩ | ⟨current, moved, hrow, hafter, hstep⟩
      · rw [hrow, hafter]
        exact .none
      · rw [hrow, hafter]
        exact .some hstep
  | startCloudTurn epoch executionId responseMessageId =>
      obtain ⟨r, hstart, rfl⟩ := toOption_map_eq_some.1 h
      exact .of_step (startCloudTurn_step hstart)
  | finishCloudTurn epoch executionId =>
      obtain ⟨row, hfinish, rfl⟩ := toOption_map_eq_some.1 h
      exact .of_step (finishCloudTurn_step hfinish)
  | timed kind epoch =>
      obtain ⟨row, htimed, rfl⟩ := toOption_map_eq_some.1 h
      exact .of_step (timed_step htimed)
  | claimErasure =>
      obtain ⟨row, hrow, hclaim⟩ := Option.bind_eq_some_iff.1 h
      obtain ⟨hclaimable, hclaim⟩ := Option.ite_none_right_eq_some.1 hclaim
      cases hclaim
      exact .of_step ⟨row, hrow, .claimed row hclaimable.1⟩
  | markErased epoch =>
      cases h
      refine ⟨_, rfl, ?_⟩
      cases t.row with
      | none => exact .none
      | some row => exact .some (.markedErased row epoch)
  | begin _ _ _ | publish _ _ _ _ | retireThreadSegments => cases hop

theorem Op.exec_row {op : Op}
    (h : op.exec maxPushChain now wall t = some after) :
    Row.Steps now op t.row after.row := by
  cases op with
  | begin conversation used record =>
      obtain ⟨-, -, row, hrow, rfl⟩ :=
        begin_cases (toOption_eq_some.1 h)
      exact sentRow_step rfl hrow
  | publish used maxProjectBytes physicalBucket request =>
      obtain ⟨⟨_, result⟩, hpublish, rfl⟩ := toOption_map_eq_some.1 h
      obtain ⟨record, row, hrow, -, -, -, hkept | ⟨hcheck, hafter⟩⟩ :=
        publishRequest_cases hpublish
      · rw [hkept]
        exact Row.Steps.refl now _ t.row
      · rw [hafter, hrow]
        exact .published row record.refs (publishCheck_state hcheck)
  | retireThreadSegments =>
      cases h
      exact Row.Steps.refl now _ t.row
  | _ =>
      obtain ⟨row, rfl, hrel⟩ := Op.exec_rowMoves rfl h
      cases hrow : t.row with
      | none =>
          rw [hrow] at hrel
          cases hrel
          exact .absent
      | some current =>
          rw [hrow] at hrel
          cases hrel with
          | some hstep => exact .step hstep

/-- Steps of the row publish nothing. -/
theorem headSeq_of_rel {op : Op} {row : Option Row}
    (h : Option.Rel (Row.Step now op) t.row row) :
    Thread.headSeq { t with row } = t.headSeq := by
  rw [Thread.headSeq, Thread.headSeq]
  cases hrow : t.row with
  | none =>
      rw [hrow] at h
      cases h
      rfl
  | some current =>
      rw [hrow] at h
      cases h with
      | some hstep => exact hstep.lastSeq

theorem sentRow_lastSeq {record : BeginRecord} {row : Row}
    (h : sentRow now record t.row = .ok row) : row.lastSeq = t.headSeq := by
  rw [Thread.headSeq]
  cases hrow : t.row with
  | none =>
      rw [hrow] at h
      cases h
      rfl
  | some existing =>
      rw [hrow] at h
      obtain ⟨-, -, rfl⟩ := transition_eq_ok.1 h
      rfl

theorem Op.exec_tables {op : Op}
    (h : op.exec maxPushChain now wall t = some after) :
    Thread.Change maxPushChain now t after := by
  cases op with
  | begin conversation used record =>
      obtain ⟨-, -, row, hrow, rfl⟩ :=
        begin_cases (toOption_eq_some.1 h)
      exact .reset rfl live_superseded seq_superseded (sentRow_lastSeq hrow)
  | publish used maxProjectBytes physicalBucket request =>
      obtain ⟨⟨_, result⟩, hpublish, rfl⟩ := toOption_map_eq_some.1 h
      obtain ⟨record, row, hrow, -, hlimit, hvalid,
        hkept | ⟨hcheck, hafter⟩⟩ := publishRequest_cases hpublish
      · rw [hkept]
        exact .kept rfl rfl rfl
      · rw [hafter]
        exact .published record row hrow hlimit hvalid hcheck
  | retireThreadSegments =>
      cases h
      exact .reset rfl live_retired seq_retired rfl
  | _ =>
      obtain ⟨row, rfl, hrel⟩ := Op.exec_rowMoves rfl h
      exact .kept rfl rfl (headSeq_of_rel hrel)

end Exec

-- ============================================================ a small send

/-- A desktop's publish of the two refs a send needs. -/
def sendRequest (kind : SegmentKind) (prerequisites : List Sha1)
    (old : Option Sha1) (new : Sha1) (sha256 : Sha256) : PublishRequest :=
  { caller := .desktop 7
    epoch := 1
    kind := some kind
    sha256 := sha256
    bytes := 10
    prerequisites := prerequisites
    refs := [⟨.base, old, new⟩, ⟨.handoff1, old, new⟩]
    objectFormat := "sha1" }

def sendRecord : BeginRecord :=
  { handoffId := 1
    actorUserId := 7
    deviceId := "laptop"
    hasUpstream := false
    ttl := 15 * minute
    maxProjectWorkspaceBytes := 1000
    declaredBytes := 20
    env := ⟨false, none, []⟩ }

end Elitea.Handoff
