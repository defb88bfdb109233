/-
The fetch plan of a thread is its whole head chain.

Four tables move together: the row counts the publishes, the refs are what
the last publish left, the log keeps every segment, and the segments that
are not superseded are the chain a reader is given. `HeadChain` says how
they agree. It is kept by every transaction, because a transaction keeps
the tables, resets refs and chain together, or publishes on top of both
(`Op.exec_tables`); so a plan read at any moment has the shape the client
checks before it fetches.
-/
import Elitea.Handoff.Proofs.Steps
import Mathlib.Data.List.Chain

namespace Elitea.Handoff

open Elitea.Lib

variable {pushes : List SegmentRow}

/-- The live segments are the chain to the head. -/
structure HeadChain (limit : Int) (t : Thread) : Prop where
  /-- The seqs of the log. -/
  ascending : (t.segments.map SegmentRow.seq).Pairwise (· < ·)
  /-- Nothing is live, or one `COMPACT` and the `PUSH` segments after. -/
  chain : t.live = [] ∨ ∃ base pushes, t.live = base :: pushes
    ∧ base.kind = .compact
    ∧ ∀ s ∈ pushes, s.kind = .push ∧ base.seq < s.seq
  /-- The last live segment is the head. -/
  head : ∀ s, t.live.getLast? = some s →
    ∃ row, t.row = some row ∧ s.seq = row.lastSeq ∧ s.refs = t.refs
  /-- A live `PUSH` builds on refs of the segment just before it. -/
  prerequisites : t.live.IsChain fun before s =>
    ∀ p ∈ s.prerequisites, p ∈ before.refs.map Prod.snd
  bounded : (t.live.countP fun s => s.kind = .push) ≤ limit

/-- `HeadChain`, with what its preservation needs: the seqs count up to the
row's, and every live segment has the prerequisites of its kind. -/
structure ChainInv (limit : Int) (t : Thread) : Prop
    extends HeadChain limit t where
  numbered : ∀ seq ∈ t.segments.map SegmentRow.seq,
    0 < seq ∧ seq ≤ t.headSeq
  shaped : ∀ s ∈ t.live, validPrerequisites (some s.kind) s.prerequisites

theorem pushLimit_pos (maxPushChain : Int) : 0 < pushLimit maxPushChain := by
  rw [pushLimit]
  split
  · decide
  · omega

section Steps

variable {limit : Int} {maxPushChain : Int} {now : Time} {t after : Thread}

theorem ChainInv.kept (h : ChainInv limit t) (hrefs : after.refs = t.refs)
    (hsegments : after.segments = t.segments)
    (hhead : after.headSeq = t.headSeq) : ChainInv limit after := by
  have hlive : after.live = t.live := congrArg liveSegments hsegments
  constructor
  · constructor
    · rw [hsegments]
      exact h.ascending
    · rw [hlive]
      exact h.chain
    · intro s hs
      rw [hlive] at hs
      obtain ⟨row, hrow, hseq, hsrefs⟩ := h.head s hs
      have hmem : s.seq ∈ t.segments.map SegmentRow.seq :=
        List.mem_map_of_mem
          (List.mem_of_mem_filter (List.mem_of_getLast? hs))
      have hpos := (h.numbered s.seq hmem).1
      cases hafter : after.row with
      | none =>
          rw [Thread.headSeq, Thread.headSeq, hrow, hafter] at hhead
          have hzero : 0 = row.lastSeq := hhead
          omega
      | some row' =>
          rw [Thread.headSeq, Thread.headSeq, hrow, hafter] at hhead
          have hlast : row'.lastSeq = row.lastSeq := hhead
          exact ⟨row', rfl, hseq.trans hlast.symm, hsrefs.trans hrefs.symm⟩
    · rw [hlive]
      exact h.prerequisites
    · rw [hlive]
      exact h.bounded
  · rw [hsegments, hhead]
    exact h.numbered
  · rw [hlive]
    exact h.shaped

theorem ChainInv.reset (h : ChainInv limit t) (hlimit : 0 ≤ limit)
    (hlive : after.live = [])
    (hseqs : after.segments.map SegmentRow.seq
      = t.segments.map SegmentRow.seq)
    (hhead : after.headSeq = t.headSeq) : ChainInv limit after := by
  constructor
  · constructor
    · rw [hseqs]
      exact h.ascending
    · exact .inl hlive
    · intro s hs
      rw [hlive] at hs
      cases hs
    · rw [hlive]
      exact .nil
    · rw [hlive]
      exact hlimit
  · rw [hseqs, hhead]
    exact h.numbered
  · intro s hs
    rw [hlive] at hs
    exact absurd hs List.not_mem_nil

-- ----------------------------------------------------------------- publish

/-- The live segments after a publish. -/
theorem live_published (record : PublishRecord) (row : Row) :
    (t.published now record row).live
      = (if record.kind = .compact then [] else t.live)
        ++ [record.segment (row.lastSeq + 1)
          (t.refs.updated record.refs)] := by
  show liveSegments (_ ++ _) = _
  rw [liveSegments, List.filter_append]
  congr 1
  split
  · exact live_superseded
  · rfl

theorem seqs_published (record : PublishRecord) (row : Row) :
    (t.published now record row).segments.map SegmentRow.seq
      = t.segments.map SegmentRow.seq ++ [row.lastSeq + 1] := by
  show List.map _ (_ ++ _) = _
  rw [List.map_append]
  congr 1
  split
  · exact seq_superseded
  · rfl

/-- What a `PUSH` found: a chain to build on, its prerequisites among the
refs, and room. -/
theorem pushAllowed_eq_ok {record : PublishRecord} {current : Refs}
    {liveCompact livePush : Nat} :
    pushAllowed record current liveCompact livePush = .ok ()
      ↔ liveCompact ≠ 0
        ∧ (∀ p ∈ record.prerequisites, p ∈ current.map Prod.snd)
        ∧ (livePush : Int) < pushLimit record.maxPushChain := by
  simp only [pushAllowed, ite_error_eq_ok, not_not, not_le, and_true,
    List.all_eq_true, decide_eq_true_eq, ne_eq]

section Publish

variable {record : PublishRecord} {row : Row}

theorem ChainInv.ascending_published (h : ChainInv limit t)
    (hrow : t.row = some row) :
    ((t.published now record row).segments.map SegmentRow.seq).Pairwise
      (· < ·) := by
  rw [seqs_published, List.pairwise_append]
  refine ⟨h.ascending, List.pairwise_singleton _ _, ?_⟩
  intro seq hseq next hnext
  have hle := (h.numbered seq hseq).2
  rw [Thread.headSeq, hrow] at hle
  rw [List.mem_singleton.1 hnext]
  exact Nat.lt_succ_of_le hle

theorem ChainInv.numbered_published (h : ChainInv limit t)
    (hrow : t.row = some row) :
    ∀ seq ∈ (t.published now record row).segments.map SegmentRow.seq,
      0 < seq ∧ seq ≤ (t.published now record row).headSeq := by
  intro seq hseq
  show 0 < seq ∧ seq ≤ row.lastSeq + 1
  rw [seqs_published] at hseq
  rcases List.mem_append.1 hseq with hseq | hseq
  · have hbound := h.numbered seq hseq
    rw [Thread.headSeq, hrow] at hbound
    exact ⟨hbound.1, Nat.le_succ_of_le hbound.2⟩
  · rw [List.mem_singleton.1 hseq]
    exact ⟨Nat.succ_pos _, Nat.le_refl _⟩

/-- The published segment is the head. -/
theorem head_published :
    ∀ s, (t.published now record row).live.getLast? = some s →
      ∃ after, (t.published now record row).row = some after
        ∧ s.seq = after.lastSeq
        ∧ s.refs = (t.published now record row).refs := by
  intro s hs
  rw [live_published, List.getLast?_concat] at hs
  cases hs
  exact ⟨_, rfl, rfl, rfl⟩

/-- A `PUSH` found a chain, so it comes after its `COMPACT`. -/
theorem ChainInv.chain_push (h : ChainInv limit t)
    (hrow : t.row = some row) (hkind : record.kind = .push)
    (hcompact : (t.live.countP fun s => s.kind = .compact) ≠ 0) :
    ∃ base pushes, t.live ++ [record.segment (row.lastSeq + 1)
        (t.refs.updated record.refs)] = base :: pushes
      ∧ base.kind = .compact
      ∧ ∀ s ∈ pushes, s.kind = .push ∧ base.seq < s.seq := by
  rcases h.chain with hnone | ⟨base, pushes, hlive, hbase, hpushes⟩
  · rw [hnone] at hcompact
    exact absurd rfl hcompact
  refine ⟨base, pushes ++ [record.segment (row.lastSeq + 1)
    (t.refs.updated record.refs)], ?_, hbase, ?_⟩
  · rw [hlive, List.cons_append]
  · intro s hs
    rcases List.mem_append.1 hs with hs | hs
    · exact hpushes s hs
    · rw [List.mem_singleton.1 hs]
      have hmem : base ∈ t.live := by
        rw [hlive]
        exact List.mem_cons_self
      have hle := (h.numbered base.seq
        (List.mem_map_of_mem (List.mem_of_mem_filter hmem))).2
      rw [Thread.headSeq, hrow] at hle
      exact ⟨hkind, Nat.lt_succ_of_le hle⟩

theorem ChainInv.push (h : ChainInv limit t) (hrow : t.row = some row)
    (hkind : record.kind = .push)
    (hvalid : validPrerequisites (some record.kind) record.prerequisites)
    (hlimit : pushLimit record.maxPushChain = limit)
    (hallowed : pushAllowed record t.refs
      (t.live.countP fun s => s.kind = .compact)
      (t.live.countP fun s => s.kind = .push) = .ok ()) :
    ChainInv limit (t.published now record row) := by
  obtain ⟨hcompact, hprerequisites, hroom⟩ := pushAllowed_eq_ok.1 hallowed
  have hlive : (t.published now record row).live
      = t.live ++ [record.segment (row.lastSeq + 1)
        (t.refs.updated record.refs)] := by
    rw [live_published, if_neg]
    rw [hkind]
    exact fun h => nomatch h
  constructor
  · constructor
    · exact h.ascending_published hrow
    · rw [hlive]
      exact .inr (h.chain_push hrow hkind hcompact)
    · exact head_published
    · rw [hlive, List.isChain_append]
      refine ⟨h.prerequisites, .singleton _, ?_⟩
      -- What is before the new segment left the refs that it was checked
      -- against.
      intro before hbefore s hs
      cases hs
      obtain ⟨-, -, -, hrefs⟩ := h.head before hbefore
      rw [hrefs]
      exact hprerequisites
    · rw [hlive, List.countP_append]
      have hone : ([record.segment (row.lastSeq + 1)
          (t.refs.updated record.refs)].countP fun s => s.kind = .push)
          = 1 := by
        rw [List.countP_singleton, if_pos]
        exact decide_eq_true hkind
      rw [hone]
      omega
  · exact h.numbered_published hrow
  · rw [hlive]
    intro s hs
    rcases List.mem_append.1 hs with hs | hs
    · exact h.shaped s hs
    · rw [List.mem_singleton.1 hs]
      exact hvalid

theorem ChainInv.compact (h : ChainInv limit t) (hrow : t.row = some row)
    (hkind : record.kind = .compact)
    (hvalid : validPrerequisites (some record.kind) record.prerequisites)
    (hlimit : 0 ≤ limit) :
    ChainInv limit (t.published now record row) := by
  have hlive : (t.published now record row).live
      = [record.segment (row.lastSeq + 1)
        (t.refs.updated record.refs)] := by
    rw [live_published, if_pos hkind, List.nil_append]
  constructor
  · constructor
    · exact h.ascending_published hrow
    · rw [hlive]
      exact .inr ⟨_, [], rfl, hkind,
        fun _ hs => absurd hs List.not_mem_nil⟩
    · exact head_published
    · rw [hlive]
      exact .singleton _
    · rw [hlive, List.countP_singleton, if_neg]
      · exact hlimit
      · intro hpush
        have hpush : record.kind = .push := of_decide_eq_true hpush
        rw [hkind] at hpush
        cases hpush
  · exact h.numbered_published hrow
  · rw [hlive]
    intro s hs
    rw [List.mem_singleton.1 hs]
    exact hvalid

end Publish

/-- A transaction keeps the chain. -/
theorem ChainInv.change (h : ChainInv (pushLimit maxPushChain) t)
    (hchange : Thread.Change maxPushChain now t after) :
    ChainInv (pushLimit maxPushChain) after := by
  have hlimit := Int.le_of_lt (pushLimit_pos maxPushChain)
  cases hchange with
  | kept hrefs hsegments hhead => exact h.kept hrefs hsegments hhead
  | reset hrefs hlive hseqs hhead => exact h.reset hlimit hlive hseqs hhead
  | published record row hrow hmax hvalid hcheck =>
      cases hkind : record.kind with
      | compact => exact h.compact hrow hkind hvalid hlimit
      | push =>
          obtain ⟨-, hallowed⟩ := publishCheck_none hcheck
          exact h.push hrow hkind hvalid (congrArg pushLimit hmax)
            (hallowed hkind)

end Steps

-- ================================================================ the chain

section Chain

variable {limit : Int} {t : Thread}

end Chain

end Elitea.Handoff
