/-
The publishes of one project, in every interleaving of their statements.

# The lock and the invariant

`QuotaInv`: the segment is inserted before the project's lock is taken,
and the sum is read after. Every commit needs that lock, so between the
sum and the commit nobody else commits, and the sum of the uncommitted
view is the usage after the commit.

The other writers of these tables appear only through what they keep: the
live segments.
-/
import Elitea.Handoff.Quota
import Elitea.Handoff.Proofs.HeadChain

namespace Elitea.Handoff.Quota

open Elitea.Lib
open Elitea.Lib.Statements

variable {t a b : Tables}

-- =============================================================== live rows

/-- The live rows after a write. -/
def Write.live (rows : List (ThreadId × SegmentRow)) :
    Write → List (ThreadId × SegmentRow)
  | .supersede thread seqs _ =>
      rows.filter fun s => ¬ (s.1 = thread ∧ s.2.seq ∈ seqs)
  | .insertSegment thread segment =>
      rows ++ [(thread, segment)].filter fun s => s.2.live
  | _ => rows

theorem live_write (t : Tables) (w : Write) :
    (t.write w).live = w.live t.live := by
  cases w with
  | supersede thread seqs now =>
      simp only [Tables.live, Tables.write, Write.live]
      induction t.segments with
      | nil => rfl
      | cons s rest ih =>
          by_cases hs : s.1 = thread ∧ s.2.seq ∈ seqs
          · have hdead : ¬ (s.2.superseded now).live := nofun
            rw [List.map_cons, if_pos hs,
              List.filter_cons_of_neg (by simpa using hdead), ih]
            by_cases hlive : s.2.live
            · rw [List.filter_cons_of_pos (by simpa using hlive),
                List.filter_cons_of_neg (by simpa using hs)]
            · rw [List.filter_cons_of_neg (by simpa using hlive)]
          · rw [List.map_cons, if_neg hs]
            by_cases hlive : s.2.live
            · rw [List.filter_cons_of_pos (by simpa using hlive), ih,
                List.filter_cons_of_pos (by simpa using hlive),
                List.filter_cons, if_pos (decide_eq_true hs)]
            · rw [List.filter_cons_of_neg (by simpa using hlive), ih,
                List.filter_cons_of_neg (by simpa using hlive)]
  | insertSegment thread segment =>
      exact List.filter_append ..
  | moveRefs thread refs => rfl
  | advanceThread thread seq refs now => rfl
  | consumeGrants thread ids => rfl

/-- What is live after a transaction's writes depends on what was live. -/
theorem live_writes (writes : List Write) (t : Tables) :
    (writes.foldl Tables.write t).live
      = writes.foldl Write.live t.live := by
  induction writes generalizing t with
  | nil => rfl
  | cons w writes ih =>
      rw [List.foldl_cons, List.foldl_cons, ih, live_write]

theorem liveBytes_congr (h : a.live = b.live) :
    a.liveBytes = b.liveBytes := by
  rw [Tables.liveBytes, Tables.liveBytes, h]

theorem live_view {a b : Tables} (h : a.live = b.live)
    (s : Session Publish Write) :
    (s.view machine a).live = (s.view machine b).live := by
  show (s.writes.foldl Tables.write a).live
    = (s.writes.foldl Tables.write b).live
  rw [live_writes, live_writes, h]

/-- Another writer leaves all that is live alone. -/
theorem live_other {w : Other} (h : t.other w = some a) :
    a.live = t.live := by
  cases w with
  | handoff thread row refs =>
      cases h
      rfl
  | segments segments =>
      simp only [Tables.other] at h
      split at h
      next hlive =>
        cases h
        exact hlive
      next => cases h
  | grant thread grant =>
      cases h
      rfl

-- ================================================================ the stages

/-- The lock of the project is taken. -/
def Stage.pastLock : Stage → Prop
  | .sumUsage _ _ | .commit _ _ => True
  | _ => False

section Steps

variable {s s' : Db} {session : Session Publish Write} {i j : Nat}

/-- Only the statement `COMMIT` commits. -/
theorem exec_commit {p : Publish} {now : Time} {answer : Answer}
    (h : p.exec t now = .commit answer) :
    ∃ f l, p.stage = .commit f l
      ∧ answer = .ok ⟨f.seq, f.moved p.call, l, false⟩ := by
  cases hstage : p.stage with
  | commit f l =>
      simp only [Publish.exec, hstage, Turn.commit.injEq] at h
      exact ⟨f, l, rfl, h.symm⟩
  | lockThread =>
      simp only [Publish.exec, hstage, lockThread] at h
      split at h <;> cases h
  | readThread row =>
      simp only [Publish.exec, hstage, readThread] at h
      split at h <;> cases h
  | sumUsage f l =>
      simp only [Publish.exec, hstage, sumUsage] at h
      split at h <;> cases h
  | _ =>
      simp only [Publish.exec, hstage] at h
      cases h

/-- A publish that commits answers no error. -/
theorem exec_answers {p : Publish} {now : Time} {answer : Answer}
    (h : p.exec t now = .commit answer) :
    ∃ result, answer = .ok result := by
  obtain ⟨f, l, -, he⟩ := exec_commit h
  exact ⟨_, he⟩

/-- A running publish is new, has just had a statement, or was running
before. -/
theorem step_running {label : Label Call Other}
    (h : step machine s label = some s') {j : Nat}
    {session : Session Publish Write}
    (hslot : s'.slot j = some (.running session)) :
    (∃ c, label = .start j c ∧ session = ⟨⟨c, .lockThread⟩, []⟩)
      ∨ (∃ old now holder prog writes, label = .exec j now
          ∧ s.slot j = some (.running old)
          ∧ acquired s.holder j
              (old.prog.needs (old.view machine s.world)) = some holder
          ∧ old.prog.exec (old.view machine s.world) now
              = .next prog writes
          ∧ session = ⟨prog, old.writes ++ writes⟩
          ∧ s'.world = s.world ∧ s'.holder = holder)
      ∨ (label.session ≠ some j
          ∧ s.slot j = some (.running session)) := by
  by_cases hsession : label.session = some j
  · rcases step_own h hsession with ⟨c, hlabel, hs⟩
      | ⟨old, now, holder, hlabel, hold, hlocks, rfl⟩ | hs
    · rw [hs] at hslot
      cases hslot
      exact .inl ⟨c, hlabel, rfl⟩
    · rw [slot_turned] at hslot
      split at hslot
      next prog writes hturn =>
        cases hslot
        rw [hturn]
        exact .inr (.inl ⟨old, now, holder, prog, writes, hlabel, hold,
          hlocks, hturn, rfl, rfl, rfl⟩)
      next => cases hslot
      next => cases hslot
    · rw [hs] at hslot
      cases hslot
  · exact .inr (.inr ⟨hsession, (step_quiet h hsession).1 ▸ hslot⟩)

end Steps

-- ====================================================== the project's ceiling

/-- What the project's lock keeps true: whoever is past it holds it, and
the usage that a publish about to commit has summed is still the usage
its commit leaves. -/
structure QuotaInv (ceiling : Int) (s : Db) : Prop where
  within : (s.world.liveBytes : Int) ≤ ceiling
  constant : ∀ id session, s.slot id = some (.running session) →
    session.prog.call.record.maxProjectBytes = ceiling
  locked : ∀ id session, s.slot id = some (.running session) →
    session.prog.stage.pastLock → s.holder .quota = some id
  summed : ∀ id session, s.slot id = some (.running session) →
    (∃ f l, session.prog.stage = .commit f l) →
    ((session.view machine s.world).liveBytes : Int) ≤ ceiling

section Ceiling

variable {s s' : Db} {ceiling : Int} {label : Label Call Other}

/-- A statement leaves the call as it is, and is past the lock only after
it was, or after it took it. A publish that is about to commit has just
summed. -/
theorem exec_next {c : Call} {stage : Stage} {now : Time} {prog : Publish}
    {writes : List Write} (hquota : c.quota)
    (h : Publish.exec ⟨c, stage⟩ t now = .next prog writes) :
    prog.call = c
      ∧ (prog.stage.pastLock → stage.pastLock
          ∨ Publish.needs ⟨c, stage⟩ t = some .quota)
      ∧ ((∃ f l, prog.stage = .commit f l) → writes = []
          ∧ (t.liveBytes : Int) ≤ c.record.maxProjectBytes) := by
  -- a stage before the lock has nothing to show but its call
  have before : prog.call = c → ¬ prog.stage.pastLock → prog.call = c
      ∧ (prog.stage.pastLock → stage.pastLock
          ∨ Publish.needs ⟨c, stage⟩ t = some .quota)
      ∧ ((∃ f l, prog.stage = .commit f l) → writes = []
          ∧ (t.liveBytes : Int) ≤ c.record.maxProjectBytes) := by
    intro hcall hbefore
    refine ⟨hcall, fun h => absurd h hbefore, fun ⟨f, l, he⟩ => ?_⟩
    rw [he] at hbefore
    exact absurd trivial hbefore
  cases stage with
  | lockThread =>
      change lockThread _ t = _ at h
      rw [lockThread] at h
      split at h
      next =>
        cases h
        exact before rfl id
      next =>
        cases h
        exact before rfl id
  | readThread row =>
      change readThread _ row t = _ at h
      simp only [readThread] at h
      split at h
      next =>
        cases h
        exact before rfl id
      next =>
        cases h
        exact before rfl id
      next =>
        cases h
        exact before rfl id
  | supersede f =>
      cases h
      exact before rfl id
  | insertSegment f l =>
      cases h
      exact before rfl id
  | moveRefs f l =>
      cases h
      exact before rfl id
  | advanceThread f l =>
      cases h
      exact before rfl id
  | consumeGrants f l =>
      cases h
      refine before rfl ?_
      dsimp only
      rw [if_pos hquota]
      exact id
  | lockQuota f l =>
      cases h
      exact ⟨rfl, fun _ => .inr rfl, fun ⟨_, _, he⟩ => nomatch he⟩
  | sumUsage f l =>
      change sumUsage _ f l t = _ at h
      rw [sumUsage] at h
      split at h
      next =>
        cases h
        exact before rfl id
      next hfits =>
        cases h
        exact ⟨rfl, fun _ => .inl trivial, fun _ => ⟨rfl, not_lt.1 hfits⟩⟩
  | commit f l => cases h
  | rollback answer => cases h

/-- What is live changes at a commit only, and is then what the publish
sees. -/
theorem live_step (h : step machine s label = some s') :
    s'.world.live = s.world.live
      ∨ ∃ id now session f l, label = .exec id now
          ∧ s.slot id = some (.running session)
          ∧ session.prog.stage = .commit f l
          ∧ s'.world = session.view machine s.world := by
  cases label with
  | start i c =>
      obtain ⟨-, rfl⟩ := step_start h
      exact .inl rfl
  | fail i =>
      obtain ⟨-, rfl⟩ := step_fail h
      exact .inl rfl
  | other writer =>
      obtain ⟨-, world, hworld, rfl⟩ := step_other h
      exact .inl (live_other hworld)
  | exec i now =>
      obtain ⟨session, holder, hslot, -, rfl⟩ := step_exec h
      cases hturn : machine.exec session.prog
          (session.view machine s.world) now with
      | next prog writes => exact .inl rfl
      | rollback answer => exact .inl rfl
      | commit answer =>
          obtain ⟨f, l, hstage, -⟩ := exec_commit hturn
          exact .inr ⟨i, now, session, f, l, rfl, hslot, hstage, rfl⟩

/-- Every step keeps the ceiling, as long as every call has the same. -/
theorem quotaInv_step (hceiling : 0 < ceiling)
    (hsame : ∀ id c, label = .start id c →
      c.record.maxProjectBytes = ceiling)
    (hinv : QuotaInv ceiling s) (h : step machine s label = some s') :
    QuotaInv ceiling s' := by
  -- what a statement of a running publish leads to
  have turn : ∀ {j old now holder prog writes},
      s.slot j = some (.running old) →
      acquired s.holder j
        (old.prog.needs (old.view machine s.world)) = some holder →
      old.prog.exec (old.view machine s.world) now = .next prog writes →
      prog.call.record.maxProjectBytes = ceiling
        ∧ (prog.stage.pastLock → holder .quota = some j)
        ∧ ((∃ f l, prog.stage = .commit f l) → writes = []
            ∧ ((old.view machine s.world).liveBytes : Int) ≤ ceiling) := by
    intro j old now holder prog writes hold hlocks hnext
    have hmax := hinv.constant j old hold
    have hquota : old.prog.call.quota := by
      rw [Call.quota, hmax]
      exact hceiling
    obtain ⟨hcall, hpast, hcommit⟩ := exec_next hquota hnext
    rw [hmax] at hcommit
    refine ⟨hcall ▸ hmax, fun hp => ?_, hcommit⟩
    rcases hpast hp with hpast | hneeds
    · exact acquired_own hlocks (hinv.locked j old hold hpast)
    · exact ((acquired_eq_some hlocks).1 _ hneeds).2
  constructor
  · -- a commit leaves what it summed
    rcases live_step h with hlive | ⟨i, _, old, f, l, -, hold, hstage, hw⟩
    · rw [liveBytes_congr hlive]
      exact hinv.within
    · rw [hw]
      exact hinv.summed i old hold ⟨f, l, hstage⟩
  · intro j session hslot
    rcases step_running h hslot with ⟨c, hlabel, rfl⟩
      | ⟨old, now, holder, prog, writes, -, hold, hlocks, hnext, rfl, -, -⟩
      | ⟨-, hold⟩
    · exact hsame j c hlabel
    · exact (turn hold hlocks hnext).1
    · exact hinv.constant j session hold
  · intro j session hslot hpast
    rcases step_running h hslot with ⟨c, -, rfl⟩
      | ⟨old, now, holder, prog, writes, -, hold, hlocks, hnext, rfl, -,
          hholder⟩
      | ⟨hsession, hold⟩
    · exact hpast.elim
    · rw [hholder]
      exact (turn hold hlocks hnext).2.1 hpast
    · exact (step_quiet h hsession).2 _ (hinv.locked j session hold hpast)
  · intro j session hslot hcommit
    rcases step_running h hslot with ⟨c, -, rfl⟩
      | ⟨old, now, holder, prog, writes, -, hold, hlocks, hnext, rfl,
          hworld, -⟩
      | ⟨hsession, hold⟩
    · obtain ⟨f, l, he⟩ := hcommit
      cases he
    · obtain ⟨hnil, hfits⟩ := (turn hold hlocks hnext).2.2 hcommit
      rw [Session.view, hnil, List.append_nil, hworld]
      exact hfits
    · have hfits := hinv.summed j session hold hcommit
      rcases live_step h with hlive | ⟨i, _, old, f, l, rfl, hi, hstage, -⟩
      · rw [liveBytes_congr (live_view hlive session)]
        exact hfits
      · -- two publishes past the project's lock are one
        obtain ⟨g, k, hmine⟩ := hcommit
        have hli := hinv.locked i old hi (by rw [hstage]; trivial)
        have hlj := hinv.locked j session hold (by rw [hmine]; trivial)
        exact absurd (hli.symm.trans hlj) hsession

end Ceiling

-- ============================================================== every run

theorem quotaInv_begin {ceiling : Int} (h : (t.liveBytes : Int) ≤ ceiling) :
    QuotaInv ceiling (Statements.begin t) := by
  refine ⟨h, ?_, ?_, ?_⟩
  · intro id session hslot
    cases hslot
  · intro id session hslot
    cases hslot
  · intro id session hslot
    cases hslot

/-- Every call of the run has the ceiling `ceiling`. -/
def Constant (ceiling : Int) (label : Label Call Other) : Prop :=
  ∀ id c, label = .start id c → c.record.maxProjectBytes = ceiling

theorem quotaInv_run {ceiling : Int} (hceiling : 0 < ceiling)
    {labels : List (Label Call Other)} {s : Db}
    (hbefore : (t.liveBytes : Int) ≤ ceiling)
    (hsame : ∀ label ∈ labels, Constant ceiling label)
    (hrun : run (step machine) (Statements.begin t) labels = some s) :
    QuotaInv ceiling s := by
  have hmeets : Meets (step machine) (fun _ label => Constant ceiling label)
      (Statements.begin t) labels := meets_of_forall labels _ hsame
  exact run_inv
    (fun _ _ _ hi hok hs => quotaInv_step hceiling hok hi hs) labels
    (Statements.begin t) s (quotaInv_begin hbefore) hmeets hrun

/-- The ceiling of a project holds under concurrency. In every run of
publishes with one positive ceiling, on tables that were within it, the
live segments stay within it. A publish that commits was not refused, and
one that was refused leaves nothing: without its statements the run
reaches the same tables. -/
theorem quota_holds {ceiling : Int} (hceiling : 0 < ceiling)
    {tables : Tables} (hbefore : (tables.liveBytes : Int) ≤ ceiling)
    {labels : List (Label Call Other)}
    (hsame : ∀ label ∈ labels, Constant ceiling label) {s : Db}
    (hrun : run (step machine) (Statements.begin tables) labels = some s) :
    (s.world.liveBytes : Int) ≤ ceiling
      ∧ (∀ id answer, s.slot id = some (.committed answer) →
          ∃ result, answer = .ok result)
      ∧ ∀ id e, s.slot id = some (.rolledBack (.error e)) →
          ∃ s' : Db, run (step machine) (Statements.begin tables)
              (others labels id) = some s'
            ∧ s'.world.segments = s.world.segments
            ∧ s'.world.refs = s.world.refs
            ∧ s'.world.handoffs = s.world.handoffs
            ∧ s'.world.grants = s.world.grants := by
  refine ⟨(quotaInv_run hceiling hbefore hsame hrun).within,
    fun id answer => run_answers exec_answers hrun, ?_⟩
  intro id e hslot
  have hnot : ∀ answer, s.slot id ≠ some (.committed answer) := by
    intro answer hcommitted
    rw [hslot] at hcommitted
    cases hcommitted
  have hwithout := run_without labels (Statements.begin tables) s hrun hnot
  rw [without_begin] at hwithout
  exact ⟨s.without id, hwithout, rfl, rfl, rfl, rfl⟩

/-- A thread that its owner's desktop is sending. -/
def sendingRow : Row :=
  { handoffId := 1
    state := .handingOff
    epoch := 1
    ownerUserId := 7
    deviceId := "laptop"
    hasUpstream := false
    envNames := []
    envSecretName := none
    expiresAt := none
    stateChangedAt := 0
    updatedAt := 0 }

/-- Its first publish: a `COMPACT` of six bytes, ten allowed. -/
def firstCompact (thread : ThreadId) : Call :=
  { thread := thread
    record :=
      { caller := .desktop 7
        epoch := 1
        kind := .compact
        sha256 := 5
        bytes := 6
        prerequisites := []
        refs := [⟨.base, none, 3⟩]
        physicalBucket := "bucket"
        maxPushChain := 32
        maxProjectBytes := 10 } }

/-- Two threads, nothing stored. -/
def twoSends : Tables :=
  { handoffs := fun id => if id < 2 then some sendingRow else none
    refs := fun _ => []
    segments := []
    grants := [(0, ⟨1, 5, 6, false, 100, false⟩),
      (1, ⟨2, 5, 6, false, 100, false⟩)] }

/-- Both publishes have inserted their segment before the first of them
takes the project's lock. -/
def twoPublishes : List (Label Call Other) :=
  [.start 0 (firstCompact 0), .start 1 (firstCompact 1)]
    ++ List.replicate 7 (.exec 0 20) ++ List.replicate 7 (.exec 1 20)
    ++ List.replicate 3 (.exec 0 30) ++ List.replicate 3 (.exec 1 40)

theorem quota_holds_two :
    ∃ s : Db, run (step machine) (Statements.begin twoSends) twoPublishes
        = some s
      ∧ s.slot 1 = some (.rolledBack (.error .quotaExceeded))
      ∧ s.world.liveBytes = 6
      ∧ ((s.world.liveBytes : Int) ≤ 10
        ∧ (∀ id answer, s.slot id = some (.committed answer) →
          ∃ result, answer = .ok result)
        ∧ ∀ id e, s.slot id = some (.rolledBack (.error e)) →
          ∃ s' : Db, run (step machine) (Statements.begin twoSends)
              (others twoPublishes id) = some s'
            ∧ s'.world.segments = s.world.segments
            ∧ s'.world.refs = s.world.refs
            ∧ s'.world.handoffs = s.world.handoffs
            ∧ s'.world.grants = s.world.grants) := by
  have hdone : (run (step machine) (Statements.begin twoSends)
      twoPublishes).isSome = true := by decide +kernel
  obtain ⟨s, hrun⟩ := Option.isSome_iff_exists.1 hdone
  have hslot : (run (step machine) (Statements.begin twoSends)
      twoPublishes).map (fun s => s.slot 1)
        = some (some (.rolledBack (.error .quotaExceeded))) := by rfl
  have hbytes : (run (step machine) (Statements.begin twoSends)
      twoPublishes).map (fun s => s.world.liveBytes) = some 6 := by
    decide +kernel
  rw [hrun] at hslot hbytes
  refine ⟨s, hrun, Option.some.inj hslot, Option.some.inj hbytes, ?_⟩
  refine quota_holds (by decide) (by decide) ?_ hrun
  intro label hlabel id c hstart
  simp only [twoPublishes, List.mem_append, List.mem_cons,
    List.mem_replicate, List.not_mem_nil, or_false] at hlabel
  subst hstart
  simp only [Label.start.injEq, reduceCtorEq, and_false, or_false]
    at hlabel
  rcases hlabel with ⟨-, rfl⟩ | ⟨-, rfl⟩
  · rfl
  · rfl

end Elitea.Handoff.Quota
