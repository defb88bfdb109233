/-
Calls against one database under READ COMMITTED with row locks, as the
statement-level interleavings of the execution repositories are stated.

# What a call is

A call starts with a statement. The statement sees the database as it
was committed when it began, so the call keeps that state (`seen`) and
the time (`since`). It then takes row locks one at a time, each only
while no other call holds it, and finishes: its writes become visible in
one step, the commit, and its locks go. A call may also fail at any
moment (a deadlock, a timeout, a lost connection), which rolls it back.

A row that a call holds cannot change under it, so what the call reads of
its own rows is the committed state at the commit. What it read before
it waited is `seen`, however old that has become. `exec` is given both:
which of the two a condition is evaluated on is what a modelled
statement has to say.

# What is proved

`Follows.step` is the invariant rule: a reflexive relation that every
commit extends relates every open call's `seen`, which was the committed
state once, to the present. The relation may depend on the call.
-/
import Elitea.Lib.Runs

namespace Elitea.Lib.Sessions

open Elitea.Lib

variable {Op Row World Choice Answer : Type _}

-- ============================================================== the machine

/-- A call in flight. -/
structure Call (Op Row World : Type _) where
  op : Op
  /-- The committed state its statement began on. -/
  seen : World
  /-- The clock at that moment. -/
  since : Nat
  held : List Row

/-- A database with the calls in flight and the answers given so far, the
latest last. -/
structure State (Op Row World Answer : Type _) where
  world : World
  clock : Nat
  calls : List (Call Op Row World)
  answers : List (Op × Answer)

inductive Label (Op Row Choice : Type _) where
  | tick (ticks : Nat)
  | start (op : Op)
  | acquire (call : Nat) (row : Row)
  | finish (call : Nat) (choice : Choice)
  | fail (call : Nat)

/-- What the modelled statements say, of the committed state and the
clock: the rows a call holds when it commits, and what its commit does.
`choice` is what the call takes from outside the database (a random
token, a time it read). -/
structure Machine (Op Row World Choice Answer : Type _) where
  wants : World → Nat → Call Op Row World → Choice → List Row
  exec : World → Nat → Call Op Row World → Choice →
    Option (Answer × World)

/-- Nobody holds the row. -/
def free [DecidableEq Row] (calls : List (Call Op Row World))
    (row : Row) : Bool :=
  calls.all fun call => !call.held.contains row

def step [DecidableEq Row] (M : Machine Op Row World Choice Answer)
    (s : State Op Row World Answer) :
    Label Op Row Choice → Option (State Op Row World Answer)
  | .tick ticks => some { s with clock := s.clock + ticks }
  | .start op =>
      some { s with calls := s.calls ++ [⟨op, s.world, s.clock, []⟩] }
  | .acquire i row =>
      match s.calls[i]? with
      | none => none
      | some call =>
          if free s.calls row then
            some { s with
              calls := s.calls.set i { call with held := row :: call.held } }
          else none
  | .finish i choice =>
      match s.calls[i]? with
      | none => none
      | some call =>
          if (M.wants s.world s.clock call choice).all
              call.held.contains then
            match M.exec s.world s.clock call choice with
            | none => none
            | some (answer, world) =>
                some { world, clock := s.clock, calls := s.calls.eraseIdx i,
                       answers := s.answers ++ [(call.op, answer)] }
          else none
  | .fail i =>
      if i < s.calls.length then
        some { s with calls := s.calls.eraseIdx i }
      else none

/-- No call open, nothing answered. -/
def begin (world : World) (clock : Nat) : State Op Row World Answer :=
  ⟨world, clock, [], []⟩

/-- The call a label finishes. -/
def finishing (s : State Op Row World Answer) :
    Label Op Row Choice → Option (Call Op Row World)
  | .finish i _ => s.calls[i]?
  | _ => none

-- ============================================================ step inversion

section Steps

variable [DecidableEq Row] {M : Machine Op Row World Choice Answer}
  {s s' : State Op Row World Answer}

/-- The call was open in `s`, or starts there. -/
def OpenedBy (s : State Op Row World Answer) (call : Call Op Row World) :
    Prop :=
  (call.seen = s.world ∧ call.since = s.clock)
    ∨ ∃ old ∈ s.calls, call.seen = old.seen ∧ call.since = old.since
        ∧ call.op = old.op

/-- A finished call held the rows it wants, and its commit is `exec` on
the committed state. Every other label leaves the database and the
answers alone, and a call open after it was open before, or has just
started. -/
theorem step_cases {l : Label Op Row Choice} (h : step M s l = some s') :
    (∃ i choice call answer world, l = .finish i choice
      ∧ s.calls[i]? = some call
      ∧ (M.wants s.world s.clock call choice).all call.held.contains = true
      ∧ M.exec s.world s.clock call choice = some (answer, world)
      ∧ s' = ⟨world, s.clock, s.calls.eraseIdx i,
          s.answers ++ [(call.op, answer)]⟩)
    ∨ (finishing s l = none ∧ s'.world = s.world ∧ s'.answers = s.answers
      ∧ s.clock ≤ s'.clock ∧ ∀ call ∈ s'.calls, OpenedBy s call) := by
  have same : ∀ call ∈ s.calls, OpenedBy s call :=
    fun call hc => .inr ⟨call, hc, rfl, rfl, rfl⟩
  cases l with
  | finish i choice =>
      simp only [step] at h
      cases hc : s.calls[i]? with
      | none => rw [hc] at h; cases h
      | some call =>
          rw [hc] at h
          obtain ⟨hw, h⟩ := Option.ite_none_right_eq_some.1 h
          cases he : M.exec s.world s.clock call choice with
          | none => rw [he] at h; cases h
          | some r =>
              rw [he] at h
              exact .inl ⟨i, choice, call, r.1, r.2, rfl, hc, hw, he,
                (Option.some.inj h).symm⟩
  | tick ticks =>
      cases h
      exact .inr ⟨rfl, rfl, rfl, Nat.le_add_right _ _, same⟩
  | start op =>
      cases h
      refine .inr ⟨rfl, rfl, rfl, Nat.le_refl _, fun call hc => ?_⟩
      rcases List.mem_append.1 hc with hc | hc
      · exact same call hc
      · rw [List.mem_singleton.1 hc]
        exact .inl ⟨rfl, rfl⟩
  | acquire i row =>
      simp only [step] at h
      cases hi : s.calls[i]? with
      | none => rw [hi] at h; cases h
      | some old =>
          rw [hi] at h
          obtain ⟨-, h⟩ := Option.ite_none_right_eq_some.1 h
          cases h
          refine .inr ⟨rfl, rfl, rfl, Nat.le_refl _, fun call hc => ?_⟩
          rcases List.mem_or_eq_of_mem_set hc with hc | rfl
          · exact same call hc
          · exact .inr ⟨old, List.mem_of_getElem? hi, rfl, rfl, rfl⟩
  | fail i =>
      obtain ⟨-, h⟩ := Option.ite_none_right_eq_some.1 h
      cases h
      exact .inr ⟨rfl, rfl, rfl, Nat.le_refl _,
        fun call hc => same call (List.mem_of_mem_eraseIdx hc)⟩

/-- A call open after a step has just started, or it was open before. -/
theorem step_calls {l : Label Op Row Choice} (h : step M s l = some s') :
    ∀ call ∈ s'.calls, call.seen = s.world
      ∨ ∃ old ∈ s.calls, call.seen = old.seen ∧ call.op = old.op := by
  intro call hm
  rcases step_cases h with
    ⟨i, choice, done, answer, world, rfl, -, -, -, rfl⟩ | ⟨-, -, -, -, hcalls⟩
  · exact .inr ⟨call, List.mem_of_mem_eraseIdx hm, rfl, rfl⟩
  · rcases hcalls call hm with ⟨e, -⟩ | ⟨old, ho, e, -, hop⟩
    · exact .inl e
    · exact .inr ⟨old, ho, e, hop⟩

end Steps

-- =========================================================== invariant rules

section Rules

/-- `Inv` holds of the committed state and of what every open call saw. -/
structure Throughout (Inv : World → Prop)
    (s : State Op Row World Answer) : Prop where
  now : Inv s.world
  seen : ∀ call ∈ s.calls, Inv call.seen
  since : ∀ call ∈ s.calls, call.since ≤ s.clock

theorem Throughout.begin {Inv : World → Prop} {world : World}
    (clock : Nat) (h : Inv world) :
    Throughout Inv
      (begin world clock : State Op Row World Answer) :=
  ⟨h, fun _ hc => absurd hc List.not_mem_nil,
    fun _ hc => absurd hc List.not_mem_nil⟩

/-- `Rel` relates what every open call saw to the committed state. -/
def Follows (Rel : Op → World → World → Prop)
    (s : State Op Row World Answer) : Prop :=
  ∀ call ∈ s.calls, Rel call.op call.seen s.world

theorem Follows.begin {Rel : Op → World → World → Prop} (world : World)
    (clock : Nat) :
    Follows Rel (begin world clock : State Op Row World Answer) :=
  fun _ hc => absurd hc List.not_mem_nil

variable [DecidableEq Row] {M : Machine Op Row World Choice Answer}

/-- One step keeps what every commit keeps. -/
theorem Throughout.step {Inv : World → Prop}
    {s s' : State Op Row World Answer} {l : Label Op Row Choice}
    (hs : Throughout Inv s) (h : Sessions.step M s l = some s')
    (hexec : ∀ i choice call answer world, l = .finish i choice →
      s.calls[i]? = some call →
      M.exec s.world s.clock call choice = some (answer, world) →
      Inv world) : Throughout Inv s' := by
  rcases step_cases h with
    ⟨i, choice, call, answer, world, rfl, hc, -, he, rfl⟩
    | ⟨-, hw, -, hclock, hcalls⟩
  · refine ⟨hexec i choice call answer world rfl hc he, ?_, ?_⟩
    · exact fun c hm => hs.seen c (List.mem_of_mem_eraseIdx hm)
    · exact fun c hm => hs.since c (List.mem_of_mem_eraseIdx hm)
  · refine ⟨hw ▸ hs.now, fun call hm => ?_, fun call hm => ?_⟩
    · rcases hcalls call hm with ⟨e, -⟩ | ⟨old, ho, e, -, -⟩
      · exact e ▸ hs.now
      · exact e ▸ hs.seen old ho
    · rcases hcalls call hm with ⟨-, e⟩ | ⟨old, ho, -, e, -⟩
      · exact e ▸ hclock
      · exact e ▸ Nat.le_trans (hs.since old ho) hclock

/-- One step keeps a reflexive relation that every commit extends. -/
theorem Follows.step {Rel : Op → World → World → Prop}
    {s s' : State Op Row World Answer} {l : Label Op Row Choice}
    (hrefl : ∀ op, Rel op s.world s.world) (hs : Follows Rel s)
    (h : Sessions.step M s l = some s')
    (hexec : ∀ i choice call answer world, l = .finish i choice →
      s.calls[i]? = some call →
      M.exec s.world s.clock call choice = some (answer, world) →
      ∀ other ∈ s.calls, Rel other.op other.seen s.world →
        Rel other.op other.seen world) : Follows Rel s' := by
  rcases step_cases h with
    ⟨i, choice, call, answer, world, rfl, hc, -, he, rfl⟩
    | ⟨-, hw, -, -, hcalls⟩
  · intro c hm
    have ho := List.mem_of_mem_eraseIdx hm
    exact hexec i choice call answer world rfl hc he c ho (hs c ho)
  · intro call hm
    rcases hcalls call hm with ⟨e, -⟩ | ⟨old, ho, e, -, hop⟩
    · exact e ▸ hw ▸ hrefl call.op
    · exact hop ▸ e ▸ hw ▸ hs old ho

end Rules

end Elitea.Lib.Sessions
