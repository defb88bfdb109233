/-
Transactions against one database, statement by statement, under READ
COMMITTED with explicit locks.

# What a transaction is

A transaction runs a program. Each turn of it is one statement, which may
first have to take a lock and then sees the committed database with the
transaction's own writes over it, as both stand at that moment
(`Session.view`). The statement's writes are kept aside; they become the
database in one step, at the commit, and a rollback or a failure drops
them. The locks a transaction took go with it, not before.

`Elitea.Lib.Sessions` has one statement to a call and puts its wait for
row locks in the foreground. Here the statements are in the foreground:
which of them see what the others have not committed yet, and which lock
is already held when they read.

# Other writers

A transaction that is not a program of the machine is one step (`other`):
it needs locks nobody holds and changes the database at once.

# What is proved

`step_exec` says what a statement does, `step_quiet` that nothing else
touches a transaction. `run_without` is the rule for refusals: a
transaction that did not commit can be taken out of the run, statements,
locks and all, and the rest of the run still goes through and ends in the
same database.
-/
import Elitea.Lib.Runs
import Mathlib.Logic.Function.Basic

namespace Elitea.Lib.Statements

open Elitea.Lib

variable {World Lock Prog Write Answer Op Other : Type _} {id j : Nat}

-- ============================================================== the machine

/-- What a turn of a transaction comes to. -/
inductive Turn (Prog Write Answer : Type _) where
  | next (prog : Prog) (writes : List Write)
  | commit (answer : Answer)
  | rollback (answer : Answer)

/-- The programs, and what their statements say of the database they see
and of the clock. -/
structure Machine (World Lock Prog Write Answer Op Other : Type _) where
  /-- Where the program of a call starts. -/
  start : Op → Prog
  /-- The lock the next statement takes. -/
  needs : Prog → World → Option Lock
  exec : Prog → World → Nat → Turn Prog Write Answer
  apply : World → Write → World
  /-- The locks another writer needs, and what it makes of the database. -/
  otherNeeds : Other → List Lock
  other : World → Other → Option World

/-- A transaction: where its program stands, and its writes. -/
structure Session (Prog Write : Type _) where
  prog : Prog
  writes : List Write := []

inductive Slot (Prog Write Answer : Type _) where
  | running (session : Session Prog Write)
  | committed (answer : Answer)
  | rolledBack (answer : Answer)
  | failed

/-- The committed database, who holds each lock, and the transactions
started so far. -/
structure State (World Lock Prog Write Answer : Type _) where
  world : World
  holder : Lock → Option Nat
  slot : Nat → Option (Slot Prog Write Answer)

/-- Nothing started, nothing locked. -/
def begin (world : World) : State World Lock Prog Write Answer :=
  ⟨world, fun _ => none, fun _ => none⟩

inductive Label (Op Other : Type _) where
  | start (id : Nat) (op : Op)
  | exec (id : Nat) (now : Nat)
  /-- A timeout, a deadlock, a lost connection. -/
  | fail (id : Nat)
  | other (writer : Other)

/-- The transaction a label is a turn of. -/
def Label.session : Label Op Other → Option Nat
  | .start id _ | .exec id _ | .fail id => some id
  | .other _ => none

/-- The locks without those of a transaction that ended. -/
def released (holder : Lock → Option Nat) (id : Nat) (lock : Lock) :
    Option Nat :=
  if holder lock = some id then none else holder lock

theorem released_keeps {holder : Lock → Option Nat} (hj : j ≠ id) {l : Lock}
    (hl : holder l = some j) : released holder id l = some j := by
  rw [released, if_neg (by rw [hl]; exact fun h => hj (Option.some.inj h))]
  exact hl

theorem released_comm (holder : Lock → Option Nat) (id j : Nat) :
    released (released holder id) j = released (released holder j) id := by
  funext l
  simp only [released]
  by_cases hid : holder l = some id
  · by_cases hj : holder l = some j
    · simp [hid]
    · simp [hid]
  · simp only [if_neg hid]
    by_cases hj : holder l = some j
    · simp [hj]
    · simp [hj, hid]

theorem released_released (holder : Lock → Option Nat) (id : Nat) :
    released (released holder id) id = released holder id := by
  funext l
  by_cases h : holder l = some id
  · simp [released, h]
  · simp [released, h]

section Machine

variable (M : Machine World Lock Prog Write Answer Op Other)

/-- What a transaction's statements see. -/
def Session.view (world : World) (s : Session Prog Write) : World :=
  s.writes.foldl M.apply world

variable [DecidableEq Lock]

/-- The locks once the transaction has the one it needs; `none` while
another holds it. -/
def acquired (holder : Lock → Option Nat) (id : Nat) :
    Option Lock → Option (Lock → Option Nat)
  | none => some holder
  | some lock =>
      if holder lock = none ∨ holder lock = some id then
        some (Function.update holder lock (some id))
      else none

/-- The state after a turn of the transaction `id`. -/
def turned (s : State World Lock Prog Write Answer) (id : Nat)
    (session : Session Prog Write) (holder : Lock → Option Nat) :
    Turn Prog Write Answer → State World Lock Prog Write Answer
  | .next prog writes =>
      { s with
        holder := holder
        slot := Function.update s.slot id
          (some (.running ⟨prog, session.writes ++ writes⟩)) }
  | .commit answer =>
      { world := session.view M s.world
        holder := released holder id
        slot := Function.update s.slot id (some (.committed answer)) }
  | .rollback answer =>
      { s with
        holder := released holder id
        slot := Function.update s.slot id (some (.rolledBack answer)) }

def step (s : State World Lock Prog Write Answer) :
    Label Op Other → Option (State World Lock Prog Write Answer)
  | .start id op =>
      match s.slot id with
      | none => some { s with
          slot := Function.update s.slot id
            (some (.running ⟨M.start op, []⟩)) }
      | some _ => none
  | .exec id now =>
      match s.slot id with
      | some (.running session) =>
          let view := session.view M s.world
          (acquired s.holder id (M.needs session.prog view)).map
            fun holder => turned M s id session holder
              (M.exec session.prog view now)
      | _ => none
  | .fail id =>
      match s.slot id with
      | some (.running _) => some { s with
          holder := released s.holder id
          slot := Function.update s.slot id (some .failed) }
      | _ => none
  | .other writer =>
      if (M.otherNeeds writer).all fun lock => (s.holder lock).isNone then
        (M.other s.world writer).map fun world => { s with world }
      else none

end Machine

-- ============================================================ step inversion

section Steps

variable {M : Machine World Lock Prog Write Answer Op Other}
  [DecidableEq Lock] {s s' : State World Lock Prog Write Answer}

theorem step_start {op : Op} (h : step M s (.start id op) = some s') :
    s.slot id = none
      ∧ s' = { s with
          slot := Function.update s.slot id
            (some (.running ⟨M.start op, []⟩)) } := by
  simp only [step] at h
  split at h
  next hslot => exact ⟨hslot, (Option.some.inj h).symm⟩
  next => cases h

/-- A statement was one of a running transaction that has the lock it
needs. -/
theorem step_exec {now : Nat} (h : step M s (.exec id now) = some s') :
    ∃ session holder, s.slot id = some (.running session)
      ∧ acquired s.holder id
          (M.needs session.prog (session.view M s.world)) = some holder
      ∧ s' = turned M s id session holder
          (M.exec session.prog (session.view M s.world) now) := by
  simp only [step] at h
  split at h
  next session hslot =>
    obtain ⟨holder, hlocks, rfl⟩ := Option.map_eq_some_iff.1 h
    exact ⟨session, holder, hslot, hlocks, rfl⟩
  next => cases h

theorem step_fail (h : step M s (.fail id : Label Op Other) = some s') :
    (∃ session, s.slot id = some (.running session))
      ∧ s' = { s with
          holder := released s.holder id
          slot := Function.update s.slot id (some .failed) } := by
  simp only [step] at h
  split at h
  next session hslot =>
    exact ⟨⟨session, hslot⟩, (Option.some.inj h).symm⟩
  next => cases h

theorem step_other {writer : Other}
    (h : step M s (.other writer) = some s') :
    (∀ lock ∈ M.otherNeeds writer, s.holder lock = none)
      ∧ ∃ world, M.other s.world writer = some world
        ∧ s' = { s with world } := by
  obtain ⟨hfree, h⟩ := Option.ite_none_right_eq_some.1 h
  obtain ⟨world, hworld, rfl⟩ := Option.map_eq_some_iff.1 h
  refine ⟨?_, world, hworld, rfl⟩
  intro lock hlock
  exact Option.isNone_iff_eq_none.1 (List.all_eq_true.1 hfree lock hlock)

/-- A lock taken was free or the transaction's own; the others stay where
they are. -/
theorem acquired_eq_some {holder after : Lock → Option Nat}
    {lock : Option Lock} (h : acquired holder id lock = some after) :
    (∀ l, lock = some l → (holder l = none ∨ holder l = some id)
        ∧ after l = some id)
      ∧ ∀ l, lock ≠ some l → after l = holder l := by
  cases lock with
  | none =>
      cases h
      exact ⟨(fun l hl => nomatch hl), fun l _ => rfl⟩
  | some lock =>
      obtain ⟨hfree, h⟩ := Option.ite_none_right_eq_some.1 h
      cases h
      constructor
      · rintro l ⟨⟩
        exact ⟨hfree, Function.update_self ..⟩
      · intro l hl
        exact Function.update_of_ne
          (fun he => hl (congrArg some he.symm)) _ _

/-- Nobody loses a lock to a statement of another. -/
theorem acquired_keeps {holder after : Lock → Option Nat} {lock : Option Lock}
    (h : acquired holder id lock = some after) (hj : j ≠ id) {l : Lock}
    (hl : holder l = some j) : after l = some j := by
  obtain ⟨htaken, hother⟩ := acquired_eq_some h
  by_cases hlock : lock = some l
  · obtain ⟨hfree | hmine, -⟩ := htaken l hlock
    · rw [hl] at hfree
      cases hfree
    · rw [hl] at hmine
      exact absurd (Option.some.inj hmine) hj
  · rw [hother l hlock]
    exact hl

/-- A transaction keeps the locks it has through its own statements. -/
theorem acquired_own {holder after : Lock → Option Nat} {lock : Option Lock}
    (h : acquired holder id lock = some after) {l : Lock}
    (hl : holder l = some id) : after l = some id := by
  obtain ⟨htaken, hother⟩ := acquired_eq_some h
  by_cases hlock : lock = some l
  · exact (htaken l hlock).2
  · rw [hother l hlock]
    exact hl

/-- A step of one transaction, or of another writer, leaves the slots and
the locks of the other transactions alone. -/
theorem step_quiet {label : Label Op Other} (h : step M s label = some s')
    (hj : label.session ≠ some j) :
    s'.slot j = s.slot j
      ∧ ∀ l, s.holder l = some j → s'.holder l = some j := by
  cases label with
  | start id op =>
      obtain ⟨-, rfl⟩ := step_start h
      have hne : j ≠ id := fun he => hj (congrArg some he.symm)
      exact ⟨Function.update_of_ne hne _ _, fun l hl => hl⟩
  | exec id now =>
      obtain ⟨session, holder, -, hlocks, rfl⟩ := step_exec h
      have hne : j ≠ id := fun he => hj (congrArg some he.symm)
      cases M.exec session.prog (session.view M s.world) now with
      | next prog writes =>
          exact ⟨Function.update_of_ne hne _ _,
            fun l hl => acquired_keeps hlocks hne hl⟩
      | commit answer =>
          exact ⟨Function.update_of_ne hne _ _,
            fun l hl => released_keeps hne (acquired_keeps hlocks hne hl)⟩
      | rollback answer =>
          exact ⟨Function.update_of_ne hne _ _,
            fun l hl => released_keeps hne (acquired_keeps hlocks hne hl)⟩
  | fail id =>
      obtain ⟨-, rfl⟩ := step_fail h
      have hne : j ≠ id := fun he => hj (congrArg some he.symm)
      exact ⟨Function.update_of_ne hne _ _,
        fun l hl => released_keeps hne hl⟩
  | other writer =>
      obtain ⟨-, world, -, rfl⟩ := step_other h
      exact ⟨rfl, fun l hl => hl⟩

/-- What a transaction ended with stays. -/
theorem step_committed {label : Label Op Other} {answer : Answer}
    (h : step M s label = some s') (hj : s.slot j = some (.committed answer)) :
    s'.slot j = some (.committed answer) := by
  by_cases hsession : label.session = some j
  · -- a label of the transaction itself is disabled once it has ended
    cases label with
    | start id op =>
        cases hsession
        rw [(step_start h).1] at hj
        cases hj
    | exec id now =>
        cases hsession
        obtain ⟨session, _, hslot, -⟩ := step_exec h
        rw [hslot] at hj
        cases hj
    | fail id =>
        cases hsession
        obtain ⟨⟨session, hslot⟩, -⟩ := step_fail h
        rw [hslot] at hj
        cases hj
    | other writer => cases hsession
  · rw [(step_quiet h hsession).1]
    exact hj

/-- What a step of a transaction makes of it. -/
theorem step_own {label : Label Op Other} (h : step M s label = some s')
    (hj : label.session = some j) :
    (∃ op, label = .start j op
        ∧ s'.slot j = some (.running ⟨M.start op, []⟩))
      ∨ (∃ session now holder, label = .exec j now
          ∧ s.slot j = some (.running session)
          ∧ acquired s.holder j
              (M.needs session.prog (session.view M s.world))
                = some holder
          ∧ s' = turned M s j session holder
              (M.exec session.prog (session.view M s.world) now))
      ∨ s'.slot j = some .failed := by
  cases label with
  | start id op =>
      cases hj
      obtain ⟨-, rfl⟩ := step_start h
      exact .inl ⟨op, rfl, Function.update_self ..⟩
  | exec id now =>
      cases hj
      obtain ⟨session, holder, hslot, hlocks, he⟩ := step_exec h
      exact .inr (.inl ⟨session, now, holder, rfl, hslot, hlocks, he⟩)
  | fail id =>
      cases hj
      obtain ⟨-, rfl⟩ := step_fail h
      exact .inr (.inr (Function.update_self ..))
  | other writer => cases hj

omit [DecidableEq Lock] in
@[simp] theorem slot_turned (s : State World Lock Prog Write Answer)
    (id : Nat) (session : Session Prog Write)
    (holder : Lock → Option Nat) (turn : Turn Prog Write Answer) :
    (turned M s id session holder turn).slot id = some (match turn with
      | .next prog writes => .running ⟨prog, session.writes ++ writes⟩
      | .commit answer => .committed answer
      | .rollback answer => .rolledBack answer) := by
  cases turn with
  | next prog writes => exact Function.update_self ..
  | commit answer => exact Function.update_self ..
  | rollback answer => exact Function.update_self ..

/-- A transaction that has committed did before, or its program has just
answered. -/
theorem committed_step {label : Label Op Other} {answer : Answer}
    (h : step M s label = some s') (hj : s'.slot j = some (.committed answer))
    : s.slot j = some (.committed answer)
      ∨ ∃ prog world now, M.exec prog world now = .commit answer := by
  by_cases hsession : label.session = some j
  · rcases step_own h hsession with ⟨op, -, hs⟩
      | ⟨session, now, holder, -, -, -, rfl⟩ | hs
    · rw [hs] at hj
      cases hj
    · rw [slot_turned] at hj
      split at hj
      next => cases hj
      next given hexec =>
        cases hj
        exact .inr ⟨_, _, _, hexec⟩
      next => cases hj
    · rw [hs] at hj
      cases hj
  · exact .inl ((step_quiet h hsession).1 ▸ hj)

/-- What holds of every answer a program commits with holds of every
answer committed. -/
theorem run_answers {P : Answer → Prop} (hprog : ∀ {prog world now answer},
      M.exec prog world now = .commit answer → P answer)
    {labels : List (Label Op Other)} {world : World}
    (h : run (step M) (begin world) labels = some s) {answer : Answer}
    (hj : s.slot j = some (.committed answer)) : P answer := by
  have hinv := @run_inv' _ _ (step M)
    (fun s => ∀ j answer, s.slot j = some (.committed answer) → P answer)
    (fun s label s' hi hs j answer hj =>
      (committed_step hs hj).elim (hi j answer)
        fun ⟨_, _, _, hexec⟩ => hprog hexec)
    labels (begin world) s (fun j answer hj => by cases hj) h
  exact hinv j answer hj

theorem run_committed {labels : List (Label Op Other)} {answer : Answer}
    (h : run (step M) s labels = some s')
    (hj : s.slot j = some (.committed answer)) :
    s'.slot j = some (.committed answer) :=
  run_inv' (fun _ _ _ hi hs => step_committed hs hi) labels s s' hj h

end Steps

-- ================================================================= refusals

section Without

variable {M : Machine World Lock Prog Write Answer Op Other}
  [DecidableEq Lock] {s s' : State World Lock Prog Write Answer}

/-- The state as it is when the transaction was never started. -/
def State.without (s : State World Lock Prog Write Answer) (id : Nat) :
    State World Lock Prog Write Answer :=
  { world := s.world
    holder := released s.holder id
    slot := Function.update s.slot id none }

/-- What another transaction may lock it may lock without `id` too. -/
theorem acquired_released {holder after : Lock → Option Nat}
    {lock : Option Lock} (hj : j ≠ id)
    (h : acquired holder j lock = some after) :
    acquired (released holder id) j lock = some (released after id) := by
  cases lock with
  | none =>
      cases h
      rfl
  | some lock =>
      simp only [acquired] at h ⊢
      split at h
      next hfree =>
        cases h
        rw [if_pos]
        · refine congrArg some (funext fun l => ?_)
          by_cases hl : l = lock
          · subst hl
            rw [Function.update_self, released, Function.update_self,
              if_neg fun he => hj (Option.some.inj he)]
          · rw [Function.update_of_ne hl, released, released,
              Function.update_of_ne hl]
        · rcases hfree with hfree | hmine
          · left
            rw [released, hfree]
            rfl
          · exact .inr (released_keeps hj hmine)
      next => cases h

theorem released_acquired {holder after : Lock → Option Nat}
    {lock : Option Lock} (h : acquired holder id lock = some after) :
    released after id = released holder id := by
  funext l
  obtain ⟨htaken, hother⟩ := acquired_eq_some h
  by_cases hlock : lock = some l
  · obtain ⟨hfree, hmine⟩ := htaken l hlock
    rw [released, released, if_pos hmine]
    rcases hfree with hfree | hfree
    · rw [hfree]
      rfl
    · rw [if_pos hfree]
  · rw [released, released, hother l hlock]

omit [DecidableEq Lock] in
theorem turned_without (hj : j ≠ id) (session : Session Prog Write)
    (holder : Lock → Option Nat) (turn : Turn Prog Write Answer) :
    turned M (s.without id) j session (released holder id) turn
      = (turned M s j session holder turn).without id := by
  cases turn with
  | next prog writes =>
      simp only [turned, State.without, State.mk.injEq, true_and]
      exact Function.update_comm hj.symm _ _ _
  | commit answer =>
      simp only [turned, State.without, State.mk.injEq, true_and]
      exact ⟨released_comm _ _ _, Function.update_comm hj.symm _ _ _⟩
  | rollback answer =>
      simp only [turned, State.without, State.mk.injEq, true_and]
      exact ⟨released_comm _ _ _, Function.update_comm hj.symm _ _ _⟩

/-- A step of the others is possible without `id`, and comes to the
same. -/
theorem step_without {label : Label Op Other} (h : step M s label = some s')
    (hid : label.session ≠ some id) :
    step M (s.without id) label = some (s'.without id) := by
  have slot_of_ne : ∀ {j}, j ≠ id → (s.without id).slot j = s.slot j :=
    fun hj => Function.update_of_ne hj _ _
  cases label with
  | start j op =>
      have hj : j ≠ id := fun he => hid (congrArg some he)
      obtain ⟨hslot, rfl⟩ := step_start h
      simp only [step, slot_of_ne hj, hslot]
      simp only [State.without, Option.some.injEq, State.mk.injEq, true_and]
      exact Function.update_comm hj.symm _ _ _
  | exec j now =>
      have hj : j ≠ id := fun he => hid (congrArg some he)
      obtain ⟨session, holder, hslot, hlocks, rfl⟩ := step_exec h
      have hworld : (s.without id).world = s.world := rfl
      have hholder : (s.without id).holder = released s.holder id := rfl
      simp only [step, slot_of_ne hj, hslot, hworld, hholder,
        acquired_released hj hlocks, Option.map_some]
      rw [turned_without hj]
  | fail j =>
      have hj : j ≠ id := fun he => hid (congrArg some he)
      obtain ⟨⟨session, hslot⟩, rfl⟩ := step_fail h
      simp only [step, slot_of_ne hj, hslot]
      simp only [State.without, Option.some.injEq, State.mk.injEq, true_and]
      exact ⟨released_comm _ _ _, Function.update_comm hj.symm _ _ _⟩
  | other writer =>
      obtain ⟨hfree, world, hworld, rfl⟩ := step_other h
      have hall : ((M.otherNeeds writer).all fun lock =>
          ((s.without id).holder lock).isNone) = true := by
        refine List.all_eq_true.2 fun lock hlock => ?_
        have hnone : (s.without id).holder lock = none := by
          show released s.holder id lock = none
          rw [released, hfree lock hlock]
          rfl
        exact Option.isNone_iff_eq_none.2 hnone
      have hsame : (s.without id).world = s.world := rfl
      simp only [step, hall, if_true, hsame, hworld, Option.map_some]
      rfl

/-- A step of `id` itself that is not its commit leaves nothing of it in
the state. -/
theorem without_step {label : Label Op Other} (h : step M s label = some s')
    (hid : label.session = some id)
    (hcommit : ∀ answer, s'.slot id ≠ some (.committed answer)) :
    s'.without id = s.without id := by
  have slots : ∀ slot, Function.update
      (Function.update s.slot id slot) id none
        = Function.update s.slot id none :=
    fun slot => Function.update_idem _ _ _
  cases label with
  | start j op =>
      cases hid
      obtain ⟨-, rfl⟩ := step_start h
      simp only [State.without, slots]
  | exec j now =>
      cases hid
      obtain ⟨session, holder, -, hlocks, rfl⟩ := step_exec h
      cases hturn : M.exec session.prog (session.view M s.world) now with
      | next prog writes =>
          simp only [turned, State.without, slots,
            released_acquired hlocks]
      | commit answer =>
          rw [hturn] at hcommit
          exact absurd (Function.update_self ..) (hcommit answer)
      | rollback answer =>
          simp only [turned, State.without, slots, released_released,
            released_acquired hlocks]
  | fail j =>
      cases hid
      obtain ⟨-, rfl⟩ := step_fail h
      simp only [State.without, slots, released_released]
  | other writer => cases hid

/-- A run without the transaction's own turns. -/
def others (labels : List (Label Op Other)) (id : Nat) :
    List (Label Op Other) :=
  labels.filter fun label => label.session ≠ some id

/-- A transaction that did not commit leaves no trace: the others' steps
alone go through and end in the same database. -/
theorem run_without :
    ∀ (labels : List (Label Op Other))
      (s s' : State World Lock Prog Write Answer),
      run (step M) s labels = some s' →
      (∀ answer, s'.slot id ≠ some (.committed answer)) →
      run (step M) (s.without id) (others labels id)
        = some (s'.without id) := by
  intro labels
  induction labels with
  | nil =>
      intro s s' hrun _
      cases hrun
      rfl
  | cons label labels ih =>
      intro s s' hrun hend
      obtain ⟨mid, hstep, hrest⟩ := run_cons_eq_some.1 hrun
      have hmid : ∀ answer, mid.slot id ≠ some (.committed answer) :=
        fun answer h => hend answer (run_committed hrest h)
      have hih := ih mid s' hrest hend
      by_cases hid : label.session = some id
      · rw [without_step hstep hid hmid] at hih
        rw [others, List.filter_cons_of_neg (by simpa using hid)]
        exact hih
      · rw [others, List.filter_cons_of_pos (by simpa using hid)]
        exact run_cons_eq_some.2 ⟨_, step_without hstep hid, hih⟩

omit [DecidableEq Lock] in
@[simp] theorem without_begin (world : World) (id : Nat) :
    (begin world : State World Lock Prog Write Answer).without id
      = begin world := by
  simp only [State.without, begin, State.mk.injEq, true_and]
  refine ⟨funext fun l => ?_, funext fun j => ?_⟩
  · rw [released, if_neg (nofun)]
  · by_cases hj : j = id
    · rw [hj, Function.update_self]
    · rw [Function.update_of_ne hj]

end Without

end Elitea.Lib.Statements
