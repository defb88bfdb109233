/-
Reducer checks and reducers agree.

# One update

The guard's verdict is the reduction's (`checkUpdate_eq`). Only `append`
is checked without reducing: the size of two arrays one after another is
known from the two sizes, and a joined array within the bound has both
parts within it. What a reduction returns, its channel may hold
(`checkHeld_of_reduceChecked`); for a sum this is the exact reading of the
text just written (`exactI64_toString`).

# Runs

In a super-step in which one node at most writes a typed channel, the
value the engine hands to the closure is the value the guard read, so the
closure never refuses (`superStep_channel`), and a run is the left fold of
the accepted updates (`channels_fold`).
-/
import Elitea.Graph.Reducers
import Elitea.Graph.Proofs.ExactNumber
import Elitea.Lib.Runs

namespace Elitea.Graph

open Lib

variable {start update value : Value} {updates : List Value} {g : GraphState}

-- =============================================================== the sizes

theorem foldlM_cappedWrite (sizes : List Nat) (cap : Nat) :
    sizes.foldlM cappedWrite cap
      = if sizes.sum ≤ cap then some (cap - sizes.sum) else none := by
  induction sizes generalizing cap with
  | nil => simp
  | cons n sizes ih =>
      rw [List.foldlM_cons, List.sum_cons, cappedWrite]
      by_cases hn : n ≤ cap
      · rw [if_pos hn]
        show sizes.foldlM cappedWrite (cap - n) = _
        rw [ih, Nat.sub_sub]
        by_cases hs : sizes.sum ≤ cap - n
        · rw [if_pos hs, if_pos (by omega)]
        · rw [if_neg hs, if_neg (by omega)]
      · rw [if_neg hn, if_neg (by omega)]
        rfl

/-- The counting writer tells the size, up to its bound. -/
theorem jsonLenWithin_eq (value : Value) (cap : Nat) :
    jsonLenWithin value cap
      = if value.size ≤ cap then some value.size else none := by
  unfold jsonLenWithin
  rw [foldlM_cappedWrite]
  change Option.map _ (if value.size ≤ cap then some (cap - value.size)
    else none) = _
  by_cases h : value.size ≤ cap
  · rw [if_pos h, if_pos h, Option.map_some, Nat.sub_sub_self h]
  · rw [if_neg h, if_neg h, Option.map_none]

theorem withinBytes_eq (value : Value) :
    withinBytes value
      = if value.size ≤ maxReducedBytes then .ok () else .error .limit := by
  unfold withinBytes
  rw [jsonLenWithin_eq]
  by_cases h : value.size ≤ maxReducedBytes
  · rw [if_pos h, if_pos h]
  · rw [if_neg h, if_neg h]

-- ============================================================= one verdict

/-- The verdict by sizes is the verdict on the joined array. -/
theorem checkAppend_eq (held added : List Value) :
    checkAppend held added
      = if held.length + added.length > maxAppendElements
          ∨ maxReducedBytes < (Value.array (held ++ added)).size
        then .error .limit else .ok () := by
  unfold checkAppend
  by_cases hlen : held.length + added.length > maxAppendElements
  · rw [if_pos hlen, if_pos (Or.inl hlen)]
  · rw [if_neg hlen, jsonLenWithin_eq, jsonLenWithin_eq]
    -- both parts are within the bound if the whole is
    have hparts : (Value.array held).size ≤ (Value.array (held ++ added)).size
        ∧ (Value.array added).size ≤ (Value.array (held ++ added)).size := by
      refine ⟨Value.size_array_le held added, ?_⟩
      by_cases hh : held = []
      · rw [hh, List.nil_append]
      · by_cases ha : added = []
        · rw [ha, Value.size_array, Value.size_array]
          exact Nat.add_le_add_right (Nat.zero_le _) 2
        · rw [Value.size_array_append hh ha, Value.size_array,
            Value.size_array]
          omega
    have htotal : (if held.isEmpty then (Value.array added).size
        else if added.isEmpty then (Value.array held).size
        else (Value.array held).size + (Value.array added).size - 1)
        = (Value.array (held ++ added)).size := by
      cases held with
      | nil => rfl
      | cons v held =>
          cases added with
          | nil => rw [List.append_nil]; rfl
          | cons w added =>
              exact (Value.size_array_append (List.cons_ne_nil _ _)
                (List.cons_ne_nil _ _)).symm
    obtain ⟨hheld, hadded⟩ := hparts
    by_cases hsize : maxReducedBytes < (Value.array (held ++ added)).size
    · rw [if_pos (Or.inr hsize)]
      by_cases hh : (Value.array held).size ≤ maxReducedBytes
      · by_cases ha : (Value.array added).size ≤ maxReducedBytes
        · rw [if_pos hh, if_pos ha]
          dsimp only
          rw [htotal, if_pos hsize]
        · rw [if_pos hh, if_neg ha]
      · rw [if_neg hh]
    · rw [if_neg (not_or.2 ⟨hlen, hsize⟩), if_pos (by omega),
        if_pos (by omega)]
      dsimp only
      rw [htotal, if_neg hsize]

theorem reduceChecked_append (held added : List Value) :
    StateReducer.append.reduceChecked (.array held) (.array added)
      = if held.length + added.length > maxAppendElements
          ∨ maxReducedBytes < (Value.array (held ++ added)).size
        then .error .limit else .ok (.array (held ++ added)) := by
  rw [StateReducer.reduceChecked]
  by_cases hlen : held.length + added.length > maxAppendElements
  · rw [if_pos hlen, if_pos (Or.inl hlen)]
  · rw [if_neg hlen, StateReducer.checkHeld, List.length_append,
      if_neg hlen, withinBytes_eq]
    by_cases hsize : maxReducedBytes < (Value.array (held ++ added)).size
    · rw [if_neg (not_le.2 hsize), if_pos (Or.inr hsize)]
      rfl
    · rw [if_pos (not_lt.1 hsize), if_neg (not_or.2 ⟨hlen, hsize⟩)]
      rfl

/-- The guard says of every update what the reducer does. -/
theorem checkUpdate_eq (r : StateReducer) (current update : Value) :
    r.checkUpdate current update
      = (r.reduceChecked current update).map fun _ => () := by
  unfold StateReducer.checkUpdate
  split
  next held added =>
    rw [checkAppend_eq, reduceChecked_append]
    split_ifs <;> rfl
  next => rfl

-- ========================================================= what is reduced

theorem integer_fromI64 {n : Int} (h : InI64 n) :
    integer (toString n).toList = .ok n := by
  unfold integer
  rw [exactI64_toString h]

theorem checkHeld_of_reduceChecked {r : StateReducer} {current reduced : Value}
    (h : r.reduceChecked current update = .ok reduced) :
    r.checkHeld reduced = .ok () := by
  unfold StateReducer.reduceChecked at h
  split at h
  next held added =>
    split at h
    next => cases h
    next =>
      obtain ⟨_, hheld, h⟩ := bind_eq_ok.1 h
      obtain rfl := Except.ok.inj h
      exact hheld
  next held added =>
    obtain ⟨a, -, h⟩ := bind_eq_ok.1 h
    obtain ⟨b, -, h⟩ := bind_eq_ok.1 h
    split at h
    next hin =>
      obtain rfl := Except.ok.inj h
      show (integer (toString (a + b)).toList).map (fun _ => ()) = .ok ()
      rw [integer_fromI64 hin]
      rfl
    next => cases h
  next held added =>
    obtain ⟨_, hheld, h⟩ := bind_eq_ok.1 h
    obtain rfl := Except.ok.inj h
    exact hheld
  next => cases h

theorem checkUpdate_ok_iff {r : StateReducer} {current : Value} :
    r.checkUpdate current update = .ok () ↔
      ∃ reduced, r.reduceChecked current update = .ok reduced := by
  rw [checkUpdate_eq]
  cases r.reduceChecked current update with
  | error e =>
      refine ⟨(fun h => nomatch h), ?_⟩
      rintro ⟨reduced, h⟩
      cases h
  | ok v => exact ⟨fun _ => ⟨v, rfl⟩, fun _ => rfl⟩

-- ============================================================= the channels

section Channels

variable {reducers : Reducers} {channel : List Char} {r : StateReducer}

/-- Updates of a channel that its reducer accepts one after another. -/
def Folds (r : StateReducer) (start : Value) (updates : List Value)
    (value : Value) : Prop :=
  updates.foldlM r.reduceChecked start = .ok value

theorem folds_cons :
    Folds r start (update :: updates) value ↔
      ∃ mid, r.reduceChecked start update = .ok mid
        ∧ Folds r mid updates value := by
  unfold Folds
  rw [List.foldlM_cons]
  exact bind_eq_ok

-- ============================================================ super-steps

/-- A super-step whose outputs all passed the guard on the state the nodes
read, with one writer at most for every typed channel. -/
structure Admitted (reducers : Reducers) (g : GraphState)
    (outputs : List NodeOutput) : Prop where
  passed : ∀ o ∈ outputs, ∃ node,
    reducers.execute node g.channels (.ok o) = .ok o
  oneWriter : ∀ channel ∈ Members.keys reducers.declared,
    (outputs.filter fun o =>
      !o.interrupt && decide (channel ∈ Members.keys o.updates)).length ≤ 1

theorem guardLoop_ok {node : List Char} {state : Channels}
    {updates : List (List Char × Value)}
    {declared : List (List Char × StateReducer)}
    (h : guardLoop node state updates declared = .ok ())
    (hmem : (channel, r) ∈ declared)
    (hupdate : updates.lookup channel = some update) :
    r.checkUpdate (state.current channel) update = .ok () := by
  induction declared with
  | nil => cases hmem
  | cons d declared ih =>
      obtain ⟨c, reducer⟩ := d
      rw [guardLoop] at h
      -- the loop reached its end, so it passed this channel too
      rcases List.mem_cons.1 hmem with heq | hmem
      · obtain ⟨rfl, rfl⟩ := Prod.mk.inj heq
        rw [hupdate] at h
        dsimp only at h
        split at h
        next hok => exact hok
        next => cases h
      · split at h
        next => exact ih h hmem
        next =>
          split at h
          next => exact ih h hmem
          next => cases h

/-- What the guard let pass, the reducer accepts from the state read. -/
theorem execute_accepts {node : List Char} {state : Channels} {o : NodeOutput}
    (h : reducers.execute node state (.ok o) = .ok o)
    (hrun : o.interrupt = false)
    (hr : reducers.declared.lookup channel = some r)
    (hupdate : o.updates.lookup channel = some update) :
    ∃ reduced, r.reduceChecked (state.current channel) update
      = .ok reduced := by
  unfold Reducers.execute at h
  rw [ok_bind, hrun] at h
  obtain ⟨_, hloop, -⟩ := bind_eq_ok.1 h
  exact checkUpdate_ok_iff.1
    (guardLoop_ok hloop (Members.mem_of_lookup hr) hupdate)

/-- The updates of a channel in a super-step. -/
def writtenTo (channel : List Char) (outputs : List NodeOutput) :
    List Value :=
  (writers channel outputs).filterMap fun o => o.updates.lookup channel

/-- A typed channel takes the update written to it, if any, and its closure
refuses nothing. -/
theorem Admitted.reduces (e : Engine reducers) {outputs : List NodeOutput}
    (h : Admitted reducers g outputs)
    (hr : reducers.declared.lookup channel = some r) :
    channel ∉ (e.superStep g.channels outputs).2
      ∧ Folds r (g.channels.current channel) (writtenTo channel outputs)
        ((e.superStep g.channels outputs).1.current channel) := by
  have hdeclared : channel ∈ Members.keys reducers.declared :=
    Members.lookup_isSome_iff.1 (by rw [hr]; rfl)
  have hone : (writers channel outputs).length ≤ 1 :=
    h.oneWriter channel hdeclared
  unfold writtenTo
  match hw : writers channel outputs, hone with
  | [], _ =>
      obtain ⟨hsame, hnot⟩ := e.unwritten g.channels outputs channel r hr hw
      refine ⟨hnot, ?_⟩
      rw [Channels.current, Channels.current, hsame]
      rfl
  | [o], _ =>
      have ho : o ∈ writers channel outputs := by
        rw [hw]
        exact List.mem_singleton_self o
      obtain ⟨hmem, hwrites⟩ := List.mem_filter.1 ho
      obtain ⟨hrun, hkey⟩ := Bool.and_eq_true_iff.1 hwrites
      obtain ⟨update, hupdate⟩ := Option.isSome_iff_exists.1
        (Members.lookup_isSome_iff.2 (of_decide_eq_true hkey))
      obtain ⟨node, hpassed⟩ := h.passed o hmem
      obtain ⟨reduced, hreduced⟩ :=
        execute_accepts hpassed (by simpa using hrun) hr hupdate
      -- the closure reduces from the value the guard read
      have hclosure : r.channelReducer (g.channels.current channel) update
          = (reduced, none) := by
        rw [StateReducer.channelReducer, hreduced]
      obtain ⟨hvalue, hlog⟩ :=
        e.reduced g.channels outputs channel r o update hr hw hupdate
      rw [hclosure] at hvalue hlog
      refine ⟨fun hin => hlog.1 hin rfl, ?_⟩
      have hnow : (e.superStep g.channels outputs).1.current channel
          = reduced := by rw [Channels.current, hvalue]; rfl
      rw [List.filterMap_cons, hupdate, hnow]
      exact folds_cons.2 ⟨reduced, hreduced, rfl⟩

theorem Folds.held (h : Folds r start updates value)
    (hstart : updates ≠ [] ∨ r.checkHeld start = .ok ()) :
    r.checkHeld value = .ok () := by
  induction updates generalizing start with
  | nil =>
      obtain rfl := Except.ok.inj h
      exact hstart.resolve_left fun hne => hne rfl
  | cons update updates ih =>
      obtain ⟨mid, hmid, hrest⟩ := folds_cons.1 h
      exact ih hrest (.inr (checkHeld_of_reduceChecked hmid))

theorem Folds.append {mid : Value} {more : List Value}
    (h : Folds r start updates mid) (h' : Folds r mid more value) :
    Folds r start (updates ++ more) value := by
  induction updates generalizing start with
  | nil =>
      obtain rfl := Except.ok.inj h
      exact h'
  | cons update updates ih =>
      obtain ⟨next, hnext, hrest⟩ := folds_cons.1 h
      exact folds_cons.2 ⟨next, hnext, ih hrest⟩

/-- In a super-step no closure keeps its value. -/
theorem Admitted.log_nil (e : Engine reducers) {outputs : List NodeOutput}
    (h : Admitted reducers g outputs) :
    (e.superStep g.channels outputs).2 = [] := by
  refine List.eq_nil_iff_forall_not_mem.2 fun channel hin => ?_
  obtain ⟨r, hr⟩ := e.typed g.channels outputs channel hin
  exact (h.reduces e hr).1 hin

-- ==================================================================== runs

/-- The updates of a channel in a run. -/
def accepted (channel : List Char) (steps : List (List NodeOutput)) :
    List Value :=
  steps.flatMap (writtenTo channel)

/-- A run of admitted super-steps folds the updates of each channel. -/
theorem channels_fold (e : Engine reducers) {final : GraphState}
    {steps : List (List NodeOutput)}
    (hadmitted : Meets e.step (Admitted reducers) g steps)
    (hrun : run e.step g steps = some final) :
    final.logged = g.logged
      ∧ ∀ channel r, reducers.declared.lookup channel = some r →
          Folds r (g.channels.current channel) (accepted channel steps)
            (final.channels.current channel) := by
  induction steps generalizing g with
  | nil =>
      obtain rfl := Option.some.inj hrun
      exact ⟨rfl, fun channel r _ => rfl⟩
  | cons outputs steps ih =>
      obtain ⟨hstep, hlater⟩ := hadmitted
      obtain ⟨mid, hmid, hrest⟩ := run_cons_eq_some.1 hrun
      obtain ⟨hlogged, hfinal⟩ := ih (hlater _ hmid) hrest
      obtain rfl := Option.some.inj hmid
      refine ⟨?_, fun channel r hr =>
        (hstep.reduces e hr).2.append (hfinal channel r hr)⟩
      rw [hlogged, hstep.log_nil e, List.append_nil]

end Channels

/-- Checks and reducers agree on every update, and along every run of
checked super-steps of any such engine each typed channel is the left fold
of its accepted updates, with no update refused by the closure, and within
its bounds once an update was accepted. -/
theorem reducers_agree :
    (∀ (r : StateReducer) (current update : Value),
      (r.checkUpdate current update = .ok () ↔
          ∃ reduced, r.reduceChecked current update = .ok reduced)
        ∧ ∀ reduced, r.reduceChecked current update = .ok reduced →
            r.checkHeld reduced = .ok ())
      ∧ ∀ (reducers : Reducers) (e : Engine reducers)
          (g final : GraphState) (steps : List (List NodeOutput)),
        Meets e.step (Admitted reducers) g steps →
        run e.step g steps = some final →
        final.logged = g.logged
          ∧ ∀ channel r, reducers.declared.lookup channel = some r →
              (accepted channel steps).foldlM r.reduceChecked
                  (g.channels.current channel)
                = .ok (final.channels.current channel)
              ∧ (accepted channel steps ≠ []
                  ∨ r.checkHeld (g.channels.current channel) = .ok () →
                r.checkHeld (final.channels.current channel) = .ok ()) := by
  refine ⟨fun r current update => ⟨checkUpdate_ok_iff,
    fun _ h => checkHeld_of_reduceChecked h⟩, ?_⟩
  intro reducers e g final steps hadmitted hrun
  obtain ⟨hlogged, hfolds⟩ := channels_fold e hadmitted hrun
  refine ⟨hlogged, fun channel r hr => ?_⟩
  have hfold := hfolds channel r hr
  exact ⟨hfold, hfold.held⟩

-- ============================================================== the witness

/-- An engine: the first node that writes a channel decides it. -/
def firstWriter (reducers : Reducers) : Engine reducers where
  superStep g outputs :=
    let update := fun c =>
      (writers c outputs).head?.bind fun o => o.updates.lookup c
    (fun c => match update c, reducers.declared.lookup c with
      | none, _ => g c
      | some u, none => some u
      | some u, some r => some (r.channelReducer (g.current c) u).1,
    (Members.keys reducers.declared).filter fun c =>
      match update c, reducers.declared.lookup c with
      | some u, some r => (r.channelReducer (g.current c) u).2.isSome
      | _, _ => false)
  unwritten := by
    intro g outputs channel r hr hw
    simp [hw]
  reduced := by
    intro g outputs channel r o update hr hw hupdate
    have hmem : channel ∈ Members.keys reducers.declared :=
      Members.lookup_isSome_iff.1 (by rw [hr]; rfl)
    simp [hw, hupdate, hr, hmem, Option.isSome_iff_ne_none]
  typed := by
    intro g outputs channel hin
    exact Option.isSome_iff_exists.1
      (Members.lookup_isSome_iff.2 (List.mem_filter.1 hin).1)

/-- A counter and a list. -/
def sampleReducers : Reducers :=
  ⟨[("count".toList, .sumInt), ("seen".toList, .append)], by decide⟩

def sampleState : GraphState :=
  ⟨fun c => if c = "count".toList then some (fromI64 2)
    else if c = "seen".toList then some (.array []) else none, []⟩

def adds (n : Int) : NodeOutput :=
  ⟨[("count".toList, fromI64 n)], false, by simp [Members.keys]⟩

def sees (v : Value) (interrupt : Bool) : NodeOutput :=
  ⟨[("seen".toList, .array [v])], interrupt, by simp [Members.keys]⟩

/-- Two nodes write, then one adds and one is interrupted. -/
def sampleSteps : List (List NodeOutput) :=
  [[adds 3, sees .null false], [sees .null true, adds 4]]

theorem reducers_agree_sample :
    ∃ final, run (firstWriter sampleReducers).step sampleState sampleSteps
        = some final
      ∧ final.logged = []
      ∧ final.channels.current "count".toList = fromI64 9
      ∧ final.channels.current "seen".toList = .array [.null]
      ∧ ∀ channel r, sampleReducers.declared.lookup channel = some r →
          r.checkHeld (final.channels.current channel) = .ok () := by
  have hadmitted : Meets (firstWriter sampleReducers).step
      (Admitted sampleReducers) sampleState sampleSteps := by
    refine ⟨⟨?_, by decide⟩, fun g hg => ⟨⟨?_, by decide⟩, fun _ _ => trivial⟩⟩
    · intro o ho
      rcases List.mem_pair.1 ho with rfl | rfl <;> exact ⟨[], rfl⟩
    · obtain rfl := Option.some.inj hg
      intro o ho
      rcases List.mem_pair.1 ho with rfl | rfl <;> exact ⟨[], rfl⟩
  obtain ⟨hlogged, hchannels⟩ := reducers_agree.2 sampleReducers
    (firstWriter sampleReducers) sampleState _ sampleSteps hadmitted rfl
  refine ⟨_, rfl, hlogged, ?_, ?_, fun channel r hr => ?_⟩
  · exact (Except.ok.inj (hchannels "count".toList .sumInt rfl).1).symm
  · exact (Except.ok.inj (hchannels "seen".toList .append rfl).1).symm
  · refine (hchannels channel r hr).2 (.inl ?_)
    rcases List.mem_cons.1 (Members.mem_of_lookup hr) with h | h
    · cases h
      exact List.cons_ne_nil _ _
    · cases List.mem_singleton.1 h
      exact List.cons_ne_nil _ _

end Elitea.Graph
