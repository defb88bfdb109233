/-
Which rate-limit rules can share a bucket.

# The key, read from its name

A bucket key is the sanitised rule name (the TOKEN) and a tail that says
which principal is counted (`bucketKey_toList`). With one token, equal
keys have equal tails, and a tail gives its principal back. With two
tokens, one is the other with some text after it, and that text is the
front of the shorter token's tail.

# What a name can imitate

A tail starts with `-`, so the rest of a tail after such a front starts at
one of its later dashes: the sign of a negative id, or the dash before the
user of an agent throttle. `Imitation` lists the five texts a name can end
with for this to happen. Negative ids are no accident of the model: the
gateway gives a request without a resolvable project a negative one.

# When buckets are separate

Two rules never share a bucket exactly when they are not two names with
one token in one family of keys, and neither name is the other with an
imitating text after it (`buckets_apart_iff`). Sanitising maps every
character outside the token charset to `_` and keeps 64 of them, so two
names a reader tells apart can have one token (`blank_and_underscore`).
-/
import Elitea.Policy.RateLimit
import Mathlib.Data.Nat.Digits.Lemmas

namespace Elitea.Policy

variable {back front text : List Char} {q : Principal} {c : Char}
  {d d' : RateLimitDef} {n : Nat} {i : Int} {sub sub' : Subject}

-- ================================================================= the ids

/-- The decimal digits of a number. -/
def digits (n : Nat) : List Char := Nat.toDigits 10 n

/-- An id as `fmt` prints it. -/
def idText (i : Int) : List Char := (toString i).toList

theorem digits_injective {m : Nat} (h : digits m = digits n) : m = n := by
  have hm := Nat.ofDigitChars_ten_toDigits (n := m)
  have hn := Nat.ofDigitChars_ten_toDigits (n := n)
  unfold digits at h
  rw [h] at hm
  exact hm.symm.trans hn

theorem isDigit_of_mem_digits (h : c ∈ digits n) : c.isDigit = true :=
  Nat.isDigit_of_mem_toDigits (by decide) (by decide) h

theorem digits_ne_nil (n : Nat) : digits n ≠ [] := Nat.toDigits_ne_nil

/-- An id is its digits, after a dash if it is negative. -/
theorem idText_cases (i : Int) :
    (∃ n : Nat, i = n ∧ idText i = digits n)
      ∨ ∃ n : Nat, 0 < n ∧ i = -(n : Int) ∧ idText i = '-' :: digits n := by
  cases i with
  | ofNat n =>
      refine Or.inl ⟨n, rfl, ?_⟩
      exact Nat.toList_repr
  | negSucc n =>
      refine Or.inr ⟨n + 1, Nat.succ_pos n, rfl, ?_⟩
      show ("-" ++ Nat.repr (n + 1)).toList = _
      rw [String.toList_append, Nat.toList_repr]
      rfl

theorem mem_idText (h : c ∈ idText i) : c = '-' ∨ c.isDigit = true := by
  rcases idText_cases i with ⟨n, -, hn⟩ | ⟨n, -, -, hn⟩
  · exact Or.inr (isDigit_of_mem_digits (hn ▸ h))
  · rcases List.mem_cons.1 (hn ▸ h) with hc | hc
    · exact Or.inl hc
    · exact Or.inr (isDigit_of_mem_digits hc)

theorem idText_injective {j : Int} (h : idText i = idText j) : i = j := by
  rcases idText_cases i with ⟨m, rfl, hm⟩ | ⟨m, -, rfl, hm⟩
  all_goals rcases idText_cases j with ⟨n, rfl, hn⟩ | ⟨n, -, rfl, hn⟩
  all_goals rw [hm, hn] at h
  · rw [digits_injective h]
  · have hdash : '-' ∈ digits m := by
      rw [h]
      exact List.mem_cons_self
    exact absurd (isDigit_of_mem_digits hdash) (by decide)
  · have hdash : '-' ∈ digits n := by
      rw [← h]
      exact List.mem_cons_self
    exact absurd (isDigit_of_mem_digits hdash) (by decide)
  · rw [digits_injective (List.cons.inj h).2]

/-- The only dash of an id is its sign. -/
theorem dash_in_id (h : idText i = front ++ '-' :: back) :
    front = [] ∧ ∃ n : Nat, i = -(n : Int) ∧ back = digits n := by
  have hmem : '-' ∈ front ++ '-' :: back :=
    List.mem_append_right _ List.mem_cons_self
  rcases idText_cases i with ⟨n, rfl, hn⟩ | ⟨n, -, rfl, hn⟩
  all_goals rw [hn] at h
  · rw [← h] at hmem
    exact absurd (isDigit_of_mem_digits hmem) (by decide)
  · cases front with
    | nil => exact ⟨rfl, n, rfl, (List.cons.inj h).2.symm⟩
    | cons c front =>
        have hdash : '-' ∈ digits n := by
          rw [(List.cons.inj h).2]
          exact List.mem_append_right _ List.mem_cons_self
        exact absurd (isDigit_of_mem_digits hdash) (by decide)

/-- A dash of two texts one after the other is in the first or in the
second. -/
theorem dash_in_append {x y : List Char} (h : x ++ y = front ++ '-' :: back) :
    (∃ back', x = front ++ '-' :: back' ∧ back = back' ++ y)
      ∨ ∃ front', front = x ++ front' ∧ y = front' ++ '-' :: back := by
  rcases List.append_eq_append_iff.1 h with ⟨m, hfront, hy⟩ | ⟨m, hx, hback⟩
  · exact Or.inr ⟨m, hfront, hy⟩
  · cases m with
    | nil =>
        refine Or.inr ⟨[], ?_, hback.symm⟩
        rw [hx, List.append_nil, List.append_nil]
    | cons c m =>
        obtain ⟨rfl, hrest⟩ := List.cons.inj hback
        exact Or.inl ⟨m, hx, hrest⟩

/-- A dash of a text that starts otherwise is further back. -/
theorem dash_in_cons {a : Char} (ha : a ≠ '-')
    (h : a :: text = front ++ '-' :: back) :
    ∃ front', front = a :: front' ∧ text = front' ++ '-' :: back := by
  cases front with
  | nil => exact absurd (List.cons.inj h).1 ha
  | cons c front =>
      obtain ⟨rfl, hrest⟩ := List.cons.inj h
      exact ⟨front, rfl, hrest⟩

-- ========================================================== the principals

/-- Whom a rule counts. -/
inductive Principal
  | project (id : Int)
  | agent (projectID applicationID : Int)
  | agentUser (projectID applicationID userID : Int)
  | user (id : Int)
deriving DecidableEq, Repr

/-- The families of keys. -/
inductive Family
  | project
  | agent
  | agentUser
  | user
deriving DecidableEq, Repr

def Principal.family : Principal → Family
  | .project _ => .project
  | .agent _ _ => .agent
  | .agentUser _ _ _ => .agentUser
  | .user _ => .user

/-- The family of a rule: an agent throttle that names users counts each
of them. -/
def RateLimitDef.family (d : RateLimitDef) : Family :=
  match d.cls with
  | .project => .project
  | .agent => if d.scope.userIDs.length > 0 then .agentUser else .agent
  | .user => .user

/-- The counted principal of a request under a rule. -/
def RateLimitDef.counted (d : RateLimitDef) (sub : Subject) : Principal :=
  match d.family with
  | .project => .project sub.projectID
  | .agent => .agent sub.agent.projectID sub.agent.applicationID
  | .agentUser =>
      .agentUser sub.agent.projectID sub.agent.applicationID sub.userID
  | .user => .user sub.userID

/-- Two rules and two requests that may count in one bucket. -/
def SameBucket (d d' : RateLimitDef) (sub sub' : Subject) : Prop :=
  d.name = d'.name ∧ d.cls = d'.cls ∧ d.counted sub = d'.counted sub'

theorem counted_family (d : RateLimitDef) (sub : Subject) :
    (d.counted sub).family = d.family := by
  unfold RateLimitDef.counted
  cases d.family <;> rfl

/-- Every principal of a rule's family makes some request. -/
theorem exists_counted (d : RateLimitDef) (h : q.family = d.family) :
    ∃ sub, d.counted sub = q := by
  unfold RateLimitDef.counted
  rw [← h]
  cases q with
  | project id => exact ⟨⟨id, 0, {}⟩, rfl⟩
  | agent p a => exact ⟨⟨0, 0, ⟨p, a⟩⟩, rfl⟩
  | agentUser p a u => exact ⟨⟨0, u, ⟨p, a⟩⟩, rfl⟩
  | user id => exact ⟨⟨0, id, {}⟩, rfl⟩

/-- The class a family belongs to. -/
def Family.cls : Family → RateClass
  | .project => .project
  | .agent => .agent
  | .agentUser => .agent
  | .user => .user

theorem family_cls (d : RateLimitDef) : d.family.cls = d.cls := by
  unfold RateLimitDef.family
  cases d.cls with
  | project => rfl
  | agent =>
      dsimp only
      split <;> rfl
  | user => rfl

-- =============================================================== the tails

/-- A key after its token and one dash. -/
def Principal.rest : Principal → List Char
  | .project id => idText id
  | .agent p a => 'a' :: (idText p ++ '_' :: idText a)
  | .agentUser p a u =>
      'a' :: (idText p ++ '_' :: (idText a ++ '-' :: 'u' :: idText u))
  | .user id => 'u' :: idText id

def Principal.tail (q : Principal) : List Char := '-' :: q.rest

/-- The sanitised name. -/
def RateLimitDef.token (d : RateLimitDef) : List Char :=
  (sanitiseToken d.name).toList

theorem bucketKey_toList (d : RateLimitDef) (sub : Subject) :
    (bucketKey d sub).toList = d.token ++ (d.counted sub).tail := by
  unfold bucketKey RateLimitDef.counted RateLimitDef.family
  cases d.cls with
  | project =>
      simp [rateLimitKey, RateLimitDef.token, Principal.tail, Principal.rest,
        idText]
  | user =>
      simp [RateLimitDef.token, Principal.tail, Principal.rest, idText]
  | agent =>
      dsimp only
      split
      next h =>
        simp [RateLimitDef.token, Principal.tail, Principal.rest, idText]
      next h =>
        simp [RateLimitDef.token, Principal.tail, Principal.rest, idText]

/-- What follows the dash of a tail does not go on from digits to another
character. -/
theorem rest_ne_digits_append (q : Principal) (n : Nat)
    (hc : c.isDigit = false) : q.rest ≠ digits n ++ c :: back := by
  intro h
  -- the first character of `q.rest` would be a digit
  have hletter : ∀ {a : Char} {text : List Char}, a.isDigit = false →
      a :: text ≠ digits n ++ c :: back := by
    intro a text ha hq
    cases hn : digits n with
    | nil => exact digits_ne_nil n hn
    | cons b ds =>
        rw [hn] at hq
        have hb : b.isDigit = true := isDigit_of_mem_digits
          (hn ▸ List.mem_cons_self)
        rw [← (List.cons.inj hq).1, ha] at hb
        cases hb
  cases q with
  | project id =>
      rcases idText_cases id with ⟨m, -, hm⟩ | ⟨m, -, -, hm⟩
      · have hmem : c ∈ digits m := by
          rw [hm.symm.trans h]
          exact List.mem_append_right _ List.mem_cons_self
        rw [isDigit_of_mem_digits hmem] at hc
        cases hc
      · exact hletter (by decide) (hm.symm.trans h)
  | agent p a => exact hletter (by decide) h
  | agentUser p a u => exact hletter (by decide) h
  | user id => exact hletter (by decide) h

theorem rest_eq_digits (h : q.rest = digits n) : q = .project n := by
  have hletter : ∀ {a : Char} {text : List Char}, a.isDigit = false →
      a :: text ≠ digits n := by
    intro a text ha hq
    have hmem : a ∈ digits n := hq ▸ List.mem_cons_self
    rw [isDigit_of_mem_digits hmem] at ha
    cases ha
  cases q with
  | project id =>
      rcases idText_cases id with ⟨m, rfl, hm⟩ | ⟨m, -, -, hm⟩
      · rw [digits_injective (hm.symm.trans h)]
      · exact absurd (hm.symm.trans h) (hletter (by decide))
  | agent p a => exact absurd h (hletter (by decide))
  | agentUser p a u => exact absurd h (hletter (by decide))
  | user id => exact absurd h (hletter (by decide))

theorem rest_eq_user {id : Int} (h : q.rest = 'u' :: idText id) :
    q = .user id := by
  cases q with
  | project p =>
      have hp : idText p = 'u' :: idText id := h
      exact absurd (mem_idText (hp ▸ List.mem_cons_self)) (by decide)
  | agent p a => exact absurd (List.cons.inj h).1 (by decide)
  | agentUser p a u => exact absurd (List.cons.inj h).1 (by decide)
  | user u => rw [idText_injective (List.cons.inj h).2]

-- =========================================================== the imitations

/-- The texts after a token with which a name in the second family has a
key of the first family under that token. -/
inductive Imitation : Family → Family → List Char → Prop
  | project : Imitation .project .project ['-']
  | user : Imitation .user .project ['-', 'u']
  | agent (p : Int) :
      Imitation .agent .project ('-' :: 'a' :: (idText p ++ ['_']))
  | agentUser (p a : Int) :
      Imitation .agentUser .user
        ('-' :: 'a' :: (idText p ++ '_' :: idText a))
  | agentProject (p a : Int) :
      Imitation .agentUser .project
        ('-' :: 'a' :: (idText p ++ '_' :: (idText a ++ ['-', 'u'])))

/-- The part of an agent throttle's key after the agent's project. -/
theorem agentUser_dash {p a u : Int}
    (h : idText a ++ '-' :: 'u' :: idText u = front ++ '-' :: q.rest) :
    Imitation .agentUser q.family
      ('-' :: 'a' :: (idText p ++ '_' :: front)) := by
  rcases dash_in_append h with ⟨back, ha, hback⟩ | ⟨later, rfl, huser⟩
  · obtain ⟨-, n, -, rfl⟩ := dash_in_id ha
    exact absurd hback (rest_ne_digits_append q n (by decide))
  · cases later with
    | nil =>
        obtain ⟨-, hrest⟩ := List.cons.inj huser
        rw [rest_eq_user hrest.symm, List.append_nil]
        exact .agentUser p a
    | cons c later =>
        obtain ⟨rfl, hletter⟩ := List.cons.inj huser
        obtain ⟨last, rfl, hid⟩ := dash_in_cons (by decide) hletter
        obtain ⟨rfl, n, -, hback⟩ := dash_in_id hid
        rw [rest_eq_digits hback]
        exact .agentProject p a

/-- A later dash of a tail starts another tail only where a name can
imitate it. -/
theorem rest_dash {q' : Principal} (h : q.rest = front ++ '-' :: q'.rest) :
    Imitation q.family q'.family ('-' :: front) := by
  cases q with
  | project id =>
      obtain ⟨rfl, n, -, hback⟩ := dash_in_id h
      rw [rest_eq_digits hback]
      exact .project
  | user id =>
      obtain ⟨later, rfl, hid⟩ := dash_in_cons (by decide) h
      obtain ⟨rfl, n, -, hback⟩ := dash_in_id hid
      rw [rest_eq_digits hback]
      exact .user
  | agent p a =>
      obtain ⟨later, rfl, hids⟩ := dash_in_cons (by decide) h
      rcases dash_in_append hids with ⟨back, hp, hback⟩ | ⟨last, rfl, hrest⟩
      · obtain ⟨-, n, -, rfl⟩ := dash_in_id hp
        exact absurd hback (rest_ne_digits_append q' n (by decide))
      · obtain ⟨last, rfl, hid⟩ := dash_in_cons (by decide) hrest
        obtain ⟨rfl, n, -, hback⟩ := dash_in_id hid
        rw [rest_eq_digits hback]
        exact .agent p
  | agentUser p a u =>
      obtain ⟨later, rfl, hids⟩ := dash_in_cons (by decide) h
      rcases dash_in_append hids with ⟨back, hp, hback⟩ | ⟨last, rfl, hrest⟩
      · obtain ⟨-, n, -, rfl⟩ := dash_in_id hp
        exact absurd hback (rest_ne_digits_append q' n (by decide))
      · obtain ⟨last, rfl, htail⟩ := dash_in_cons (by decide) hrest
        exact agentUser_dash htail

/-- Each imitation is one: some principals have these tails. -/
theorem Imitation.tails {f f' : Family} (h : Imitation f f' text) :
    ∃ q q' : Principal, q.family = f ∧ q'.family = f'
      ∧ q.tail = text ++ q'.tail := by
  have hsign : idText (-1) = '-' :: idText 1 := rfl
  cases h with
  | project => exact ⟨.project (-1), .project 1, rfl, rfl, rfl⟩
  | user => exact ⟨.user (-1), .project 1, rfl, rfl, rfl⟩
  | agent p =>
      refine ⟨.agent p (-1), .project 1, rfl, rfl, ?_⟩
      simp [Principal.tail, Principal.rest, hsign]
  | agentUser p a =>
      refine ⟨.agentUser p a 1, .user 1, rfl, rfl, ?_⟩
      simp [Principal.tail, Principal.rest]
  | agentProject p a =>
      refine ⟨.agentUser p a (-1), .project 1, rfl, rfl, ?_⟩
      simp [Principal.tail, Principal.rest, hsign]

theorem Imitation.ne_nil {f f' : Family} (h : Imitation f f' text) :
    text ≠ [] := by
  cases h <;> exact List.cons_ne_nil _ _

-- ============================================================ one principal

/-- A text is cut in one way at a character its front does not have. -/
theorem cut_unique {x x' back' : List Char} (hx : c ∉ x) (hx' : c ∉ x')
    (h : x ++ c :: back = x' ++ c :: back') : x = x' ∧ back = back' := by
  induction x generalizing x' with
  | nil =>
      cases x' with
      | nil => exact ⟨rfl, (List.cons.inj h).2⟩
      | cons b x' =>
          exact absurd ((List.cons.inj h).1 ▸ List.mem_cons_self) hx'
  | cons a x ih =>
      cases x' with
      | nil => exact absurd ((List.cons.inj h).1 ▸ List.mem_cons_self) hx
      | cons b x' =>
          obtain ⟨rfl, hrest⟩ := List.cons.inj h
          obtain ⟨rfl, rfl⟩ := ih (fun hm => hx (List.mem_cons_of_mem _ hm))
            (fun hm => hx' (List.mem_cons_of_mem _ hm)) hrest
          exact ⟨rfl, rfl⟩

/-- An id ends where an underscore stands. -/
theorem id_underscore {p p' : Int} {back' : List Char}
    (h : idText p ++ '_' :: back = idText p' ++ '_' :: back') :
    p = p' ∧ back = back' := by
  have hno : ∀ i : Int, '_' ∉ idText i :=
    fun i hmem => absurd (mem_idText hmem) (by decide)
  obtain ⟨hid, hback⟩ := cut_unique (hno p) (hno p') h
  exact ⟨idText_injective hid, hback⟩

/-- An agent's application ends where the user starts. -/
theorem id_user {a a' u u' : Int}
    (h : idText a ++ '-' :: 'u' :: idText u
      = idText a' ++ '-' :: 'u' :: idText u') : a = a' ∧ u = u' := by
  have hno : ∀ i : Int, 'u' ∉ idText i ++ ['-'] := by
    intro i hmem
    rcases List.mem_append.1 hmem with hm | hm
    · exact absurd (mem_idText hm) (by decide)
    · exact absurd (List.mem_singleton.1 hm) (by decide)
  have hcut : (idText a ++ ['-']) ++ 'u' :: idText u
      = (idText a' ++ ['-']) ++ 'u' :: idText u' := by
    rw [List.append_assoc, List.append_assoc]
    exact h
  obtain ⟨hid, hu⟩ := cut_unique (hno a) (hno a') hcut
  exact ⟨idText_injective (List.append_cancel_right hid),
    idText_injective hu⟩

/-- What follows the dash of a tail gives the principal back. -/
theorem rest_injective {q' : Principal} (h : q.rest = q'.rest) : q = q' := by
  have hletter : ∀ {i : Int} {c : Char} {text : List Char},
      ¬(c = '-' ∨ c.isDigit = true) → idText i ≠ c :: text :=
    fun hc hi => hc (mem_idText (hi ▸ List.mem_cons_self))
  have huser : ∀ {i a u : Int}, idText i ≠ idText a ++ '-' :: 'u' :: idText u :=
    fun hi => absurd (mem_idText (hi ▸ List.mem_append_right _
      (List.mem_cons_of_mem _ List.mem_cons_self))) (by decide)
  cases q with
  | project id =>
      cases q' with
      | project id' => rw [idText_injective h]
      | agent p a => exact absurd h (hletter (by decide))
      | agentUser p a u => exact absurd h (hletter (by decide))
      | user id' => exact absurd h (hletter (by decide))
  | agent p a =>
      cases q' with
      | project id' => exact absurd h.symm (hletter (by decide))
      | agent p' a' =>
          obtain ⟨rfl, hback⟩ := id_underscore (List.cons.inj h).2
          rw [idText_injective hback]
      | agentUser p' a' u =>
          exact absurd (id_underscore (List.cons.inj h).2).2 huser
      | user id' => exact absurd (List.cons.inj h).1 (by decide)
  | agentUser p a u =>
      cases q' with
      | project id' => exact absurd h.symm (hletter (by decide))
      | agent p' a' =>
          exact absurd (id_underscore (List.cons.inj h).2).2.symm huser
      | agentUser p' a' u' =>
          obtain ⟨rfl, hback⟩ := id_underscore (List.cons.inj h).2
          obtain ⟨rfl, rfl⟩ := id_user hback
          rfl
      | user id' => exact absurd (List.cons.inj h).1 (by decide)
  | user id => exact (rest_eq_user h.symm).symm

-- ========================================================= separate buckets

/-- The name of the second rule is the first one's with an imitating text
after it. -/
def Imitates (d d' : RateLimitDef) : Prop :=
  ∃ text, Imitation d.family d'.family text ∧ d'.token = d.token ++ text

/-- Two rules no requests of which can share a bucket, unless they are one
rule counting one principal. -/
def Apart (d d' : RateLimitDef) : Prop :=
  (d.token = d'.token → d.family = d'.family → d.name = d'.name)
    ∧ ¬Imitates d d' ∧ ¬Imitates d' d

theorem bucketKey_eq_iff :
    bucketKey d sub = bucketKey d' sub' ↔
      d.token ++ (d.counted sub).tail = d'.token ++ (d'.counted sub').tail := by
  rw [← String.toList_inj, bucketKey_toList, bucketKey_toList]

/-- The longer of two tokens with one key imitates the shorter. -/
theorem imitates_of_tail (htext : text ≠ [])
    (htoken : d'.token = d.token ++ text)
    (htail : (d.counted sub).tail = text ++ (d'.counted sub').tail) :
    Imitates d d' := by
  cases text with
  | nil => exact absurd rfl htext
  | cons c front =>
      obtain ⟨rfl, hrest⟩ := List.cons.inj htail
      have himitation := rest_dash hrest
      rw [counted_family, counted_family] at himitation
      exact ⟨'-' :: front, himitation, htoken⟩

theorem exists_shared (h : Imitates d d') :
    ∃ sub sub', bucketKey d sub = bucketKey d' sub'
      ∧ d.counted sub ≠ d'.counted sub' := by
  obtain ⟨text, himitation, htoken⟩ := h
  obtain ⟨q, q', hq, hq', htail⟩ := himitation.tails
  obtain ⟨sub, hsub⟩ := exists_counted d hq
  obtain ⟨sub', hsub'⟩ := exists_counted d' hq'
  refine ⟨sub, sub', ?_, ?_⟩
  · rw [bucketKey_eq_iff, hsub, hsub', htail, htoken, List.append_assoc]
  · rw [hsub, hsub']
    rintro rfl
    have hlen := congrArg List.length htail
    rw [List.length_append] at hlen
    exact himitation.ne_nil (List.length_eq_zero_iff.1 (by omega))

/-- With one token and one tail, rules that are apart are one rule. -/
theorem sameBucket_of_tail
    (hname : d.token = d'.token → d.family = d'.family → d.name = d'.name)
    (htoken : d.token = d'.token)
    (htail : (d.counted sub).tail = (d'.counted sub').tail) :
    SameBucket d d' sub sub' := by
  have hcounted := rest_injective (List.cons.inj htail).2
  have hfamily : d.family = d'.family := by
    rw [← counted_family d sub, hcounted, counted_family]
  refine ⟨hname htoken hfamily, ?_, hcounted⟩
  rw [← family_cls d, hfamily, family_cls]

/-- Rules share no bucket exactly when they are apart. -/
theorem buckets_apart_iff (d d' : RateLimitDef) :
    (∀ sub sub', bucketKey d sub = bucketKey d' sub' →
        SameBucket d d' sub sub') ↔ Apart d d' := by
  constructor
  · intro hall
    refine ⟨fun htoken hfamily => ?_, fun h => ?_, fun h => ?_⟩
    · -- the same principal counted by both rules
      obtain ⟨sub', hsub'⟩ := exists_counted d'
        ((counted_family d {}).trans hfamily)
      have hkey : bucketKey d {} = bucketKey d' sub' := by
        rw [bucketKey_eq_iff, hsub', htoken]
      exact (hall {} sub' hkey).1
    · obtain ⟨sub, sub', hkey, hne⟩ := exists_shared h
      exact hne (hall sub sub' hkey).2.2
    · obtain ⟨sub', sub, hkey, hne⟩ := exists_shared h
      exact hne (hall sub sub' hkey.symm).2.2.symm
  · rintro ⟨hname, hno, hno'⟩ sub sub' hkey
    rcases List.append_eq_append_iff.1 (bucketKey_eq_iff.1 hkey) with
      ⟨text, htoken, htail⟩ | ⟨text, htoken, htail⟩
    · by_cases htext : text = []
      · subst htext
        rw [List.append_nil] at htoken
        exact sameBucket_of_tail hname htoken.symm htail
      · exact absurd (imitates_of_tail htext htoken htail) hno
    · by_cases htext : text = []
      · subst htext
        rw [List.append_nil] at htoken
        exact sameBucket_of_tail hname htoken htail.symm
      · exact absurd (imitates_of_tail htext htoken htail) hno'

/-- Two names that differ in one character outside the token charset
count in one bucket. -/
theorem blank_and_underscore :
    ∃ (d d' : RateLimitDef) (sub : Subject),
      d.name = "chat limit" ∧ d'.name = "chat_limit"
        ∧ bucketKey d sub = bucketKey d' sub
        ∧ ¬SameBucket d d' sub sub :=
  ⟨{ name := "chat limit", requestsPerMin := 60 },
    { name := "chat_limit", requestsPerMin := 60 },
    { projectID := 7 }, rfl, rfl, by decide +kernel,
    fun h => absurd h.1 (by decide)⟩

end Elitea.Policy
