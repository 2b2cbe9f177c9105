import Prometheus.Lib.Transition

/-!
# The life cycle of alerts

`AlertingRule.Eval` and `sendAlerts` of `rules/alerting.go`. Evaluations treat the instances of a
rule one by one: the map of alerts, the vector of samples and the alerts that are sent are functions
of the labels of an instance, whose hashes are taken to differ. A rule that fails, because of the
query or of equal labels, changes nothing. The limit of the rule is not exceeded.

Times are nanoseconds after the zero value of `time.Time`, which says that a time is not set.

What happens to an instance depends on its history (`Lawful`). The code does not keep the history;
for pending and firing alerts the timestamps stand for the part of it that is needed (`Tracks`). An
evaluation keeps this invariant and obeys the law (`Inv.eval`): an instance that is present fires,
or stays as it is (`fires_of_pending`, `stays`), and one that is absent goes, stays listed, is
resolved, or fires on (`gone`, `Inv.listed`, `Inv.resolves`, `Inv.keepsFiring`). Two of the laws
have a condition: there are samples only once the state of the rule has been restored, and an alert
that fires within the resend delay after the zero value is not sent, since its unset `LastSentAt` is
then not long ago.
-/

namespace Prometheus.Rules

inductive AlertState
  | inactive
  | pending
  | firing
deriving DecidableEq

/-- An alert, with its value and its annotations. -/
structure Alert (F : Type) where
  state : AlertState
  value : F
  activeAt : ℤ
  firedAt : ℤ
  resolvedAt : ℤ
  lastSentAt : ℤ
  validUntil : ℤ
  keepFiringSince : ℤ

structure AlertingRule where
  holdDuration : ℤ
  keepFiringFor : ℤ
  restored : Bool
  /-- The arguments of `Eval` and `sendAlerts`. -/
  queryOffset : ℤ
  resendDelay : ℤ
  interval : ℤ

/-- The samples that are returned for an instance. -/
inductive AlertSample
  | alerts (state : AlertState) (t : ℤ)
  | alertsForState (activeAt : ℤ) (t : ℤ)
deriving DecidableEq

/-- 15 minutes. -/
def resolvedRetention : ℤ := 15 * 60 * 1000000000

/-- `Time.Unix`, for a time after the zero value. -/
def unix (t : ℤ) : ℤ := t / 1000000000 - 62135596800

/-- `timestamp.FromTime`. -/
def fromTime (t : ℤ) : ℤ := unix t * 1000 + t % 1000000000 / 1000000

namespace Alert

variable {F : Type}

/-- A new alert for an element of the result. -/
def new (ts : ℤ) (value : F) : Alert F :=
  ⟨.pending, value, ts, 0, 0, 0, 0, 0⟩

/-- The first loop of `Eval`: alerts for the elements of the result. -/
def update (ts : ℤ) : Option F → Option (Alert F) → Option (Alert F)
  | none, a => a
  | some value, none => some (new ts value)
  | some value, some a =>
    if a.state ≠ .inactive then some { a with value := value } else some (new ts value)

variable (r : AlertingRule) (ts : ℤ) (a : Alert F)

/-- `sample` and `forStateSample`. -/
def samples : List AlertSample :=
  [.alerts a.state (fromTime (ts - r.queryOffset)),
    .alertsForState (unix a.activeAt) (fromTime (ts - r.queryOffset))]

/-- The part of the second loop where an alert that is in the vector may fire, with its samples. -/
def fire : Alert F × List AlertSample :=
  let a := if a.state = .pending ∧ ts - a.activeAt ≥ r.holdDuration then
    { a with state := .firing, firedAt := ts } else a
  (a, if r.restored then a.samples r ts else [])

/-- The second loop of `Eval`: the alert if it is not deleted, and its samples. -/
def advance (present : Bool) : Option (Alert F) × List AlertSample :=
  if present then
    let (a, samples) := fire r ts { a with keepFiringSince := 0 }
    (some a, samples)
  else
    let a := if a.state = .firing ∧ r.keepFiringFor > 0 ∧ a.keepFiringSince = 0 then
      { a with keepFiringSince := ts } else a
    let keepFiring : Bool := a.state = .firing ∧ r.keepFiringFor > 0 ∧
      ts - a.keepFiringSince < r.keepFiringFor
    let deleted : Bool := a.state = .pending ∨ a.resolvedAt ≠ 0 ∧
      ts - a.resolvedAt > resolvedRetention
    let a := if a.state ≠ .inactive ∧ !keepFiring then
      { a with state := .inactive, resolvedAt := ts } else a
    let (a, samples) := if keepFiring then fire r ts a else (a, [])
    (if deleted then none else some a, samples)

/-- `needsSending` -/
def needsSending : Bool :=
  a.state ≠ .pending ∧ (a.resolvedAt > a.lastSentAt ∨ a.lastSentAt + r.resendDelay < ts)

/-- `sendAlerts`, with the alert that is sent. -/
def send : Alert F × Option (Alert F) :=
  if a.needsSending r ts then
    let a := { a with lastSentAt := ts, validUntil := ts + 4 * max r.resendDelay r.interval }
    (a, some a)
  else (a, none)

end Alert

/-- The alerts of a rule by their labels, and the successful evaluations so far: the time, and what
the query gave. -/
structure AlertRun (K F : Type) where
  active : K → Option (Alert F)
  last : ℤ
  history : List (ℤ × (K → Option F))

/-- How long after the last evaluation it is, and what the query gives unless there is an error. -/
structure AlertEval (K F : Type) where
  delay : ℕ
  result : Option (K → Option F)

namespace AlertRun

variable {K F : Type} (r : AlertingRule) (s : AlertRun K F) (e : AlertEval K F)

def init (start : ℤ) : AlertRun K F :=
  ⟨fun _ => none, start, []⟩

def time : ℤ :=
  s.last + 1 + e.delay

variable (res : K → Option F)

/-- The loops of `Eval` for one instance. -/
def evalAlert (k : K) : Option (Alert F) × List AlertSample :=
  match Alert.update (s.time e) (res k) (s.active k) with
  | none => (none, [])
  | some a => a.advance r (s.time e) (res k).isSome

/-- The vector that is returned for an instance. -/
def vector (k : K) : List AlertSample :=
  (s.evalAlert r e res k).2

/-- What is sent for an instance. -/
def sent (k : K) : Option (Alert F) :=
  (s.evalAlert r e res k).1.bind fun a => (a.send r (s.time e)).2

/-- `Eval` and `sendAlerts`. -/
def eval : AlertRun K F :=
  match e.result with
  | none => { s with last := s.time e }
  | some res =>
    { active := fun k => (s.evalAlert r e res k).1.map fun a => (a.send r (s.time e)).1
      last := s.time e
      history := (s.time e, res) :: s.history }

/-- An alert of the instance fires. -/
def Firing (k : K) : Prop :=
  ∃ a, s.active k = some a ∧ a.state = .firing

/-- The samples there should be for the alert of an instance. -/
def reported (ts : ℤ) : Option (Alert F) → List AlertSample
  | none => []
  | some a => if a.state = .inactive then [] else a.samples r ts

/-- What an evaluation without an error does to an instance. -/
structure Lawful (res : K → Option F) (k : K) : Prop where
  /-- An alert fires once it has been active for the hold duration. -/
  fires : (s.eval r e).Firing k → ¬s.Firing k → ∃ a, (s.eval r e).active k = some a ∧
    r.holdDuration ≤ s.time e - a.activeAt ∧ (∃ h ∈ (s.eval r e).history, h.1 = a.activeAt) ∧
    ∀ h ∈ (s.eval r e).history, a.activeAt ≤ h.1 → (h.2 k).isSome
  /-- It is sent at once. -/
  fires_sent : r.resendDelay < s.time e → (s.eval r e).Firing k → ¬s.Firing k →
    s.sent r e res k = (s.eval r e).active k
  /-- An alert is resolved once it has been absent for as long as it is kept firing. -/
  resolves : s.Firing k → ¬(s.eval r e).Firing k → res k = none ∧
    (0 < r.keepFiringFor → ∃ h ∈ (s.eval r e).history, h.1 + r.keepFiringFor ≤ s.time e ∧
      ∀ h' ∈ (s.eval r e).history, h.1 ≤ h'.1 → h'.2 k = none) ∧
    ∃ a, (s.eval r e).active k = some a ∧ a.state = .inactive ∧ a.resolvedAt = s.time e
  /-- It is sent at once. -/
  resolves_sent : s.Firing k → ¬(s.eval r e).Firing k →
    s.sent r e res k = (s.eval r e).active k
  /-- A pending alert that is absent disappears. -/
  disappears : ∀ a, s.active k = some a → a.state = .pending → res k = none →
    (s.eval r e).active k = none
  /-- A resolved alert stays for a while. -/
  listed : ∀ a, s.active k = some a → a.state = .inactive → res k = none →
    s.time e - a.resolvedAt ≤ resolvedRetention →
    ∃ a', (s.eval r e).active k = some a' ∧ a'.state = .inactive ∧ a'.resolvedAt = a.resolvedAt
  /-- The samples are those of the alerts that are pending or firing. -/
  samples : s.vector r e res k =
    if r.restored then reported r (s.time e) ((s.eval r e).active k) else []

/-- An evaluation with an error changes nothing. -/
def AllLawful : Prop :=
  (e.result = none → (s.eval r e).active = s.active) ∧
    ∀ res, e.result = some res → ∀ k, Lawful r s e res k

/-! ### The invariant -/

/-- What the timestamps of an alert say. -/
structure Tracks (k : K) (a : Alert F) : Prop where
  pending : a.state = .pending → (∃ h ∈ s.history, h.1 = a.activeAt) ∧
    (∀ h ∈ s.history, a.activeAt ≤ h.1 → (h.2 k).isSome) ∧ a.lastSentAt = 0
  firing : a.state = .firing → a.keepFiringSince ≠ 0 → (∃ h ∈ s.history, h.1 = a.keepFiringSince) ∧
    ∀ h ∈ s.history, a.keepFiringSince ≤ h.1 → h.2 k = none
  unresolved : a.state ≠ .inactive → a.resolvedAt = 0
  sent : a.lastSentAt ≤ s.last

/-- What holds between evaluations. -/
structure Inv : Prop where
  tracks : ∀ k a, s.active k = some a → s.Tracks k a
  past : ∀ h ∈ s.history, h.1 ≤ s.last
  late : 0 ≤ s.last

end AlertRun

/-! ### What happens to an alert -/

namespace Alert

variable {F : Type} (r : AlertingRule) (ts : ℤ) (a : Alert F)

/-- Sending only notes when an alert was sent, and how long this is valid. -/
lemma send_eq_or : a.send r ts = (a, none) ∨ ∃ valid, a.send r ts =
    ({ a with lastSentAt := ts, validUntil := valid },
      some { a with lastSentAt := ts, validUntil := valid }) := by
  unfold send
  split_ifs
  · exact .inr ⟨_, rfl⟩
  · exact .inl rfl

@[simp] lemma send_state : (a.send r ts).1.state = a.state := by
  rcases a.send_eq_or r ts with h | ⟨_, h⟩ <;> rw [h]

@[simp] lemma send_activeAt : (a.send r ts).1.activeAt = a.activeAt := by
  rcases a.send_eq_or r ts with h | ⟨_, h⟩ <;> rw [h]

@[simp] lemma send_resolvedAt : (a.send r ts).1.resolvedAt = a.resolvedAt := by
  rcases a.send_eq_or r ts with h | ⟨_, h⟩ <;> rw [h]

@[simp] lemma send_keepFiringSince : (a.send r ts).1.keepFiringSince = a.keepFiringSince := by
  rcases a.send_eq_or r ts with h | ⟨_, h⟩ <;> rw [h]

@[simp] lemma samples_send : (a.send r ts).1.samples r ts = a.samples r ts := by
  simp [samples]

lemma send_lastSentAt_le (h : a.lastSentAt ≤ ts) : (a.send r ts).1.lastSentAt ≤ ts := by
  rcases a.send_eq_or r ts with hsend | ⟨_, hsend⟩ <;> rw [hsend]
  exact h

lemma send_pending (h : a.state = .pending) : a.send r ts = (a, none) := by
  simp [send, needsSending, h]

/-- What needs sending is sent as it is kept. -/
lemma send_eq {a : Alert F} (h : a.needsSending r ts) : (a.send r ts).2 = some (a.send r ts).1 := by
  simp [send, h]

variable {a}

/-- A pending alert that is absent is deleted. -/
lemma advance_pending (h : a.state = .pending) : a.advance r ts false = (none, []) := by
  simp [advance, h]

/-- A resolved alert that is absent stays until the retention has passed. -/
lemma advance_inactive (h : a.state = .inactive) : a.advance r ts false =
    (if a.resolvedAt ≠ 0 ∧ ts - a.resolvedAt > resolvedRetention then none else some a, []) := by
  simp [advance, h]

variable (a) in
/-- Since when a firing alert is absent. -/
def absentSince : ℤ :=
  if r.keepFiringFor > 0 ∧ a.keepFiringSince = 0 then ts else a.keepFiringSince

/-- A firing alert that is absent fires on, or is resolved. -/
lemma advance_firing (h : a.state = .firing) (h0 : a.resolvedAt = 0) :
    a.advance r ts false =
      if r.keepFiringFor > 0 ∧ ts - a.absentSince r ts < r.keepFiringFor then
        (some { a with keepFiringSince := a.absentSince r ts },
          if r.restored then a.samples r ts else [])
      else
        (some { a with
          keepFiringSince := a.absentSince r ts, state := .inactive, resolvedAt := ts }, []) := by
  obtain ⟨state, value, activeAt, firedAt, resolvedAt, lastSentAt, validUntil, since⟩ := a
  obtain rfl : state = .firing := h
  obtain rfl : resolvedAt = 0 := h0
  by_cases hkeep : r.keepFiringFor > 0
  · by_cases hunset : since = 0
    · simp [advance, absentSince, fire, samples, hkeep, hunset]
    · by_cases hlate : ts - since < r.keepFiringFor <;>
        simp [advance, absentSince, fire, samples, hkeep, hunset, hlate]
  · simp [advance, absentSince, hkeep]

end Alert

namespace AlertRun

variable {K F : Type} {r : AlertingRule} {s : AlertRun K F} {e : AlertEval K F}
  {res : K → Option F} {k : K}

lemma inv_init {start : ℤ} (hstart : 0 ≤ start) : (init start : AlertRun K F).Inv where
  tracks k a h := by simp [init] at h
  past x h := by simp [init] at h
  late := hstart

lemma last_lt_time (s : AlertRun K F) (e : AlertEval K F) : s.last < s.time e := by
  rw [time]
  omega

@[simp] lemma eval_last : (s.eval r e).last = s.time e := by
  unfold eval
  split <;> rfl

lemma eval_history (hres : e.result = some res) :
    (s.eval r e).history = (s.time e, res) :: s.history := by
  simp [eval, hres]

lemma eval_active (hres : e.result = some res) (k : K) :
    (s.eval r e).active k = (s.evalAlert r e res k).1.map fun a => (a.send r (s.time e)).1 := by
  simp [eval, hres]

/-- The alerts that are sent are kept as they are otherwise. -/
lemma Tracks.send {a : Alert F} (h : s.Tracks k a) : s.Tracks k (a.send r s.last).1 where
  pending hp := by
    rw [Alert.send_state] at hp
    rw [Alert.send_pending r _ a hp]
    exact h.pending hp
  firing := by simpa using h.firing
  unresolved := by simpa using h.unresolved
  sent := Alert.send_lastSentAt_le r _ a h.sent

section Eval

variable (h : s.Inv) (hres : e.result = some res)

include h hres

/-- A new alert tracks the history that begins now. -/
lemma Inv.tracks_new {v : F} (hv : res k = some v) :
    (s.eval r e).Tracks k (.new (s.time e) v) where
  pending _ := by
    rw [eval_history hres]
    refine ⟨⟨_, List.mem_cons_self, rfl⟩, ?_, rfl⟩
    intro x hx hle
    rcases List.mem_cons.1 hx with rfl | hx
    · simp [hv]
    · exact absurd (hle.trans (h.past x hx)) (not_le.2 (last_lt_time s e))
  firing hf := by simp [Alert.new] at hf
  unresolved _ := rfl
  sent := by simpa [Alert.new] using h.late.trans (last_lt_time s e).le

/-- An alert that is present again tracks a history that is longer by an evaluation. -/
lemma Inv.tracks_update {a : Alert F} (ha : s.active k = some a) {v : F} (hv : res k = some v) :
    (s.eval r e).Tracks k { a with value := v, keepFiringSince := 0 } where
  pending hp := by
    obtain ⟨⟨x, hx, hxa⟩, hall, h0⟩ := (h.tracks k a ha).pending hp
    rw [eval_history hres]
    refine ⟨⟨x, List.mem_cons_of_mem _ hx, hxa⟩, ?_, h0⟩
    intro y hy hle
    rcases List.mem_cons.1 hy with rfl | hy
    · simp [hv]
    · exact hall y hy hle
  firing _ hne := absurd rfl hne
  unresolved := (h.tracks k a ha).unresolved
  sent := by simpa using (h.tracks k a ha).sent.trans (last_lt_time s e).le

/-- An alert for an instance that is present, before it may fire. -/
lemma Inv.present {v : F} (hv : res k = some v) :
    ∃ a, s.evalAlert r e res k = (some (a.fire r (s.time e)).1, (a.fire r (s.time e)).2) ∧
      (s.eval r e).Tracks k a ∧ a.state ≠ .inactive ∧ a.keepFiringSince = 0 ∧
      (a.state = .firing ↔ s.Firing k) := by
  cases ha : s.active k with
  | none =>
    refine ⟨.new (s.time e) v, ?_, h.tracks_new hres hv, by simp [Alert.new], rfl, ?_⟩
    · simp [evalAlert, Alert.update, Alert.advance, ha, hv, Alert.new]
    · simp [Alert.new, Firing, ha]
  | some a =>
    by_cases hi : a.state = .inactive
    · -- A resolved alert is replaced by a new one.
      refine ⟨.new (s.time e) v, ?_, h.tracks_new hres hv, by simp [Alert.new], rfl, ?_⟩
      · simp [evalAlert, Alert.update, Alert.advance, ha, hv, hi, Alert.new]
      · simp [Alert.new, Firing, ha, hi]
    · refine ⟨{ a with value := v, keepFiringSince := 0 }, ?_,
        h.tracks_update hres ha hv, hi, rfl, ?_⟩
      · simp [evalAlert, Alert.update, Alert.advance, ha, hv, hi]
      · simp [Firing, ha]

omit h in
/-- The alert that is kept for an instance, once it is sent. -/
lemma kept {b : Alert F} {v : List AlertSample} (heq : s.evalAlert r e res k = (some b, v))
    (ht : (s.eval r e).Tracks k b) :
    (s.eval r e).active k = some (b.send r (s.time e)).1 ∧
      ∀ a, (s.eval r e).active k = some a → (s.eval r e).Tracks k a := by
  have hact : (s.eval r e).active k = some (b.send r (s.time e)).1 := by
    rw [eval_active hres k, heq]
    rfl
  refine ⟨hact, fun a ha => ?_⟩
  obtain rfl : (b.send r (s.time e)).1 = a := by simpa [hact] using ha
  simpa using ht.send

omit h in
/-- A pending alert that has been active for long enough fires. -/
lemma fires_of_pending {a : Alert F} {v : F} (hv : res k = some v)
    (heval : s.evalAlert r e res k = (some (a.fire r (s.time e)).1, (a.fire r (s.time e)).2))
    (ht : (s.eval r e).Tracks k a) (hkeep : a.keepFiringSince = 0) (hnot : ¬s.Firing k)
    (hp : a.state = .pending) (hhold : s.time e - a.activeAt ≥ r.holdDuration) :
    Lawful r s e res k ∧ ∀ a, (s.eval r e).active k = some a → (s.eval r e).Tracks k a := by
  obtain ⟨hsome, hall, h0⟩ := ht.pending hp
  set b : Alert F := { a with state := .firing, firedAt := s.time e } with hb
  have heq : s.evalAlert r e res k =
    (some b, if r.restored then b.samples r (s.time e) else []) := by
    simp [heval, Alert.fire, hp, hhold, hb]
  obtain ⟨hact, htracks⟩ := kept hres heq
    { pending := by simp [hb]
      firing := by simp [hb, hkeep]
      unresolved := fun _ => ht.unresolved (by simp [hp])
      sent := ht.sent }
  refine ⟨?_, htracks⟩
  exact
    { fires := fun _ _ => ⟨_, hact, by simpa using hhold, by simpa using hsome, by simpa using hall⟩
      fires_sent := fun hlate _ _ => by
        -- It was never sent, which is long ago.
        have hneeds : b.needsSending r (s.time e) := by
          simpa [Alert.needsSending, hb, h0] using .inr hlate
        rw [hact, sent, heq]
        exact Alert.send_eq r _ hneeds
      resolves := fun hwas => absurd hwas hnot
      resolves_sent := fun hwas => absurd hwas hnot
      disappears := fun a ha hpend habsent => by simp [hv] at habsent
      listed := fun a ha hi habsent => by simp [hv] at habsent
      samples := by simp [vector, heq, hact, reported, hb] }

omit h in
/-- Another alert that is present stays as it is. -/
lemma stays {a : Alert F} {v : F} (hv : res k = some v)
    (heval : s.evalAlert r e res k = (some (a.fire r (s.time e)).1, (a.fire r (s.time e)).2))
    (ht : (s.eval r e).Tracks k a) (hi : a.state ≠ .inactive) (hf : a.state = .firing ↔ s.Firing k)
    (hfire : ¬(a.state = .pending ∧ s.time e - a.activeAt ≥ r.holdDuration)) :
    Lawful r s e res k ∧ ∀ a, (s.eval r e).active k = some a → (s.eval r e).Tracks k a := by
  have heq : s.evalAlert r e res k =
    (some a, if r.restored then a.samples r (s.time e) else []) := by
    simp [heval, Alert.fire, hfire]
  obtain ⟨hact, htracks⟩ := kept hres heq ht
  have hfiring : (s.eval r e).Firing k ↔ s.Firing k := by
    rw [← hf]
    simp [Firing, hact]
  refine ⟨?_, htracks⟩
  exact
    { fires := fun hfires hnot => absurd (hfiring.1 hfires) hnot
      fires_sent := fun _ hfires hnot => absurd (hfiring.1 hfires) hnot
      resolves := fun hwas hnot => absurd (hfiring.2 hwas) hnot
      resolves_sent := fun hwas hnot => absurd (hfiring.2 hwas) hnot
      disappears := fun a ha hpend habsent => by simp [hv] at habsent
      listed := fun a ha hi habsent => by simp [hv] at habsent
      samples := by simp [vector, heq, hact, reported, hi] }

omit h in
/-- There is no alert any more: it was pending, or resolved long ago. -/
lemma gone (hn : s.evalAlert r e res k = (none, [])) (hf : ¬s.Firing k)
    (hl : ∀ a, s.active k = some a → a.state = .inactive →
      s.time e - a.resolvedAt > resolvedRetention) :
    Lawful r s e res k ∧ ∀ a, (s.eval r e).active k = some a → (s.eval r e).Tracks k a := by
  have hact : (s.eval r e).active k = none := by
    rw [eval_active hres k, hn]
    rfl
  refine ⟨?_, by simp [hact]⟩
  have hnot : ¬(s.eval r e).Firing k := by simp [Firing, hact]
  exact
    { fires := fun hfires => absurd hfires hnot
      fires_sent := fun _ hfires => absurd hfires hnot
      resolves := fun hwas => absurd hwas hf
      resolves_sent := fun hwas => absurd hwas hf
      disappears := fun _ _ _ _ => hact
      listed := fun a ha hi _ hle => absurd (hl a ha hi) (not_lt.2 hle)
      samples := by simp [vector, hn, hact, reported] }

/-- A resolved alert stays listed. -/
lemma Inv.listed {a : Alert F} (ha : s.active k = some a) (hst : a.state = .inactive)
    (hev : s.evalAlert r e res k = (some a, [])) :
    Lawful r s e res k ∧ ∀ a, (s.eval r e).active k = some a → (s.eval r e).Tracks k a := by
  obtain ⟨hact, htracks⟩ := kept hres hev
    { pending := by simp [hst]
      firing := by simp [hst]
      unresolved := by simp [hst]
      sent := by simpa using (h.tracks k a ha).sent.trans (last_lt_time s e).le }
  have hnot : ¬s.Firing k := by simp [Firing, ha, hst]
  have hnot' : ¬(s.eval r e).Firing k := by simp [Firing, hact, hst]
  refine ⟨?_, htracks⟩
  exact
    { fires := fun hfires => absurd hfires hnot'
      fires_sent := fun _ hfires => absurd hfires hnot'
      resolves := fun hwas => absurd hwas hnot
      resolves_sent := fun hwas => absurd hwas hnot
      disappears := fun b hb hpend => by
        obtain rfl : a = b := by simpa [ha] using hb
        simp [hst] at hpend
      listed := fun b hb _ _ _ => by
        obtain rfl : a = b := by simpa [ha] using hb
        exact ⟨_, hact, by simpa using hst, by simp⟩
      samples := by simp [vector, hev, hact, reported, hst] }

/-- A firing alert with `keepFiringFor` has been absent in all evaluations from `absentSince` on. -/
lemma Inv.absent {a : Alert F} (ha : s.active k = some a) (hst : a.state = .firing)
    (hv : res k = none) (hkeep : 0 < r.keepFiringFor) :
    (∃ x ∈ (s.eval r e).history, x.1 = a.absentSince r (s.time e)) ∧
      ∀ x ∈ (s.eval r e).history, a.absentSince r (s.time e) ≤ x.1 → x.2 k = none := by
  rw [eval_history hres, Alert.absentSince]
  by_cases h0 : a.keepFiringSince = 0
  · -- This is the first one.
    rw [if_pos ⟨hkeep, h0⟩]
    refine ⟨⟨_, List.mem_cons_self, rfl⟩, fun x hx hle => ?_⟩
    rcases List.mem_cons.1 hx with rfl | hx
    · exact hv
    · exact absurd (hle.trans (h.past x hx)) (not_le.2 (last_lt_time s e))
  · rw [if_neg (by simp [h0])]
    obtain ⟨⟨x, hx, hxa⟩, hall⟩ := (h.tracks k a ha).firing hst h0
    refine ⟨⟨x, List.mem_cons_of_mem _ hx, hxa⟩, fun y hy hle => ?_⟩
    rcases List.mem_cons.1 hy with rfl | hy
    · exact hv
    · exact hall y hy hle

/-- An absent alert is kept firing. -/
lemma Inv.keepsFiring {a : Alert F} (ha : s.active k = some a) (hst : a.state = .firing)
    (hv : res k = none) (hkeep : 0 < r.keepFiringFor)
    (hev : s.evalAlert r e res k = (some { a with keepFiringSince := a.absentSince r (s.time e) },
      if r.restored then a.samples r (s.time e) else [])) :
    Lawful r s e res k ∧ ∀ a, (s.eval r e).active k = some a → (s.eval r e).Tracks k a := by
  have hwas : s.Firing k := ⟨a, ha, hst⟩
  obtain ⟨hact, htracks⟩ := kept hres hev
    { pending := by simp [hst]
      firing := fun _ _ => h.absent hres ha hst hv hkeep
      unresolved := (h.tracks k a ha).unresolved
      sent := by simpa using (h.tracks k a ha).sent.trans (last_lt_time s e).le }
  have hstill : (s.eval r e).Firing k := ⟨_, hact, by simpa using hst⟩
  refine ⟨?_, htracks⟩
  exact
    { fires := fun _ hnot => absurd hwas hnot
      fires_sent := fun _ _ hnot => absurd hwas hnot
      resolves := fun _ hnot => absurd hstill hnot
      resolves_sent := fun _ hnot => absurd hstill hnot
      disappears := fun b hb hpend => by
        obtain rfl : a = b := by simpa [ha] using hb
        simp [hst] at hpend
      listed := fun b hb hi => by
        obtain rfl : a = b := by simpa [ha] using hb
        simp [hst] at hi
      samples := by simp [vector, hev, hact, reported, hst, Alert.samples] }

/-- An absent alert is resolved. -/
lemma Inv.resolves {a : Alert F} (ha : s.active k = some a) (hst : a.state = .firing)
    (hv : res k = none)
    (hlate : ¬(r.keepFiringFor > 0 ∧ s.time e - a.absentSince r (s.time e) < r.keepFiringFor))
    (hev : s.evalAlert r e res k = (some { a with
      keepFiringSince := a.absentSince r (s.time e), state := .inactive
      resolvedAt := s.time e }, [])) :
    Lawful r s e res k ∧ ∀ a, (s.eval r e).active k = some a → (s.eval r e).Tracks k a := by
  have hlt := last_lt_time s e
  have hsent := (h.tracks k a ha).sent
  obtain ⟨hact, htracks⟩ := kept hres hev
    { pending := by simp
      firing := by simp
      unresolved := by simp
      sent := by simpa using hsent.trans hlt.le }
  have hnot : ¬(s.eval r e).Firing k := by simp [Firing, hact]
  refine ⟨?_, htracks⟩
  exact
    { fires := fun hfires => absurd hfires hnot
      fires_sent := fun _ hfires => absurd hfires hnot
      resolves := fun _ _ => by
        refine ⟨hv, fun hkeep => ?_, _, hact, by simp, by simp⟩
        obtain ⟨⟨x, hx, hxa⟩, hall⟩ := h.absent hres ha hst hv hkeep
        exact ⟨x, hx, by omega, fun y hy hle => hall y hy (hxa ▸ hle)⟩
      resolves_sent := fun _ _ => by
        -- It has been sent before, if at all.
        rw [hact, sent, hev]
        exact Alert.send_eq r _ (by simpa [Alert.needsSending] using .inl (hsent.trans_lt hlt))
      disappears := fun b hb hpend => by
        obtain rfl : a = b := by simpa [ha] using hb
        simp [hst] at hpend
      listed := fun b hb hi => by
        obtain rfl : a = b := by simpa [ha] using hb
        simp [hst] at hi
      samples := by simp [vector, hev, hact, reported] }

/-- An evaluation without an error obeys the law and keeps the invariant, for every instance. -/
lemma Inv.lawful (k : K) :
    Lawful r s e res k ∧ ∀ a, (s.eval r e).active k = some a → (s.eval r e).Tracks k a := by
  cases hv : res k with
  | some v =>
    obtain ⟨a, heval, ht, hi, hkeep, hf⟩ := h.present hres hv
    by_cases hfire : a.state = .pending ∧ s.time e - a.activeAt ≥ r.holdDuration
    · have hnot : ¬s.Firing k := by simp [← hf, hfire.1]
      exact fires_of_pending hres hv heval ht hkeep hnot hfire.1 hfire.2
    · exact stays hres hv heval ht hi hf hfire
  | none =>
    cases ha : s.active k with
    | none =>
      exact gone hres (by simp [evalAlert, Alert.update, ha, hv])
        (by simp [Firing, ha]) (by simp [ha])
    | some a =>
      have hev : s.evalAlert r e res k = a.advance r (s.time e) false := by
        simp [evalAlert, Alert.update, ha, hv]
      cases hst : a.state with
      | pending =>
        rw [Alert.advance_pending r _ hst] at hev
        exact gone hres hev (by simp [Firing, ha, hst]) (by simp [ha, hst])
      | inactive =>
        rw [Alert.advance_inactive r _ hst] at hev
        split_ifs at hev with hold
        · exact gone hres hev (by simp [Firing, ha, hst]) (by simpa [ha, hst] using hold.2)
        · exact h.listed hres ha hst hev
      | firing =>
        rw [Alert.advance_firing r _ hst ((h.tracks k a ha).unresolved (by simp [hst]))] at hev
        by_cases hon : r.keepFiringFor > 0 ∧ s.time e - a.absentSince r (s.time e) < r.keepFiringFor
        · exact h.keepsFiring hres ha hst hv hon.1 (hev.trans (if_pos hon))
        · exact h.resolves hres ha hst hv hon (hev.trans (if_neg hon))

end Eval

lemma Inv.eval (h : s.Inv) : (s.eval r e).Inv ∧ AllLawful r s e := by
  have hlt := last_lt_time s e
  cases hres : e.result with
  | none =>
    have hactive : (s.eval r e).active = s.active := by simp [AlertRun.eval, hres]
    have hhist : (s.eval r e).history = s.history := by simp [AlertRun.eval, hres]
    refine ⟨?_, fun _ => hactive, fun res h => by simp [hres] at h⟩
    exact
      { tracks := fun k a ha => by
          have ht := h.tracks k a (by rwa [hactive] at ha)
          exact ⟨by simpa [hhist] using ht.pending, by simpa [hhist] using ht.firing, ht.unresolved,
            by simpa using ht.sent.trans hlt.le⟩
        past := fun x hx => by
          rw [hhist] at hx
          simpa using (h.past x hx).trans hlt.le
        late := by simpa using h.late.trans hlt.le }
  | some res =>
    refine ⟨?_, by simp [hres], fun res' hres' k => ?_⟩
    · exact
        { tracks := fun k => (h.lawful hres k).2
          past := fun x hx => by
            rw [eval_history hres, List.mem_cons] at hx
            rcases hx with rfl | hx
            · simp
            · simpa using (h.past x hx).trans hlt.le
          late := by simpa using h.late.trans hlt.le }
    · obtain rfl : res = res' := by simpa [hres] using hres'
      exact (h.lawful hres k).1

/-- **Every instance obeys the law** in every evaluation, if the evaluations are after the zero
value of `time.Time`. -/
theorem along_allLawful (r : AlertingRule) {start : ℤ} (hstart : 0 ≤ start)
    (es : List (AlertEval K F)) :
    Transition.Along (fun s e => some (s.eval r e)) (AllLawful r) (init start) es := by
  generalize hs : (init start : AlertRun K F) = s
  have h : s.Inv := hs ▸ inv_init hstart
  clear hs
  induction es generalizing s with
  | nil => trivial
  | cons e es ih =>
    exact (Transition.along_cons rfl).2 ⟨h.eval.2, ih _ h.eval.1⟩

/-- Present at first, absent later, and resolved at once. -/
theorem along_allLawful_one : Transition.Along (fun s e => some (s.eval ⟨0, 0, true, 0, 60, 60⟩ e))
    (AllLawful ⟨0, 0, true, 0, 60, 60⟩) (init 60 : AlertRun Unit ℕ)
    [⟨0, some fun _ => some 1⟩, ⟨9, none⟩, ⟨0, some fun _ => none⟩] :=
  along_allLawful _ (by decide) _

/-- An instance that is present. -/
def onePresent : AlertEval Unit ℕ :=
  ⟨0, some fun _ => some 1⟩

/-- A rule that is not restored returns no samples for an alert that fires, and an alert that fires
within the resend delay after the zero value is not sent. -/
theorem firing_not_reported :
    ((init 60).eval ⟨0, 0, false, 0, 60, 60⟩ onePresent).Firing () ∧
      (init 60).vector ⟨0, 0, false, 0, 60, 60⟩ onePresent (fun _ => some 1) () = [] ∧
      ¬(init 0 : AlertRun Unit ℕ).Firing () ∧
      ((init 0).eval ⟨0, 0, true, 0, 60, 60⟩ onePresent).Firing () ∧
      (init 0).sent ⟨0, 0, true, 0, 60, 60⟩ onePresent (fun _ => some 1) () = none := by
  refine ⟨⟨_, rfl, rfl⟩, by decide, ?_, ⟨_, rfl, rfl⟩, rfl⟩
  rintro ⟨a, ha, -⟩
  cases ha

end AlertRun

end Prometheus.Rules
