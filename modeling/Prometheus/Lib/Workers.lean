import Mathlib

/-!
# Workers with queues of their own

Jobs are sent to workers, and every worker does those in its queue one after the other. A job
changes the memory at one key only, and all jobs for a key go to the same worker. Then it does not
matter how the workers are interleaved with each other and with the senders. What says so is a
quantity that no worker changes: `settled` is what a key will hold when everything in its queue is
done (`settled_work`). Sending jobs does them at once, as far as `settled` is concerned
(`settled_send`).
-/

namespace Workers

open List Function

/-- Jobs `τ` on a memory that has a value in `σ` for every key in `κ`. -/
structure Jobs (κ σ τ : Type) where
  key : τ → κ
  act : τ → σ → σ
  /-- The worker for a key. -/
  worker : κ → ℕ

/-- The memory, and the queues of all workers. -/
structure Pool (κ σ τ : Type) where
  mem : κ → σ
  input : ℕ → List τ

variable {κ σ τ : Type} [DecidableEq κ]

namespace Pool

/-- Some jobs are put into the queue of a worker. -/
def send (p : Pool κ σ τ) (i : ℕ) (jobs : List τ) : Pool κ σ τ :=
  { p with input := Function.update p.input i (p.input i ++ jobs) }

/-- A worker does the first job in its queue. -/
def work (J : Jobs κ σ τ) (p : Pool κ σ τ) (i : ℕ) : Pool κ σ τ :=
  match p.input i with
  | [] => p
  | job :: jobs =>
    { mem := Function.update p.mem (J.key job) (J.act job (p.mem (J.key job)))
      input := Function.update p.input i jobs }

end Pool

namespace Jobs

variable (J : Jobs κ σ τ)

/-- Some jobs, done for one key. -/
def doAll (k : κ) (jobs : List τ) (x : σ) : σ :=
  (jobs.filter (J.key · = k)).foldl (fun x job => J.act job x) x

/-- What a key will hold when its queue is done. -/
def settled (p : Pool κ σ τ) (k : κ) : σ :=
  J.doAll k (p.input (J.worker k)) (p.mem k)

/-- Every job is in the queue of the worker for its key. -/
def Routed (p : Pool κ σ τ) : Prop :=
  ∀ i, ∀ job ∈ p.input i, J.worker (J.key job) = i

variable {J}

lemma doAll_append (k : κ) (jobs jobs' : List τ) (x : σ) :
    J.doAll k (jobs ++ jobs') x = J.doAll k jobs' (J.doAll k jobs x) := by
  rw [doAll, filter_append, foldl_append]
  rfl

lemma doAll_cons_self (job : τ) (jobs : List τ) (x : σ) :
    J.doAll (J.key job) (job :: jobs) x = J.doAll (J.key job) jobs (J.act job x) := by
  simp [doAll]

variable {k : κ} {jobs : List τ} {p : Pool κ σ τ}

lemma doAll_cons_of_ne (job : τ) (hne : J.key job ≠ k) (jobs : List τ) (x : σ) :
    J.doAll k (job :: jobs) x = J.doAll k jobs x := by
  simp [doAll, hne]

lemma doAll_eq_self (h : ∀ job ∈ jobs, J.key job ≠ k) (x : σ) : J.doAll k jobs x = x := by
  have hnil : jobs.filter (J.key · = k) = [] := by
    simpa [filter_eq_nil_iff] using h
  rw [doAll, hnil, foldl_nil]

lemma doAll_filter_worker (k : κ) (i : ℕ) (jobs : List τ) (x : σ) :
    J.doAll k (jobs.filter fun job => J.worker (J.key job) = i) x =
      if J.worker k = i then J.doAll k jobs x else x := by
  split
  next hi =>
    rw [doAll, doAll, filter_filter]
    congr 1
    refine filter_congr fun job _ => ?_
    by_cases hjob : J.key job = k
    · simp [hjob, hi]
    · simp [hjob]
  next hi =>
    refine doAll_eq_self (fun job hjob hkey => hi ?_) x
    rw [← hkey]
    exact of_decide_eq_true (mem_filter.1 hjob).2

/-- Jobs that are sorted by workers do the same to every key. -/
lemma doAll_shards {n : ℕ} (hk : J.worker k < n) (jobs : List τ) (x : σ) :
    J.doAll k ((range n).flatMap fun i => jobs.filter fun job => J.worker (J.key job) = i) x =
      J.doAll k jobs x := by
  -- By induction on the workers: before the one for the key, nothing is done.
  have hall : ∀ m, J.doAll k
      ((range m).flatMap fun i => jobs.filter fun job => J.worker (J.key job) = i) x =
        if J.worker k < m then J.doAll k jobs x else x := by
    intro m
    induction m with
    | zero => rfl
    | succ m ih =>
      rw [range_succ, flatMap_append, doAll_append, ih, flatMap_singleton, doAll_filter_worker]
      by_cases hlt : J.worker k < m
      · rw [if_pos hlt, if_neg (Nat.ne_of_lt hlt), if_pos (Nat.lt_succ_of_lt hlt)]
      rw [if_neg hlt]
      refine if_congr ?_ rfl rfl
      omega
  rw [hall, if_pos hk]

lemma settled_of_idle (h : p.input (J.worker k) = []) : J.settled p k = p.mem k := by
  rw [settled, h]
  rfl

/-- The order in which the workers run does not matter. -/
theorem settled_work (hp : J.Routed p) (i : ℕ) (k : κ) :
    J.settled (p.work J i) k = J.settled p k := by
  rw [Pool.work]
  split
  · rfl
  next job jobs hinput =>
    have hworker : J.worker (J.key job) = i := hp i job (by simp [hinput])
    rw [settled, settled]
    dsimp only
    by_cases hk : J.key job = k
    · -- The job is the next one for the key.
      subst hk
      rw [update_self, hworker, update_self, hinput, doAll_cons_self]
    rw [update_of_ne (Ne.symm hk)]
    by_cases hi : J.worker k = i
    · rw [hi, update_self, hinput, doAll_cons_of_ne job hk]
    · rw [update_of_ne hi]

theorem settled_send {i : ℕ} (hjobs : ∀ job ∈ jobs, J.worker (J.key job) = i) (k : κ) :
    J.settled (p.send i jobs) k = J.doAll k jobs (J.settled p k) := by
  rw [settled, settled, Pool.send]
  dsimp only
  by_cases hi : J.worker k = i
  · rw [hi, update_self, doAll_append]
  rw [update_of_ne hi]
  refine (doAll_eq_self ?_ _).symm
  rintro job hjob rfl
  exact hi (hjobs job hjob)

end Jobs

end Workers
