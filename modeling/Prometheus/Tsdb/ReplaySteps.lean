import Prometheus.Tsdb.LoadWAL

/-!
# What loading the log restores

Consider a log in which every series has one record, and its samples come after it. However the main
loop and the workers are scheduled, every series ends up with those of its samples that are later
than all its samples before them in the log (`Head.loadWAL_restores`). The proof follows what a
series will hold when everything is done, `WalReplay.outcome`. No step changes it: not one of a
worker, since this is what the jobs of workers are like, and not one of the main loop, which only
moves samples on.
-/

namespace Prometheus.Tsdb

open GoInt Record Workers List Function ReplayTask ReplayItem HeadAppender Head

/-! ### The items of a series -/

namespace ReplayItem

/-- The series that an item is about. -/
def key : ReplayItem → ℕ
  | series _ ref => ref
  | sample x => x.ref

/-- What an item does to the chunks of its series and to `mmMaxTime`. -/
def act (args : LoadArgs) (rules : ChunkRules) :
    ReplayItem → SeriesChunks SampleValue × ℤ → SeriesChunks SampleValue × ℤ
  | series walSeriesRef _, (c, _) =>
    (c.reset (args.mmappedChunks walSeriesRef), mmMaxTimeOf (args.mmappedChunks walSeriesRef))
  | sample x, (c, mmMaxTime) =>
    if x.t ≤ mmMaxTime then (c, mmMaxTime) else (c.replay x.t x.v (rules.cuts c.ref x.t), mmMaxTime)

/-- An item that a worker does not skip: its series is registered, and the sample is valid. -/
def Expected (h : Head) : ReplayItem → Prop
  | series _ ref => ref ∈ h.series
  | sample x => x.ref ∈ h.series ∧ h.minValidTime ≤ x.t

/-- The items as jobs of the workers. -/
def jobs (args : LoadArgs) (rules : ChunkRules) :
    Jobs ℕ (SeriesChunks SampleValue × ℤ) ReplayItem where
  key := key
  act := act args rules
  worker := (· % args.concurrency)

end ReplayItem

namespace ReplayTask

/-- The items that come from a task, if no ref stands for another one. -/
def items : ReplayTask → List ReplayItem
  | series ref _ => [.series ref ref]
  | metadata _ _ => []
  | batch samples => samples.map .sample
  | send _ items => items

/-- The series that a task creates, if there are none with these labels. -/
def newSeries : ReplayTask → List (ℕ × List Label)
  | series ref lset => [(ref, lset)]
  | _ => []

/-- The samples of a task. -/
def values : ReplayTask → List (RefValue SampleValue)
  | batch samples => samples
  | _ => []

end ReplayTask

/-- The registered series with their labels. -/
def Head.registered (h : Head) : List (ℕ × List Label) :=
  h.series.map fun ref => (ref, (h.mem ref).lset)

/-- Every series record is the first one for its ref and for its labels, and samples come after the
record of their series. -/
def InSequence (minValidTime : ℤ) : List (ℕ × List Label) → List ReplayTask → Prop
  | _, [] => True
  | known, .series ref lset :: todo =>
    ref ∉ known.map (·.1) ∧ lset ∉ known.map (·.2) ∧
      InSequence minValidTime (known ++ [(ref, lset)]) todo
  | known, .metadata _ _ :: todo => InSequence minValidTime known todo
  | known, .batch samples :: todo =>
    (∀ x ∈ samples, x.ref ∈ known.map (·.1) ∧ minValidTime ≤ x.t) ∧
    InSequence minValidTime known todo
  | known, .send _ _ :: todo => InSequence minValidTime known todo

variable {known : List (ℕ × List Label)} {todo : List ReplayTask} {minValidTime : ℤ}

attribute [local simp] flatMap_map values samplesOf

lemma inSequence_append {todo' : List ReplayTask} :
    InSequence minValidTime known (todo ++ todo') ↔ InSequence minValidTime known todo ∧
      InSequence minValidTime (known ++ todo.flatMap newSeries) todo' := by
  induction todo generalizing known with
  | nil => simp [InSequence]
  | cons task todo ih =>
    cases task <;> simp [InSequence, ih, newSeries, and_assoc]

lemma inSequence_sends (minValidTime : ℤ) {tasks : List ReplayTask}
    (known : List (ℕ × List Label)) (h : ∀ task ∈ tasks, ∃ i items, task = .send i items) :
    InSequence minValidTime known tasks ∧ tasks.flatMap newSeries = [] := by
  induction tasks with
  | nil => exact ⟨trivial, rfl⟩
  | cons task tasks ih =>
    obtain ⟨⟨i, items, rfl⟩, htasks⟩ := forall_mem_cons.1 h
    exact ih htasks

namespace WalReplay

/-- The chunks and the queues. -/
def pool (r : WalReplay) : Pool ℕ (SeriesChunks SampleValue × ℤ) ReplayItem :=
  ⟨fun ref => ((r.head.mem ref).chunks, r.mmMaxTime ref), r.input⟩

/-- What a series will hold when everything is done. -/
def outcome (args : LoadArgs) (rules : ChunkRules) (r : WalReplay) (ref : ℕ) :
    SeriesChunks SampleValue × ℤ :=
  (jobs args rules).doAll ref (r.todo.flatMap items) ((jobs args rules).settled r.pool ref)

/-- The replay of a log in which every series has one record, and samples come after it. -/
structure Sound (args : LoadArgs) (r : WalReplay) : Prop where
  multiRef : ∀ ref, r.multiRef ref = none
  todo : InSequence r.head.minValidTime r.head.registered r.todo
  sends : ∀ i items, .send i items ∈ r.todo →
    ∀ item ∈ items, item.Expected r.head ∧ item.key % args.concurrency = i
  input : ∀ i, ∀ item ∈ r.input i, item.Expected r.head ∧ item.key % args.concurrency = i
  fresh : ∀ ref, ref ∉ r.head.series → (r.head.mem ref).chunks = .new ref ∧ r.mmMaxTime ref = 0

/-- What a step keeps: what the series will hold, and which series there will be. -/
structure Keeps (args : LoadArgs) (r r' : WalReplay) : Prop where
  sound : r'.Sound args
  opts : r'.head.opts = r.head.opts
  outcome : ∀ rules, r.head.opts.rules = rules → ∀ ref, r'.outcome args rules ref =
    r.outcome args rules ref
  registered : r'.head.registered ++ r'.todo.flatMap newSeries =
    r.head.registered ++ r.todo.flatMap newSeries

end WalReplay

variable {h : Head} {f : HeadSeries → HeadSeries} {lset : List Label}

namespace Head

lemma map_fst_registered (h : Head) : h.registered.map (·.1) = h.series := by
  simp [registered, comp_def]

/-- Labels are not registered exactly if looking for them finds nothing. -/
lemma getByHash_eq_none_iff : h.getByHash lset = none ↔ lset ∉ h.registered.map (·.2) := by
  simp [getByHash, registered, find?_eq_none]

lemma registered_create {ref : ℕ} (hnew : ref ∉ h.series) (lset : List Label)
    (pendingCommit : Bool) (lastSeriesID : ℕ) :
    ({ h with
        mem := Function.update h.mem ref (.new lset ref pendingCommit)
        series := h.series ++ [ref]
        lastSeriesID := lastSeriesID } : Head).registered = h.registered ++ [(ref, lset)] := by
  rw [registered, registered, map_append]
  congr 1
  · refine map_congr_left fun r hr => ?_
    dsimp only
    rw [update_of_ne (ne_of_mem_of_not_mem hr hnew)]
  · simp [HeadSeries.new]

lemma registered_update (h : Head) (ref : ℕ)
    (hf : ∀ s, (f s).lset = s.lset) : (h.update ref f).registered = h.registered := by
  refine map_congr_left fun r _ => ?_
  by_cases hr : r = ref
  · rw [hr, update_mem_self, hf]
  · rw [update_mem_of_ne _ hr]

end Head

lemma HeadSeries.replay_lset (s : HeadSeries) (rules : ChunkRules) (t : ℤ) (v : SampleValue) :
    (s.replay rules t v).lset = s.lset := by
  rw [HeadSeries.replay, HeadSeries.append]
  split
  · rfl
  · cases v <;> rfl

variable {item : ReplayItem}

lemma ReplayItem.Expected.mono {h' : Head} (hitem : item.Expected h)
    (hseries : h.series ⊆ h'.series) (hvalid : h'.minValidTime = h.minValidTime) :
    item.Expected h' := by
  cases item with
  | series walSeriesRef ref => exact hseries hitem
  | sample x => exact ⟨hseries hitem.1, hvalid ▸ hitem.2⟩

namespace WalReplay

variable {args : LoadArgs} {r : WalReplay}

variable {todo : List ReplayTask} {ref : ℕ}

lemma outcome_of_todo {r' : WalReplay} {rules : ChunkRules} {task : ReplayTask}
    (htodo : r.todo = task :: todo) (todo' : List ReplayTask) (htodo' : r'.todo = todo' ++ todo)
    (h : (jobs args rules).doAll ref (todo'.flatMap items)
        ((jobs args rules).settled r'.pool ref) =
      (jobs args rules).doAll ref task.items ((jobs args rules).settled r.pool ref)) :
    r'.outcome args rules ref = r.outcome args rules ref := by
  rw [outcome, outcome, htodo, htodo', flatMap_append, flatMap_cons, Jobs.doAll_append,
    Jobs.doAll_append, h]

variable (hr : r.Sound args)
include hr

/-- A series record creates its series. -/
lemma Sound.series (hcreate : r.head.opts.preCreation lset = none)
    (htodo : r.todo = .series ref lset :: todo) : Keeps args r (r.main args) := by
  have hseq := hr.todo
  rw [htodo, InSequence] at hseq
  obtain ⟨href, hlset, hrest⟩ := hseq
  rw [map_fst_registered] at href
  have hnone := getByHash_eq_none_iff.2 hlset
  have hmain : r.main args = { r with
        head := { r.head with
          mem := update r.head.mem ref (.new lset ref false)
          series := r.head.series ++ [ref]
          lastSeriesID := max r.head.lastSeriesID ref }
        mmMaxTime := update r.mmMaxTime ref 0
        todo := .send (ref % args.concurrency) [.series ref ref] :: todo } := by
    rw [main, htodo]
    simp only [getOrCreateWithID, hnone, hcreate]
    rfl
  have hreg := registered_create href lset false (max r.head.lastSeriesID ref)
  have hsub : r.head.series ⊆ r.head.series ++ [ref] := subset_append_left _ _
  -- The series was not used before, so it is as if it had been there.
  have hpool : (r.main args).pool = r.pool := by
    rw [hmain, pool, pool]
    congr 1
    funext k
    by_cases hk : k = ref
    · subst hk
      dsimp only
      rw [update_self, update_self, (hr.fresh k href).1, (hr.fresh k href).2]
      rfl
    · dsimp only
      rw [update_of_ne hk, update_of_ne hk]
  refine ⟨?_, by rw [hmain], ?_, ?_⟩
  · rw [hmain]
    refine ⟨hr.multiRef, ?_, ?_, ?_, ?_⟩
    · rw [InSequence, hreg]
      exact hrest
    · intro i items hsend item hitem
      rcases mem_cons.1 hsend with heq | hsend
      · obtain ⟨rfl, rfl⟩ := send.inj heq
        rw [mem_singleton.1 hitem]
        exact ⟨mem_append_right _ (mem_singleton.2 rfl), rfl⟩
      · have hold := hr.sends i items (htodo ▸ mem_cons_of_mem _ hsend) item hitem
        exact ⟨hold.1.mono hsub rfl, hold.2⟩
    · intro i item hitem
      exact ⟨(hr.input i item hitem).1.mono hsub rfl, (hr.input i item hitem).2⟩
    · intro k hk
      have hk' := not_or.1 (mt mem_append.2 hk)
      have hne : k ≠ ref := fun heq => hk'.2 (mem_singleton.2 heq)
      dsimp only
      rw [update_of_ne hne, update_of_ne hne]
      exact hr.fresh k hk'.1
  · intro rules _ k
    refine outcome_of_todo htodo [.send (ref % args.concurrency) [.series ref ref]]
      (by rw [hmain]; rfl) ?_
    rw [hpool]
    rfl
  · rw [hmain, htodo, hreg]
    simp [newSeries]

lemma Sound.metadata {walRef : ℕ} {m : Metadata}
    (htodo : r.todo = .metadata walRef m :: todo) : Keeps args r (r.main args) := by
  have hseq := hr.todo
  rw [htodo, InSequence] at hseq
  obtain ⟨h', hmain, hseries, hvalid, hopts, hreg, hchunks⟩ : ∃ h' : Head,
      r.main args = { r with head := h', todo := todo } ∧ h'.series = r.head.series ∧
        h'.minValidTime = r.head.minValidTime ∧ h'.opts = r.head.opts ∧
        h'.registered = r.head.registered ∧
        ∀ k, (h'.mem k).chunks = (r.head.mem k).chunks := by
    refine ⟨_, by rw [main, htodo], ?_⟩
    split
    · refine ⟨rfl, rfl, rfl, Head.registered_update _ _ fun _ => rfl, fun k => ?_⟩
      rw [Head.update]
      by_cases hk : k = (r.multiRef walRef).getD walRef
      · subst hk
        dsimp only
        rw [update_self]
      · dsimp only
        rw [update_of_ne hk]
    · exact ⟨rfl, rfl, rfl, rfl, fun _ => rfl⟩
  have hsub : r.head.series ⊆ h'.series := fun _ hmem => hseries ▸ hmem
  have hpool : (r.main args).pool = r.pool := by
    rw [hmain, pool, pool]
    simp only [hchunks]
  refine ⟨?_, by rw [hmain, hopts], ?_, ?_⟩
  · rw [hmain]
    refine ⟨hr.multiRef, ?_, ?_, ?_, ?_⟩
    · rw [hvalid, hreg]
      exact hseq
    · intro i items hsend item hitem
      have hold := hr.sends i items (htodo ▸ mem_cons_of_mem _ hsend) item hitem
      exact ⟨hold.1.mono hsub hvalid, hold.2⟩
    · intro i item hitem
      exact ⟨(hr.input i item hitem).1.mono hsub hvalid, (hr.input i item hitem).2⟩
    · intro k hk
      rw [hseries] at hk
      rw [hchunks]
      exact hr.fresh k hk
  · intro rules _ k
    refine outcome_of_todo htodo [] (by rw [hmain]; rfl) ?_
    rw [hpool]
    rfl
  · rw [hmain, htodo, hreg]
    simp [newSeries]

lemma Sound.batch (hn : 1 ≤ args.concurrency) {samples : List (RefValue SampleValue)}
    (htodo : r.todo = .batch samples :: todo) : Keeps args r (r.main args) := by
  have hseq := hr.todo
  rw [htodo, InSequence] at hseq
  obtain ⟨hsamples, hrest⟩ := hseq
  -- No sample is discarded, and no ref is replaced.
  have hvalid : (samples.filter fun x => r.head.minValidTime ≤ x.t) = samples := by
    rw [filter_eq_self]
    exact fun x hx => decide_eq_true (hsamples x hx).2
  have hrefs : (samples.map fun x =>
    { x with ref := (r.multiRef x.ref).getD x.ref }) = samples := by
    simp [hr.multiRef]
  set sends : List ReplayTask := (range args.concurrency).map fun i =>
    .send i ((samples.filter fun x => x.ref % args.concurrency = i).map .sample) with hsends
  have hmain : r.main args = { r with todo := sends ++ todo } := by
    rw [main, htodo]
    dsimp only
    rw [hvalid, hrefs]
  have hin : ∀ task ∈ sends, ∃ i, task =
      .send i ((samples.filter fun x => x.ref % args.concurrency = i).map .sample) := by
    intro task htask
    obtain ⟨i, -, rfl⟩ := mem_map.1 htask
    exact ⟨i, rfl⟩
  obtain ⟨hseqs, hnone⟩ := inSequence_sends r.head.minValidTime r.head.registered
    fun task htask => (hin task htask).imp fun i heq => ⟨_, heq⟩
  refine ⟨?_, by rw [hmain], ?_, ?_⟩
  · rw [hmain]
    refine ⟨hr.multiRef, ?_, ?_, hr.input, hr.fresh⟩
    · refine inSequence_append.2 ⟨hseqs, ?_⟩
      rw [hnone, append_nil]
      exact hrest
    intro i items hsend item hitem
    rcases mem_append.1 hsend with hsend | hsend
    · obtain ⟨j, heq⟩ := hin _ hsend
      obtain ⟨rfl, rfl⟩ := send.inj heq
      obtain ⟨x, hx, rfl⟩ := mem_map.1 hitem
      obtain ⟨hx, hmod⟩ := mem_filter.1 hx
      have hx := hsamples x hx
      rw [map_fst_registered] at hx
      exact ⟨hx, of_decide_eq_true hmod⟩
    · exact hr.sends i items (htodo ▸ mem_cons_of_mem _ hsend) item hitem
  · intro rules _ k
    refine outcome_of_todo htodo sends (by rw [hmain]) ?_
    have hpool : (r.main args).pool = r.pool := by rw [hmain]; rfl
    have hk : (jobs args rules).worker k < args.concurrency := Nat.mod_lt _ hn
    rw [hpool, hsends, flatMap_map]
    refine Eq.trans ?_ (Jobs.doAll_shards hk (samples.map .sample) _)
    congr 2
    funext i
    rw [filter_map]
    rfl
  · rw [hmain, htodo]
    simp [hnone, newSeries]

lemma Sound.send {i : ℕ} {items : List ReplayItem}
    (htodo : r.todo = .send i items :: todo) : Keeps args r (r.main args) := by
  have hseq := hr.todo
  rw [htodo, InSequence] at hseq
  have hitems := hr.sends i items (htodo ▸ mem_cons_self)
  have hmain : r.main args =
      { r with todo := todo, input := update r.input i (r.input i ++ items) } := by
    rw [main, htodo]
  refine ⟨?_, by rw [hmain], ?_, ?_⟩
  · rw [hmain]
    refine ⟨hr.multiRef, hseq, ?_, ?_, hr.fresh⟩
    · intro j items' hsend
      exact hr.sends j items' (htodo ▸ mem_cons_of_mem _ hsend)
    intro j item hitem
    dsimp only at hitem
    by_cases hj : j = i
    · subst hj
      rw [update_self] at hitem
      rcases mem_append.1 hitem with hitem | hitem
      · exact hr.input j item hitem
      · exact hitems item hitem
    · rw [update_of_ne hj] at hitem
      exact hr.input j item hitem
  · intro rules _ k
    refine outcome_of_todo htodo [] (by rw [hmain]; rfl) ?_
    have hpool : (r.main args).pool = r.pool.send i items := by rw [hmain]; rfl
    rw [hpool, Jobs.settled_send fun item hitem => (hitems item hitem).2]
    rfl
  · rw [hmain, htodo]
    simp [newSeries]

lemma Sound.main (hcreate : ∀ lset, r.head.opts.preCreation lset = none)
    (hn : 1 ≤ args.concurrency) : Keeps args r (r.main args) := by
  cases htodo : r.todo with
  | nil =>
    have hmain : r.main args = r := by rw [WalReplay.main, htodo]
    rw [hmain]
    exact ⟨hr, rfl, fun _ _ _ => rfl, rfl⟩
  | cons task todo =>
    cases task with
    | series ref lset => exact hr.series (hcreate lset) htodo
    | metadata ref m => exact hr.metadata htodo
    | batch samples => exact hr.batch hn htodo
    | send i items => exact hr.send htodo

omit hr

/-- The chunks of one series and its `mmMaxTime` are changed. -/
lemma pool_mem_update {mmMaxTime : ℕ → ℤ}
    {y : SeriesChunks SampleValue × ℤ} (hmem : h.mem = (r.head.update ref f).mem)
    (hmm : mmMaxTime = Function.update r.mmMaxTime ref y.2)
    (hf : (f (r.head.mem ref)).chunks = y.1) :
    (fun k => ((h.mem k).chunks, mmMaxTime k)) = Function.update r.pool.mem ref y := by
  funext k
  rw [hmem, hmm]
  by_cases hk : k = ref
  · subst hk
    rw [update_mem_self, update_self, update_self, hf]
  · rw [update_mem_of_ne _ hk, update_of_ne hk, update_of_ne hk]
    rfl

/-- What a worker does with an item that it does not skip. -/
lemma process_spec (args : LoadArgs) (r : WalReplay) (i : ℕ) (hitem : item.Expected r.head) :
    (r.process args i item).pool.mem = Function.update r.pool.mem item.key
        (item.act args r.head.opts.rules (r.pool.mem item.key)) ∧
      (r.process args i item).input = r.input ∧ (r.process args i item).todo = r.todo ∧
      (r.process args i item).multiRef = r.multiRef ∧
      (r.process args i item).head.registered = r.head.registered ∧
      (r.process args i item).head.series = r.head.series ∧
      (r.process args i item).head.opts = r.head.opts ∧
      (r.process args i item).head.minValidTime = r.head.minValidTime := by
  cases item with
  | series walSeriesRef ref =>
    set mmc := args.mmappedChunks walSeriesRef with hmmc
    set h := r.head.update ref fun s => { s with chunks := s.chunks.reset mmc } with hh
    have hreg : h.registered = r.head.registered := r.head.registered_update ref fun _ => rfl
    rw [process]
    rw [← hmmc, ← hh]
    cases mmc.head? with
    | none =>
      refine ⟨pool_mem_update
        (f := fun s => { s with chunks := s.chunks.reset mmc }) ?_ rfl rfl, rfl,
        rfl, rfl, hreg, rfl, rfl, rfl⟩
      rfl
    | some chk =>
      refine ⟨pool_mem_update
        (f := fun s => { s with chunks := s.chunks.reset mmc }) ?_ rfl rfl, rfl,
        rfl, rfl, hreg, rfl, rfl, rfl⟩
      rfl
  | sample x =>
    obtain ⟨hmem, hvalid⟩ := hitem
    rw [process, if_neg (not_not.2 hmem), if_neg fun hc => absurd hc.2 (not_lt.2 hvalid)]
    by_cases ht : x.t ≤ r.mmMaxTime x.ref
    · have hact : (sample x).act args r.head.opts.rules (r.pool.mem x.ref) =
          r.pool.mem x.ref := if_pos ht
      rw [if_pos ht, key, hact, update_eq_self]
      exact ⟨rfl, rfl, rfl, rfl, rfl, rfl, rfl, rfl⟩
    have hact : (sample x).act args r.head.opts.rules (r.pool.mem x.ref) =
        ((r.head.mem x.ref).chunks.replay x.t x.v
          (r.head.opts.rules.cuts (r.head.mem x.ref).chunks.ref x.t), r.mmMaxTime x.ref) :=
      if_neg ht
    rw [if_neg ht, key, hact]
    refine ⟨pool_mem_update rfl (update_eq_self ..).symm rfl, rfl, rfl, rfl, ?_, rfl, rfl, rfl⟩
    exact r.head.registered_update x.ref fun s => s.replay_lset ..

/-- A worker does not change what the series will hold. -/
lemma Sound.work (hr : r.Sound args) (i : ℕ) : Keeps args r (r.work args i) := by
  cases hinput : r.input i with
  | nil =>
    have hwork : r.work args i = r := by rw [WalReplay.work, hinput]
    rw [hwork]
    exact ⟨hr, rfl, fun _ _ _ => rfl, rfl⟩
  | cons item items =>
    have hmem : item ∈ r.input i := hinput ▸ mem_cons_self
    obtain ⟨hexpected, hworker⟩ := hr.input i item hmem
    have hwork : r.work args i =
        ({ r with input := update r.input i items } : WalReplay).process args i item := by
      rw [WalReplay.work, hinput]
    obtain ⟨hpool, hin, htodo, hmulti, hreg, hseries, hopts, hvalid⟩ :=
      process_spec args { r with input := update r.input i items } i hexpected
    rw [← hwork] at hpool hin htodo hmulti hreg hseries hopts hvalid
    have hsub : r.head.series ⊆ (r.work args i).head.series := fun _ h => hseries ▸ h
    refine ⟨⟨?_, ?_, ?_, ?_, ?_⟩, hopts, ?_, ?_⟩
    · rw [hmulti]
      exact hr.multiRef
    · rw [hvalid, hreg, htodo]
      exact hr.todo
    · rw [htodo]
      intro j items' hsend item' hitem'
      have hold := hr.sends j items' hsend item' hitem'
      exact ⟨hold.1.mono hsub hvalid, hold.2⟩
    · intro j item' hitem'
      rw [hin] at hitem'
      have hold : item' ∈ r.input j := by
        dsimp only at hitem'
        by_cases hj : j = i
        · subst hj
          rw [update_self] at hitem'
          exact hinput ▸ mem_cons_of_mem item hitem'
        · rwa [update_of_ne hj] at hitem'
      exact ⟨(hr.input j item' hold).1.mono hsub hvalid, (hr.input j item' hold).2⟩
    · intro k hk
      rw [hseries] at hk
      have hne : k ≠ item.key := by
        rintro rfl
        cases item with
        | series walSeriesRef ref => exact hk hexpected
        | sample x => exact hk hexpected.1
      have hsame := congrFun hpool k
      rw [update_of_ne hne] at hsame
      have hfresh := hr.fresh k hk
      exact ⟨(congrArg Prod.fst hsame).trans hfresh.1, (congrArg Prod.snd hsame).trans hfresh.2⟩
    · rintro rules rfl k
      have hjob : (r.work args i).pool = r.pool.work (jobs args r.head.opts.rules) i := by
        have hqueue : r.pool.input i = item :: items := hinput
        rw [Pool.work, hqueue]
        exact congrArg₂ Pool.mk hpool hin
      have hrouted : (jobs args r.head.opts.rules).Routed r.pool :=
        fun j item' hitem' => (hr.input j item' hitem').2
      rw [outcome, outcome, htodo, hjob, Jobs.settled_work hrouted]
    · rw [hreg, htodo]

lemma Keeps.trans {r' r'' : WalReplay} (h : Keeps args r r') (h' : Keeps args r' r'') :
    Keeps args r r'' where
  sound := h'.sound
  opts := h'.opts.trans h.opts
  outcome := fun rules hrules ref =>
    (h'.outcome rules (h.opts ▸ hrules) ref).trans (h.outcome rules hrules ref)
  registered := h'.registered.trans h.registered

/-- Every step of every schedule keeps what the series will hold. -/
lemma Sound.run (hr : r.Sound args) (hcreate : ∀ lset, r.head.opts.preCreation lset = none)
    (hn : 1 ≤ args.concurrency) (schedule : List (Option ℕ)) :
    Keeps args r (r.run args schedule) := by
  induction schedule generalizing r with
  | nil => exact ⟨hr, rfl, fun _ _ _ => rfl, rfl⟩
  | cons who schedule ih =>
    have hstep : Keeps args r (r.step args who) := by
      cases who with
      | none => exact hr.main hcreate hn
      | some i => exact hr.work i
    exact hstep.trans (ih hstep.sound fun lset => by rw [hstep.opts, hcreate])

end WalReplay

/-! ### What is restored -/

variable {c : SeriesChunks SampleValue}

section Restored

variable (args : LoadArgs) (rules : ChunkRules)

/-- The samples of a series are added if they are later than all before. -/
lemma doAll_samples (hc : c.WF) (ref : ℕ) (xs : List (RefValue SampleValue)) :
    ∃ c' : SeriesChunks SampleValue, c'.WF ∧
      (jobs args rules).doAll ref (xs.map .sample) (c, minInt64) = (c', minInt64) ∧
      c'.samples = c.samples ++ later c.maxTime (HeadAppender.samplesOf ref xs) ∧
      c'.maxTime = lastTime c.maxTime (HeadAppender.samplesOf ref xs) := by
  induction xs generalizing c with
  | nil => exact ⟨c, hc, rfl, (append_nil _).symm, rfl⟩
  | cons x xs ih =>
    by_cases hx : x.ref = ref
    · subst hx
      have hof : samplesOf x.ref (x :: xs) = (x.t, x.v) :: samplesOf x.ref xs := by simp
      rw [hof, later, lastTime_cons, map_cons]
      have hmin : minInt64 ≤ c.maxTime := (hc c.asSeries rfl).minInt64_le
      have hcons := Jobs.doAll_cons_self (J := jobs args rules) (.sample x)
        (xs.map .sample) (c, minInt64)
      by_cases ht : x.t ≤ minInt64
      · -- The time is the least one: the sample is not late enough for any series.
        obtain ⟨c', hwf, heq, hsamples, hmax⟩ := ih hc
        have hact : (jobs args rules).act (.sample x) (c, minInt64) = (c, minInt64) :=
          if_pos ht
        rw [hact] at hcons
        rw [if_neg (not_lt.2 (ht.trans hmin)), max_eq_left (ht.trans hmin)]
        exact ⟨c', hwf, hcons.trans heq, hsamples, hmax⟩
      obtain ⟨hwf, hsamples, hmax⟩ :=
        SeriesChunks.replay_spec hc x.t x.v (rules.cuts c.ref x.t)
      obtain ⟨c', hwf', heq, hsamples', hmax'⟩ := ih hwf
      have hact : (jobs args rules).act (.sample x) (c, minInt64) =
          (c.replay x.t x.v (rules.cuts c.ref x.t), minInt64) := if_neg ht
      rw [hact] at hcons
      refine ⟨c', hwf', hcons.trans heq, ?_, by rw [hmax', hmax]⟩
      rw [hsamples', hsamples, hmax]
      split
      case isTrue hlt => simp [max_eq_right hlt.le]
      case isFalse hge => rw [max_eq_left (not_lt.1 hge)]
    · have hof : samplesOf ref (x :: xs) = samplesOf ref xs := by
        simp [hx]
      have hskip := Jobs.doAll_cons_of_ne (J := jobs args rules) (.sample x) hx
        (xs.map .sample) (c, minInt64)
      obtain ⟨c', hwf, heq, hsamples, hmax⟩ := ih hc
      rw [hof]
      exact ⟨c', hwf, hskip.trans heq, hsamples, hmax⟩

/-- No task is a send, as at the beginning. -/
def Unsent (todo : List ReplayTask) : Prop :=
  ∀ i items, .send i items ∉ todo

/-- What becomes of a series whose record was read. -/
lemma doAll_known (hseq : InSequence minValidTime known todo) (hunsent : Unsent todo) (ref : ℕ)
    (href : ref ∈ known.map (·.1)) (hc : c.WF) : ∃ c' : SeriesChunks SampleValue, c'.WF ∧
      (jobs args rules).doAll ref (todo.flatMap items) (c, minInt64) = (c', minInt64) ∧
      c'.samples = c.samples ++
        later c.maxTime (HeadAppender.samplesOf ref (todo.flatMap values)) := by
  induction todo generalizing known c with
  | nil => exact ⟨c, hc, rfl, (append_nil _).symm⟩
  | cons task todo ih =>
    have hrest : Unsent todo := fun i items hmem => hunsent i items (mem_cons_of_mem _ hmem)
    rw [flatMap_cons, flatMap_cons, samplesOf_append, Jobs.doAll_append]
    cases task with
    | series r lset =>
      obtain ⟨hr, -, hseq⟩ := hseq
      have hne : r ≠ ref := fun heq => hr (heq ▸ href)
      have hskip : (jobs args rules).doAll ref [.series r r] (c, minInt64) =
          (c, minInt64) := Jobs.doAll_cons_of_ne (series r r) hne [] _
      obtain ⟨c', hwf, heq, hsamples⟩ := ih hseq hrest (by simp [href]) hc
      refine ⟨c', hwf, ?_, hsamples⟩
      rw [items, hskip, heq]
    | metadata r m => exact ih hseq hrest href hc
    | batch samples =>
      obtain ⟨c₁, hwf₁, heq₁, hsamples₁, hmax₁⟩ := doAll_samples args rules hc ref samples
      obtain ⟨c', hwf, heq, hsamples⟩ := ih hseq.2 hrest href hwf₁
      refine ⟨c', hwf, ?_, ?_⟩
      · rw [items, heq₁, heq]
      · rw [hsamples, hsamples₁, hmax₁, append_assoc, values, later_append]
    | send i items => exact absurd mem_cons_self (hunsent i items)

/-- What becomes of a series whose record will be read: it has no samples before. -/
lemma doAll_new (hmm : ∀ ref, args.mmappedChunks ref = [])
    (hseq : InSequence minValidTime known todo) (hunsent : Unsent todo) (ref : ℕ)
    (href : ref ∉ known.map (·.1)) (hnew : ref ∈ (todo.flatMap newSeries).map (·.1))
    (m : ℤ) :
    ∃ c' : SeriesChunks SampleValue, c'.WF ∧
      (jobs args rules).doAll ref (todo.flatMap items) (.new ref, m) = (c', minInt64) ∧
      c'.samples = later minInt64 (HeadAppender.samplesOf ref (todo.flatMap values)) := by
  induction todo generalizing known with
  | nil => cases hnew
  | cons task todo ih =>
    have hrest : Unsent todo := fun i items hmem => hunsent i items (mem_cons_of_mem _ hmem)
    rw [flatMap_cons, flatMap_cons, samplesOf_append, Jobs.doAll_append]
    rw [flatMap_cons, map_append, mem_append] at hnew
    cases task with
    | series r lset =>
      obtain ⟨hr, -, hseq⟩ := hseq
      by_cases heq : r = ref
      · -- The record is read, which resets the series.
        subst heq
        have hreset : (jobs args rules).doAll r [.series r r] (.new r, m) = (.new r, minInt64) := by
          refine (Jobs.doAll_cons_self (J := jobs args rules) (.series r r) [] _).trans ?_
          show act args rules (.series r r) (.new r, m) = _
          rw [act, hmm]
          rfl
        obtain ⟨c', hwf, hdo, hsamples⟩ := doAll_known args rules hseq hrest r (by simp)
          (SeriesChunks.wf_new r)
        refine ⟨c', hwf, ?_, hsamples⟩
        rw [items, hreset, hdo]
      · have hskip : (jobs args rules).doAll ref [.series r r] (.new ref, m) =
            (.new ref, m) := Jobs.doAll_cons_of_ne (series r r) heq [] _
        have hnew' : ref ∈ (todo.flatMap newSeries).map (·.1) := by
          refine hnew.resolve_left fun hmem => heq ?_
          exact (mem_singleton.1 hmem).symm
        have href' : ref ∉ (known ++ [(r, lset)]).map (·.1) := by
          simpa [Ne.symm heq] using href
        obtain ⟨c', hwf, hdo, hsamples⟩ := ih hseq hrest href' hnew'
        refine ⟨c', hwf, ?_, hsamples⟩
        rw [items, hskip, hdo]
    | metadata r m' => exact ih hseq hrest href (hnew.resolve_left (by simp [newSeries]))
    | batch samples =>
      -- The samples belong to series that are known.
      have hother : ∀ x ∈ samples, x.ref ≠ ref := fun x hx heq => href (heq ▸ (hseq.1 x hx).1)
      have hskip : (jobs args rules).doAll ref (samples.map .sample) (.new ref, m) =
          (.new ref, m) := by
        refine Jobs.doAll_eq_self (fun item hitem => ?_) _
        obtain ⟨x, hx, rfl⟩ := mem_map.1 hitem
        exact hother x hx
      have hnone : samplesOf ref samples = [] := by
        simpa [filter_eq_nil_iff] using hother
      obtain ⟨c', hwf, hdo, hsamples⟩ := ih hseq.2 hrest href
        (hnew.resolve_left (by simp [newSeries]))
      refine ⟨c', hwf, ?_, ?_⟩
      · rw [items, hskip, hdo]
      · rw [values, hnone, hsamples, nil_append]
    | send i items => exact absurd mem_cons_self (hunsent i items)

/-- The series that a record creates, if there are none with these labels. -/
def WalRecord.newSeries : WalRecord → List (ℕ × List Label)
  | series xs => xs
  | _ => []

attribute [local simp] newSeries Unsent

lemma WalRecord.tasks_spec (rec : WalRecord) :
    rec.tasks.flatMap ReplayTask.newSeries = rec.newSeries ∧
      rec.tasks.flatMap ReplayTask.values = rec.values ∧ Unsent rec.tasks := by
  have hbatch : ∀ xs : List (List (RefValue SampleValue)),
      (xs.map batch).flatMap ReplayTask.newSeries = [] ∧
        (xs.map ReplayTask.batch).flatMap ReplayTask.values = xs.flatten ∧
        Unsent (xs.map ReplayTask.batch) := by
    intro xs
    refine ⟨?_, ?_, ?_⟩
    · simp
    · simp [flatMap_id']
    · simp
  cases rec with
  | series xs =>
    refine ⟨?_, ?_, ?_⟩
    · simp [tasks, newSeries]
    · simp [tasks, values]
    · simp [tasks]
  | metadata xs =>
    refine ⟨?_, ?_, ?_⟩
    · simp [tasks, newSeries]
    · simp [tasks, values]
    · simp [tasks]
  | _ =>
    obtain ⟨hnew, hvalues, hunsent⟩ := hbatch (batches _ _)
    exact ⟨hnew, hvalues.trans (flatten_batches le_rfl), hunsent⟩

lemma tasks_flatMap (wal : List WalRecord) :
    (wal.flatMap WalRecord.tasks).flatMap ReplayTask.newSeries = wal.flatMap WalRecord.newSeries ∧
      (wal.flatMap WalRecord.tasks).flatMap ReplayTask.values = wal.flatMap WalRecord.values ∧
      Unsent (wal.flatMap WalRecord.tasks) := by
  refine ⟨?_, ?_, ?_⟩
  · rw [flatMap_assoc]
    exact flatMap_congr fun rec _ => rec.tasks_spec.1
  · rw [flatMap_assoc]
    exact flatMap_congr fun rec _ => rec.tasks_spec.2.1
  · intro i items hmem
    obtain ⟨rec, -, hmem⟩ := mem_flatMap.1 hmem
    exact rec.tasks_spec.2.2 i items hmem

/-- A log in which every series has one record, and samples come after it, is loaded into a head
without series, and its callback refuses none. When everything is done, the head has the series of
the records, and each of them has those of its samples in the log that are later than all before. -/
theorem Head.loadWAL_restores (hempty : h.series = [])
    (hcreate : ∀ lset, h.opts.preCreation lset = none)
    (hfresh : ∀ ref, (h.mem ref).chunks = .new ref) (hn : 1 ≤ args.concurrency)
    (hmm : ∀ ref, args.mmappedChunks ref = []) {wal : List WalRecord}
    (hseq : InSequence h.minValidTime [] (wal.flatMap WalRecord.tasks))
    {schedule : List (Option ℕ)} (hfin : ((h.loadWAL wal).run args schedule).Finished args) :
    ((h.loadWAL wal).run args schedule).head.registered = wal.flatMap WalRecord.newSeries ∧
      ∀ ref ∈ ((h.loadWAL wal).run args schedule).head.series,
        (((h.loadWAL wal).run args schedule).head.mem ref).samples =
          later minInt64 (HeadAppender.samplesOf ref (wal.flatMap WalRecord.values)) := by
  obtain ⟨hnew, hvalues, hunsent⟩ := tasks_flatMap wal
  have hreg : h.registered = [] := by rw [registered, hempty, map_nil]
  have hsound : (h.loadWAL wal).Sound args := by
    refine ⟨fun _ => rfl, ?_, ?_, ?_, fun ref _ => ⟨hfresh ref, rfl⟩⟩
    · show InSequence h.minValidTime h.registered _
      rw [hreg]
      exact hseq
    · intro i items hmem
      exact absurd hmem (hunsent i items)
    · intro i item hitem
      cases hitem
  set r := (h.loadWAL wal).run args schedule with hr
  have hkeeps : WalReplay.Keeps args (h.loadWAL wal) r := hsound.run hcreate hn schedule
  obtain ⟨htodo, hinput⟩ := hfin
  have hall : r.head.registered = wal.flatMap WalRecord.newSeries := by
    have hregistered := hkeeps.registered
    rw [htodo, flatMap_nil, append_nil] at hregistered
    rw [hregistered, ← hnew]
    show h.registered ++ _ = _
    rw [hreg, nil_append]
    rfl
  refine ⟨hall, fun ref href => ?_⟩
  -- Nothing is left to do, so the series holds what it should.
  have houtcome := hkeeps.outcome h.opts.rules rfl ref
  have hdone : r.outcome args h.opts.rules ref = r.pool.mem ref := by
    rw [WalReplay.outcome, htodo]
    exact Jobs.settled_of_idle (hinput _ (Nat.mod_lt ref hn))
  have hstart : (h.loadWAL wal).outcome args h.opts.rules ref =
      (jobs args h.opts.rules).doAll ref
        ((wal.flatMap WalRecord.tasks).flatMap items) (.new ref, 0) := by
    rw [WalReplay.outcome, Jobs.settled_of_idle rfl, WalReplay.pool]
    dsimp only [loadWAL]
    rw [hfresh]
  have hmem : ref ∈ ((wal.flatMap WalRecord.tasks).flatMap newSeries).map (·.1) := by
    rw [hnew, ← hall, map_fst_registered]
    exact href
  obtain ⟨c, -, hdo, hsamples⟩ := doAll_new args h.opts.rules hmm hseq hunsent ref (by simp) hmem 0
  rw [hdone, hstart, hdo] at houtcome
  have hchunks : (r.head.mem ref).chunks = c := congrArg Prod.fst houtcome
  rw [HeadSeries.samples, hchunks, hsamples, hvalues]

end Restored

end Prometheus.Tsdb
