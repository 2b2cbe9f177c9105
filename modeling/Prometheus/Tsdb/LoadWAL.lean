import Prometheus.Lib.Workers
import Prometheus.Tsdb.LogOrder

/-!
# Loading the write-ahead log

`Head.loadWAL` of `tsdb/head_wal.go`. The main loop reads the records of the log. It creates the
series itself, and leaves the samples to workers, each of which has the series whose refs have a
certain remainder. Samples are sent in batches of at most 5000. When a series record is read, the
worker of the series is told to reset it to the chunks that are on disk for the ref in the record.
If there is a series with these labels already, the ref in the record stands for this series from
then on (`multiRef`).

The main loop and the workers run concurrently. A schedule says who takes the next step: the main
loop (`none`) or a worker. The steps of a worker are single samples, and those of the main loop
single series and single sends. When a series cannot be created, the main loop ends. Nothing is
assumed about the schedule but that it leaves nothing to do.

Records are taken as they are decoded. Tombstones, exemplars, the counters of unknown refs, and
out-of-order chunks on disk are left out.
-/

namespace Prometheus.Tsdb

open GoInt Record Workers List Function

/-! ### The model -/

/-- What the main loop sends to a worker, sample by sample. -/
inductive ReplayItem
  /-- A series record with the ref `walSeriesRef` was read for the series `ref`. -/
  | series (walSeriesRef ref : ℕ)
  | sample (x : RefValue SampleValue)
deriving DecidableEq

/-- What the main loop has to do. -/
inductive ReplayTask
  | series (ref : ℕ) (lset : List Label)
  | metadata (ref : ℕ) (m : Metadata)
  | batch (samples : List (RefValue SampleValue))
  | send (worker : ℕ) (items : List ReplayItem)
deriving DecidableEq

/-- The loop that splits up samples, with fuel. -/
def batches {α : Type} : ℕ → List α → List (List α)
  | 0, _ => []
  | fuel + 1, samples =>
    if samples = [] then [] else samples.take 5000 :: batches fuel (samples.drop 5000)

lemma flatten_batches {α : Type} {fuel : ℕ} {samples : List α} (h : samples.length ≤ fuel) :
    (batches fuel samples).flatten = samples := by
  induction fuel generalizing samples with
  | zero => rw [length_eq_zero_iff.1 (Nat.le_zero.1 h)]; rfl
  | succ fuel ih =>
    rw [batches]
    split
    case isTrue hnil => rw [hnil]; rfl
    case isFalse hne =>
      rw [flatten_cons, ih (by rw [length_drop]; omega), take_append_drop]

/-- What the main loop has to do for a record. -/
def WalRecord.tasks : WalRecord → List ReplayTask
  | series xs => xs.map fun (ref, lset) => .series ref lset
  | metadata xs => xs.map fun (ref, m) => .metadata ref m
  | rec => (batches rec.values.length rec.values).map .batch

/-- What `loadWAL` is called with. -/
structure LoadArgs where
  /-- `h.opts.WALReplayConcurrency` -/
  concurrency : ℕ
  /-- The chunks that are on disk for a ref. -/
  mmappedChunks : ℕ → List (MemChunk SampleValue)
  lastSegment : ℤ

/-- The state of `loadWAL`. -/
structure WalReplay where
  head : Head
  /-- `mmMaxTime` of the series at an address. -/
  mmMaxTime : ℕ → ℤ
  multiRef : ℕ → Option ℕ
  /-- `h.walExpiries` -/
  walExpiries : ℕ → Option ℤ
  /-- `mint` of a worker. -/
  mint : ℕ → ℤ
  /-- `maxt` of a worker. -/
  maxt : ℕ → ℤ
  todo : List ReplayTask
  /-- The input channel of a worker. -/
  input : ℕ → List ReplayItem
  seriesCreationErr : Option AppendError

variable (c : SeriesChunks SampleValue) (mmc : List (MemChunk SampleValue))

/-- A sample that is replayed to the chunks of a series. For a float, chunks that are complete are
written to disk. -/
def SeriesChunks.replay (t : ℤ) (v : SampleValue) (cuts : ℕ) : SeriesChunks SampleValue :=
  let c' := c.append t v cuts
  match v with
  | .float _ => if c.headChunks.length < c'.headChunks.length then c'.mmapChunks else c'
  | _ => c'

/-- The part of `resetSeriesWithMMappedChunks` about the chunks. -/
def SeriesChunks.reset : SeriesChunks SampleValue :=
  { c with
    disk := c.disk ++ mmc
    mmappedChunks := mmc.mapIdx fun i chk => ⟨c.disk.length + i, chk.minTime, chk.maxTime⟩
    ooo := none
    headChunks := [] }

/-- The time of the last chunk on disk. -/
def mmMaxTimeOf : ℤ :=
  (mmc.getLast?.map (·.maxTime)).getD minInt64

/-- `append`, `appendHistogram` and `appendFloatHistogram` as a worker calls them. -/
def HeadSeries.replay (s : HeadSeries) (rules : ChunkRules) (t : ℤ)
    (v : SampleValue) : HeadSeries :=
  { (s.append rules t v).2 with
    chunks := s.chunks.replay t v (rules.cuts s.chunks.ref t) }

namespace WalReplay

variable (args : LoadArgs) (r : WalReplay)

/-- The next step of the main loop. -/
def main : WalReplay :=
  match r.todo with
  | [] => r
  | .series walSeriesRef lset :: todo =>
    match r.head.getOrCreateWithID walSeriesRef lset false with
    | (.error err, h) => { r with head := h, todo := [], seriesCreationErr := some err }
    | (.ok (ref, created), h) =>
      { r with
        head := { h with lastSeriesID := max h.lastSeriesID walSeriesRef }
        mmMaxTime := if created then Function.update r.mmMaxTime ref 0 else r.mmMaxTime
        multiRef := if created then r.multiRef else
          Function.update r.multiRef walSeriesRef (some ref)
        -- Set the WAL expiry for the duplicate series, so it is kept in subsequent WAL checkpoints.
        walExpiries :=
          if created then r.walExpiries
          else Function.update r.walExpiries walSeriesRef (some args.lastSegment)
        todo := .send (ref % args.concurrency) [.series walSeriesRef ref] :: todo }
  | .metadata walRef m :: todo =>
    let ref := (r.multiRef walRef).getD walRef
    { r with
      head := if ref ∈ r.head.series then r.head.update ref fun s => { s with metadata := some m }
        else r.head
      todo := todo }
  | .batch samples :: todo =>
    -- Before minValidTime: discard.
    let samples := samples.filter fun x => r.head.minValidTime ≤ x.t
    let samples := samples.map fun x => { x with ref := (r.multiRef x.ref).getD x.ref }
    -- The empty shards are not sent, which makes no difference.
    let shard i := (samples.filter fun x => x.ref % args.concurrency = i).map .sample
    { r with todo := (List.range args.concurrency).map (fun i => .send i (shard i)) ++ todo }
  | .send i items :: todo =>
    { r with
      todo := todo
      input := Function.update r.input i (r.input i ++ items) }

/-- What `processWALSamples` does with the next item. -/
def process (i : ℕ) : ReplayItem → WalReplay
  | .series walSeriesRef ref =>
    let mmc := args.mmappedChunks walSeriesRef
    let h := r.head.update ref fun s => { s with chunks := s.chunks.reset mmc }
    { r with
      head := match mmc.head? with
        | none => h
        | some chk => h.updateMinMaxTime chk.minTime (mmMaxTimeOf mmc)
      mmMaxTime := Function.update r.mmMaxTime ref (mmMaxTimeOf mmc) }
  | .sample x =>
    if x.ref ∉ r.head.series then r
    -- Only histograms are checked here.
    else if x.v.kind ≠ 0 ∧ x.t < r.head.minValidTime then r
    else if x.t ≤ r.mmMaxTime x.ref then r
    else
      { r with
        head := r.head.update x.ref (·.replay r.head.opts.rules x.t x.v)
        mint := Function.update r.mint i (min (r.mint i) x.t)
        maxt := Function.update r.maxt i (max (r.maxt i) x.t) }

/-- The next step of a worker. -/
def work (i : ℕ) : WalReplay :=
  match r.input i with
  | [] => r
  | item :: items =>
    let r := { r with input := Function.update r.input i items }
    r.process args i item

/-- A step of the main loop, or of a worker. -/
def step : Option ℕ → WalReplay
  | none => r.main args
  | some i => r.work args i

/-- The steps in the order in which the scheduler takes them. -/
def run (schedule : List (Option ℕ)) : WalReplay :=
  schedule.foldl (step args) r

/-- Nothing is left to do. -/
def Finished : Prop :=
  r.todo = [] ∧ ∀ i < args.concurrency, r.input i = []

/-- The head when all workers have ended. It is not reached after an error of the main loop. -/
def closed : Head :=
  (List.range args.concurrency).foldl (fun h i => h.updateMinMaxTime (r.mint i) (r.maxt i)) r.head

end WalReplay

/-- `loadWAL` before its first step. -/
def Head.loadWAL (h : Head) (wal : List WalRecord) : WalReplay where
  head := h
  mmMaxTime := fun _ => 0
  multiRef := fun _ => none
  walExpiries := fun _ => none
  mint := fun _ => Head.maxInt64
  maxt := fun _ => minInt64
  todo := wal.flatMap WalRecord.tasks
  input := fun _ => []
  seriesCreationErr := none

/-! ### What a sample does to the chunks of a series -/

namespace SeriesChunks

/-- Chunks with which a series is well-formed. -/
def WF : Prop :=
  ∀ s : HeadSeries, s.chunks = c → s.WF

lemma wf_new (ref : ℕ) : (new ref : SeriesChunks SampleValue).WF := by
  intro s hs
  exact (HeadSeries.wf_new [] ref false).of_chunks hs

/-- A series that has the chunks, and nothing else. -/
def asSeries : HeadSeries :=
  { HeadSeries.new [] c.ref false with chunks := c }

lemma append_asSeries (rules : ChunkRules) (t : ℤ) (v : SampleValue) :
    (c.asSeries.append rules t v).2.chunks = c.append t v (rules.cuts c.ref t) := by
  rw [HeadSeries.append, append, asSeries]
  split
  next heq => rw [heq]
  next heq => rw [heq]

variable {c}

lemma append_spec (hc : c.WF) (t : ℤ) (v : SampleValue) (cuts : ℕ) :
    (c.append t v cuts).WF ∧
      (c.append t v cuts).samples = (if c.maxTime < t then c.samples ++ [(t, v)] else c.samples) ∧
      (c.append t v cuts).maxTime = max c.maxTime t := by
  have happend := c.append_asSeries ⟨fun _ _ => cuts, fun _ => []⟩ t v
  have hs : c.asSeries.WF := hc _ rfl
  by_cases hlt : c.maxTime < t
  · obtain ⟨-, hwf, hsamples, hmax, -⟩ := hs.append_of_lt ⟨fun _ _ => cuts, fun _ => []⟩ hlt v
    rw [if_pos hlt, max_eq_right hlt.le, ← happend]
    exact ⟨fun s h => hwf.of_chunks h, hsamples, hmax⟩
  have hle := not_lt.1 hlt
  obtain ⟨-, hwf, hsamples, hmax, -⟩ := hs.append_of_le ⟨fun _ _ => cuts, fun _ => []⟩ hle v
  rw [if_neg hlt, max_eq_left hle, ← happend]
  exact ⟨fun s h => hwf.of_chunks h, hsamples, hmax⟩

/-- Writing chunks to disk does not change what they hold. -/
lemma mmapChunks_spec (hc : c.WF) :
    c.mmapChunks.WF ∧ c.mmapChunks.samples = c.samples ∧ c.mmapChunks.maxTime = c.maxTime := by
  have hs : c.asSeries.WF := hc _ rfl
  cases hhead : c.headChunks with
  | nil =>
    have hsame : c.mmapChunks = c := by rw [mmapChunks, hhead]
    rw [hsame]
    exact ⟨hc, rfl, rfl⟩
  | cons chk chks =>
    obtain ⟨ms, hfold, hlt, hload⟩ := foldr_mmapChunk hs.onDisk chks
    have heq : c.mmapChunks =
        { c with disk := c.disk ++ chks.reverse, mmappedChunks := ms, headChunks := [chk] } := by
      rw [mmapChunks, hhead]
      dsimp only
      rw [show chks.foldr mmapChunk c = _ from hfold]
      rfl
    have hsamples : c.mmapChunks.samples = c.samples := by
      have hload : load (c.disk ++ chks.reverse) ms = load c.disk c.mmappedChunks ++ chks.reverse :=
        hload
      rw [samples_eq, samples_eq, heq, hhead]
      dsimp only
      rw [hload]
      simp
    have hmax : c.mmapChunks.maxTime = c.maxTime := by
      rw [heq, maxTime, maxTime, hhead]
    refine ⟨fun s h => ?_, hsamples, hmax⟩
    constructor
    · rw [h, heq]
      refine ⟨hlt, fun o ho m hm => ?_⟩
      rw [length_append]
      exact Nat.lt_add_right _ (hs.onDisk.ooo o ho m hm)
    · rw [HeadSeries.samples, h, hsamples]
      exact hs.sorted
    · rw [HeadSeries.samples, HeadSeries.maxTime, h, hsamples, hmax]
      exact hs.le_maxTime
    · rw [HeadSeries.maxTime, h, hmax]
      exact hs.minInt64_le

/-- A replayed sample is added if it is later than the last time of the series. -/
lemma replay_spec (hc : c.WF) (t : ℤ) (v : SampleValue) (cuts : ℕ) :
    (c.replay t v cuts).WF ∧
      (c.replay t v cuts).samples = (if c.maxTime < t then c.samples ++ [(t, v)] else c.samples) ∧
      (c.replay t v cuts).maxTime = max c.maxTime t := by
  have happend := append_spec hc t v cuts
  have hwrite := mmapChunks_spec happend.1
  have hcases : c.replay t v cuts = c.append t v cuts ∨
      c.replay t v cuts = (c.append t v cuts).mmapChunks := by
    cases v with
    | float v =>
      rw [replay]
      split
      · exact .inr rfl
      · exact .inl rfl
    | histogram h => exact .inl rfl
    | floatHistogram fh => exact .inl rfl
  rcases hcases with heq | heq
  · rw [heq]
    exact happend
  · rw [heq]
    exact ⟨hwrite.1, hwrite.2.1.trans happend.2.1, hwrite.2.2.trans happend.2.2⟩

end SeriesChunks

/-! ### Every schedule can be finished -/

namespace WalReplay

variable {args : LoadArgs} {r : WalReplay}

lemma run_append (r : WalReplay) (schedule schedule' : List (Option ℕ)) :
    r.run args (schedule ++ schedule') = (r.run args schedule).run args schedule' :=
  foldl_append

variable (args)

/-- How many steps of the main loop a task takes. -/
def mainSteps : ReplayTask → ℕ
  | .series _ _ => 2
  | .metadata _ _ => 1
  | .batch _ => args.concurrency + 1
  | .send _ _ => 1

lemma mainSteps_main {task : ReplayTask} {todo : List ReplayTask} (htodo : r.todo = task :: todo) :
    ((r.main args).todo.map (mainSteps args)).sum < (r.todo.map (mainSteps args)).sum := by
  rw [main, htodo]
  cases task with
  | series ref lset =>
    dsimp only
    split <;> simp [mainSteps]
  | metadata ref m => simp [mainSteps]
  | batch samples => simp [mainSteps, comp_def]
  | send i items => simp [mainSteps]

/-- The main loop gets to its end. -/
lemma exists_main_done (r : WalReplay) : ∃ schedule, (r.run args schedule).todo = [] := by
  induction hsteps : (r.todo.map (mainSteps args)).sum using Nat.strong_induction_on
    generalizing r with
  | _ steps ih =>
    cases htodo : r.todo with
    | nil => exact ⟨[], htodo⟩
    | cons task todo =>
      have hlt := mainSteps_main args htodo
      rw [hsteps] at hlt
      obtain ⟨schedule, hdone⟩ := ih _ hlt (r.main args) rfl
      exact ⟨none :: schedule, hdone⟩

lemma process_frame (r : WalReplay) (i : ℕ) (item : ReplayItem) :
    (r.process args i item).todo = r.todo ∧ (r.process args i item).input = r.input := by
  cases item with
  | series walSeriesRef ref => exact ⟨rfl, rfl⟩
  | sample x =>
    rw [process]
    split_ifs <;> exact ⟨rfl, rfl⟩

lemma work_frame (r : WalReplay) (i : ℕ) :
    (r.work args i).todo = r.todo ∧ (r.work args i).input = update r.input i (r.input i).tail := by
  cases hinput : r.input i with
  | nil =>
    have hwork : r.work args i = r := by rw [work, hinput]
    refine ⟨by rw [hwork], ?_⟩
    rw [hwork, tail_nil, ← hinput, update_eq_self]
  | cons item items =>
    rw [work, hinput]
    exact process_frame args _ i item

/-- A worker that runs alone empties its queue. -/
lemma exists_worker_done (r : WalReplay) (i : ℕ) : ∃ schedule, (r.run args schedule).todo = r.todo ∧
      (r.run args schedule).input = update r.input i [] := by
  induction hlen : (r.input i).length generalizing r with
  | zero =>
    refine ⟨[], rfl, ?_⟩
    rw [← length_eq_zero_iff.1 hlen, update_eq_self]
    rfl
  | succ len ih =>
    obtain ⟨htodo, hinput⟩ := work_frame args r i
    obtain ⟨schedule, htodo', hinput'⟩ := ih (r.work args i) (by simp [hinput, hlen])
    refine ⟨some i :: schedule, htodo'.trans htodo, hinput'.trans ?_⟩
    rw [hinput, update_idem]

/-- Whatever has happened, everything can be done. -/
lemma exists_finished (r : WalReplay) : ∃ schedule, (r.run args schedule).Finished args := by
  obtain ⟨first, hfirst⟩ := exists_main_done args r
  -- Then the workers, one after the other.
  have hworkers : ∀ n, ∃ schedule, ((r.run args first).run args schedule).todo = [] ∧
      ∀ i < n, ((r.run args first).run args schedule).input i = [] := by
    intro n
    induction n with
    | zero => exact ⟨[], hfirst, fun i hi => absurd hi (Nat.not_lt_zero i)⟩
    | succ n ih =>
      obtain ⟨schedule, htodo, hinput⟩ := ih
      obtain ⟨next, htodo', hinput'⟩ :=
        exists_worker_done args ((r.run args first).run args schedule) n
      refine ⟨schedule ++ next, by rw [run_append, htodo', htodo], fun i hi => ?_⟩
      rw [run_append, hinput']
      by_cases hin : i = n
      · rw [hin, update_self]
      · rw [update_of_ne hin]
        exact hinput i (by omega)
  obtain ⟨schedule, hdone⟩ := hworkers args.concurrency
  refine ⟨first ++ schedule, ?_⟩
  rw [run_append]
  exact hdone

end WalReplay

end Prometheus.Tsdb
