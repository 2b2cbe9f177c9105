import Prometheus.Lib.Sort
import Prometheus.Tsdb.Block

/-!
# Reloading blocks

`DB.reloadBlocks` of `tsdb/db.go`, with the default retention function: after a compaction or a
restart, the blocks on disk are loaded, and those that are obsolete are deleted. A block is obsolete
if it is beyond retention, flagged, or a parent of a block that is there (`Obsolete`).

The directories in the data directory are a list of `BlockDir`s. Reading the metadata may fail, and
so may opening the block. No other operation on files fails. The two failures are not treated alike:
a block that does not open is corrupted, and stops the reload unless a block that is there replaces
it (`FailsToOpen`). A block with metadata that cannot be read is skipped, and the reload goes on as
if it was not there.

The first loop of `reloadBlocks` only adds to the map `deletable` and takes from the map
`corrupted`, so that the order of the blocks does not matter for either (`foldl_markBlock`). What is
in them after it decides about all that follows: `reloadBlocks_of_corrupted` and
`reloadBlocks_of_marked`.
-/

namespace Prometheus.Tsdb

open GoInt List

/-- An open block. -/
structure Block where
  blockMeta : BlockMeta
  size : ℤ
deriving DecidableEq

def Block.ulid (b : Block) : ULID := b.blockMeta.ulid

/-- The directory of a block, which is named after it: what `readMetaFile` and `OpenBlock` return.
-/
structure BlockDir where
  ulid : ULID
  blockMeta : Option BlockMeta
  opened : Option Block
  ulid_blockMeta : ∀ m ∈ blockMeta, m.ulid = ulid
  blockMeta_opened : ∀ b ∈ opened, ∀ m ∈ blockMeta, b.blockMeta = m

/-- The directories of blocks: no two have the same name. -/
structure Disk where
  dirs : List BlockDir
  nodup : (dirs.map BlockDir.ulid).Nodup

/-- Remove the directories with names in `p`. -/
def Disk.remove (disk : Disk) (p : ULID → Bool) : Disk where
  dirs := disk.dirs.filter fun d => !p d.ulid
  nodup := disk.nodup.sublist (List.filter_sublist.map _)

/-- `closed` are the blocks that have been closed. -/
structure DB where
  blocks : List Block
  disk : Disk
  retentionDuration : ℤ
  maxBytes : ℤ
  headSize : ℤ
  closed : List Block

/-! ### Opening -/

def getBlock (allBlocks : List Block) (id : ULID) : Option Block :=
  allBlocks.find? fun b => b.ulid = id

/-- The loop of `openBlocks`: the blocks, and the ULIDs of those that are corrupted. -/
def openLoop (loaded : List Block) :
    List BlockDir → List Block → List ULID → List Block × List ULID
  | [], blocks, corrupted => (blocks, corrupted)
  | d :: ds, blocks, corrupted =>
    match d.blockMeta with
    -- Failed to read meta.json. Skipping.
    | none => openLoop loaded ds blocks corrupted
    | some m =>
      -- See if we already have the block in memory or open it otherwise.
      match (getBlock loaded m.ulid).orElse fun _ => d.opened with
      | some b => openLoop loaded ds (blocks ++ [b]) corrupted
      | none => openLoop loaded ds blocks (corrupted ++ [m.ulid])

variable (db : DB)

def openBlocks : List Block × List ULID :=
  openLoop db.blocks db.disk.dirs [] []

/-! ### Retention -/

/-- The loop of `BeyondTimeRetention` after the first block. -/
def timeLoop (retentionDuration newest : ℤ) : List Block → List ULID
  | [] => []
  | b :: bs =>
    if wrap (newest - b.blockMeta.maxTime) ≥ retentionDuration then (b :: bs).map Block.ulid
    else timeLoop retentionDuration newest bs

def beyondTimeRetention : List Block → List ULID
  | [] => []
  | b :: bs =>
    if db.retentionDuration = 0 then []
    else timeLoop db.retentionDuration b.blockMeta.maxTime bs

/-- The loop of `BeyondSizeRetention`. -/
def sizeLoop (maxBytes : ℤ) : ℤ → List Block → List ULID
  | _, [] => []
  | blocksSize, b :: bs =>
    let blocksSize := wrap (blocksSize + b.size)
    if blocksSize > maxBytes then (b :: bs).map Block.ulid else sizeLoop maxBytes blocksSize bs

variable (blocks : List Block)

def beyondSizeRetention : List ULID :=
  if db.maxBytes ≤ 0 then [] else sizeLoop db.maxBytes db.headSize blocks

/-- `deletableBlocks`, of blocks sorted from the newest to the oldest. -/
def deletableBlocks : List ULID :=
  (blocks.filter fun b => b.blockMeta.deletable).map Block.ulid ++ beyondTimeRetention db blocks ++
    beyondSizeRetention db blocks

/-! ### Reloading -/

/-- The map `deletable`: a block that has to be closed, or nil. -/
abbrev Deletable := AList fun _ : ULID => Option Block

/-- Mark a parent of a loaded block as deletable, no matter if it exists. -/
def markParent (st : Deletable × List ULID) (parent : ULID) : Deletable × List ULID :=
  (st.1.insert parent none, st.2.filter (· ≠ parent))

/-- A turn of the first loop of `reloadBlocks`, on `deletable` and `corrupted`. -/
def markBlock (deletableULIDs : List ULID) (st : Deletable × List ULID) (block : Block) :
    Deletable × List ULID :=
  let deletable :=
    if block.ulid ∈ deletableULIDs then st.1.insert block.ulid (some block) else st.1
  block.blockMeta.parents.foldl markParent (deletable, st.2)

/-- A turn of the second loop, on `toLoad` and `deletable`. -/
def unloadBlock (st : List Block × Deletable) (block : Block) : List Block × Deletable :=
  if block.ulid ∈ st.2 then (st.1, st.2.insert block.ulid (some block))
  else (st.1 ++ [block], st.2)

variable (deletable : Deletable)

/-- A turn of the loop over the old blocks. -/
def closeOld (b : Block) : Deletable :=
  if b.ulid ∈ deletable then deletable.insert b.ulid (some b) else deletable

/-- `deleteBlocks`: close those that are open, and remove those that exist. -/
def deleteBlocks : DB :=
  { db with
    closed := db.closed ++ deletable.entries.filterMap Sigma.snd
    disk := db.disk.remove (· ∈ deletable) }

/-- `reloadBlocks`. `sortMaxTime` is the sort in `deletableBlocks`, which is in place, and
`sortMinTime` the one of the blocks to load. An error lists the corrupted blocks. -/
def reloadBlocks (sortMaxTime sortMinTime : List Block → List Block) (db : DB) :
    Except (List ULID) Unit × DB :=
  let (loadable, corrupted) := openBlocks db
  let loadable := sortMaxTime loadable
  let deletableULIDs := deletableBlocks db loadable
  let (deletable, corrupted) := loadable.foldl (markBlock deletableULIDs) (∅, corrupted)
  if corrupted ≠ [] then
    -- Corrupted but no child loaded for it. Close all new blocks.
    (.error corrupted, { db with
      closed := db.closed ++ loadable.filter fun b => (getBlock db.blocks b.ulid).isNone })
  else
    let (toLoad, deletable) := loadable.foldl unloadBlock ([], deletable)
    let oldBlocks := db.blocks
    let db := { db with blocks := sortMinTime toLoad }
    (.ok (), deleteBlocks db (oldBlocks.foldl closeOld deletable))

/-! ### The blocks that are there -/

/-- The block in a directory: the loaded one, or the one that opens. -/
def blockAt (d : BlockDir) : Option Block :=
  d.blockMeta.bind fun m => (getBlock db.blocks m.ulid).orElse fun _ => d.opened

/-- The blocks that are present. -/
def present : List Block :=
  db.disk.dirs.filterMap (blockAt db)

/-- A block that is not loaded and that does not open, although its metadata can be read. -/
def FailsToOpen (d : BlockDir) : Prop :=
  d.blockMeta.isSome ∧ blockAt db d = none

variable {b : Block} {db : DB} {bs : List Block} {u : ULID}

lemma ulid_of_getBlock (h : getBlock bs u = some b) : b.ulid = u := by
  simpa using find?_some h

lemma ulid_of_blockAt {d : BlockDir} (h : blockAt db d = some b) : b.ulid = d.ulid := by
  obtain ⟨m, hm, hb⟩ := Option.bind_eq_some_iff.1 h
  rw [← d.ulid_blockMeta m hm]
  cases hg : getBlock db.blocks m.ulid with
  | some b' =>
    rw [hg] at hb
    cases hb
    exact ulid_of_getBlock hg
  | none =>
    rw [hg] at hb
    exact congrArg BlockMeta.ulid (d.blockMeta_opened b hb m hm)

lemma nodup_present (db : DB) : ((present db).map Block.ulid).Nodup := by
  refine db.disk.nodup.sublist ?_
  unfold present
  induction db.disk.dirs with
  | nil => exact List.Sublist.refl _
  | cons d ds ih =>
    cases h : blockAt db d with
    | none => simpa [filterMap_cons, h] using ih.cons _
    | some b => simpa [filterMap_cons, h, ulid_of_blockAt h] using ih

lemma eq_of_mem_present {b c : Block} (hb : b ∈ present db) (hc : c ∈ present db)
    (h : b.ulid = c.ulid) : b = c :=
  inj_on_of_nodup_map (nodup_present db) hb hc h

/-- Where there is no block in a directory, there is none of its name. -/
lemma ulid_ne_of_blockAt_eq_none {d : BlockDir} (hd : d ∈ db.disk.dirs) (h : blockAt db d = none)
    (hb : b ∈ present db) : b.ulid ≠ d.ulid := by
  intro hu
  obtain ⟨d', hd', hb'⟩ := mem_filterMap.1 hb
  have : d' = d := inj_on_of_nodup_map db.disk.nodup hd' hd ((ulid_of_blockAt hb').symm.trans hu)
  simp [← this, hb'] at h

variable (db)

lemma openLoop_eq (ds : List BlockDir) (bs : List Block) (us : List ULID) :
    (openLoop db.blocks ds bs us).1 = bs ++ ds.filterMap (blockAt db) ∧
      ∀ u, u ∈ (openLoop db.blocks ds bs us).2 ↔
        u ∈ us ∨ ∃ d ∈ ds, FailsToOpen db d ∧ d.ulid = u := by
  induction ds generalizing bs us with
  | nil => simp [openLoop]
  | cons d ds ih =>
    cases hm : d.blockMeta with
    | none =>
      have hb : blockAt db d = none := by simp [blockAt, hm]
      simpa [openLoop, hm, hb, FailsToOpen] using ih bs us
    | some m =>
      have hu := d.ulid_blockMeta m hm
      have hb : blockAt db d = (getBlock db.blocks m.ulid).orElse fun _ => d.opened := by
        simp [blockAt, hm]
      simp only [openLoop, hm]
      rw [← hb]
      cases ho : blockAt db d with
      | some b => simpa [ho, FailsToOpen] using ih (bs ++ [b]) us
      | none =>
        obtain ⟨h₁, h₂⟩ := ih bs (us ++ [m.ulid])
        have hfail : FailsToOpen db d := ⟨by simp [hm], ho⟩
        refine ⟨by simpa [ho] using h₁, fun u => ?_⟩
        rw [h₂, exists_mem_cons_iff, hu, mem_append, mem_singleton, or_assoc]
        simp only [hfail, true_and, eq_comm]

lemma openBlocks_fst : (openBlocks db).1 = present db := by
  simpa [openBlocks, present] using (openLoop_eq db db.disk.dirs [] []).1

lemma mem_openBlocks_snd (u : ULID) :
    u ∈ (openBlocks db).2 ↔ ∃ d ∈ db.disk.dirs, FailsToOpen db d ∧ d.ulid = u := by
  simpa [openBlocks] using (openLoop_eq db db.disk.dirs [] []).2 u

/-! ### The blocks that are obsolete -/

/-- The elements of `bs` from the first one on that has, with those before it, the property `P`. -/
def FromFirst (P : List Block → Block → Prop) (bs : List Block) (b : Block) : Prop :=
  ∃ pre x post, bs = pre ++ x :: post ∧ P pre x ∧ b ∈ x :: post

variable {P : List Block → Block → Prop}

lemma FromFirst.mem (h : FromFirst P bs b) : b ∈ bs := by
  obtain ⟨pre, x, post, rfl, -, hb⟩ := h
  exact mem_append_right _ hb

lemma fromFirst_nil : ¬ FromFirst P [] b :=
  fun h => not_mem_nil h.mem

lemma fromFirst_cons {c : Block} :
    FromFirst P (c :: bs) b ↔ P [] c ∧ b ∈ c :: bs ∨ FromFirst (fun pre => P (c :: pre)) bs b := by
  constructor
  · rintro ⟨pre, x, post, he, hx, hb⟩
    cases pre with
    | nil =>
      obtain ⟨rfl, rfl⟩ := cons.inj he
      exact .inl ⟨hx, hb⟩
    | cons p pre =>
      obtain ⟨rfl, rfl⟩ := cons.inj he
      exact .inr ⟨pre, x, post, rfl, hx, hb⟩
  · rintro (⟨hc, hb⟩ | ⟨pre, x, post, rfl, hx, hb⟩)
    · exact ⟨[], c, bs, rfl, hc, hb⟩
    · exact ⟨c :: pre, x, post, rfl, hx, hb⟩

/-- One turn of a loop that stops at the first block with `P` and takes the rest of the blocks. -/
lemma fromFirst_cons_ite {c : Block} {bs : List Block}
    [Decidable (P [] c)] {rest : List ULID} {u : ULID}
    (hrest : u ∈ rest ↔ ∃ b, FromFirst (fun pre => P (c :: pre)) bs b ∧ b.ulid = u) :
    (u ∈ if P [] c then (c :: bs).map Block.ulid else rest) ↔
      ∃ b, FromFirst P (c :: bs) b ∧ b.ulid = u := by
  split_ifs with h
  · -- every block from here on is taken, whichever block shows it
    have hiff (b) : FromFirst P (c :: bs) b ↔ b ∈ c :: bs :=
      ⟨FromFirst.mem, fun hb => fromFirst_cons.2 (.inl ⟨h, hb⟩)⟩
    simp only [mem_map, hiff]
  · simp only [hrest, fromFirst_cons, h, false_and, false_or]

/-- The size of the head and of the blocks. -/
def totalSize (headSize : ℤ) (bs : List Block) : ℤ :=
  bs.foldl (fun size b => wrap (size + b.size)) headSize

/-- The blocks, from the newest one on that is at least the retention duration older than the newest
one of all. -/
def BeyondTime (newestFirst : List Block) (b : Block) : Prop :=
  db.retentionDuration ≠ 0 ∧ ∃ newest older, newestFirst = newest :: older ∧
    FromFirst (fun _ x => wrap (newest.blockMeta.maxTime - x.blockMeta.maxTime) ≥
      db.retentionDuration) older b

/-- The blocks, from the newest one on that is, with the head and the newer blocks, larger than the
maximal size. -/
def BeyondSize (newestFirst : List Block) (b : Block) : Prop :=
  0 < db.maxBytes ∧
    FromFirst (fun newer x => totalSize db.headSize (newer ++ [x]) > db.maxBytes) newestFirst b

/-- A block that is beyond retention, flagged, or replaced by a block that is there. -/
def Obsolete (newestFirst : List Block) (b : Block) : Prop :=
  BeyondTime db newestFirst b ∨ BeyondSize db newestFirst b ∨ b.blockMeta.deletable ∨
    ∃ c ∈ newestFirst, b.ulid ∈ c.blockMeta.parents

variable {db}

lemma mem_timeLoop {r n : ℤ} : u ∈ timeLoop r n bs ↔
      ∃ b, FromFirst (fun _ x => wrap (n - x.blockMeta.maxTime) ≥ r) bs b ∧ b.ulid = u := by
  induction bs with
  | nil => simp [timeLoop, fromFirst_nil]
  | cons c bs ih =>
    exact @fromFirst_cons_ite (fun _ x => wrap (n - x.blockMeta.maxTime) ≥ r) c bs
      (inferInstanceAs (Decidable (_ ≥ r))) _ u ih

lemma mem_sizeLoop {m size : ℤ} : u ∈ sizeLoop m size bs ↔
      ∃ b, FromFirst (fun newer x => totalSize size (newer ++ [x]) > m) bs b ∧ b.ulid = u := by
  induction bs generalizing size with
  | nil => simp [sizeLoop, fromFirst_nil]
  | cons c bs ih =>
    exact @fromFirst_cons_ite (fun newer x => totalSize size (newer ++ [x]) > m) c bs
      (inferInstanceAs (Decidable (_ > m))) _ u ih

lemma mem_beyondTimeRetention :
    u ∈ beyondTimeRetention db bs ↔ ∃ b, BeyondTime db bs b ∧ b.ulid = u := by
  cases bs with
  | nil => simp [beyondTimeRetention, BeyondTime]
  | cons n bs =>
    unfold beyondTimeRetention
    split_ifs with h
    · simp [BeyondTime, h]
    · simp [BeyondTime, h, mem_timeLoop]

lemma mem_beyondSizeRetention :
    u ∈ beyondSizeRetention db bs ↔ ∃ b, BeyondSize db bs b ∧ b.ulid = u := by
  unfold beyondSizeRetention
  split_ifs with h
  · simp [BeyondSize, not_lt.2 h]
  · simp [BeyondSize, not_le.1 h, mem_sizeLoop]

lemma BeyondTime.mem (h : BeyondTime db bs b) : b ∈ bs := by
  obtain ⟨-, n, older, rfl, hb⟩ := h
  exact mem_cons_of_mem _ hb.mem

/-- Where ULIDs are distinct, the ULIDs that `deletableBlocks` returns are those of the blocks
beyond retention and of the flagged ones. -/
lemma mem_deletableBlocks (hbs : (bs.map Block.ulid).Nodup) (hb : b ∈ bs) :
    b.ulid ∈ deletableBlocks db bs ↔
      BeyondTime db bs b ∨ BeyondSize db bs b ∨ b.blockMeta.deletable := by
  have key (P : Block → Prop) (hP : ∀ c, P c → c ∈ bs) : (∃ c, P c ∧ c.ulid = b.ulid) ↔ P b :=
    ⟨fun ⟨c, hc, he⟩ => inj_on_of_nodup_map hbs (hP c hc) hb he ▸ hc, fun h => ⟨b, h, rfl⟩⟩
  rw [deletableBlocks, mem_append, mem_append, mem_beyondTimeRetention,
    mem_beyondSizeRetention, key _ fun _ => BeyondTime.mem, key _ fun _ h => h.2.mem, mem_map,
    key _ fun _ h => mem_of_mem_filter h]
  simp only [mem_filter, hb, true_and]
  tauto

/-! ### The maps of the loops -/

lemma foldl_markParent (ps : List ULID) (st : Deletable × List ULID) (u : ULID) :
    (u ∈ (ps.foldl markParent st).1 ↔ u ∈ st.1 ∨ u ∈ ps) ∧
      (u ∈ (ps.foldl markParent st).2 ↔ u ∈ st.2 ∧ u ∉ ps) := by
  induction ps generalizing st with
  | nil => simp
  | cons p ps ih =>
    obtain ⟨h₁, h₂⟩ := ih (markParent st p)
    rw [foldl_cons, h₁, h₂]
    simp only [markParent, AList.mem_insert, mem_filter, decide_eq_true_eq, mem_cons]
    tauto

/-- After the first loop, `deletable` has the deletable blocks and the parents, and the parents are
not `corrupted`. -/
lemma foldl_markBlock (us : List ULID) (bs : List Block) (st : Deletable × List ULID) (u : ULID) :
    (u ∈ (bs.foldl (markBlock us) st).1 ↔
      u ∈ st.1 ∨ (∃ b ∈ bs, b.ulid = u ∧ u ∈ us) ∨ ∃ b ∈ bs, u ∈ b.blockMeta.parents) ∧
      (u ∈ (bs.foldl (markBlock us) st).2 ↔ u ∈ st.2 ∧ ∀ b ∈ bs, u ∉ b.blockMeta.parents) := by
  induction bs generalizing st with
  | nil => simp
  | cons b bs ih =>
    obtain ⟨h₁, h₂⟩ := ih (markBlock us st b)
    obtain ⟨h₃, h₄⟩ := foldl_markParent b.blockMeta.parents
      (if b.ulid ∈ us then st.1.insert b.ulid (some b) else st.1, st.2) u
    have hmark : u ∈ (if b.ulid ∈ us then st.1.insert b.ulid (some b) else st.1) ↔
        u ∈ st.1 ∨ b.ulid = u ∧ u ∈ us := by
      split_ifs with h
      · rw [AList.mem_insert]
        constructor
        · rintro (rfl | hu)
          · exact .inr ⟨rfl, h⟩
          · exact .inl hu
        · rintro (hu | ⟨rfl, -⟩)
          · exact .inr hu
          · exact .inl rfl
      · refine ⟨.inl, ?_⟩
        rintro (hu | ⟨rfl, hu⟩)
        · exact hu
        · exact absurd hu h
    rw [foldl_cons, h₁, h₂, markBlock, h₃, h₄, hmark]
    simp only [exists_mem_cons_iff, forall_mem_cons]
    exact ⟨by simp only [or_assoc, or_left_comm], and_assoc⟩

/-- The second loop loads the blocks that are not in `deletable`, and keeps its keys. -/
lemma foldl_unloadBlock (bs : List Block) (st : List Block × Deletable) :
    (bs.foldl unloadBlock st).1 = st.1 ++ bs.filter (fun b => b.ulid ∉ st.2) ∧
      ∀ u, u ∈ (bs.foldl unloadBlock st).2 ↔ u ∈ st.2 := by
  induction bs generalizing st with
  | nil => simp
  | cons b bs ih =>
    obtain ⟨h₁, h₂⟩ := ih (unloadBlock st b)
    have hkeys (u) : u ∈ (unloadBlock st b).2 ↔ u ∈ st.2 := by
      unfold unloadBlock
      split_ifs with h
      · rw [AList.mem_insert]
        exact ⟨fun hu => hu.elim (fun e => e ▸ h) id, .inr⟩
      · rfl
    refine ⟨?_, fun u => by rw [foldl_cons, h₂, hkeys]⟩
    rw [foldl_cons, h₁]
    simp only [hkeys]
    unfold unloadBlock
    split_ifs with h <;> simp [h]

lemma mem_foldl_closeOld (bs : List Block) (deletable : Deletable) (u : ULID) :
    u ∈ bs.foldl closeOld deletable ↔ u ∈ deletable := by
  induction bs generalizing deletable with
  | nil => rfl
  | cons b bs ih =>
    rw [foldl_cons, ih, closeOld]
    split_ifs with h
    · rw [AList.mem_insert]
      exact ⟨fun hu => hu.elim (fun e => e ▸ h) id, .inr⟩
    · rfl

/-- What a reload deletes: obsolete blocks. -/
lemma mem_deletable_of_blockAt (hbs : bs.Perm (present db))
    (us : List ULID) {d : BlockDir} (hd : d ∈ db.disk.dirs) (hb : blockAt db d = some b) :
    d.ulid ∈ (bs.foldl (markBlock (deletableBlocks db bs)) (∅, us)).1 ↔ Obsolete db bs b := by
  have hbmem : b ∈ bs := hbs.mem_iff.2 (mem_filterMap.2 ⟨d, hd, hb⟩)
  have hnodup : (bs.map Block.ulid).Nodup := (hbs.map _).nodup_iff.2 (nodup_present db)
  have hself : (∃ c ∈ bs, c.ulid = b.ulid ∧ b.ulid ∈ deletableBlocks db bs) ↔
      b.ulid ∈ deletableBlocks db bs :=
    ⟨fun ⟨_, _, _, h⟩ => h, fun h => ⟨b, hbmem, rfl, h⟩⟩
  rw [← ulid_of_blockAt hb, (foldl_markBlock _ bs _ _).1, hself, mem_deletableBlocks hnodup hbmem,
    Obsolete]
  simp only [AList.notMem_empty, false_or, or_assoc]

/-- What else it deletes: directories of parents that are no blocks. -/
lemma mem_deletable_of_blockAt_eq_none (hbs : bs.Perm (present db)) (us : List ULID) {d : BlockDir}
    (hd : d ∈ db.disk.dirs) (hb : blockAt db d = none) :
    d.ulid ∈ (bs.foldl (markBlock (deletableBlocks db bs)) (∅, us)).1 ↔
      ∃ b ∈ present db, d.ulid ∈ b.blockMeta.parents := by
  have hother : ¬∃ b ∈ present db, b.ulid = d.ulid ∧ d.ulid ∈ deletableBlocks db bs :=
    fun ⟨b, hbmem, hu, _⟩ => ulid_ne_of_blockAt_eq_none hd hb hbmem hu
  rw [(foldl_markBlock _ bs _ _).1]
  simp only [AList.notMem_empty, hbs.mem_iff, hother, false_or]

/-! ### What a reload does -/

section Reload

variable {sortMaxTime sortMinTime : List Block → List Block}

variable (sortMaxTime)

/-- The maps `deletable` and `corrupted` after the first loop. -/
def marked (db : DB) : Deletable × List ULID :=
  let loadable := sortMaxTime (present db)
  loadable.foldl (markBlock (deletableBlocks db loadable)) (∅, (openBlocks db).2)

/-- The blocks to load, in the order of the second loop. -/
def toLoad (db : DB) : List Block :=
  (sortMaxTime (present db)).filter fun b => b.ulid ∉ (marked sortMaxTime db).1

variable {sortMaxTime}

/-- With a corrupted block that is not replaced, nothing but the blocks just opened is touched. -/
lemma reloadBlocks_of_corrupted {db : DB} (h : (marked sortMaxTime db).2 ≠ []) :
    (reloadBlocks sortMaxTime sortMinTime db).1 = .error (marked sortMaxTime db).2 ∧
      (reloadBlocks sortMaxTime sortMinTime db).2.blocks = db.blocks ∧
      (reloadBlocks sortMaxTime sortMinTime db).2.disk = db.disk := by
  unfold marked at h
  simp [reloadBlocks, openBlocks_fst, h, marked]

/-- Without, the blocks are loaded, and the others deleted. -/
lemma reloadBlocks_of_marked {db : DB} (h : (marked sortMaxTime db).2 = []) :
    (reloadBlocks sortMaxTime sortMinTime db).1 = .ok () ∧
      (reloadBlocks sortMaxTime sortMinTime db).2.blocks = sortMinTime (toLoad sortMaxTime db) ∧
      (reloadBlocks sortMaxTime sortMinTime db).2.disk.dirs =
        db.disk.dirs.filter fun d => d.ulid ∉ (marked sortMaxTime db).1 := by
  unfold marked at h
  simp only [reloadBlocks, openBlocks_fst, h, ne_eq, not_true_eq_false, if_false, deleteBlocks,
    Disk.remove, mem_foldl_closeOld, (foldl_unloadBlock _ _).1, (foldl_unloadBlock _ _).2, toLoad,
    marked, nil_append, true_and]
  exact ⟨rfl, filter_congr fun d _ => decide_not.symm⟩

/-- **Blocks are loaded if they are not obsolete and deleted if they are**, unless there is one that
does not open and that nothing replaces: it stops the reload. A directory with metadata that cannot
be read stays, unless it is the one of a parent. -/
theorem reloadBlocks_spec
    (hmax : SortsBy (fun a b => b.blockMeta.maxTime ≤ a.blockMeta.maxTime) sortMaxTime)
    (hmin : SortsBy (fun a b => a.blockMeta.minTime ≤ b.blockMeta.minTime) sortMinTime) (db : DB) :
    let newestFirst := sortMaxTime (present db)
    let result := reloadBlocks sortMaxTime sortMinTime db
    ((∀ d ∈ db.disk.dirs, FailsToOpen db d → ∃ b ∈ present db, d.ulid ∈ b.blockMeta.parents) →
      result.1 = .ok () ∧
      (result.2.blocks.map Block.ulid).Nodup ∧
      result.2.blocks.Pairwise (fun a b => a.blockMeta.minTime ≤ b.blockMeta.minTime) ∧
      (∀ b, b ∈ result.2.blocks ↔ b ∈ present db ∧ ¬ Obsolete db newestFirst b) ∧
      ∀ d, d ∈ result.2.disk.dirs ↔ d ∈ db.disk.dirs ∧ ((∃ b ∈ result.2.blocks, b.ulid = d.ulid) ∨
        blockAt db d = none ∧ ∀ b ∈ present db, d.ulid ∉ b.blockMeta.parents)) ∧
    ∀ d ∈ db.disk.dirs, FailsToOpen db d → (∀ b ∈ present db, d.ulid ∉ b.blockMeta.parents) →
      (∃ corrupted, result.1 = .error corrupted ∧ d.ulid ∈ corrupted) ∧
      result.2.blocks = db.blocks ∧ result.2.disk = db.disk := by
  intro newestFirst result
  have hperm : (sortMaxTime (present db)).Perm (present db) := hmax.perm _
  have hcorrupted (u) : u ∈ (marked sortMaxTime db).2 ↔
      (∃ d ∈ db.disk.dirs, FailsToOpen db d ∧ d.ulid = u) ∧
        ∀ b ∈ present db, u ∉ b.blockMeta.parents := by
    rw [marked, (foldl_markBlock _ _ _ u).2, mem_openBlocks_snd]
    simp only [hperm.mem_iff]
  refine ⟨fun hreplaced => ?_, fun d hd hfails hparents => ?_⟩
  · have hmarked : (marked sortMaxTime db).2 = [] := by
      refine eq_nil_iff_forall_not_mem.2 fun u hu => ?_
      obtain ⟨⟨d, hd, hfails, rfl⟩, hparents⟩ := (hcorrupted u).1 hu
      obtain ⟨b, hb, hparent⟩ := hreplaced d hd hfails
      exact hparents b hb hparent
    obtain ⟨hok, hblocks, hdirs⟩ := @reloadBlocks_of_marked _ sortMinTime _ hmarked
    have hload := hmin.perm (toLoad sortMaxTime db)
    -- a block goes with its directory
    have hobsolete {d b} (hd : d ∈ db.disk.dirs) (hb : blockAt db d = some b) :
        d.ulid ∈ (marked sortMaxTime db).1 ↔ Obsolete db newestFirst b :=
      mem_deletable_of_blockAt hperm _ hd hb
    have hmem (b) : b ∈ result.2.blocks ↔ b ∈ present db ∧ ¬ Obsolete db newestFirst b := by
      rw [hblocks, hload.mem_iff, toLoad, mem_filter, hperm.mem_iff, decide_eq_true_eq]
      refine and_congr_right fun hb => not_congr ?_
      obtain ⟨d, hd, hdb⟩ := mem_filterMap.1 hb
      rw [ulid_of_blockAt hdb, hobsolete hd hdb]
    refine ⟨hok, ?_, ?_, hmem, fun d => ?_⟩
    · rw [hblocks, (hload.map _).nodup_iff]
      exact (((hperm.map _).nodup_iff).2 (nodup_present db)).sublist (filter_sublist.map _)
    · rw [hblocks]
      exact hmin.pairwise _
    rw [hdirs, mem_filter, decide_eq_true_eq]
    refine and_congr_right fun hd => ?_
    cases hb : blockAt db d with
    | none =>
      have hnone : ¬∃ b ∈ result.2.blocks, b.ulid = d.ulid := fun ⟨b, hbmem, hu⟩ =>
        ulid_ne_of_blockAt_eq_none hd hb ((hmem b).1 hbmem).1 hu
      simp [hnone, marked, mem_deletable_of_blockAt_eq_none hperm _ hd hb]
    | some b =>
      have hpresent : b ∈ present db := mem_filterMap.2 ⟨d, hd, hb⟩
      simp only [hobsolete hd hb, reduceCtorEq, false_and, or_false]
      constructor
      · exact fun h => ⟨b, (hmem b).2 ⟨hpresent, h⟩, ulid_of_blockAt hb⟩
      · rintro ⟨c, hc, hcd⟩
        obtain ⟨hcp, hcn⟩ := (hmem c).1 hc
        rwa [eq_of_mem_present hpresent hcp ((ulid_of_blockAt hb).trans hcd.symm)]
  · have hu : d.ulid ∈ (marked sortMaxTime db).2 :=
      (hcorrupted _).2 ⟨⟨d, hd, hfails, rfl⟩, hparents⟩
    obtain ⟨herr, hblocks, hdisk⟩ := @reloadBlocks_of_corrupted _ sortMinTime _ (ne_nil_of_mem hu)
    exact ⟨⟨_, herr, hu⟩, hblocks, hdisk⟩

end Reload

section Crash

/-- A block of the given ULID and time range, and its directory. -/
def blockWith (ulid : BitVec 128) (mint maxt : ℤ) (parents : List (BitVec 128)) : Block :=
  ⟨⟨ulid, mint, maxt, ⟨0, 0⟩, false, false, parents⟩, 1⟩

def dirWith (ulid : BitVec 128) (mint maxt : ℤ) (parents : List (BitVec 128)) : BlockDir where
  ulid := ulid
  blockMeta := some (blockWith ulid mint maxt parents).blockMeta
  opened := some (blockWith ulid mint maxt parents)
  ulid_blockMeta := by rintro m ⟨⟩; rfl
  blockMeta_opened := by rintro b ⟨⟩ m ⟨⟩; rfl

/-- Blocks 1 and 2 have been compacted to block 3, and then there was a crash. -/
def crashed : DB where
  blocks := []
  disk := ⟨[dirWith 1 0 10 [], dirWith 2 10 20 [], dirWith 3 0 20 [1, 2], dirWith 4 20 30 []],
    by decide⟩
  retentionDuration := 0
  maxBytes := 0
  headSize := 0
  closed := []

variable (bs)

def sortMaxTime : List Block :=
  bs.insertionSort fun a b => b.blockMeta.maxTime ≤ a.blockMeta.maxTime

def sortMinTime : List Block :=
  bs.insertionSort fun a b => a.blockMeta.minTime ≤ b.blockMeta.minTime

/-- After the crash, blocks 3 and 4 are loaded, and blocks 1 and 2 deleted. -/
theorem reloadBlocks_spec_crashed :
    (reloadBlocks sortMaxTime sortMinTime crashed).2.blocks =
        [blockWith 3 0 20 [1, 2], blockWith 4 20 30 []] ∧
      ∀ d, d ∈ (reloadBlocks sortMaxTime sortMinTime crashed).2.disk.dirs ↔
        d ∈ crashed.disk.dirs ∧
          ((∃ b ∈ [blockWith 3 0 20 [1, 2], blockWith 4 20 30 []], b.ulid = d.ulid) ∨
            blockAt crashed d = none ∧ ∀ b ∈ present crashed, d.ulid ∉ b.blockMeta.parents) := by
  have hmax : SortsBy _ sortMaxTime :=
    sortsBy_insertionSort _
  have hmin : SortsBy _ sortMinTime :=
    sortsBy_insertionSort _
  have hblocks : (reloadBlocks sortMaxTime sortMinTime crashed).2.blocks =
      [blockWith 3 0 20 [1, 2], blockWith 4 20 30 []] := by decide +kernel
  have hopen : ∀ d ∈ crashed.disk.dirs, (blockAt crashed d).isSome := by decide +kernel
  obtain ⟨-, -, -, -, hdirs⟩ := (reloadBlocks_spec hmax hmin crashed).1 fun d hd hfails => by
    simpa [hfails.2] using hopen d hd
  exact ⟨hblocks, hblocks ▸ hdirs⟩

/-- A directory without metadata. -/
def unreadable (ulid : BitVec 128) : BlockDir :=
  ⟨ulid, none, none, by simp, by simp⟩

/-- Block 2 has been written in part, or deleted in part. -/
def halfWritten : DB :=
  { crashed with disk := ⟨[dirWith 1 0 10 [], unreadable 2], by decide⟩ }

/-- Block 2 does not open, and no block names it as a parent. The reload skips it without an error,
and loads block 1. -/
theorem reloadBlocks_skips_unreadable :
    unreadable 2 ∈ halfWritten.disk.dirs ∧ (unreadable 2).opened = none ∧
      (∀ b ∈ present halfWritten, (unreadable 2).ulid ∉ b.blockMeta.parents) ∧
      (reloadBlocks sortMaxTime sortMinTime halfWritten).1 = .ok () ∧
      (reloadBlocks sortMaxTime sortMinTime halfWritten).2.blocks = [blockWith 1 0 10 []] :=
  ⟨.tail _ (.head _), rfl, by decide +kernel, rfl, by decide +kernel⟩

end Crash

end Prometheus.Tsdb
