import Prometheus.Lib.Utf8

/-!
# Label sets as strings

The methods of label sets of `model/labels/labels_stringlabels.go` that other packages use. A label
set is kept as one string, in which each name and each value comes after its length. The string
determines the labels (`bytes_inj`), so that label sets are the lists of their labels here, and a
map with their strings as keys is one with label sets as keys.

Labels are in the order of their names (`Ordered`). `Get` relies on it: it stops at a label whose
first byte is greater, and still finds every label (`get_of_mem`). A `Builder` merges the labels
that are set into those of its base; of the result, the proofs need the names
(`Builder.mem_names_merge`).
-/

namespace Prometheus.Stringlabels

open Utf8 List

structure Label where
  name : Bytes
  value : Bytes
  deriving DecidableEq, Repr

abbrev Labels := List Label

/-- The first byte after the length of the name. A blank name is followed by the length of the
value, of which there is one byte below 255. -/
def Label.firstByte (l : Label) : BitVec 8 :=
  match l.name with
  | b :: _ => b
  | [] => if l.value.length < 255 then BitVec.ofNat 8 l.value.length else 255#8

/-- `Get`, which stops at a label whose first byte is greater. -/
def get : Labels → Bytes → Bytes
  | _, [] => []
  | [], _ => []
  | l :: ls, b :: bs =>
    if l.firstByte = b then
      if l.name = b :: bs then l.value else get ls (b :: bs)
    else if b < l.firstByte then [] else get ls (b :: bs)

variable (ls : Labels)

/-- The names and values in turn, which `Compare` compares one after the other. -/
def fields : List Bytes :=
  ls.flatMap fun l => [l.name, l.value]

/-- `Compare(a, b) <= 0`. -/
def CompareLe (a b : Labels) : Prop :=
  ¬fields b < fields a

instance : DecidableRel CompareLe :=
  fun a b => inferInstanceAs (Decidable (¬fields b < fields a))

/-- A matcher is a condition on the value of a label. -/
structure Matcher where
  name : Bytes
  «matches» : Bytes → Bool

def encodeSize (n : ℕ) : Bytes :=
  if n < 255 then [.ofNat 8 n]
  else [255, .ofNat 8 n, .ofNat 8 (n / 2 ^ 8), .ofNat 8 (n / 2 ^ 16)]

/-- A string after its length. -/
def encodeString (s : Bytes) : Bytes :=
  encodeSize s.length ++ s

/-- `Bytes`, which is the string that a label set is kept as. -/
def bytes : Bytes :=
  ls.flatMap fun l => encodeString l.name ++ encodeString l.value

/-- The lengths can be encoded. -/
def Fits : Prop :=
  ∀ l ∈ ls, l.name.length < 2 ^ 24 ∧ l.value.length < 2 ^ 24

lemma encodeString_ne_nil (s : Bytes) : encodeString s ≠ [] := by
  unfold encodeString encodeSize
  split_ifs <;> simp

lemma encodeString_append_inj {s t bs bs' : Bytes} (hs : s.length < 2 ^ 24) (ht : t.length < 2 ^ 24)
    (h : encodeString s ++ bs = encodeString t ++ bs') : s = t ∧ bs = bs' := by
  have hlen : s.length = t.length ∧ s ++ bs = t ++ bs' := by
    unfold encodeString encodeSize at h
    split_ifs at h <;> simp [← BitVec.toNat_inj] at h <;> grind
  exact append_inj hlen.2 hlen.1

lemma bytes_inj {ls ls' : Labels} (hls : Fits ls) (hls' : Fits ls') (h : bytes ls = bytes ls') :
    ls = ls' := by
  induction ls generalizing ls' with
  | nil => cases ls' with
    | nil => rfl
    | cons l' ls' => simp [bytes, encodeString_ne_nil] at h
  | cons l ls ih => cases ls' with
    | nil => simp [bytes, encodeString_ne_nil] at h
    | cons l' ls' =>
      obtain ⟨⟨hn, hv⟩, hls⟩ := forall_mem_cons.1 hls
      obtain ⟨⟨hn', hv'⟩, hls'⟩ := forall_mem_cons.1 hls'
      simp only [bytes, flatMap_cons, append_assoc] at h
      obtain ⟨hname, h⟩ := encodeString_append_inj hn hn' h
      obtain ⟨hvalue, h⟩ := encodeString_append_inj hv hv' h
      rw [ih hls hls' h, show l = l' from congrArg₂ Label.mk hname hvalue]

section Get

/-- Labels in the order of their names, which are distinct and not blank. -/
structure Ordered (ls : Labels) : Prop where
  pairwise : ls.Pairwise (·.name < ·.name)
  name_ne_nil : ∀ l ∈ ls, l.name ≠ []

variable {ls : Labels} {l : Label} {n : Bytes}

lemma Ordered.append {ms : Labels} (h : Ordered (ls ++ ms)) :
    Ordered ls ∧ Ordered ms ∧ ∀ l ∈ ls, ∀ m ∈ ms, l.name < m.name := by
  obtain ⟨hls, hms, hlt⟩ := pairwise_append.1 h.pairwise
  exact ⟨⟨hls, fun l hl => h.name_ne_nil l (mem_append_left _ hl)⟩,
    ⟨hms, fun l hl => h.name_ne_nil l (mem_append_right _ hl)⟩, hlt⟩

/-- The value of a label that there is not is empty. -/
lemma get_eq_nil (h : ∀ l ∈ ls, l.name ≠ n) : get ls n = [] := by
  induction ls with
  | nil => cases n <;> rfl
  | cons l ls ih =>
    obtain ⟨hne, h⟩ := forall_mem_cons.1 h
    cases n with
    | nil => rfl
    | cons b bs =>
      rw [get, if_neg hne, ih h]
      split_ifs <;> rfl

/-- The labels before one with the name `n` are not past it. -/
lemma get_of_mem (h : Ordered ls) (hl : l ∈ ls) : get ls l.name = l.value := by
  induction ls with
  | nil => simp at hl
  | cons l' ls ih =>
    obtain ⟨b, bs, hname⟩ := exists_cons_of_ne_nil (h.name_ne_nil l hl)
    obtain ⟨hlt, hls⟩ := pairwise_cons.1 h.pairwise
    rcases mem_cons.1 hl with rfl | hl
    · simp [hname, get, Label.firstByte]
    have hrest := ih ⟨hls, fun l hl => h.name_ne_nil l (mem_cons_of_mem _ hl)⟩ hl
    obtain ⟨b', bs', hname'⟩ := exists_cons_of_ne_nil (h.name_ne_nil l' mem_cons_self)
    have hlt' := hlt l hl
    have hne : l'.name ≠ b :: bs := by
      intro heq
      rw [hname, heq] at hlt'
      exact List.lt_irrefl _ hlt'
    rw [hname, hname', cons_lt_cons_iff] at hlt'
    have hpast : ¬b < l'.firstByte := by
      rw [Label.firstByte, hname']
      simp only
      rcases hlt' with hlt' | ⟨rfl, -⟩
      · exact BitVec.lt_asymm hlt'
      · exact BitVec.lt_irrefl _
    rw [hname] at hrest ⊢
    rw [get, if_neg hne, if_neg hpast, hrest]
    split_ifs <;> rfl

end Get

/-- `Builder`: the labels that are deleted from a label set, and those that are set. -/
structure Builder where
  base : Labels
  del : List Bytes
  add : Labels

namespace Builder

variable (b : Builder)

/-- `Reset`. -/
def reset (base : Labels) : Builder :=
  ⟨base, (base.filter (·.value = [])).map (·.name), []⟩

/-- `Del` of one name. -/
def delete (n : Bytes) : Builder :=
  { b with del := b.del ++ [n], add := b.add.eraseP (·.name = n) }

def keep (ns : List Bytes) : Builder :=
  { b with del := b.del ++ (b.base.map (·.name)).filter (· ∉ ns) }

def set (n v : Bytes) : Builder :=
  if v = [] then b.delete n
  else if b.add.any (·.name = n) then
    { b with add := b.add.map fun a => if a.name = n then ⟨n, v⟩ else a }
  else { b with add := b.add ++ [⟨n, v⟩] }

/-- The loop of `Labels` over the labels of the base, with those that are still to be added. -/
def merge (del : List Bytes) : Labels → Labels → Labels
  | [], add => add
  | l :: base, add =>
    if l.name ∈ del then merge del base add
    else
      add.takeWhile (·.name < l.name) ++ match add.dropWhile (·.name < l.name) with
        | [] => l :: merge del base []
        | a :: add =>
          if a.name = l.name then a :: merge del base add else l :: merge del base (a :: add)

def labels : Labels :=
  if b.del = [] ∧ b.add = [] then b.base
  else merge b.del b.base (b.add.insertionSort (·.name ≤ ·.name))

variable {del : List Bytes} {base add : Labels} {n : Bytes}

lemma merge_nil (base : Labels) : merge [] base [] = base := by
  induction base with
  | nil => rfl
  | cons l base ih => simp [merge, ih]

lemma labels_eq (b : Builder) :
    b.labels = merge b.del b.base (b.add.insertionSort (·.name ≤ ·.name)) := by
  unfold labels
  split_ifs with h
  · rw [h.1, h.2]
    exact (merge_nil _).symm
  · rfl

/-- Labels at the end of the base that are deleted do not matter. -/
lemma merge_append {del' : List Bytes} {ms : Labels}
    (hdel : ∀ l ∈ base, l.name ∈ del ↔ l.name ∈ del') (hms : ∀ l ∈ ms, l.name ∈ del') :
    merge del base add = merge del' (base ++ ms) add := by
  induction base generalizing add with
  | nil =>
    induction ms with
    | nil => rfl
    | cons m ms ih =>
      obtain ⟨hm, hms⟩ := forall_mem_cons.1 hms
      refine (ih hms).trans ?_
      simp [merge, hm]
  | cons l base ih =>
    obtain ⟨hl, hdel⟩ := forall_mem_cons.1 hdel
    simp only [cons_append, merge, hl, ih hdel]

/-- The names of the result. -/
lemma mem_names_merge :
    n ∈ (merge del base add).map (·.name) ↔
      n ∈ add.map (·.name) ∨ n ∈ base.map (·.name) ∧ n ∉ del := by
  induction base generalizing add with
  | nil => simp [merge]
  | cons l base ih =>
    have hadd : n ∈ add.map (·.name) ↔ n ∈ (add.takeWhile (·.name < l.name)).map (·.name) ∨
        n ∈ (add.dropWhile (·.name < l.name)).map (·.name) := by
      rw [← mem_append, ← map_append, takeWhile_append_dropWhile]
    rw [merge]
    split_ifs with hl
    · rw [ih, map_cons, mem_cons]
      constructor
      · exact Or.imp_right fun h => ⟨.inr h.1, h.2⟩
      · exact Or.imp_right fun h => ⟨h.1.resolve_left fun heq => h.2 (heq ▸ hl), h.2⟩
    · rw [map_append, mem_append, hadd, or_assoc]
      refine or_congr_right ?_
      have hn : n = l.name → n ∉ del := fun h => h ▸ hl
      cases add.dropWhile (·.name < l.name) with
      | nil =>
        simp only [map_cons, mem_cons, ih, map_nil, not_mem_nil, false_or]
        tauto
      | cons a add =>
        dsimp only
        split_ifs with ha
        · simp only [map_cons, mem_cons, ih, ha]
          tauto
        · simp only [map_cons, mem_cons, ih]
          tauto

end Builder

end Prometheus.Stringlabels
