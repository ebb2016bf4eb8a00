/-
# `Lib.SortedMap` — a finite map kept sorted by its keys

An ordered-tree map, seen from outside: a list of entries in strictly ascending
key order, which `insert` keeps.  The order is a field of the map, so no lemma
below asks for it.

Two questions are settled for a run of insertions (`insertAll`).  What a key
holds afterwards: the last value inserted at it (`get_insertAll_empty`).  In
which order the entries come out: never the insertion order, unless that was
ascending already (`keys_insertAll_eq_iff`).  So two runs that agree on the last
value of each key end in the same map (`mapValues_insertAll`).

"The last value inserted" is a lookup in the reversed run, and the lemmas about lookups in
lists of entries come first: where keys are distinct an entry is what its key looks up,
from the back as from the front.
-/
import Mathlib.Data.List.Sort
import Mathlib.Data.List.Nodup
import Mathlib.Data.Prod.Basic

/-- A finite map with its entries in ascending key order. -/
structure SortedMap (κ α : Type) [LinearOrder κ] where
  entries : List (κ × α)
  sorted : entries.Pairwise (fun a b => a.1 < b.1)

namespace SortedMap

variable {κ α β : Type} [LinearOrder κ]

/-! ## Insertion -/

/-- Insertion into an ascending entry list, replacing an entry with the same key. -/
def insertEntry (k : κ) (x : α) : List (κ × α) → List (κ × α)
  | [] => [(k, x)]
  | e :: rest =>
      if k < e.1 then (k, x) :: e :: rest
      else if k = e.1 then (k, x) :: rest
      else e :: insertEntry k x rest

theorem mem_insertEntry {k : κ} {x : α} {e : κ × α} {l : List (κ × α)}
    (h : e ∈ insertEntry k x l) : e = (k, x) ∨ e ∈ l := by
  induction l with
  | nil => exact Or.inl (List.mem_singleton.mp h)
  | cons hd tl ih =>
      rw [insertEntry] at h
      split_ifs at h
      · rcases List.mem_cons.mp h with rfl | h
        · exact Or.inl rfl
        · exact Or.inr h
      · rcases List.mem_cons.mp h with rfl | h
        · exact Or.inl rfl
        · exact Or.inr (List.mem_cons_of_mem _ h)
      · rcases List.mem_cons.mp h with rfl | h
        · exact Or.inr List.mem_cons_self
        · exact (ih h).imp_right (List.mem_cons_of_mem _)

theorem pairwise_insertEntry (k : κ) (x : α) {l : List (κ × α)}
    (h : l.Pairwise fun a b => a.1 < b.1) :
    (insertEntry k x l).Pairwise fun a b => a.1 < b.1 := by
  induction l with
  | nil => exact List.pairwise_singleton _ _
  | cons hd tl ih =>
      obtain ⟨hhd, htl⟩ := List.pairwise_cons.mp h
      rw [insertEntry]
      split_ifs with hlt heq
      · refine List.pairwise_cons.mpr ⟨fun e he => ?_, h⟩
        rcases List.mem_cons.mp he with rfl | he
        · exact hlt
        · exact hlt.trans (hhd e he)
      · exact List.pairwise_cons.mpr ⟨fun e he => heq ▸ hhd e he, htl⟩
      · refine List.pairwise_cons.mpr ⟨fun e he => ?_, ih htl⟩
        rcases mem_insertEntry he with rfl | he
        · exact lt_of_le_of_ne (not_lt.mp hlt) (Ne.symm heq)
        · exact hhd e he

theorem lookup_cons_ite (k : κ) (e : κ × α) (l : List (κ × α)) :
    (e :: l).lookup k = if k = e.1 then some e.2 else l.lookup k := by
  obtain ⟨key, x⟩ := e
  rw [List.lookup_cons]
  rcases eq_or_ne k key with h | h
  · rw [if_pos h, beq_iff_eq.mpr h]
  · rw [if_neg h, beq_eq_false_iff_ne.mpr h]

theorem lookup_insertEntry (k k' : κ) (x : α) (l : List (κ × α)) :
    (insertEntry k x l).lookup k' = if k' = k then some x else l.lookup k' := by
  induction l with
  | nil => exact lookup_cons_ite k' (k, x) []
  | cons e tl ih =>
      rw [insertEntry]
      by_cases hlt : k < e.1
      · rw [if_pos hlt, lookup_cons_ite]
      · by_cases heq : k = e.1
        · rw [if_neg hlt, if_pos heq, lookup_cons_ite, lookup_cons_ite, ← heq]
          exact ite_congr rfl (fun _ => rfl) fun hk => (if_neg hk).symm
        · rw [if_neg hlt, if_neg heq, lookup_cons_ite, lookup_cons_ite, ih]
          by_cases hk : k' = k
          · have hne : k' ≠ e.1 := fun h => heq (hk.symm.trans h)
            simp only [if_neg hne, if_pos hk]
          · simp only [if_neg hk]

theorem exists_lookup_iff (k : κ) (l : List (κ × α)) :
    (∃ x, l.lookup k = some x) ↔ k ∈ l.map Prod.fst := by
  rw [← Option.isSome_iff_exists, List.lookup_isSome_iff, List.mem_map]
  constructor
  · rintro ⟨e, he, hk⟩
    exact ⟨e, he, (beq_iff_eq.mp hk).symm⟩
  · rintro ⟨e, he, rfl⟩
    exact ⟨e, he, beq_self_eq_true _⟩

theorem lookup_of_mem {k : κ} {x : α} {l : List (κ × α)} (hnd : (l.map Prod.fst).Nodup)
    (h : (k, x) ∈ l) : l.lookup k = some x := by
  induction l with
  | nil => exact absurd h List.not_mem_nil
  | cons e l ih =>
      obtain ⟨hnotin, hnd'⟩ := List.nodup_cons.mp hnd
      rcases List.mem_cons.mp h with rfl | h
      · rw [lookup_cons_ite, if_pos rfl]
      · have hne : k ≠ e.1 := fun hk => hnotin (hk ▸ List.mem_map.mpr ⟨_, h, rfl⟩)
        rw [lookup_cons_ite, if_neg hne]
        exact ih hnd' h

/-- From the back, a key looks up its last entry. -/
theorem lookup_reverse_eq_some_iff {l : List (κ × α)} {k : κ} {x : α} :
    l.reverse.lookup k = some x ↔
      ∃ (i : Nat) (hi : i < l.length), l[i] = (k, x) ∧
        ∀ (j : Nat) (hj : j < l.length), i < j → l[j].1 ≠ k := by
  rw [List.lookup_eq_some_iff]
  constructor
  · rintro ⟨l₁, l₂, heq, hne⟩
    have hl : l = l₂.reverse ++ (k, x) :: l₁.reverse := by
      rw [← List.reverse_reverse l, heq]
      simp
    have hlen : l₂.length < l.length := by
      rw [hl, List.length_append, List.length_reverse, List.length_cons]
      omega
    have hdrop : l.drop (l₂.length + 1) = l₁.reverse := by
      rw [hl, List.drop_append, List.length_reverse]
      simp
    refine ⟨l₂.length, hlen, ?_, fun j hj hij => ?_⟩
    · rw [List.getElem_of_eq hl]
      simp
    · obtain ⟨m, rfl⟩ := Nat.exists_eq_add_of_lt hij
      have hmem : l[l₂.length + m + 1] ∈ l.drop (l₂.length + 1) :=
        List.mem_drop_iff_getElem.mpr ⟨m, by omega, by congr 1; omega⟩
      rw [hdrop, List.mem_reverse] at hmem
      exact (bne_iff_ne.mp (hne _ hmem)).symm
  · rintro ⟨i, hi, hget, hlast⟩
    refine ⟨(l.drop (i + 1)).reverse, (l.take i).reverse, ?_, fun e he => ?_⟩
    · have hsplit : l = l.take i ++ l[i] :: l.drop (i + 1) := by
        rw [List.getElem_cons_drop, List.take_append_drop]
      conv_lhs => rw [hsplit]
      rw [hget, List.reverse_append, List.reverse_cons, List.append_assoc]
      rfl
    · obtain ⟨j, hj, rfl⟩ := List.mem_iff_getElem.mp (List.mem_reverse.mp he)
      rw [List.getElem_drop, bne_iff_ne]
      rw [List.length_drop] at hj
      exact (hlast (i + 1 + j) (by omega) (by omega)).symm

/-! ## The map -/

/-- The map without entries. -/
def empty : SortedMap κ α := ⟨[], .nil⟩

def insert (m : SortedMap κ α) (k : κ) (x : α) : SortedMap κ α :=
  ⟨insertEntry k x m.entries, pairwise_insertEntry k x m.sorted⟩

def get (m : SortedMap κ α) (k : κ) : Option α := m.entries.lookup k

def keys (m : SortedMap κ α) : List κ := m.entries.map Prod.fst

/-- A run of insertions, first entry first. -/
def insertAll (m : SortedMap κ α) (l : List (κ × α)) : SortedMap κ α :=
  l.foldl (fun m e => m.insert e.1 e.2) m

@[simp] theorem get_empty (k : κ) : (empty : SortedMap κ α).get k = none := rfl

@[simp] theorem insertAll_nil (m : SortedMap κ α) : m.insertAll [] = m := rfl

@[simp] theorem insertAll_cons (m : SortedMap κ α) (e : κ × α) (l : List (κ × α)) :
    m.insertAll (e :: l) = (m.insert e.1 e.2).insertAll l := rfl

theorem get_insert (m : SortedMap κ α) (k k' : κ) (x : α) :
    (m.insert k x).get k' = if k' = k then some x else m.get k' :=
  lookup_insertEntry k k' x m.entries

/-- A key holds the last value inserted at it, or what it held before the run. -/
theorem get_insertAll (k : κ) (l : List (κ × α)) : ∀ m : SortedMap κ α,
    (m.insertAll l).get k = (l.reverse.lookup k).or (m.get k) := by
  induction l with
  | nil =>
      intro m
      simp
  | cons e l ih =>
      intro m
      rw [insertAll_cons, ih, get_insert, List.reverse_cons, List.lookup_append, lookup_cons_ite]
      cases l.reverse.lookup k with
      | none => by_cases hk : k = e.1 <;> simp [hk]
      | some x => simp

theorem get_insertAll_empty (k : κ) (l : List (κ × α)) :
    ((empty : SortedMap κ α).insertAll l).get k = l.reverse.lookup k := by
  rw [get_insertAll, get_empty, Option.or_none]

theorem keys_pairwise (m : SortedMap κ α) : m.keys.Pairwise (· < ·) :=
  List.pairwise_map.mpr m.sorted

theorem keys_nodup (m : SortedMap κ α) : m.keys.Nodup :=
  (keys_pairwise m).imp fun h => ne_of_lt h

theorem mem_keys_iff (m : SortedMap κ α) (k : κ) : k ∈ m.keys ↔ ∃ x, m.get k = some x :=
  (exists_lookup_iff k m.entries).symm

theorem get_of_mem_entries {m : SortedMap κ α} {k : κ} {x : α} (h : (k, x) ∈ m.entries) :
    m.get k = some x :=
  lookup_of_mem (keys_nodup m) h

theorem mem_keys_insertAll_empty (k : κ) (l : List (κ × α)) :
    k ∈ ((empty : SortedMap κ α).insertAll l).keys ↔ k ∈ l.map Prod.fst := by
  rw [mem_keys_iff, get_insertAll_empty, exists_lookup_iff, List.map_reverse, List.mem_reverse]

theorem mem_entries_insertAll {e : κ × α} {l : List (κ × α)} : ∀ {m : SortedMap κ α},
    e ∈ (m.insertAll l).entries → e ∈ l ∨ e ∈ m.entries := by
  induction l with
  | nil =>
      intro m h
      exact Or.inr h
  | cons e' l ih =>
      intro m h
      rcases ih h with h | h
      · exact Or.inl (List.mem_cons_of_mem _ h)
      · rcases mem_insertEntry h with rfl | h
        · exact Or.inl List.mem_cons_self
        · exact Or.inr h

theorem mem_of_mem_insertAll_empty {e : κ × α} {l : List (κ × α)}
    (h : e ∈ ((empty : SortedMap κ α).insertAll l).entries) : e ∈ l :=
  (mem_entries_insertAll h).resolve_right List.not_mem_nil

/-! ## The order of the entries -/

theorem insertEntry_append (k : κ) (x : α) {l : List (κ × α)} (h : ∀ e ∈ l, e.1 < k) :
    insertEntry k x l = l ++ [(k, x)] := by
  induction l with
  | nil => rfl
  | cons e l ih =>
      have he : e.1 < k := h e List.mem_cons_self
      rw [insertEntry, if_neg (not_lt.mpr he.le), if_neg (ne_of_gt he),
        ih fun e' h' => h e' (List.mem_cons_of_mem _ h')]
      rfl

theorem entries_insertAll_of_pairwise {l : List (κ × α)} : ∀ {m : SortedMap κ α},
    (m.entries ++ l).Pairwise (fun a b => a.1 < b.1) →
      (m.insertAll l).entries = m.entries ++ l := by
  induction l with
  | nil =>
      intro m _
      simp
  | cons e l ih =>
      intro m h
      have hlt : ∀ e' ∈ m.entries, e'.1 < e.1 := fun e' he' =>
        (List.pairwise_append.mp h).2.2 e' he' e List.mem_cons_self
      have hins : (m.insert e.1 e.2).entries = m.entries ++ [e] := insertEntry_append e.1 e.2 hlt
      rw [insertAll_cons, ih (by rw [hins]; simpa using h), hins]
      simp

/-- The keys come out in insertion order exactly when that order was ascending. -/
theorem keys_insertAll_eq_iff (l : List (κ × α)) :
    ((empty : SortedMap κ α).insertAll l).keys = l.map Prod.fst ↔
      (l.map Prod.fst).Pairwise (· < ·) := by
  constructor
  · intro h
    rw [← h]
    exact keys_pairwise _
  · intro h
    rw [keys, entries_insertAll_of_pairwise (m := empty) (List.pairwise_map.mp h)]
    rfl

/-! ## Equal maps, and mapped values -/

theorem ext_get {m m' : SortedMap κ α} (h : ∀ k, m.get k = m'.get k) : m = m' := by
  have hmem : ∀ {m m' : SortedMap κ α}, (∀ k, m.get k = m'.get k) →
      ∀ e ∈ m.entries, e ∈ m'.entries := by
    intro m m' h e he
    have hget : m'.get e.1 = some e.2 := (h e.1).symm.trans (get_of_mem_entries he)
    obtain ⟨l₁, l₂, heq, -⟩ := List.lookup_eq_some_iff.mp hget
    exact heq ▸ List.mem_append_right _ List.mem_cons_self
  have hentries : m.entries = m'.entries := by
    have : Std.Irrefl fun a b : κ × α => a.1 < b.1 := ⟨fun _ => lt_irrefl _⟩
    have : Std.Antisymm fun a b : κ × α => a.1 < b.1 := ⟨fun _ _ h h' => absurd h (lt_asymm h')⟩
    exact List.Pairwise.eq_of_mem_iff m.sorted m'.sorted fun e =>
      ⟨hmem h e, hmem (fun k => (h k).symm) e⟩
  obtain ⟨entries, sorted⟩ := m
  subst hentries
  rfl

theorem entries_eq_singleton {m : SortedMap κ α} {k : κ} {x : α} (hkeys : ∀ k' ∈ m.keys, k' = k)
    (hget : m.get k = some x) : m.entries = [(k, x)] := by
  have heq : m = (empty : SortedMap κ α).insert k x := by
    refine ext_get fun k' => ?_
    rw [get_insert, get_empty]
    split
    · rename_i hk
      rw [hk, hget]
    · rename_i hk
      refine Option.eq_none_iff_forall_ne_some.mpr fun y hy => hk ?_
      exact hkeys k' ((mem_keys_iff m k').mpr ⟨y, hy⟩)
  rw [heq]
  rfl

/-- The same keys, each with its value mapped. -/
def mapValues (f : α → β) (m : SortedMap κ α) : SortedMap κ β :=
  ⟨m.entries.map fun e => (e.1, f e.2), List.pairwise_map.mpr m.sorted⟩

theorem get_mapValues (f : α → β) (m : SortedMap κ α) (k : κ) :
    (m.mapValues f).get k = (m.get k).map f := by
  have hlookup : ∀ l : List (κ × α),
      (l.map fun e => (e.1, f e.2)).lookup k = (l.lookup k).map f := by
    intro l
    induction l with
    | nil => rfl
    | cons e l ih =>
        rw [List.map_cons, lookup_cons_ite, lookup_cons_ite, ih]
        split <;> rfl
  exact hlookup m.entries

/-- Two runs of insertions over the same keys end in the same map, up to `f`, when
`f` takes the last value of each key to the last value of that key. -/
theorem mapValues_insertAll {f : α → β} {l : List (κ × α)} {l' : List (κ × β)}
    (hkeys : l.map Prod.fst = l'.map Prod.fst)
    (hlast : ∀ (i : Nat) (hi : i < l.length) (hi' : i < l'.length),
      (∀ (j : Nat) (hj : j < l.length), i < j → l[j].1 ≠ l[i].1) → f l[i].2 = l'[i].2) :
    ((empty : SortedMap κ α).insertAll l).mapValues f = (empty : SortedMap κ β).insertAll l' := by
  have hlen : l.length = l'.length := by
    rw [← List.length_map (f := Prod.fst), hkeys, List.length_map]
  have hkey : ∀ (i : Nat) (hi : i < l.length) (hi' : i < l'.length), l'[i].1 = l[i].1 := by
    intro i hi hi'
    have h := List.getElem_of_eq hkeys.symm (by rwa [List.length_map])
    rwa [List.getElem_map, List.getElem_map] at h
  refine ext_get fun k => ?_
  rw [get_mapValues, get_insertAll_empty, get_insertAll_empty]
  refine Option.ext fun y => ?_
  rw [Option.map_eq_some_iff, lookup_reverse_eq_some_iff]
  constructor
  · rintro ⟨x, hx, rfl⟩
    obtain ⟨i, hi, hget, hi_last⟩ := lookup_reverse_eq_some_iff.mp hx
    have hi' := hlen ▸ hi
    have hvalue := hlast i hi hi' (by rw [hget]; exact hi_last)
    have hfst := hkey i hi hi'
    rw [hget] at hvalue hfst
    refine ⟨i, hi', Prod.ext hfst hvalue.symm, fun j hj hij => ?_⟩
    rw [hkey j (hlen ▸ hj) hj]
    exact hi_last j (hlen ▸ hj) hij
  · rintro ⟨i, hi', hget, hi_last⟩
    have hi := hlen ▸ hi'
    have hfst : l[i].1 = k := (hkey i hi hi').symm.trans (congrArg Prod.fst hget)
    have hl : ∀ (j : Nat) (hj : j < l.length), i < j → l[j].1 ≠ k := by
      intro j hj hij
      rw [← hkey j hj (hlen ▸ hj)]
      exact hi_last j (hlen ▸ hj) hij
    have hvalue := hlast i hi hi' (by rw [hfst]; exact hl)
    rw [hget] at hvalue
    exact ⟨l[i].2, lookup_reverse_eq_some_iff.mpr ⟨i, hi, Prod.ext hfst rfl, hl⟩, hvalue⟩

end SortedMap
