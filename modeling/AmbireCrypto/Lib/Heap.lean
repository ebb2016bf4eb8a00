/-
# `Lib.Heap` — blocks, and what a run adds to them

A heap of byte blocks on which everything that is undefined for an allocator faults:
reading, writing or freeing an address without a block, reading or writing past the end
of one, and freeing a block with another size than it has.  So a run that does not fault
has no double free, no use after a free and no free with a wrong size.

What is left to say of a run is what it leaves behind.  `Adds h h' added` says it of any
two heaps: the second is the first and the blocks at `added`.  Allocating adds an
address, freeing takes it away again, and both are statements of this one form, the
second with the heaps exchanged.  The rules are those of adding and taking away:

* `Adds.trans` for one step after the other,
* `Adds.free` for taking away what was added before,
* `Adds.perm`, since the order of what was added does not matter.

Nothing is said about which address an allocation takes, only that there was no block
at it.  The allocator given here for tests never gives an address out twice.
-/
import Mathlib.Data.List.Basic

namespace Heaps

structure Heap where
  blocks : Nat → Option (List UInt8)
  next : Nat
  next_pos : 0 < next
  fresh : ∀ a, next ≤ a → blocks a = none

namespace Heap

/-- A heap without blocks. -/
def empty : Heap := ⟨fun _ => none, 1, Nat.one_pos, fun _ _ => rfl⟩

/-- A new block, at an address that is not zero. -/
def alloc (h : Heap) (block : List UInt8) : Heap where
  blocks := fun a => if a = h.next then some block else h.blocks a
  next := h.next + 1
  next_pos := Nat.succ_pos _
  fresh := fun a ha => by
    rw [if_neg (by omega)]
    exact h.fresh a (by omega)

/-- The first `len` bytes of a block. -/
def read (h : Heap) (a len : Nat) : Option (List UInt8) :=
  match h.blocks a with
  | some block => if len ≤ block.length then some (block.take len) else none
  | none => none

/-- The first bytes of a block are overwritten. -/
def write (h : Heap) (a : Nat) (bytes : List UInt8) : Option Heap :=
  match hblock : h.blocks a with
  | some block =>
      if bytes.length ≤ block.length then
        some ⟨fun b => if b = a then some (bytes ++ block.drop bytes.length) else h.blocks b,
          h.next, h.next_pos, fun b hb => by
            rw [if_neg]
            · exact h.fresh b hb
            · rintro rfl
              rw [h.fresh b hb] at hblock
              cases hblock⟩
      else none
  | none => none

/-- The block goes; its size has to be known. -/
def free (h : Heap) (a size : Nat) : Option Heap :=
  match h.blocks a with
  | some block =>
      if block.length = size then
        some ⟨fun b => if b = a then none else h.blocks b, h.next, h.next_pos, fun b hb => by
          split
          · rfl
          · exact h.fresh b hb⟩
      else none
  | none => none

variable {h : Heap} {a : Nat} {block : List UInt8}

theorem read_of_block {len : Nat} (ha : h.blocks a = some block) (hlen : len ≤ block.length) :
    h.read a len = some (block.take len) := by
  rw [read, ha]
  exact if_pos hlen

theorem exists_write (ha : h.blocks a = some block) {bytes : List UInt8}
    (hlen : bytes.length ≤ block.length) :
    ∃ h', h.write a bytes = some h' ∧
      h'.blocks = fun b => if b = a then some (bytes ++ block.drop bytes.length) else h.blocks b := by
  unfold write
  split
  · rename_i found hfound
    cases ha.symm.trans hfound
    exact ⟨_, if_pos hlen, rfl⟩
  · rename_i hnone
    cases ha.symm.trans hnone

end Heap

/-! ## Adding and taking away -/

/-- `h'` is `h` and the blocks at `added`. -/
structure Adds (h h' : Heap) (added : List Nat) : Prop where
  nodup : added.Nodup
  held : ∀ a ∈ added, h'.blocks a ≠ none
  rest : ∀ a, h.blocks a = if a ∈ added then none else h'.blocks a

namespace Adds

variable {h h₁ h₂ : Heap} {l l₁ l₂ : List Nat}

theorem of_blocks_eq (hblocks : h₁.blocks = h.blocks) : Adds h h₁ [] :=
  ⟨List.nodup_nil, fun _ ha => absurd ha List.not_mem_nil, fun a => by
    rw [hblocks, if_neg List.not_mem_nil]⟩

theorem refl (h : Heap) : Adds h h [] := of_blocks_eq rfl

theorem eq_none (hadds : Adds h h₁ l) {a : Nat} (ha : a ∈ l) : h.blocks a = none := by
  rw [hadds.rest, if_pos ha]

theorem blocks_eq (hadds : Adds h h₁ l) {a : Nat} (ha : a ∉ l) : h₁.blocks a = h.blocks a := by
  rw [hadds.rest, if_neg ha]

theorem blocks_of_some (hadds : Adds h h₁ l) {a : Nat} {block : List UInt8}
    (ha : h.blocks a = some block) : h₁.blocks a = some block := by
  rw [hadds.blocks_eq, ha]
  intro hmem
  rw [hadds.eq_none hmem] at ha
  cases ha

theorem perm (hadds : Adds h h₁ l₁) (hperm : l₁.Perm l₂) : Adds h h₁ l₂ where
  nodup := hperm.nodup_iff.mp hadds.nodup
  held := fun a ha => hadds.held a (hperm.mem_iff.mpr ha)
  rest := fun a => by
    rw [hadds.rest]
    simp only [hperm.mem_iff]

theorem trans (hadds₁ : Adds h h₁ l₁) (hadds₂ : Adds h₁ h₂ l₂) : Adds h h₂ (l₁ ++ l₂) where
  nodup := by
    refine List.nodup_append.mpr ⟨hadds₁.nodup, hadds₂.nodup, fun a ha b hb hab => ?_⟩
    subst hab
    exact hadds₁.held a ha (hadds₂.eq_none hb)
  held := fun a ha => by
    rcases List.mem_append.mp ha with ha | ha
    · cases hblock : h₁.blocks a with
      | none => exact absurd hblock (hadds₁.held a ha)
      | some block =>
          rw [hadds₂.blocks_of_some hblock]
          exact Option.some_ne_none block
    · exact hadds₂.held a ha
  rest := fun a => by
    rw [hadds₁.rest, hadds₂.rest]
    by_cases ha₁ : a ∈ l₁
    · rw [if_pos ha₁, if_pos (List.mem_append_left l₂ ha₁)]
    · by_cases ha₂ : a ∈ l₂
      · rw [if_neg ha₁, if_pos ha₂, if_pos (List.mem_append_right l₁ ha₂)]
      · rw [if_neg ha₁, if_neg ha₂, if_neg]
        rw [List.mem_append, not_or]
        exact ⟨ha₁, ha₂⟩

/-- Of what was added a part is taken away. -/
theorem free (hadds : Adds h h₂ (l₁ ++ l₂)) (hfreed : Adds h₁ h₂ l₁) : Adds h h₁ l₂ where
  nodup := (List.nodup_append.mp hadds.nodup).2.1
  held := fun a ha => by
    have hdisjoint : a ∉ l₁ := fun ha₁ => (List.nodup_append.mp hadds.nodup).2.2 a ha₁ a ha rfl
    rw [← hfreed.blocks_eq hdisjoint]
    exact hadds.held a (List.mem_append_right l₁ ha)
  rest := fun a => by
    rw [hadds.rest]
    by_cases ha₂ : a ∈ l₂
    · rw [if_pos (List.mem_append_right l₁ ha₂), if_pos ha₂]
    · rw [if_neg ha₂]
      by_cases ha₁ : a ∈ l₁
      · rw [if_pos (List.mem_append_left l₂ ha₁), hfreed.eq_none ha₁]
      · rw [if_neg, hfreed.blocks_eq ha₁]
        rw [List.mem_append, not_or]
        exact ⟨ha₁, ha₂⟩

theorem of_alloc (h : Heap) (block : List UInt8) : Adds h (h.alloc block) [h.next] where
  nodup := List.pairwise_singleton _ _
  held := fun a ha => by
    rw [List.mem_singleton.mp ha]
    show (if h.next = h.next then some block else _) ≠ none
    rw [if_pos rfl]
    exact Option.some_ne_none block
  rest := fun a => by
    show _ = if a ∈ [h.next] then none else if a = h.next then some block else h.blocks a
    by_cases ha : a = h.next
    · rw [if_pos (List.mem_singleton.mpr ha), ha, h.fresh _ (Nat.le_refl _)]
    · rw [if_neg fun hmem => ha (List.mem_singleton.mp hmem), if_neg ha]

theorem exists_free {a : Nat} {block : List UInt8} (ha : h.blocks a = some block) :
    ∃ h', h.free a block.length = some h' ∧ Adds h' h [a] := by
  rw [Heap.free, ha]
  refine ⟨_, if_pos rfl, List.pairwise_singleton _ _, fun b hb => ?_, fun b => ?_⟩
  · rw [List.mem_singleton.mp hb, ha]
    exact Option.some_ne_none block
  · show (if b = a then none else h.blocks b) = _
    simp only [List.mem_singleton]

/-- Overwriting a block adds none. -/
theorem of_write {a : Nat} {block : List UInt8} {h' : Heap} (hadds : Adds h h₁ [a])
    (hwrite : h'.blocks = fun b => if b = a then some block else h₁.blocks b) : Adds h h' [a] where
  nodup := hadds.nodup
  held := fun b hb => by
    rw [hwrite, List.mem_singleton.mp hb]
    show (if a = a then some block else _) ≠ none
    rw [if_pos rfl]
    exact Option.some_ne_none block
  rest := fun b => by
    rw [hadds.rest, hwrite]
    by_cases hb : b = a
    · rw [if_pos (List.mem_singleton.mpr hb), if_pos (List.mem_singleton.mpr hb)]
    · have hmem : b ∉ [a] := fun hmem => hb (List.mem_singleton.mp hmem)
      rw [if_neg hmem, if_neg hmem]
      exact (if_neg hb).symm

end Adds

end Heaps
