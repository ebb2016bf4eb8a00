/-
# `Lib.Traverse` — a fallible function over a list

`List.mapM` in `Except` stops at the first failure.  The lemmas here trade a
run of it for a pointwise statement, so that a proof about a recursion through
a list never unfolds the monad:

    xs.mapM f = .ok ys   ↔   f succeeds on every entry, entry by entry

and `Except.error` on the left is one failing entry on the right.

Three ways of looking at a run are kept apart:

* what it returns, `mapM_eq_ok_iff` and what follows from it;
* which error it stops at, `refused`: of two runs in a row it is the first one's
  (`refused_seq`), so of a loop it is that of the first entry that fails;
* what all its errors have in common, `FailsWith`, which goes through binds and loops.

The last section is about two functions that undo each other entry by entry, under a
condition of each entry or with a guide that both see.
-/
import Mathlib.Data.List.Forall2

namespace Traverse

universe u v

variable {ε δ : Type u} {α β γ : Type v}

/-! ## Binding in `Except` -/

theorem ok_bind (a : α) (f : α → Except ε β) : (Except.ok a >>= f) = f a := rfl

theorem bind_eq_ok {x : Except ε α} {f : α → Except ε β} {b : β} :
    x >>= f = .ok b ↔ ∃ a, x = .ok a ∧ f a = .ok b := by
  cases x with
  | error e => exact ⟨nofun, nofun⟩
  | ok a => exact ⟨fun h => ⟨a, rfl, h⟩, fun ⟨_, h, hf⟩ => by cases h; exact hf⟩

theorem map_eq_ok {x : Except ε α} {f : α → β} {b : β} :
    f <$> x = .ok b ↔ ∃ a, x = .ok a ∧ f a = b := by
  cases x with
  | error e => exact ⟨nofun, nofun⟩
  | ok a =>
      constructor
      · intro h
        exact ⟨a, rfl, Except.ok.inj h⟩
      · rintro ⟨_, h, rfl⟩
        cases h
        rfl

theorem map_eq_error {x : Except ε α} {f : α → β} {e : ε} :
    f <$> x = .error e ↔ x = .error e := by
  cases x with
  | error e' => exact ⟨fun h => congrArg _ (Except.error.inj h), fun h => congrArg _ (Except.error.inj h)⟩
  | ok a => exact ⟨nofun, nofun⟩

theorem exists_map_eq_ok {x : Except ε α} {f : α → β} :
    (∃ b, f <$> x = .ok b) ↔ ∃ a, x = .ok a := by
  constructor
  · rintro ⟨b, hb⟩
    obtain ⟨a, ha, -⟩ := map_eq_ok.mp hb
    exact ⟨a, ha⟩
  · rintro ⟨a, rfl⟩
    exact ⟨f a, rfl⟩

theorem exists_ok_or_error (x : Except ε α) : (∃ a, x = .ok a) ∨ ∃ e, x = .error e := by
  cases x with
  | error e => exact Or.inr ⟨e, rfl⟩
  | ok a => exact Or.inl ⟨a, rfl⟩

theorem not_ok_iff_error {x : Except ε α} : (¬ ∃ a, x = .ok a) ↔ ∃ e, x = .error e := by
  cases x with
  | error e => exact ⟨fun _ => ⟨e, rfl⟩, fun _ ⟨_, h⟩ => by cases h⟩
  | ok a => exact ⟨fun h => absurd ⟨a, rfl⟩ h, fun ⟨_, h⟩ => by cases h⟩

/-! ## `mapM`, pointwise -/

theorem mapM_eq_ok_iff {f : α → Except ε β} {xs : List α} : ∀ {ys : List β},
    xs.mapM f = .ok ys ↔ List.Forall₂ (fun x y => f x = .ok y) xs ys := by
  induction xs with
  | nil =>
      intro ys
      constructor
      · intro h
        cases h
        exact .nil
      · intro h
        cases h
        rfl
  | cons x xs ih =>
      intro ys
      rw [List.mapM_cons, bind_eq_ok]
      constructor
      · rintro ⟨y, hy, h⟩
        obtain ⟨ys', hys, h'⟩ := bind_eq_ok.mp h
        cases h'
        exact .cons hy (ih.mp hys)
      · intro h
        cases h with
        | cons hy hys => exact ⟨_, hy, bind_eq_ok.mpr ⟨_, ih.mpr hys, rfl⟩⟩

theorem exists_of_mapM_eq_error {f : α → Except ε β} {e : ε} {xs : List α}
    (h : xs.mapM f = .error e) : ∃ x ∈ xs, f x = .error e := by
  induction xs with
  | nil => cases h
  | cons x xs ih =>
      rw [List.mapM_cons] at h
      cases hx : f x with
      | error e' =>
          rw [hx] at h
          cases h
          exact ⟨x, List.mem_cons_self, hx⟩
      | ok y =>
          rw [hx] at h
          cases hxs : xs.mapM f with
          | error e' =>
              have h' : xs.mapM f = .error e := by
                rw [hxs] at h ⊢
                cases h
                rfl
              obtain ⟨x', hmem, hx'⟩ := ih h'
              exact ⟨x', List.mem_cons_of_mem _ hmem, hx'⟩
          | ok ys =>
              rw [hxs] at h
              cases h

theorem exists_mapM_eq_ok_iff {f : α → Except ε β} {xs : List α} :
    (∃ ys, xs.mapM f = .ok ys) ↔ ∀ x ∈ xs, ∃ y, f x = .ok y := by
  constructor
  · rintro ⟨ys, h⟩ x hx
    obtain ⟨i, hi, rfl⟩ := List.mem_iff_getElem.mp hx
    obtain ⟨hlen, hget⟩ := List.forall₂_iff_get.mp (mapM_eq_ok_iff.mp h)
    exact ⟨_, hget i hi (hlen ▸ hi)⟩
  · intro h
    rcases exists_ok_or_error (xs.mapM f) with hok | ⟨e, he⟩
    · exact hok
    · obtain ⟨x, hx, hxe⟩ := exists_of_mapM_eq_error he
      obtain ⟨y, hy⟩ := h x hx
      rw [hxe] at hy
      cases hy

theorem mapM_congr {f g : α → Except ε β} {xs : List α} (h : ∀ x ∈ xs, f x = g x) :
    xs.mapM f = xs.mapM g := by
  induction xs with
  | nil => rfl
  | cons x xs ih =>
      rw [List.mapM_cons, List.mapM_cons, h x List.mem_cons_self,
        ih fun y hy => h y (List.mem_cons_of_mem _ hy)]

theorem mapM_eq_of_forall₂ {f : α → Except ε γ} {g : β → Except ε γ} {xs : List α} {ys : List β}
    (h : List.Forall₂ (fun x y => f x = g y) xs ys) : xs.mapM f = ys.mapM g := by
  induction h with
  | nil => rfl
  | cons hxy _ ih => rw [List.mapM_cons, List.mapM_cons, hxy, ih]

theorem length_of_mapM_eq_ok {f : α → Except ε β} {xs : List α} {ys : List β}
    (h : xs.mapM f = .ok ys) : xs.length = ys.length :=
  (mapM_eq_ok_iff.mp h).length_eq

theorem getElem_of_mapM_eq_ok {f : α → Except ε β} {xs : List α} {ys : List β}
    (h : xs.mapM f = .ok ys) (i : Nat) (hx : i < xs.length) (hy : i < ys.length) :
    f xs[i] = .ok ys[i] :=
  (List.forall₂_iff_get.mp (mapM_eq_ok_iff.mp h)).2 i hx hy

theorem exists_of_mem_mapM {f : α → Except ε β} {xs : List α} {ys : List β}
    (h : xs.mapM f = .ok ys) : ∀ y ∈ ys, ∃ x ∈ xs, f x = .ok y := by
  intro y hy
  obtain ⟨i, hi, rfl⟩ := List.mem_iff_getElem.mp hy
  have hix : i < xs.length := (length_of_mapM_eq_ok h).symm ▸ hi
  exact ⟨xs[i], List.getElem_mem hix, getElem_of_mapM_eq_ok h i hix hi⟩

theorem mem_of_mapM {f : α → Except ε β} {xs : List α} {ys : List β} {x : α} {y : β}
    (h : xs.mapM f = .ok ys) (hx : x ∈ xs) (hy : f x = .ok y) : y ∈ ys := by
  obtain ⟨i, hi, rfl⟩ := List.mem_iff_getElem.mp hx
  have hiy := getElem_of_mapM_eq_ok h i hi (length_of_mapM_eq_ok h ▸ hi)
  rw [hy] at hiy
  exact Except.ok.inj hiy ▸ List.getElem_mem _

/-- A run in two stages for each entry returns when the first stages do, and then
the second stages do on their results. -/
theorem mapM_bind_eq_ok_iff {f : α → Except ε β} {g : α → β → Except ε γ} :
    ∀ {xs : List α} {zs : List γ},
      xs.mapM (fun x => f x >>= g x) = .ok zs ↔
        ∃ ys, xs.mapM f = .ok ys ∧ (xs.zip ys).mapM (fun e => g e.1 e.2) = .ok zs := by
  intro xs
  simp only [mapM_eq_ok_iff]
  induction xs with
  | nil =>
      intro zs
      constructor
      · intro h
        cases h
        exact ⟨[], .nil, .nil⟩
      · rintro ⟨_, -, h⟩
        cases h
        exact .nil
  | cons x xs ih =>
      intro zs
      constructor
      · intro h
        cases h with
        | cons hx hxs =>
            obtain ⟨y, hy, hz⟩ := bind_eq_ok.mp hx
            obtain ⟨ys, hys, hzs⟩ := ih.mp hxs
            exact ⟨y :: ys, .cons hy hys, .cons hz hzs⟩
      · rintro ⟨_, hys, hzs⟩
        cases hys with
        | cons hy hys =>
            cases hzs with
            | cons hz hzs => exact .cons (bind_eq_ok.mpr ⟨_, hy, hz⟩) (ih.mpr ⟨_, hys, hzs⟩)

/-! ## The first refusal -/

/-- What a run was refused with, if it was. -/
def refused (x : Except ε α) : Option ε :=
  match x with
  | .error e => some e
  | .ok _ => none

theorem refused_eq_some {x : Except ε α} {e : ε} : refused x = some e ↔ x = .error e := by
  cases x with
  | error e' => exact ⟨fun h => congrArg _ (Option.some.inj h), fun h => congrArg _ (Except.error.inj h)⟩
  | ok a => exact ⟨nofun, nofun⟩

theorem refused_eq_none {x : Except ε α} : refused x = none ↔ ∃ a, x = .ok a := by
  cases x with
  | error e => exact ⟨nofun, fun ⟨_, h⟩ => by cases h⟩
  | ok a => exact ⟨fun _ => ⟨a, rfl⟩, fun _ => rfl⟩

@[simp] theorem refused_map (f : α → β) (x : Except ε α) : refused (f <$> x) = refused x := by
  cases x <;> rfl

/-- Of two runs in a row the first refusal is reported. -/
theorem refused_seq (x : Except ε α) (y : Except ε β) :
    refused (x >>= fun _ => y) = (refused x).or (refused y) := by
  cases x <;> rfl

theorem refused_mapM (f : α → Except ε β) (xs : List α) :
    refused (xs.mapM f) = xs.findSome? fun x => refused (f x) := by
  induction xs with
  | nil => rfl
  | cons x xs ih =>
      rw [List.mapM_cons, List.findSome?_cons, ← ih]
      cases f x with
      | error e => rfl
      | ok y =>
          show refused (xs.mapM f >>= _) = refused (xs.mapM f)
          cases xs.mapM f <;> rfl

theorem findSome?_cons_eq_or {f : α → Option δ} (x : α) (xs : List α) :
    (x :: xs).findSome? f = (f x).or (xs.findSome? f) := by
  rw [List.findSome?_cons]
  cases f x <;> rfl

theorem findSome?_flatMap {g : α → List β} {own : β → Option δ} (xs : List α) :
    (xs.flatMap g).findSome? own = xs.findSome? fun x => (g x).findSome? own := by
  induction xs with
  | nil => rfl
  | cons x xs ih =>
      rw [List.flatMap_cons, List.findSome?_append, ih, findSome?_cons_eq_or]

theorem findSome?_congr {f g : α → Option δ} {xs : List α} (h : ∀ x ∈ xs, f x = g x) :
    xs.findSome? f = xs.findSome? g := by
  induction xs with
  | nil => rfl
  | cons x xs ih =>
      rw [findSome?_cons_eq_or, findSome?_cons_eq_or, h x List.mem_cons_self,
        ih fun y hy => h y (List.mem_cons_of_mem _ hy)]

/-- A loop over the children reports what the first refused place below them says. -/
theorem refused_mapM_eq {places : α → List γ} {own : γ → Option ε} {f : α → Except ε β}
    {xs : List α} (h : ∀ x ∈ xs, refused (f x) = (places x).findSome? own) :
    refused (xs.mapM f) = (xs.flatMap places).findSome? own := by
  rw [refused_mapM, findSome?_flatMap]
  exact findSome?_congr h

/-! ## What failures have in common -/

/-- Every failure of the run satisfies `P`. -/
def FailsWith (P : ε → Prop) (x : Except ε α) : Prop := ∀ e, x = .error e → P e

namespace FailsWith

variable {P : ε → Prop} {x : Except ε α}

theorem ok (a : α) : FailsWith P (.ok a : Except ε α) := nofun

theorem error {e : ε} (he : P e) : FailsWith P (.error e : Except ε α) := fun _ h =>
  Except.error.inj h ▸ he

theorem bind {f : α → Except ε β} (hx : FailsWith P x) (hf : ∀ a, FailsWith P (f a)) :
    FailsWith P (x >>= f) := by
  intro e he
  cases x with
  | error e' => exact hx e (congrArg _ (Except.error.inj he))
  | ok a => exact hf a e he

theorem map (f : α → β) (hx : FailsWith P x) : FailsWith P (f <$> x) := by
  intro e he
  rw [← refused_eq_some, refused_map, refused_eq_some] at he
  exact hx e he

theorem mapM {f : α → Except ε β} {xs : List α} (h : ∀ a ∈ xs, FailsWith P (f a)) :
    FailsWith P (xs.mapM f) := by
  intro e he
  obtain ⟨a, ha, hfa⟩ := exists_of_mapM_eq_error he
  exact h a ha e hfa

end FailsWith

/-! ## Lists of one length, zipped -/

theorem exists_mem_zip_right {xs : List α} {ys : List β} (hlen : xs.length = ys.length) {y : β}
    (hy : y ∈ ys) : ∃ x, (x, y) ∈ xs.zip ys := by
  obtain ⟨i, hi, rfl⟩ := List.mem_iff_getElem.mp hy
  have hix : i < xs.length := hlen.symm ▸ hi
  refine ⟨xs[i], List.mem_iff_getElem.mpr ⟨i, ?_, List.getElem_zip⟩⟩
  rw [List.length_zip]
  exact Nat.lt_min.mpr ⟨hix, hi⟩

theorem eq_iff_map_eq {h : α → γ} {xs xs' : List α} {ys ys' : List β}
    (hlen : xs.length = ys.length) (hlen' : xs'.length = ys'.length)
    (hiff : ∀ (i : Nat) (hx : i < xs.length) (hx' : i < xs'.length) (hy : i < ys.length)
      (hy' : i < ys'.length), ys[i] = ys'[i] ↔ h xs[i] = h xs'[i]) :
    ys = ys' ↔ xs.map h = xs'.map h := by
  constructor
  · rintro rfl
    refine List.ext_getElem ?_ fun i hi hi' => ?_
    · rw [List.length_map, List.length_map, hlen, hlen']
    · rw [List.length_map] at hi hi'
      rw [List.getElem_map, List.getElem_map]
      exact (hiff i hi hi' (hlen ▸ hi) (hlen ▸ hi)).mp rfl
  · intro heq
    have hxlen : xs.length = xs'.length := by
      simpa only [List.length_map] using congrArg List.length heq
    refine List.ext_getElem (by rw [← hlen, ← hlen', hxlen]) fun i hy hy' => ?_
    have hx : i < xs.length := hlen ▸ hy
    have hx' : i < xs'.length := hlen' ▸ hy'
    have hi := List.getElem_of_eq heq (by rwa [List.length_map])
    rw [List.getElem_map, List.getElem_map] at hi
    exact (hiff i hx hx' hy hy').mpr hi

/-! ## There and back -/

theorem exists_mapM_inverse {f : α → Except ε β} {g : β → Except ε γ} {h : α → γ} {xs : List α}
    (hinv : ∀ x ∈ xs, ∃ y, f x = .ok y ∧ g y = .ok (h x)) :
    ∃ ys, xs.mapM f = .ok ys ∧ ys.mapM g = .ok (xs.map h) := by
  induction xs with
  | nil => exact ⟨[], rfl, rfl⟩
  | cons x xs ih =>
      obtain ⟨y, hy, hyx⟩ := hinv x List.mem_cons_self
      obtain ⟨ys, hys, hyxs⟩ := ih fun z hz => hinv z (List.mem_cons_of_mem x hz)
      refine ⟨y :: ys, ?_, ?_⟩
      · rw [List.mapM_cons, hy, hys]
        rfl
      · rw [List.mapM_cons, hyx, hyxs]
        rfl

/-- Where each entry is undone under a condition of its own, the list is undone
under all of them. -/
theorem mapM_inverse_iff {g : β → Except ε γ} {P : α → Prop} {h : α → γ} {xs : List α}
    {ys : List β} (hlen : xs.length = ys.length)
    (hinv : ∀ (i : Nat) (hx : i < xs.length) (hy : i < ys.length) (z : γ),
      g ys[i] = .ok z ↔ P xs[i] ∧ z = h xs[i]) {zs : List γ} :
    ys.mapM g = .ok zs ↔ (∀ x ∈ xs, P x) ∧ zs = xs.map h := by
  rw [mapM_eq_ok_iff, List.forall₂_iff_get]
  simp only [List.get_eq_getElem]
  constructor
  · rintro ⟨hzlen, hget⟩
    refine ⟨fun x hx => ?_, List.ext_getElem ?_ fun i hz hx => ?_⟩
    · obtain ⟨i, hi, rfl⟩ := List.mem_iff_getElem.mp hx
      have hy : i < ys.length := hlen ▸ hi
      exact ((hinv i hi hy _).mp (hget i hy (hzlen ▸ hy))).1
    · rw [← hzlen, ← hlen, List.length_map]
    · rw [List.length_map] at hx
      rw [List.getElem_map]
      exact ((hinv i hx (hlen ▸ hx) _).mp (hget i (hlen ▸ hx) hz)).2
  · rintro ⟨hP, rfl⟩
    refine ⟨by rw [List.length_map, hlen], fun i hy hz => ?_⟩
    have hx : i < xs.length := hlen ▸ hy
    rw [List.getElem_map]
    exact (hinv i hx hy _).mpr ⟨hP _ (List.getElem_mem hx), rfl⟩

/-- The same with a guide for each entry, which both directions see. -/
theorem exists_mapM_zip_inverse {f : α × β → Except ε γ} {g : α × γ → Except ε β} {h : β → β} :
    ∀ {xs : List α} {ys : List β}, xs.length = ys.length →
      (∀ e ∈ xs.zip ys, ∃ z, f e = .ok z ∧ g (e.1, z) = .ok (h e.2)) →
      ∃ zs, xs.length = zs.length ∧ (xs.zip ys).mapM f = .ok zs ∧
        (xs.zip zs).mapM g = .ok (ys.map h)
  | [], [], _, _ => ⟨[], rfl, rfl, rfl⟩
  | x :: xs, y :: ys, hlen, hinv => by
      obtain ⟨z, hz, hzy⟩ := hinv (x, y) List.mem_cons_self
      obtain ⟨zs, hlen', hzs, hzys⟩ := exists_mapM_zip_inverse (Nat.succ.inj hlen)
        fun e he => hinv e (List.mem_cons_of_mem _ he)
      refine ⟨z :: zs, congrArg Nat.succ hlen', ?_, ?_⟩
      · rw [List.zip_cons_cons, List.mapM_cons, hz, hzs]
        rfl
      · rw [List.zip_cons_cons, List.mapM_cons, hzy, hzys]
        rfl

theorem exists_mapM_eq_ok {g : α → Except ε β} : ∀ {ys : List β},
    (∀ y ∈ ys, ∃ x, g x = .ok y) → ∃ xs : List α, xs.mapM g = .ok ys
  | [], _ => ⟨[], rfl⟩
  | y :: ys, h => by
      obtain ⟨x, hx⟩ := h y List.mem_cons_self
      obtain ⟨xs, hxs⟩ := exists_mapM_eq_ok fun z hz => h z (List.mem_cons_of_mem y hz)
      exact ⟨x :: xs, mapM_eq_ok_iff.mpr (.cons hx (mapM_eq_ok_iff.mp hxs))⟩

theorem exists_mapM_zip_eq_ok {g : α × γ → Except ε β} : ∀ {xs : List α} {ys : List β},
    xs.length = ys.length → (∀ e ∈ xs.zip ys, ∃ z, g (e.1, z) = .ok e.2) →
      ∃ zs : List γ, xs.length = zs.length ∧ (xs.zip zs).mapM g = .ok ys
  | [], [], _, _ => ⟨[], rfl, rfl⟩
  | x :: xs, y :: ys, hlen, h => by
      obtain ⟨z, hz⟩ := h (x, y) List.mem_cons_self
      obtain ⟨zs, hlen', hzs⟩ := exists_mapM_zip_eq_ok (Nat.succ.inj hlen)
        fun e he => h e (List.mem_cons_of_mem _ he)
      exact ⟨z :: zs, congrArg Nat.succ hlen', mapM_eq_ok_iff.mpr (.cons hz (mapM_eq_ok_iff.mp hzs))⟩

end Traverse
