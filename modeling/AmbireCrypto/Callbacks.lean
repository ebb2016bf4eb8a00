/-
# `AmbireCrypto.Callbacks` — calling back into a runtime that may be gone

Rust calls back through plain function pointers, so the runtime to call and the
function in it stand in a static, `rsLambda`.  There are two of these, for futures of
Rust's that can go on and for futures of JavaScript's that were dropped.  The first
registration fills a static, later ones leave it alone, and the destructor of any
module empties both.

Two questions about runs, in which runtimes come and go, register and are called back
in any order:

* `jobs_stand`: whatever is enqueued is for a runtime that stands at the time, and for
  a function this very runtime registered;
* `wakes_iff`: that a runtime is called back itself once it has registered, as long as
  it stands, can be relied on exactly where no two runtimes stand at once.

## What a run is

Each runtime has one module, from `registerModule` to the destructor.  A reload brings a
new runtime with a module of its own; a second module in the same runtime, with a
destructor of its own, is not modelled.

A step is atomic, and so a run is a sequence.  The source takes no lock around the
statics, so calls from two threads at once are not covered.

What becomes of a job once it is enqueued is up to the call invoker.  So far no function
of the crate is asynchronous, and nothing registers.

## How

`step_cases` says all that a step can do.  The invariant of the first result is
`registered`: a lambda stands for a registration that no destruction has followed, and
its runtime stands.  The second needs in addition that a filled static stays as it is
while its runtime stands (`filled_of_run`), and, for the converse, that reloads by
themselves fill none, so that two registrations can be put behind them
(`exists_not_wakes`).
-/
import Mathlib.Data.List.Induction
import Mathlib.Logic.Function.Basic

namespace AmbireCrypto.Callbacks

/-! ## One static -/

/-- The two callback functions. -/
inductive Kind
  | rustFutureContinuationCallback
  | foreignFutureDroppedCallback
deriving DecidableEq

/-- What Rust calls each with. -/
abbrev Kind.Args : Kind → Type
  | .rustFutureContinuationCallback => UInt64 × Int8
  | .foreignFutureDroppedCallback => UInt64

variable {ρ ν : Type}

/-- What a lambda captures: the runtime, and the function to call in it. -/
structure Lambda (ρ ν : Type) where
  rt : ρ
  callbackValue : ν

/-- A call of `body`, enqueued. -/
structure Job (ρ ν : Type) where
  rt : ρ
  callbackValue : ν
  kind : Kind
  args : kind.Args

/-- The static afterwards, unless a `JSError` is thrown because the value is not a
function.  Once there is a lambda the value is not looked at. -/
def makeCallbackFunction (rsLambda : Option (Lambda ρ ν)) (rt : ρ) (value : Option ν) :
    Option (Option (Lambda ρ ν)) :=
  match rsLambda with
  | some l => some (some l)
  | none =>
      match value with
      | some f => some (some ⟨rt, f⟩)
      | none => none

def callback (rsLambda : Option (Lambda ρ ν)) (kind : Kind) (args : kind.Args) :
    Option (Job ρ ν) :=
  match rsLambda with
  | none => none
  | some l => some ⟨l.rt, l.callbackValue, kind, args⟩

def cleanup : Option (Lambda ρ ν) := none

/-! ## Runs -/

/-- `runtimes` are those with a module. -/
structure State (ρ ν : Type) where
  runtimes : List ρ
  rsLambda : Kind → Option (Lambda ρ ν)
  jobs : List (Job ρ ν)

/-- Before any runtime. -/
def init : State ρ ν := ⟨[], fun _ => none, []⟩

inductive Event (ρ ν : Type)
  | registerModule (rt : ρ)
  | makeCallbackFunction (kind : Kind) (rt : ρ) (value : Option ν)
  | callback (kind : Kind) (args : kind.Args)
  | destroy (rt : ρ)

variable [DecidableEq ρ]

/-- A runtime gets one module, registers while it has it, and takes it down with
itself.  Rust may call back at any time. -/
def step (s : State ρ ν) : Event ρ ν → Option (State ρ ν)
  | .registerModule rt =>
      if rt ∈ s.runtimes then none else some { s with runtimes := rt :: s.runtimes }
  | .makeCallbackFunction kind rt value =>
      if rt ∈ s.runtimes then
        match makeCallbackFunction (s.rsLambda kind) rt value with
        | some l => some { s with rsLambda := Function.update s.rsLambda kind l }
        | none => some s
      else none
  | .callback kind args =>
      some { s with jobs := s.jobs ++ (callback (s.rsLambda kind) kind args).toList }
  | .destroy rt =>
      if rt ∈ s.runtimes then
        some { s with runtimes := s.runtimes.filter (· ≠ rt), rsLambda := fun _ => cleanup }
      else none

def run (s : State ρ ν) (es : List (Event ρ ν)) : Option (State ρ ν) := es.foldlM step s

variable {s s' : State ρ ν} {es : List (Event ρ ν)}

@[simp] theorem run_cons (e : Event ρ ν) : run s (e :: es) = (step s e).bind fun s' => run s' es :=
  List.foldlM_cons

@[simp] theorem run_append (es' : List (Event ρ ν)) :
    run s (es ++ es') = (run s es).bind fun s' => run s' es' :=
  List.foldlM_append

/-! ## One step -/

/-- All that a step can do. -/
inductive Step (s : State ρ ν) : Event ρ ν → State ρ ν → Prop
  | registerModule {rt : ρ} : rt ∉ s.runtimes →
      Step s (.registerModule rt) { s with runtimes := rt :: s.runtimes }
  | fill {kind : Kind} {rt : ρ} (f : ν) : rt ∈ s.runtimes → s.rsLambda kind = none →
      Step s (.makeCallbackFunction kind rt (some f))
        { s with rsLambda := Function.update s.rsLambda kind (some ⟨rt, f⟩) }
  | keep {kind : Kind} {rt : ρ} {value : Option ν} : rt ∈ s.runtimes →
      (s.rsLambda kind ≠ none ∨ value = none) → Step s (.makeCallbackFunction kind rt value) s
  | callback (kind : Kind) (args : kind.Args) :
      Step s (.callback kind args)
        { s with jobs := s.jobs ++ (callback (s.rsLambda kind) kind args).toList }
  | destroy {rt : ρ} : rt ∈ s.runtimes →
      Step s (.destroy rt)
        { s with runtimes := s.runtimes.filter (· ≠ rt), rsLambda := fun _ => none }

theorem step_register {kind : Kind} {rt : ρ} (hrt : rt ∈ s.runtimes)
    (hempty : s.rsLambda kind = none) (f : ν) :
    step s (.makeCallbackFunction kind rt (some f)) =
      some { s with rsLambda := Function.update s.rsLambda kind (some ⟨rt, f⟩) } := by
  simp only [step, if_pos hrt, hempty, makeCallbackFunction]

theorem step_registered {kind : Kind} {rt : ρ} {l : Lambda ρ ν} (hrt : rt ∈ s.runtimes)
    (hl : s.rsLambda kind = some l) (value : Option ν) :
    step s (.makeCallbackFunction kind rt value) = some s := by
  have hupdate : Function.update s.rsLambda kind (some l) = s.rsLambda :=
    hl ▸ Function.update_eq_self kind s.rsLambda
  simp only [step, if_pos hrt, hl, makeCallbackFunction, hupdate]

theorem step_cases {e : Event ρ ν} (h : step s e = some s') : Step s e s' := by
  cases e with
  | registerModule rt =>
      simp only [step] at h
      split at h
      · cases h
      · rename_i hrt
        cases h
        exact .registerModule hrt
  | makeCallbackFunction kind rt value =>
      by_cases hrt : rt ∈ s.runtimes
      · cases hl : s.rsLambda kind with
        | some l =>
            cases h.symm.trans (step_registered hrt hl value)
            exact .keep hrt (.inl (hl ▸ Option.some_ne_none l))
        | none =>
            cases value with
            | none =>
                simp only [step, if_pos hrt, hl, makeCallbackFunction] at h
                cases h
                exact .keep hrt (.inr rfl)
            | some f =>
                cases h.symm.trans (step_register hrt hl f)
                exact .fill f hrt hl
      · simp only [step, if_neg hrt] at h
        cases h
  | callback kind args =>
      cases h
      exact .callback kind args
  | destroy rt =>
      simp only [step] at h
      split at h
      · rename_i hrt
        cases h
        exact .destroy hrt
      · cases h

theorem step_rsLambda {e : Event ρ ν} (h : step s e = some s') (kind : Kind) :
    ((∀ rt, e ≠ .destroy rt) ∧ s'.rsLambda kind = s.rsLambda kind) ∨
      (∃ rt, e = .destroy rt ∧ s'.rsLambda kind = none) ∨
      ∃ rt f, e = .makeCallbackFunction kind rt (some f) ∧ s.rsLambda kind = none ∧
        s'.rsLambda kind = some ⟨rt, f⟩ := by
  cases step_cases h with
  | registerModule _ => exact .inl ⟨nofun, rfl⟩
  | keep _ _ => exact .inl ⟨nofun, rfl⟩
  | callback _ _ => exact .inl ⟨nofun, rfl⟩
  | destroy _ => exact .inr (.inl ⟨_, rfl, rfl⟩)
  | @fill kind' rt f hrt hempty =>
      by_cases hkind : kind = kind'
      · subst hkind
        exact .inr (.inr ⟨rt, f, rfl, hempty, Function.update_self ..⟩)
      · exact .inl ⟨nofun, Function.update_of_ne hkind _ _⟩

theorem mem_of_step {e : Event ρ ν} (h : step s e = some s') {rt : ρ} (he : e ≠ .destroy rt)
    (hrt : rt ∈ s.runtimes) : rt ∈ s'.runtimes := by
  cases step_cases h with
  | registerModule _ => exact List.mem_cons_of_mem _ hrt
  | fill _ _ _ => exact hrt
  | keep _ _ => exact hrt
  | callback _ _ => exact hrt
  | @destroy rt' _ =>
      refine List.mem_filter.mpr ⟨hrt, decide_eq_true fun heq => he ?_⟩
      rw [heq]

theorem runtimes_of_register {kind : Kind} {rt : ρ} {value : Option ν}
    (h : step s (.makeCallbackFunction kind rt value) = some s') :
    rt ∈ s.runtimes ∧ s'.runtimes = s.runtimes := by
  cases step_cases h with
  | fill _ hrt _ => exact ⟨hrt, rfl⟩
  | keep hrt _ => exact ⟨hrt, rfl⟩

/-- After a registration the static is filled, if not by it. -/
theorem filled_of_register {kind : Kind} {rt : ρ} {f : ν}
    (h : step s (.makeCallbackFunction kind rt (some f)) = some s') : s'.rsLambda kind ≠ none := by
  cases step_cases h with
  | fill _ _ _ =>
      show Function.update s.rsLambda kind (some ⟨rt, f⟩) kind ≠ none
      rw [Function.update_self]
      exact Option.some_ne_none _
  | keep _ hkeep => exact hkeep.resolve_right (Option.some_ne_none f)

theorem step_jobs {e : Event ρ ν} (h : step s e = some s') {job : Job ρ ν} (hjob : job ∈ s'.jobs) :
    job ∈ s.jobs ∨ e = .callback job.kind job.args ∧
      s.rsLambda job.kind = some ⟨job.rt, job.callbackValue⟩ := by
  cases step_cases h with
  | registerModule _ => exact .inl hjob
  | fill _ _ _ => exact .inl hjob
  | keep _ _ => exact .inl hjob
  | destroy _ => exact .inl hjob
  | callback kind args =>
      rcases List.mem_append.mp hjob with hold | hnew
      · exact .inl hold
      · unfold callback at hnew
        split at hnew
        · cases hnew
        · rename_i l hl
          cases List.mem_singleton.mp hnew
          exact .inr ⟨rfl, hl⟩

/-! ## The runtimes alone -/

/-- The runtimes a step leaves. -/
def standing (runtimes : List ρ) : Event ρ ν → Option (List ρ)
  | .registerModule rt => if rt ∈ runtimes then none else some (rt :: runtimes)
  | .makeCallbackFunction _ rt _ => if rt ∈ runtimes then some runtimes else none
  | .callback _ _ => some runtimes
  | .destroy rt => if rt ∈ runtimes then some (runtimes.filter (· ≠ rt)) else none

theorem map_runtimes_step (s : State ρ ν) (e : Event ρ ν) :
    (step s e).map State.runtimes = standing s.runtimes e := by
  cases e with
  | registerModule rt =>
      simp only [step, standing]
      split <;> rfl
  | makeCallbackFunction kind rt value =>
      simp only [step, standing]
      split
      · split <;> rfl
      · rfl
  | callback kind args => rfl
  | destroy rt =>
      simp only [step, standing]
      split <;> rfl

theorem map_runtimes_run (s : State ρ ν) (es : List (Event ρ ν)) :
    (run s es).map State.runtimes = es.foldlM standing s.runtimes := by
  induction es generalizing s with
  | nil => rfl
  | cons e es ih =>
      rw [run_cons, List.foldlM_cons, ← map_runtimes_step]
      cases step s e with
      | none => rfl
      | some s' => exact ih s'

theorem run_ne_none {t : State ρ ν} (hruntimes : s.runtimes = t.runtimes) (h : run s es ≠ none) :
    run t es ≠ none := by
  intro ht
  have hmap := map_runtimes_run t es
  rw [ht, ← hruntimes, ← map_runtimes_run s es] at hmap
  exact h (Option.map_eq_none_iff.mp hmap.symm)

/-! ## Whole runs -/

theorem exists_of_run_append {t : State ρ ν} {es' : List (Event ρ ν)}
    (h : run s (es ++ es') = some t) : ∃ s', run s es = some s' ∧ run s' es' = some t :=
  Option.bind_eq_some_iff.mp (run_append es' ▸ h)

theorem run_singleton (s : State ρ ν) (e : Event ρ ν) : run s [e] = step s e := by
  rw [run_cons]
  exact Option.bind_fun_some _

/-- A lambda stands for a registration that no destruction has followed, and its
runtime stands. -/
theorem registered (h : run init es = some s) {kind : Kind} {l : Lambda ρ ν}
    (hl : s.rsLambda kind = some l) :
    (∃ before mid, es = before ++ .makeCallbackFunction kind l.rt (some l.callbackValue) :: mid ∧
      ∀ rt, .destroy rt ∉ mid) ∧ l.rt ∈ s.runtimes := by
  induction es using List.reverseRecOn generalizing s with
  | nil =>
      cases h
      cases hl
  | append_singleton es e ih =>
      obtain ⟨s₀, hrun, hstep⟩ := exists_of_run_append h
      rw [run_singleton] at hstep
      rcases step_rsLambda hstep kind with ⟨hne, hsame⟩ | ⟨rt, rfl, hnone⟩ | ⟨rt, f, rfl, -, hnew⟩
      · rw [hsame] at hl
        obtain ⟨⟨before, mid, rfl, hmid⟩, hrt⟩ := ih hrun hl
        refine ⟨⟨before, mid ++ [e], by simp, fun rt hmem => ?_⟩,
          mem_of_step hstep (hne l.rt) hrt⟩
        rcases List.mem_append.mp hmem with hmem | hmem
        · exact hmid rt hmem
        · exact hne rt (List.mem_singleton.mp hmem).symm
      · rw [hnone] at hl
        cases hl
      · rw [hnew] at hl
        cases hl
        obtain ⟨hrt, hruntimes⟩ := runtimes_of_register hstep
        exact ⟨⟨es, [], rfl, fun _ => List.not_mem_nil⟩, hruntimes ▸ hrt⟩

/-- Whatever was enqueued was enqueued for a runtime that stood at the time, to call a
function it had registered since anything was last destroyed. -/
theorem jobs_stand (h : run init es = some s) {job : Job ρ ν} (hjob : job ∈ s.jobs) :
    ∃ before mid after s',
      es = before ++ .makeCallbackFunction job.kind job.rt (some job.callbackValue) :: mid ++
        .callback job.kind job.args :: after ∧
      (∀ rt, .destroy rt ∉ mid) ∧
      run init (before ++ .makeCallbackFunction job.kind job.rt (some job.callbackValue) :: mid) =
        some s' ∧
      job.rt ∈ s'.runtimes := by
  induction es using List.reverseRecOn generalizing s with
  | nil =>
      cases h
      cases hjob
  | append_singleton es e ih =>
      obtain ⟨s₀, hrun, hstep⟩ := exists_of_run_append h
      rw [run_singleton] at hstep
      rcases step_jobs hstep hjob with hold | ⟨rfl, hl⟩
      · obtain ⟨before, mid, after, s', rfl, hmid, hprefix, hrt⟩ := ih hrun hold
        exact ⟨before, mid, after ++ [e], s', by simp, hmid, hprefix, hrt⟩
      · obtain ⟨⟨before, mid, rfl, hmid⟩, hrt⟩ := registered hrun hl
        exact ⟨before, mid, [], s₀, rfl, hmid, hrun, hrt⟩

/-- A runtime that is called back, goes, and is not missed. -/
def oneLife : List (Event Nat Nat) :=
  [.registerModule 0, .makeCallbackFunction .foreignFutureDroppedCallback 0 (some 7),
    .callback .foreignFutureDroppedCallback 5, .destroy 0, .callback .foreignFutureDroppedCallback 6]

theorem jobs_stand_oneLife :
    ∃ before mid after s',
      oneLife = before ++ .makeCallbackFunction .foreignFutureDroppedCallback 0 (some 7) :: mid ++
        .callback .foreignFutureDroppedCallback 5 :: after ∧
      (∀ rt, .destroy rt ∉ mid) ∧
      run init (before ++ .makeCallbackFunction .foreignFutureDroppedCallback 0 (some 7) :: mid) =
        some s' ∧
      0 ∈ s'.runtimes := by
  have hrun : run init oneLife =
      some ⟨[], fun _ => none, [⟨0, 7, .foreignFutureDroppedCallback, 5⟩]⟩ := rfl
  exact jobs_stand hrun List.mem_cons_self

/-! ## Reloads -/

/-- A runtime comes or goes. -/
def Event.isReload : Event ρ ν → Bool
  | .registerModule _ => true
  | .destroy _ => true
  | _ => false

/-- Never do two runtimes stand at once. -/
def NoOverlap (reloads : List (Event ρ ν)) : Prop :=
  ∀ before after runtimes, reloads = before ++ after →
    before.foldlM standing [] = some runtimes → ∀ a ∈ runtimes, ∀ b ∈ runtimes, a = b

/-- A runtime that registers is called back itself, for as long as it stands. -/
def Wakes (es : List (Event ρ ν)) : Prop :=
  ∀ before kind rt f mid args after,
    es = before ++ .makeCallbackFunction kind rt (some f) :: mid ++ .callback kind args :: after →
      .destroy rt ∉ mid →
        ∃ s value, run init (before ++ .makeCallbackFunction kind rt (some f) :: mid) = some s ∧
          callback (s.rsLambda kind) kind args = some ⟨rt, value, kind, args⟩

theorem standing_filter {runtimes runtimes' : List ρ} {es : List (Event ρ ν)}
    (h : es.foldlM standing runtimes = some runtimes') :
    (es.filter Event.isReload).foldlM standing runtimes = some runtimes' := by
  induction es generalizing runtimes with
  | nil => exact h
  | cons e es ih =>
      rw [List.foldlM_cons] at h
      obtain ⟨r, he, h⟩ := Option.bind_eq_some_iff.mp h
      rw [List.filter_cons]
      split
      · rw [List.foldlM_cons, he]
        exact ih h
      · rename_i hreload
        have hsame : r = runtimes := by
          cases e with
          | registerModule rt => exact absurd rfl hreload
          | makeCallbackFunction kind rt value =>
              simp only [standing] at he
              split at he
              · exact (Option.some.inj he).symm
              · cases he
          | callback kind args => exact (Option.some.inj he).symm
          | destroy rt => exact absurd rfl hreload
        exact hsame ▸ ih h

theorem runtimes_of_run (h : run s es = some s') :
    es.foldlM standing s.runtimes = some s'.runtimes := by
  rw [← map_runtimes_run, h]
  rfl

theorem NoOverlap.runtime_eq {es : List (Event ρ ν)} (es' : List (Event ρ ν))
    (h : run init es = some s) (hover : NoOverlap ((es ++ es').filter Event.isReload)) :
    ∀ a ∈ s.runtimes, ∀ b ∈ s.runtimes, a = b := by
  refine hover (es.filter Event.isReload) (es'.filter Event.isReload) s.runtimes ?_ ?_
  · exact List.filter_append es es'
  · exact standing_filter (runtimes_of_run h)

/-- A static that is filled stays so while its runtime stands, if no other does. -/
theorem filled_of_run {rt : ρ} {kind : Kind} {es : List (Event ρ ν)} {s s' : State ρ ν}
    (h : run s es = some s') (hdestroy : .destroy rt ∉ es) (hrt : rt ∈ s.runtimes)
    (hone : ∀ es₁ es₂ t, es = es₁ ++ es₂ → run s es₁ = some t →
      ∀ a ∈ t.runtimes, ∀ b ∈ t.runtimes, a = b)
    (hfilled : s.rsLambda kind ≠ none) : rt ∈ s'.runtimes ∧ s'.rsLambda kind ≠ none := by
  induction es generalizing s with
  | nil =>
      cases h
      exact ⟨hrt, hfilled⟩
  | cons e es ih =>
      rw [run_cons] at h
      obtain ⟨t, hstep, h⟩ := Option.bind_eq_some_iff.mp h
      have he : e ≠ .destroy rt := fun heq => hdestroy (heq ▸ List.mem_cons_self)
      refine ih h (fun hmem => hdestroy (List.mem_cons_of_mem e hmem))
        (mem_of_step hstep he hrt) (fun es₁ es₂ u heq hu => ?_) ?_
      · refine hone (e :: es₁) es₂ u (by rw [heq]; rfl) ?_
        rw [run_cons, hstep]
        exact hu
      · rcases step_rsLambda hstep kind with ⟨-, hsame⟩ | ⟨rt', rfl, -⟩ | ⟨_, _, rfl, hnone, -⟩
        · rw [hsame]
          exact hfilled
        · -- what is destroyed stood, and so was the one that stands
          have hrt' : rt' ∈ s.runtimes := by
            cases step_cases hstep with
            | destroy hrt' => exact hrt'
          exact absurd (by rw [hone [] (.destroy rt' :: es) s rfl rfl rt' hrt' rt hrt]) he
        · exact absurd hnone hfilled

theorem rsLambda_of_reloads (h : run init es = some s) (hes : ∀ e ∈ es, e.isReload = true)
    (kind : Kind) : s.rsLambda kind = none := by
  cases hl : s.rsLambda kind with
  | none => rfl
  | some l =>
      obtain ⟨⟨before, mid, rfl, -⟩, -⟩ := registered h hl
      cases hes _ (List.mem_append_right before List.mem_cons_self)

/-- Of two runtimes that stand at once the second registers in vain. -/
theorem exists_not_wakes {before after : List (Event ρ ν)} (hbefore : run init before = some s)
    (hafter : run s after ≠ none) {a b : ρ} (ha : a ∈ s.runtimes) (hb : b ∈ s.runtimes)
    (hab : a ≠ b) {kind : Kind} (hempty : s.rsLambda kind = none) (f : ν) (args : kind.Args) :
    ∃ calls : List (Event ρ ν), calls.filter Event.isReload = [] ∧
      run init (before ++ calls ++ after) ≠ none ∧ ¬ Wakes (before ++ calls ++ after) := by
  obtain ⟨s₁, hstep, hl, hruntimes⟩ : ∃ s₁, step s (.makeCallbackFunction kind a (some f)) = some s₁ ∧
      s₁.rsLambda kind = some ⟨a, f⟩ ∧ s₁.runtimes = s.runtimes :=
    ⟨_, step_register ha hempty f, Function.update_self .., rfl⟩
  have hagain := step_registered (hruntimes ▸ hb) hl (some f)
  refine ⟨[.makeCallbackFunction kind a (some f), .makeCallbackFunction kind b (some f),
    .callback kind args], rfl, ?_, ?_⟩
  · rw [run_append, run_append, hbefore, Option.bind_some, run_cons, hstep, Option.bind_some,
      run_cons, hagain, Option.bind_some, run_singleton]
    exact run_ne_none hruntimes.symm hafter
  · intro hwakes
    obtain ⟨t, value, hrun, hcall⟩ := hwakes (before ++ [.makeCallbackFunction kind a (some f)])
      kind b f [] args after (by simp) List.not_mem_nil
    rw [run_append, run_append, hbefore, Option.bind_some, run_singleton, hstep, Option.bind_some,
      run_singleton, hagain] at hrun
    cases hrun
    rw [hl] at hcall
    cases hcall
    exact hab rfl

/-- Every runtime that registers is called back itself, in every run over these
reloads, exactly when they never have two runtimes stand at once. -/
theorem wakes_iff [Inhabited ν] (reloads : List (Event ρ ν))
    (hreloads : ∀ e ∈ reloads, e.isReload = true) (hrun : run init reloads ≠ none) :
    (∀ es, es.filter Event.isReload = reloads → run init es ≠ none → Wakes es) ↔
      NoOverlap reloads := by
  constructor
  · rintro hwakes before after runtimes rfl hbefore a ha b hb
    by_contra hab
    obtain ⟨t, ht⟩ := Option.ne_none_iff_exists'.mp hrun
    obtain ⟨s, hs, hafter⟩ := exists_of_run_append ht
    have hruntimes : s.runtimes = runtimes :=
      Option.some.inj ((runtimes_of_run hs).symm.trans hbefore)
    have hempty := rsLambda_of_reloads hs (fun e he => hreloads e (List.mem_append_left after he))
      .foreignFutureDroppedCallback
    obtain ⟨calls, hcalls, hruns, hnot⟩ := exists_not_wakes hs (Option.ne_none_iff_exists'.mpr ⟨t, hafter⟩)
      (hruntimes ▸ ha) (hruntimes ▸ hb) hab hempty default 0
    refine hnot (hwakes _ ?_ hruns)
    rw [List.filter_append, List.filter_append, hcalls, List.append_nil, ← List.filter_append]
    exact List.filter_eq_self.mpr hreloads
  · rintro hover es rfl hes before kind rt f mid args after rfl hdestroy
    obtain ⟨s', hs'⟩ := Option.ne_none_iff_exists'.mp hes
    obtain ⟨s, hs, -⟩ := exists_of_run_append hs'
    obtain ⟨s₀, hs₀, hmid⟩ := exists_of_run_append hs
    rw [run_cons] at hmid
    obtain ⟨s₁, hstep, hmid⟩ := Option.bind_eq_some_iff.mp hmid
    have hone : ∀ es₁ es₂ t, mid = es₁ ++ es₂ → run s₁ es₁ = some t →
        ∀ a ∈ t.runtimes, ∀ b ∈ t.runtimes, a = b := by
      rintro es₁ es₂ t rfl ht
      have hprefix : run init (before ++ .makeCallbackFunction kind rt (some f) :: es₁) = some t := by
        rw [run_append, hs₀, Option.bind_some, run_cons, hstep]
        exact ht
      exact NoOverlap.runtime_eq (es₂ ++ .callback kind args :: after) hprefix (by simpa using hover)
    obtain ⟨hstands, hruntimes⟩ := runtimes_of_register hstep
    obtain ⟨hrt, hfilled⟩ := filled_of_run hmid hdestroy (hruntimes ▸ hstands) hone
      (filled_of_register hstep)
    obtain ⟨l, hl⟩ := Option.ne_none_iff_exists'.mp hfilled
    have hself : l.rt = rt := hone mid [] s (List.append_nil mid).symm hmid l.rt
      (registered hs hl).2 rt hrt
    refine ⟨s, l.callbackValue, hs, ?_⟩
    rw [hl, ← hself]
    rfl

/-- The new runtime up before the old one is down. -/
theorem wakes_iff_overlap :
    ¬ ∀ es : List (Event Nat Nat), es.filter Event.isReload = [.registerModule 0, .registerModule 1] →
      run init es ≠ none → Wakes es := by
  have hrun : run (ν := Nat) init [.registerModule 0, .registerModule 1] ≠ none :=
    Option.some_ne_none (⟨[1, 0], fun _ => none, []⟩ : State Nat Nat)
  rw [wakes_iff [.registerModule 0, .registerModule 1] (by simp [Event.isReload]) hrun]
  intro hover
  have heq := hover [.registerModule 0, .registerModule 1] [] [1, 0] rfl rfl 1 List.mem_cons_self 0
    (List.mem_cons_of_mem 1 List.mem_cons_self)
  exact Nat.one_ne_zero heq

end AmbireCrypto.Callbacks
