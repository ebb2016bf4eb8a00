/-
# `AmbireCrypto.Ledger` — what calls leave behind

For any sequence of calls, whatever Rust does in each and however their arguments are
lowered:

* nothing faults: no buffer is freed twice or with another capacity than it has, and
  none is read after it was freed;
* each call is replied to by what belongs to its own arguments;
* what is left is counted exactly, call by call (`Call.left`).

Three things are never freed.  The memory an argument was lowered into in place, since
C++ copies it, and nobody keeps the view to free it by.  The message of the panic that a
length past `i32` makes of `rustbuffer_from_bytes`, since C++ drops that status.  And an
empty result that owns memory, since `rustbuffer_free` returns early on an empty view.
The first is what the comment on `rustbuffer_alloc` wants to avoid, and whether it occurs
is up to the runtime's converters; the other two take an argument of two gigabytes, or a
vector that was emptied.

Every step is described by what it adds to the heap or takes away from it, in the terms
of `Lib.Heap`; the proofs are chains of `Adds.trans` and `Adds.free`.  At the end a
scaffolding that does what `uniffi_core` documents shows that the assumptions can be met.
-/
import AmbireCrypto.Boundary
import AmbireCrypto.Lib.Utf8Lossy

namespace AmbireCrypto

open Heaps

/-! ## One buffer -/

namespace RustBuffer

variable {h h' : Heap} {b : RustBuffer} {bytes : List UInt8} {l : List Nat}

theorem mem_owned {a : Nat} : a ∈ b.owned ↔ b.capacity ≠ 0 ∧ a = b.data := by
  rw [owned]
  split
  · rename_i hcap
    simp only [hcap, List.not_mem_nil, ne_eq, not_true_eq_false, false_and]
  · rename_i hcap
    simp only [List.mem_singleton, ne_eq, hcap, not_false_eq_true, true_and]

theorem Owned.of_blocks_eq (hb : Owned h b bytes)
    (heq : ∀ a ∈ b.owned, h'.blocks a = h.blocks a) : Owned h' b bytes := by
  refine ⟨hb.len_eq, hb.le_capacity, fun hcap => ?_⟩
  rw [heq b.data (mem_owned.mpr ⟨hcap, rfl⟩)]
  exact hb.block hcap

theorem Owned.mono (hb : Owned h b bytes) (hadds : Adds h h' l) : Owned h' b bytes := by
  refine ⟨hb.len_eq, hb.le_capacity, fun hcap => ?_⟩
  obtain ⟨rest, hblock, hlen⟩ := hb.block hcap
  exact ⟨rest, hadds.blocks_of_some hblock, hlen⟩

theorem Owned.read (hb : Owned h b bytes) : b.read h = some bytes := by
  rw [RustBuffer.read]
  split
  · rename_i hlen
    rw [hb.len_eq] at hlen
    rw [List.length_eq_zero_iff.mp hlen]
  · rename_i hlen
    rw [hb.len_eq] at hlen
    have hle := hb.le_capacity
    obtain ⟨rest, hblock, -⟩ := hb.block (by omega)
    rw [hb.len_eq, Heap.read_of_block hblock (by rw [List.length_append]; omega), List.take_left]

theorem Owned.forget (hb : Owned h b bytes) : Owned h ⟨b.capacity, 0, b.data⟩ [] := by
  refine ⟨rfl, Nat.zero_le _, fun hcap => ?_⟩
  obtain ⟨rest, hblock, hlen⟩ := hb.block hcap
  refine ⟨bytes ++ rest, hblock, ?_⟩
  rw [List.length_nil, List.length_append, Nat.zero_add]
  exact hlen

theorem owned_of_default (h : Heap) : Owned h .default [] :=
  ⟨rfl, Nat.le_refl 0, fun hcap => absurd rfl hcap⟩

theorem IsVec.length_owned {spare : Nat} (hv : IsVec h bytes spare b h') :
    b.owned.length = if ownsMemory (bytes, spare) then 1 else 0 := by
  rw [RustBuffer.owned, hv.capacity_eq, ownsMemory]
  by_cases hzero : bytes.length + spare = 0
  · rw [if_pos hzero, hzero]
    rfl
  · rw [if_neg hzero, decide_eq_true (Nat.pos_of_ne_zero hzero)]
    rfl

end RustBuffer

/-! ## What comes back from Rust -/

namespace Returns

variable {h : Heap} {o : RustOutcome} {r : Returned}

theorem isVec {value : List UInt8} {spare : Nat} (hr : Returns h (.ok value spare) r) :
    RustBuffer.IsVec h value spare r.value r.heap := by
  cases hr with
  | ok hv => exact hv

theorem length_owned (hr : Returns h o r) (hempty : o.value = []) :
    r.value.owned.length = o.left := by
  cases hr with
  | @ok value spare b h' hv =>
      change value = [] at hempty
      subst hempty
      rw [hv.length_owned, RustOutcome.left, ownsMemory, List.length_nil, Nat.zero_add]
      simp only [decide_eq_true_eq, true_and]
  | err _ => rfl
  | panic _ => rfl
  | silent _ => rfl

theorem left_of_value_ne_nil (hne : o.value ≠ []) : o.left = 0 := by
  cases o with
  | ok value spare => exact if_neg fun hand => hne hand.1
  | err _ _ => exact absurd rfl hne
  | panic _ => exact absurd rfl hne

end Returns

section Steps

variable {φ ε α : Type} {S : Scaffolding φ} {u : UniffiRustCaller ε}

/-- An error, or the message of a panic, is copied out and its buffer freed; the value is
still to be freed. -/
theorem copyIntoJs_spec {h : Heap} {o : RustOutcome} {r : Returned} (hr : Returns h o r) :
    ∃ h', S.copyIntoJs r.heap r.status = some (o.status, h') ∧ Adds h h' r.value.owned ∧
      RustBuffer.Owned h' r.value o.value := by
  have hcopied : ∀ {code : Nat} {bytes : List UInt8} {spare : Nat} {b : RustBuffer} {h₁ : Heap},
      RustBuffer.IsVec h bytes spare b h₁ → ∃ h',
        S.copyIntoJs h₁ ⟨code, b⟩ = some (⟨code, some bytes⟩, h') ∧ Adds h h' [] := by
    intro code bytes spare b h₁ hv
    obtain ⟨status, h', hfree, hfreed⟩ := S.free_owned h₁ b bytes hv.owned
    refine ⟨h', ?_, Adds.free (by simpa using hv.adds) hfreed⟩
    simp only [Scaffolding.copyIntoJs, ne_eq, hv.data_ne, not_false_eq_true, if_true, hv.owned.read,
      Scaffolding.free, hfree, Option.bind_eq_bind, Option.bind_some, Option.map_eq_map,
      Option.map_some]
  cases hr with
  | ok hv => exact ⟨_, rfl, hv.adds, hv.owned⟩
  | err hv =>
      obtain ⟨h', hcopy, hadds⟩ := hcopied hv
      exact ⟨h', hcopy, hadds, RustBuffer.owned_of_default h'⟩
  | panic hv =>
      obtain ⟨h', hcopy, hadds⟩ := hcopied hv
      exact ⟨h', hcopy, hadds, RustBuffer.owned_of_default h'⟩
  | silent hblocks => exact ⟨_, rfl, .of_blocks_eq hblocks, RustBuffer.owned_of_default _⟩

/-! ## Arguments -/

/-- The array holds `bytes`. -/
def Uint8Array.Holds (h : Heap) (bytes : List UInt8) : Uint8Array → Prop
  | own b => b = bytes
  | view v => v.byteLength = bytes.length ∧
      (bytes ≠ [] → ∃ rest, h.blocks v.data = some (bytes ++ rest))

theorem Uint8Array.Holds.read {h : Heap} {bytes : List UInt8} {value : Uint8Array}
    (hv : value.Holds h bytes) : value.read h = some bytes := by
  cases value with
  | own b => exact congrArg some hv
  | view v =>
      obtain ⟨hlen, hblock⟩ := hv
      show (if v.byteLength = 0 then _ else _) = _
      rw [hlen]
      split
      · rename_i hzero
        rw [List.length_eq_zero_iff.mp hzero]
      · rename_i hpos
        obtain ⟨rest, hblock⟩ := hblock fun hnil => hpos (by rw [hnil]; rfl)
        rw [Heap.read_of_block hblock (by rw [List.length_append]; omega), List.take_left]

theorem Uint8Array.Holds.mono {h h' : Heap} {l : List Nat} {bytes : List UInt8} {value : Uint8Array}
    (hv : value.Holds h bytes) (hadds : Adds h h' l) : value.Holds h' bytes := by
  cases value with
  | own b => exact hv
  | view v =>
      refine ⟨hv.1, fun hne => ?_⟩
      obtain ⟨rest, hblock⟩ := hv.2 hne
      exact ⟨rest, hadds.blocks_of_some hblock⟩

theorem lower_refused {arg : Lowering} {message : String} (h : Heap)
    (hr : arg.refusal = some message) : arg.lower S h = some (.error message, h) := by
  cases arg with
  | own bytes => cases hr
  | inPlace bytes size fits =>
      rw [Lowering.refusal] at hr
      split at hr
      · rename_i hsize
        cases hr
        have hneg : ¬ (size : Int) < 0 := by omega
        simp only [Lowering.lower, Scaffolding.rustbufferAlloc, hneg, if_false, hsize, if_true]
      · cases hr

/-- Bytes can be written in place into a new vector, in its own block. -/
theorem exists_viewWrite {h h₁ : Heap} {b : RustBuffer} {old bytes : List UInt8} {spare : Nat}
    (hv : RustBuffer.IsVec h old spare b h₁) (hroom : bytes.length ≤ b.capacity) :
    ∃ h', View.write ⟨b.capacity, b.data, none⟩ h₁ bytes = some h' ∧ Adds h h' b.owned ∧
      (bytes ≠ [] → ∃ rest, h'.blocks b.data = some (bytes ++ rest)) := by
  rw [View.write, if_pos hroom]
  by_cases hnil : bytes = []
  · exact ⟨h₁, if_pos hnil, hv.adds, fun hne => absurd hnil hne⟩
  · have hpos := List.length_pos_iff.mpr hnil
    have hcap : b.capacity ≠ 0 := by omega
    obtain ⟨rest, hblock, hrest⟩ := hv.owned.block hcap
    have hlen : bytes.length ≤ (old ++ rest).length := by
      rw [List.length_append, hrest]
      exact hroom
    obtain ⟨h', hwrite, hblocks⟩ := Heap.exists_write hblock hlen
    have howned : b.owned = [b.data] := if_neg hcap
    rw [if_neg hnil, howned]
    refine ⟨h', hwrite, (howned ▸ hv.adds).of_write hblocks,
      fun _ => ⟨(old ++ rest).drop bytes.length, ?_⟩⟩
    rw [hblocks]
    exact if_pos rfl

theorem lower_accepted {arg : Lowering} (h : Heap) (hr : arg.refusal = none) :
    ∃ value h' added, arg.lower S h = some (.ok value, h') ∧ Adds h h' added ∧
      added.length = arg.left ∧ value.Holds h' arg.bytes := by
  cases arg with
  | own bytes => exact ⟨.own bytes, h, [], rfl, .refl h, rfl, rfl⟩
  | inPlace bytes size fits =>
      have hmax : ¬ (size : Int) > INT32_MAX := by
        intro hsize
        rw [Lowering.refusal, if_pos hsize] at hr
        cases hr
      have hneg : ¬ (size : Int) < 0 := by omega
      have hlt : size < 2 ^ 31 := by
        change ¬ (2 : Int) ^ 31 - 1 < size at hmax
        omega
      have hv := (S.alloc_returns h size hlt).isVec
      have hcap : (S.ffiRustbufferAlloc h size).value.capacity = size := by
        rw [hv.capacity_eq, List.length_replicate, Nat.add_zero]
      obtain ⟨h', hwrite, hadds, hblock⟩ := exists_viewWrite hv (hcap ▸ fits)
      have hlen : (S.ffiRustbufferAlloc h size).value.owned.length = if size = 0 then 0 else 1 := by
        rw [RustBuffer.owned, hcap]
        split <;> rfl
      refine ⟨.view ⟨bytes.length, (S.ffiRustbufferAlloc h size).value.data, none⟩, h', _, ?_, hadds,
        hlen, rfl, hblock⟩
      simp only [Lowering.lower, Scaffolding.rustbufferAlloc, hneg, hmax, hv.data_ne, if_false,
        hwrite, Option.bind_eq_bind, Option.bind_some]

theorem lowerArgs_refused {message : String} : ∀ (args : List Lowering) (h : Heap),
    args.findSome? Lowering.refusal = some message → ∃ h' added,
      lowerArgs S h args = some (.error message, h') ∧ Adds h h' added ∧
        added.length = ((args.takeWhile fun arg => arg.refusal.isNone).map Lowering.left).sum
  | [], _, hr => by cases hr
  | arg :: args, h, hr => by
      cases harg : arg.refusal with
      | some message' =>
          rw [List.findSome?_cons, harg] at hr
          cases hr
          refine ⟨h, [], ?_, .refl h, ?_⟩
          · simp only [lowerArgs, lower_refused h harg, Option.bind_eq_bind, Option.bind_some]
          · rw [List.takeWhile_cons, harg]
            rfl
      | none =>
          rw [List.findSome?_cons, harg] at hr
          obtain ⟨value, h₁, l₁, hlower, hadds₁, hlen₁, -⟩ := lower_accepted (S := S) h harg
          obtain ⟨h₂, l₂, hrun, hadds₂, hlen₂⟩ := lowerArgs_refused args h₁ hr
          refine ⟨h₂, l₁ ++ l₂, ?_, hadds₁.trans hadds₂, ?_⟩
          · simp only [lowerArgs, hlower, hrun, Option.bind_eq_bind, Option.bind_some]
            rfl
          · rw [List.takeWhile_cons, harg]
            show _ = ((arg :: _).map Lowering.left).sum
            rw [List.length_append, List.map_cons, List.sum_cons, hlen₁, hlen₂]

theorem lowerArgs_accepted : ∀ (args : List Lowering) (h : Heap),
    args.findSome? Lowering.refusal = none → ∃ values h' added,
      lowerArgs S h args = some (.ok values, h') ∧ Adds h h' added ∧
        added.length = (args.map Lowering.left).sum ∧
        List.Forall₂ (fun value arg => value.Holds h' arg.bytes) values args
  | [], h, _ => ⟨[], h, [], rfl, .refl h, rfl, .nil⟩
  | arg :: args, h, hr => by
      cases harg : arg.refusal with
      | some message =>
          rw [List.findSome?_cons, harg] at hr
          cases hr
      | none =>
          rw [List.findSome?_cons, harg] at hr
          obtain ⟨value, h₁, l₁, hlower, hadds₁, hlen₁, hholds⟩ := lower_accepted (S := S) h harg
          obtain ⟨values, h₂, l₂, hrun, hadds₂, hlen₂, hall⟩ := lowerArgs_accepted args h₁ hr
          refine ⟨value :: values, h₂, l₁ ++ l₂, ?_, hadds₁.trans hadds₂, ?_,
            .cons (hholds.mono hadds₂) hall⟩
          · simp only [lowerArgs, hlower, hrun, Option.bind_eq_bind, Option.bind_some]
            rfl
          · rw [List.length_append, List.map_cons, List.sum_cons, hlen₁, hlen₂]

theorem asInt32_range (n : Nat) : -2 ^ 31 ≤ asInt32 n ∧ asInt32 n < 2 ^ 31 :=
  ⟨Int.le_bmod (x := n) (m := 2 ^ 32) (Nat.two_pow_pos 32),
    Int.bmod_lt (x := n) (m := 2 ^ 32) (Nat.two_pow_pos 32)⟩

/-- The copy of an argument, and what is dropped on the way. -/
theorem rustbufferFromBytes_spec (h : Heap) (arg : Lowering) :
    ∃ b h' dropped,
      S.rustbufferFromBytes h arg.bytes (asInt32 arg.bytes.length) = (b, h') ∧
        Adds h h' (b.owned ++ dropped) ∧ dropped.length = arg.dropped S ∧
        RustBuffer.Owned h' b (received arg.bytes) := by
  by_cases hneg : asInt32 arg.bytes.length < 0
  · have hnil : received arg.bytes = [] := by
      rw [received, Int.toNat_of_nonpos hneg.le, List.take_zero]
    have hr := S.fromBytes_negative h arg.bytes _ (asInt32_range arg.bytes.length).1 hneg
    rw [hnil, Scaffolding.rustbufferFromBytes]
    simp only [Lowering.dropped, hneg, true_and]
    generalize S.ffiRustbufferFromBytes h arg.bytes (asInt32 arg.bytes.length) = r at hr
    cases hmessage : S.negativeLength with
    | none =>
        rw [hmessage] at hr
        cases hr with
        | silent hblocks =>
            exact ⟨_, _, [], rfl, .of_blocks_eq hblocks, rfl, RustBuffer.owned_of_default _⟩
    | some message =>
        rw [hmessage] at hr
        cases hr with
        | @panic bytes spare b h' hv =>
            exact ⟨_, _, b.owned, rfl, hv.adds, hv.length_owned, RustBuffer.owned_of_default _⟩
  · have hnat : ((asInt32 arg.bytes.length).toNat : Int) = asInt32 arg.bytes.length :=
      Int.toNat_of_nonneg (not_lt.mp hneg)
    have hlt : (asInt32 arg.bytes.length).toNat < 2 ^ 31 := by
      have hrange := (asInt32_range arg.bytes.length).2
      omega
    obtain ⟨spare, hr⟩ := S.fromBytes_returns h arg.bytes _ hlt
    rw [hnat] at hr
    refine ⟨_, _, [], rfl, ?_, ?_, hr.isVec.owned⟩
    · rw [List.append_nil]
      exact hr.isVec.adds
    · rw [Lowering.dropped, if_neg fun hand => hneg hand.1]
      rfl

theorem fromJs_spec : ∀ {values : List Uint8Array} {args : List Lowering} (h : Heap),
    List.Forall₂ (fun value arg => value.Holds h arg.bytes) values args →
      ∃ bufs h' dropped, S.fromJs h values = some (bufs, h') ∧
        Adds h h' (bufs.flatMap RustBuffer.owned ++ dropped) ∧
        dropped.length = (args.map (Lowering.dropped S)).sum ∧
        List.Forall₂ (RustBuffer.Owned h') bufs (args.map fun arg => received arg.bytes)
  | [], [], h, _ => ⟨[], h, [], rfl, .refl h, rfl, .nil⟩
  | value :: values, arg :: args, h, .cons hvalue hvalues => by
      obtain ⟨b, h₁, l₁, hcopy, hadds₁, hlen₁, howned⟩ := rustbufferFromBytes_spec (S := S) h arg
      obtain ⟨bufs, h₂, l₂, hrun, hadds₂, hlen₂, hall⟩ :=
        fromJs_spec h₁ (hvalues.imp fun _ _ hv => hv.mono hadds₁)
      refine ⟨b :: bufs, h₂, l₁ ++ l₂, ?_, (hadds₁.trans hadds₂).perm ?_, ?_,
        .cons (howned.mono hadds₂) hall⟩
      · simp only [Scaffolding.fromJs, hvalue.read, hcopy, hrun, Option.bind_eq_bind,
          Option.bind_some]
      · rw [List.flatMap_cons, List.append_assoc, List.append_assoc]
        refine List.Perm.append_left _ ?_
        rw [← List.append_assoc, ← List.append_assoc]
        exact List.perm_append_comm.append_right _
      · rw [List.length_append, List.map_cons, List.sum_cons, hlen₁, hlen₂]

/-! ## One call -/

theorem received_eq {bytes : List UInt8} (hlen : bytes.length < 2 ^ 31) : received bytes = bytes := by
  have hbmod : asInt32 bytes.length = bytes.length := Int.bmod_eq_of_le (by omega) (by omega)
  rw [received, hbmod, Int.toNat_natCast, List.take_length]

theorem asDouble_eq {n : Nat} (hn : n ≤ 2 ^ 53) : asDouble n = n := if_pos hn

/-- Through its view a buffer is freed with its own capacity, unless it is empty. -/
theorem rustbufferFree_toJs {h : Heap} {b : RustBuffer} {bytes : List UInt8}
    (hb : RustBuffer.Owned h b bytes) (hcap : b.capacity ≤ 2 ^ 53) (hne : bytes ≠ []) :
    ∃ h', S.rustbufferFree h (Scaffolding.toJs b) = some h' ∧ Adds h' h b.owned := by
  have hlen : (Scaffolding.toJs b).byteLength = bytes.length := hb.len_eq
  have hpos := List.length_pos_iff.mpr hne
  have hcapacity : (Scaffolding.toJs b).rustCapacity.getD (Scaffolding.toJs b).byteLength = b.capacity := by
    show (if b.capacity ≠ b.len then some (asDouble b.capacity) else none).getD b.len = _
    rw [asDouble_eq hcap]
    split
    · rfl
    · rename_i heq
      exact (not_not.mp heq).symm
  obtain ⟨status, h', hfree, hfreed⟩ := S.free_owned h _ [] hb.forget
  refine ⟨h', ?_, hfreed⟩
  rw [Scaffolding.rustbufferFree, if_neg (by omega), hcapacity, Scaffolding.free]
  exact congrArg (Prod.snd <$> ·) hfree

namespace Call

variable {c : Call φ ε α}

theorem finish_spec {h h₁ : Heap} {o : RustOutcome} {r : Returned} (hr : Returns h o r)
    (ho : o.Fits) (hadds : Adds h h₁ r.value.owned) (howned : RustBuffer.Owned h₁ r.value o.value) :
    ∃ h' left, c.finish S u h₁ (Scaffolding.toJs r.value) o.status = some (c.replyTo u o, h') ∧
      Adds h h' left ∧ left.length = o.left := by
  have hread : (Scaffolding.toJs r.value).read h₁ = some o.value := howned.read
  rw [Call.finish, replyTo]
  cases hcheck : u.checkCallStatus c.liftError o.status with
  | some e =>
      have hvalue : o.value = [] := by
        cases o with
        | ok value spare => cases hcheck.symm.trans (u.success _ _)
        | err _ _ => rfl
        | panic _ => rfl
      exact ⟨h₁, r.value.owned, rfl, hadds, hr.length_owned hvalue⟩
  | none =>
      simp only [hread, Option.bind_eq_bind, Option.bind_some]
      by_cases hnil : o.value = []
      · have hzero : (Scaffolding.toJs r.value).byteLength = 0 := by
          show r.value.len = 0
          rw [howned.len_eq, hnil]
          rfl
        refine ⟨h₁, r.value.owned, ?_, hadds, hr.length_owned hnil⟩
        rw [Scaffolding.rustbufferFree, if_pos hzero]
        rfl
      · have hcap : r.value.capacity ≤ 2 ^ 53 := by
          cases hr with
          | ok hv => exact hv.capacity_eq ▸ ho
          | err _ => exact absurd rfl hnil
          | panic _ => exact absurd rfl hnil
          | silent _ => exact absurd rfl hnil
        obtain ⟨h', hfree, hfreed⟩ := rustbufferFree_toJs (S := S) howned hcap hnil
        refine ⟨h', [], ?_, Adds.free (by rwa [List.append_nil]) hfreed, ?_⟩
        · rw [hfree]
          rfl
        · exact (Returns.left_of_value_ne_nil hnil).symm

theorem run_spec (c : Call φ ε α) (h : Heap) (hfits : (c.outcome S).Fits) :
    ∃ h' left, c.run S u h = some (c.reply S u, h') ∧ Adds h h' left ∧ left.length = c.left S := by
  rw [reply, Call.left]
  cases hrefusal : c.args.findSome? Lowering.refusal with
  | some message =>
      obtain ⟨h', left, hlower, hadds, hlen⟩ := lowerArgs_refused (S := S) c.args h hrefusal
      refine ⟨h', left, ?_, hadds, hlen⟩
      simp only [run, hlower, Option.bind_eq_bind, Option.bind_some]
  | none =>
      obtain ⟨values, h₁, l₁, hlower, hadds₁, hlen₁, hholds⟩ :=
        lowerArgs_accepted (S := S) c.args h hrefusal
      obtain ⟨bufs, h₂, dropped, hcopy, hadds₂, hlen₂, howned⟩ := fromJs_spec (S := S) h₁ hholds
      -- Rust takes the copies back, and leaves what was dropped
      obtain ⟨r, g, hcall, hfreed, hr⟩ := S.fnFunc_returns c.fn h₂ bufs _ howned
        (List.nodup_append.mp hadds₂.nodup).1
      obtain ⟨h₃, hcopied, hadds₃, hvalue⟩ := copyIntoJs_spec (S := S) hr
      obtain ⟨h₄, l₄, hfinish, hadds₄, hlen₄⟩ := finish_spec (u := u) (c := c) hr hfits hadds₃ hvalue
      refine ⟨h₄, l₁ ++ dropped ++ l₄, ?_, (hadds₁.trans (hadds₂.free hfreed)).trans hadds₄, ?_⟩
      · simp only [run, Scaffolding.cppFnFunc, hlower, hcopy, hcall, hcopied, Option.bind_eq_bind,
          Option.bind_some]
        exact hfinish
      · rw [List.length_append, List.length_append, hlen₁, hlen₂, hlen₄]
        rfl

end Call

end Steps

/-! ## As documented -/

/-- `UniffiRustCaller`, with the names of its own errors. -/
def uniffiRustCaller {ε : Type} (internal : String → ε) : UniffiRustCaller ε where
  checkCallStatus := fun liftError status =>
    match status.code with
    | 0 => none
    | 1 =>
        match liftError, status.errorBuf with
        | some lift, some errorBuf => some (lift errorBuf)
        | _, _ => some (internal "UnexpectedRustCallError")
    | 2 =>
        match status.errorBuf with
        | some (byte :: bytes) => some (internal (String.ofList (Utf8Lossy.decode (byte :: bytes))))
        | _ => some (internal "Rust panic")
    | 3 => some (internal "AbortError")
    | _ => some (internal "UnexpectedRustCallStatusCode")
  success := fun _ _ => rfl
  error := fun _ _ => rfl

namespace UniffiCore

/-- The address of a vector that owns no memory. -/
def dangling : Nat := 1

def ofVec (h : Heap) (bytes : List UInt8) (spare : Nat) : RustBuffer × Heap :=
  if bytes.length + spare = 0 then (⟨0, 0, dangling⟩, h)
  else (⟨bytes.length + spare, bytes.length, h.next⟩, h.alloc (bytes ++ List.replicate spare 0))

theorem isVec_ofVec (h : Heap) (bytes : List UInt8) (spare : Nat) :
    RustBuffer.IsVec h bytes spare (ofVec h bytes spare).1 (ofVec h bytes spare).2 := by
  rw [ofVec]
  split
  · rename_i hzero
    have hnil : bytes = [] := List.length_eq_zero_iff.mp (by omega)
    subst hnil
    exact ⟨⟨rfl, Nat.le_refl 0, fun hcap => absurd rfl hcap⟩, hzero.symm, Nat.one_ne_zero, .refl h⟩
  · rename_i hpos
    refine ⟨⟨rfl, Nat.le_add_right _ _, fun _ => ⟨List.replicate spare 0, if_pos rfl, ?_⟩⟩, rfl,
      h.next_pos.ne', ?_⟩
    · rw [List.length_replicate]
    · rw [RustBuffer.owned, if_neg hpos]
      exact .of_alloc h _

/-- `rust_call`. -/
def rustCall (h : Heap) : RustOutcome → Returned
  | .ok value spare => ⟨(ofVec h value spare).1, ⟨0, .default⟩, (ofVec h value spare).2⟩
  | .err error spare => ⟨.default, ⟨1, (ofVec h error spare).1⟩, (ofVec h error spare).2⟩
  | .panic none => ⟨.default, ⟨2, .default⟩, h⟩
  | .panic (some (message, spare)) =>
      ⟨.default, ⟨2, (ofVec h message spare).1⟩, (ofVec h message spare).2⟩

theorem returns_rustCall (h : Heap) (o : RustOutcome) : Returns h o (rustCall h o) := by
  cases o with
  | ok value spare => exact .ok (isVec_ofVec h value spare)
  | err error spare => exact .err (isVec_ofVec h error spare)
  | panic message =>
      cases message with
      | none => exact .silent rfl
      | some m => exact .panic (isVec_ofVec h m.1 m.2)

def destroy (h : Heap) (b : RustBuffer) : Option Heap :=
  if b.capacity = 0 then some h else h.free b.data b.capacity

theorem exists_destroy {h : Heap} {b : RustBuffer} {bytes : List UInt8}
    (hb : RustBuffer.Owned h b bytes) : ∃ h', destroy h b = some h' ∧ Adds h' h b.owned := by
  rw [destroy, RustBuffer.owned]
  split
  · exact ⟨h, rfl, .refl h⟩
  · rename_i hcap
    obtain ⟨rest, hblock, hlen⟩ := hb.block hcap
    obtain ⟨h', hfree, hfreed⟩ := Adds.exists_free hblock
    rw [List.length_append, hlen] at hfree
    exact ⟨h', hfree, hfreed⟩

/-- A function reads its arguments, and the copies are destroyed. -/
def takeArgs (h : Heap) : List RustBuffer → Option (List (List UInt8) × Heap)
  | [] => some ([], h)
  | b :: bs => do
      let bytes ← b.read h
      let h ← destroy h b
      let (inputs, h) ← takeArgs h bs
      some (bytes :: inputs, h)

theorem takeArgs_spec : ∀ {bufs : List RustBuffer} {inputs : List (List UInt8)} (h : Heap),
    List.Forall₂ (RustBuffer.Owned h) bufs inputs → (bufs.flatMap RustBuffer.owned).Nodup →
      ∃ g, takeArgs h bufs = some (inputs, g) ∧ Adds g h (bufs.flatMap RustBuffer.owned)
  | [], [], h, _, _ => ⟨h, rfl, .refl h⟩
  | b :: bufs, bytes :: inputs, h, .cons hb hbufs, hnodup => by
      rw [List.flatMap_cons] at hnodup ⊢
      obtain ⟨-, hrest, hdisjoint⟩ := List.nodup_append.mp hnodup
      obtain ⟨h₁, hfree, hfreed⟩ := exists_destroy hb
      have hstill : List.Forall₂ (RustBuffer.Owned h₁) bufs inputs := by
        rw [List.forall₂_iff_get] at hbufs ⊢
        refine ⟨hbufs.1, fun i hi hi' => (hbufs.2 i hi hi').of_blocks_eq fun a ha => ?_⟩
        have hmem : a ∈ bufs.flatMap RustBuffer.owned :=
          List.mem_flatMap.mpr ⟨_, List.get_mem bufs ⟨i, hi⟩, ha⟩
        exact (hfreed.blocks_eq fun hown => hdisjoint a hown a hmem rfl).symm
      obtain ⟨g, htake, htaken⟩ := takeArgs_spec h₁ hstill hrest
      refine ⟨g, ?_, (htaken.trans hfreed).perm List.perm_append_comm⟩
      simp only [takeArgs, hb.read, hfree, htake, Option.bind_eq_bind, Option.bind_some]

/-- What is said of a negative length. -/
def negativeLength : List UInt8 := Utf8Lossy.encode "bytes length negative or overflowed".toList

/-- The scaffolding around functions that end like this. -/
def scaffolding {φ : Type} (outcome : φ → List (List UInt8) → RustOutcome) : Scaffolding φ where
  ffiRustbufferAlloc := fun h size => rustCall h (.ok (List.replicate size.toNat 0) 0)
  ffiRustbufferFree := fun h b => (fun h' => (⟨0, .default⟩, h')) <$> destroy h b
  ffiRustbufferFromBytes := fun h bytes len =>
    if len < 0 then rustCall h (.panic (some (negativeLength, 0)))
    else rustCall h (.ok (bytes.take len.toNat) 0)
  fnFunc := fun f h bufs => (fun r => rustCall r.2 (outcome f r.1)) <$> takeArgs h bufs
  outcome := outcome
  negativeLength := some (negativeLength, 0)
  alloc_returns := fun h n _ => returns_rustCall h _
  fromBytes_returns := fun h bytes n _ => ⟨0, by
    rw [if_neg (by omega), Int.toNat_natCast]
    exact returns_rustCall h _⟩
  fromBytes_negative := fun h bytes i _ hi => by
    rw [if_pos hi]
    exact returns_rustCall h _
  free_owned := fun h b bytes hb => by
    obtain ⟨h', hfree, hfreed⟩ := exists_destroy hb
    exact ⟨_, h', by rw [hfree]; rfl, hfreed⟩
  fnFunc_returns := fun f h bufs inputs hbufs hnodup => by
    obtain ⟨g, htake, htaken⟩ := takeArgs_spec h hbufs hnodup
    exact ⟨_, g, by rw [htake]; rfl, htaken, returns_rustCall g _⟩

end UniffiCore

/-! ## Any number of calls -/

/-- Called with whatever is to be handed to Rust. -/
abbrev SomeCall := Call (List (List UInt8) → RustOutcome) String (List UInt8)

def echo (bytes : List UInt8) : SomeCall := ⟨fun inputs => .ok inputs.flatten 0, none, .ok, [.own bytes]⟩

theorem echo_negative {bytes : List UInt8} (hneg : asInt32 bytes.length < 0) :
    (echo bytes).outcome (UniffiCore.scaffolding id) = .ok [] 0 ∧
      (echo bytes).reply (UniffiCore.scaffolding id) (uniffiRustCaller id) = .ok [] ∧
      (echo bytes).left (UniffiCore.scaffolding id) = 1 := by
  have hreceived : received bytes = [] := by
    rw [received, Int.toNat_of_nonpos hneg.le, List.take_zero]
  have houtcome : (echo bytes).outcome (UniffiCore.scaffolding id) = .ok [] 0 := by
    show RustOutcome.ok [received bytes].flatten 0 = _
    rw [hreceived]
    rfl
  have hdropped : (Lowering.own bytes).dropped (UniffiCore.scaffolding (φ := List (List UInt8) → _) id) = 1 :=
    if_pos ⟨hneg, rfl⟩
  refine ⟨houtcome, ?_, ?_⟩
  · rw [Call.reply, houtcome]
    rfl
  · show [0].sum + [(Lowering.own bytes).dropped _].sum + ((echo bytes).outcome _).left = 1
    rw [houtcome, hdropped]
    rfl

/-- A result with capacity to spare, for arguments lowered in both ways; an error; an
empty result that owns memory; the long argument; and one too long for
`rustbuffer_alloc`, after one that was not. -/
def someCalls : List SomeCall :=
  [⟨fun inputs => .ok inputs.flatten 5, none, .ok, [.own [0, 1], .own [], .inPlace [2] 4 (by decide)]⟩,
   ⟨fun _ => .err [0, 0, 0, 4] 4, some fun _ => "lifted", .ok, [.own [3]]⟩,
   ⟨fun _ => .ok [] 8, none, .ok, []⟩,
   echo (List.replicate (2 ^ 31) 0),
   ⟨fun _ => .ok [4] 0, none, .ok, [.inPlace [7] 1 (by decide), .inPlace [] (2 ^ 31) (Nat.zero_le _)]⟩]

end AmbireCrypto
