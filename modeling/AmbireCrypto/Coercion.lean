/-
# `AmbireCrypto.Coercion` — what comes out of `jsonToValue` is what alloy wants

`jsonToValue` never looks at the resolved type above the leaves: it reads arrays
off the type string and tuples off the components.  alloy checks the result
against its own parse.  Proved here: whenever a parameter resolves and the JSON is
accepted, the value matches the resolved type at every node, its integers are in
their width and its byte words are zero behind their bytes — so
`abi_encode_input` has nothing left to refuse (`coercion_sound`).

## How it is put together

The first half is the inversion of each function: what an `Ok` says about the
input.  Everything later that reasons from an accepted argument starts there.

* Leaves: `coerceScalar_sound`, one case for each scalar type, on top of the
  parsers of `Lib.Numeral` and `Lib.HexCodec`.
* Arrays and tuples: `jsonToValue_array_eq_ok_iff` and `jsonToValue_tuple_eq_ok_iff`,
  which `jsonToValue_cases` turns into one case distinction.
* `Reads` is the relation of an argument to the arguments read below it, for statements
  about a leaf wherever it stands (`Reads.accepted`).

## What is assumed

Of alloy's encoder only that it fails on nothing but values that do not match their
types (`Deps.abiEncodeInput_ok`), and of the types what `TypeGrammar` lists.  The
bytes of the encoding play no part.
-/
import AmbireCrypto.Reference

namespace AmbireCrypto

open Traverse

/-! ## Leaves -/

namespace Deps

variable {D : Deps}

theorem coerceUint_of_parsed {size : Nat} {decimal : String} {w : U256}
    (h : u256FromStrRadix10 decimal = .ok w) :
    D.coerceUint size decimal =
      if w.toNat < 2 ^ size then .ok (.uint w size)
      else .error (.integerOutOfRange decimal ("uint" ++ size.repr)) := by
  rw [coerceUint, h]
  show (if _ then _ else _) = _
  rw [← ite_not]
  exact if_congr (not_lt.trans Width.bitLen_le_iff) rfl rfl

theorem coerceInt_of_parsed {size : Nat} (hsize : 0 < size) {decimal : String} {w : U256}
    (h : i256FromDecStr decimal = .ok w) :
    D.coerceInt size decimal =
      if -(2 ^ (size - 1)) ≤ w.toInt ∧ w.toInt < 2 ^ (size - 1) then .ok (.int w size)
      else .error (.integerOutOfRange decimal ("int" ++ size.repr)) := by
  obtain ⟨k, rfl⟩ : ∃ k, size = k + 1 := ⟨size - 1, by omega⟩
  rw [coerceInt, h]
  show (if _ then _ else _) = _
  rw [← ite_not]
  exact if_congr (not_lt.trans Width.signedBits_le_iff) rfl rfl

theorem coerceUint_eq_ok_iff {size : Nat} {decimal : String} {d : DynSolValue} :
    D.coerceUint size decimal = .ok d ↔
      ∃ w, u256FromStrRadix10 decimal = .ok w ∧ w.toNat < 2 ^ size ∧ d = .uint w size := by
  cases hparse : u256FromStrRadix10 decimal with
  | error e =>
      rw [coerceUint, hparse]
      exact ⟨nofun, nofun⟩
  | ok w =>
      rw [coerceUint_of_parsed hparse]
      constructor
      · intro h
        split at h
        · rename_i hlt
          cases h
          exact ⟨w, rfl, hlt, rfl⟩
        · cases h
      · rintro ⟨_, hw, hlt, rfl⟩
        cases hw
        exact if_pos hlt

theorem coerceInt_eq_ok_iff {size : Nat} (hsize : 0 < size) {decimal : String}
    {d : DynSolValue} :
    D.coerceInt size decimal = .ok d ↔
      ∃ w, i256FromDecStr decimal = .ok w ∧
        (-(2 ^ (size - 1)) ≤ w.toInt ∧ w.toInt < 2 ^ (size - 1)) ∧ d = .int w size := by
  cases hparse : i256FromDecStr decimal with
  | error e =>
      rw [coerceInt, hparse]
      exact ⟨nofun, nofun⟩
  | ok w =>
      rw [coerceInt_of_parsed hsize hparse]
      constructor
      · intro h
        split at h
        · rename_i hrange
          cases h
          exact ⟨w, rfl, hrange, rfl⟩
        · cases h
      · rintro ⟨_, hw, hrange, rfl⟩
        cases hw
        exact if_pos hrange

theorem drop_wordOfPrefix {bytes : List UInt8} (h : bytes.length ≤ 32) :
    ∀ b ∈ (wordOfPrefix bytes).bytes.drop bytes.length, b = 0 := by
  intro b hb
  have hword : (wordOfPrefix bytes).bytes = bytes ++ List.replicate (32 - bytes.length) 0 := by
    show (bytes ++ List.replicate 32 0).take 32 = _
    rw [List.take_append, List.take_of_length_le h, List.take_replicate]
    congr 2
    omega
  rw [hword, List.drop_left] at hb
  exact List.eq_of_mem_replicate hb

theorem coerceFixedBytes_eq_ok_iff {n : Nat} {bytes : List UInt8} {d : DynSolValue} :
    coerceFixedBytes n bytes = .ok d ↔ bytes.length = n ∧ d = .fixedBytes (wordOfPrefix bytes) n := by
  simp only [coerceFixedBytes]
  constructor
  · intro h
    split at h
    · cases h
    · rename_i hn
      cases h
      exact ⟨not_not.mp hn, rfl⟩
  · rintro ⟨hn, rfl⟩
    exact if_neg (not_not.mpr hn)

/-- A coerced scalar is of its type, and its word says what its width allows. -/
theorem coerceScalar_sound {t : DynSolType} {v : Value} {d : DynSolValue} (hw : t.WidthsOk)
    (h : D.coerceScalar t v = .ok d) :
    t.Matches d ∧ d.Canonical := by
  cases t with
  | bool =>
      cases v with
      | bool b =>
          cases h
          exact ⟨trivial, fun x hx => by cases hx; exact ⟨trivial, trivial⟩⟩
      | _ => cases h
  | uint size =>
      obtain ⟨decimal, -, h⟩ := bind_eq_ok.mp h
      obtain ⟨w, -, hlt, rfl⟩ := coerceUint_eq_ok_iff.mp h
      exact ⟨rfl, fun x hx => by cases hx; exact ⟨hlt, trivial⟩⟩
  | int size =>
      obtain ⟨decimal, -, h⟩ := bind_eq_ok.mp h
      obtain ⟨w, -, hrange, rfl⟩ := (coerceInt_eq_ok_iff hw.1).mp h
      exact ⟨rfl, fun x hx => by cases hx; exact ⟨hrange, trivial⟩⟩
  | fixedBytes n =>
      obtain ⟨bytes, -, h⟩ := bind_eq_ok.mp h
      obtain ⟨hlen, rfl⟩ := coerceFixedBytes_eq_ok_iff.mp h
      subst hlen
      exact ⟨rfl, fun x hx => by cases hx; exact ⟨trivial, drop_wordOfPrefix hw.2⟩⟩
  | address =>
      obtain ⟨a, -, rfl⟩ := map_eq_ok.mp h
      exact ⟨trivial, fun x hx => by cases hx; exact ⟨trivial, trivial⟩⟩
  | bytes =>
      obtain ⟨b, -, rfl⟩ := map_eq_ok.mp h
      exact ⟨trivial, fun x hx => by cases hx; exact ⟨trivial, trivial⟩⟩
  | string =>
      obtain ⟨s, -, rfl⟩ := map_eq_ok.mp h
      exact ⟨trivial, fun x hx => by cases hx; exact ⟨trivial, trivial⟩⟩
  | function => cases h
  | array inner => cases h
  | fixedArray inner size => cases h
  | tuple fields => cases h

/-! ## Arrays and tuples -/

end Deps

theorem checkLength_eq_ok_iff {ty : String} {len : Option Nat} {actual : Nat} {u : Unit} :
    checkLength ty len actual = .ok u ↔ ∀ k, len = some k → actual = k := by
  cases len with
  | none => exact ⟨fun _ => nofun, fun _ => rfl⟩
  | some expected =>
      show (if _ then _ else _) = _ ↔ _
      constructor
      · intro h k hk
        cases hk
        split at h
        · cases h
        · rename_i heq
          exact not_not.mp heq
      · intro h
        exact if_neg (not_not.mpr (h expected rfl))

/-- What an object holds for a component. -/
def fieldAt (entries : List (String × Value)) (component : Param) : Except AbiError Value :=
  match entries.lookup component.name with
  | none => .error (missingField component)
  | some field => .ok field

theorem fieldAt_eq_ok_iff {entries : List (String × Value)} {component : Param} {field : Value} :
    fieldAt entries component = .ok field ↔ entries.lookup component.name = some field := by
  simp only [fieldAt]
  cases entries.lookup component.name with
  | none => exact ⟨nofun, nofun⟩
  | some f => exact ⟨fun h => congrArg _ (Except.ok.inj h), fun h => congrArg _ (Option.some.inj h)⟩

/-- The JSON of each field of a tuple, in component order. -/
def tupleFields (components : List Param) : Value → Except AbiError (List Value)
  | .object entries => components.mapM (fieldAt entries)
  | .array items =>
      if items.length ≠ components.length then
        .error (arityMismatch "tuple fields" components.length items.length)
      else .ok items
  | _ => .error (.invalidArgument "expected an object or array for a tuple")

theorem tupleFields_array_eq_ok_iff {components : List Param} {items fields : List Value} :
    tupleFields components (.array items) = .ok fields ↔
      items.length = components.length ∧ fields = items := by
  show (if _ then _ else _) = _ ↔ _
  constructor
  · intro h
    split at h
    · cases h
    · rename_i hlen
      cases h
      exact ⟨not_not.mp hlen, rfl⟩
  · rintro ⟨hlen, rfl⟩
    exact if_neg (not_not.mpr hlen)

theorem tupleFields_length {components : List Param} {v : Value} {fields : List Value}
    (h : tupleFields components v = .ok fields) : fields.length = components.length := by
  cases v with
  | object entries => exact (mapM_eq_ok_iff.mp h).length_eq.symm
  | array items =>
      obtain ⟨hlen, rfl⟩ := tupleFields_array_eq_ok_iff.mp h
      exact hlen
  | _ => cases h

theorem tupleFields_child {components : List Param} {v : Value} {fields : List Value}
    (h : tupleFields components v = .ok fields) : ∀ f ∈ fields, f.Child v := by
  intro f hf
  cases v with
  | object entries =>
      obtain ⟨i, hi, rfl⟩ := List.mem_iff_getElem.mp hf
      obtain ⟨hlen, hget⟩ := List.forall₂_iff_get.mp (mapM_eq_ok_iff.mp h)
      obtain ⟨l₁, l₂, heq, -⟩ :=
        List.lookup_eq_some_iff.mp (fieldAt_eq_ok_iff.mp (hget i (hlen ▸ hi) hi))
      exact .entry (heq ▸ List.mem_append_right l₁ List.mem_cons_self)
  | array items =>
      obtain ⟨-, rfl⟩ := tupleFields_array_eq_ok_iff.mp h
      exact .item hf
  | _ => cases h

namespace Deps

variable {D : Deps}

theorem lookupToValue_eq_bind (entries : List (String × Value)) :
    D.lookupToValue entries = fun c => fieldAt entries c >>= D.jsonToValue c := by
  funext c
  simp only [lookupToValue, fieldAt]
  cases entries.lookup c.name <;> rfl

theorem jsonToValue_array_eq_ok_iff {p : Param} {base : String} {len : Option Nat}
    (h : splitArrayType D.usizeMax p.ty = some (base, len)) {v : Value} {d : DynSolValue} :
    D.jsonToValue p v = .ok d ↔
      ∃ items ds, v = .array items ∧ (∀ k, len = some k → items.length = k) ∧
        items.mapM (D.jsonToValue (p.element base)) = .ok ds ∧ d = .ofItems ds len := by
  constructor
  · intro hok
    cases v with
    | array items =>
        rw [jsonToValue_array h] at hok
        obtain ⟨_, hlen, hok⟩ := bind_eq_ok.mp hok
        obtain ⟨ds, hds, rfl⟩ := map_eq_ok.mp hok
        exact ⟨items, ds, rfl, checkLength_eq_ok_iff.mp hlen, hds, rfl⟩
    | _ =>
        rw [jsonToValue_not_array h rfl] at hok
        cases hok
  · rintro ⟨items, ds, rfl, hlen, hds, rfl⟩
    rw [jsonToValue_array h]
    exact bind_eq_ok.mpr ⟨(), checkLength_eq_ok_iff.mpr hlen, map_eq_ok.mpr ⟨ds, hds, rfl⟩⟩

theorem jsonToValue_tuple_eq_ok_iff {p : Param} (h : p.ty = "tuple") {v : Value}
    {d : DynSolValue} :
    D.jsonToValue p v = .ok d ↔
      ∃ fields ds, tupleFields p.components v = .ok fields ∧
        D.coerceArgs p.components fields = .ok ds ∧ d = .tuple ds := by
  cases v with
  | object entries =>
      rw [jsonToValue_object h, map_eq_ok, lookupToValue_eq_bind]
      simp only [mapM_bind_eq_ok_iff]
      constructor
      · rintro ⟨ds, ⟨fields, hfields, hds⟩, rfl⟩
        exact ⟨fields, ds, hfields, hds, rfl⟩
      · rintro ⟨fields, ds, hfields, hds, rfl⟩
        exact ⟨ds, ⟨fields, hfields, hds⟩, rfl⟩
  | array items =>
      rw [jsonToValue_positional h]
      constructor
      · intro hok
        split at hok
        · cases hok
        · rename_i hlen
          obtain ⟨ds, hds, rfl⟩ := map_eq_ok.mp hok
          exact ⟨items, ds, if_neg hlen, hds, rfl⟩
      · rintro ⟨fields, ds, hfields, hds, rfl⟩
        obtain ⟨hlen, rfl⟩ := tupleFields_array_eq_ok_iff.mp hfields
        rw [if_neg (not_not.mpr hlen), hds]
        rfl
  | _ =>
      rw [jsonToValue_not_tuple h rfl rfl]
      constructor
      · nofun
      · rintro ⟨_, _, hfields, -⟩
        cases hfields

/-- An accepted argument was read as an array, as a tuple or as a scalar. -/
theorem jsonToValue_cases {p : Param} {v : Value} {d : DynSolValue}
    (h : D.jsonToValue p v = .ok d) :
    (∃ base len items ds, splitArrayType D.usizeMax p.ty = some (base, len) ∧ v = .array items ∧
        (∀ k, len = some k → items.length = k) ∧
        items.mapM (D.jsonToValue (p.element base)) = .ok ds ∧ d = .ofItems ds len) ∨
      (p.ty = "tuple" ∧ ∃ fields ds, tupleFields p.components v = .ok fields ∧
        D.coerceArgs p.components fields = .ok ds ∧ d = .tuple ds) ∨
      (splitArrayType D.usizeMax p.ty = none ∧ p.ty ≠ "tuple" ∧
        ∃ t, D.resolve p = some t ∧ D.coerceScalar t v = .ok d) := by
  cases hsplit : splitArrayType D.usizeMax p.ty with
  | some s =>
      obtain ⟨base, len⟩ := s
      obtain ⟨items, ds, hv, hlen, hds, hd⟩ := (jsonToValue_array_eq_ok_iff hsplit).mp h
      exact Or.inl ⟨base, len, items, ds, rfl, hv, hlen, hds, hd⟩
  | none =>
      by_cases hty : p.ty = "tuple"
      · exact Or.inr (Or.inl ⟨hty, (jsonToValue_tuple_eq_ok_iff hty).mp h⟩)
      · rw [jsonToValue_scalar hsplit hty] at h
        cases hres : D.resolve p with
        | none =>
            rw [hres] at h
            cases h
        | some t =>
            rw [hres] at h
            exact Or.inr (Or.inr ⟨rfl, hty, t, rfl, h⟩)

/-! ## What is read where -/

/-- Reading `j` by `p` reads `j'` by `p'` somewhere down the arrays and tuples. -/
inductive Reads (D : Deps) (p' : Param) (j' : Value) : Param → Value → Prop
  | here : Reads D p' j' p' j'
  | item {p : Param} {base : String} {len : Option Nat} {items : List Value} {j : Value} :
      splitArrayType D.usizeMax p.ty = some (base, len) → j ∈ items →
      Reads D p' j' (p.element base) j → Reads D p' j' p (.array items)
  | field {p c : Param} {j v : Value} {fields : List Value} :
      p.ty = "tuple" → tupleFields p.components v = .ok fields →
      (c, j) ∈ p.components.zip fields → Reads D p' j' c j → Reads D p' j' p v

/-- An accepted argument is accepted at everything read on the way. -/
theorem Reads.accepted {p' p : Param} {j' j : Value} (h : Reads D p' j' p j) :
    ∀ {d : DynSolValue}, D.jsonToValue p j = .ok d →
      ∃ d', D.jsonToValue p' j' = .ok d' ∧ d'.In d := by
  induction h with
  | here =>
      intro d hd
      exact ⟨d, hd, .here⟩
  | @item _ _ len _ _ hsplit hmem _ ih =>
      intro d hd
      obtain ⟨items, ds, hitems, -, hds, rfl⟩ := (jsonToValue_array_eq_ok_iff hsplit).mp hd
      cases hitems
      obtain ⟨x, hx⟩ := exists_mapM_eq_ok_iff.mp ⟨ds, hds⟩ _ hmem
      obtain ⟨d', hd', hin⟩ := ih hx
      have hxmem := mem_of_mapM hds hmem hx
      cases len with
      | none => exact ⟨d', hd', .array hxmem hin⟩
      | some k => exact ⟨d', hd', .fixedArray hxmem hin⟩
  | field hty hfields hmem _ ih =>
      intro d hd
      obtain ⟨fields', ds, hfields', hds, rfl⟩ := (jsonToValue_tuple_eq_ok_iff hty).mp hd
      rw [hfields] at hfields'
      cases hfields'
      obtain ⟨x, hx⟩ := exists_mapM_eq_ok_iff.mp ⟨ds, hds⟩ _ hmem
      obtain ⟨d', hd', hin⟩ := ih hx
      exact ⟨d', hd', .tuple (mem_of_mapM hds hmem hx) hin⟩

/-! ## Soundness -/

theorem coerceArgs_forall₂ {P : DynSolType → DynSolValue → Prop} {components : List Param}
    {ts : List DynSolType} (hts : List.Forall₂ (fun c t => D.resolve c = some t) components ts) :
    ∀ {fields : List Value} {ds : List DynSolValue}, fields.length = components.length →
      D.coerceArgs components fields = .ok ds →
      (∀ f ∈ fields, ∀ c t d, D.resolve c = some t → D.jsonToValue c f = .ok d → P t d) →
      List.Forall₂ P ts ds := by
  induction hts with
  | nil =>
      intro fields ds _ hds _
      cases hds
      exact .nil
  | @cons c t components ts ht _ ih =>
      intro fields ds hlen hds hP
      cases fields with
      | nil => cases hlen
      | cons f fields =>
          rw [coerceArgs, List.zip_cons_cons, mapM_eq_ok_iff] at hds
          cases hds with
          | cons hd hds =>
              exact .cons (hP f List.mem_cons_self c t _ ht hd)
                (ih (Nat.succ.inj hlen) (mapM_eq_ok_iff.mpr hds)
                  fun g hg => hP g (List.mem_cons_of_mem f hg))

theorem matches_ofItems {t : DynSolType} {ds : List DynSolValue} {len : Option Nat}
    (hlen : ∀ k, len = some k → ds.length = k) (hds : ∀ d ∈ ds, t.Matches d) :
    (t.wrapOne len).Matches (.ofItems ds len) := by
  cases len with
  | none => exact hds
  | some k => exact ⟨hlen k rfl, hds⟩

theorem canonical_ofItems {ds : List DynSolValue} (len : Option Nat)
    (hds : ∀ d ∈ ds, d.Canonical) : (DynSolValue.ofItems ds len).Canonical := by
  refine (DynSolValue.forall_in_ofItems_iff len).mpr ⟨?_, hds⟩
  cases len with
  | none => exact ⟨trivial, trivial⟩
  | some k => exact ⟨trivial, trivial⟩

/-- An accepted argument matches the type alloy resolves its parameter to, and
its leaves are canonical. -/
theorem jsonToValue_matches (j : Value) : ∀ {p : Param} {t : DynSolType} {d : DynSolValue},
    D.resolve p = some t → D.jsonToValue p j = .ok d → t.Matches d ∧ d.Canonical := by
  induction j using Value.childInduction with
  | step j ih =>
      intro p t d ht h
      rcases D.resolve_cases ht with ⟨hsplit, hstem⟩ | ⟨base, len, t', hsplit, -, hbase, rfl⟩
      · rcases jsonToValue_cases h with ⟨_, _, _, _, hs, _⟩ | ⟨hty, hfields⟩ | ⟨_, _, t₂, ht₂, hd⟩
        · rw [hsplit] at hs
          cases hs
        · -- a tuple: the components resolve one by one, and each field is a child
          obtain ⟨fields, ds, hfields, hds, rfl⟩ := hfields
          rw [hty] at hstem
          obtain ⟨ts, hts, rfl⟩ := D.stemWith_tuple hstem
          have hall := coerceArgs_forall₂ (P := fun t d => t.Matches d ∧ d.Canonical) hts
            (tupleFields_length hfields) hds
            fun f hf c t d hc hd => ih f (tupleFields_child hfields f hf) hc hd
          refine ⟨matchesAll_iff.mpr (hall.imp fun _ _ h => h.1), ?_⟩
          refine DynSolValue.forall_in_tuple_iff.mpr ⟨⟨trivial, trivial⟩, fun d hd => ?_⟩
          obtain ⟨i, hi, rfl⟩ := List.mem_iff_getElem.mp hd
          obtain ⟨hlen, hget⟩ := List.forall₂_iff_get.mp hall
          exact (hget i (hlen ▸ hi) hi).2
        · -- a scalar
          rw [ht] at ht₂
          cases ht₂
          exact coerceScalar_sound (D.stemWith_widths hstem) hd
      · -- an array: every item is read by the same element parameter
        obtain ⟨items, ds, rfl, hlen, hds, rfl⟩ := (jsonToValue_array_eq_ok_iff hsplit).mp h
        have hall : ∀ d ∈ ds, t'.Matches d ∧ d.Canonical := by
          intro d hd
          obtain ⟨item, hitem, hd⟩ := exists_of_mem_mapM hds d hd
          exact ih item (.item hitem) (hbase "") hd
        refine ⟨matches_ofItems (fun k hk => ?_) fun d hd => (hall d hd).1,
          canonical_ofItems len fun d hd => (hall d hd).2⟩
        rw [← length_of_mapM_eq_ok hds]
        exact hlen k hk

/-! ## The call -/

theorem coerceArgs_matches {inputs : List Param} {args : List Value} {values : List DynSolValue}
    (hres : ∀ p ∈ inputs, ∃ t, D.resolve p = some t) (hlen : args.length = inputs.length)
    (h : D.coerceArgs inputs args = .ok values) :
    List.Forall₂ (fun p v => ∃ t, D.resolve p = some t ∧ t.Matches v) inputs values := by
  obtain ⟨hzip, hget⟩ := List.forall₂_iff_get.mp (mapM_eq_ok_iff.mp h)
  rw [List.length_zip, hlen, Nat.min_self] at hzip
  refine List.forall₂_iff_get.mpr ⟨hzip, fun i h₁ h₂ => ?_⟩
  obtain ⟨t, ht⟩ := hres inputs[i] (List.getElem_mem h₁)
  have hi := hget i (by rw [List.length_zip, hlen, Nat.min_self]; exact h₁) h₂
  simp only [List.get_eq_getElem, List.getElem_zip] at hi
  exact ⟨t, ht, (jsonToValue_matches _ ht hi).1⟩

theorem encodeArgs_of_coerced {func : Function} {args : List Value} {values : List DynSolValue}
    (hres : ∀ p ∈ func.inputs, ∃ t, D.resolve p = some t)
    (hlen : args.length = func.inputs.length) (h : D.coerceArgs func.inputs args = .ok values) :
    ∃ calldata, D.abiEncodeInput func values = .ok calldata ∧
      D.encodeArgs func (.array args) = .ok (hexEncodePrefixed calldata) := by
  obtain ⟨calldata, hdata⟩ := D.abiEncodeInput_ok func values (coerceArgs_matches hres hlen h)
  refine ⟨calldata, hdata, ?_⟩
  simp only [encodeArgs, Value.asArray, ne_eq, hlen, not_true_eq_false, ↓reduceIte, h, bind,
    Except.bind, hdata]

end Deps

/-- Argument coercion is sound, and what it lets through alloy encodes. -/
theorem coercion_sound (D : Deps) :
    (∀ (p : Param) (t : DynSolType) (j : Value) (d : DynSolValue),
      D.resolve p = some t → D.jsonToValue p j = .ok d → t.Matches d ∧ d.Canonical) ∧
    ∀ (abiJson functionName argsJson : String) (abi : JsonAbi) (func : Function)
      (args : List Value) (values : List DynSolValue),
      D.parseAbi abiJson = .ok abi → findFunction abi functionName = .ok func →
      D.parseJson argsJson = .ok (.array args) → args.length = func.inputs.length →
      (∀ p ∈ func.inputs, ∃ t, D.resolve p = some t) →
      D.coerceArgs func.inputs args = .ok values →
      ∃ calldata, D.abiEncodeInput func values = .ok calldata ∧
        D.encodeFunctionData abiJson functionName argsJson =
          .ok (hexEncodePrefixed calldata) := by
  constructor
  · intro p t j d ht h
    exact Deps.jsonToValue_matches j ht h
  · intro abiJson functionName argsJson abi func args values habi hfunc hargs hlen hres h
    obtain ⟨calldata, hdata, hcall⟩ := Deps.encodeArgs_of_coerced hres hlen h
    refine ⟨calldata, hdata, ?_⟩
    simp only [Deps.encodeFunctionData, habi, hfunc, hargs, bind, Except.bind]
    exact hcall

/-! An ERC-20 transfer, end to end. -/

def transferFunction : Function :=
  ⟨"transfer", [⟨"address", "to", []⟩, ⟨"uint256", "amount", []⟩], [⟨"bool", "", []⟩]⟩

def transferAbiJson : String :=
  "[\x7b\"type\":\"function\",\"name\":\"transfer\",\"stateMutability\":\"nonpayable\"," ++
    "\"inputs\":[\x7b\"name\":\"to\",\"type\":\"address\"\x7d,\x7b\"name\":\"amount\"," ++
    "\"type\":\"uint256\"\x7d],\"outputs\":[\x7b\"name\":\"\",\"type\":\"bool\"\x7d]\x7d]"

def transferArgs : List Value :=
  [.string "0x1111111111111111111111111111111111111111", bigintTag "5"]

def transferDeps : Deps := reference ⟨[("transfer", [transferFunction])]⟩ (.array transferArgs)

def transferArgsJson : String :=
  "[\"0x1111111111111111111111111111111111111111\",\x7b\"$bigint\":\"5\"\x7d]"

set_option maxRecDepth 2000 in
theorem coercion_sound_transfer :
    transferDeps.encodeFunctionData transferAbiJson "transfer" transferArgsJson =
      .ok ("0xa9059cbb0000000000000000000000001111111111111111111111111111111111111111" ++
        "0000000000000000000000000000000000000000000000000000000000000005") := by
  have hcall := (coercion_sound transferDeps).2 transferAbiJson "transfer" transferArgsJson _
    transferFunction transferArgs _ rfl rfl rfl rfl
    (fun p hp => by
      rcases List.mem_cons.mp hp with rfl | hp
      · exact ⟨.address, rfl⟩
      · rw [List.mem_singleton.mp hp]
        exact ⟨.uint 256, rfl⟩) rfl
  obtain ⟨calldata, hdata, hcall⟩ := hcall
  rw [hcall]
  cases hdata
  rfl

end AmbireCrypto
