/-
# `AmbireCrypto.Reread` — one exported call after the other

What `decodeFunctionResult` answers is JSON that `encodeFunctionData` takes: with two
outputs or more the answer is an argument list as it stands.  The two calls are
composed here, in both orders.

* `answer_as_arguments`: an answer is accepted as arguments exactly when every
  integer of the return data was inside its declared width, and the calldata then
  carries the decoded values in normal form.  Nothing else that was answered is ever
  refused on the way back.
* `arguments_as_answer`: arguments that were accepted are always answered when a
  contract hands them back, and the answer means what they meant, but for a byte
  order mark in front of a string.

## How

`reread_iff` says of one value under one parameter when what is shown of it is read
back and as what, by induction on `Typed`; the leaves are `scalar_reread_iff`.  The
second direction adds that an accepted argument holds nothing `valueToJson` refuses
(`jsonToValue_not_refused`), since its integers are in their width and it has no
function pointer.

## The hypotheses

The parameters are `Built`, as in `Answers` and for the same reason: of two components
with one name only the last is shown, so `(1, 2)` comes back as `(2, 2)`.

What is passed on are the rendered outputs, as JSON values.  For one output or none the
answer itself is not a list (`answerShape`), and the caller has to make one of it.
-/
import AmbireCrypto.Answers

namespace AmbireCrypto

open Traverse

/-! ## Leaves -/

theorem IsLeaf.leaf_unique {t : DynSolType} {v : Int} {d d' : DynSolValue} (h : IsLeaf t v d)
    (h' : IsLeaf t v d') : d = d' := by
  cases h with
  | uint hu =>
      cases h' with
      | uint hu' =>
          have hnat := Int.natCast_inj.mp (hu.trans hu'.symm)
          rw [BitVec.eq_of_toNat_eq hnat]
  | int hi =>
      cases h' with
      | int hi' => rw [BitVec.eq_of_toInt_eq (hi.trans hi'.symm)]

theorem integer_reread_iff (D : Deps) {t : DynSolType} (ht : t.IsInteger) {v : Int}
    {d : DynSolValue} (hleaf : IsLeaf t v d) {size : Nat} {j : Value}
    (hj : intToJson v.repr size = .ok j) {d' : DynSolValue} :
    D.coerceScalar t j = .ok d' ↔ t.Holds v ∧ d' = d := by
  have hspells : Spells v j := by
    by_cases hwide : JS_SAFE_INT_BITS < size
    · rw [intToJson_wide hwide] at hj
      cases hj
      exact .tag
    · obtain ⟨hsafe, rfl⟩ := (intToJson_narrow_iff hwide).mp hj
      exact spells_of_safe hsafe
  rw [coerceScalar_spells_iff D ht hspells]
  refine and_congr_right fun _ => ⟨fun h => h.leaf_unique hleaf, fun h => ?_⟩
  rw [h]
  exact hleaf

namespace Deps

variable {D : Deps}

/-- A shown scalar is read back exactly when its integer is inside its width. -/
theorem scalar_reread_iff {t : DynSolType} (hwidths : t.WidthsOk) (ht : t.Scalar)
    {d : DynSolValue} (hmatch : t.Matches d) {p : Param} {j : Value}
    (hj : D.valueToJson p d = .ok j) {d' : DynSolValue} :
    D.coerceScalar t j = .ok d' ↔ d.InWidth ∧ d' = d.norm := by
  have hd := matches_scalar ht hmatch
  by_cases hint : t.IsInteger
  · cases t with
    | uint size =>
        cases d with
        | uint u _ =>
            cases hmatch
            rw [integer_reread_iff D (t := .uint size) hint (.uint rfl) hj]
            refine and_congr_left fun _ => ⟨fun h => ?_, fun h => ⟨Int.natCast_nonneg _, ?_⟩⟩
            · exact_mod_cast h.2
            · exact_mod_cast h
        | _ => exact hmatch.elim
    | int size =>
        cases d with
        | int i _ =>
            cases hmatch
            exact integer_reread_iff D (t := .int size) hint (.int rfl) hj
        | _ => exact hmatch.elim
    | _ => exact hint.elim
  · -- every other scalar that is shown is read back
    have hwidth : d.InWidth := by
      cases d with
      | uint u size =>
          cases t with
          | uint _ => exact absurd ⟨hwidths.1, hwidths.2.1⟩ hint
          | _ => exact hmatch.elim
      | int i size =>
          cases t with
          | int _ => exact absurd ⟨hwidths.1, hwidths.2.1⟩ hint
          | _ => exact hmatch.elim
      | _ => trivial
    have hfun : ∀ f, d ≠ .function f := by
      rintro f rfl
      cases hj
    obtain ⟨j', hj', hback⟩ := scalar_roundtrip hwidths hd hmatch hwidth hfun p
    cases hj.symm.trans hj'
    rw [hback]
    exact ⟨fun h => ⟨hwidth, (Except.ok.inj h).symm⟩, fun h => congrArg _ h.2.symm⟩

theorem encodeArgs_eq_ok_iff {func : Function} {args : List Value}
    (hlen : args.length = func.inputs.length) {out : String} :
    D.encodeArgs func (.array args) = .ok out ↔
      ∃ values calldata, D.coerceArgs func.inputs args = .ok values ∧
        D.abiEncodeInput func values = .ok calldata ∧ out = hexEncodePrefixed calldata := by
  simp only [encodeArgs, Value.asArray, ne_eq, hlen, not_true_eq_false, ↓reduceIte, bind_eq_ok]
  refine exists_congr fun values => ?_
  cases hdata : D.abiEncodeInput func values with
  | error msg => simp
  | ok calldata => simp [eq_comm]

/-! ## Values -/

theorem coerceArgs_reread_iff {params : List Param} {values : List DynSolValue} {js : List Value}
    (hlen : params.length = values.length)
    (hjs : (params.zip values).mapM D.renderField = .ok js)
    (hread : ∀ (i : Nat) (hc : i < params.length) (hf : i < values.length) {j : Value}
      {d : DynSolValue}, D.valueToJson params[i] values[i] = .ok j →
        (D.jsonToValue params[i] j = .ok d ↔
          (∀ x : DynSolValue, x.In values[i] → x.InWidth) ∧ d = values[i].norm))
    {ds : List DynSolValue} :
    D.coerceArgs params js = .ok ds ↔
      (∀ v ∈ values, ∀ x : DynSolValue, x.In v → x.InWidth) ∧ ds = values.map .norm := by
  obtain ⟨hjlen, hget⟩ := renderFields_get hlen hjs
  have hzip : values.length = (params.zip js).length := by
    rw [List.length_zip, hlen, ← hjlen, Nat.min_self]
  refine mapM_inverse_iff hzip fun i hf hi z => ?_
  have hc : i < params.length := hlen ▸ hf
  have hj : i < js.length := hjlen ▸ hf
  rw [List.getElem_zip]
  exact hread i hc hf (hget i hc hf hj)

/-- What is shown is read back exactly when every integer is inside its width, and
then as the normal form. -/
theorem reread_iff {p : Param} {d : DynSolValue} (hd : Typed D p d) :
    ∀ {j : Value} {d' : DynSolValue}, D.valueToJson p d = .ok j →
      (D.jsonToValue p j = .ok d' ↔
        (∀ x : DynSolValue, x.In d → x.InWidth) ∧ d' = d.norm) := by
  induction hd with
  | scalar hsplit hty ht hwidths hscalar hmatch =>
      intro j d' hj
      rw [jsonToValue_scalar hsplit hty, ht,
        DynSolValue.forall_in_scalar_iff (matches_scalar hscalar hmatch)]
      exact scalar_reread_iff hwidths hscalar hmatch hj
  | @tuple p fields hty hnames hlen _ ih =>
      intro j d' hj
      rw [valueToJson_tuple] at hj
      obtain ⟨-, js, hjs, rfl⟩ := tupleToJson_eq_ok_iff.mp hj
      have hjlen := (renderFields_get hlen hjs).1
      have hshape := tupleFields_tupleShape (hlen.trans hjlen) hnames
      have hfields : ∀ {ds : List DynSolValue}, D.coerceArgs p.components js = .ok ds ↔
          (∀ v ∈ fields, ∀ x : DynSolValue, x.In v → x.InWidth) ∧ ds = fields.map .norm :=
        coerceArgs_reread_iff hlen hjs fun i hc hf => ih i hc hf
      rw [jsonToValue_tuple_eq_ok_iff hty, DynSolValue.forall_in_tuple_iff, DynSolValue.norm_tuple]
      constructor
      · rintro ⟨fields', ds, hfields', hds, rfl⟩
        cases hshape.symm.trans hfields'
        obtain ⟨hwidth, rfl⟩ := hfields.mp hds
        exact ⟨⟨trivial, hwidth⟩, rfl⟩
      · rintro ⟨⟨-, hwidth⟩, rfl⟩
        exact ⟨js, _, hshape, hfields.mpr ⟨hwidth, rfl⟩, rfl⟩
  | @array p base len items hsplit hlen _ ih =>
      intro j d' hj
      rw [valueToJson_ofItems] at hj
      obtain ⟨js, hjs, rfl⟩ := map_eq_ok.mp hj
      have hjlen := length_of_mapM_eq_ok hjs
      have hitems : ∀ {ds : List DynSolValue}, js.mapM (D.jsonToValue (p.element base)) = .ok ds ↔
          (∀ v ∈ items, ∀ x : DynSolValue, x.In v → x.InWidth) ∧ ds = items.map .norm := by
        refine mapM_inverse_iff hjlen fun i hx hi z => ih _ (List.getElem_mem hx) ?_
        rw [valueToJson_element]
        exact getElem_of_mapM_eq_ok hjs i hx hi
      have hnode : (DynSolValue.ofItems items len).InWidth := by
        cases len <;> exact trivial
      rw [jsonToValue_array_eq_ok_iff hsplit, DynSolValue.forall_in_ofItems_iff, norm_ofItems]
      constructor
      · rintro ⟨items', ds, hitems', -, hds, rfl⟩
        cases hitems'
        obtain ⟨hwidth, rfl⟩ := hitems.mp hds
        exact ⟨⟨hnode, hwidth⟩, rfl⟩
      · rintro ⟨⟨-, hwidth⟩, rfl⟩
        exact ⟨js, _, rfl, fun k hk => hjlen ▸ hlen k hk, hitems.mpr ⟨hwidth, rfl⟩, rfl⟩

theorem coerceArgs_outputs_iff {abiJson functionName dataHex : String}
    (r : Decoding D abiJson functionName dataHex)
    (hbuilt : ∀ p ∈ r.func.outputs, Built D.toTypeGrammar p) {js : List Value}
    (hjs : (r.func.outputs.zip r.values).mapM D.renderField = .ok js) {ds : List DynSolValue} :
    D.coerceArgs r.func.outputs js = .ok ds ↔
      (∀ v ∈ r.values, ∀ x : DynSolValue, x.In v → x.InWidth) ∧ ds = r.values.map .norm := by
  refine coerceArgs_reread_iff r.length_values hjs fun i hc hf => reread_iff ?_
  refine r.typed hbuilt (r.func.outputs[i], r.values[i]) (List.mem_iff_getElem.mpr ⟨i, ?_, ?_⟩)
  · rw [List.length_zip]
    exact lt_min hc hf
  · exact List.getElem_zip

end Deps

/-! ## Normal forms -/

/-- A string that `stripByteOrderMark` makes shorter. -/
def DynSolValue.Marked : DynSolValue → Prop
  | .string s => s.toList.head? = some '\ufeff'
  | _ => False

theorem dropByteOrderMark_eq_iff {cs : List Char} :
    dropByteOrderMark cs = cs ↔ ¬ cs.head? = some '\ufeff' := by
  cases cs with
  | nil => exact ⟨fun _ => nofun, fun _ => rfl⟩
  | cons c cs =>
      rw [dropByteOrderMark, List.head?_cons, Option.some.injEq]
      constructor
      · intro h hc
        rw [if_pos hc] at h
        exact absurd (congrArg List.length h) (by simp)
      · intro hc
        exact if_neg hc

theorem zeroAfter_eq_self {word : B256} {n : Nat} (h : ∀ b ∈ word.bytes.drop n, b = 0) :
    word.zeroAfter n = word := by
  obtain ⟨bytes, hlen⟩ := word
  refine FixedBytes.mk.injEq .. |>.mpr (List.ext_getElem (by simp) fun i _ (hi : i < bytes.length) => ?_)
  rw [List.getElem_mapIdx]
  rcases lt_or_ge i n with hlt | hge
  · exact if_pos hlt
  · rw [if_neg (not_lt.mpr hge)]
    have hdrop : i - n < (bytes.drop n).length := by
      rw [List.length_drop]
      omega
    have hzero := h _ (List.getElem_mem hdrop)
    simp only [List.getElem_drop, Nat.add_sub_cancel' hge] at hzero
    exact hzero.symm

theorem map_norm_eq_iff {ds : List DynSolValue} :
    ds.map DynSolValue.norm = ds ↔ ∀ d ∈ ds, d.norm = d := by
  conv_lhs => rw [← List.map_id ds, List.map_map]
  exact List.map_inj_left

theorem not_marked_ofItems (items : List DynSolValue) (len : Option Nat) :
    ¬ (DynSolValue.ofItems items len).Marked := by
  cases len with
  | none => exact id
  | some k => exact id

/-- With zeros behind the bytes of its words, a value is in normal form exactly when
none of its strings is marked. -/
theorem norm_eq_iff (d : DynSolValue) : (∀ x : DynSolValue, x.In d → x.ZeroPadded) →
    (d.norm = d ↔ ∀ x : DynSolValue, x.In d → ¬ x.Marked) := by
  induction d using DynSolValue.nodeInduction with
  | scalar d hd =>
      rw [DynSolValue.forall_in_scalar_iff hd, DynSolValue.forall_in_scalar_iff hd]
      intro hzero
      cases d with
      | string s =>
          rw [DynSolValue.norm, DynSolValue.string.injEq, ← String.toList_inj, String.toList_ofList]
          exact dropByteOrderMark_eq_iff
      | fixedBytes word n =>
          rw [DynSolValue.norm, zeroAfter_eq_self hzero]
          exact ⟨fun _ => id, fun _ => rfl⟩
      | array _ => exact hd.elim
      | fixedArray _ => exact hd.elim
      | tuple _ => exact hd.elim
      | _ => exact ⟨fun _ => id, fun _ => rfl⟩
  | items items len ih =>
      rw [DynSolValue.forall_in_ofItems_iff, DynSolValue.forall_in_ofItems_iff, norm_ofItems,
        ofItems_inj_iff, map_norm_eq_iff]
      rintro ⟨-, hzero⟩
      constructor
      · intro h
        exact ⟨not_marked_ofItems items len, fun v hv => (ih v hv (hzero v hv)).mp (h v hv)⟩
      · rintro ⟨-, h⟩ v hv
        exact (ih v hv (hzero v hv)).mpr (h v hv)
  | tuple fields ih =>
      rw [DynSolValue.forall_in_tuple_iff, DynSolValue.forall_in_tuple_iff, DynSolValue.norm_tuple,
        DynSolValue.tuple.injEq, map_norm_eq_iff]
      rintro ⟨-, hzero⟩
      constructor
      · intro h
        exact ⟨id, fun v hv => (ih v hv (hzero v hv)).mp (h v hv)⟩
      · rintro ⟨-, h⟩ v hv
        exact (ih v hv (hzero v hv)).mpr (h v hv)

/-! ## Accepted arguments are shown -/

namespace Deps

variable {D : Deps}

theorem coerceScalar_ne_function {t : DynSolType} {v : Value} {d : DynSolValue}
    (hwidths : t.WidthsOk) (h : D.coerceScalar t v = .ok d) : ∀ f, d ≠ .function f := by
  rintro f rfl
  have hmatch := (coerceScalar_sound hwidths h).1
  cases t with
  | function => cases h
  | _ => exact hmatch.elim

theorem coerceScalar_scalar {t : DynSolType} {v : Value} {d : DynSolValue} (hwidths : t.WidthsOk)
    (h : D.coerceScalar t v = .ok d) : d.Scalar := by
  have ht : t.Scalar := by
    cases t with
    | array _ => cases h
    | fixedArray _ _ => cases h
    | tuple _ => cases h
    | _ => trivial
  exact matches_scalar ht (coerceScalar_sound hwidths h).1

theorem not_refused_of_coerced {t : DynSolType} (hwidths : t.WidthsOk) {v : Value}
    {d : DynSolValue} (h : D.coerceScalar t v = .ok d) : ¬ d.Refused := by
  obtain ⟨hmatch, hcanon⟩ := coerceScalar_sound hwidths h
  have hwidth := (hcanon d .here).1
  cases d with
  | function f => exact absurd rfl (coerceScalar_ne_function hwidths h f)
  | uint u size =>
      rintro ⟨hnarrow, hunsafe⟩
      have hholds : (DynSolType.uint size).Holds u.toNat :=
        ⟨Int.natCast_nonneg _, by exact_mod_cast hwidth⟩
      exact hunsafe (safe_of_holds hholds (.uint rfl) rfl (not_lt.mp hnarrow))
  | int i size =>
      rintro ⟨hnarrow, hunsafe⟩
      have hholds : (DynSolType.int size).Holds i.toInt := hwidth
      exact hunsafe (safe_of_holds hholds (.int rfl) rfl (not_lt.mp hnarrow))
  | _ => exact id

/-- Nothing an accepted argument was made into is refused. -/
theorem jsonToValue_not_refused (j : Value) : ∀ {p : Param} {d : DynSolValue},
    D.jsonToValue p j = .ok d → ∀ x : DynSolValue, x.In d → ¬ x.Refused := by
  induction j using Value.childInduction with
  | step j ih =>
      intro p d h
      rcases jsonToValue_cases h with ⟨base, len, items, ds, -, rfl, -, hds, rfl⟩ |
        ⟨-, fields, ds, hfields, hds, rfl⟩ | ⟨hsplit, -, t, ht, hd⟩
      · refine (DynSolValue.forall_in_ofItems_iff len).mpr ⟨not_refused_ofItems ds len, ?_⟩
        intro d hd
        obtain ⟨item, hitem, hd⟩ := exists_of_mem_mapM hds d hd
        exact ih item (.item hitem) hd
      · refine DynSolValue.forall_in_tuple_iff.mpr ⟨id, fun d hd => ?_⟩
        obtain ⟨e, he, hd⟩ := exists_of_mem_mapM hds d hd
        exact ih e.2 (tupleFields_child hfields e.2 (List.of_mem_zip he).2) hd
      · rcases D.resolve_cases ht with ⟨-, hstem⟩ | ⟨_, _, _, hsplit', -⟩
        · have hwidths := D.stemWith_widths hstem
          rw [DynSolValue.forall_in_scalar_iff (coerceScalar_scalar hwidths hd)]
          exact not_refused_of_coerced hwidths hd
        · cases hsplit.symm.trans hsplit'

end Deps

theorem Decoding.exists_resolve {D : Deps} {abiJson functionName dataHex : String}
    (r : Decoding D abiJson functionName dataHex) : ∀ p ∈ r.func.outputs, ∃ t, D.resolve p = some t := by
  intro p hp
  obtain ⟨i, hi, rfl⟩ := List.mem_iff_getElem.mp hp
  exact ⟨_, (List.forall₂_iff_get.mp r.resolved).2 i hi (r.resolved.length_eq ▸ hi)⟩

theorem Deps.exists_rendered {D : Deps} {abiJson functionName dataHex : String}
    (r : Decoding D abiJson functionName dataHex)
    (hbuilt : ∀ p ∈ r.func.outputs, Built D.toTypeGrammar p) {args : List Value}
    (hlen : args.length = r.func.outputs.length)
    (hargs : D.coerceArgs r.func.outputs args = .ok r.values) :
    ∃ js, (r.func.outputs.zip r.values).mapM D.renderField = .ok js ∧
      D.coerceArgs r.func.outputs js = .ok (r.values.map .norm) := by
  obtain ⟨hzip, hget⟩ := List.forall₂_iff_get.mp (mapM_eq_ok_iff.mp hargs)
  rw [List.length_zip, hlen, Nat.min_self] at hzip
  have hvalue : ∀ (i : Nat) (hp : i < r.func.outputs.length) (hv : i < r.values.length),
      ∃ j, D.jsonToValue r.func.outputs[i] j = .ok r.values[i] := by
    intro i hp hv
    have hi := hget i (by rw [List.length_zip, hlen, Nat.min_self]; exact hp) hv
    simp only [List.get_eq_getElem, List.getElem_zip] at hi
    exact ⟨_, hi⟩
  have hshow : ∀ e ∈ r.func.outputs.zip r.values, ∃ j, D.renderField e = .ok j := by
    intro e he
    have hshaped := (r.typed hbuilt e he).shaped
    obtain ⟨i, hi, rfl⟩ := List.mem_iff_getElem.mp he
    rw [List.length_zip, lt_min_iff] at hi
    rw [List.getElem_zip] at hshaped ⊢
    obtain ⟨j, hj⟩ := hvalue i hi.1 hi.2
    exact (valueToJson_ok_iff _ _).mpr ⟨hshaped, jsonToValue_not_refused j hj⟩
  obtain ⟨js, hjs⟩ := exists_mapM_eq_ok_iff.mpr hshow
  refine ⟨js, hjs, (coerceArgs_outputs_iff r hbuilt hjs).mpr ⟨?_, rfl⟩⟩
  intro v hv x hx
  obtain ⟨i, hi, rfl⟩ := List.mem_iff_getElem.mp hv
  have hp : i < r.func.outputs.length := hzip ▸ hi
  obtain ⟨t, ht⟩ := r.exists_resolve _ (List.getElem_mem hp)
  obtain ⟨j, hj⟩ := hvalue i hp hi
  exact ((jsonToValue_matches j ht hj).2 x hx).1

/-! ## An answer, passed on -/

/-- The outputs of one call, answered, are accepted as the inputs of another exactly
when every integer was inside its declared width, and the calldata carries their
normal forms. -/
theorem answer_as_arguments (D : Deps) {abiJson functionName dataHex : String}
    (r : Decoding D abiJson functionName dataHex)
    (hbuilt : ∀ p ∈ r.func.outputs, Built D.toTypeGrammar p) {js : List Value}
    (hjs : (r.func.outputs.zip r.values).mapM D.renderField = .ok js)
    {abiJson' functionName' argsJson : String} {abi : JsonAbi} {func : Function}
    (habi : D.parseAbi abiJson' = .ok abi) (hfound : findFunction abi functionName' = .ok func)
    (hinputs : func.inputs = r.func.outputs) (hargs : D.parseJson argsJson = .ok (.array js)) :
    D.decodeFunctionResult abiJson functionName dataHex = .ok (answerShape js).display ∧
    ((∃ out, D.encodeFunctionData abiJson' functionName' argsJson = .ok out) ↔
      ∀ v ∈ r.values, ∀ x : DynSolValue, x.In v → x.InWidth) ∧
    ∀ out, D.encodeFunctionData abiJson' functionName' argsJson = .ok out →
      ∃ calldata, D.abiEncodeInput func (r.values.map .norm) = .ok calldata ∧
        out = hexEncodePrefixed calldata := by
  have hlen : js.length = func.inputs.length := by
    rw [← (Deps.renderFields_get r.length_values hjs).1, hinputs, r.length_values]
  have hread : ∀ {ds : List DynSolValue}, D.coerceArgs func.inputs js = .ok ds ↔
      (∀ v ∈ r.values, ∀ x : DynSolValue, x.In v → x.InWidth) ∧ ds = r.values.map .norm := by
    rw [hinputs]
    exact Deps.coerceArgs_outputs_iff r hbuilt hjs
  have hresolve : ∀ p ∈ func.inputs, ∃ t, D.resolve p = some t := hinputs ▸ r.exists_resolve
  have hcall : D.encodeFunctionData abiJson' functionName' argsJson =
      D.encodeArgs func (.array js) := by
    simp only [Deps.encodeFunctionData, habi, hfound, hargs, ok_bind]
  rw [hcall]
  refine ⟨(Deps.answered_iff r).mpr ⟨js, hjs, rfl⟩, ⟨?_, fun hwidth => ?_⟩, fun out hout => ?_⟩
  · rintro ⟨out, hout⟩
    obtain ⟨ds, _, hds, -⟩ := (Deps.encodeArgs_eq_ok_iff hlen).mp hout
    exact (hread.mp hds).1
  · obtain ⟨calldata, -, hout⟩ := Deps.encodeArgs_of_coerced hresolve hlen (hread.mpr ⟨hwidth, rfl⟩)
    exact ⟨_, hout⟩
  · obtain ⟨ds, calldata, hds, hdata, rfl⟩ := (Deps.encodeArgs_eq_ok_iff hlen).mp hout
    obtain ⟨-, rfl⟩ := hread.mp hds
    exact ⟨calldata, hdata, rfl⟩

/-! A pool's tick, read and set again.  The word 200 is no `int8`. -/

def tickParam : Param := ⟨"int8", "tick", []⟩

def tickFunction : Function := ⟨"tick", [], [tickParam]⟩

def setTickFunction : Function := ⟨"setTick", [tickParam], []⟩

def tickAbi : JsonAbi := ⟨[("tick", [tickFunction]), ("setTick", [setTickFunction])]⟩

def tickAbiJson : String :=
  "[\x7b\"type\":\"function\",\"name\":\"tick\",\"stateMutability\":\"view\",\"inputs\":[]," ++
    "\"outputs\":[\x7b\"name\":\"tick\",\"type\":\"int8\"\x7d]\x7d,\x7b\"type\":\"function\"," ++
    "\"name\":\"setTick\",\"stateMutability\":\"nonpayable\"," ++
    "\"inputs\":[\x7b\"name\":\"tick\",\"type\":\"int8\"\x7d],\"outputs\":[]\x7d]"

def tickJson (n : UInt8) : Value := .number (.posInt n.toNat (n.toNat_lt.trans (by decide)))

def tickDeps (n : UInt8) : Deps := reference tickAbi (.array [tickJson n])

def tickDecoding (n : UInt8) :
    Decoding (tickDeps n) tickAbiJson "tick" (hexEncodePrefixed (wordOf n).bytes) where
  abi := tickAbi
  func := tickFunction
  data := (wordOf n).bytes
  types := [.int 8]
  tokens := [.word (wordOf n)]
  values := [.int (wordOf n).toWord 8]
  parsed := rfl
  found := rfl
  read := Deps.decodeViemHex_hexEncodePrefixed _
  resolved := .cons rfl .nil
  cut := rfl
  made := rfl

theorem built_tick (n : UInt8) : ∀ p ∈ tickFunction.outputs, Built (tickDeps n).toTypeGrammar p := by
  intro p hp
  rw [List.mem_singleton.mp hp]
  have hspec : (tickDeps n).typeSpecifier "int8".toList = some ("int8".toList, []) := rfl
  exact .scalar hspec (show _ = some (.int 8) from rfl) trivial

theorem answer_as_arguments_tick :
    (∃ out, (tickDeps 100).encodeFunctionData tickAbiJson "setTick" "[100]" = .ok out) ∧
      ¬ ∃ out, (tickDeps 200).encodeFunctionData tickAbiJson "setTick" "[200]" = .ok out := by
  have hfound : findFunction tickAbi "setTick" = .ok setTickFunction := rfl
  have hlow : (∃ out, (tickDeps 100).encodeFunctionData tickAbiJson "setTick" "[100]" = .ok out) ↔
      ∀ v ∈ (tickDecoding 100).values, ∀ x : DynSolValue, x.In v → x.InWidth :=
    (answer_as_arguments (tickDeps 100) (tickDecoding 100) (built_tick 100)
      (show _ = Except.ok [tickJson 100] from rfl) rfl hfound rfl rfl).2.1
  have hhigh : (∃ out, (tickDeps 200).encodeFunctionData tickAbiJson "setTick" "[200]" = .ok out) ↔
      ∀ v ∈ (tickDecoding 200).values, ∀ x : DynSolValue, x.In v → x.InWidth :=
    (answer_as_arguments (tickDeps 200) (tickDecoding 200) (built_tick 200)
      (show _ = Except.ok [tickJson 200] from rfl) rfl hfound rfl rfl).2.1
  rw [hlow, hhigh]
  constructor
  · intro v hv x hx
    rw [List.mem_singleton.mp hv] at hx
    cases hx
    exact ⟨by decide, by decide⟩
  · intro hwidth
    exact absurd (hwidth _ List.mem_cons_self _ .here).2 (by decide)

/-! ## Arguments, handed back -/

/-- Arguments that one call accepted are answered by any call that hands their values
back; the answer is accepted again and encodes the same values, but for byte order
marks. -/
theorem arguments_as_answer (D : Deps) {abiJson functionName : String} {abi : JsonAbi}
    {func : Function} {args : List Value} (habi : D.parseAbi abiJson = .ok abi)
    (hfound : findFunction abi functionName = .ok func) (hlen : args.length = func.inputs.length)
    {abiJson' functionName' dataHex : String} (r : Decoding D abiJson' functionName' dataHex)
    (houtputs : r.func.outputs = func.inputs)
    (hbuilt : ∀ p ∈ func.inputs, Built D.toTypeGrammar p)
    (hargs : D.coerceArgs func.inputs args = .ok r.values) :
    (∃ js, D.decodeFunctionResult abiJson' functionName' dataHex = .ok (answerShape js).display ∧
      ∀ argsJson, D.parseJson argsJson = .ok (.array js) →
        ∃ calldata, D.abiEncodeInput func (r.values.map .norm) = .ok calldata ∧
          D.encodeFunctionData abiJson functionName argsJson = .ok (hexEncodePrefixed calldata)) ∧
    (r.values.map .norm = r.values ↔
      ∀ v ∈ r.values, ∀ x : DynSolValue, x.In v → ¬ x.Marked) := by
  rw [← houtputs] at hbuilt hargs hlen
  constructor
  · obtain ⟨js, hjs, hback⟩ := Deps.exists_rendered r hbuilt hlen hargs
    refine ⟨js, (Deps.answered_iff r).mpr ⟨js, hjs, rfl⟩, fun argsJson hjson => ?_⟩
    have hjlen : js.length = func.inputs.length := by
      rw [← (Deps.renderFields_get r.length_values hjs).1, ← houtputs, r.length_values]
    rw [houtputs] at hback
    obtain ⟨calldata, hdata, hout⟩ :=
      Deps.encodeArgs_of_coerced (houtputs ▸ r.exists_resolve) hjlen hback
    refine ⟨calldata, hdata, ?_⟩
    simp only [Deps.encodeFunctionData, habi, hfound, hjson, ok_bind]
    exact hout
  · have hzero : ∀ v ∈ r.values, ∀ x : DynSolValue, x.In v → x.ZeroPadded := by
      intro v hv x hx
      obtain ⟨e, he, hd⟩ := exists_of_mem_mapM hargs v hv
      obtain ⟨t, ht⟩ := r.exists_resolve e.1 (List.of_mem_zip he).1
      exact ((Deps.jsonToValue_matches e.2 ht hd).2 x hx).2
    rw [map_norm_eq_iff]
    constructor
    · intro h v hv
      exact (norm_eq_iff v (hzero v hv)).mp (h v hv)
    · intro h v hv
      exact (norm_eq_iff v (hzero v hv)).mpr (h v hv)

theorem arguments_as_answer_tick :
    (∃ js, (tickDeps 100).decodeFunctionResult tickAbiJson "tick"
      (hexEncodePrefixed (wordOf 100).bytes) = .ok (answerShape js).display) ∧
    (tickDecoding 100).values.map .norm = (tickDecoding 100).values := by
  have hfound : findFunction tickAbi "setTick" = .ok setTickFunction := rfl
  have hargs : (tickDeps 100).coerceArgs setTickFunction.inputs [tickJson 100] =
      .ok (tickDecoding 100).values := rfl
  have habi : (tickDeps 100).parseAbi tickAbiJson = .ok tickAbi := rfl
  obtain ⟨⟨js, hjs, -⟩, hnorm⟩ := arguments_as_answer (tickDeps 100) habi hfound rfl
    (tickDecoding 100) rfl (built_tick 100) hargs
  refine ⟨⟨js, hjs⟩, hnorm.mpr fun v hv x hx => ?_⟩
  rw [List.mem_singleton.mp hv] at hx
  cases hx
  exact id

end AmbireCrypto
