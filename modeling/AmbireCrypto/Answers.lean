/-
# `AmbireCrypto.Answers` — what an answer says about the return data

The answer of `decodeFunctionResult` is a text, and the shims keep nothing else.
Proved here: it determines the decoded values, up to the two things JSON does not
keep (`DynSolValue.norm`), and nothing more than these is lost — two calls of one
function are answered alike exactly when their values have one normal form
(`answers_agree_iff`).

The argument goes through three levels, each a statement of "alike exactly when":

* `scalar_eq_iff` for the leaves, format by format.  Only a string and a word of
  bytes lose anything;
* `valueToJson_eq_iff` for values, by induction on `Typed`;
* `display_injective` for texts, since an answer holds no float
  (`Renders.floatFree`).

No integer has to be inside its declared width for this, and no parser is involved.

## The one hypothesis

The outputs are `Built`: tuples are described by components, and where all of them are
named the names are distinct.  It cannot be done without.  Under two components of one
name the first field is overwritten, so `(1, 2)` and `(3, 2)` are answered alike.
-/
import AmbireCrypto.Typed
import AmbireCrypto.JsonText

namespace AmbireCrypto

open Traverse

/-! ## No floats -/

theorem Number.floatFree {n : Number} {i : Int} (h : n.asInt = some i) :
    (Value.number n).FloatFree := by
  refine Value.floatFree_of_children (fun text heq => ?_) nofun
  cases heq
  cases h

theorem floatFree_string (s : String) : (Value.string s).FloatFree :=
  Value.floatFree_of_children nofun nofun

theorem floatFree_array {items : List Value} (h : ∀ v ∈ items, v.FloatFree) :
    (Value.array items).FloatFree := by
  refine Value.floatFree_of_children nofun fun x hx => ?_
  cases hx with
  | item hmem => exact h x hmem

theorem Renders.floatFree {D : Deps} {components : List Param} {v : DynSolValue} {j : Value}
    (h : Renders D components v j) : j.FloatFree := by
  induction h with
  | number _ _ hn => exact Number.floatFree hn
  | tag _ _ =>
      refine Value.floatFree_of_children nofun fun x hx => ?_
      cases hx with
      | entry hmem =>
          cases List.mem_singleton.mp hmem
          exact floatFree_string _
  | bool => exact Value.floatFree_of_children nofun nofun
  | address => exact floatFree_string _
  | bytes => exact floatFree_string _
  | fixedBytes => exact floatFree_string _
  | string => exact floatFree_string _
  | array hlen _ ih =>
      refine floatFree_array fun x hx => ?_
      obtain ⟨i, hi, rfl⟩ := List.mem_iff_getElem.mp hx
      exact ih i (hlen ▸ hi) hi
  | fixedArray hlen _ ih =>
      refine floatFree_array fun x hx => ?_
      obtain ⟨i, hi, rfl⟩ := List.mem_iff_getElem.mp hx
      exact ih i (hlen ▸ hi) hi
  | named _ hlen hlen' _ hmem _ _ _ ih =>
      refine Value.floatFree_of_children nofun fun x hx => ?_
      cases hx with
      | entry he =>
          obtain ⟨i, hi, rfl⟩ := List.mem_iff_getElem.mp (List.of_mem_zip (hmem _ he)).2
          exact ih i (by omega) (by omega) hi
  | positional _ hlen hlen' _ ih =>
      refine floatFree_array fun x hx => ?_
      obtain ⟨i, hi, rfl⟩ := List.mem_iff_getElem.mp hx
      exact ih i (by omega) (by omega) hi

/-! ## Leaves -/

theorem repr_injective {v w : Int} (h : v.repr = w.repr) : v = w := by
  have hsplit := congrArg (fun s : String => Numeral.splitSign s.toList) h
  simp only [Numeral.splitSign_repr, Prod.mk.injEq] at hsplit
  rw [← signed_natAbs v, ← signed_natAbs w, hsplit.1, toDigits_inj hsplit.2]

theorem bigintTag_inj {s t : String} (h : bigintTag s = bigintTag t) : s = t := by
  have htext : some s = some t :=
    congrArg (fun v : Value => (v.get BIGINT_TAG).bind Value.asStr) h
  exact Option.some.inj htext

theorem intToJson_eq_iff {size : Nat} {v w : Int} {j k : Value}
    (hj : intToJson v.repr size = .ok j) (hk : intToJson w.repr size = .ok k) : j = k ↔ v = w := by
  refine ⟨fun heq => ?_, fun heq => ?_⟩
  · subst heq
    by_cases hwide : JS_SAFE_INT_BITS < size
    · rw [intToJson_wide hwide] at hj hk
      cases hj
      exact (repr_injective (bigintTag_inj (Except.ok.inj hk))).symm
    · obtain ⟨hv, rfl⟩ := (intToJson_narrow_iff hwide).mp hj
      obtain ⟨hw, heq⟩ := (intToJson_narrow_iff hwide).mp hk
      have hint := hv.asInt_number
      rw [Value.number.inj heq, hw.asInt_number] at hint
      exact (Option.some.inj hint).symm
  · subst heq
    exact Except.ok.inj (hj.symm.trans hk)

theorem hexEncodePrefixed_inj {b b' : List UInt8} (h : hexEncodePrefixed b = hexEncodePrefixed b') :
    b = b' := by
  have hdigits : HexCodec.encode b = HexCodec.encode b' := by
    have hlist := congrArg String.toList h
    simpa only [hexEncodePrefixed, String.toList_ofList, List.cons.injEq, true_and] using hlist
  have hread := HexCodec.decode_encode b
  rw [hdigits, HexCodec.decode_encode] at hread
  exact (Option.some.inj hread).symm

theorem take_zeroAfter (word : B256) (n : Nat) :
    (word.zeroAfter n).bytes.take n = word.bytes.take n := by
  simp only [FixedBytes.zeroAfter]
  refine List.ext_getElem (by simp) fun i hi _ => ?_
  rw [List.length_take, lt_min_iff] at hi
  rw [List.getElem_take, List.getElem_take, List.getElem_mapIdx, if_pos hi.1]

/-- Of a word the bytes shown are all that its normal form keeps. -/
theorem take_eq_iff_zeroAfter_eq {word word' : B256} {n : Nat} (hn : n ≤ 32) :
    word.bytes.take n = word'.bytes.take n ↔ word.zeroAfter n = word'.zeroAfter n := by
  constructor
  · intro h
    rw [← wordOfPrefix_take word hn, ← wordOfPrefix_take word' hn, h]
  · intro h
    rw [← take_zeroAfter word, ← take_zeroAfter word', h]

theorem ofItems_inj_iff {items items' : List DynSolValue} {len : Option Nat} :
    DynSolValue.ofItems items len = .ofItems items' len ↔ items = items' := by
  cases len with
  | none => exact ⟨fun h => DynSolValue.array.inj h, fun h => congrArg _ h⟩
  | some k => exact ⟨fun h => DynSolValue.fixedArray.inj h, fun h => congrArg _ h⟩

namespace Deps

variable {D : Deps}

theorem toChecksum_inj {a a' : Address} (h : toChecksum D.keccak256 a = toChecksum D.keccak256 a') :
    a = a' := by
  have hread := D.parseViemStrictAddress_toChecksum a
  rw [h, D.parseViemStrictAddress_toChecksum] at hread
  exact (Except.ok.inj hread).symm

/-- Two scalars of one type are shown alike exactly when JSON keeps nothing that
tells them apart. -/
theorem scalar_eq_iff {t : DynSolType} (hwidths : t.WidthsOk) (ht : t.Scalar) {p : Param}
    {d d' : DynSolValue} (hd : t.Matches d) (hd' : t.Matches d') {j j' : Value}
    (hj : D.valueToJson p d = .ok j) (hj' : D.valueToJson p d' = .ok j') :
    j = j' ↔ d.norm = d'.norm := by
  cases t with
  | array _ => exact ht.elim
  | fixedArray _ _ => exact ht.elim
  | tuple _ => exact ht.elim
  | bool =>
      cases d with
      | bool b =>
          cases d' with
          | bool b' =>
              cases hj
              cases hj'
              simp [DynSolValue.norm]
          | _ => exact hd'.elim
      | _ => exact hd.elim
  | int size =>
      cases d with
      | int i _ =>
          cases d' with
          | int i' _ =>
              cases hd
              cases hd'
              rw [intToJson_eq_iff hj hj', BitVec.toInt_inj]
              simp [DynSolValue.norm]
          | _ => exact hd'.elim
      | _ => exact hd.elim
  | uint size =>
      cases d with
      | uint u _ =>
          cases d' with
          | uint u' _ =>
              cases hd
              cases hd'
              rw [intToJson_eq_iff (v := u.toNat) (w := u'.toNat) hj hj', Int.natCast_inj,
                BitVec.toNat_inj]
              simp [DynSolValue.norm]
          | _ => exact hd'.elim
      | _ => exact hd.elim
  | fixedBytes size =>
      cases d with
      | fixedBytes word _ =>
          cases d' with
          | fixedBytes word' _ =>
              cases hd
              cases hd'
              cases hj
              cases hj'
              simp only [Value.string.injEq, DynSolValue.norm, DynSolValue.fixedBytes.injEq,
                and_true]
              rw [← take_eq_iff_zeroAfter_eq hwidths.2]
              exact ⟨hexEncodePrefixed_inj, fun h => by rw [h]⟩
          | _ => exact hd'.elim
      | _ => exact hd.elim
  | address =>
      cases d with
      | address a =>
          cases d' with
          | address a' =>
              cases hj
              cases hj'
              simp only [Value.string.injEq, DynSolValue.norm, DynSolValue.address.injEq]
              exact ⟨toChecksum_inj, fun h => by rw [h]⟩
          | _ => exact hd'.elim
      | _ => exact hd.elim
  | function =>
      cases d with
      | function f => cases hj
      | _ => exact hd.elim
  | bytes =>
      cases d with
      | bytes b =>
          cases d' with
          | bytes b' =>
              cases hj
              cases hj'
              simp only [Value.string.injEq, DynSolValue.norm, DynSolValue.bytes.injEq]
              exact ⟨hexEncodePrefixed_inj, fun h => by rw [h]⟩
          | _ => exact hd'.elim
      | _ => exact hd.elim
  | string =>
      cases d with
      | string s =>
          cases d' with
          | string s' =>
              cases hj
              cases hj'
              simp only [Value.string.injEq, DynSolValue.norm, DynSolValue.string.injEq,
                stripByteOrderMark_eq]
          | _ => exact hd'.elim
      | _ => exact hd.elim

/-! ## Values -/

theorem renderFields_get {components : List Param} {fields : List DynSolValue} {js : List Value}
    (hlen : components.length = fields.length)
    (h : (components.zip fields).mapM D.renderField = .ok js) :
    fields.length = js.length ∧
      ∀ (i : Nat) (hc : i < components.length) (hf : i < fields.length) (hj : i < js.length),
        D.valueToJson components[i] fields[i] = .ok js[i] := by
  have hlen' := length_of_mapM_eq_ok h
  rw [List.length_zip, hlen, Nat.min_self] at hlen'
  refine ⟨hlen', fun i hc hf hj => ?_⟩
  have hi : i < (components.zip fields).length := by
    rw [List.length_zip]
    exact lt_min hc hf
  have hfield := getElem_of_mapM_eq_ok h i hi hj
  rwa [List.getElem_zip] at hfield

/-- Under distinct names no rendered field is lost. -/
theorem tupleShape_inj {components : List Param} {js js' : List Value}
    (hlen : components.length = js.length) (hlen' : components.length = js'.length)
    (hnames : allNamed components = true → (components.map Param.name).Nodup)
    (h : tupleShape components js = tupleShape components js') : js = js' := by
  have hfields := tupleFields_tupleShape hlen hnames
  rw [h, tupleFields_tupleShape hlen' hnames] at hfields
  exact (Except.ok.inj hfields).symm

theorem valueToJson_element (p : Param) (base : String) (v : DynSolValue) :
    D.valueToJson (p.element base) v = D.valueToJson p v :=
  valueToJson_congr v rfl

/-- Two values of one parameter are shown alike exactly when they have one normal
form. -/
theorem valueToJson_eq_iff {p : Param} {d : DynSolValue} (hd : Typed D p d) :
    ∀ {d' : DynSolValue} {j j' : Value}, Typed D p d' → D.valueToJson p d = .ok j →
      D.valueToJson p d' = .ok j' → (j = j' ↔ d.norm = d'.norm) := by
  induction hd with
  | scalar hsplit hty ht hwidths hscalar hmatch =>
      intro d' j j' hd' hj hj'
      cases hd' with
      | scalar _ _ ht' _ _ hmatch' =>
          cases ht.symm.trans ht'
          exact scalar_eq_iff hwidths hscalar hmatch hmatch' hj hj'
      | tuple hty' _ _ _ => exact absurd hty' hty
      | array hsplit' _ _ => cases hsplit.symm.trans hsplit'
  | @tuple p fields hty hnames hlen _ ih =>
      intro d' j j' hd' hj hj'
      cases hd' with
      | scalar _ hty' _ _ _ _ => exact absurd hty hty'
      | array hsplit' _ _ =>
          rw [hty, splitArrayType_tuple] at hsplit'
          cases hsplit'
      | @tuple _ fields' _ _ hlen' hfields' =>
          rw [valueToJson_tuple] at hj hj'
          obtain ⟨-, js, hjs, rfl⟩ := tupleToJson_eq_ok_iff.mp hj
          obtain ⟨-, js', hjs', rfl⟩ := tupleToJson_eq_ok_iff.mp hj'
          obtain ⟨hjlen, hget⟩ := renderFields_get hlen hjs
          obtain ⟨hjlen', hget'⟩ := renderFields_get hlen' hjs'
          rw [DynSolValue.norm_tuple, DynSolValue.norm_tuple, DynSolValue.tuple.injEq,
            ← eq_iff_map_eq hjlen hjlen' fun i hf hf' hi hi' =>
              ih i (hlen ▸ hf) hf (hfields' i (hlen ▸ hf) hf') (hget i (hlen ▸ hf) hf hi)
                (hget' i (hlen ▸ hf) hf' hi')]
          exact ⟨tupleShape_inj (hlen.trans hjlen) (hlen'.trans hjlen') hnames, fun h => by rw [h]⟩
  | @array p base len items hsplit hlen _ ih =>
      intro d' j j' hd' hj hj'
      cases hd' with
      | scalar hsplit' _ _ _ _ _ => cases hsplit.symm.trans hsplit'
      | tuple hty' _ _ _ =>
          rw [hty', splitArrayType_tuple] at hsplit
          cases hsplit
      | @array _ _ _ items' hsplit' hlen' hitems' =>
          cases hsplit.symm.trans hsplit'
          rw [valueToJson_ofItems] at hj hj'
          obtain ⟨js, hjs, rfl⟩ := map_eq_ok.mp hj
          obtain ⟨js', hjs', rfl⟩ := map_eq_ok.mp hj'
          rw [norm_ofItems, norm_ofItems, ofItems_inj_iff, Value.array.injEq]
          refine eq_iff_map_eq (length_of_mapM_eq_ok hjs) (length_of_mapM_eq_ok hjs')
            fun i hx hx' hi hi' => ih _ (List.getElem_mem hx) (hitems' _ (List.getElem_mem hx')) ?_ ?_
          · rw [valueToJson_element]
            exact getElem_of_mapM_eq_ok hjs i hx hi
          · rw [valueToJson_element]
            exact getElem_of_mapM_eq_ok hjs' i hx' hi'

end Deps

/-! ## Calls -/

/-- An answer's shape: nothing, the only output by itself, or all of them in order. -/
def answerShape : List Value → Value
  | [] => .null
  | [j] => j
  | js => .array js

theorem answerShape_inj {js js' : List Value} (hlen : js.length = js'.length)
    (h : answerShape js = answerShape js') : js = js' := by
  match js, js', hlen with
  | [], [], _ => rfl
  | [j], [j'], _ => exact congrArg (fun v => [v]) h
  | _ :: _ :: _, _ :: _ :: _, _ => exact Value.array.inj h

theorem floatFree_answerShape {js : List Value} (h : ∀ j ∈ js, j.FloatFree) :
    (answerShape js).FloatFree := by
  match js, h with
  | [], _ => exact Value.floatFree_of_children nofun nofun
  | [j], h => exact h j List.mem_cons_self
  | _ :: _ :: _, h => exact floatFree_array h

namespace Deps

variable {D : Deps} {abiJson functionName dataHex : String}

theorem valuesToJson_eq {outputs : List Param} {values : List DynSolValue}
    (hlen : outputs.length = values.length) :
    D.valuesToJson outputs values = answerShape <$> (outputs.zip values).mapM D.renderField := by
  rw [valuesToJson, if_neg (not_not.mpr hlen.symm)]
  cases outputs.zip values with
  | nil => rfl
  | cons e es =>
      cases es with
      | nil =>
          show D.renderField e = answerShape <$> [e].mapM D.renderField
          rw [List.mapM_cons, List.mapM_nil]
          cases D.renderField e <;> rfl
      | cons e' es =>
          show Value.array <$> (e :: e' :: es).mapM D.renderField = _
          cases h : (e :: e' :: es).mapM D.renderField with
          | error _ => rfl
          | ok js =>
              have hlen := length_of_mapM_eq_ok h
              rcases js with _ | ⟨j, _ | ⟨j', js⟩⟩
              · cases hlen
              · cases hlen
              · rfl

theorem decodeFunctionResult_eq (r : Decoding D abiJson functionName dataHex) :
    D.decodeFunctionResult abiJson functionName dataHex =
      (fun js => (answerShape js).display) <$> (r.func.outputs.zip r.values).mapM D.renderField := by
  have hvalues := abiDecodeOutput_eq_ok_iff.mpr ⟨_, _, r.resolved, r.cut, r.made⟩
  simp only [decodeFunctionResult, r.parsed, r.found, r.read, hvalues, ok_bind,
    valuesToJson_eq r.length_values]
  cases (r.func.outputs.zip r.values).mapM D.renderField <;> rfl

theorem answered_iff (r : Decoding D abiJson functionName dataHex) {text : String} :
    D.decodeFunctionResult abiJson functionName dataHex = .ok text ↔
      ∃ js, (r.func.outputs.zip r.values).mapM D.renderField = .ok js ∧
        (answerShape js).display = text := by
  rw [decodeFunctionResult_eq r, map_eq_ok]

theorem floatFree_of_rendered {es : List (Param × DynSolValue)} {js : List Value}
    (h : es.mapM D.renderField = .ok js) : ∀ j ∈ js, j.FloatFree := by
  intro j hj
  obtain ⟨e, -, he⟩ := exists_of_mem_mapM h j hj
  exact (renders_of_ok e.2 he).floatFree

end Deps

/-- Two calls of one function are answered alike exactly when what they decoded has
one normal form. -/
theorem answers_agree_iff (D : Deps) {abiJson functionName dataHex dataHex' text text' : String}
    (r : Decoding D abiJson functionName dataHex) (r' : Decoding D abiJson functionName dataHex')
    (hbuilt : ∀ p ∈ r.func.outputs, Built D.toTypeGrammar p)
    (h : D.decodeFunctionResult abiJson functionName dataHex = .ok text)
    (h' : D.decodeFunctionResult abiJson functionName dataHex' = .ok text') :
    text = text' ↔ r.values.map DynSolValue.norm = r'.values.map DynSolValue.norm := by
  -- both calls look up the same function
  have hfunc : r.func = r'.func := by
    have habi := Except.ok.inj (r.parsed.symm.trans r'.parsed)
    have hfound := r.found
    rw [habi, r'.found] at hfound
    exact (Except.ok.inj hfound).symm
  have hlen := r.length_values
  have hlen' : r.func.outputs.length = r'.values.length := hfunc ▸ r'.length_values
  have htyped := r.typed hbuilt
  have htyped' : ∀ e ∈ r.func.outputs.zip r'.values, Typed D e.1 e.2 := by
    rw [hfunc] at hbuilt ⊢
    exact r'.typed hbuilt
  obtain ⟨js, hjs, rfl⟩ := (Deps.answered_iff r).mp h
  obtain ⟨js', hjs', rfl⟩ := (Deps.answered_iff r').mp h'
  rw [← hfunc] at hjs'
  obtain ⟨hjlen, hget⟩ := Deps.renderFields_get hlen hjs
  obtain ⟨hjlen', hget'⟩ := Deps.renderFields_get hlen' hjs'
  have hmem : ∀ {values : List DynSolValue} {i : Nat} (hc : i < r.func.outputs.length)
      (hv : i < values.length), (r.func.outputs[i], values[i]) ∈ r.func.outputs.zip values := by
    intro values i hc hv
    exact List.mem_iff_getElem.mpr ⟨i, by rw [List.length_zip]; exact lt_min hc hv,
      List.getElem_zip⟩
  rw [← eq_iff_map_eq hjlen hjlen' fun i hx hx' hi hi' =>
    Deps.valueToJson_eq_iff (htyped _ (hmem (hlen ▸ hx) hx)) (htyped' _ (hmem (hlen ▸ hx) hx'))
      (hget i (hlen ▸ hx) hx hi) (hget' i (hlen ▸ hx) hx' hi')]
  constructor
  · intro htext
    refine answerShape_inj (by rw [← hjlen, ← hjlen', ← hlen, ← hlen']) ?_
    exact display_injective (floatFree_answerShape (Deps.floatFree_of_rendered hjs))
      (floatFree_answerShape (Deps.floatFree_of_rendered hjs')) htext
  · intro heq
    rw [heq]

theorem built_paused : ∀ p ∈ pausedFunction.outputs, Built pausedDeps.toTypeGrammar p := by
  intro p hp
  rw [List.mem_singleton.mp hp]
  have hspec : pausedDeps.typeSpecifier "bool".toList = some ("bool".toList, []) := rfl
  exact .scalar hspec (show _ = some .bool from rfl) trivial

theorem answers_agree_iff_paused :
    ("true" = "true" ↔ (pausedDecoding 1).values.map DynSolValue.norm =
      (pausedDecoding 2).values.map DynSolValue.norm) ∧
    ("true" = "false" ↔ (pausedDecoding 1).values.map DynSolValue.norm =
      (pausedDecoding 0).values.map DynSolValue.norm) := by
  have hanswer : ∀ (n : UInt8) (b : Bool), decide ((wordOf n).toWord ≠ 0) = b →
      pausedDeps.decodeFunctionResult pausedAbiJson "paused" (hexEncodePrefixed (wordOf n).bytes) =
        .ok (Value.bool b).display := by
    intro n b hb
    exact (Deps.answered_iff (pausedDecoding n)).mpr ⟨[.bool b], by rw [← hb]; rfl, rfl⟩
  exact ⟨answers_agree_iff pausedDeps (pausedDecoding 1) (pausedDecoding 2) built_paused
      (hanswer 1 true (by rw [toWord_wordOf]; decide)) (hanswer 2 true (by rw [toWord_wordOf]; decide)),
    answers_agree_iff pausedDeps (pausedDecoding 1) (pausedDecoding 0) built_paused
      (hanswer 1 true (by rw [toWord_wordOf]; decide)) (hanswer 0 false (by rw [toWord_wordOf]; decide))⟩

end AmbireCrypto
