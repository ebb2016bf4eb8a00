/-
# `AmbireCrypto.RoundTrip` — encoding undoes decoding

Two separate recursions meet here.  `valueToJson` follows the value and reuses
one parameter through all levels of an array; `jsonToValue` follows the type
string, peeled from the right.  On the parameters a JSON ABI is made of (`Built`)
they agree at every node, and what comes back is the value itself, up to the two
things JSON text drops (`norm`): a byte order mark in front of a string, and the
bytes of a word behind its declared length.

The leaves are done one format at a time, the arrays and tuples by the list
lemmas of `Lib.Traverse`; the main proof only puts the parameters together.

## What `encode_undoes_decode` asks for, and why

* The parameter is `Built`: an inline tuple has no components to be shown with, and of
  two components with one name only one field is shown.
* The integers are in their declared width.  A decoded word need not be, and if it is
  not, the answer is refused on the way back (`Reread`).
* There is no function pointer, which is never shown.

Nothing is asked of strings or of words of bytes; for these there is `norm`.
-/
import AmbireCrypto.IntegerArgs
import AmbireCrypto.Rendering
import AmbireCrypto.Addresses

namespace AmbireCrypto

open Traverse

/-! ## What the JSON does not keep -/

/-- One byte order mark off the front. -/
def dropByteOrderMark : List Char → List Char
  | c :: cs => if c = '\ufeff' then cs else c :: cs
  | [] => []

/-- The bytes behind the first `n`, set to zero. -/
def FixedBytes.zeroAfter (word : B256) (n : Nat) : B256 :=
  ⟨word.bytes.mapIdx fun i b => if i < n then b else 0, by rw [List.length_mapIdx, word.length_eq]⟩

namespace DynSolValue

mutual
def norm (v : DynSolValue) : DynSolValue :=
  match v with
  | .string s => .string (String.ofList (dropByteOrderMark s.toList))
  | .fixedBytes word size => .fixedBytes (word.zeroAfter size) size
  | .array items => .array (normAll items)
  | .fixedArray items => .fixedArray (normAll items)
  | .tuple fields => .tuple (normAll fields)
  | v => v
def normAll (vs : List DynSolValue) : List DynSolValue :=
  match vs with
  | [] => []
  | v :: vs => v.norm :: normAll vs
end

theorem normAll_eq_map : ∀ vs : List DynSolValue, normAll vs = vs.map norm
  | [] => rfl
  | v :: vs => by rw [normAll, normAll_eq_map vs, List.map_cons]

@[simp] theorem norm_array (items : List DynSolValue) :
    norm (.array items) = .array (items.map norm) := by rw [norm, normAll_eq_map]

@[simp] theorem norm_fixedArray (items : List DynSolValue) :
    norm (.fixedArray items) = .fixedArray (items.map norm) := by rw [norm, normAll_eq_map]

@[simp] theorem norm_tuple (fields : List DynSolValue) :
    norm (.tuple fields) = .tuple (fields.map norm) := by rw [norm, normAll_eq_map]

end DynSolValue

/-! ## Leaves, one format at a time -/

theorem stripByteOrderMark_eq (s : String) :
    stripByteOrderMark s = String.ofList (dropByteOrderMark s.toList) := by
  simp only [stripByteOrderMark, stripPrefix]
  cases h : s.toList with
  | nil =>
      show s = _
      rw [dropByteOrderMark, ← h, String.ofList_toList]
  | cons c cs =>
      rcases eq_or_ne c '\ufeff' with rfl | hne
      · rfl
      · have hpre : [BYTE_ORDER_MARK].isPrefixOf (c :: cs) = false := by
          simp [List.isPrefixOf, BYTE_ORDER_MARK, Ne.symm hne]
        rw [hpre, dropByteOrderMark, if_neg hne, ← h, String.ofList_toList]
        rfl

/-- The bytes copied into a zero word are the word's own, zeros behind them. -/
theorem wordOfPrefix_take (word : B256) {n : Nat} (hn : n ≤ 32) :
    wordOfPrefix (word.bytes.take n) = word.zeroAfter n := by
  obtain ⟨bytes, hlen⟩ := word
  refine FixedBytes.mk.injEq .. |>.mpr (List.ext_getElem (by simp [hlen]) fun i h₁ h₂ => ?_)
  have hi : i < 32 := by simpa [hlen] using h₂
  rw [List.getElem_take, List.getElem_mapIdx]
  rcases lt_or_ge i n with hlt | hge
  · rw [if_pos hlt, List.getElem_append_left (by rw [List.length_take, hlen]; omega),
      List.getElem_take]
  · rw [if_neg (not_lt.mpr hge), List.getElem_append_right (by rw [List.length_take, hlen]; omega),
      List.getElem_replicate]

theorem spells_of_safe {v : Int} (h : Safe v) : Spells v (.number h.number) := by
  simp only [Safe.number, Number.ofI64]
  split
  · exact .negInt
  · rename_i hneg
    exact .posInt (Int.toNat_of_nonneg (not_lt.mp hneg))

theorem safe_of_holds {t : DynSolType} {v : Int} (hv : t.Holds v) {d : DynSolValue}
    (hleaf : IsLeaf t v d) {size : Nat} (hsize : d.asInt = some (v, size))
    (hnarrow : size ≤ JS_SAFE_INT_BITS) : Safe v := by
  have hpow : (2 : Int) ^ JS_SAFE_INT_BITS ≤ JS_MAX_SAFE_INTEGER := by decide
  cases hleaf with
  | @uint size' _ u hu =>
      obtain ⟨-, rfl⟩ := Prod.mk.inj (Option.some.inj hsize)
      have hle : (2 : Int) ^ size' ≤ 2 ^ JS_SAFE_INT_BITS := pow_le_pow_right₀ (by norm_num) hnarrow
      obtain ⟨hlo, hhi⟩ := hv
      simp only [Safe]
      omega
  | @int size' _ i hi =>
      obtain ⟨-, rfl⟩ := Prod.mk.inj (Option.some.inj hsize)
      have hle : (2 : Int) ^ (size' - 1) ≤ 2 ^ JS_SAFE_INT_BITS :=
        pow_le_pow_right₀ (by norm_num) (by omega)
      obtain ⟨hlo, hhi⟩ := hv
      simp only [Safe]
      omega

theorem integer_roundtrip (D : Deps) {t : DynSolType} (ht : t.IsInteger) {v : Int}
    (hv : t.Holds v) {d : DynSolValue} (hleaf : IsLeaf t v d) {size : Nat}
    (hsize : d.asInt = some (v, size)) :
    ∃ j, intToJson v.repr size = .ok j ∧ D.coerceScalar t j = .ok d := by
  by_cases hwide : JS_SAFE_INT_BITS < size
  · exact ⟨bigintTag v.repr, intToJson_wide hwide _,
      (coerceScalar_spells_iff D ht .tag).mpr ⟨hv, hleaf⟩⟩
  · have hsafe := safe_of_holds hv hleaf hsize (not_lt.mp hwide)
    refine ⟨.number hsafe.number, (intToJson_narrow_iff hwide).mpr ⟨hsafe, rfl⟩, ?_⟩
    exact (coerceScalar_spells_iff D ht (spells_of_safe hsafe)).mpr ⟨hv, hleaf⟩

namespace Deps

variable {D : Deps}

theorem scalar_roundtrip {t : DynSolType} (hwidths : t.WidthsOk) {d : DynSolValue}
    (hd : d.Scalar) (hmatch : t.Matches d) (hwidth : d.InWidth) (hfun : ∀ f, d ≠ .function f)
    (p : Param) : ∃ j, D.valueToJson p d = .ok j ∧ D.coerceScalar t j = .ok d.norm := by
  cases d with
  | array items => exact hd.elim
  | fixedArray items => exact hd.elim
  | tuple fields => exact hd.elim
  | function f => exact absurd rfl (hfun f)
  | bool b =>
      cases t with
      | bool => exact ⟨_, rfl, rfl⟩
      | _ => exact hmatch.elim
  | uint u size =>
      cases t with
      | uint size' =>
          cases hmatch
          have hholds : DynSolType.Holds (.uint size) u.toNat :=
            ⟨Int.natCast_nonneg _, by exact_mod_cast hwidth⟩
          exact integer_roundtrip D (t := .uint size) ⟨hwidths.1, hwidths.2.1⟩ hholds (.uint rfl) rfl
      | _ => exact hmatch.elim
  | int i size =>
      cases t with
      | int size' =>
          cases hmatch
          exact integer_roundtrip D (t := .int size) ⟨hwidths.1, hwidths.2.1⟩ hwidth (.int rfl) rfl
      | _ => exact hmatch.elim
  | address a =>
      cases t with
      | address =>
          refine ⟨_, rfl, ?_⟩
          show DynSolValue.address <$> D.parseViemStrictAddress (toChecksum D.keccak256 a) = _
          rw [parseViemStrictAddress_toChecksum]
          rfl
      | _ => exact hmatch.elim
  | bytes b =>
      cases t with
      | bytes =>
          refine ⟨_, rfl, ?_⟩
          show DynSolValue.bytes <$> D.decodeViemHex (hexEncodePrefixed b) = _
          rw [decodeViemHex_hexEncodePrefixed]
          rfl
      | _ => exact hmatch.elim
  | fixedBytes word size =>
      cases t with
      | fixedBytes size' =>
          cases hmatch
          refine ⟨_, rfl, ?_⟩
          show D.decodeViemHex (hexEncodePrefixed (word.bytes.take size)) >>= coerceFixedBytes size
            = _
          rw [decodeViemHex_hexEncodePrefixed]
          refine coerceFixedBytes_eq_ok_iff.mpr ⟨?_, ?_⟩
          · rw [List.length_take, word.length_eq]
            exact min_eq_left hwidths.2
          · rw [wordOfPrefix_take word hwidths.2]
            rfl
      | _ => exact hmatch.elim
  | string s =>
      cases t with
      | string =>
          refine ⟨_, rfl, ?_⟩
          rw [stripByteOrderMark_eq]
          rfl
      | _ => exact hmatch.elim

end Deps

/-! ## Parameters of a JSON ABI -/

/-- Put together from scalar types, `T[]`, `T[k]` and tuples with components; the
names of a fully named tuple are distinct. -/
inductive Built (G : TypeGrammar) : Param → Prop
  | scalar {ty name : String} {stem : List Char} {sizes : List (Option Nat)} {t : DynSolType} :
      G.typeSpecifier ty.toList = some (stem, sizes) → G.stemType stem = some t → t.Scalar →
      Built G ⟨ty, name, []⟩
  | tuple {ty name : String} {components : List Param} {sizes : List (Option Nat)} :
      G.typeSpecifier ty.toList = some ("tuple".toList, sizes) →
      (allNamed components = true → (components.map Param.name).Nodup) →
      (∀ c ∈ components, Built G c) → Built G ⟨ty, name, components⟩

theorem Built.element {G : TypeGrammar} {p : Param} (hp : Built G p) {base : String}
    {len : Option Nat} (hsplit : splitArrayType G.usizeMax p.ty = some (base, len)) :
    Built G (p.element base) := by
  cases hp with
  | scalar hspec hstem ht =>
      rcases G.typeSpecifier_cases hspec with ⟨-, -, hnone⟩ | ⟨base', d, init, hsome, -, hbase, -⟩
      · rw [hnone] at hsplit
        cases hsplit
      · rw [hsome] at hsplit
        cases hsplit
        exact .scalar hbase hstem ht
  | tuple hspec hnames hcs =>
      rcases G.typeSpecifier_cases hspec with ⟨-, -, hnone⟩ | ⟨base', d, init, hsome, -, hbase, -⟩
      · rw [hnone] at hsplit
        cases hsplit
      · rw [hsome] at hsplit
        cases hsplit
        exact .tuple hbase hnames hcs

/-- What is not an array is a scalar, or a tuple of built components. -/
theorem Built.unsplit {G : TypeGrammar} {p : Param} (hp : Built G p)
    (hsplit : splitArrayType G.usizeMax p.ty = none) :
    (∃ t, p.ty ≠ "tuple" ∧ G.stemWith p.ty.toList p.components = some t ∧ t.Scalar) ∨
      (p.ty = "tuple" ∧ (allNamed p.components = true → (p.components.map Param.name).Nodup) ∧
        ∀ c ∈ p.components, Built G c) := by
  cases hp with
  | scalar hspec hstem ht =>
      rcases G.typeSpecifier_cases hspec with ⟨rfl, -, -⟩ | ⟨base', d, init, hsome, -⟩
      · refine Or.inl ⟨_, ?_, hstem, ht⟩
        rintro rfl
        rw [G.stemType_tuple] at hstem
        cases hstem
      · rw [hsome] at hsplit
        cases hsplit
  | tuple hspec hnames hcs =>
      rcases G.typeSpecifier_cases hspec with ⟨heq, -, -⟩ | ⟨base', d, init, hsome, -⟩
      · exact Or.inr ⟨String.toList_injective heq.symm, hnames, hcs⟩
      · rw [hsome] at hsplit
        cases hsplit

/-! ## The round trip -/

theorem matches_wrapOne {t : DynSolType} {len : Option Nat} {d : DynSolValue}
    (h : (t.wrapOne len).Matches d) :
    ∃ items, d = .ofItems items len ∧ (∀ k, len = some k → items.length = k) ∧
      ∀ v ∈ items, t.Matches v := by
  cases len with
  | none =>
      cases d with
      | array items => exact ⟨items, rfl, nofun, h⟩
      | _ => exact h.elim
  | some k =>
      cases d with
      | fixedArray items =>
          exact ⟨items, rfl, fun _ hk => Option.some.inj hk ▸ h.1, h.2⟩
      | _ => exact h.elim

theorem matches_tuple {ts : List DynSolType} {d : DynSolValue}
    (h : (DynSolType.tuple ts).Matches d) :
    ∃ fields, d = .tuple fields ∧ List.Forall₂ DynSolType.Matches ts fields := by
  cases d with
  | tuple fields => exact ⟨fields, rfl, matchesAll_iff.mp h⟩
  | _ => exact h.elim

theorem norm_ofItems (items : List DynSolValue) (len : Option Nat) :
    (DynSolValue.ofItems items len).norm = .ofItems (items.map DynSolValue.norm) len := by
  cases len with
  | none => exact DynSolValue.norm_array items
  | some k => exact DynSolValue.norm_fixedArray items

namespace Deps

variable {D : Deps}

/-- Of the parameter, the decoder looks at nothing but the components. -/
theorem valueToJson_congr (v : DynSolValue) : ∀ {p q : Param},
    p.components = q.components → D.valueToJson p v = D.valueToJson q v := by
  induction v using DynSolValue.nodeInduction with
  | scalar v hv =>
      intro p q _
      cases v with
      | array items => exact hv.elim
      | fixedArray items => exact hv.elim
      | tuple fields => exact hv.elim
      | _ => rfl
  | items items len ih =>
      intro p q h
      rw [valueToJson_ofItems, valueToJson_ofItems, mapM_congr fun v hv => ih v hv h]
  | tuple fields _ =>
      intro p q h
      rw [valueToJson_tuple, valueToJson_tuple, h]

/-- The rendered fields are found again, by name or by position. -/
theorem tupleFields_tupleShape {components : List Param} {js : List Value}
    (hlen : components.length = js.length)
    (hnames : allNamed components = true → (components.map Param.name).Nodup) :
    tupleFields components (tupleShape components js) = .ok js := by
  simp only [tupleShape]
  cases hnamed : allNamed components with
  | false => exact tupleFields_array_eq_ok_iff.mpr ⟨hlen.symm, rfl⟩
  | true =>
      show components.mapM (fieldAt _) = .ok js
      refine mapM_eq_ok_iff.mpr (List.forall₂_iff_get.mpr ⟨hlen, fun i hc hj => ?_⟩)
      refine fieldAt_eq_ok_iff.mpr ((lookup_rendered_iff hlen).mpr
        ⟨i, hc, hj, rfl, rfl, fun k hk hik heq => ?_⟩)
      have hne := List.pairwise_iff_getElem.mp (hnames hnamed) i k (by rwa [List.length_map])
        (by rwa [List.length_map]) hik
      rw [List.getElem_map, List.getElem_map] at hne
      exact hne heq.symm

/-- A value of a built parameter's type, with its integers in their widths and no
function in it, is shown, and what is shown is read back as its normal form. -/
theorem encode_undoes_decode (d : DynSolValue) : ∀ {p : Param} {t : DynSolType},
    Built D.toTypeGrammar p → D.resolve p = some t → t.Matches d →
    (∀ x : DynSolValue, x.In d → x.InWidth) → (∀ x : DynSolValue, x.In d → ∀ f, x ≠ .function f) →
    ∃ j, D.valueToJson p d = .ok j ∧ D.jsonToValue p j = .ok d.norm := by
  induction d using DynSolValue.childInduction with
  | step d ih =>
      intro p t hp ht hmatch hwidth hfun
      rcases D.resolve_cases ht with ⟨hsplit, hstem⟩ | ⟨base, len, t', hsplit, -, hbase, rfl⟩
      · rcases hp.unsplit hsplit with ⟨t', hty, hstem', hscalar⟩ | ⟨hty, hnames, hbuilt⟩
        · -- a scalar
          rw [hstem] at hstem'
          cases hstem'
          have hd := matches_scalar hscalar hmatch
          obtain ⟨j, hj, hback⟩ := scalar_roundtrip (D.stemWith_widths hstem) hd hmatch
            (hwidth d .here) (hfun d .here) p
          refine ⟨j, hj, ?_⟩
          rw [jsonToValue_scalar hsplit hty, ht]
          exact hback
        · -- a tuple: each field by its own component
          rw [hty] at hstem
          obtain ⟨ts, hts, rfl⟩ := D.stemWith_tuple hstem
          obtain ⟨fields, rfl, hfields⟩ := matches_tuple hmatch
          have hlen : p.components.length = fields.length := hts.length_eq.trans hfields.length_eq
          have hinv : ∀ e ∈ p.components.zip fields, ∃ j, D.renderField e = .ok j ∧
              D.jsonToValue e.1 j = .ok e.2.norm := by
            intro e he
            obtain ⟨i, hi, rfl⟩ := List.mem_iff_getElem.mp he
            rw [List.length_zip, lt_min_iff] at hi
            have hit : i < ts.length := hts.length_eq ▸ hi.1
            rw [List.getElem_zip]
            have hmem : fields[i] ∈ fields := List.getElem_mem hi.2
            exact ih _ (.tuple hmem) (hbuilt _ (List.getElem_mem hi.1))
              ((List.forall₂_iff_get.mp hts).2 i hi.1 hit)
              ((List.forall₂_iff_get.mp hfields).2 i hit hi.2)
              (fun x hx => hwidth x (.tuple hmem hx)) (fun x hx => hfun x (.tuple hmem hx))
          obtain ⟨js, hlen', hjs, hback⟩ := exists_mapM_zip_inverse
            (g := fun e => D.jsonToValue e.1 e.2) hlen hinv
          refine ⟨tupleShape p.components js, ?_, ?_⟩
          · rw [valueToJson_tuple]
            exact tupleToJson_eq_ok_iff.mpr ⟨hlen, js, hjs, rfl⟩
          · rw [DynSolValue.norm_tuple]
            exact (jsonToValue_tuple_eq_ok_iff hty).mpr
              ⟨js, _, tupleFields_tupleShape hlen' hnames, hback, rfl⟩
      · -- an array: one dimension off the type string, the same components
        obtain ⟨items, rfl, hlen, hitems⟩ := matches_wrapOne hmatch
        have hcongr : ∀ v, D.valueToJson p v = D.valueToJson (p.element base) v :=
          fun v => valueToJson_congr v rfl
        have hinv : ∀ v ∈ items, ∃ j, D.valueToJson p v = .ok j ∧
            D.jsonToValue (p.element base) j = .ok v.norm := by
          intro v hv
          have hchild := DynSolValue.child_ofItems len hv
          rw [hcongr]
          exact ih v hchild (hp.element hsplit) (hbase "") (hitems v hv)
            (fun x hx => hwidth x (.of_child hchild hx)) (fun x hx => hfun x (.of_child hchild hx))
        obtain ⟨js, hjs, hback⟩ := exists_mapM_inverse hinv
        refine ⟨.array js, ?_, ?_⟩
        · rw [valueToJson_ofItems, hjs]
          rfl
        · rw [norm_ofItems]
          refine (jsonToValue_array_eq_ok_iff hsplit).mpr ⟨js, _, rfl, fun k hk => ?_, hback, rfl⟩
          rw [← length_of_mapM_eq_ok hjs]
          exact hlen k hk

end Deps

/-! Named tuples with a marked string and a negative integer. -/

def notesParam : Param := ⟨"tuple[]", "notes", [⟨"string", "memo", []⟩, ⟨"int16", "delta", []⟩]⟩

def notesValue (memo : String) : DynSolValue := .array [.tuple [.string memo, .int (-5) 16]]

theorem built_notes : Built Reference.grammar notesParam := by
  have hmemo : Built Reference.grammar ⟨"string", "memo", []⟩ := .scalar (t := .string) rfl rfl trivial
  have hdelta : Built Reference.grammar ⟨"int16", "delta", []⟩ := .scalar (t := .int 16) rfl rfl trivial
  refine .tuple rfl (fun _ => by decide) fun c hc => ?_
  rcases List.mem_cons.mp hc with rfl | hc
  · exact hmemo
  · rw [List.mem_singleton.mp hc]
    exact hdelta

theorem encode_undoes_decode_notes :
    ∃ j, reference₀.valueToJson notesParam (notesValue "\ufeffpaid") = .ok j ∧
      reference₀.jsonToValue notesParam j = .ok (notesValue "paid") := by
  have hres : reference₀.resolve notesParam = some (.array (.tuple [.string, .int 16])) := rfl
  refine Deps.encode_undoes_decode (notesValue "\ufeffpaid") built_notes hres ?_ ?_ ?_
  · intro v hv
    rw [List.mem_singleton.mp hv]
    exact ⟨trivial, rfl, trivial⟩
  · refine (DynSolValue.forall_in_ofItems_iff none).mpr ⟨trivial, fun v hv => ?_⟩
    rw [List.mem_singleton.mp hv]
    refine DynSolValue.forall_in_tuple_iff.mpr ⟨trivial, fun f hf => ?_⟩
    rcases List.mem_cons.mp hf with rfl | hf
    · intro x hx
      cases hx
      trivial
    · rw [List.mem_singleton.mp hf]
      intro x hx
      cases hx
      exact ⟨by decide, by decide⟩
  · refine (DynSolValue.forall_in_ofItems_iff none).mpr ⟨nofun, fun v hv => ?_⟩
    rw [List.mem_singleton.mp hv]
    refine DynSolValue.forall_in_tuple_iff.mpr ⟨nofun, fun f hf => ?_⟩
    rcases List.mem_cons.mp hf with rfl | hf
    · intro x hx
      cases hx
      nofun
    · rw [List.mem_singleton.mp hf]
      intro x hx
      cases hx
      nofun

end AmbireCrypto
