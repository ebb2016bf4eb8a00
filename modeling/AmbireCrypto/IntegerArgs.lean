/-
# `AmbireCrypto.IntegerArgs` — which integers get through

An integer argument is text before it is a number: `argToDecimal` takes the text
out of a string, of a tag or of a JSON number, and ruint or alloy parses it.  One
lemma, `coerceScalar_eq_ok_iff`, says what comes of any text at any integer type;
the three results are readings of it.

* `width_enforced` — on canonical numerals the check is exactly the declared range;
* `integer_text_iff` — which texts are taken although `BigInt` would refuse them:
  those with an underscore, and a lone sign;
* `json_number_iff` — which JSON numbers are taken although no double has their
  value: integer literals past 2^53 that `serde_json` still keeps as integers.

## The vocabulary

`Holds` is the range of a declared width, `IsLeaf` the leaf whose word says a number,
`ParsesTo` what ruint's and alloy's parsers make of a text, ranges aside.  A text that
parses into the word but not into the declared width is refused as out of range, and
only such a text is (`coerceScalar_out_of_range`).

`BigIntText` is the grammar of JavaScript's `BigInt` on these texts, and
`bigIntText_of_parsesTo` the reason the second result is so short: a text without an
underscore that a parser here reads is one `BigInt` reads, with the same value.

## What it is not

A float is never an integer argument (`coerceScalar_float`), whatever its value, so
`1.0` is refused; that is a matter of the JSON parser, which keeps it as a float.
-/
import AmbireCrypto.Coercion
import AmbireCrypto.Lib.Significand

namespace AmbireCrypto

open Numeral Traverse

/-! ## Integer types and their leaves -/

namespace DynSolType

/-- `uintN` or `intN`. -/
def IsInteger : DynSolType → Prop
  | .int size | .uint size => 1 ≤ size ∧ size ≤ 256
  | _ => False

/-- The integers the declared width has room for. -/
def Holds : DynSolType → Int → Prop
  | .uint size, v => 0 ≤ v ∧ v < 2 ^ size
  | .int size, v => -(2 ^ (size - 1)) ≤ v ∧ v < 2 ^ (size - 1)
  | _, _ => False

end DynSolType

/-- `d` is the leaf of type `ty` whose word says `v`. -/
inductive IsLeaf : DynSolType → Int → DynSolValue → Prop
  | uint {size : Nat} {v : Int} {u : U256} : (u.toNat : Int) = v → IsLeaf (.uint size) v (.uint u size)
  | int {size : Nat} {v : Int} {i : U256} : i.toInt = v → IsLeaf (.int size) v (.int i size)

/-! ## What the parsers make of a text -/

/-- Nothing but digits and underscores. -/
def Lenient (cs : List Char) : Prop := ∀ c ∈ cs, skipUnderscore c = false → c.isDigit = true

/-- The number its digits spell. -/
def numeral (cs : List Char) : Nat := Nat.ofDigitChars 10 (cs.filter fun c => !skipUnderscore c) 0

/-- What the parser of an integer type reads, ranges aside: underscores count for
nothing, and only a signed type takes a sign. -/
def ParsesTo : DynSolType → String → Int → Prop
  | .uint _, s, v => Lenient s.toList ∧ v = numeral s.toList
  | .int _, s, v => Lenient (splitSign s.toList).2 ∧
      v = signed (splitSign s.toList).1 (numeral (splitSign s.toList).2)
  | _, _, _ => False

theorem u256FromStrRadix10_eq_ok_iff {s : String} {w : U256} :
    u256FromStrRadix10 s = .ok w ↔
      Lenient s.toList ∧ numeral s.toList < 2 ^ 256 ∧ w = BitVec.ofNat 256 (numeral s.toList) := by
  have hmap : u256FromStrRadix10 s = .ok w ↔
      ∃ n, read skipUnderscore (2 ^ 256 - 1) s.toList = .ok n ∧ BitVec.ofNat 256 n = w := map_eq_ok
  simp only [hmap, read_eq_ok_iff]
  constructor
  · rintro ⟨_, ⟨hlen, rfl, hmax⟩, rfl⟩
    exact ⟨hlen, by unfold numeral; omega, rfl⟩
  · rintro ⟨hlen, hmax, rfl⟩
    exact ⟨_, ⟨hlen, rfl, by unfold numeral at hmax; omega⟩, rfl⟩

theorem i256FromSignAndAbs_eq_ok_iff {negative : Bool} {abs : Nat} {w : U256} :
    i256FromSignAndAbs negative abs = .ok w ↔
      (-(2 ^ 255) ≤ signed negative abs ∧ signed negative abs < 2 ^ 255) ∧
        w = BitVec.ofInt 256 (signed negative abs) := by
  cases negative with
  | true =>
      show (if abs ≤ 2 ^ 255 then _ else _) = _ ↔ (_ ≤ -(abs : Int) ∧ -(abs : Int) < _) ∧ _
      constructor
      · intro h
        split at h
        · rename_i habs
          cases h
          exact ⟨⟨by omega, by omega⟩, rfl⟩
        · cases h
      · rintro ⟨⟨hlo, -⟩, rfl⟩
        exact if_pos (by omega)
  | false =>
      show (if abs < 2 ^ 255 then _ else _) = _ ↔ (_ ≤ (abs : Int) ∧ (abs : Int) < _) ∧ _
      constructor
      · intro h
        split at h
        · rename_i habs
          cases h
          exact ⟨⟨by omega, by omega⟩, rfl⟩
        · cases h
      · rintro ⟨⟨-, hhi⟩, rfl⟩
        exact if_pos (by omega)

theorem i256FromDecStr_eq_ok_iff {s : String} {w : U256} :
    i256FromDecStr s = .ok w ↔
      ∃ v, ParsesTo (.int 256) s v ∧ DynSolType.Holds (.int 256) v ∧ w = BitVec.ofInt 256 v := by
  simp only [i256FromDecStr]
  simp only [bind_eq_ok, read_eq_ok_iff, i256FromSignAndAbs_eq_ok_iff]
  constructor
  · rintro ⟨_, ⟨hlen, rfl, -⟩, hrange, hw⟩
    exact ⟨_, ⟨hlen, rfl⟩, hrange, hw⟩
  · rintro ⟨_, ⟨hlen, rfl⟩, hrange, hw⟩
    refine ⟨_, ⟨hlen, rfl, ?_⟩, hrange, hw⟩
    -- a value in the signed range is short enough to be read at all
    have habs : ∀ (negative : Bool) (n : Nat), DynSolType.Holds (.int 256) (signed negative n) →
        n ≤ 2 ^ 256 - 1 := by
      rintro (_ | _) n ⟨hlo, hhi⟩ <;> simp only [signed, Bool.false_eq_true, ↓reduceIte] at hlo hhi
        <;> omega
    exact habs _ _ hrange

/-! ## What `coerceScalar` makes of a text -/

theorem holds_int_mono {m n : Nat} (h : m ≤ n) {v : Int} (hv : DynSolType.Holds (.int m) v) :
    DynSolType.Holds (.int n) v := by
  have hpow : (2 : Int) ^ (m - 1) ≤ 2 ^ (n - 1) := pow_le_pow_right₀ (by norm_num) (by omega)
  exact ⟨le_trans (neg_le_neg hpow) hv.1, lt_of_lt_of_le hv.2 hpow⟩

/-- Accepted: the text parses, its value is in the declared range, and the leaf
says that value. -/
theorem coerceScalar_eq_ok_iff (D : Deps) {ty : DynSolType} (hty : ty.IsInteger) {j : Value}
    {s : String} (hj : argToDecimal j = .ok s) {d : DynSolValue} :
    D.coerceScalar ty j = .ok d ↔ ∃ v, ParsesTo ty s v ∧ ty.Holds v ∧ IsLeaf ty v d := by
  cases ty with
  | uint size =>
      show argToDecimal j >>= D.coerceUint size = _ ↔ _
      rw [hj]
      show D.coerceUint size s = _ ↔ _
      rw [Deps.coerceUint_eq_ok_iff]
      constructor
      · rintro ⟨w, hw, hlt, rfl⟩
        obtain ⟨hlen, hmax, rfl⟩ := u256FromStrRadix10_eq_ok_iff.mp hw
        have hword : (BitVec.ofNat 256 (numeral s.toList)).toNat = numeral s.toList :=
          (BitVec.toNat_ofNat _ _).trans (Nat.mod_eq_of_lt hmax)
        rw [hword] at hlt
        exact ⟨numeral s.toList, ⟨hlen, rfl⟩, ⟨Int.natCast_nonneg _, by exact_mod_cast hlt⟩,
          .uint (congrArg _ hword)⟩
      · rintro ⟨_, ⟨hlen, rfl⟩, ⟨-, hlt⟩, hleaf⟩
        cases hleaf with
        | @uint _ _ u hu =>
            have hu' : u.toNat = numeral s.toList := by exact_mod_cast hu
            have hlt' : u.toNat < 2 ^ size := by rw [hu']; exact_mod_cast hlt
            refine ⟨u, u256FromStrRadix10_eq_ok_iff.mpr ⟨hlen, hu' ▸ u.isLt, ?_⟩, hlt', rfl⟩
            rw [← hu', BitVec.ofNat_toNat, BitVec.setWidth_eq]
  | int size =>
      show argToDecimal j >>= D.coerceInt size = _ ↔ _
      rw [hj]
      show D.coerceInt size s = _ ↔ _
      rw [Deps.coerceInt_eq_ok_iff hty.1]
      constructor
      · rintro ⟨w, hw, hrange, rfl⟩
        obtain ⟨v, hparse, hv, rfl⟩ := i256FromDecStr_eq_ok_iff.mp hw
        have hword : (BitVec.ofInt 256 v).toInt = v := Width.toInt_ofInt hv.1 hv.2
        rw [hword] at hrange
        exact ⟨v, hparse, hrange, .int hword⟩
      · rintro ⟨v, hparse, hrange, hleaf⟩
        cases hleaf with
        | @int _ _ w hw =>
            refine ⟨w, i256FromDecStr_eq_ok_iff.mpr ⟨v, hparse, holds_int_mono hty.2 hrange, ?_⟩,
              hw ▸ hrange, rfl⟩
            rw [← hw, BitVec.ofInt_toInt]
  | _ => exact hty.elim

/-- Refused for its width: the text parses to something a word has room for, and
the declared type has not. -/
theorem coerceScalar_out_of_range (D : Deps) {j : Value} {s : String}
    (hj : argToDecimal j = .ok s) {v : Int} {size : Nat} :
    (ParsesTo (.uint 256) s v → DynSolType.Holds (.uint 256) v →
      ¬ DynSolType.Holds (.uint size) v →
        D.coerceScalar (.uint size) j = .error (.integerOutOfRange s ("uint" ++ size.repr))) ∧
    (0 < size → ParsesTo (.int 256) s v → DynSolType.Holds (.int 256) v →
      ¬ DynSolType.Holds (.int size) v →
        D.coerceScalar (.int size) j = .error (.integerOutOfRange s ("int" ++ size.repr))) := by
  constructor
  · rintro ⟨hlen, rfl⟩ ⟨-, hmax⟩ hnot
    have hmax' : numeral s.toList < 2 ^ 256 := by exact_mod_cast hmax
    have hparse := u256FromStrRadix10_eq_ok_iff.mpr ⟨hlen, hmax', rfl⟩
    show argToDecimal j >>= D.coerceUint size = _
    rw [hj]
    show D.coerceUint size s = _
    rw [Deps.coerceUint_of_parsed hparse, BitVec.toNat_ofNat, Nat.mod_eq_of_lt hmax']
    exact if_neg fun hlt => hnot ⟨Int.natCast_nonneg _, by exact_mod_cast hlt⟩
  · intro hsize hparse hrange hnot
    have hword := i256FromDecStr_eq_ok_iff.mpr ⟨v, hparse, hrange, rfl⟩
    show argToDecimal j >>= D.coerceInt size = _
    rw [hj]
    show D.coerceInt size s = _
    rw [Deps.coerceInt_of_parsed hsize hword, Width.toInt_ofInt hrange.1 hrange.2]
    exact if_neg hnot

/-! ## Canonical numerals -/

theorem skipUnderscore_of_isDigit (c : Char) (h : c.isDigit = true) : skipUnderscore c = false := by
  refine beq_eq_false_iff_ne.mpr ?_
  rintro rfl
  exact absurd h (by decide)

theorem lenient_toDigits (n : Nat) : Lenient (Nat.toDigits 10 n) := by
  intro c hc _
  exact isDigit_of_mem_toDigits hc

theorem numeral_toDigits (n : Nat) : numeral (Nat.toDigits 10 n) = n := by
  rw [numeral, filter_toDigits skipUnderscore_of_isDigit]
  exact Nat.ofDigitChars_ten_toDigits

theorem parsesTo_uint_repr {size : Nat} {v v' : Int} :
    ParsesTo (.uint size) v.repr v' ↔ 0 ≤ v ∧ v' = v := by
  show Lenient v.repr.toList ∧ v' = numeral v.repr.toList ↔ _
  rw [toList_repr]
  rcases lt_or_ge v 0 with hneg | hpos
  · rw [if_pos hneg]
    constructor
    · rintro ⟨hlen, -⟩
      exact absurd (hlen '-' List.mem_cons_self rfl) (by decide)
    · rintro ⟨hpos, -⟩
      exact absurd hpos (not_le.mpr hneg)
  · rw [if_neg (not_lt.mpr hpos), numeral_toDigits, Int.natAbs_of_nonneg hpos]
    exact ⟨fun h => ⟨hpos, h.2⟩, fun h => ⟨lenient_toDigits _, h.2⟩⟩

theorem parsesTo_int_repr {size : Nat} {v v' : Int} :
    ParsesTo (.int size) v.repr v' ↔ v' = v := by
  show Lenient (splitSign v.repr.toList).2 ∧ _ = _ ↔ _
  rw [splitSign_repr, numeral_toDigits, signed_natAbs]
  exact ⟨fun h => h.2, fun h => ⟨lenient_toDigits _, h⟩⟩

/-- The three ways an argument spells an integer canonically. -/
inductive Spells (v : Int) : Value → Prop
  | text : Spells v (.string v.repr)
  | tag : Spells v (bigintTag v.repr)
  | posInt {n : Nat} {h : n < 2 ^ 64} : (n : Int) = v → Spells v (.number (.posInt n h))
  | negInt {h : -(2 ^ 63) ≤ v ∧ v < 0} : Spells v (.number (.negInt v h))

theorem argToDecimal_of_spells {v : Int} {j : Value} (h : Spells v j) :
    argToDecimal j = .ok v.repr := by
  cases h with
  | text => rfl
  | tag => rfl
  | @posInt n h hn =>
      subst hn
      show (if (Number.isI64 (.posInt n h) || true) = true then _ else _) = _
      rw [Bool.or_true]
      rfl
  | negInt => rfl

theorem coerceScalar_spells_iff (D : Deps) {ty : DynSolType} (hty : ty.IsInteger) {v : Int}
    {j : Value} (hj : Spells v j) {d : DynSolValue} :
    D.coerceScalar ty j = .ok d ↔ ty.Holds v ∧ IsLeaf ty v d := by
  rw [coerceScalar_eq_ok_iff D hty (argToDecimal_of_spells hj)]
  cases ty with
  | uint size =>
      simp only [parsesTo_uint_repr]
      constructor
      · rintro ⟨_, ⟨-, rfl⟩, hv, hleaf⟩
        exact ⟨hv, hleaf⟩
      · rintro ⟨hv, hleaf⟩
        exact ⟨v, ⟨hv.1, rfl⟩, hv, hleaf⟩
  | int size =>
      simp only [parsesTo_int_repr]
      constructor
      · rintro ⟨_, rfl, hv, hleaf⟩
        exact ⟨hv, hleaf⟩
      · rintro ⟨hv, hleaf⟩
        exact ⟨v, rfl, hv, hleaf⟩
  | _ => exact hty.elim

theorem exists_isLeaf {ty : DynSolType} (hty : ty.IsInteger) {v : Int} (hv : ty.Holds v) :
    ∃ d, IsLeaf ty v d := by
  cases ty with
  | uint size =>
      have hpow : (2 : Int) ^ size ≤ 2 ^ 256 := pow_le_pow_right₀ (by norm_num) hty.2
      refine ⟨.uint (BitVec.ofNat 256 v.toNat) size, .uint ?_⟩
      have hlt : v.toNat < 2 ^ 256 := (Int.toNat_lt hv.1).mpr (by exact_mod_cast hv.2.trans_le hpow)
      rw [BitVec.toNat_ofNat, Nat.mod_eq_of_lt hlt, Int.toNat_of_nonneg hv.1]
  | int size =>
      obtain ⟨hlo, hhi⟩ := holds_int_mono hty.2 hv
      exact ⟨.int (BitVec.ofInt 256 v) size, .int (Width.toInt_ofInt hlo hhi)⟩
  | _ => exact hty.elim

theorem accepted_spells_iff (D : Deps) {ty : DynSolType} (hty : ty.IsInteger) {v : Int}
    {j : Value} (hj : Spells v j) : (∃ d, D.coerceScalar ty j = .ok d) ↔ ty.Holds v := by
  simp only [coerceScalar_spells_iff D hty hj]
  constructor
  · rintro ⟨d, hv, -⟩
    exact hv
  · intro hv
    obtain ⟨d, hleaf⟩ := exists_isLeaf hty hv
    exact ⟨d, hv, hleaf⟩

theorem IsLeaf.uint_narrow {N : Nat} {v : Int} {d : DynSolValue} (h : IsLeaf (.uint N) v d)
    (hv : DynSolType.Holds (.uint N) v) :
    ∃ u : U256, d = .uint u N ∧ (u.toNat : Int) = v ∧ ((u.setWidth N).toNat : Int) = v := by
  cases h with
  | @uint _ _ u hu =>
      refine ⟨u, rfl, hu, ?_⟩
      have hlt : u.toNat < 2 ^ N := by
        have hlt' := hv.2
        rw [← hu] at hlt'
        exact_mod_cast hlt'
      rw [BitVec.toNat_setWidth, Nat.mod_eq_of_lt hlt, hu]

theorem IsLeaf.int_narrow {N : Nat} (hN : 1 ≤ N ∧ N ≤ 256) {v : Int} {d : DynSolValue}
    (h : IsLeaf (.int N) v d) (hv : DynSolType.Holds (.int N) v) :
    ∃ i : U256, d = .int i N ∧ i.toInt = v ∧ (i.setWidth N).toInt = v := by
  cases h with
  | @int _ _ i hi =>
      refine ⟨i, rfl, hi, ?_⟩
      obtain ⟨k, rfl⟩ : ∃ k, N = k + 1 := ⟨N - 1, by omega⟩
      rw [← hi] at hv
      rw [Width.toInt_setWidth_of_range i hN.2 hv.1 hv.2, hi]

/-- On canonical numerals the check is exactly the declared range. -/
theorem width_enforced (D : Deps) {N : Nat} (hN : 1 ≤ N ∧ N ≤ 256) {v : Int} {j : Value}
    (hj : Spells v j) :
    ((∃ d, D.coerceScalar (.uint N) j = .ok d) ↔ 0 ≤ v ∧ v < 2 ^ N) ∧
    ((∃ d, D.coerceScalar (.int N) j = .ok d) ↔ -(2 ^ (N - 1)) ≤ v ∧ v < 2 ^ (N - 1)) ∧
    (∀ d, D.coerceScalar (.uint N) j = .ok d →
      ∃ u : U256, d = .uint u N ∧ (u.toNat : Int) = v ∧ ((u.setWidth N).toNat : Int) = v) ∧
    (∀ d, D.coerceScalar (.int N) j = .ok d →
      ∃ i : U256, d = .int i N ∧ i.toInt = v ∧ (i.setWidth N).toInt = v) ∧
    (0 ≤ v → v < 2 ^ 256 → ¬ (0 ≤ v ∧ v < 2 ^ N) →
      D.coerceScalar (.uint N) j = .error (.integerOutOfRange v.repr ("uint" ++ N.repr))) ∧
    (-(2 ^ 255) ≤ v → v < 2 ^ 255 → ¬ (-(2 ^ (N - 1)) ≤ v ∧ v < 2 ^ (N - 1)) →
      D.coerceScalar (.int N) j = .error (.integerOutOfRange v.repr ("int" ++ N.repr))) := by
  have huint : DynSolType.IsInteger (.uint N) := hN
  have hint : DynSolType.IsInteger (.int N) := hN
  have hdec := argToDecimal_of_spells hj
  refine ⟨accepted_spells_iff D huint hj, accepted_spells_iff D hint hj, ?_, ?_, ?_, ?_⟩
  · intro d hd
    obtain ⟨hv, hleaf⟩ := (coerceScalar_spells_iff D huint hj).mp hd
    exact hleaf.uint_narrow hv
  · intro d hd
    obtain ⟨hv, hleaf⟩ := (coerceScalar_spells_iff D hint hj).mp hd
    exact hleaf.int_narrow hN hv
  · intro hlo hhi hnot
    exact (coerceScalar_out_of_range D hdec).1 (parsesTo_uint_repr.mpr ⟨hlo, rfl⟩) ⟨hlo, hhi⟩ hnot
  · intro hlo hhi hnot
    exact (coerceScalar_out_of_range D hdec).2 hN.1 (parsesTo_int_repr.mpr rfl) ⟨hlo, hhi⟩ hnot

theorem width_enforced_int8 :
    reference₀.coerceScalar (.int 8) (.string "-129") =
      .error (.integerOutOfRange "-129" "int8") := by
  have htext : (-129 : Int).repr = "-129" := by decide
  have h := (width_enforced reference₀ (N := 8) (by decide) (.text (v := -129))).2.2.2.2.2
    (by decide) (by decide) (by decide)
  rw [htext] at h
  exact h

/-! ## Texts `BigInt` would not read -/

/-- A text given as an argument: on its own, or under the tag's key. -/
inductive TextArg (s : String) : Value → Prop
  | text : TextArg s (.string s)
  | tag {entries : List (String × Value)} :
      entries.lookup BIGINT_TAG = some (.string s) → TextArg s (.object entries)

theorem argToDecimal_of_textArg {s : String} {j : Value} (h : TextArg s j) :
    argToDecimal j = .ok s := by
  cases h with
  | text => rfl
  | tag hlookup =>
      rw [argToDecimal, Value.get_object, hlookup]
      rfl

/-- The decimal texts of `BigInt`, with their values. -/
inductive BigIntText : List Char → Int → Prop
  | empty : BigIntText [] 0
  | unsigned {ds : List Char} : ds ≠ [] → (∀ c ∈ ds, c.isDigit = true) →
      BigIntText ds (Nat.ofDigitChars 10 ds 0)
  | plus {ds : List Char} : ds ≠ [] → (∀ c ∈ ds, c.isDigit = true) →
      BigIntText ('+' :: ds) (Nat.ofDigitChars 10 ds 0)
  | minus {ds : List Char} : ds ≠ [] → (∀ c ∈ ds, c.isDigit = true) →
      BigIntText ('-' :: ds) (-(Nat.ofDigitChars 10 ds 0))

/-- No underscore, and not a sign by itself. -/
def Plain (s : String) : Prop := '_' ∉ s.toList ∧ s.toList ≠ ['+'] ∧ s.toList ≠ ['-']

theorem underscore_not_mem {ds : List Char} (h : ∀ c ∈ ds, c.isDigit = true) : '_' ∉ ds := by
  intro hmem
  exact absurd (h '_' hmem) (by decide)

theorem BigIntText.plain {s : String} {v : Int} (h : BigIntText s.toList v) : Plain s := by
  simp only [Plain]
  revert h
  generalize s.toList = cs
  intro h
  cases h with
  | empty => exact ⟨List.not_mem_nil, nofun, nofun⟩
  | unsigned hne hds =>
      refine ⟨underscore_not_mem hds, ?_, ?_⟩
      · rintro rfl
        exact absurd (hds '+' List.mem_cons_self) (by decide)
      · rintro rfl
        exact absurd (hds '-' List.mem_cons_self) (by decide)
  | plus hne hds =>
      refine ⟨fun hmem => ?_, fun heq => hne (List.cons.inj heq).2, nofun⟩
      rcases List.mem_cons.mp hmem with h | h
      · exact absurd h (by decide)
      · exact underscore_not_mem hds h
  | minus hne hds =>
      refine ⟨fun hmem => ?_, nofun, fun heq => hne (List.cons.inj heq).2⟩
      rcases List.mem_cons.mp hmem with h | h
      · exact absurd h (by decide)
      · exact underscore_not_mem hds h

/-- Without underscores the lenient reading is the strict one. -/
theorem numeral_of_plain {cs : List Char} (h : '_' ∉ cs) (hlen : Lenient cs) :
    (∀ c ∈ cs, c.isDigit = true) ∧ numeral cs = Nat.ofDigitChars 10 cs 0 := by
  have hskip : ∀ c ∈ cs, skipUnderscore c = false := by
    intro c hc
    refine beq_eq_false_iff_ne.mpr ?_
    rintro rfl
    exact h hc
  refine ⟨fun c hc => hlen c hc (hskip c hc), ?_⟩
  rw [numeral, List.filter_eq_self.mpr fun c hc => by rw [hskip c hc]; rfl]

theorem bigIntText_digits {cs : List Char} (h : '_' ∉ cs) (hlen : Lenient cs) :
    BigIntText cs (numeral cs) := by
  obtain ⟨hds, hvalue⟩ := numeral_of_plain h hlen
  rcases eq_or_ne cs [] with rfl | hne
  · exact .empty
  · rw [hvalue]
    exact .unsigned hne hds

/-- What a parser reads from a plain text, `BigInt` reads from it too. -/
theorem bigIntText_of_parsesTo {ty : DynSolType} {s : String} {v : Int} (hplain : Plain s)
    (h : ParsesTo ty s v) : BigIntText s.toList v := by
  obtain ⟨hunder, hplus, hminus⟩ := hplain
  cases ty with
  | uint size =>
      obtain ⟨hlen, rfl⟩ := h
      exact bigIntText_digits hunder hlen
  | int size =>
      obtain ⟨hlen, rfl⟩ := h
      rcases splitSign_cases s.toList with ⟨ds, hcs, hsplit⟩ | ⟨ds, hcs, hsplit⟩ | hsplit
      · rw [hsplit] at hlen ⊢
        rw [hcs] at hunder hplus ⊢
        obtain ⟨hds, hvalue⟩ := numeral_of_plain (fun h => hunder (List.mem_cons_of_mem _ h)) hlen
        rw [hvalue]
        exact .plus (fun hnil => hplus (hnil ▸ rfl)) hds
      · rw [hsplit] at hlen ⊢
        rw [hcs] at hunder hminus ⊢
        obtain ⟨hds, hvalue⟩ := numeral_of_plain (fun h => hunder (List.mem_cons_of_mem _ h)) hlen
        rw [hvalue]
        exact .minus (fun hnil => hminus (hnil ▸ rfl)) hds
      · rw [hsplit] at hlen ⊢
        exact bigIntText_digits hunder hlen
  | _ => exact h.elim

/-- Whatever is accepted of this text is what `BigInt` reads from it. -/
def BigIntOnly (D : Deps) (ty : DynSolType) (s : String) (j : Value) : Prop :=
  ∀ d, D.coerceScalar ty j = .ok d → ∃ v, IsLeaf ty v d ∧ BigIntText s.toList v

/-- Only an underscore or a lone sign gets past `BigInt`, and only where the rest
of the text is a numeral the type has room for. -/
theorem integer_text_iff (D : Deps) {ty : DynSolType} (hty : ty.IsInteger) {s : String}
    {j : Value} (hj : TextArg s j) :
    BigIntOnly D ty s j ↔ Plain s ∨ ¬ ∃ v, ParsesTo ty s v ∧ ty.Holds v := by
  have hok := fun d => coerceScalar_eq_ok_iff D hty (argToDecimal_of_textArg hj) (d := d)
  constructor
  · intro h
    refine or_iff_not_imp_right.mpr fun hparse => ?_
    obtain ⟨v, hv, hholds⟩ := not_not.mp hparse
    obtain ⟨d, hleaf⟩ := exists_isLeaf hty hholds
    obtain ⟨v', -, htext⟩ := h d ((hok d).mpr ⟨v, hv, hholds, hleaf⟩)
    exact htext.plain
  · rintro (hplain | hnot) d hd
    · obtain ⟨v, hv, -, hleaf⟩ := (hok d).mp hd
      exact ⟨v, hleaf, bigIntText_of_parsesTo hplain hv⟩
    · obtain ⟨v, hv, hholds, -⟩ := (hok d).mp hd
      exact absurd ⟨v, hv, hholds⟩ hnot

theorem integer_text_iff_minus_five : BigIntOnly reference₀ (.int 8) "-5" (.string "-5") := by
  have hty : DynSolType.IsInteger (.int 8) := ⟨by decide, by decide⟩
  exact (integer_text_iff reference₀ hty .text).mpr (Or.inl ⟨by decide, by decide, by decide⟩)

theorem underscore_accepted :
    ¬ ∀ (D : Deps) (ty : DynSolType) (s : String) (j : Value), ty.IsInteger → TextArg s j →
      BigIntOnly D ty s j := by
  intro h
  obtain ⟨v, -, htext⟩ := h reference₀ (.uint 256) "1_000" (.string "1_000")
    ⟨by decide, by decide⟩ .text (.uint 1000 256) rfl
  exact htext.plain.1 (by decide)

/-! ## JSON numbers -/

/-- `serde_json` has an integer for the literal. -/
def IntLiteral.Fits (l : IntLiteral) : Prop :=
  if l.negative then 0 < l.magnitude ∧ l.magnitude ≤ 2 ^ 63 else l.magnitude < 2 ^ 64

theorem spells_of_fits (floatText : IntLiteral → String) {l : IntLiteral} (h : l.Fits) :
    Spells l.value (.number (l.toNumber floatText)) := by
  obtain ⟨negative, magnitude⟩ := l
  cases negative with
  | true =>
      have hnum : IntLiteral.toNumber floatText ⟨true, magnitude⟩ = .negInt (-magnitude) _ :=
        dif_pos h
      rw [hnum]
      exact .negInt
  | false =>
      have hnum : IntLiteral.toNumber floatText ⟨false, magnitude⟩ = .posInt magnitude h :=
        dif_pos h
      rw [hnum]
      exact .posInt rfl

theorem toNumber_of_not_fits (floatText : IntLiteral → String) {l : IntLiteral} (h : ¬ l.Fits) :
    l.toNumber floatText = .float (floatText l) := by
  obtain ⟨negative, magnitude⟩ := l
  cases negative with
  | true => exact dif_neg h
  | false => exact dif_neg h

theorem coerceScalar_float (D : Deps) {ty : DynSolType} (hty : ty.IsInteger) (text : String) :
    D.coerceScalar ty (.number (.float text)) =
      .error (.invalidArgument (text ++ " is not an exact integer")) := by
  cases ty with
  | uint size => rfl
  | int size => rfl
  | _ => exact hty.elim

theorem jsonToValue_integer {D : Deps} {leaf : Param} {ty : DynSolType}
    (hres : D.resolve leaf = some ty) (hty : ty.IsInteger) (j : Value) :
    D.jsonToValue leaf j = D.coerceScalar ty j := by
  rcases D.resolve_cases hres with ⟨hsplit, hstem⟩ | ⟨base, len, t', -, -, -, rfl⟩
  · have htuple : leaf.ty ≠ "tuple" := by
      intro heq
      rw [heq] at hstem
      obtain ⟨ts, -, rfl⟩ := D.stemWith_tuple hstem
      exact hty
    rw [Deps.jsonToValue_scalar hsplit htuple, hres]
  · cases len <;> exact hty.elim

/-- What a JSON number at an integer leaf comes to, wherever the leaf stands: the
literal is the value of a double and the leaf says it, a float is refused, and a
safe integer that fits the type is taken. -/
structure NumberContract (D : Deps) (leaf : Param) (ty : DynSolType) (l : IntLiteral) : Prop where
  exact_of_accepted : ∀ (p : Param) (j : Value) (d : DynSolValue),
    Deps.Reads D leaf (.number (l.toNumber D.floatText)) p j → D.jsonToValue p j = .ok d →
      Significand.Exact 53 l.value
  value_of_accepted : ∀ d : DynSolValue,
    D.jsonToValue leaf (.number (l.toNumber D.floatText)) = .ok d → IsLeaf ty l.value d
  float_refused : ∀ (p : Param) (j : Value) (text : String),
    Deps.Reads D leaf (.number (.float text)) p j → ∃ e, D.jsonToValue p j = .error e
  safe_accepted : ¬ (l.negative = true ∧ l.magnitude = 0) → l.value.natAbs ≤ 2 ^ 53 - 1 →
    ty.Holds l.value → ∃ d, D.jsonToValue leaf (.number (l.toNumber D.floatText)) = .ok d

/-- A literal is taken exactly when `serde_json` keeps it and the type holds it. -/
theorem literal_accepted_iff {D : Deps} {leaf : Param} {ty : DynSolType}
    (hres : D.resolve leaf = some ty) (hty : ty.IsInteger) (l : IntLiteral) :
    (∃ d, D.jsonToValue leaf (.number (l.toNumber D.floatText)) = .ok d) ↔
      l.Fits ∧ ty.Holds l.value := by
  simp only [jsonToValue_integer hres hty]
  by_cases hfits : l.Fits
  · rw [accepted_spells_iff D hty (spells_of_fits D.floatText hfits)]
    exact ⟨fun h => ⟨hfits, h⟩, fun h => h.2⟩
  · rw [toNumber_of_not_fits D.floatText hfits, coerceScalar_float D hty]
    constructor
    · rintro ⟨d, hd⟩
      cases hd
    · intro h
      exact absurd h.1 hfits

theorem fits_of_safe {l : IntLiteral} (hzero : ¬ (l.negative = true ∧ l.magnitude = 0))
    (hsafe : l.value.natAbs ≤ 2 ^ 53 - 1) : l.Fits := by
  obtain ⟨negative, magnitude⟩ := l
  cases negative with
  | true =>
      have hpos : magnitude ≠ 0 := fun h => hzero ⟨rfl, h⟩
      have habs : (-(magnitude : Int)).natAbs ≤ 2 ^ 53 - 1 := hsafe
      show 0 < magnitude ∧ magnitude ≤ 2 ^ 63
      omega
  | false =>
      have habs : (magnitude : Int).natAbs ≤ 2 ^ 53 - 1 := hsafe
      show magnitude < 2 ^ 64
      omega

/-- Only a literal no double has, which `serde_json` still keeps and the type
holds, gets past the contract. -/
theorem json_number_iff (D : Deps) {leaf : Param} {ty : DynSolType}
    (hres : D.resolve leaf = some ty) (hty : ty.IsInteger) (l : IntLiteral) :
    NumberContract D leaf ty l ↔
      Significand.Exact 53 l.value ∨ ¬ ty.Holds l.value ∨ ¬ l.Fits := by
  have haccept := literal_accepted_iff hres hty l
  constructor
  · intro h
    by_cases hok : l.Fits ∧ ty.Holds l.value
    · obtain ⟨d, hd⟩ := haccept.mpr hok
      exact Or.inl (h.exact_of_accepted leaf _ d .here hd)
    · rcases not_and_or.mp hok with hfits | hholds
      · exact Or.inr (Or.inr hfits)
      · exact Or.inr (Or.inl hholds)
  · intro h
    refine ⟨?_, ?_, ?_, ?_⟩
    · intro p j d hreads hd
      obtain ⟨d', hd', -⟩ := hreads.accepted hd
      obtain ⟨hfits, hholds⟩ := haccept.mp ⟨d', hd'⟩
      rcases h with h | h | h
      · exact h
      · exact absurd hholds h
      · exact absurd hfits h
    · intro d hd
      obtain ⟨hfits, -⟩ := haccept.mp ⟨d, hd⟩
      rw [jsonToValue_integer hres hty] at hd
      exact ((coerceScalar_spells_iff D hty (spells_of_fits D.floatText hfits)).mp hd).2
    · intro p j text hreads
      refine not_ok_iff_error.mp ?_
      rintro ⟨d, hd⟩
      obtain ⟨d', hd', -⟩ := hreads.accepted hd
      rw [jsonToValue_integer hres hty, coerceScalar_float D hty] at hd'
      cases hd'
    · intro hzero hsafe hholds
      exact haccept.mpr ⟨fits_of_safe hzero hsafe, hholds⟩

theorem json_number_iff_max_safe :
    NumberContract reference₀ ⟨"uint64", "amount", []⟩ (.uint 64) ⟨false, 2 ^ 53 - 1⟩ := by
  have hres : reference₀.resolve ⟨"uint64", "amount", []⟩ = some (.uint 64) := rfl
  have hty : DynSolType.IsInteger (.uint 64) := ⟨by decide, by decide⟩
  exact (json_number_iff reference₀ hres hty _).mpr
    (Or.inl (Significand.exact_of_natAbs_lt (by decide)))

/-- `JSON.stringify` prints 2^63 as 9223372036854776000, and that is what is
encoded. -/
theorem padded_literal_accepted :
    ¬ ∀ (D : Deps) (leaf : Param) (ty : DynSolType) (l : IntLiteral),
      D.resolve leaf = some ty → ty.IsInteger → NumberContract D leaf ty l := by
  intro h
  have hcontract := h reference₀ ⟨"uint256", "amount", []⟩ (.uint 256) ⟨false, 9223372036854776000⟩
    rfl ⟨by decide, by decide⟩
  have hexact := hcontract.exact_of_accepted _ _ (.uint 9223372036854776000 256) .here rfl
  have hdvd := Significand.exact_iff_dvd.mp hexact 10 (by decide)
  revert hdvd
  decide

end AmbireCrypto
