/-
# `AmbireCrypto.Addresses` — which texts are addresses

Two entries share one parser.  `checksumAddress` takes any spelling of twenty bytes
and recomputes the case of its letters; `parseViemStrictAddress`, behind every
address argument, takes a spelling with an upper-case letter only if the case is the
computed one.  The parser itself sees no case, so a spelling is its bytes and its
case, and the two entries differ in nothing but the second.

## What is proved

`SpellsAddress s a` says without the parser which twenty bytes a text stands for.  For
every text:

* `checksumAddress_eq_ok_iff` and `parseViemStrictAddress_eq_ok_iff` say which texts an
  entry takes and what it makes of them;
* an address has one canonical spelling, reached in one step (`checksumAddress_idem`),
  and two texts share it exactly when they agree up to case (`checksumAddress_eq_iff`);
* at a parameter of type `address` the canonical spelling and the one in lower case are
  read as the same argument (`jsonToValue_spellings`), so the calldata is the same.

`address_texts` puts these together.

## What it is not

The hash is any function of bytes.  All that is used of the checksum is that it changes
the case of digits and nothing else (`map_digitValue_checksum`), so nothing is said
about the mistakes it catches.
-/
import AmbireCrypto.HexGrammar
import AmbireCrypto.TupleForms

namespace AmbireCrypto

open HexCodec

/-- A lower-case prefix and forty digits. -/
def IsAddressText (s : String) : Prop :=
  ∃ digits, s.toList = '0' :: 'x' :: digits ∧ digits.length = 40 ∧ ∀ c ∈ digits, IsHexDigit c

def NoUpperCase (s : String) : Prop := ∀ c ∈ s.toList, c.isUpper = false

/-- `s` spells the twenty bytes of `a`. -/
def SpellsAddress (s : String) (a : Address) : Prop :=
  ∃ digits, s.toList = '0' :: 'x' :: digits ∧ Denotes digits a.bytes

/-! ## The checksum -/

theorem checksumChar_eq (hash : List UInt8) (i : Nat) (c : Char) :
    checksumChar hash i c = c.toUpper ∨ checksumChar hash i c = c := by
  simp only [checksumChar]
  exact ite_eq_or_eq _ _ _

/-- Changing the case of digits the way EIP-55 does leaves their values alone. -/
theorem map_digitValue_checksum (hash : List UInt8) (bytes : List UInt8) :
    ((HexCodec.encode bytes).mapIdx (checksumChar hash)).map HexCodec.digitValue =
      (HexCodec.encode bytes).map HexCodec.digitValue := by
  refine List.ext_getElem (by simp) fun i h₁ h₂ => ?_
  rw [List.getElem_map, List.getElem_map, List.getElem_mapIdx]
  obtain ⟨n, hn, hc⟩ := HexCodec.mem_encode
    (List.getElem_mem (l := HexCodec.encode bytes) (by simpa using h₂))
  rw [hc]
  rcases checksumChar_eq hash i (Nat.digitChar n) with h | h
  · rw [h, HexCodec.digitValue_toUpper_digitChar hn, HexCodec.digitValue_digitChar hn]
  · rw [h]

/-! ## Spellings -/

theorem isAddressText_iff {s : String} : IsAddressText s ↔ ∃ a, SpellsAddress s a := by
  constructor
  · rintro ⟨digits, hs, hlen, hdigits⟩
    obtain ⟨bytes, h⟩ := exists_denotes_iff.mpr ⟨by omega, hdigits⟩
    have hbytes := h.length_eq
    exact ⟨⟨bytes, by omega⟩, digits, hs, h⟩
  · rintro ⟨a, digits, hs, h⟩
    have hbytes := h.length_eq
    rw [a.length_eq] at hbytes
    exact ⟨digits, hs, hbytes, h.isHexDigit⟩

namespace SpellsAddress

variable {s t : String} {a b : Address}

theorem toLower_eq (h : SpellsAddress s a) : s.toLower = Deps.bytesToHex a.bytes := by
  obtain ⟨digits, hs, h⟩ := h
  exact (Deps.bytesToHex_of_denotes (Or.inl rfl) hs h).symm

theorem denotes (h : SpellsAddress s a) : Denotes (s.toList.drop 2) a.bytes := by
  obtain ⟨digits, hs, h⟩ := h
  rw [hs]
  exact h

theorem unique (ha : SpellsAddress s a) (hb : SpellsAddress s b) : a = b := by
  have h := decode_eq_some_iff.mpr ha.denotes
  rw [decode_eq_some_iff.mpr hb.denotes] at h
  cases a
  cases b
  cases h
  rfl

theorem bytesToHex (a : Address) : SpellsAddress (Deps.bytesToHex a.bytes) a :=
  ⟨encode a.bytes, String.toList_ofList, denotes_encode a.bytes⟩

theorem toChecksum (k : List UInt8 → List UInt8) (a : Address) :
    SpellsAddress (toChecksum k a) a := by
  refine ⟨_, String.toList_ofList, decode_eq_some_iff.mp ?_⟩
  rw [decode_congr (map_digitValue_checksum _ a.bytes), decode_encode]

theorem eq_iff (ha : SpellsAddress s a) (hb : SpellsAddress t b) :
    a = b ↔ s.toLower = t.toLower := by
  rw [ha.toLower_eq, hb.toLower_eq]
  constructor
  · rintro rfl
    rfl
  · intro h
    have hplain := SpellsAddress.bytesToHex b
    rw [← h] at hplain
    exact (SpellsAddress.bytesToHex a).unique hplain

end SpellsAddress

theorem noUpperCase_bytesToHex (bytes : List UInt8) : NoUpperCase (Deps.bytesToHex bytes) := by
  have htable : ∀ n : Fin 16, (Nat.digitChar n.val).isUpper = false := by decide
  intro c hc
  rw [Deps.bytesToHex, hexEncodePrefixed, String.toList_ofList] at hc
  rcases List.mem_cons.mp hc with rfl | hc
  · rfl
  · rcases List.mem_cons.mp hc with rfl | hc
    · rfl
    · obtain ⟨n, hn, rfl⟩ := mem_encode hc
      exact htable ⟨n, hn⟩

theorem addressFromStr_eq_some_iff {s : String} {digits : List Char} {a : Address}
    (hs : s.toList = '0' :: 'x' :: digits) : addressFromStr s = some a ↔ Denotes digits a.bytes := by
  have hstrip : hexStripPrefix s.toList = digits := by
    rw [hs]
    rfl
  rw [addressFromStr, hstrip, ← decode_eq_some_iff]
  cases decode digits with
  | none => simp
  | some bytes =>
      constructor
      · intro h
        obtain ⟨hlen, h⟩ := Option.dite_none_right_eq_some.mp h
        cases h
        rfl
      · intro h
        cases h
        exact dif_pos a.length_eq

/-! ## The two entries -/

namespace Deps

variable {D : Deps} {s t c d : String} {a : Address}

theorem parseViemAddress_eq_ok_iff : D.parseViemAddress s = .ok a ↔ SpellsAddress s a := by
  rw [parseViemAddress]
  constructor
  · intro h
    split at h
    · rename_i hpre
      obtain ⟨digits, hs⟩ := List.isPrefixOf_iff_prefix.mp hpre
      cases ha : addressFromStr s with
      | none =>
          rw [ha] at h
          cases h
      | some b =>
          rw [ha] at h
          cases h
          exact ⟨digits, hs.symm, (addressFromStr_eq_some_iff hs.symm).mp ha⟩
    · cases h
  · rintro ⟨digits, hs, h⟩
    have hpre : HEX_PREFIX.isPrefixOf s.toList = true :=
      List.isPrefixOf_iff_prefix.mpr ⟨digits, hs.symm⟩
    rw [if_pos hpre, (addressFromStr_eq_some_iff hs).mpr h]

theorem checksumAddress_eq_ok_iff :
    D.checksumAddress s = .ok c ↔ ∃ a, SpellsAddress s a ∧ c = toChecksum D.keccak256 a := by
  rw [checksumAddress, Traverse.bind_eq_ok]
  simp only [parseViemAddress_eq_ok_iff]
  constructor
  · rintro ⟨a, ha, h⟩
    cases h
    exact ⟨a, ha, rfl⟩
  · rintro ⟨a, ha, rfl⟩
    exact ⟨a, ha, rfl⟩

theorem any_isUpper_iff : s.toList.any Char.isUpper = true ↔ ¬ NoUpperCase s := by
  simp [NoUpperCase]

theorem parseViemStrictAddress_eq_ok_iff :
    D.parseViemStrictAddress s = .ok a ↔
      SpellsAddress s a ∧ (NoUpperCase s ∨ toChecksum D.keccak256 a = s) := by
  rw [parseViemStrictAddress, Traverse.bind_eq_ok]
  simp only [parseViemAddress_eq_ok_iff]
  constructor
  · rintro ⟨b, hb, h⟩
    split at h
    · cases h
    · rename_i hcase
      cases h
      rw [any_isUpper_iff, not_and_or, not_not, not_not] at hcase
      exact ⟨hb, hcase⟩
  · rintro ⟨ha, hcase⟩
    refine ⟨a, ha, if_neg ?_⟩
    rw [any_isUpper_iff, not_and_or, not_not, not_not]
    exact hcase

theorem parseViemStrictAddress_toChecksum (a : Address) :
    D.parseViemStrictAddress (toChecksum D.keccak256 a) = .ok a :=
  parseViemStrictAddress_eq_ok_iff.mpr ⟨.toChecksum D.keccak256 a, Or.inr rfl⟩

theorem exists_checksumAddress_iff : (∃ c, D.checksumAddress s = .ok c) ↔ IsAddressText s := by
  rw [isAddressText_iff]
  simp only [checksumAddress_eq_ok_iff]
  constructor
  · rintro ⟨_, a, ha, -⟩
    exact ⟨a, ha⟩
  · rintro ⟨a, ha⟩
    exact ⟨_, a, ha, rfl⟩

theorem checksumAddress_idem (h : D.checksumAddress s = .ok c) :
    c.toLower = s.toLower ∧ D.checksumAddress c = .ok c := by
  obtain ⟨a, ha, rfl⟩ := checksumAddress_eq_ok_iff.mp h
  have hc := SpellsAddress.toChecksum D.keccak256 a
  exact ⟨(hc.eq_iff ha).mp rfl, checksumAddress_eq_ok_iff.mpr ⟨a, hc, rfl⟩⟩

theorem checksumAddress_eq_iff (hs : D.checksumAddress s = .ok c)
    (ht : D.checksumAddress t = .ok d) : c = d ↔ s.toLower = t.toLower := by
  obtain ⟨a, ha, rfl⟩ := checksumAddress_eq_ok_iff.mp hs
  obtain ⟨b, hb, rfl⟩ := checksumAddress_eq_ok_iff.mp ht
  rw [← ha.eq_iff hb]
  constructor
  · intro h
    have hspell := SpellsAddress.toChecksum D.keccak256 b
    rw [← h] at hspell
    exact (SpellsAddress.toChecksum D.keccak256 a).unique hspell
  · rintro rfl
    rfl

/-- The entries differ in the checksum condition, and in nothing else. -/
theorem exists_strictAddress_iff :
    (∃ a, D.parseViemStrictAddress s = .ok a) ↔
      ∃ c, D.checksumAddress s = .ok c ∧ (NoUpperCase s ∨ s = c) := by
  simp only [parseViemStrictAddress_eq_ok_iff, checksumAddress_eq_ok_iff]
  constructor
  · rintro ⟨a, ha, hcase⟩
    exact ⟨_, ⟨a, ha, rfl⟩, hcase.imp id Eq.symm⟩
  · rintro ⟨_, ⟨a, ha, rfl⟩, hcase⟩
    exact ⟨a, ha, hcase.imp id Eq.symm⟩

/-! ## As arguments -/

theorem jsonToValue_address {p : Param} (hp : D.resolve p = some .address) (s : String) :
    D.jsonToValue p (.string s) = DynSolValue.address <$> D.parseViemStrictAddress s := by
  rcases D.resolve_cases hp with ⟨hsplit, hstem⟩ | ⟨_, d, _, _, _, _, hwrap⟩
  · have hty : p.ty ≠ "tuple" := by
      intro hty
      rw [hty] at hstem
      obtain ⟨_, _, h⟩ := D.stemWith_tuple hstem
      cases h
    rw [jsonToValue_scalar hsplit hty, hp]
    rfl
  · cases d with
    | none => cases hwrap
    | some k => cases hwrap

theorem jsonToValue_spellings {p : Param} (hp : D.resolve p = some .address)
    (h : D.checksumAddress s = .ok c) :
    ∃ a, SpellsAddress s a ∧ D.jsonToValue p (.string c) = .ok (.address a) ∧
      D.jsonToValue p (.string s.toLower) = .ok (.address a) := by
  obtain ⟨a, ha, rfl⟩ := checksumAddress_eq_ok_iff.mp h
  have hchecksum : D.parseViemStrictAddress (toChecksum D.keccak256 a) = .ok a :=
    parseViemStrictAddress_toChecksum a
  have hplain : D.parseViemStrictAddress s.toLower = .ok a := by
    rw [ha.toLower_eq]
    exact parseViemStrictAddress_eq_ok_iff.mpr
      ⟨.bytesToHex a, Or.inl (noUpperCase_bytesToHex a.bytes)⟩
  refine ⟨a, ha, ?_, ?_⟩
  · rw [jsonToValue_address hp, hchecksum]
    rfl
  · rw [jsonToValue_address hp, hplain]
    rfl

end Deps

/-- The lenient entry takes the texts of addresses and makes one canonical spelling
of each; the strict one takes those that are canonical or in lower case.  What
either prints or lower-cases is an argument that stands for the same address. -/
theorem address_texts (D : Deps) :
    (∀ s, (∃ c, D.checksumAddress s = .ok c) ↔ IsAddressText s) ∧
    (∀ s c, D.checksumAddress s = .ok c →
      c.toLower = s.toLower ∧ D.checksumAddress c = .ok c) ∧
    (∀ s t c d, D.checksumAddress s = .ok c → D.checksumAddress t = .ok d →
      (c = d ↔ s.toLower = t.toLower)) ∧
    (∀ s, (∃ a, D.parseViemStrictAddress s = .ok a) ↔
      ∃ c, D.checksumAddress s = .ok c ∧ (NoUpperCase s ∨ s = c)) ∧
    (∀ s a, D.parseViemStrictAddress s = .ok a →
      SpellsAddress s a ∧ D.parseViemAddress s = .ok a) ∧
    (∀ s c, D.checksumAddress s = .ok c → ∃ a, SpellsAddress s a ∧
      ∀ p, D.resolve p = some .address →
        D.jsonToValue p (.string c) = .ok (.address a) ∧
        D.jsonToValue p (.string s.toLower) = .ok (.address a)) ∧
    ∀ (func : Function) (args args' : List Value), args.length = args'.length →
      (∀ (i : Nat) (hp : i < func.inputs.length) (hi : i < args.length) (hi' : i < args'.length),
        args[i] = args'[i] ∨ D.resolve func.inputs[i] = some .address ∧
          ∃ s c, D.checksumAddress s = .ok c ∧ args[i] = .string c ∧
            args'[i] = .string s.toLower) →
      D.encodeArgs func (.array args) = D.encodeArgs func (.array args') := by
  refine ⟨fun s => Deps.exists_checksumAddress_iff, fun s c => Deps.checksumAddress_idem,
    fun s t c d => Deps.checksumAddress_eq_iff, fun s => Deps.exists_strictAddress_iff,
    fun s a h => ?_, fun s c h => ?_, fun func args args' hlen h => ?_⟩
  · obtain ⟨ha, -⟩ := Deps.parseViemStrictAddress_eq_ok_iff.mp h
    exact ⟨ha, Deps.parseViemAddress_eq_ok_iff.mpr ha⟩
  · obtain ⟨a, ha, -⟩ := Deps.checksumAddress_eq_ok_iff.mp h
    refine ⟨a, ha, fun p hp => ?_⟩
    obtain ⟨b, hb, hvalues⟩ := Deps.jsonToValue_spellings hp h
    rw [ha.unique hb]
    exact hvalues
  · have hargs : D.coerceArgs func.inputs args = D.coerceArgs func.inputs args' := by
      refine Deps.coerceArgs_congr hlen fun i hp hi hi' => ?_
      rcases h i hp hi hi' with heq | ⟨hty, s, c, hc, heq, heq'⟩
      · rw [heq]
      · obtain ⟨a, -, hchecksum, hplain⟩ := Deps.jsonToValue_spellings hty hc
        rw [heq, heq', hchecksum, hplain]
    simp only [Deps.encodeArgs, Value.asArray, hlen, hargs]

/-! The address that the tests of `checksum_address` take, under its own hash. -/

def plainText : String := "0xd8da6bf26964af9d7eed9e03e53415d37aa96045"

def checksummedText : String := "0xd8dA6BF26964aF9D7eEd9e03E53415D37aA96045"

/-- The dependencies, with the hash of that address's digits for every hash. -/
def hashed : Deps :=
  { reference₀ with
    keccak256 := fun _ =>
      [0x53, 0x5b, 0xda, 0xe9, 0xbb, 0x21, 0x4b, 0x3c, 0xc5, 0x83, 0xb5, 0x33, 0x84, 0x46, 0x49, 0x99,
        0xf2, 0xf7, 0xf4, 0x86, 0x25, 0xf1, 0x60, 0x72, 0x8c, 0x63, 0xe7, 0x3e, 0x76, 0x6f, 0xf7, 0x1e] }

theorem address_texts_checksummed :
    hashed.checksumAddress plainText = .ok checksummedText ∧
      hashed.checksumAddress checksummedText = .ok checksummedText ∧
      ∃ a, SpellsAddress plainText a ∧
        hashed.jsonToValue ⟨"address", "to", []⟩ (.string checksummedText) = .ok (.address a) := by
  have hok : hashed.checksumAddress plainText = .ok checksummedText := by decide
  obtain ⟨-, hidem, -, -, -, hargs, -⟩ := address_texts hashed
  obtain ⟨a, ha, hvalues⟩ := hargs _ _ hok
  exact ⟨hok, (hidem _ _ hok).2, a, ha, (hvalues _ rfl).1⟩

end AmbireCrypto
