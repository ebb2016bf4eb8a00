/-
# `AmbireCrypto.HexGrammar` — which texts are hex

A prefix is taken off in two layers: by the parsers here, in ethers' or in viem's
convention, and once more by `const-hex`, in its own.  What the second layer would
take is refused by the first, so together they accept one prefix and whole bytes
of digits, nothing more and nothing less.  Which letter the prefix may carry is all
that tells the two parsers apart.

## What is proved

`IsHexText` is the grammar, written down without a parser.  `hex_grammar` says of both
parsers, for every text, that they accept it exactly when the grammar has it; that what
they make of it are the bytes its digits denote; and that reading and printing are
inverse up to the case of letters.

Each layer is inverted on its own first (`stripOneHexPrefix_eq_some_iff`,
`hexStripPrefix_of_none`), and `rejectRepeated_decodeBody_eq_ok_iff` composes them.
The digits are `Lib.HexCodec`'s.
-/
import AmbireCrypto.Reference

namespace AmbireCrypto

open HexCodec

/-- `0`, the letter `x`, and evenly many digits. -/
def IsHexText (x : Char) (s : String) : Prop :=
  ∃ digits, s.toList = '0' :: x :: digits ∧ digits.length % 2 = 0 ∧ ∀ c ∈ digits, IsHexDigit c

/-! ## One prefix off -/

theorem stripPrefix_append (pre cs : List Char) : stripPrefix pre (pre ++ cs) = some cs := by
  simp only [stripPrefix]
  rw [if_pos (List.isPrefixOf_iff_prefix.mpr (List.prefix_append pre cs)), List.drop_left]

theorem stripPrefix_eq_some_iff {pre value rest : List Char} :
    stripPrefix pre value = some rest ↔ value = pre ++ rest := by
  constructor
  · intro h
    simp only [stripPrefix] at h
    split at h
    · rename_i hpre
      obtain ⟨rest', rfl⟩ := List.isPrefixOf_iff_prefix.mp hpre
      rw [List.drop_left] at h
      rw [Option.some.inj h]
    · cases h
  · rintro rfl
    exact stripPrefix_append pre rest

theorem stripOneHexPrefix_eq_some_iff {value rest : List Char} :
    stripOneHexPrefix value = some rest ↔
      value = '0' :: 'x' :: rest ∨ value = '0' :: 'X' :: rest := by
  rw [stripOneHexPrefix, Option.or_eq_some_iff, stripPrefix_eq_some_iff, stripPrefix_eq_some_iff]
  constructor
  · rintro (h | ⟨-, h⟩)
    · exact Or.inl h
    · exact Or.inr h
  · rintro (h | h)
    · exact Or.inl h
    · refine Or.inr ⟨?_, h⟩
      rw [h]
      rfl

theorem stripOneHexPrefix_eq_none {digits : List Char} (h : ∀ c ∈ digits, IsHexDigit c) :
    stripOneHexPrefix digits = none := by
  have hletter : ∀ x, x ∈ digits → digitValue x ≠ none := by
    intro x hx hnone
    obtain ⟨n, hn⟩ := exists_digitValue (h x hx)
    rw [hnone] at hn
    cases hn
  refine Option.eq_none_iff_forall_ne_some.mpr fun rest hrest => ?_
  rcases stripOneHexPrefix_eq_some_iff.mp hrest with heq | heq
  · exact hletter 'x' (by simp [heq]) rfl
  · exact hletter 'X' (by simp [heq]) rfl

/-- Where the first layer refuses a second prefix, `const-hex` finds none to drop. -/
theorem hexStripPrefix_of_none {body : List Char} (h : stripOneHexPrefix body = none) :
    hexStripPrefix body = body := by
  simp only [hexStripPrefix]
  split
  · rw [stripOneHexPrefix_eq_some_iff.mpr (Or.inl rfl)] at h
    cases h
  · rfl

/-! ## The body -/

namespace Deps

variable {D : Deps}

theorem decodeBody_eq_ok_iff {body : List Char} {bytes : List UInt8} :
    D.decodeBody body = .ok bytes ↔ decode (hexStripPrefix body) = some bytes := by
  rw [decodeBody, hexDecode, String.toList_ofList]
  cases decode (hexStripPrefix body) with
  | none => simp
  | some bytes' => simp

theorem rejectRepeated_decodeBody_eq_ok_iff {body : List Char} {bytes : List UInt8} :
    (rejectRepeatedHexPrefix body >>= D.decodeBody) = .ok bytes ↔ Denotes body bytes := by
  rw [← decode_eq_some_iff, rejectRepeatedHexPrefix]
  constructor
  · intro h
    split at h
    · cases h
    · rename_i hnone
      have hstrip := hexStripPrefix_of_none (Option.not_isSome_iff_eq_none.mp hnone)
      rw [← hstrip]
      exact decodeBody_eq_ok_iff.mp h
  · intro h
    have hnone := stripOneHexPrefix_eq_none (decode_eq_some_iff.mp h).isHexDigit
    rw [if_neg (by rw [hnone]; exact Bool.false_ne_true)]
    refine decodeBody_eq_ok_iff.mpr ?_
    rw [hexStripPrefix_of_none hnone]
    exact h

/-! ## The two parsers -/

theorem hexToBytes_eq_ok_iff {s : String} {bytes : List UInt8} :
    D.hexToBytes s = .ok bytes ↔
      ∃ x digits, (x = 'x' ∨ x = 'X') ∧ s.toList = '0' :: x :: digits ∧ Denotes digits bytes := by
  rw [hexToBytes, ethersHexBody]
  cases hstrip : stripOneHexPrefix s.toList with
  | none =>
      constructor
      · intro h
        cases h
      · rintro ⟨x, digits, hx, heq, -⟩
        have hsome : stripOneHexPrefix s.toList = some digits := by
          refine stripOneHexPrefix_eq_some_iff.mpr ?_
          rcases hx with rfl | rfl
          · exact Or.inl heq
          · exact Or.inr heq
        rw [hstrip] at hsome
        cases hsome
  | some body =>
      refine rejectRepeated_decodeBody_eq_ok_iff.trans ?_
      constructor
      · intro h
        rcases stripOneHexPrefix_eq_some_iff.mp hstrip with heq | heq
        · exact ⟨'x', body, Or.inl rfl, heq, h⟩
        · exact ⟨'X', body, Or.inr rfl, heq, h⟩
      · rintro ⟨x, digits, hx, heq, h⟩
        have hbody : body = digits := by
          rcases stripOneHexPrefix_eq_some_iff.mp hstrip with heq' | heq' <;>
          · rw [heq] at heq'
            exact (List.cons.inj (List.cons.inj heq').2).2.symm
        rw [hbody]
        exact h

theorem decodeViemHex_eq_ok_iff {s : String} {bytes : List UInt8} :
    D.decodeViemHex s = .ok bytes ↔
      ∃ digits, s.toList = '0' :: 'x' :: digits ∧ Denotes digits bytes := by
  rw [decodeViemHex, viemHexBody]
  cases hstrip : stripPrefix HEX_PREFIX s.toList with
  | none =>
      constructor
      · intro h
        cases h
      · rintro ⟨digits, heq, -⟩
        rw [stripPrefix_eq_some_iff.mpr heq] at hstrip
        cases hstrip
  | some body =>
      refine rejectRepeated_decodeBody_eq_ok_iff.trans ?_
      have hbody := stripPrefix_eq_some_iff.mp hstrip
      constructor
      · intro h
        exact ⟨body, hbody, h⟩
      · rintro ⟨digits, heq, h⟩
        have hsame : HEX_PREFIX ++ body = HEX_PREFIX ++ digits := hbody.symm.trans heq
        rw [List.append_cancel_left hsame]
        exact h

theorem bytesToHex_of_denotes {s : String} {x : Char} {digits : List Char} {bytes : List UInt8}
    (hx : x = 'x' ∨ x = 'X') (hs : s.toList = '0' :: x :: digits) (h : Denotes digits bytes) :
    bytesToHex bytes = s.toLower := by
  have hlower : x.toLower = 'x' := by
    rcases hx with rfl | rfl
    · rfl
    · rfl
  have hs' : s.toLower.toList = s.toList.map Char.toLower := String.toList_map
  rw [← String.toList_inj, bytesToHex, hexEncodePrefixed, String.toList_ofList, h.encode_eq, hs', hs,
    List.map_cons, List.map_cons, hlower]
  rfl

/-! What is printed is read back. -/

theorem hexToBytes_bytesToHex (bytes : List UInt8) :
    D.hexToBytes (bytesToHex bytes) = .ok bytes :=
  hexToBytes_eq_ok_iff.mpr
    ⟨'x', encode bytes, Or.inl rfl, String.toList_ofList, denotes_encode bytes⟩

theorem decodeViemHex_hexEncodePrefixed (bytes : List UInt8) :
    D.decodeViemHex (hexEncodePrefixed bytes) = .ok bytes :=
  decodeViemHex_eq_ok_iff.mpr ⟨encode bytes, String.toList_ofList, denotes_encode bytes⟩

end Deps

theorem exists_hexText_iff {s : String} {x : Char} :
    IsHexText x s ↔ ∃ digits, s.toList = '0' :: x :: digits ∧ ∃ bytes, Denotes digits bytes := by
  simp only [IsHexText, exists_denotes_iff]

/-- The parsers accept one prefix and whole bytes of digits — in ethers' case the
prefix of either letter — and read what the printer prints back. -/
theorem hex_grammar (D : Deps) :
    (∀ s, (∃ bytes, D.hexToBytes s = .ok bytes) ↔ IsHexText 'x' s ∨ IsHexText 'X' s) ∧
    (∀ s bytes, D.hexToBytes s = .ok bytes →
      Denotes (s.toList.drop 2) bytes ∧ Deps.bytesToHex bytes = s.toLower) ∧
    (∀ s bytes, D.decodeViemHex s = .ok bytes ↔
      D.hexToBytes s = .ok bytes ∧ HEX_PREFIX <+: s.toList) ∧
    ∀ bytes, D.hexToBytes (Deps.bytesToHex bytes) = .ok bytes ∧
      D.decodeViemHex (Deps.bytesToHex bytes) = .ok bytes := by
  refine ⟨fun s => ?_, fun s bytes => ?_, fun s bytes => ?_, fun bytes => ⟨?_, ?_⟩⟩
  · simp only [Deps.hexToBytes_eq_ok_iff, exists_hexText_iff]
    constructor
    · rintro ⟨bytes, x, digits, rfl | rfl, hs, h⟩
      · exact Or.inl ⟨digits, hs, bytes, h⟩
      · exact Or.inr ⟨digits, hs, bytes, h⟩
    · rintro (⟨digits, hs, bytes, h⟩ | ⟨digits, hs, bytes, h⟩)
      · exact ⟨bytes, 'x', digits, Or.inl rfl, hs, h⟩
      · exact ⟨bytes, 'X', digits, Or.inr rfl, hs, h⟩
  · intro hok
    obtain ⟨x, digits, hx, hs, h⟩ := Deps.hexToBytes_eq_ok_iff.mp hok
    refine ⟨?_, Deps.bytesToHex_of_denotes hx hs h⟩
    rw [hs]
    exact h
  · rw [Deps.decodeViemHex_eq_ok_iff, Deps.hexToBytes_eq_ok_iff]
    constructor
    · rintro ⟨digits, hs, h⟩
      exact ⟨⟨'x', digits, Or.inl rfl, hs, h⟩, digits, hs.symm⟩
    · rintro ⟨⟨x, digits, -, hs, h⟩, rest, hrest⟩
      have hx : x = 'x' := by
        rw [hs] at hrest
        exact (List.cons.inj (List.cons.inj hrest).2).1.symm
      exact ⟨digits, hx ▸ hs, h⟩
  · exact Deps.hexToBytes_bytesToHex bytes
  · exact Deps.decodeViemHex_hexEncodePrefixed bytes

theorem hex_grammar_upper_prefix :
    reference₀.hexToBytes "0XaB" = .ok [0xab] ∧ Deps.bytesToHex [0xab] = "0XaB".toLower := by
  have hok : reference₀.hexToBytes "0XaB" = .ok [0xab] := by decide
  exact ⟨hok, ((hex_grammar reference₀).2.1 _ _ hok).2⟩

end AmbireCrypto
