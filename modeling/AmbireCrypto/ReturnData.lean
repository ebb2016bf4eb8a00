/-
# `AmbireCrypto.ReturnData` — which return data is answered

`decodeFunctionResult` is a chain in which every link can refuse.  `Decoding` is
the chain when none does, up to the decoded values; what is left is to show them,
so a call is answered exactly when its decoding can be shown
(`decodeFunctionResult_ok_iff`).

Nothing in the chain looks at the word of a boolean.  alloy makes `true` of every
word but zero, and `valueToJson` never sees the word; viem refuses all words but
zero and one.

## What is proved

`BoolWord w token t` says that `w` is decoded as a boolean somewhere inside a token of
type `t`, and `CanonicalBools` that all such words of a call are zero or one.  That an
answered call is one of these can be relied on exactly where every other call is refused
for something else in it (`bool_words_iff`).  At the end a word of two is answered `true`.

A call has one decoding at most (`Decoding.unique`), so it makes no difference whether a
statement is about all of them or about some.
-/
import AmbireCrypto.Rendering
import AmbireCrypto.HexGrammar
import Mathlib.Data.List.Forall2

namespace AmbireCrypto

open Traverse

/-! ## The decoding of a call -/

/-- A call's return data, decoded. -/
structure Decoding (D : Deps) (abiJson functionName dataHex : String) where
  abi : JsonAbi
  func : Function
  data : List UInt8
  types : List DynSolType
  tokens : List DynToken
  values : List DynSolValue
  parsed : D.parseAbi abiJson = .ok abi
  found : findFunction abi functionName = .ok func
  read : D.decodeViemHex dataHex = .ok data
  resolved : List.Forall₂ (fun p t => D.resolve p = some t) func.outputs types
  cut : D.decodeTokens types data = .ok tokens
  made : detokenizeMany D.stringFromUtf8Lossy tokens types = some values

theorem length_of_detokenizeMany {lossy : List UInt8 → String} :
    ∀ {tokens : List DynToken} {types : List DynSolType} {values : List DynSolValue},
      detokenizeMany lossy tokens types = some values → types.length = values.length
  | [], [], values, h => by
      cases h
      rfl
  | [], _ :: _, values, h => by cases h
  | _ :: _, [], values, h => by cases h
  | token :: tokens, t :: types, values, h => by
      obtain ⟨v, -, h⟩ := Option.bind_eq_some_iff.mp h
      obtain ⟨vs, hvs, rfl⟩ := Option.map_eq_some_iff.mp h
      exact congrArg (· + 1) (length_of_detokenizeMany hvs)

namespace Decoding

variable {D : Deps} {abiJson functionName dataHex : String}

theorem unique (r r' : Decoding D abiJson functionName dataHex) : r = r' := by
  have hresolve : Relator.RightUnique fun p t => D.resolve p = some t := by
    intro p t t' h h'
    exact Option.some.inj (h.symm.trans h')
  obtain ⟨abi, func, data, types, tokens, values, parsed, found, read, resolved, cut, made⟩ := r
  obtain ⟨abi', func', data', types', tokens', values', parsed', found', read', resolved', cut',
    made'⟩ := r'
  cases parsed.symm.trans parsed'
  cases found.symm.trans found'
  cases read.symm.trans read'
  cases hresolve.forall₂ resolved resolved'
  cases cut.symm.trans cut'
  cases made.symm.trans made'
  rfl

/-- Every output can be shown: its tuples fit their components, and JavaScript can
hold every leaf. -/
def Showable (r : Decoding D abiJson functionName dataHex) : Prop :=
  ∀ e ∈ r.func.outputs.zip r.values,
    Shaped e.1.components e.2 ∧ ∀ x : DynSolValue, x.In e.2 → ¬ x.Refused

theorem length_values (r : Decoding D abiJson functionName dataHex) :
    r.func.outputs.length = r.values.length :=
  r.resolved.length_eq.trans (length_of_detokenizeMany r.made)

end Decoding

/-! ## When a call is answered -/

namespace Deps

variable {D : Deps}

theorem abiDecodeOutput_eq_ok_iff {f : Function} {data : List UInt8}
    {values : List DynSolValue} :
    D.abiDecodeOutput f data = .ok values ↔
      ∃ types tokens, List.Forall₂ (fun p t => D.resolve p = some t) f.outputs types ∧
        D.decodeTokens types data = .ok tokens ∧
        detokenizeMany D.stringFromUtf8Lossy tokens types = some values := by
  simp only [abiDecodeOutput]
  simp only [bind_eq_ok, mapM_eq_ok_iff]
  constructor
  · rintro ⟨types, htypes, tokens, htokens, h⟩
    refine ⟨types, tokens, htypes.imp fun p t ht => ?_, htokens, ?_⟩
    · split at ht
      · rename_i t' hres
        rw [hres, Except.ok.inj ht]
      · cases ht
    · split at h
      · rename_i made
        cases h
        exact made
      · cases h
  · rintro ⟨types, tokens, htypes, htokens, hmade⟩
    refine ⟨types, htypes.imp fun p t ht => ?_, tokens, htokens, ?_⟩
    · rw [ht]
    · rw [hmade]

theorem exists_valuesToJson_iff {outputs : List Param} {values : List DynSolValue}
    (hlen : outputs.length = values.length) :
    (∃ j, D.valuesToJson outputs values = .ok j) ↔
      ∀ e ∈ outputs.zip values, ∃ j, D.renderField e = .ok j := by
  rw [valuesToJson, if_neg (not_not.mpr hlen.symm)]
  cases outputs.zip values with
  | nil => exact ⟨fun _ e he => absurd he List.not_mem_nil, fun _ => ⟨_, rfl⟩⟩
  | cons e es =>
      cases es with
      | nil =>
          constructor
          · intro h e' he'
            rwa [List.mem_singleton.mp he']
          · intro h
            exact h e List.mem_cons_self
      | cons e' es =>
          show (∃ j, Value.array <$> (e :: e' :: es).mapM D.renderField = .ok j) ↔ _
          rw [exists_map_eq_ok, exists_mapM_eq_ok_iff]

theorem exists_valuesToJson_iff_showable {abiJson functionName dataHex : String}
    (r : Decoding D abiJson functionName dataHex) :
    (∃ j, D.valuesToJson r.func.outputs r.values = .ok j) ↔ r.Showable := by
  rw [exists_valuesToJson_iff r.length_values]
  refine forall₂_congr fun e _ => ?_
  exact valueToJson_ok_iff e.2 e.1

/-- A call is answered exactly when its return data decodes to values that can be
shown. -/
theorem decodeFunctionResult_ok_iff {abiJson functionName dataHex : String} :
    (∃ text, D.decodeFunctionResult abiJson functionName dataHex = .ok text) ↔
      ∃ r : Decoding D abiJson functionName dataHex, r.Showable := by
  constructor
  · rintro ⟨text, h⟩
    simp only [decodeFunctionResult] at h
    split at h
    · cases h
    · rename_i abi parsed
      obtain ⟨func, found, h⟩ := bind_eq_ok.mp h
      obtain ⟨data, read, h⟩ := bind_eq_ok.mp h
      split at h
      · cases h
      · rename_i values hvalues
        obtain ⟨types, tokens, resolved, cut, made⟩ := abiDecodeOutput_eq_ok_iff.mp hvalues
        obtain ⟨j, hj, -⟩ := bind_eq_ok.mp h
        exact ⟨⟨abi, func, data, types, tokens, values, parsed, found, read, resolved, cut, made⟩,
          (exists_valuesToJson_iff_showable _).mp ⟨j, hj⟩⟩
  · rintro ⟨r, hshow⟩
    obtain ⟨j, hj⟩ := (exists_valuesToJson_iff_showable r).mpr hshow
    have hvalues := abiDecodeOutput_eq_ok_iff.mpr ⟨_, _, r.resolved, r.cut, r.made⟩
    refine ⟨j.display, ?_⟩
    simp only [decodeFunctionResult, r.parsed, r.found, r.read, hvalues, hj, bind, Except.bind]

end Deps

/-! ## Boolean words -/

/-- The word `w` is decoded at a boolean leaf. -/
inductive BoolWord (w : B256) : DynToken → DynSolType → Prop
  | here : BoolWord w (.word w) .bool
  | array {tokens : List DynToken} {token : DynToken} {t : DynSolType} :
      token ∈ tokens → BoolWord w token t → BoolWord w (.dynSeq tokens) (.array t)
  | fixedArray {tokens : List DynToken} {token : DynToken} {t : DynSolType} {size : Nat} :
      token ∈ tokens → BoolWord w token t → BoolWord w (.fixedSeq tokens) (.fixedArray t size)
  | tuple {tokens : List DynToken} {types : List DynSolType} {token : DynToken} {t : DynSolType}
      {i : Nat} :
      tokens[i]? = some token → types[i]? = some t → BoolWord w token t →
      BoolWord w (.fixedSeq tokens) (.tuple types)

section Call

variable (D : Deps) (abiJson functionName dataHex : String)

/-- Every boolean of the outputs was decoded from zero or one. -/
def Decoding.CanonicalBools {D : Deps} {abiJson functionName dataHex : String}
    (r : Decoding D abiJson functionName dataHex) : Prop :=
  ∀ w : B256, BoolWord w (.fixedSeq r.tokens) (.tuple r.types) → w.toWord = 0 ∨ w.toWord = 1

/-- A call with any other boolean is not answered. -/
def BoolsHandedOver : Prop :=
  ∀ text, D.decodeFunctionResult abiJson functionName dataHex = .ok text →
    ∀ r : Decoding D abiJson functionName dataHex, r.CanonicalBools

/-- It is not answered exactly when something else in it cannot be shown. -/
theorem bool_words_iff :
    BoolsHandedOver D abiJson functionName dataHex ↔
      ∀ r : Decoding D abiJson functionName dataHex, r.CanonicalBools ∨ ¬ r.Showable := by
  constructor
  · intro h r
    refine or_iff_not_imp_right.mpr fun hshow => ?_
    obtain ⟨text, htext⟩ := Deps.decodeFunctionResult_ok_iff.mpr ⟨r, not_not.mp hshow⟩
    exact h text htext r
  · intro h text htext r
    obtain ⟨r', hshow⟩ := Deps.decodeFunctionResult_ok_iff.mp ⟨text, htext⟩
    rw [r.unique r']
    exact (h r').resolve_right (not_not.mpr hshow)

end Call

/-! A contract that says whether it is paused. -/

def pausedFunction : Function := ⟨"paused", [], [⟨"bool", "", []⟩]⟩

def pausedAbiJson : String :=
  "[\x7b\"type\":\"function\",\"name\":\"paused\",\"stateMutability\":\"view\"," ++
    "\"inputs\":[],\"outputs\":[\x7b\"name\":\"\",\"type\":\"bool\"\x7d]\x7d]"

def pausedDeps : Deps := reference ⟨[("paused", [pausedFunction])]⟩ .null

/-- The word of a small number. -/
def wordOf (n : UInt8) : B256 := ⟨List.replicate 31 0 ++ [n], by simp⟩

theorem toWord_wordOf (n : UInt8) : (wordOf n).toWord = BitVec.ofNat 256 n.toNat := by
  have hzeros : (List.replicate 31 (0 : UInt8)).foldl (fun acc b => 256 * acc + b.toNat) 0 = 0 := by
    decide
  show BitVec.ofNat 256 ((List.replicate 31 0 ++ [n]).foldl _ 0) = _
  rw [List.foldl_append, hzeros, List.foldl_cons, List.foldl_nil, Nat.mul_zero, Nat.zero_add]

/-- One boolean, decoded from that word. -/
def pausedDecoding (n : UInt8) :
    Decoding pausedDeps pausedAbiJson "paused" (hexEncodePrefixed (wordOf n).bytes) where
  abi := ⟨[("paused", [pausedFunction])]⟩
  func := pausedFunction
  data := (wordOf n).bytes
  types := [.bool]
  tokens := [.word (wordOf n)]
  values := [.bool (decide ((wordOf n).toWord ≠ 0))]
  parsed := rfl
  found := rfl
  read := Deps.decodeViemHex_hexEncodePrefixed _
  resolved := .cons rfl .nil
  cut := rfl
  made := rfl

theorem showable_paused (n : UInt8) : (pausedDecoding n).Showable := by
  intro e he
  rw [List.mem_singleton.mp he]
  refine ⟨.scalar trivial, fun x hx => ?_⟩
  cases hx with
  | here => exact id

theorem bool_words_iff_paused :
    BoolsHandedOver pausedDeps pausedAbiJson "paused" (hexEncodePrefixed (wordOf 1).bytes) := by
  refine (bool_words_iff _ _ _ _).mpr fun r => Or.inl ?_
  rw [r.unique (pausedDecoding 1)]
  intro w hw
  cases hw with
  | tuple htoken ht hw =>
      have hword := List.mem_singleton.mp (List.mem_of_getElem? htoken)
      subst hword
      cases hw with
      | here => exact Or.inr (toWord_wordOf 1)

theorem true_from_two :
    ¬ ∀ (D : Deps) (abiJson functionName dataHex : String),
      BoolsHandedOver D abiJson functionName dataHex := by
  intro h
  obtain ⟨text, htext⟩ := Deps.decodeFunctionResult_ok_iff.mpr ⟨_, showable_paused 2⟩
  have hword := h _ _ _ _ text htext (pausedDecoding 2) (wordOf 2) (.tuple (i := 0) rfl rfl .here)
  rw [toWord_wordOf] at hword
  revert hword
  decide

end AmbireCrypto
